import TreeScript.Proofs.Store.Guard
import TreeScript.Proofs.Store.Likeness

set_option autoImplicit false

/- Copies of values are put under keys, one after the other, into slots that nothing else leads to:
the variables of a scope, or the elements of an array. What each of them shows is what the value
shows from which the filling started, however many come after it. -/
namespace TreeScript

namespace Assoc

variable {α β γ : Type} [BEq α] {f g : β → γ}

/-- A change of what stands at one value, under which one key has it, is a set of this key. -/
theorem map_of_changed [LawfulBEq α] {entries : List (α × β)} {key : α} {b : β}
    (distinct : (entries.map (·.2)).Nodup) (found : get? entries key = some b)
    (others : ∀ b', b' ∈ entries.map (·.2) → b' ≠ b → g b' = f b') :
    entries.map (fun entry => (entry.1, g entry.2)) =
      set (entries.map fun entry => (entry.1, f entry.2)) key (g b) := by
  induction entries with
  | nil => simp [get?] at found
  | cons entry rest ih =>
      obtain ⟨k, first⟩ := entry
      obtain ⟨apart, distinctRest⟩ := List.nodup_cons.mp distinct
      have later : ∀ b' ∈ rest.map (·.2), b' ≠ b → g b' = f b' :=
        fun b' member => others b' (List.mem_cons_of_mem _ member)
      by_cases same : key = k
      · subst same
        obtain rfl : first = b := Option.some.inj ((get?_cons_self rest key first).symm.trans found)
        simp only [List.map_cons, set, beq_self_eq_true, if_true, List.cons.injEq, true_and]
        refine List.map_congr_left fun entry member => ?_
        have listed : entry.2 ∈ rest.map (·.2) := List.mem_map.mpr ⟨entry, member, rfl⟩
        rw [later _ listed fun equal => apart (equal ▸ listed)]
      · have foundLater : get? rest key = some b :=
          (get?_cons_of_ne rest first same).symm.trans found
        have listed : b ∈ rest.map (·.2) := List.mem_map.mpr ⟨_, mem_of_get? foundLater, rfl⟩
        have unchanged : g first = f first :=
          others first List.mem_cons_self fun equal => apart (equal ▸ listed)
        simp only [List.map_cons, set, beq_iff_eq, same, if_false, unchanged,
          ih distinctRest foundLater later]

theorem nodup_values_set {entries : List (α × β)} {key : α} {b : β}
    (distinct : (entries.map (·.2)).Nodup) (absent : b ∉ entries.map (·.2)) :
    ((set entries key b).map (·.2)).Nodup := by
  induction entries with
  | nil => simp [set]
  | cons entry rest ih =>
      obtain ⟨apart, distinctRest⟩ := List.nodup_cons.mp distinct
      obtain ⟨notFirst, notLater⟩ := not_or.mp (fun either => absent (List.mem_cons.mpr either))
      rw [set]
      split
      · exact List.nodup_cons.mpr ⟨notLater, distinctRest⟩
      · refine List.nodup_cons.mpr ⟨fun member => ?_, ih distinctRest notLater⟩
        obtain ⟨other, listed, same⟩ := List.mem_map.mp member
        rcases mem_set listed with old | isNew
        · exact apart (List.mem_map.mpr ⟨other, old, same⟩)
        · exact notFirst (isNew.symm.trans same)

end Assoc

namespace Store

/-- What entries show, each under its key. -/
def shownIn {κ : Type} (st : Store) (entries : List (κ × SlotId)) : List (κ × Snapshot) :=
  entries.map fun entry => (entry.1, st.snapshot (st.read entry.2))

/-- Something in the store that is not among what is being filled. -/
def Outside (own : Handle → Prop) (st : Store) (h : Handle) : Prop :=
  h.Within st.extent ∧ ¬ own h

/-- Entries on the way to be filled, from the store `st₀` on: what is there is as it was, the slots
of the entries are their own, and nothing outside leads to what is their own. -/
structure Filling {κ : Type} (own : Handle → Prop) (entries : List (κ × SlotId))
    (loose : Multiset ArrayId) (st₀ st : Store) : Prop where
  ext : Extends st₀ st
  owned : st.Owned loose
  inside : ∀ h, own h → h.Within st.extent
  new : ∀ h, own h → ¬ h.Within st₀.extent
  apart : ∀ g, Outside own st g → ∀ h ∈ st.holds g, ¬ own h
  slots : ∀ entry ∈ entries, own (.slot entry.2)
  values : ∀ entry ∈ entries, ∀ h ∈ (st.read entry.2).handles, ¬ own h
  distinct : (entries.map (·.2)).Nodup

theorem Extends.holds {st st' : Store} (ext : Extends st st') {h : Handle}
    (inside : h.Within st.extent) : st'.holds h = st.holds h := by
  cases h with
  | slot s => simp only [Store.holds, ext.slots s inside]
  | array a => simp only [Store.holds, ext.arrays a inside]
  | object o => simp only [Store.holds, object, ext.objects]
  | classData c => simp only [Store.holds, classData, ext.classes]

namespace Filling

variable {κ : Type} {own : Handle → Prop} {entries : List (κ × SlotId)}
  {loose : Multiset ArrayId} {st₀ st st' : Store} {v v' : Value}

theorem start {loose : Multiset ArrayId} (owned : st₀.Owned loose) :
    Filling (fun _ => False) ([] : List (κ × SlotId)) loose st₀ st₀ where
  ext := .refl st₀
  owned := owned
  inside _ := False.elim
  new _ := False.elim
  apart _ _ _ _ := id
  slots := by simp
  values := by simp
  distinct := .nil

theorem outside_of_old (filling : Filling own entries loose st₀ st) {h : Handle}
    (old : h.Within st₀.extent) : Outside own st h :=
  ⟨old.mono filling.ext.grows, fun ours => filling.new h ours old⟩

theorem closed (filling : Filling own entries loose st₀ st) {g : Handle}
    (outside : Outside own st g) : ∀ h ∈ st.holds g, Outside own st h :=
  fun h member => ⟨filling.owned.closed g outside.1 h member, filling.apart g outside h member⟩

theorem value_outside (filling : Filling own entries loose st₀ st) {entry : κ × SlotId}
    (member : entry ∈ entries) : ∀ h ∈ (st.read entry.2).handles, Outside own st h :=
  fun h held => ⟨filling.owned.closed _ (filling.inside _ (filling.slots entry member)) h held,
    filling.values entry member h held⟩

/-! Copies -/

/-- A store that only grows by things that lead to nothing of their own. -/
theorem extend {loose' : Multiset ArrayId} (filling : Filling own entries loose st₀ st)
    (ext : Extends st st') (owned : st'.Owned loose')
    (apart : ∀ g, Fresh st st' g → ∀ h ∈ st'.holds g, ¬ own h) :
    Filling own entries loose' st₀ st' where
  ext := filling.ext.trans ext
  owned := owned
  inside h ours := (filling.inside h ours).mono ext.grows
  new := filling.new
  apart g outside h member := by
    by_cases before : g.Within st.extent
    · rw [ext.holds before] at member
      exact filling.apart g ⟨before, outside.2⟩ h member
    · exact apart g ⟨before, outside.1⟩ h member
  slots := filling.slots
  values entry member := by
    rw [ext.slots _ (filling.inside _ (filling.slots entry member))]
    exact filling.values entry member
  distinct := filling.distinct

theorem shown_extend (filling : Filling own entries loose st₀ st) (ext : Extends st st') :
    st'.shownIn entries = st.shownIn entries := by
  refine List.map_congr_left fun entry member => ?_
  rw [ext.slots _ (filling.inside _ (filling.slots entry member))]
  exact congrArg (Prod.mk entry.1) (ext.snapshotWithin filling.owned.closed _ _ fun h held =>
    (filling.value_outside member h held).1)

theorem eq_of_fresh_newSlot {g : Handle} (fresh : Fresh st (st.newSlot v).2 g) :
    g = .slot (st.newSlot v).1 := by
  obtain ⟨before, after⟩ := fresh
  cases g with
  | slot s =>
      obtain ⟨index⟩ := s
      simp only [Handle.Within, extent, newSlot, Array.size_push, Handle.slot.injEq,
        SlotId.mk.injEq] at before after ⊢
      omega
  | array a => exact absurd after before
  | object o => exact absurd after before
  | classData c => exact absurd after before

theorem eq_of_fresh_newArray {data : ArrayData} {g : Handle}
    (fresh : Fresh st (st.newArray data).2 g) : g = .array (st.newArray data).1 := by
  obtain ⟨before, after⟩ := fresh
  cases g with
  | array a =>
      obtain ⟨index⟩ := a
      simp only [Handle.Within, extent, newArray, Array.size_push, Handle.array.injEq,
        ArrayId.mk.injEq] at before after ⊢
      omega
  | slot s => exact absurd after before
  | object o => exact absurd after before
  | classData c => exact absurd after before

theorem newSlot (filling : Filling own entries (withArray loose v) st₀ st)
    (known : ∀ h ∈ v.handles, Outside own st h) :
    Filling own entries loose st₀ (st.newSlot v).2 := by
  refine filling.extend (extends_newSlot st v)
    (filling.owned.newSlot fun h member => (known h member).1) fun g fresh h member => ?_
  obtain rfl := eq_of_fresh_newSlot fresh
  rw [Store.holds, read_newSlot_self] at member
  exact (known h member).2

theorem newArray {data : ArrayData} (filling : Filling own entries loose st₀ st)
    (known : ∀ h ∈ data.handles, Outside own st h) :
    Filling own entries (withArray loose (.array (st.newArray data).1)) st₀
      (st.newArray data).2 := by
  refine filling.extend (extends_newArray st data)
    (filling.owned.newArray fun h member => (known h member).1) fun g fresh h member => ?_
  obtain rfl := eq_of_fresh_newArray fresh
  rw [Store.holds, array_newArray_self] at member
  exact (known h member).2

theorem copyLaws (filling : Filling own entries loose st₀ st) (shared : SlotId → Bool) :
    CopyLaws (fun loose st => Filling own entries loose st₀ st) withArray
      (fun e h => h.Within e ∧ ¬ own h) (Outside own st) shared st where
  mono grows known := ⟨known.1.mono grows, known.2⟩
  plain plain filling := (withArray_plain plain _).symm ▸ filling
  newSlot filling known := filling.newSlot known
  newArray filling known := filling.newArray known
  fresh filling fresh := ⟨fresh.2, fun ours => fresh.1 (filling.inside _ ours)⟩
  object outside := outside
  inside outside := outside.1
  slotInside outside member := (filling.closed outside _ member).1
  kept outside member _ := filling.closed outside _ member
  copied outside member _ h held := filling.closed (filling.closed outside _ member) h held

/-- A copy of what was there at the start shows the same, and belongs to no entry yet. -/
theorem copy {roots : List Handle} (filling : Filling own entries loose st₀ st)
    (closed : st₀.Closed) (old : ∀ h ∈ v.handles, h.Within st₀.extent)
    (done : st.copy roots v = some (v', st')) :
    Filling own entries (withArray loose v') st₀ st' ∧ (∀ h ∈ v'.handles, Outside own st' h) ∧
      st'.snapshot v' = st₀.snapshot v ∧ st'.shownIn entries = st.shownIn entries := by
  have source : ∀ h ∈ v.handles, Outside own st h :=
    fun h member => filling.outside_of_old (old h member)
  have ext := copy_extends done
  obtain ⟨copied, known⟩ := (filling.copyLaws _).copy filling source done
  refine ⟨copied, known, ?_, filling.shown_extend ext⟩
  calc st'.snapshot v'
      = st.snapshot v := (copy_copied filling.owned.closed (fun h member => (source h member).1)
          done).snapshotWithin ext filling.owned.closed (fun h member => (source h member).1) _
    _ = st₀.snapshot v := filling.ext.snapshotWithin closed _ _ old

/-! Changes to what is their own -/

/-- What is outside shows the same after a change to what is their own. -/
theorem snapshot_adjust (filling : Filling own entries loose st₀ st)
    (change : Adjusts own v st st') {w : Value} (outside : ∀ h ∈ w.handles, Outside own st h) :
    st'.snapshot w = st.snapshot w := by
  have guards : Guards (Outside own st) st st' :=
    (Guards.refl _ st).adjust (fun _ => And.left) (fun _ => And.right) change
  exact guards.snapshotWithin (fun g => filling.closed) (fun _ => And.left) _ w outside

section keyed

variable [BEq κ]

/-- A copy goes into the slot of an entry. -/
theorem write [LawfulBEq κ] (filling : Filling own entries (withArray loose v) st₀ st)
    (known : ∀ h ∈ v.handles, Outside own st h) {key : κ} {s : SlotId}
    (found : Assoc.get? entries key = some s) :
    Filling own entries loose st₀ (st.write s v) ∧
      (st.write s v).shownIn entries = Assoc.set (st.shownIn entries) key (st.snapshot v) := by
  have ours : own (.slot s) := filling.slots _ (Assoc.mem_of_get? found)
  have here : (Handle.slot s).Within st.extent := filling.inside _ ours
  have change : Adjusts own v st (st.write s v) := adjusts_write st v ours
  have same : ∀ t, t ≠ s → (st.write s v).read t = st.read t :=
    fun t apart => read_write_of_ne st s t v apart
  have written : (st.write s v).read s = v := read_write_self st s v here
  refine ⟨⟨filling.ext.write (filling.new _ ours) v, ?_, fun h own => ?_, filling.new,
    fun g outside h member => ?_, filling.slots, fun entry listed => ?_, filling.distinct⟩, ?_⟩
  · exact filling.owned.adjust filling.inside (fun h member => (known h member).1) change
  · exact (filling.inside h own).mono change.grows
  · have before : Outside own st g := by simpa [Outside, extent, Store.write] using outside
    refine filling.apart g before h ?_
    cases g with
    | slot t => rwa [Store.holds, same t fun equal => outside.2 (equal ▸ ours)] at member
    | array a => exact member
    | object o => exact member
    | classData c => exact member
  · by_cases isTarget : entry.2 = s
    · rw [isTarget, written]
      exact fun h member => (known h member).2
    · rw [same _ isTarget]
      exact filling.values entry listed
  · have result : (st.write s v).snapshot ((st.write s v).read s) = st.snapshot v := by
      rw [written]
      exact filling.snapshot_adjust change known
    rw [← result]
    refine Assoc.map_of_changed (f := fun t => st.snapshot (st.read t))
      (g := fun t => (st.write s v).snapshot ((st.write s v).read t)) filling.distinct found ?_
    intro t listed apart
    obtain ⟨entry, member, rfl⟩ := List.mem_map.mp listed
    rw [same _ apart]
    exact filling.snapshot_adjust change (filling.value_outside member)

/-- A copy goes into a new slot, which takes the place of an entry or makes a new one. -/
theorem add (filling : Filling own entries (withArray loose v) st₀ st)
    (known : ∀ h ∈ v.handles, Outside own st h) (key : κ) :
    Filling (fun h => own h ∨ h = .slot (st.newSlot v).1)
        (Assoc.set entries key (st.newSlot v).1) loose st₀ (st.newSlot v).2 ∧
      (st.newSlot v).2.shownIn (Assoc.set entries key (st.newSlot v).1) =
        Assoc.set (st.shownIn entries) key (st.snapshot v) := by
  have grown := filling.newSlot known
  have fresh := fresh_newSlot st v
  have ext := extends_newSlot st v
  have never : ∀ {h : Handle}, h.Within st.extent → h ≠ .slot (st.newSlot v).1 :=
    fun within same => fresh.1 (same ▸ within)
  have stored : (st.newSlot v).2.read (st.newSlot v).1 = v := read_newSlot_self st v
  refine ⟨⟨grown.ext, grown.owned, ?_, ?_, fun g outside h member => ?_, fun entry member => ?_,
    fun entry member h held => ?_, ?_⟩, ?_⟩
  · rintro h (ours | rfl)
    · exact grown.inside h ours
    · exact fresh.2
  · rintro h (ours | rfl)
    · exact grown.new h ours
    · exact fun old => fresh.1 (old.mono filling.ext.grows)
  · obtain ⟨notOwn, notNew⟩ := not_or.mp outside.2
    have before : g.Within st.extent := by
      by_contra later
      exact notNew (eq_of_fresh_newSlot ⟨later, outside.1⟩)
    rintro (ours | rfl)
    · exact grown.apart g ⟨outside.1, notOwn⟩ h member ours
    · rw [ext.holds before] at member
      exact never (filling.owned.closed g before _ member) rfl
  · rcases Assoc.mem_set member with old | isNew
    · exact .inl (grown.slots entry old)
    · exact .inr (isNew ▸ rfl)
  · have outside : Outside own st h := by
      rcases Assoc.mem_set member with old | isNew
      · rw [ext.slots _ (filling.inside _ (filling.slots entry old))] at held
        exact filling.value_outside old h held
      · rw [isNew, stored] at held
        exact known h held
    exact fun ours => ours.elim outside.2 (never outside.1)
  · refine Assoc.nodup_values_set filling.distinct fun member => ?_
    obtain ⟨entry, listed, same⟩ := List.mem_map.mp member
    exact never (filling.inside _ (filling.slots entry listed)) (same ▸ rfl)
  · have shows : (st.newSlot v).2.snapshot ((st.newSlot v).2.read (st.newSlot v).1) =
        st.snapshot v := by
      rw [stored]
      exact ext.snapshotWithin filling.owned.closed _ _ fun h member => (known h member).1
    calc (st.newSlot v).2.shownIn (Assoc.set entries key (st.newSlot v).1)
        = Assoc.set ((st.newSlot v).2.shownIn entries) key (st.snapshot v) := by
          rw [← shows]
          exact Assoc.map_set entries key _ fun s => (st.newSlot v).2.snapshot ((st.newSlot v).2.read s)
      _ = Assoc.set (st.shownIn entries) key (st.snapshot v) := by
          rw [filling.shown_extend ext]

end keyed

/-- The array whose elements are the entries takes them up. -/
theorem setArray (filling : Filling own entries loose st₀ st) {a : ArrayId}
    (ours : own (.array a)) {data : ArrayData} (held : ∀ h ∈ data.handles, own h)
    (order : Assoc.keys (st.array a).elements <+: Assoc.keys data.elements) :
    Filling own entries loose st₀ (st.setArray a data) ∧
      (st.setArray a data).shownIn entries = st.shownIn entries := by
  have change : Adjusts own .null st (st.setArray a data) :=
    adjusts_setArray st .null ours (fun h member => .inr (held h member)) order
  refine ⟨⟨filling.ext.setArray (filling.new _ ours) data, ?_, fun h own => ?_, filling.new,
    fun g outside h member => ?_, filling.slots, filling.values, filling.distinct⟩, ?_⟩
  · exact Owned.adjust (v := .null) filling.owned filling.inside (by simp [Value.handles]) change
  · exact (filling.inside h own).mono change.grows
  · have before : Outside own st g := by simpa [Outside, extent, Store.setArray] using outside
    refine filling.apart g before h ?_
    cases g with
    | array b =>
        rwa [Store.holds, array_setArray_of_ne st a b data fun same => outside.2 (same ▸ ours)]
          at member
    | slot s => exact member
    | object o => exact member
    | classData c => exact member
  · refine List.map_congr_left fun entry member => ?_
    exact congrArg (Prod.mk entry.1) (filling.snapshot_adjust change (filling.value_outside member))

end Filling
end Store
end TreeScript
