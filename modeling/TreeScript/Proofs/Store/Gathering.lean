import TreeScript.Proofs.Store.Indexing
import TreeScript.Proofs.Store.Nesting
import TreeScript.Proofs.Store.Offshoot

set_option autoImplicit false

/- A new array that gathers the elements of older ones, in slots that are kept and in new slots with
copies. It shows the values it has gathered, and it can be copied where these values can. -/
namespace TreeScript

/-- What is to be seen of a value: itself, unless it is an array, and its snapshots. -/
structure Face where
  value : Option Value
  snapshots : Nat → Snapshot

theorem map_eq_map_of_forall₂ {α β γ : Type} {f : α → γ} {g : β → γ} {l : List α} {l' : List β}
    (same : List.Forall₂ (fun x y => f x = g y) l l') : l.map f = l'.map g := by
  induction same with
  | nil => rfl
  | cons first _ ih => rw [List.map_cons, List.map_cons, first, ih]

theorem forall_of_forall₂ {α β : Type} {P : β → Prop} {l : List α} {l' : List β}
    (each : List.Forall₂ (fun _ y => P y) l l') : ∀ y ∈ l', P y := by
  induction each with
  | nil => simp
  | cons first _ ih => exact List.forall_mem_cons.mpr ⟨first, ih⟩

namespace Store

def face (st : Store) (v : Value) : Face where
  value := match v with
    | .array _ => none
    | _ => some v
  snapshots depth := st.snapshotWithin depth v

/-- The keys of an array with their values, in their order. -/
def entries (st : Store) (a : ArrayId) : List (Key × Value) :=
  (st.array a).elements.map fun element => (element.1, st.read element.2)

def faces (st : Store) (a : ArrayId) : List (Key × Face) :=
  (st.entries a).map fun entry => (entry.1, st.face entry.2)

/-- A slot in which there is now a value of an older store, or a copy of it. The copy keeps all that
was shared by the roots. -/
inductive Drawn (roots : List Handle) (st st' : Store) (w : Value) (s : SlotId) : Prop
  | kept (inside : (Handle.slot s).Within st.extent) (reads : st.read s = w)
  | copied (inside : (Handle.slot s).Within st'.extent) {shared : SlotId → Bool}
      (keeps : ∀ t, (Handle.slot t).Within st.extent → st.isShared roots t = true →
        shared t = true)
      (copied : Copied shared st st' w (st'.read s))

/-- A new array with the given entries of an older store, to which no slot leads. -/
structure Gathers (roots : List Handle) (st st' : Store) (u : ArrayId)
    (taken : List (Key × Value)) : Prop where
  ext : Extends st st'
  closed : st'.Closed
  new : Fresh st st' (.array u)
  unheld : ∀ s, st'.read s ≠ .array u
  wellFormed : (st'.array u).WellFormed
  drawn : List.Forall₂ (fun entry element => element.1 = entry.1 ∧
    Drawn roots st st' entry.2 element.2) taken (st'.array u).elements

variable {shared : SlotId → Bool} {roots roots' : List Handle} {st st' st₁ : Store}
  {u : ArrayId} {v v' w : Value} {s : SlotId} {taken : List (Key × Value)}

/-! What a copy shows, and where it can be copied again -/

theorem Extends.face (ext : Extends st st') (closed : st.Closed)
    (inside : ∀ h ∈ v.handles, h.Within st.extent) : st'.face v = st.face v := by
  have snapshots : ∀ depth, st'.snapshotWithin depth v = st.snapshotWithin depth v :=
    fun depth => ext.snapshotWithin closed depth v inside
  simp only [Store.face, snapshots]

theorem Copied.face (copied : Copied shared st st' v v') (ext : Extends st st')
    (closed : st.Closed) (inside : ∀ h ∈ v.handles, h.Within st.extent) :
    st'.face v' = st.face v := by
  cases copied with
  | plain plain => exact ext.face closed inside
  | array new nextIndex pointer keys kept fresh copied =>
      have whole := Copied.array new nextIndex pointer keys kept fresh copied
      simp only [Store.face, whole.snapshotWithin ext closed inside]

/-- A copy is none of an array that no slot leads to, so a change of that array leaves it one. -/
theorem Copied.setArray (copied : Copied shared st st' v v') (data : ArrayData)
    (unheld : ∀ s, st'.read s ≠ .array u) (apart : v' ≠ .array u) :
    Copied shared st (st'.setArray u data) v v' := by
  induction copied with
  | plain plain => exact .plain plain
  | @array a b new nextIndex pointer keys kept fresh copied ih =>
      have other : b ≠ u := fun same => apart (congrArg Value.array same)
      have same : (st'.setArray u data).array b = st'.array b :=
        array_setArray_of_ne st' u b data other
      have pairs : elementPairs st (st'.setArray u data) a b = elementPairs st st' a b := by
        simp only [elementPairs, same]
      refine .array (by simpa [Fresh, extent_setArray] using new) (same ▸ nextIndex)
        (same ▸ pointer) (same ▸ keys) (pairs ▸ kept) (fun pair member unshared => ?_)
        fun pair member unshared => ?_
      · simpa [Fresh, extent_setArray] using fresh pair (pairs ▸ member) unshared
      · exact ih pair (pairs ▸ member) unshared (unheld _)

/-- What is shared is so in a larger store too, with more roots. -/
theorem isShared_later (ext : Extends st st') (more : roots.Sublist roots')
    (slot : (Handle.slot s).Within st.extent) (shared : st.isShared roots s = true) :
    st'.isShared roots' s = true :=
  isShared_of_extends ext (fun _ root => more.subset root) slot (more.count_le _) shared

theorem unshared_before (ext : Extends st st') (more : roots.Sublist roots')
    (slot : (Handle.slot s).Within st.extent) (unshared : st'.isShared roots' s = false) :
    st.isShared roots s = false := by
  by_contra shared
  have still := isShared_later ext more slot (by simpa using shared)
  simp [unshared] at still

/-- A copy that ends does so in a larger store too, with more roots. -/
theorem Copyable.later (copyable : Copyable (st.isShared roots) st v) (closed : st.Closed)
    (inside : ∀ h ∈ v.handles, h.Within st.extent) (ext : Extends st st')
    (more : roots.Sublist roots') : Copyable (st'.isShared roots') st' v := by
  induction copyable with
  | plain plain => exact .plain plain
  | @array a elements ih =>
      have here : (Handle.array a).Within st.extent := inside _ List.mem_cons_self
      refine .array fun s member unshared => ?_
      rw [ext.arrays a here] at member
      have slot : (Handle.slot s).Within st.extent := closed (.array a) here _ member
      rw [ext.slots s slot]
      exact ih s member (unshared_before ext more slot unshared) (closed.read slot)

/-- What is kept in a copy was shared, and may be so no longer; but its own copy ends. -/
theorem Copied.copyable_later (copied : Copied shared st st' v v')
    (copyable : Copyable (st.isShared roots) st v) (closed : st.Closed)
    (inside : ∀ h ∈ v.handles, h.Within st.extent) (ext : Extends st st')
    (keeps : ∀ t, (Handle.slot t).Within st.extent → st.isShared roots t = true →
      shared t = true) : Copyable (st'.isShared roots) st' v' := by
  induction copied with
  | plain plain => exact .plain plain
  | @array a b new nextIndex pointer keys kept fresh copied ih =>
      have here : (Handle.array a).Within st.extent := inside _ List.mem_cons_self
      have original : ∀ t, Handle.slot t ∈ (st.array a).handles → st.isShared roots t = false →
          Copyable (st.isShared roots) st (st.read t) := by
        cases copyable with
        | plain plain => exact absurd rfl (plain a)
        | array elements => exact elements
      refine .array fun s member unshared => ?_
      obtain ⟨element, listed, isSlot⟩ := List.mem_map.mp member
      obtain ⟨pair, paired, rfl⟩ := (exists_pair keys).2 element listed
      obtain rfl := Handle.slot.inj isSlot
      have before := (mem_elements_of_pair paired).1
      have slot : (Handle.slot pair.1.2).Within st.extent := closed.element here before
      have held : Handle.slot pair.1.2 ∈ (st.array a).handles :=
        List.mem_map.mpr ⟨pair.1, before, rfl⟩
      cases isShared : shared pair.1.2 with
      | true =>
          have same : pair.2.2 = pair.1.2 := kept pair paired isShared
          rw [same] at unshared ⊢
          have alone := unshared_before ext (.refl roots) slot unshared
          rw [ext.slots _ slot]
          exact (original _ held alone).later closed (closed.read slot) ext (.refl roots)
      | false =>
          have alone : st.isShared roots pair.1.2 = false := by
            by_contra sharedBefore
            have still := keeps _ slot (by simpa using sharedBefore)
            simp [isShared] at still
          exact ih pair paired isShared (original _ held alone) (closed.read slot)

/-! Slots that values are drawn into -/

namespace Drawn

theorem face (drawn : Drawn roots st st' w s) (ext : Extends st st') (closed : st.Closed)
    (inside : ∀ h ∈ w.handles, h.Within st.extent) : st'.face (st'.read s) = st.face w := by
  cases drawn with
  | kept there reads =>
      rw [ext.slots s there, reads]
      exact ext.face closed inside
  | copied _ keeps copied => exact copied.face ext closed inside

theorem copyable (drawn : Drawn roots st st' w s) (ext : Extends st st') (closed : st.Closed)
    (inside : ∀ h ∈ w.handles, h.Within st.extent)
    (copyable : Copyable (st.isShared roots) st w) :
    Copyable (st'.isShared roots) st' (st'.read s) := by
  cases drawn with
  | kept there reads =>
      rw [ext.slots s there, reads]
      exact copyable.later closed inside ext (.refl roots)
  | copied _ keeps copied => exact copied.copyable_later copyable closed inside ext keeps

theorem extend (drawn : Drawn roots st st' w s) (ext : Extends st' st₁) :
    Drawn roots st st₁ w s := by
  cases drawn with
  | kept there reads => exact .kept there reads
  | copied inside keeps copied =>
      rw [← ext.slots s inside] at copied
      exact .copied (inside.mono ext.grows) keeps (copied.extend ext)

theorem setArray (drawn : Drawn roots st st' w s) (data : ArrayData)
    (unheld : ∀ s, st'.read s ≠ .array u) : Drawn roots st (st'.setArray u data) w s := by
  cases drawn with
  | kept there reads => exact .kept there reads
  | copied inside keeps copied =>
      refine .copied ?_ keeps (copied.setArray data unheld (unheld s))
      rwa [extent_setArray]

end Drawn

/-! The store around the new array -/

/-- A closed store in which no slot leads to certain arrays. -/
structure Shuns (avoided : List ArrayId) (st : Store) : Prop where
  closed : st.Closed
  there : ∀ a ∈ avoided, (Handle.array a).Within st.extent
  unheld : ∀ a ∈ avoided, ∀ s, st.read s ≠ .array a

/-- What such a store may hold. -/
structure Clear (avoided : List ArrayId) (e : Extent) (h : Handle) : Prop where
  inside : h.Within e
  apart : ∀ a ∈ avoided, h ≠ .array a

variable {avoided : List ArrayId}

theorem Shuns.clear (shuns : Shuns avoided st) (inside : (Handle.slot s).Within st.extent) :
    ∀ h ∈ (st.read s).handles, Clear avoided st.extent h := by
  refine fun h member => ⟨shuns.closed.read inside h member, ?_⟩
  rintro a listed rfl
  rcases Value.mem_handles member with ⟨b, reads, isArray⟩ | ⟨o, -, isArray⟩
  · cases isArray
    exact shuns.unheld a listed s reads
  · cases isArray

theorem Shuns.newSlot (shuns : Shuns avoided st)
    (clear : ∀ h ∈ v.handles, Clear avoided st.extent h) : Shuns avoided (st.newSlot v).2 where
  closed := closed_of_adjusts shuns.closed (fun _ => False.elim)
    (fun h member => (clear h member).inside) (adjusts_newSlot (fun _ => False) v st)
  there a listed := (shuns.there a listed).mono (extent_newSlot st v)
  unheld a listed s := by
    rw [read_newSlot]
    split
    · rintro rfl
      exact (clear _ List.mem_cons_self).apart a listed rfl
    · exact shuns.unheld a listed s

theorem Shuns.copyLaws (shuns : Shuns avoided st) (shared : SlotId → Bool) :
    CopyLaws (fun (_ : Unit) => Shuns avoided) (fun _ _ => ()) (Clear avoided)
      (Clear avoided st.extent) shared st where
  mono grows clear := ⟨clear.inside.mono grows, clear.apart⟩
  plain _ good := good
  newSlot good clear := good.newSlot clear
  newArray {_ st data} good clear := by
    refine ⟨closed_newArray good.closed fun h member => (clear h member).inside, ?_, good.unheld⟩
    exact fun a listed => (good.there a listed).mono (extends_newArray st data).grows
  fresh good fresh := by
    refine ⟨fresh.2, ?_⟩
    rintro a listed rfl
    exact fresh.1 (good.there a listed)
  object clear := clear
  inside clear := clear.inside
  slotInside clear member := shuns.closed _ clear.inside _ member
  kept clear member _ := ⟨shuns.closed _ clear.inside _ member, fun _ _ => Handle.noConfusion⟩
  copied clear member _ := shuns.clear (shuns.closed _ clear.inside _ member)

theorem shuns_nil (closed : st.Closed) : Shuns [] st := ⟨closed, by simp, by simp⟩

/-! Gathering -/

theorem Copied.keys {a b : ArrayId} (copied : Copied shared st st' (.array a) (.array b)) :
    Assoc.keys (st'.array b).elements = Assoc.keys (st.array a).elements := by
  cases copied with
  | plain plain => exact absurd rfl (plain a)
  | array new nextIndex pointer keys kept fresh copied => exact keys

theorem Copied.drawn {a b : ArrayId}
    (copied : Copied (st.isShared roots') st st' (.array a) (.array b)) (closed : st.Closed)
    (inside : (Handle.array a).Within st.extent) (more : roots.Sublist roots') :
    List.Forall₂ (fun entry element => element.1 = entry.1 ∧
      Drawn roots st st' entry.2 element.2) (st.entries a) (st'.array b).elements := by
  cases copied with
  | plain plain => exact absurd rfl (plain a)
  | array new nextIndex pointer keys kept fresh copied =>
      have named : List.Forall₂ (fun old element : Key × SlotId => element.1 = old.1)
          (st.array a).elements (st'.array b).elements := by
        have same : List.Forall₂ (· = ·) (Assoc.keys (st'.array b).elements)
            (Assoc.keys (st.array a).elements) := by rw [keys, List.forall₂_eq_eq_eq]
        simpa [Assoc.keys, List.forall₂_map_left_iff, List.forall₂_map_right_iff] using same.flip
      rw [entries, List.forall₂_map_left_iff]
      refine List.forall₂_iff_zip.mpr ⟨named.length_eq, fun {old element} paired => ?_⟩
      refine ⟨List.forall₂_zip named paired, ?_⟩
      have slot := closed.element inside (List.of_mem_zip paired).1
      cases isShared : st.isShared roots' old.2 with
      | true =>
          have same : element.2 = old.2 := kept (old, element) paired isShared
          exact .kept (same ▸ slot) (congrArg st.read same)
      | false =>
          exact .copied (fresh (old, element) paired isShared).2
            (fun _ inside => isShared_later (.refl st) more inside)
            (copied (old, element) paired isShared)

/-- The copy of an array has gathered its entries. -/
theorem gathers_copy {a : ArrayId} (closed : st.Closed)
    (inside : (Handle.array a).Within st.extent) (wellFormed : (st.array a).WellFormed)
    (more : roots.Sublist roots') (done : st.copy roots' (.array a) = some (v, st')) :
    ∃ u, v = .array u ∧ Gathers roots st st' u (st.entries a) := by
  have within : ∀ h ∈ (Value.array a).handles, h.Within st.extent := by
    simpa [Value.handles] using inside
  have copied := copy_copied closed within done
  have ext := copy_extends done
  have laws := (shuns_nil closed).copyLaws (st.isShared roots')
  obtain ⟨smaller, elements, st₁, -, inner, rfl, rfl⟩ := copyWithin_array done
  obtain ⟨good, slots⟩ := laws.copyElements (a := a) ⟨inside, by simp⟩
    (fun _ _ _ _ => copyWithin_extends smaller _)
    (fun i v _ _ _ => laws.copyWithin smaller i v) () _
    (fun element member => List.mem_map.mpr ⟨element, member, rfl⟩) (.refl st)
    (shuns_nil closed) inner
  have held : ∀ h ∈ ({ st.array a with elements } : ArrayData).handles, h.Within st₁.extent := by
    intro h member
    obtain ⟨element, listed, rfl⟩ := List.mem_map.mp member
    exact (slots element listed).inside
  have added := fresh_newArray st₁ { st.array a with elements }
  have grows : st.extent ≤ st₁.extent :=
    (copyElements_extends (fun _ _ _ _ => copyWithin_extends smaller _) _ inner).grows
  refine ⟨_, rfl, ext, closed_newArray good.closed held, added.start grows, fun s reads => ?_, ?_,
    copied.drawn closed inside more⟩
  · have holds : Handle.array (st₁.newArray { st.array a with elements }).1 ∈
        (st₁.read s).handles := by
      rw [show st₁.read s = .array _ from reads]
      exact List.mem_cons_self
    exact added.1 (good.closed.read (inside_of_read holds) _ holds)
  · have keys := copied.keys
    rw [array_newArray_self] at keys ⊢
    exact wellFormed.rebound keys

theorem Gathers.keys (gathers : Gathers roots st st' u taken) :
    (st'.array u).keys = Assoc.keys taken :=
  (map_eq_map_of_forall₂ (gathers.drawn.imp fun _ _ both => both.1.symm)).symm

/-- What has been gathered shows what it showed where it was. -/
theorem Gathers.faces (gathers : Gathers roots st st' u taken) (closed : st.Closed)
    (inside : ∀ entry ∈ taken, ∀ h ∈ entry.2.handles, h.Within st.extent) :
    st'.faces u = taken.map fun entry => (entry.1, st.face entry.2) := by
  have drawn := (List.forall₂_and_left _ _).mpr ⟨inside, gathers.drawn⟩
  rw [Store.faces, entries, List.map_map]
  refine (map_eq_map_of_forall₂ (drawn.imp fun entry element known => ?_)).symm
  obtain ⟨within, key, drawn⟩ := known
  exact Prod.ext key.symm (drawn.face gathers.ext closed within).symm

/-- What has been gathered from copyable values is copyable. -/
theorem Gathers.copyable (gathers : Gathers roots st st' u taken) (closed : st.Closed)
    (inside : ∀ entry ∈ taken, ∀ h ∈ entry.2.handles, h.Within st.extent)
    (copyable : ∀ entry ∈ taken, Copyable (st.isShared roots) st entry.2) :
    ∀ entry ∈ st'.entries u, Copyable (st'.isShared roots) st' entry.2 := by
  have known : ∀ entry ∈ taken, (∀ h ∈ entry.2.handles, h.Within st.extent) ∧
      Copyable (st.isShared roots) st entry.2 := fun entry member =>
    ⟨inside entry member, copyable entry member⟩
  have drawn := (List.forall₂_and_left _ _).mpr ⟨known, gathers.drawn⟩
  have each : ∀ element ∈ (st'.array u).elements,
      Copyable (st'.isShared roots) st' (st'.read element.2) := by
    refine forall_of_forall₂ (drawn.imp fun entry element known => ?_)
    obtain ⟨⟨within, ends⟩, -, drawn⟩ := known
    exact drawn.copyable gathers.ext closed within ends
  exact List.forall_mem_map.mpr each

theorem Gathers.shuns (gathers : Gathers roots st st' u taken) : Shuns [u] st' :=
  ⟨gathers.closed, by simpa using gathers.new.2, by simpa using gathers.unheld⟩

/-- No copy of an older value, and no slot with it, leads to the new array. -/
theorem Gathers.shuns_copy (gathers : Gathers roots st st' u taken)
    (inside : ∀ h ∈ w.handles, h.Within st.extent) (done : st'.copy roots' w = some (v, st₁)) :
    Shuns [u] (st₁.newSlot v).2 := by
  have source : ∀ h ∈ w.handles, Clear [u] st'.extent h := by
    refine fun h member => ⟨(inside h member).mono gathers.ext.grows, ?_⟩
    rintro a listed rfl
    exact gathers.new.1 (List.mem_singleton.mp listed ▸ inside _ member)
  obtain ⟨good, clear⟩ := (gathers.shuns.copyLaws _).copy (i := ()) gathers.shuns source done
  exact good.newSlot clear

theorem put_element_of_absent {key : Key} (absent : (st.array u).slot? key = none) (v : Value) :
    st.put (.element u key) v = (st.newSlot v).2.bindElement u key (st.newSlot v).1 := by
  simp only [Store.put, insertElement, absent]

/-- A value that is copied goes into a slot of its own under a key that is not there yet. -/
theorem Gathers.add {key : Key} (gathers : Gathers roots st st' u taken) (closed : st.Closed)
    (inside : ∀ h ∈ w.handles, h.Within st.extent) (absent : key ∉ Assoc.keys taken)
    (canonical : key.Canonical) (more : roots.Sublist roots')
    (done : st'.copy roots' w = some (v, st₁)) :
    Gathers roots st (st₁.put (.element u key) v) u (taken ++ [(key, w)]) := by
  have after := gathers.shuns_copy inside done
  have there : (Handle.array u).Within (st₁.newSlot v).2.extent :=
    after.there u List.mem_cons_self
  have unheld : ∀ s, (st₁.newSlot v).2.read s ≠ .array u := after.unheld u List.mem_cons_self
  have ext : Extends st' (st₁.newSlot v).2 := (copy_extends done).trans (extends_newSlot st₁ v)
  have array : st₁.array u = st'.array u := (copy_extends done).arrays u gathers.new.2
  have missing : (st'.array u).slot? key = none :=
    Assoc.get?_eq_none fun member => absent (gathers.keys ▸ member)
  have bound : ((st₁.newSlot v).2.bindElement u key (st₁.newSlot v).1).array u =
      (st'.array u).bind key (st₁.newSlot v).1 := by
    rw [bindElement, array_setArray_self _ u _ there, array_newSlot, array]
  rw [put_element_of_absent (array.symm ▸ missing)]
  refine ⟨(gathers.ext.trans ext).setArray gathers.new.1 _, ?_, ?_, unheld, ?_, ?_⟩
  · have change : Adjusts (fun h => h = .array u ∨ h = .slot (st₁.newSlot v).1) .null
        (st₁.newSlot v).2 ((st₁.newSlot v).2.bindElement u key (st₁.newSlot v).1) :=
      adjusts_bindElement _ .null key (.inl rfl) (.inr rfl)
    refine closed_of_adjusts after.closed ?_ (by simp [Value.handles]) change
    rintro h (rfl | rfl)
    · exact there
    · exact (fresh_newSlot st₁ v).2
  · exact ⟨gathers.new.1, by rwa [bindElement, extent_setArray]⟩
  · rw [bound]
    exact gathers.wellFormed.bind canonical _
  · have elements : ((st'.array u).bind key (st₁.newSlot v).1).elements =
        (st'.array u).elements ++ [(key, (st₁.newSlot v).1)] := Assoc.set_of_absent missing _
    have copied : Copied (st'.isShared roots') st (st₁.newSlot v).2 w v :=
      (copy_copied_of_extends closed gathers.ext inside done).extend (extends_newSlot st₁ v)
    rw [bound, elements]
    refine List.rel_append (gathers.drawn.imp fun entry element both => ?_) ?_
    · exact ⟨both.1, (both.2.extend ext).setArray _ unheld⟩
    · refine .cons ⟨rfl, .setArray ?_ _ unheld⟩ .nil
      refine .copied (fresh_newSlot st₁ v).2
        (fun _ slot => isShared_later gathers.ext more slot) ?_
      rwa [read_newSlot_self]

end Store
end TreeScript
