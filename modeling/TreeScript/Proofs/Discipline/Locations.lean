import TreeScript.Proofs.Discipline.Steps

set_option autoImplicit false

/- Locations keep every discipline: one lemma for each way a location is found, read, assigned to
or bound. -/
namespace TreeScript.Discipline

variable {D : Discipline} {b i : D.Index} {e : Extent}

/-! What elements and properties hold -/

theorem known_read {m : Machine} {s : SlotId} (good : D.good i m)
    (known : D.known m.store.extent (.slot s)) : D.Known m.store.extent (m.store.read s) :=
  D.closed good known fun _ => Handle.noConfusion

theorem known_slots {m : Machine} {a : ArrayId} (good : D.good i m)
    (known : D.known m.store.extent (.array a)) :
    ∀ entry ∈ (m.store.array a).elements, D.known m.store.extent (.slot entry.2) :=
  fun entry member => D.closed good known (fun _ => Handle.noConfusion) (.slot entry.2)
    (List.mem_map.mpr ⟨entry, member, rfl⟩)

theorem known_element {m : Machine} {a : ArrayId} {key : Key} (good : D.good i m)
    (known : D.known m.store.extent (.array a)) :
    ∀ v ∈ m.store.element? a key, D.Known m.store.extent v := by
  intro v found
  obtain ⟨s, there, rfl⟩ := Option.map_eq_some_iff.mp found
  exact known_read good (known_slots good known (key, s) (Assoc.mem_of_get? there))

theorem known_property {m : Machine} {o : ObjectId} {name : String} (good : D.good i m)
    (known : D.known m.store.extent (.object o)) :
    ∀ v ∈ m.store.property? o name, D.Known m.store.extent v := by
  intro v found
  obtain ⟨s, there, rfl⟩ := Option.map_eq_some_iff.mp found
  exact known_read good (D.closed good known (fun _ => Handle.noConfusion) (.slot s)
    (Store.mem_handles_of_property there))

theorem known_getD {v : Option Value} (known : ∀ w ∈ v, D.Known e w) :
    D.Known e (v.getD .null) := by
  cases v with
  | none => exact known_plain rfl
  | some w => exact known w rfl

theorem element_meets {a : ArrayId} (known : D.known e (.array a)) (key : Key) :
    D.Meets b i e (fun _ => i) (fun e v => ∀ w ∈ v, D.Known e w)
      (Run.inspect (·.element? a key)) :=
  meets_inspect fun _ inside good => known_element good (D.known_mono inside known)

theorem property_meets {o : ObjectId} (known : D.known e (.object o)) (name : String) :
    D.Meets b i e (fun _ => i) (fun e v => ∀ w ∈ v, D.Known e w)
      (Run.inspect (·.property? o name)) :=
  meets_inspect fun _ inside good => known_property good (D.known_mono inside known)

theorem Known.array {a : ArrayId} (known : D.Known e (.array a)) : D.known e (.array a) :=
  known _ List.mem_cons_self

theorem Known.object {o : ObjectId} (known : D.Known e (.object o)) : D.known e (.object o) :=
  known _ List.mem_cons_self

/-! Finding locations -/

theorem ofVariable_meets (name : String) :
    D.Keeps i e D.KnownLocation (Location.ofVariable name) := by
  apply currentScope_meets.bind
  intro e₁ _ scope _
  split
  · exact .pure fun _ _ g member => absurd member List.not_mem_nil
  · apply newNull_meets.bind
    intro e₂ _ s known
    apply Meets.pure
    intro e₃ grows g member
    exact List.mem_singleton.mp member ▸ D.known_mono grows known

theorem variableSlot_meets (name : String) :
    D.Keeps i e (fun e s => D.known e (.slot s)) (Location.variableSlot name) := by
  apply currentScope_meets.bind
  intro e₁ _ scope known
  split
  · next s found =>
      exact .pure fun _ grows => D.known_mono grows (known (name, s) (Assoc.mem_of_get? found))
  · exact newNull_meets

theorem textOffset_meets (text : String) (key : Key) :
    D.Keeps i e D.Known (Location.textOffset text key) := by
  cases key with
  | string _ => exact .fail _
  | integer offset =>
      simp only [Location.textOffset]
      have plain : ∀ s, D.Keeps i e D.Known (pure (.string s)) :=
        fun s => .pure fun _ _ => known_plain rfl
      repeat' split
      all_goals exact plain _

theorem readElement_meets {container : Value} (known : D.Known e container) (key : Key) :
    D.Keeps i e D.Known (Location.readElement container key) := by
  have null : D.Keeps i e D.Known (pure .null) := .pure fun _ _ => known_plain rfl
  cases container with
  | array a =>
      exact (element_meets known.array key).bind fun e₁ _ v there =>
        .pure fun e₂ grows => (known_getD there).mono grows
  | object o =>
      exact (property_meets known.object key.text).bind fun e₁ _ v there =>
        .pure fun e₂ grows => (known_getD there).mono grows
  | string text => exact textOffset_meets text key
  | null | boolean _ | integer _ | float _ => exact null

theorem spotOf_meets {container : Value} (known : D.Known e container) (key : Option Key) :
    D.Keeps i e (fun e spot => D.known e spot.handle) (Location.spotOf container key) := by
  unfold Location.spotOf
  split
  · exact .pure fun _ grows => D.known_mono grows known.array
  · exact .pure fun _ grows => D.known_mono grows known.array
  · exact .pure fun _ grows => D.known_mono grows known.object
  · exact .fail _
  · exact .fail _

theorem presentElement_meets {container : Value} (known : D.Known e container)
    (key : Option Key) :
    D.Keeps i e (fun e v => ∀ w ∈ v, D.Known e w) (Location.presentElement container key) := by
  unfold Location.presentElement
  split
  · exact .pure (by simp)
  · split
    · exact element_meets known.array _
    · exact property_meets known.object _
    · exact .pure (by simp)

/-! Reading, assigning and binding -/

theorem implyIn_meets {s : SlotId} (known : D.known e (.slot s)) :
    D.Keeps i e D.Known (Location.implyIn s) := by
  apply (read_meets known).bind
  intro e₁ grows₁ v valueKnown
  split
  · apply newArray_meets.bind
    intro e₂ grows₂ a arrayKnown
    have spotKnown : D.known e₂ (Spot.slot s).handle :=
      D.known_mono (grows₁.trans grows₂) known
    refine (put_meets spotKnown fun g member => ?_).bind fun e₃ grows₃ _ _ => ?_
    · exact List.mem_singleton.mp member ▸ arrayKnown
    · exact array_meets (D.known_mono grows₃ arrayKnown)
  · exact .pure fun _ grows => valueKnown.mono grows

theorem get_meets {l : Location} (known : D.KnownLocation e l) :
    D.Keeps i e D.Known l.get := by
  cases l with
  | «variable» name =>
      exact (variableSlot_meets name).bind fun _ _ _ slotKnown => read_meets slotKnown
  | detached s => exact read_meets (known _ List.mem_cons_self)
  | element container key =>
      cases key with
      | none => exact .fail _
      | some key => exact readElement_meets known key
  | list elements => exact .fail _

theorem slot_meets {l : Location} (known : D.KnownLocation e l) :
    D.Keeps i e (fun e s => D.known e (.slot s)) l.slot := by
  cases l with
  | «variable» name => exact variableSlot_meets name
  | detached s => exact .pure fun _ grows => D.known_mono grows (known _ List.mem_cons_self)
  | element container key =>
      exact (spotOf_meets known key).bind fun _ _ _ spotKnown => slotAt_meets spotKnown
  | list elements => exact .fail _

theorem setVariable_meets {s : SlotId} (known : D.known e (.slot s)) (name : String) :
    D.Keeps i e Any (do setScope (Assoc.set (← currentScope) name s)) := by
  intro m inside good
  obtain ⟨scope, outer, isScope, -⟩ := D.scope good
  have final := D.rebind name good isScope (D.known_mono inside known)
  rw [Run.holds_bind, currentScope, Run.holds_bind, Run.holds_get, isScope]
  refine ⟨D.seen good, ?_⟩
  rw [Run.holds_pure, setScope, Run.holds_modify, isScope]
  exact ⟨D.seen final, le_refl _, final, trivial⟩

theorem bind_meets {l : Location} {s : SlotId} (known : D.KnownLocation e l)
    (slotKnown : D.known e (.slot s)) : D.Keeps i e D.Known (l.bind s) := by
  apply (read_meets slotKnown).bind
  intro e₁ grows₁ v valueKnown
  have rebound : D.Keeps i e₁ Any (l.rebind s) := by
    have slotKnown := D.known_mono grows₁ slotKnown
    cases l with
    | «variable» name => exact setVariable_meets slotKnown name
    | detached _ => exact .pure fun _ _ => trivial
    | element container key =>
        exact (spotOf_meets (known.mono grows₁) key).bind fun _ grows₂ _ spotKnown =>
          bindAt_meets spotKnown (D.known_mono grows₂ slotKnown)
    | list elements => exact .fail _
  exact rebound.bind fun _ grows₂ _ _ =>
    .pure fun _ grows₃ => valueKnown.mono (grows₂.trans grows₃)

theorem imply_meets {l : Location} (known : D.KnownLocation e l) :
    D.Keeps i e D.Known l.imply := by
  cases l with
  | «variable» name =>
      exact (variableSlot_meets name).bind fun _ _ _ slotKnown => implyIn_meets slotKnown
  | detached s => exact implyIn_meets (known _ List.mem_cons_self)
  | element container key =>
      have added : ∀ e', e ≤ e' → D.Keeps i e' D.Known (do
          let spot ← Location.spotOf container key
          Location.implyIn (← Run.update (·.slotAt spot))) := by
        intro e' grows
        exact (spotOf_meets (Known.mono known grows) key).bind fun _ _ _ spotKnown =>
          (slotAt_meets spotKnown).bind fun _ _ _ slotKnown => implyIn_meets slotKnown
      apply (presentElement_meets known key).bind
      intro e₁ grows₁ v there
      split
      · exact added e₁ grows₁
      · exact added e₁ grows₁
      · exact .pure fun _ grows₂ => (there _ rfl).mono grows₂
  | list elements => exact .fail _

/-- Values that may be assigned: they may be copied and held, and so may what a list takes from
them. -/
structure Assignable (D : Discipline) (S : Extent → Value → Prop) : Prop where
  mono : ∀ {e e' : Extent} {v : Value}, e ≤ e' → S e v → S e' v
  known : ∀ {e : Extent} {v : Value}, D.Known e v → S e v
  source : ∀ {e : Extent} {v : Value}, S e v → D.Source e v
  holds : ∀ {e : Extent} {v : Value}, S e v → D.Holds e v.handles
  element : ∀ {i : D.Index} {m : Machine} {a : ArrayId} {key : Key}, D.good i m →
    S m.store.extent (.array a) → ∀ v ∈ m.store.element? a key, S m.store.extent v

theorem known_assignable : D.Assignable D.Known where
  mono grows known := known.mono grows
  known known := known
  source := Known.source
  holds := Known.holds
  element good known := known_element good known.array

theorem itemAt_meets {S : Extent → Value → Prop} (assignable : D.Assignable S) {v : Value}
    (from_ : S e v) (position : Nat) : D.Keeps i e S (Location.itemAt v position) := by
  have null : D.Keeps i e S (pure .null) := .pure fun _ _ => assignable.known (known_plain rfl)
  cases v with
  | array a =>
      have looked : D.Keeps i e (fun e v => ∀ w ∈ v, S e w)
          (Run.inspect (·.element? a (.integer (Int64.ofNat position)))) :=
        meets_inspect fun _ inside good =>
          assignable.element good (assignable.mono inside from_)
      refine looked.bind fun e₁ _ v there => .pure fun e₂ grows => ?_
      cases v with
      | none => exact assignable.known (known_plain rfl)
      | some w => exact assignable.mono grows (there w rfl)
  | null | boolean _ | integer _ | float _ | string _ | object _ => exact null

/-- A copy is stored where it goes, and given as the result. -/
theorem putCopy_meets {spot : Spot} {copy : Value} (spotKnown : D.known e spot.handle)
    (known : D.Known e copy) :
    D.Meets b (D.hold i copy) e (fun _ => i) D.Known (do
      Run.alter (·.put spot copy)
      pure copy) :=
  (put_meets spotKnown known).bind fun _ grows₁ _ _ =>
    .pure fun _ grows₂ => known.mono (grows₁.trans grows₂)

theorem knownLocation_cons {l : Location} {rest : List Location}
    (known : D.KnownLocation e (.list (l :: rest))) :
    D.KnownLocation e l ∧ D.KnownLocation e (.list rest) :=
  ⟨fun g member => known g (List.mem_append_left _ member),
    fun g member => known g (List.mem_append_right _ member)⟩

section

variable {S : Extent → Value → Prop}

mutual
theorem setFrom_meets (assignable : D.Assignable S) {e : Extent} {pending : List Handle}
    {v : Value} :
    (l : Location) → D.Holds e pending → D.KnownLocation e l → S e v →
      D.Keeps i e S (l.set pending v)
  | .variable name, holds, _, from_ => by
      rw [Location.set]
      apply (copyValue_meets holds (assignable.source from_)).bind
      intro e₁ _ copy copyKnown
      apply ((variableSlot_meets name).weaken fun _ => D.forget).bind
      intro e₂ grows s slotKnown
      have spotKnown : D.known e₂ (Spot.slot s).handle := slotKnown
      exact (putCopy_meets spotKnown (copyKnown.mono grows)).imp assignable.known
  | .detached s, holds, locationKnown, from_ => by
      rw [Location.set]
      have slotKnown : D.known e (.slot s) := locationKnown _ List.mem_cons_self
      apply (copyValue_meets (holds.cons (D.held_of_known slotKnown))
        (assignable.source from_)).bind
      intro e₁ grows copy copyKnown
      have spotKnown : D.known e₁ (Spot.slot s).handle := D.known_mono grows slotKnown
      exact (putCopy_meets spotKnown copyKnown).imp assignable.known
  | .element container key, holds, locationKnown, from_ => by
      rw [Location.set]
      apply (copyValue_meets (locationKnown.holds.append holds) (assignable.source from_)).bind
      intro e₁ grows₁ copy copyKnown
      apply ((spotOf_meets (locationKnown.mono grows₁) key).weaken fun _ => D.forget).bind
      intro e₂ grows₂ spot spotKnown
      exact (putCopy_meets spotKnown (copyKnown.mono grows₂)).imp assignable.known
  | .list elements, holds, locationKnown, from_ => by
      rw [Location.set]
      apply (setAllFrom_meets assignable elements
        (((assignable.holds from_).append locationKnown.holds).append holds) locationKnown from_
        0).bind
      intro e₁ grows₁ _ _
      exact .pure fun _ grows₂ => assignable.mono (grows₁.trans grows₂) from_

theorem setAllFrom_meets (assignable : D.Assignable S) {e : Extent} {pending : List Handle}
    {v : Value} :
    (elements : List Location) → D.Holds e pending → D.KnownLocation e (.list elements) →
      S e v → (position : Nat) → D.Keeps i e Any (Location.setAll pending v position elements)
  | [], _, _, _, _ => by
      rw [Location.setAll]
      exact .pure fun _ _ => trivial
  | l :: rest, holds, locationsKnown, from_, position => by
      obtain ⟨locationKnown, restKnown⟩ := knownLocation_cons locationsKnown
      rw [Location.setAll]
      apply (itemAt_meets assignable from_ position).bind
      intro e₁ grows₁ item itemFrom
      apply (setFrom_meets assignable l (holds.mono grows₁) (locationKnown.mono grows₁)
        itemFrom).bind
      intro e₂ grows₂ _ _
      have grows := grows₁.trans grows₂
      exact setAllFrom_meets assignable rest (holds.mono grows) (restKnown.mono grows)
        (assignable.mono grows from_) (position + 1)
end

end

theorem set_meets {e : Extent} {pending : List Handle} {v : Value} (l : Location)
    (holds : D.Holds e pending) (locationKnown : D.KnownLocation e l) (known : D.Known e v) :
    D.Keeps i e D.Known (l.set pending v) :=
  setFrom_meets known_assignable l holds locationKnown known

end TreeScript.Discipline
