import TreeScript.Proofs.Store.Filling
import TreeScript.Proofs.Store.Likeness
import TreeScript.Proofs.Store.Ownership

set_option autoImplicit false

/- Routes through the store: from a slot by keys to another slot, through the arrays and objects
that the slots on the way hold. What a value that is put at a spot changes, and what it takes for a
route to survive a change. -/
namespace TreeScript

/-- The spot of an element of an array or of a property of an object. -/
def Value.spot? : Value → Key → Option Spot
  | .array a, key => some (.element a key)
  | .object o, key => some (.property o key.text)
  | _, _ => none

theorem Value.handles_of_spot? {container : Value} {key : Key} {spot : Spot}
    (isSpot : container.spot? key = some spot) : container.handles = [spot.handle] := by
  cases container with
  | array a =>
      cases isSpot
      rfl
  | object o =>
      cases isSpot
      rfl
  | _ => cases isSpot

theorem Value.spot?_ne_append {container : Value} {key : Key} {spot : Spot}
    (isSpot : container.spot? key = some spot) (a : ArrayId) : spot ≠ .append a := by
  cases container with
  | array b =>
      cases isSpot
      exact Spot.noConfusion
  | object o =>
      cases isSpot
      exact Spot.noConfusion
  | _ => cases isSpot

namespace Store

/-- The slot at a spot, if it is there. -/
def slotAt? (st : Store) : Spot → Option SlotId
  | .slot s => some s
  | .element a key => (st.array a).slot? key
  | .append _ => none
  | .property o name => Assoc.get? (st.object o).properties name

/-- The slot of an element or property, if it is there. -/
def slotIn? (st : Store) (container : Value) (key : Key) : Option SlotId :=
  (container.spot? key).bind st.slotAt?

/-- By the keys one gets from a slot to another, through the slots that are listed. -/
inductive Leads (st : Store) : SlotId → List Key → List SlotId → SlotId → Prop
  | here (s : SlotId) : Leads st s [] [] s
  | step {s t u : SlotId} {key : Key} {keys : List Key} {passed : List SlotId}
      (found : st.slotIn? (st.read s) key = some t) (rest : Leads st t keys passed u) :
      Leads st s (key :: keys) (s :: passed) u

/-- Arrays and objects are as they were, except that the one the spot is in may have gained the
element at the spot, last and in a new slot, where it had none. -/
structure Gains (spot : Spot) (st st' : Store) : Prop where
  arrays : ∀ a, (Handle.array a).Within st.extent → st'.array a = st.array a ∨
    ∃ key, spot = .element a key ∧ (st'.array a).pointer = (st.array a).pointer ∧
      ((st'.array a).elements = (st.array a).elements ∨
        (st.array a).slot? key = none ∧ ∃ s, Fresh st st' (.slot s) ∧
          (st'.array a).elements = (st.array a).elements ++ [(key, s)])
  objects : ∀ o, (Handle.object o).Within st.extent → st'.object o = st.object o ∨
    ∃ name, spot = .property o name ∧ (st'.object o).classId = (st.object o).classId ∧
      Assoc.get? (st.object o).properties name = none ∧ ∃ s, Fresh st st' (.slot s) ∧
        (st'.object o).properties = (st.object o).properties ++ [(name, s)]

/-- A value is in the slot at a spot, and of what was there before nothing else is different. -/
structure Puts (spot : Spot) (s : SlotId) (v : Value) (st st' : Store) : Prop extends
    Gains spot st st' where
  grows : st.extent ≤ st'.extent
  classes : st'.classes = st.classes
  inside : (Handle.slot s).Within st'.extent
  slot : st'.slotAt? spot = some s
  value : st'.read s = v
  before : st.slotAt? spot = some s ∨ st.slotAt? spot = none ∧ Fresh st st' (.slot s)
  others : ∀ t, (Handle.slot t).Within st.extent → t ≠ s → st'.read t = st.read t

variable {st st' st₁ st₂ : Store} {spot : Spot} {s t u : SlotId} {v w : Value} {keys : List Key}
  {passed : List SlotId}

theorem inside_of_reads (reads : st.read s ≠ .null) : (Handle.slot s).Within st.extent := by
  by_contra outside
  exact reads (read_outside outside)

theorem slotIn?_of_spot? {container : Value} {key : Key} (isSpot : container.spot? key = some spot) :
    st.slotIn? container key = st.slotAt? spot := by
  rw [slotIn?, isSpot, Option.bind_some]

/-- What a spot is in holds its slot. -/
theorem mem_holds_of_slotAt? (found : st.slotAt? spot = some s) :
    .slot s = spot.handle ∨ .slot s ∈ st.holds spot.handle := by
  cases spot with
  | slot t =>
      cases found
      exact .inl rfl
  | element a key => exact .inr (mem_handles_of_slot? found)
  | append a => cases found
  | property o name => exact .inr (mem_handles_of_property found)

theorem Closed.slotAt? (closed : st.Closed) (here : spot.handle.Within st.extent)
    (found : st.slotAt? spot = some s) : (Handle.slot s).Within st.extent := by
  rcases mem_holds_of_slotAt? found with isSpot | member
  · rwa [isSpot]
  · exact closed _ here _ member

theorem Closed.spot? {key : Key} (closed : st.Closed) (isSpot : (st.read u).spot? key = some spot) :
    spot.handle.Within st.extent := by
  have member : spot.handle ∈ (st.read u).handles := by
    rw [Value.handles_of_spot? isSpot]
    exact List.mem_cons_self
  exact closed.read (inside_of_read member) _ member

theorem Extends.slotAt? (ext : Extends st st') (here : spot.handle.Within st.extent) :
    st'.slotAt? spot = st.slotAt? spot := by
  cases spot with
  | slot t => rfl
  | element a key => simp only [Store.slotAt?, ext.arrays a here]
  | append a => rfl
  | property o name => simp only [Store.slotAt?, object, ext.objects]

/-! Spots -/

theorem Gains.refl (spot : Spot) (st : Store) : Gains spot st st :=
  ⟨fun _ _ => .inl rfl, fun _ _ => .inl rfl⟩

theorem puts_present (found : st.slotAt? spot = some s)
    (inside : (Handle.slot s).Within st.extent) : Puts spot s (st.read s) st st :=
  { Gains.refl spot st with
    grows := le_refl _
    classes := rfl
    inside
    slot := found
    value := rfl
    before := .inl found
    others := fun _ _ _ => rfl }

theorem puts_newElement {a : ArrayId} {key : Key} (here : (Handle.array a).Within st.extent)
    (absent : (st.array a).slot? key = none) :
    Puts (.element a key) (st.newSlot .null).1 .null st
      ((st.newSlot .null).2.bindElement a key (st.newSlot .null).1) where
  arrays b _ := by
    rw [bindElement, array_setArray]
    split
    · next target =>
        obtain ⟨rfl, -⟩ := target
        refine .inr ⟨key, rfl, pointer_trackKey _ key, .inr ⟨absent, _, fresh_newSlot st .null, ?_⟩⟩
        exact Assoc.set_of_absent absent _
    · exact .inl rfl
  objects o _ := .inl rfl
  grows := by
    rw [bindElement, extent_setArray]
    exact extent_newSlot st .null
  classes := rfl
  inside := by
    rw [bindElement, extent_setArray]
    exact (fresh_newSlot st .null).2
  slot := by
    rw [slotAt?, bindElement, array_setArray, if_pos ⟨rfl, here⟩]
    exact Assoc.get?_set_self _ _ _
  value := read_newSlot_self st .null
  before := .inr ⟨absent, fresh_newSlot st .null⟩
  others t inside _ := read_newSlot_of_lt st .null t inside

theorem object_setObject (st : Store) (o p : ObjectId) (data : ObjectData) :
    (st.setObject o data).object p =
      if p = o ∧ o.index < st.objects.size then data else st.object p := by
  rw [object, objects_setObject]
  split <;> rfl

theorem puts_newProperty {o : ObjectId} {name : String} (here : (Handle.object o).Within st.extent)
    (absent : Assoc.get? (st.object o).properties name = none) :
    Puts (.property o name) (st.newSlot .null).1 .null st
      ((st.newSlot .null).2.bindProperty o name (st.newSlot .null).1) where
  arrays a _ := .inl rfl
  objects p _ := by
    rw [bindProperty, object_setObject]
    split
    · next target =>
        obtain ⟨rfl, -⟩ := target
        refine .inr ⟨name, rfl, rfl, absent, _, fresh_newSlot st .null, ?_⟩
        exact Assoc.set_of_absent absent _
    · exact .inl rfl
  grows := by
    rw [bindProperty, extent_setObject]
    exact extent_newSlot st .null
  classes := rfl
  inside := by
    rw [bindProperty, extent_setObject]
    exact (fresh_newSlot st .null).2
  slot := by
    rw [slotAt?, bindProperty, object_setObject, if_pos ⟨rfl, here⟩]
    exact Assoc.get?_set_self _ _ _
  value := read_newSlot_self st .null
  before := .inr ⟨absent, fresh_newSlot st .null⟩
  others t inside _ := read_newSlot_of_lt st .null t inside

/-- The slot that is found or added at a spot holds what it held, which is null where it is added. -/
theorem puts_slotAt (here : spot.handle.Within st.extent) (keyed : ∀ a, spot ≠ .append a)
    (known : ∀ s, st.slotAt? spot = some s → (Handle.slot s).Within st.extent) :
    Puts spot (st.slotAt spot).1 (st.read (st.slotAt spot).1) st (st.slotAt spot).2 := by
  have absent : st.read (st.newSlot .null).1 = .null := read_outside (fresh_newSlot st .null).1
  cases spot with
  | slot s => exact puts_present rfl here
  | element a key =>
      cases found : (st.array a).slot? key with
      | none =>
          simp only [Store.slotAt, elementSlot, found, absent]
          exact puts_newElement here found
      | some s =>
          simp only [Store.slotAt, elementSlot, found]
          exact {
            arrays := fun b _ => by
              rw [array_setArray]
              split
              · next target =>
                  obtain ⟨rfl, -⟩ := target
                  exact .inr ⟨key, rfl, pointer_trackKey _ key, .inl (elements_trackKey _ key)⟩
              · exact .inl rfl
            objects := fun _ _ => .inl rfl
            grows := by rw [extent_setArray]
            classes := rfl
            inside := by
              rw [extent_setArray]
              exact known s found
            slot := by
              rw [Store.slotAt?, array_setArray, if_pos ⟨rfl, here⟩, ArrayData.slot?,
                elements_trackKey]
              exact found
            value := rfl
            before := .inl found
            others := fun _ _ _ => rfl }
  | append a => exact absurd rfl (keyed a)
  | property o name =>
      cases found : Assoc.get? (st.object o).properties name with
      | none =>
          simp only [Store.slotAt, propertySlot, found, absent]
          exact puts_newProperty here found
      | some s =>
          simp only [Store.slotAt, propertySlot, found]
          exact puts_present found (known s found)

/-- Another value goes into the same slot later, when more has been added. -/
theorem Puts.write (puts : Puts spot s v st st₁) (ext : Extends st₁ st₂)
    (there : spot.handle.Within st₁.extent) (w : Value) : Puts spot s w st (st₂.write s w) := by
  have grows : st₁.extent ≤ (st₂.write s w).extent := by
    rw [extent_write]
    exact ext.grows
  exact {
    arrays := fun a inside => by
      rw [array_write, ext.arrays a (inside.mono puts.grows)]
      refine (puts.arrays a inside).imp_right ?_
      rintro ⟨key, isSpot, pointer, same | ⟨absent, added, fresh, elements⟩⟩
      · exact ⟨key, isSpot, pointer, .inl same⟩
      · exact ⟨key, isSpot, pointer, .inr ⟨absent, added, fresh.grow grows, elements⟩⟩
    objects := fun o inside => by
      have same : (st₂.write s w).object o = st₁.object o := by
        simp only [object, Store.write, ext.objects]
      rw [same]
      refine (puts.objects o inside).imp_right ?_
      rintro ⟨name, isSpot, classId, absent, added, fresh, properties⟩
      exact ⟨name, isSpot, classId, absent, added, fresh.grow grows, properties⟩
    grows := puts.grows.trans grows
    classes := ext.classes.trans puts.classes
    inside := puts.inside.mono grows
    slot := by
      have same : (st₂.write s w).slotAt? spot = st₂.slotAt? spot := by cases spot <;> rfl
      rw [same, ext.slotAt? there]
      exact puts.slot
    value := read_write_self st₂ s w (puts.inside.mono ext.grows)
    before := puts.before.imp_right (And.imp_right (Fresh.grow grows))
    others := fun t inside other => by
      rw [read_write_of_ne st₂ s t w other, ext.slots t (inside.mono puts.grows)]
      exact puts.others t inside other }

theorem put_of_present (found : st.slotAt? spot = some s) (v : Value) :
    st.put spot v = st.write s v := by
  cases spot with
  | slot t =>
      cases found
      rfl
  | element a key =>
      rw [slotAt?] at found
      simp only [put, insertElement, found]
  | append a => cases found
  | property o name =>
      rw [slotAt?] at found
      simp only [put, setProperty, found]

theorem put_of_absent (absent : st.slotAt? spot = none) (keyed : ∀ a, spot ≠ .append a)
    (v : Value) : st.put spot v = (st.slotAt spot).2.write (st.slotAt spot).1 v := by
  have filled : (st.newSlot v).2 = (st.newSlot .null).2.write (st.newSlot .null).1 v := by
    simp [newSlot, write, Array.setIfInBounds, Array.set_push]
  cases spot with
  | slot t => cases absent
  | element a key =>
      rw [slotAt?] at absent
      simp only [put, insertElement, slotAt, elementSlot, absent, filled]
      rfl
  | append a => exact absurd rfl (keyed a)
  | property o name =>
      rw [slotAt?] at absent
      simp only [put, setProperty, slotAt, propertySlot, absent, filled]
      rfl

theorem puts_put (here : spot.handle.Within st.extent) (keyed : ∀ a, spot ≠ .append a)
    (known : ∀ s, st.slotAt? spot = some s → (Handle.slot s).Within st.extent) (v : Value) :
    ∃ s, Puts spot s v st (st.put spot v) := by
  cases found : st.slotAt? spot with
  | some s =>
      rw [put_of_present found]
      exact ⟨s, (puts_present found (known s found)).write (.refl st) here v⟩
  | none =>
      rw [put_of_absent found keyed]
      have puts := puts_slotAt here keyed known
      exact ⟨_, puts.write (.refl _) (here.mono puts.grows) v⟩

/-- The store in which a slot has got an empty array. -/
def imply (st : Store) (s : SlotId) : Store :=
  (st.newArray .empty).2.write s (.array (st.newArray .empty).1)

theorem Closed.slotAt (closed : st.Closed) (here : spot.handle.Within st.extent) :
    (st.slotAt spot).2.Closed := by
  have change : Adjusts (·.Within st.extent) .null st (st.slotAt spot).2 :=
    adjusts_slotAt st spot here
  exact closed_of_adjusts closed (fun _ inside => inside) (by simp [Value.handles]) change

theorem Closed.imply (closed : st.Closed) (inside : (Handle.slot s).Within st.extent) :
    (st.imply s).Closed := by
  have added : (st.newArray .empty).2.Closed :=
    closed_newArray closed (by simp [ArrayData.handles, ArrayData.empty])
  have change : Adjusts (·.Within (st.newArray .empty).2.extent) (.array (st.newArray .empty).1)
      (st.newArray .empty).2 (st.imply s) :=
    adjusts_write _ _ (inside.mono (extends_newArray st .empty).grows)
  refine closed_of_adjusts added (fun _ inside => inside) (fun h member => ?_) change
  rw [List.mem_singleton.mp member]
  exact (fresh_newArray st .empty).2

/-- Where there is nothing or null, a new and empty array is put. -/
theorem puts_imply (closed : st.Closed) (here : spot.handle.Within st.extent)
    (keyed : ∀ a, spot ≠ .append a) (empty : ∀ s, st.slotAt? spot = some s → st.read s = .null) :
    (st.slotAt spot).2.read (st.slotAt spot).1 = .null ∧
      ∃ a, a = ((st.slotAt spot).2.newArray .empty).1 ∧
        Puts spot (st.slotAt spot).1 (.array a) st
          ((st.slotAt spot).2.imply (st.slotAt spot).1) ∧
        Fresh st ((st.slotAt spot).2.imply (st.slotAt spot).1) (.array a) ∧
        ((st.slotAt spot).2.imply (st.slotAt spot).1).array a = .empty ∧
        ((st.slotAt spot).2.imply (st.slotAt spot).1).Closed := by
  have puts := puts_slotAt here keyed fun s found => closed.slotAt? here found
  have null : st.read (st.slotAt spot).1 = .null := by
    rcases puts.before with found | ⟨-, fresh⟩
    · exact empty _ found
    · exact read_outside fresh.1
  refine ⟨puts.value.trans null, _, rfl, puts.write (extends_newArray _ .empty)
    (here.mono puts.grows) _, ?_, array_newArray_self _ _, (closed.slotAt here).imply puts.inside⟩
  rw [imply]
  have fresh := (fresh_newArray (st.slotAt spot).2 .empty).start puts.grows
  exact ⟨fresh.1, by simpa using fresh.2⟩

/-! What was there -/

/-- A slot that was found at a spot is found there still. -/
theorem Gains.slotAt? {other : Spot} (gains : Gains spot st st')
    (found : st.slotAt? other = some t) : st'.slotAt? other = some t := by
  cases other with
  | slot u => exact found
  | element a key =>
      have inside := inside_of_array (mem_handles_of_slot? found)
      simp only [Store.slotAt?, ArrayData.slot?] at found ⊢
      rcases gains.arrays a inside with same | ⟨_, -, -, same | ⟨-, _, -, same⟩⟩ <;> rw [same]
      · exact found
      · exact found
      · exact Assoc.get?_append_of_some found _
  | append a => cases found
  | property o name =>
      have inside : (Handle.object o).Within st.extent := by
        by_contra outside
        simp [Store.slotAt?, object, object_outside outside, Assoc.get?] at found
      simp only [Store.slotAt?] at found ⊢
      rcases gains.objects o inside with same | ⟨_, -, -, -, _, -, same⟩ <;> rw [same]
      · exact found
      · exact Assoc.get?_append_of_some found _

theorem Gains.slotIn? {container : Value} {key : Key} (gains : Gains spot st st')
    (found : st.slotIn? container key = some t) : st'.slotIn? container key = some t := by
  obtain ⟨other, isSpot, found⟩ := Option.bind_eq_some_iff.mp found
  exact Option.bind_eq_some_iff.mpr ⟨other, isSpot, gains.slotAt? found⟩

/-- What is gained after more was added, is gained. -/
theorem Gains.after (ext : Extends st st₁) (gains : Gains spot st₁ st₂) : Gains spot st st₂ where
  arrays a inside := by
    have before := gains.arrays a (inside.mono ext.grows)
    rw [ext.arrays a inside] at before
    refine before.imp_right ?_
    rintro ⟨key, isSpot, pointer, same | ⟨absent, added, fresh, elements⟩⟩
    · exact ⟨key, isSpot, pointer, .inl same⟩
    · exact ⟨key, isSpot, pointer, .inr ⟨absent, added, fresh.start ext.grows, elements⟩⟩
  objects o inside := by
    have before := gains.objects o (inside.mono ext.grows)
    have same : st₁.object o = st.object o := by simp only [object, ext.objects]
    rw [same] at before
    refine before.imp_right ?_
    rintro ⟨name, isSpot, classId, absent, added, fresh, properties⟩
    exact ⟨name, isSpot, classId, absent, added, fresh.start ext.grows, properties⟩

/-- What is gained stays when what follows is in something new. -/
theorem Gains.before {later : Spot} (gains : Gains spot st st₁) (more : Gains later st₁ st₂)
    (grows : st.extent ≤ st₁.extent) (grows' : st₁.extent ≤ st₂.extent)
    (outside : ¬ later.handle.Within st.extent) : Gains spot st st₂ where
  arrays a inside := by
    have same : st₂.array a = st₁.array a := by
      refine (more.arrays a (inside.mono grows)).resolve_right ?_
      rintro ⟨key, isSpot, -⟩
      rw [isSpot] at outside
      exact outside inside
    rw [same]
    refine (gains.arrays a inside).imp_right ?_
    rintro ⟨key, isSpot, pointer, same | ⟨absent, added, fresh, elements⟩⟩
    · exact ⟨key, isSpot, pointer, .inl same⟩
    · exact ⟨key, isSpot, pointer, .inr ⟨absent, added, fresh.grow grows', elements⟩⟩
  objects o inside := by
    have same : st₂.object o = st₁.object o := by
      refine (more.objects o (inside.mono grows)).resolve_right ?_
      rintro ⟨name, isSpot, -⟩
      rw [isSpot] at outside
      exact outside inside
    rw [same]
    refine (gains.objects o inside).imp_right ?_
    rintro ⟨name, isSpot, classId, absent, added, fresh, properties⟩
    exact ⟨name, isSpot, classId, absent, added, fresh.grow grows', properties⟩

/-! Routes -/

/-- A route goes on as long as the slots on its way hold what they held. -/
theorem Leads.mono (leads : Leads st s keys passed u) (gains : Gains spot st st')
    (reads : ∀ t ∈ passed, st.read t ≠ .null → st'.read t = st.read t) :
    Leads st' s keys passed u := by
  induction leads with
  | here s => exact .here s
  | @step s t u key keys passed found rest ih =>
      obtain ⟨first, others⟩ := List.forall_mem_cons.mp reads
      refine .step ?_ (ih others)
      rw [first]
      · exact gains.slotIn? found
      · intro null
        rw [null] at found
        cases found

theorem Leads.length (leads : Leads st s keys passed u) : passed.length = keys.length := by
  induction leads with
  | here s => rfl
  | step found rest ih => simp [ih]

theorem Leads.snoc {key : Key} (leads : Leads st s keys passed u)
    (found : st.slotIn? (st.read u) key = some t) : Leads st s (keys ++ [key]) (passed ++ [u]) t := by
  induction leads with
  | here s => exact .step found (.here t)
  | step first rest ih => exact .step first (ih found)

end Store
end TreeScript
