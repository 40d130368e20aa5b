import Mathlib.Order.Basic
import TreeScript.Machine

set_option autoImplicit false

/- What one change of the store can do. It touches only what it may, adds new things, and stores at
most one value; the keys of arrays stay in their order; everything else stays as it was. -/
namespace TreeScript

/-- The number of things of each kind in a store. -/
@[ext] structure Extent where
  slots : Nat
  arrays : Nat
  objects : Nat
  classes : Nat

instance : LE Extent where
  le a b := a.slots ≤ b.slots ∧ a.arrays ≤ b.arrays ∧ a.objects ≤ b.objects ∧
    a.classes ≤ b.classes

theorem Extent.le_def (a b : Extent) :
    a ≤ b ↔ a.slots ≤ b.slots ∧ a.arrays ≤ b.arrays ∧ a.objects ≤ b.objects ∧
      a.classes ≤ b.classes := Iff.rfl

instance : Preorder Extent where
  le_refl a := by simp [Extent.le_def]
  le_trans a b c := by
    simp only [Extent.le_def]
    omega

/-- The handle names something that is there. -/
def Handle.Within (e : Extent) : Handle → Prop
  | .slot s => s.index < e.slots
  | .array a => a.index < e.arrays
  | .object o => o.index < e.objects
  | .classData c => c.index < e.classes

theorem Handle.Within.mono {e e' : Extent} {h : Handle} (grows : e ≤ e') (inside : h.Within e) :
    h.Within e' := by
  obtain ⟨slots, arrays, objects, classes⟩ := grows
  cases h with
  | slot s => exact Nat.lt_of_lt_of_le inside slots
  | array a => exact Nat.lt_of_lt_of_le inside arrays
  | object o => exact Nat.lt_of_lt_of_le inside objects
  | classData c => exact Nat.lt_of_lt_of_le inside classes

theorem Value.mem_handles {v : Value} {h : Handle} (member : h ∈ v.handles) :
    (∃ a, v = .array a ∧ h = .array a) ∨ ∃ o, v = .object o ∧ h = .object o := by
  cases v with
  | array a => exact .inl ⟨a, rfl, List.mem_singleton.mp member⟩
  | object o => exact .inr ⟨o, rfl, List.mem_singleton.mp member⟩
  | _ => cases member

theorem Value.eq_of_handles {v : Value} {a : ArrayId} (handles : v.handles = [.array a]) :
    v = .array a := by
  cases v <;> simp_all [Value.handles]

def Spot.handle : Spot → Handle
  | .slot s => .slot s
  | .element a _ => .array a
  | .append a => .array a
  | .property o _ => .object o

namespace Store

def extent (st : Store) : Extent :=
  ⟨st.slots.size, st.arrays.size, st.objects.size, st.classes.size⟩

@[simp] theorem extent_write (st : Store) (s : SlotId) (v : Value) :
    (st.write s v).extent = st.extent := by
  simp [extent, write]

@[simp] theorem extent_setArray (st : Store) (a : ArrayId) (data : ArrayData) :
    (st.setArray a data).extent = st.extent := by
  simp [extent, setArray]

@[simp] theorem extent_setObject (st : Store) (o : ObjectId) (data : ObjectData) :
    (st.setObject o data).extent = st.extent := by
  simp [extent, setObject]

/-- Something that one store has and the other does not have yet. -/
def Fresh (st st' : Store) (h : Handle) : Prop := ¬ h.Within st.extent ∧ h.Within st'.extent

theorem Fresh.grow {st st₁ st₂ : Store} {h : Handle} (grows : st₁.extent ≤ st₂.extent)
    (fresh : Fresh st st₁ h) : Fresh st st₂ h := ⟨fresh.1, fresh.2.mono grows⟩

theorem Fresh.start {st st₁ st₂ : Store} {h : Handle} (grows : st.extent ≤ st₁.extent)
    (fresh : Fresh st₁ st₂ h) : Fresh st st₂ h :=
  ⟨fun inside => fresh.1 (inside.mono grows), fresh.2⟩

/-- Something that holds handles is as before, or it was allowed to change or is new, and then
holds what it held before and what is allowed or new. -/
def Keeps {γ : Type} (may : Handle → Prop) (st st' : Store) (h : Handle)
    (handles : γ → List Handle) (before after : γ) : Prop :=
  after = before ∨
    (may h ∨ Fresh st st' h) ∧ ∀ g ∈ handles after, g ∈ handles before ∨ may g ∨ Fresh st st' g

/-- What is true of everything held before, and of everything allowed or new, is true of
everything held after. -/
theorem Keeps.holding {γ : Type} {may : Handle → Prop} {st st' : Store} {h : Handle}
    {handles : γ → List Handle} {before after : γ} {P : Extent → Handle → Prop}
    (keeps : Keeps may st st' h handles before after)
    (mono : ∀ g, P st.extent g → P st'.extent g) (allowed : ∀ g, may g → P st.extent g)
    (fresh : ∀ g, Fresh st st' g → P st'.extent g) (held : ∀ g ∈ handles before, P st.extent g) :
    ∀ g ∈ handles after, P st'.extent g := by
  intro g member
  rcases keeps with rfl | ⟨-, changed⟩
  · exact mono g (held g member)
  · rcases changed g member with old | known | new
    · exact mono g (held g old)
    · exact mono g (allowed g known)
    · exact fresh g new

/-- The class of an object, if there is one. -/
def kind? (st : Store) (o : ObjectId) : Option ClassId := st.objects[o.index]?.map (·.classId)

/-- What an object holds, if there is one. -/
def handlesOf (data : Option ObjectData) : List Handle := (data.map ObjectData.handles).getD []

/-- A change that touches only what it may and what is new, and stores no value but `v` and null,
in at most one slot. Arrays keep their keys where they are, objects are of the class they were of,
and classes stay as they are. -/
structure Adjusts (may : Handle → Prop) (v : Value) (st st' : Store) : Prop where
  grows : st.extent ≤ st'.extent
  classes : st'.classes = st.classes
  slots : ∀ s, st'.read s = st.read s ∨
    (may (.slot s) ∨ Fresh st st' (.slot s)) ∧ (st'.read s = v ∨ st'.read s = .null)
  once : ∀ s t, st'.read s ≠ st.read s → st'.read t ≠ st.read t → s = t
  arrays : ∀ a, Keeps may st st' (.array a) ArrayData.handles (st.array a) (st'.array a)
  keys : ∀ a, Assoc.keys (st.array a).elements <+: Assoc.keys (st'.array a).elements
  objects : ∀ o : ObjectId,
    Keeps may st st' (.object o) handlesOf st.objects[o.index]? st'.objects[o.index]?
  kinds : ∀ (o : ObjectId) (c : ClassId), st.kind? o = some c → st'.kind? o = some c

variable {may : Handle → Prop} {v : Value} {st st₁ st₂ : Store}

theorem Adjusts.refl (may : Handle → Prop) (v : Value) (st : Store) : Adjusts may v st st where
  grows := le_refl _
  classes := rfl
  slots _ := .inl rfl
  once _ _ differs := absurd rfl differs
  arrays _ := .inl rfl
  keys _ := List.prefix_rfl
  objects _ := .inl rfl
  kinds _ _ same := same

theorem Keeps.trans {γ : Type} {h : Handle} {handles : γ → List Handle} {x x₁ x₂ : γ}
    (grows : st.extent ≤ st₁.extent) (grows' : st₁.extent ≤ st₂.extent)
    (first : Keeps may st st₁ h handles x x₁)
    (second : Keeps (fun h => may h ∨ Fresh st st₁ h) st₁ st₂ h handles x₁ x₂) :
    Keeps may st st₂ h handles x x₂ := by
  have widen : ∀ g, (may g ∨ Fresh st st₁ g) ∨ Fresh st₁ st₂ g → may g ∨ Fresh st st₂ g := by
    rintro g ((allowed | fresh) | fresh)
    · exact .inl allowed
    · exact .inr (fresh.grow grows')
    · exact .inr (fresh.start grows)
  have later : ∀ g, may g ∨ Fresh st st₁ g → may g ∨ Fresh st st₂ g :=
    fun g allowed => widen g (.inl allowed)
  rcases second with same | ⟨touched, held⟩
  · subst same
    exact first.imp_right fun ⟨touched, held⟩ =>
      ⟨later h touched, fun g member => (held g member).imp_right (later g)⟩
  · refine .inr ⟨widen h touched, fun g member => ?_⟩
    rcases held g member with old | new
    · rcases first with same | ⟨_, earlier⟩
      · exact .inl (same ▸ old)
      · exact (earlier g old).imp_right (later g)
    · exact .inr (widen g new)

/-- A second change that stores nothing may follow. -/
theorem Adjusts.trans (first : Adjusts may v st st₁)
    (second : Adjusts (fun h => may h ∨ Fresh st st₁ h) .null st₁ st₂)
    (still : ∀ s, st₂.read s = st₁.read s) : Adjusts may v st st₂ where
  grows := first.grows.trans second.grows
  classes := second.classes.trans first.classes
  slots s := by
    rw [still]
    exact (first.slots s).imp_right (And.imp_left (Or.imp_right (Fresh.grow second.grows)))
  once s t := by
    rw [still, still]
    exact first.once s t
  arrays a := (first.arrays a).trans first.grows second.grows (second.arrays a)
  keys a := (first.keys a).trans (second.keys a)
  objects o := (first.objects o).trans first.grows second.grows (second.objects o)
  kinds o c isKind := second.kinds o c (first.kinds o c isKind)

theorem Adjusts.within_classData {c : ClassId} (change : Adjusts may v st st₁)
    (inside : (Handle.classData c).Within st₁.extent) : (Handle.classData c).Within st.extent := by
  simpa [Handle.Within, extent, change.classes] using inside

theorem Adjusts.holds_classData (change : Adjusts may v st st₁) (c : ClassId) :
    st₁.holds (.classData c) = st.holds (.classData c) := by
  simp [holds, classData, change.classes]

/-! The changes the evaluation makes -/

theorem read_newSlot (st : Store) (v : Value) (s : SlotId) :
    (st.newSlot v).2.read s = if s.index = st.slots.size then v else st.read s := by
  simp only [read, newSlot, Array.getElem?_push]
  split <;> simp

theorem extent_newSlot (st : Store) (v : Value) : st.extent ≤ (st.newSlot v).2.extent := by
  simp [Extent.le_def, extent, newSlot]

theorem fresh_newSlot (st : Store) (v : Value) :
    Fresh st (st.newSlot v).2 (.slot (st.newSlot v).1) := by
  simp [Fresh, Handle.Within, extent, newSlot]

theorem adjusts_newSlot (may : Handle → Prop) (v : Value) (st : Store) :
    Adjusts may v st (st.newSlot v).2 where
  grows := extent_newSlot st v
  classes := rfl
  slots s := by
    rw [read_newSlot]
    split
    · next last =>
        exact .inr ⟨.inr (by simp [Fresh, Handle.Within, extent, newSlot, last]), .inl rfl⟩
    · exact .inl rfl
  once s t := by
    rw [read_newSlot, read_newSlot]
    intro changed changed'
    have last : s.index = st.slots.size := by
      by_contra other
      simp [other] at changed
    have last' : t.index = st.slots.size := by
      by_contra other
      simp [other] at changed'
    cases s
    cases t
    simp_all
  arrays _ := .inl rfl
  keys _ := List.prefix_rfl
  objects _ := .inl rfl
  kinds _ _ same := same

theorem adjusts_write (st : Store) {s : SlotId} (v : Value) (allowed : may (.slot s)) :
    Adjusts may v st (st.write s v) where
  grows := by simp [extent, write]
  classes := rfl
  slots t := by
    by_cases same : t = s
    · subst same
      by_cases inside : t.index < st.slots.size
      · exact .inr ⟨.inl allowed, .inl (read_write_self st t v inside)⟩
      · exact .inl (by simp [read, write, inside])
    · exact .inl (read_write_of_ne st s t v same)
  once t u changed changed' := by
    have target : t = s := by
      by_contra other
      exact changed (read_write_of_ne st s t v other)
    have target' : u = s := by
      by_contra other
      exact changed' (read_write_of_ne st s u v other)
    rw [target, target']
  arrays _ := .inl rfl
  keys _ := List.prefix_rfl
  objects _ := .inl rfl
  kinds _ _ same := same

theorem array_setArray (st : Store) (a b : ArrayId) (data : ArrayData) :
    (st.setArray a data).array b =
      if b = a ∧ a.index < st.arrays.size then data else st.array b := by
  by_cases same : b = a
  · subst same
    by_cases inside : b.index < st.arrays.size <;> simp [array, setArray, inside]
  · simp [same]

theorem adjusts_setArray (st : Store) (v : Value) {a : ArrayId} {data : ArrayData}
    (allowed : may (.array a)) (held : ∀ h ∈ data.handles, h ∈ (st.array a).handles ∨ may h)
    (order : Assoc.keys (st.array a).elements <+: Assoc.keys data.elements) :
    Adjusts may v st (st.setArray a data) where
  grows := by simp [extent, setArray]
  classes := rfl
  slots _ := .inl rfl
  once _ _ differs := absurd rfl differs
  arrays b := by
    rw [Keeps, array_setArray]
    split
    · next target =>
        rw [target.1]
        exact .inr ⟨.inl allowed, fun h member => (held h member).imp_right .inl⟩
    · exact .inl rfl
  keys b := by
    rw [array_setArray]
    split
    · next target => rwa [target.1]
    · exact List.prefix_rfl
  objects _ := .inl rfl
  kinds _ _ same := same

theorem array_newArray (st : Store) (data : ArrayData) (a : ArrayId) :
    (st.newArray data).2.array a = if a.index = st.arrays.size then data else st.array a := by
  simp only [array, newArray, Array.getElem?_push]
  split <;> simp

theorem fresh_newArray (st : Store) (data : ArrayData) :
    Fresh st (st.newArray data).2 (.array (st.newArray data).1) := by
  simp [Fresh, Handle.Within, extent, newArray]

theorem adjusts_newArray (st : Store) (v : Value) {data : ArrayData}
    (held : ∀ h ∈ data.handles, may h) : Adjusts may v st (st.newArray data).2 where
  grows := by simp [Extent.le_def, extent, newArray]
  classes := rfl
  slots _ := .inl rfl
  once _ _ differs := absurd rfl differs
  arrays a := by
    rw [Keeps, array_newArray]
    split
    · next last =>
        exact .inr ⟨.inr (by simp [Fresh, Handle.Within, extent, newArray, last]),
          fun h member => .inr (.inl (held h member))⟩
    · exact .inl rfl
  keys a := by
    rw [array_newArray]
    split
    · next last =>
        have none : st.array a = .empty := by simp [array, last]
        rw [none]
        exact List.nil_prefix
    · exact List.prefix_rfl
  objects _ := .inl rfl
  kinds _ _ same := same

theorem objects_setObject (st : Store) (o p : ObjectId) (data : ObjectData) :
    (st.setObject o data).objects[p.index]? =
      if p = o ∧ o.index < st.objects.size then some data else st.objects[p.index]? := by
  by_cases same : p = o
  · subst same
    by_cases inside : p.index < st.objects.size <;> simp [setObject, inside]
  · have apart : o.index ≠ p.index := fun equal => same (by cases o; cases p; simp_all)
    simp [setObject, apart, same]

theorem adjusts_setObject (st : Store) (v : Value) {o : ObjectId} {data : ObjectData}
    (allowed : may (.object o)) (held : ∀ h ∈ data.handles, h ∈ (st.object o).handles ∨ may h)
    (sameClass : data.classId = (st.object o).classId) :
    Adjusts may v st (st.setObject o data) where
  grows := by simp [extent, setObject]
  classes := rfl
  slots _ := .inl rfl
  once _ _ differs := absurd rfl differs
  arrays _ := .inl rfl
  keys _ := List.prefix_rfl
  objects p := by
    rw [Keeps, objects_setObject]
    split
    · next target =>
        obtain ⟨rfl, inside⟩ := target
        refine .inr ⟨.inl allowed, fun h member => ?_⟩
        have before : handlesOf st.objects[p.index]? = (st.object p).handles := by
          simp [handlesOf, object, inside]
        rw [before]
        exact (held h member).imp_right .inl
    · exact .inl rfl
  kinds p c isKind := by
    rw [kind?, objects_setObject]
    split
    · next target =>
        obtain ⟨rfl, inside⟩ := target
        rw [Option.map_some, sameClass]
        simpa [kind?, object, inside] using isKind
    · exact isKind

theorem objects_newObject (st : Store) (data : ObjectData) (o : ObjectId) :
    (st.newObject data).2.objects[o.index]? =
      if o.index = st.objects.size then some data else st.objects[o.index]? := by
  simp only [newObject, Array.getElem?_push]

theorem adjusts_newObject (st : Store) (v : Value) {data : ObjectData}
    (held : ∀ h ∈ data.handles, may h) : Adjusts may v st (st.newObject data).2 where
  grows := by simp [Extent.le_def, extent, newObject]
  classes := rfl
  slots _ := .inl rfl
  once _ _ differs := absurd rfl differs
  arrays _ := .inl rfl
  keys _ := List.prefix_rfl
  objects o := by
    rw [Keeps, objects_newObject]
    split
    · next last =>
        exact .inr ⟨.inr (by simp [Fresh, Handle.Within, extent, newObject, last]),
          fun h member => .inr (.inl (held h member))⟩
    · exact .inl rfl
  kinds o c isKind := by
    rw [kind?, objects_newObject]
    split
    · next last => simp [kind?, last] at isKind
    · exact isKind

theorem fresh_newObject (st : Store) (data : ObjectData) :
    Fresh st (st.newObject data).2 (.object (st.newObject data).1) := by
  simp [Fresh, Handle.Within, extent, newObject]

theorem fresh_newClass (st : Store) (data : ClassData) :
    Fresh st (st.newClass data).2 (.classData (st.newClass data).1) := by
  simp [Fresh, Handle.Within, extent, newClass]

theorem extent_newClass (st : Store) (data : ClassData) :
    st.extent ≤ (st.newClass data).2.extent := by
  simp [Extent.le_def, extent, newClass]

/-- What a class holds after one is added, it held before, or it is the one added. -/
theorem mem_holds_newClass {data : ClassData} {c : ClassId} {g : Handle}
    (inside : (Handle.classData c).Within (st.newClass data).2.extent)
    (member : g ∈ (st.newClass data).2.holds (.classData c)) :
    g ∈ data.handles ∨ (Handle.classData c).Within st.extent ∧ g ∈ st.holds (.classData c) := by
  simp only [holds, classData, newClass, Array.getElem?_push] at member
  split at member
  · exact .inl member
  · next earlier =>
      refine .inr ⟨?_, member⟩
      simp only [Handle.Within, extent, newClass, Array.size_push] at inside ⊢
      omega

/-! Elements and properties -/

theorem elements_trackKey (data : ArrayData) (key : Key) :
    (data.trackKey key).elements = data.elements := by
  cases key with
  | integer n =>
      simp only [ArrayData.trackKey]
      split <;> rfl
  | string s => rfl

theorem pointer_trackKey (data : ArrayData) (key : Key) :
    (data.trackKey key).pointer = data.pointer := by
  cases key with
  | integer n =>
      simp only [ArrayData.trackKey]
      split <;> rfl
  | string s => rfl

theorem handles_trackKey (data : ArrayData) (key : Key) :
    (data.trackKey key).handles = data.handles := by
  rw [ArrayData.handles, elements_trackKey]
  rfl

theorem mem_handles_bind {data : ArrayData} {key : Key} {s : SlotId} {h : Handle}
    (member : h ∈ (data.bind key s).handles) : h ∈ data.handles ∨ h = .slot s := by
  obtain ⟨⟨k, t⟩, inside, rfl⟩ := List.mem_map.mp member
  rcases Assoc.mem_set inside with old | rfl
  · exact .inl (List.mem_map.mpr ⟨(k, t), old, rfl⟩)
  · exact .inr rfl

/-- A known key stays where it is, and a new one comes last. -/
theorem keys_bind (data : ArrayData) (key : Key) (s : SlotId) :
    Assoc.keys data.elements <+: Assoc.keys (data.bind key s).elements := by
  simp only [ArrayData.bind, Assoc.keys_set]
  split
  · exact List.prefix_rfl
  · exact List.prefix_append _ _

theorem adjusts_bindElement (st : Store) (v : Value) {a : ArrayId} {s : SlotId} (key : Key)
    (allowed : may (.array a)) (known : may (.slot s)) :
    Adjusts may v st (st.bindElement a key s) := by
  refine adjusts_setArray st v allowed (fun h member => ?_) ?_
  · rcases mem_handles_bind member with old | rfl
    · exact .inl old
    · exact .inr known
  · exact keys_bind (st.array a) key s

theorem adjusts_bindProperty (st : Store) (v : Value) {o : ObjectId} {s : SlotId} (name : String)
    (allowed : may (.object o)) (known : may (.slot s)) :
    Adjusts may v st (st.bindProperty o name s) := by
  refine adjusts_setObject st v allowed (fun h member => ?_) rfl
  rcases List.mem_cons.mp member with rfl | property
  · exact .inl List.mem_cons_self
  · obtain ⟨⟨k, t⟩, inside, rfl⟩ := List.mem_map.mp property
    rcases Assoc.mem_set inside with old | rfl
    · exact .inl (List.mem_cons_of_mem _ (List.mem_map.mpr ⟨(k, t), old, rfl⟩))
    · exact .inr known

/-- A slot that was just added is bound in an array or object. -/
theorem Adjusts.bindNew {st' : Store} (v : Value)
    (bound : Adjusts (fun h => may h ∨ Fresh st (st.newSlot v).2 h) .null (st.newSlot v).2 st')
    (still : ∀ s, st'.read s = (st.newSlot v).2.read s) : Adjusts may v st st' :=
  (adjusts_newSlot may v st).trans bound still

theorem mem_handles_of_slot? {data : ArrayData} {key : Key} {s : SlotId}
    (found : data.slot? key = some s) : Handle.slot s ∈ data.handles :=
  List.mem_map.mpr ⟨(key, s), Assoc.mem_of_get? found, rfl⟩

theorem mem_handles_of_property {data : ObjectData} {name : String} {s : SlotId}
    (found : Assoc.get? data.properties name = some s) : Handle.slot s ∈ data.handles :=
  List.mem_cons_of_mem _ (List.mem_map.mpr ⟨(name, s), Assoc.mem_of_get? found, rfl⟩)

/-- Putting a value at a spot may touch the spot and, where it leads to a slot, that slot. -/
theorem adjusts_put (st : Store) (spot : Spot) (v : Value) (allowed : may spot.handle)
    (closed : ∀ s, Handle.slot s ∈ st.holds spot.handle → may (.slot s)) :
    Adjusts may v st (st.put spot v) := by
  cases spot with
  | slot s => exact adjusts_write st v allowed
  | element a key =>
      simp only [put, insertElement]
      split
      · next s found => exact adjusts_write st v (closed s (mem_handles_of_slot? found))
      · exact .bindNew v (adjusts_bindElement _ _ key (.inl allowed) (.inr (fresh_newSlot st v)))
          fun _ => rfl
  | append a =>
      exact .bindNew v (adjusts_bindElement _ _ _ (.inl allowed) (.inr (fresh_newSlot st v)))
        fun _ => rfl
  | property o name =>
      simp only [put, setProperty]
      split
      · next s found => exact adjusts_write st v (closed s (mem_handles_of_property found))
      · exact .bindNew v (adjusts_bindProperty _ _ name (.inl allowed) (.inr (fresh_newSlot st v)))
          fun _ => rfl

theorem adjusts_slotAt (st : Store) (spot : Spot) (allowed : may spot.handle) :
    Adjusts may .null st (st.slotAt spot).2 := by
  cases spot with
  | slot s => exact .refl may .null st
  | element a key =>
      simp only [slotAt, elementSlot]
      split
      · refine adjusts_setArray st .null allowed (fun h member => ?_) ?_
        · exact .inl (handles_trackKey (st.array a) key ▸ member)
        · simp only [elements_trackKey, List.prefix_rfl]
      · exact .bindNew .null
          (adjusts_bindElement _ _ key (.inl allowed) (.inr (fresh_newSlot st .null))) fun _ => rfl
  | append a =>
      exact .bindNew .null
        (adjusts_bindElement _ _ _ (.inl allowed) (.inr (fresh_newSlot st .null))) fun _ => rfl
  | property o name =>
      simp only [slotAt, propertySlot]
      split
      · exact .refl may .null st
      · exact .bindNew .null
          (adjusts_bindProperty _ _ name (.inl allowed) (.inr (fresh_newSlot st .null)))
          fun _ => rfl

/-- The slot at a spot was there already or is new. -/
theorem slotAt_slot (st : Store) (spot : Spot) :
    .slot (st.slotAt spot).1 = spot.handle ∨ .slot (st.slotAt spot).1 ∈ st.holds spot.handle ∨
      Fresh st (st.slotAt spot).2 (.slot (st.slotAt spot).1) := by
  cases spot with
  | slot s => exact .inl rfl
  | element a key =>
      simp only [slotAt, elementSlot]
      split
      · next s found => exact .inr (.inl (mem_handles_of_slot? found))
      · exact .inr (.inr (fresh_newSlot st .null))
  | append a => exact .inr (.inr (fresh_newSlot st .null))
  | property o name =>
      simp only [slotAt, propertySlot]
      split
      · next s found => exact .inr (.inl (mem_handles_of_property found))
      · exact .inr (.inr (fresh_newSlot st .null))

theorem adjusts_bindAt (st : Store) (spot : Spot) (v : Value) {s : SlotId}
    (allowed : may spot.handle) (known : may (.slot s)) : Adjusts may v st (st.bindAt spot s) := by
  cases spot with
  | slot t => exact .refl may v st
  | element a key => exact adjusts_bindElement st v key allowed known
  | append a => exact adjusts_bindElement st v _ allowed known
  | property o name => exact adjusts_bindProperty st v name allowed known

end Store
end TreeScript
