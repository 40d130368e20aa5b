import TreeScript.Proofs.Store.Depth

set_option autoImplicit false

/- Stores that differ by what lies between. Two runs that add the same things, the one to a store and
the other to the same store with more in it already, give their new slots and arrays numbers that
differ by how much more there was. -/
namespace TreeScript

/-- A number that is so many further, if it is not below the start. -/
def shiftNumber (start more i : Nat) : Nat := if i < start then i else i + more

section numbers

variable {start more n : Nat}

theorem shiftNumber_injective (start more : Nat) : Function.Injective (shiftNumber start more) := by
  intro i j same
  simp only [shiftNumber] at same
  split at same <;> split at same <;> omega

theorem shiftNumber_lt (above : start ≤ n) (i : Nat) :
    shiftNumber start more i < n + more ↔ i < n := by
  rw [shiftNumber]
  split <;> omega

theorem shiftNumber_eq (above : start ≤ n) (i : Nat) :
    shiftNumber start more i = n + more ↔ i = n := by
  rw [shiftNumber]
  split <;> omega

/-- The numbers that nothing is shifted to are those that are left out. -/
theorem exists_shiftNumber_iff {finish : Nat} (less : start ≤ finish) (i : Nat) :
    (∃ j, shiftNumber start (finish - start) j = i) ↔ ¬ (i < finish ∧ ¬ i < start) := by
  constructor
  · rintro ⟨j, rfl⟩
    rw [shiftNumber]
    split <;> omega
  · intro used
    by_cases below : i < start
    · exact ⟨i, if_pos below⟩
    · refine ⟨i - (finish - start), ?_⟩
      rw [shiftNumber]
      split <;> omega

end numbers

/-- Slots and arrays from a number on are so many further. -/
structure Shift where
  slots : Nat
  moreSlots : Nat
  arrays : Nat
  moreArrays : Nat

namespace Shift

/-- What is added to the first store is added to the second, which has more in it. -/
def between (base st : Store) : Shift :=
  ⟨base.slots.size, st.slots.size - base.slots.size,
    base.arrays.size, st.arrays.size - base.arrays.size⟩

variable (g : Shift)

def slot (s : SlotId) : SlotId := ⟨shiftNumber g.slots g.moreSlots s.index⟩

def array (a : ArrayId) : ArrayId := ⟨shiftNumber g.arrays g.moreArrays a.index⟩

def handle : Handle → Handle
  | .slot s => .slot (g.slot s)
  | .array a => .array (g.array a)
  | .object o => .object o
  | .classData c => .classData c

def value : Value → Value
  | .array a => .array (g.array a)
  | v => v

/-- Both values of a pair. -/
def pair (both : Value × Value) : Value × Value := (g.value both.1, g.value both.2)

def entries {κ : Type} (l : List (κ × SlotId)) : List (κ × SlotId) :=
  l.map fun entry => (entry.1, g.slot entry.2)

def data (d : ArrayData) : ArrayData := { d with elements := g.entries d.elements }

theorem slot_injective : Function.Injective g.slot := by
  rintro ⟨i⟩ ⟨j⟩ same
  exact congrArg SlotId.mk (shiftNumber_injective _ _ (SlotId.mk.inj same))

theorem array_injective : Function.Injective g.array := by
  rintro ⟨i⟩ ⟨j⟩ same
  exact congrArg ArrayId.mk (shiftNumber_injective _ _ (ArrayId.mk.inj same))

theorem handle_injective : Function.Injective g.handle := by
  intro h k same
  cases h <;> cases k <;> simp only [handle, Handle.slot.injEq, Handle.array.injEq,
    Handle.object.injEq, Handle.classData.injEq, reduceCtorEq] at same ⊢
  · exact g.slot_injective same
  · exact g.array_injective same
  · exact same
  · exact same

@[simp] theorem handles_value (v : Value) : (g.value v).handles = v.handles.map g.handle := by
  cases v <;> rfl

@[simp] theorem handles_data (d : ArrayData) : (g.data d).handles = d.handles.map g.handle := by
  simp [data, ArrayData.handles, entries, handle]

@[simp] theorem size_data (d : ArrayData) : (g.data d).size = d.size := by
  simp [data, ArrayData.size, entries]

@[simp] theorem isEmpty_data (d : ArrayData) :
    (g.data d).elements.isEmpty = d.elements.isEmpty := by
  simp [data, entries]

theorem get?_entries {κ : Type} [BEq κ] (l : List (κ × SlotId)) (key : κ) :
    Assoc.get? (g.entries l) key = (Assoc.get? l key).map g.slot := Assoc.get?_map l g.slot key

theorem set_entries {κ : Type} [BEq κ] (l : List (κ × SlotId)) (key : κ) (s : SlotId) :
    Assoc.set (g.entries l) key (g.slot s) = g.entries (Assoc.set l key s) :=
  (Assoc.map_set l key s g.slot).symm

theorem slot?_data (d : ArrayData) (key : Key) :
    (g.data d).slot? key = (d.slot? key).map g.slot := g.get?_entries d.elements key

theorem bind_data (d : ArrayData) (key : Key) (s : SlotId) :
    (g.data d).bind key (g.slot s) = g.data (d.bind key s) := by
  have tracked : (g.data d).trackKey key = g.data (d.trackKey key) := by
    cases key with
    | integer n =>
        by_cases more : d.nextIndex ≤ n
        · simp [ArrayData.trackKey, data, more]
        · simp [ArrayData.trackKey, data, more]
    | string text => rfl
  rw [ArrayData.bind, tracked, ArrayData.bind, data, data, data, g.set_entries]

variable {g} {base st : Store}

/-! What was there keeps its number -/

theorem slot_of_within {s : SlotId} (old : (Handle.slot s).Within base.extent) :
    (between base st).slot s = s := congrArg SlotId.mk (if_pos old)

theorem array_of_within {a : ArrayId} (old : (Handle.array a).Within base.extent) :
    (between base st).array a = a := congrArg ArrayId.mk (if_pos old)

theorem handle_of_within {h : Handle} (old : h.Within base.extent) :
    (between base st).handle h = h := by
  cases h with
  | slot s => exact congrArg Handle.slot (slot_of_within old)
  | array a => exact congrArg Handle.array (array_of_within old)
  | object o => rfl
  | classData c => rfl

theorem value_of_within {v : Value} (old : ∀ h ∈ v.handles, h.Within base.extent) :
    (between base st).value v = v := by
  cases v with
  | array a => exact congrArg Value.array (array_of_within (old _ List.mem_cons_self))
  | _ => rfl

theorem entries_of_within {κ : Type} {l : List (κ × SlotId)}
    (old : ∀ entry ∈ l, (Handle.slot entry.2).Within base.extent) :
    (between base st).entries l = l := by
  rw [entries]
  refine (List.map_congr_left fun entry member => ?_).trans (List.map_id' l)
  exact congrArg (entry.1, ·) (slot_of_within (old entry member))

theorem value_eq_of_plain {v : Value} (plain : v.handles = []) : g.value v = v := by
  cases v with
  | array a => cases plain
  | _ => rfl

end Shift

/-! Shifted stores -/

/-- The second store has everything of the first, with shifted numbers. -/
structure Shifted (g : Shift) (st st' : Store) : Prop where
  slots : st'.slots.size = st.slots.size + g.moreSlots
  arrays : st'.arrays.size = st.arrays.size + g.moreArrays
  fromSlots : g.slots ≤ st.slots.size
  fromArrays : g.arrays ≤ st.arrays.size
  read : ∀ s, st'.read (g.slot s) = g.value (st.read s)
  array : ∀ a, st'.array (g.array a) = g.data (st.array a)
  objects : st'.objects = st.objects
  classes : st'.classes = st.classes
  properties : ∀ o, g.entries (st.object o).properties = (st.object o).properties
  defaults : ∀ c, ∀ h ∈ (st.classData c).handles, g.handle h = h

namespace Shifted

variable {g : Shift} {st st' : Store}

theorem slot_lt (shifted : Shifted g st st') (s : SlotId) :
    (g.slot s).index < st'.slots.size ↔ s.index < st.slots.size := by
  rw [shifted.slots]
  exact shiftNumber_lt shifted.fromSlots s.index

theorem array_lt (shifted : Shifted g st st') (a : ArrayId) :
    (g.array a).index < st'.arrays.size ↔ a.index < st.arrays.size := by
  rw [shifted.arrays]
  exact shiftNumber_lt shifted.fromArrays a.index

theorem within (shifted : Shifted g st st') (h : Handle) :
    (g.handle h).Within st'.extent ↔ h.Within st.extent := by
  cases h with
  | slot s => exact shifted.slot_lt s
  | array a => exact shifted.array_lt a
  | object o => simp only [Shift.handle, Handle.Within, Store.extent, shifted.objects]
  | classData c => simp only [Shift.handle, Handle.Within, Store.extent, shifted.classes]

theorem object (shifted : Shifted g st st') (o : ObjectId) : st'.object o = st.object o := by
  simp only [Store.object, shifted.objects]

theorem classData (shifted : Shifted g st st') (c : ClassId) :
    st'.classData c = st.classData c := by
  simp only [Store.classData, shifted.classes]

theorem className (shifted : Shifted g st st') (o : ObjectId) :
    st'.className o = st.className o := by
  simp only [Store.className, shifted.object, shifted.classData]

theorem holds (shifted : Shifted g st st') (h : Handle) :
    st'.holds (g.handle h) = (st.holds h).map g.handle := by
  cases h with
  | slot s => simp only [Shift.handle, Store.holds, shifted.read, Shift.handles_value]
  | array a => simp only [Shift.handle, Store.holds, shifted.array, Shift.handles_data]
  | object o =>
      have same := shifted.properties o
      simp only [Shift.handle, Store.holds, shifted.object, ObjectData.handles, List.map_cons]
      nth_rewrite 1 [← same]
      simp [Shift.entries, Shift.handle]
  | classData c =>
      simp only [Shift.handle, Store.holds, shifted.classData]
      exact ((List.map_congr_left (shifted.defaults c)).trans (List.map_id' _)).symm

theorem element? (shifted : Shifted g st st') (a : ArrayId) (key : Key) :
    st'.element? (g.array a) key = (st.element? a key).map g.value := by
  simp only [Store.element?, shifted.array, Shift.slot?_data, Option.map_map]
  congr 1
  funext s
  exact shifted.read s

theorem property? (shifted : Shifted g st st') (o : ObjectId) (name : String) :
    st'.property? o name = (st.property? o name).map g.value := by
  simp only [Store.property?, shifted.object]
  nth_rewrite 1 [← shifted.properties o]
  rw [Shift.get?_entries, Option.map_map, Option.map_map]
  congr 1
  funext s
  exact shifted.read s

/-! Changes -/

theorem slot_size (shifted : Shifted g st st') (s : SlotId) :
    (g.slot s).index = st'.slots.size ↔ s.index = st.slots.size := by
  rw [shifted.slots]
  exact shiftNumber_eq shifted.fromSlots s.index

theorem array_size (shifted : Shifted g st st') (a : ArrayId) :
    (g.array a).index = st'.arrays.size ↔ a.index = st.arrays.size := by
  rw [shifted.arrays]
  exact shiftNumber_eq shifted.fromArrays a.index

theorem newSlot (shifted : Shifted g st st') (v : Value) :
    g.slot (st.newSlot v).1 = (st'.newSlot (g.value v)).1 ∧
      Shifted g (st.newSlot v).2 (st'.newSlot (g.value v)).2 := by
  refine ⟨congrArg SlotId.mk ((shifted.slot_size _).mpr rfl), { shifted with
    slots := by simp [Store.newSlot, shifted.slots, Nat.add_right_comm]
    fromSlots := by
      simpa [Store.newSlot] using Nat.le_succ_of_le shifted.fromSlots
    read := fun s => ?_ }⟩
  rw [Store.read_newSlot, Store.read_newSlot]
  simp only [shifted.slot_size]
  split
  · rfl
  · exact shifted.read s

theorem newArray (shifted : Shifted g st st') (d : ArrayData) :
    g.array (st.newArray d).1 = (st'.newArray (g.data d)).1 ∧
      Shifted g (st.newArray d).2 (st'.newArray (g.data d)).2 := by
  refine ⟨congrArg ArrayId.mk ((shifted.array_size _).mpr rfl), { shifted with
    arrays := by simp [Store.newArray, shifted.arrays, Nat.add_right_comm]
    fromArrays := by
      simpa [Store.newArray] using Nat.le_succ_of_le shifted.fromArrays
    array := fun a => ?_ }⟩
  rw [Store.array_newArray, Store.array_newArray]
  simp only [shifted.array_size]
  split
  · rfl
  · exact shifted.array a

theorem write (shifted : Shifted g st st') (s : SlotId) (v : Value) :
    Shifted g (st.write s v) (st'.write (g.slot s) (g.value v)) := by
  refine { shifted with
    slots := by simpa [Store.write] using shifted.slots
    fromSlots := by simpa [Store.write] using shifted.fromSlots
    read := fun t => ?_ }
  by_cases same : t = s
  · subst same
    by_cases inside : t.index < st.slots.size
    · rw [Store.read_write_self st t v inside,
        Store.read_write_self st' _ _ ((shifted.slot_lt t).mpr inside)]
    · have outside := mt (shifted.slot_lt t).mp inside
      simpa [Store.read, Store.write, inside, outside] using shifted.read t
  · rw [Store.read_write_of_ne st s t v same,
      Store.read_write_of_ne st' _ _ _ fun eq => same (g.slot_injective eq)]
    exact shifted.read t

theorem setArray (shifted : Shifted g st st') (a : ArrayId) (d : ArrayData) :
    Shifted g (st.setArray a d) (st'.setArray (g.array a) (g.data d)) := by
  refine { shifted with
    arrays := by simpa [Store.setArray] using shifted.arrays
    fromArrays := by simpa [Store.setArray] using shifted.fromArrays
    array := fun b => ?_ }
  rw [Store.array_setArray, Store.array_setArray]
  simp only [shifted.array_lt, g.array_injective.eq_iff]
  split
  · rfl
  · exact shifted.array b

theorem bindElement (shifted : Shifted g st st') (a : ArrayId) (key : Key) (s : SlotId) :
    Shifted g (st.bindElement a key s) (st'.bindElement (g.array a) key (g.slot s)) := by
  rw [Store.bindElement, Store.bindElement, shifted.array, Shift.bind_data]
  exact shifted.setArray a _

/-- A value is put in an array, with or without a key. -/
theorem put (shifted : Shifted g st st') (a : ArrayId) (key : Option Key) (v : Value) :
    Shifted g (st.put (key.elim (.append a) (.element a)) v)
      (st'.put (key.elim (.append (g.array a)) (.element (g.array a))) (g.value v)) := by
  have added : ∀ key, Shifted g ((st.newSlot v).2.bindElement a key (st.newSlot v).1)
      ((st'.newSlot (g.value v)).2.bindElement (g.array a) key (st'.newSlot (g.value v)).1) := by
    intro key
    obtain ⟨number, shifted⟩ := shifted.newSlot v
    rw [← number]
    exact shifted.bindElement a key _
  cases key with
  | none =>
      have next : (st'.array (g.array a)).nextIndex = (st.array a).nextIndex := by
        rw [shifted.array, Shift.data]
      have added := added (.integer (st.array a).nextIndex)
      simp only [Option.elim, Store.put, Store.push, Store.pushSlot, Store.array_newSlot, next]
      exact added
  | some key =>
      simp only [Option.elim, Store.put, Store.insertElement, shifted.array, Shift.slot?_data]
      cases found : (st.array a).slot? key with
      | none => exact added key
      | some s => exact shifted.write s v

/-! What the stores show -/

theorem toBoolean (shifted : Shifted g st st') (v : Value) :
    st'.toBoolean (g.value v) = st.toBoolean v := by
  cases v with
  | array a => simp only [Shift.value, Store.toBoolean, shifted.array, Shift.isEmpty_data]
  | _ => rfl

theorem toText (shifted : Shifted g st st') (v : Value) :
    st'.toText (g.value v) = st.toText v := by
  cases v with
  | object o => exact shifted.className o
  | _ => rfl

theorem toInteger (shifted : Shifted g st st') (v : Value) :
    st'.toInteger (g.value v) = st.toInteger v := by
  cases v with
  | array a => simp only [Shift.value, Store.toInteger, shifted.array, Shift.isEmpty_data]
  | _ => rfl

theorem toNumber (shifted : Shifted g st st') (v : Value) :
    st'.toNumber (g.value v) = st.toNumber v := by
  cases v with
  | integer n | float x | string s => rfl
  | null | boolean b | object o => rfl
  | array a => exact congrArg Number.integer (shifted.toInteger (.array a))

theorem compareUnlike (shifted : Shifted g st st') (v w : Value) :
    st'.compareUnlike (g.value v) (g.value w) = st.compareUnlike v w := by
  have second := shifted.toBoolean w
  have first := shifted.toBoolean v
  cases v <;> cases w <;> simp only [Shift.value] at first second ⊢ <;>
    simp only [Store.compareUnlike, first, second]

end Shifted

/-! Comparisons -/

def Store.Comparison.shift (g : Shift) : Store.Comparison → Store.Comparison
  | .answer b => .answer b
  | .pairs l => .pairs (l.map (Option.map g.pair))

theorem Store.Comparison.result_shift (g : Shift) (c : Store.Comparison)
    (equal : Value × Value → Option Bool) :
    (c.shift g).result equal = c.result fun pair => equal (g.pair pair) := by
  cases c with
  | answer b => rfl
  | pairs l =>
      rw [Store.Comparison.shift, Store.Comparison.result, Store.allEnding_map,
        Store.Comparison.result]
      congr 1
      funext pair
      cases pair <;> rfl

namespace Shifted

variable {g : Shift} {st st' : Store}

/-- Comparisons whose steps are shifted give the same at every depth. -/
theorem stepwise {step step' : Value × Value → Store.Comparison}
    {f f' : Nat → Value × Value → Option Bool} (first : Store.Stepwise step f)
    (second : Store.Stepwise step' f')
    (steps : ∀ pair, step' (g.pair pair) = (step pair).shift g) (d : Nat)
    (pair : Value × Value) : f' d (g.pair pair) = f d pair := by
  induction d generalizing pair with
  | zero => rw [first.zero, second.zero]
  | succ d ih =>
      rw [first.succ, second.succ, steps, Store.Comparison.result_shift]
      congr 1
      funext inner
      exact ih inner

theorem besides {κ : Type} (shifted : Shifted g st st') {find find' : κ → Option Value}
    (finds : ∀ key, find' key = (find key).map g.value) (l : List (κ × SlotId)) :
    st'.besides find' (g.entries l) = (st.besides find l).map (Option.map g.pair) := by
  simp only [Store.besides, Shift.entries, List.map_map]
  refine List.map_congr_left fun entry _ => ?_
  simp only [Function.comp_apply, finds, shifted.read, Option.map_map]
  rfl

theorem equalStep (shifted : Shifted g st st') (pair : Value × Value) :
    st'.equalStep (g.pair pair) = (st.equalStep pair).shift g := by
  obtain ⟨v, w⟩ := pair
  cases v <;> cases w
  case array.array a b =>
    simp only [Shift.pair, Shift.value, Store.equalStep, shifted.array, Shift.size_data]
    split
    · rfl
    · exact congrArg Store.Comparison.pairs (shifted.besides (shifted.element? b) _)
  case object.object o p =>
    simp only [Shift.pair, Shift.value, Store.equalStep, shifted.object, shifted.className]
    split
    · rfl
    · split
      · rfl
      · nth_rewrite 1 [← shifted.properties o]
        exact congrArg Store.Comparison.pairs (shifted.besides (shifted.property? p) _)
  all_goals
    simp only [Shift.pair, Shift.value, Store.equalStep, Store.Comparison.shift,
      Store.looselyEqualWithin, ← shifted.toBoolean, ← shifted.compareUnlike]

theorem identicalStep (shifted : Shifted g st st') (pair : Value × Value) :
    st'.identicalStep (g.pair pair) = (st.identicalStep pair).shift g := by
  obtain ⟨v, w⟩ := pair
  cases v <;> cases w
  case array.array a b =>
    simp only [Shift.pair, Shift.value, Store.identicalStep, shifted.array, Shift.size_data,
      g.array_injective.eq_iff]
    split
    · rfl
    · split
      · rfl
      · simp only [Shift.data, Shift.entries, List.zip_map, List.map_map, Store.Comparison.shift]
        congr 1
        refine List.map_congr_left fun both _ => ?_
        simp only [Function.comp_apply, Prod.map, shifted.read]
        split <;> rfl
  all_goals
    simp only [Shift.pair, Shift.value, Store.identicalStep, Store.Comparison.shift,
      Store.identicalWithin]

theorem looselyEqual (shifted : Shifted g st st') (v w : Value) :
    st'.looselyEqual (g.value v) (g.value w) = st.looselyEqual v w := by
  refine Option.ext fun b => ?_
  rw [Store.looselyEqual_eq_some_iff, Store.looselyEqual_eq_some_iff]
  have same := stepwise st.stepwise_equal st'.stepwise_equal shifted.equalStep
  exact exists_congr fun d => by rw [← same d (v, w), Shift.pair]

theorem identical (shifted : Shifted g st st') (v w : Value) :
    st'.identical (g.value v) (g.value w) = st.identical v w := by
  refine Option.ext fun b => ?_
  rw [Store.identical_eq_some_iff, Store.identical_eq_some_iff]
  have same := stepwise st.stepwise_identical st'.stepwise_identical shifted.identicalStep
  exact exists_congr fun d => by rw [← same d (v, w), Shift.pair]

theorem compare (shifted : Shifted g st st') (v w : Value) :
    st'.compare (g.value v) (g.value w) = st.compare v w := by
  have equal := shifted.looselyEqual v w
  have unlike := shifted.compareUnlike v w
  cases v <;> cases w
  case array.array a b =>
    simp only [Shift.value] at equal
    simp only [Shift.value, Store.compare, shifted.array, Shift.size_data, equal]
  all_goals
    simp only [Shift.value] at equal unlike
    simp only [Shift.value, Store.compare, equal, unlike]

end Shifted
end TreeScript
