import TreeScript.Proofs.Store.Tally

set_option autoImplicit false

/- Stores that differ only in the numbers of their slots. A pairing says which slots of two stores
are the same one. Slots without a partner hold null, and nothing in the store holds them; arrays,
objects and classes have the same numbers in both stores. -/
namespace TreeScript

/-- Which slots are the same one in two stores with so many slots. -/
structure Pairing where
  pairs : SlotId → SlotId → Prop
  left : Nat
  right : Nat
  inside : ∀ {s s' : SlotId}, pairs s s' → s.index < left ∧ s'.index < right
  unique : ∀ {s s' t t' : SlotId}, pairs s s' → pairs t t' → (s = t ↔ s' = t')

namespace Pairing

/-- A slot of the first store without a partner. -/
def SpareLeft (ρ : Pairing) (s : SlotId) : Prop := s.index < ρ.left ∧ ∀ s', ¬ ρ.pairs s s'

/-- A slot of the second store without a partner. -/
def SpareRight (ρ : Pairing) (s' : SlotId) : Prop := s'.index < ρ.right ∧ ∀ s, ¬ ρ.pairs s s'

/-- All pairs stay, and those that are added are of slots that are new in both stores. -/
structure Grows (ρ ρ₁ : Pairing) : Prop where
  left : ρ.left ≤ ρ₁.left
  right : ρ.right ≤ ρ₁.right
  kept : ∀ {s s' : SlotId}, ρ.pairs s s' → ρ₁.pairs s s'
  fresh : ∀ {s s' : SlotId}, ρ₁.pairs s s' →
    ρ.pairs s s' ∨ ρ.left ≤ s.index ∧ ρ.right ≤ s'.index

instance : LE Pairing := ⟨Grows⟩

instance : Preorder Pairing where
  le_refl ρ := ⟨Nat.le_refl _, Nat.le_refl _, id, .inl⟩
  le_trans ρ₁ ρ₂ ρ₃ first second := by
    refine ⟨first.left.trans second.left, first.right.trans second.right,
      fun pair => second.kept (first.kept pair), fun pair => ?_⟩
    rcases second.fresh pair with earlier | ⟨left, right⟩
    · exact first.fresh earlier
    · exact .inr ⟨first.left.trans left, first.right.trans right⟩

variable {ρ ρ₁ : Pairing}

theorem SpareLeft.mono {s : SlotId} (grows : ρ ≤ ρ₁) (spare : ρ.SpareLeft s) :
    ρ₁.SpareLeft s := by
  refine ⟨Nat.lt_of_lt_of_le spare.1 grows.left, fun s' pair => ?_⟩
  rcases grows.fresh pair with earlier | ⟨new, -⟩
  · exact spare.2 s' earlier
  · exact Nat.not_le_of_lt spare.1 new

theorem SpareRight.mono {s' : SlotId} (grows : ρ ≤ ρ₁) (spare : ρ.SpareRight s') :
    ρ₁.SpareRight s' := by
  refine ⟨Nat.lt_of_lt_of_le spare.1 grows.right, fun s pair => ?_⟩
  rcases grows.fresh pair with earlier | ⟨-, new⟩
  · exact spare.2 s earlier
  · exact Nat.not_le_of_lt spare.1 new

/-- Every slot is its own partner. -/
def same (n : Nat) : Pairing where
  pairs s s' := s = s' ∧ s.index < n
  left := n
  right := n
  inside pair := ⟨pair.2, pair.1 ▸ pair.2⟩
  unique pair pair' := by rw [pair.1, pair'.1]

/-- The stores change places. -/
def symm (ρ : Pairing) : Pairing where
  pairs s s' := ρ.pairs s' s
  left := ρ.right
  right := ρ.left
  inside pair := (ρ.inside pair).symm
  unique pair pair' := (ρ.unique pair pair').symm

/-- A slot of the first store that has no partner gets the next slot of the second store. -/
def wed (ρ : Pairing) (s : SlotId) (spare : ρ.SpareLeft s) : Pairing where
  pairs t t' := ρ.pairs t t' ∨ t = s ∧ t' = ⟨ρ.right⟩
  left := ρ.left
  right := ρ.right + 1
  inside := by
    rintro t t' (pair | ⟨rfl, rfl⟩)
    · exact ⟨(ρ.inside pair).1, Nat.lt_succ_of_lt (ρ.inside pair).2⟩
    · exact ⟨spare.1, Nat.lt_succ_self _⟩
  unique := by
    rintro t t' u u' (pair | ⟨rfl, rfl⟩) (pair' | ⟨rfl, rfl⟩)
    · exact ρ.unique pair pair'
    · refine ⟨fun same => absurd (same ▸ pair) (spare.2 _), fun same => ?_⟩
      exact absurd (same ▸ (ρ.inside pair).2) (Nat.lt_irrefl _)
    · refine ⟨fun same => absurd (same ▸ pair') (spare.2 _), fun same => ?_⟩
      exact absurd (same ▸ (ρ.inside pair').2) (Nat.lt_irrefl _)
    · exact ⟨fun _ => rfl, fun _ => rfl⟩

/-- The first store has one slot more, without a partner. -/
def widenLeft (ρ : Pairing) : Pairing where
  pairs := ρ.pairs
  left := ρ.left + 1
  right := ρ.right
  inside pair := ⟨Nat.lt_succ_of_lt (ρ.inside pair).1, (ρ.inside pair).2⟩
  unique := ρ.unique

theorem spareLeft_widenLeft (ρ : Pairing) : ρ.widenLeft.SpareLeft ⟨ρ.left⟩ :=
  ⟨Nat.lt_succ_self _, fun _ pair => Nat.lt_irrefl _ (ρ.inside pair).1⟩

/-- The second store has one slot more, without a partner. -/
def widenRight (ρ : Pairing) : Pairing := ρ.symm.widenLeft.symm

theorem spareRight_widenRight (ρ : Pairing) : ρ.widenRight.SpareRight ⟨ρ.right⟩ :=
  ρ.symm.spareLeft_widenLeft

/-- Both stores have one slot more, and these are partners. -/
def add (ρ : Pairing) : Pairing := ρ.widenLeft.wed ⟨ρ.left⟩ ρ.spareLeft_widenLeft

theorem grows_widenLeft (ρ : Pairing) : ρ ≤ ρ.widenLeft :=
  ⟨Nat.le_succ _, Nat.le_refl _, id, .inl⟩

theorem grows_widenRight (ρ : Pairing) : ρ ≤ ρ.widenRight :=
  ⟨Nat.le_refl _, Nat.le_succ _, id, .inl⟩

theorem grows_add (ρ : Pairing) : ρ ≤ ρ.add where
  left := Nat.le_succ _
  right := Nat.le_succ _
  kept := .inl
  fresh := by
    rintro s s' (pair | ⟨rfl, rfl⟩)
    · exact .inl pair
    · exact .inr ⟨Nat.le_refl _, Nat.le_refl _⟩

theorem pairs_add (ρ : Pairing) : ρ.add.pairs ⟨ρ.left⟩ ⟨ρ.right⟩ := .inr ⟨rfl, rfl⟩

/-! Entries of arrays, objects and scopes -/

/-- The same keys in the same order, each with a slot and its partner. -/
def Entries {κ : Type} (ρ : Pairing) : List (κ × SlotId) → List (κ × SlotId) → Prop :=
  List.Forall₂ fun entry entry' => entry.1 = entry'.1 ∧ ρ.pairs entry.2 entry'.2

namespace Entries

variable {κ : Type} {l l' : List (κ × SlotId)}

theorem mono (grows : ρ ≤ ρ₁) (paired : ρ.Entries l l') : ρ₁.Entries l l' :=
  paired.imp fun _ _ ⟨key, pair⟩ => ⟨key, grows.kept pair⟩

theorem symm (paired : ρ.Entries l l') : ρ.symm.Entries l' l :=
  (paired.imp fun _ _ ⟨key, pair⟩ => ⟨key.symm, pair⟩).flip

theorem keys (paired : ρ.Entries l l') : Assoc.keys l = Assoc.keys l' := by
  induction paired with
  | nil => rfl
  | cons pair _ ih => exact congrArg₂ List.cons pair.1 ih

theorem getElem? (paired : ρ.Entries l l') (i : Nat) :
    Option.Rel (fun entry entry' => entry.1 = entry'.1 ∧ ρ.pairs entry.2 entry'.2) l[i]? l'[i]? := by
  induction paired generalizing i with
  | nil => exact .none
  | cons pair _ ih =>
      cases i with
      | zero => exact .some pair
      | succ i => exact ih i

theorem get? [BEq κ] (paired : ρ.Entries l l') (key : κ) :
    Option.Rel ρ.pairs (Assoc.get? l key) (Assoc.get? l' key) := by
  induction paired with
  | nil => exact .none
  | @cons entry entry' rest rest' pair _ ih =>
      obtain ⟨k, s⟩ := entry
      obtain ⟨k', s'⟩ := entry'
      obtain ⟨rfl, pair⟩ := pair
      simp only [Assoc.get?, List.lookup_cons] at ih ⊢
      cases key == k with
      | true => exact .some pair
      | false => exact ih

theorem set [BEq κ] (paired : ρ.Entries l l') (key : κ) {s s' : SlotId} (pair : ρ.pairs s s') :
    ρ.Entries (Assoc.set l key s) (Assoc.set l' key s') := by
  induction paired with
  | nil => exact .cons ⟨rfl, pair⟩ .nil
  | @cons entry entry' rest rest' first later ih =>
      obtain ⟨k, t⟩ := entry
      obtain ⟨k', t'⟩ := entry'
      obtain ⟨rfl, old⟩ := first
      simp only [Assoc.set]
      split
      · exact .cons ⟨rfl, pair⟩ later
      · exact .cons ⟨rfl, old⟩ ih

end Entries
end Pairing

/-! Handles -/

/-- Two handles name the same thing. -/
inductive Handle.Paired (ρ : Pairing) : Handle → Handle → Prop
  | slot {s s' : SlotId} (pair : ρ.pairs s s') : Paired ρ (.slot s) (.slot s')
  | array (a : ArrayId) : Paired ρ (.array a) (.array a)
  | object (o : ObjectId) : Paired ρ (.object o) (.object o)
  | classData (c : ClassId) : Paired ρ (.classData c) (.classData c)

namespace Pairing

/-- The same handles in the same order, but for slots without a partner. -/
inductive Handles (ρ : Pairing) : List Handle → List Handle → Prop
  | nil : Handles ρ [] []
  | cons {h h' : Handle} {H H' : List Handle} (pair : h.Paired ρ h') (rest : Handles ρ H H') :
      Handles ρ (h :: H) (h' :: H')
  | left {s : SlotId} {H H' : List Handle} (spare : ρ.SpareLeft s) (rest : Handles ρ H H') :
      Handles ρ (.slot s :: H) H'
  | right {s' : SlotId} {H H' : List Handle} (spare : ρ.SpareRight s') (rest : Handles ρ H H') :
      Handles ρ H (.slot s' :: H')

end Pairing

variable {ρ ρ₁ : Pairing}

namespace Handle.Paired

variable {g g' h h' : Handle}

theorem mono (grows : ρ ≤ ρ₁) : h.Paired ρ h' → h.Paired ρ₁ h'
  | .slot pair => .slot (grows.kept pair)
  | .array a => .array a
  | .object o => .object o
  | .classData c => .classData c

theorem symm : h.Paired ρ h' → h'.Paired ρ.symm h
  | .slot pair => .slot pair
  | .array a => .array a
  | .object o => .object o
  | .classData c => .classData c

theorem unique (first : g.Paired ρ g') (second : h.Paired ρ h') : g = h ↔ g' = h' := by
  cases first <;> cases second
  case slot.slot pair _ _ pair' => simpa using ρ.unique pair pair'
  all_goals simp

end Handle.Paired

namespace Pairing.Handles

variable {H H' G G' : List Handle}

theorem mono (grows : ρ ≤ ρ₁) (paired : ρ.Handles H H') : ρ₁.Handles H H' := by
  induction paired with
  | nil => exact .nil
  | cons pair _ ih => exact .cons (pair.mono grows) ih
  | left spare _ ih => exact .left (spare.mono grows) ih
  | right spare _ ih => exact .right (spare.mono grows) ih

theorem symm (paired : ρ.Handles H H') : ρ.symm.Handles H' H := by
  induction paired with
  | nil => exact .nil
  | cons pair _ ih => exact .cons pair.symm ih
  | left spare _ ih => exact .right spare ih
  | right spare _ ih => exact .left spare ih

theorem append (first : ρ.Handles H H') (second : ρ.Handles G G') :
    ρ.Handles (H ++ G) (H' ++ G') := by
  induction first with
  | nil => exact second
  | cons pair _ ih => exact .cons pair ih
  | left spare _ ih => exact .left spare ih
  | right spare _ ih => exact .right spare ih

/-- What has a partner is as often among the handles as its partner. -/
theorem count {h h' : Handle} (paired : ρ.Handles H H') (pair : h.Paired ρ h') :
    H.count h = H'.count h' := by
  induction paired with
  | nil => rfl
  | cons first _ ih => simp only [List.count_cons, ih, beq_iff_eq, first.unique pair]
  | left spare _ ih =>
      rw [List.count_cons_of_ne, ih]
      rintro rfl
      cases pair with
      | slot pair => exact spare.2 _ pair
  | right spare _ ih =>
      rw [List.count_cons_of_ne, ih]
      rintro rfl
      cases pair with
      | slot pair => exact spare.2 _ pair

theorem mem {h h' : Handle} (paired : ρ.Handles H H') (pair : h.Paired ρ h') :
    h ∈ H ↔ h' ∈ H' := by
  rw [← List.count_pos_iff, ← List.count_pos_iff, paired.count pair]

theorem of_entries {κ : Type} {l l' : List (κ × SlotId)} (paired : ρ.Entries l l') :
    ρ.Handles (l.map fun (_, s) => .slot s) (l'.map fun (_, s) => .slot s) := by
  induction paired with
  | nil => exact .nil
  | cons pair _ ih => exact .cons (.slot pair.2) ih

theorem of_value (v : Value) : ρ.Handles v.handles v.handles := by
  cases v with
  | array a => exact .cons (.array a) .nil
  | object o => exact .cons (.object o) .nil
  | _ => exact .nil

theorem of_values {α : Type} (l : List α) (handles : α → List Handle)
    (each : ∀ x, ρ.Handles (handles x) (handles x)) :
    ρ.Handles (l.flatMap handles) (l.flatMap handles) := by
  induction l with
  | nil => exact .nil
  | cons x rest ih =>
      rw [List.flatMap_cons]
      exact (each x).append ih

end Pairing.Handles

/-! Stores -/

structure ArrayData.Paired (ρ : Pairing) (data data' : ArrayData) : Prop where
  elements : ρ.Entries data.elements data'.elements
  nextIndex : data.nextIndex = data'.nextIndex
  pointer : data.pointer = data'.pointer

structure ObjectData.Paired (ρ : Pairing) (data data' : ObjectData) : Prop where
  classId : data.classId = data'.classId
  properties : ρ.Entries data.properties data'.properties

namespace ArrayData.Paired

variable {data data' : ArrayData}

theorem mono (grows : ρ ≤ ρ₁) (paired : data.Paired ρ data') : data.Paired ρ₁ data' :=
  ⟨paired.elements.mono grows, paired.nextIndex, paired.pointer⟩

theorem size (paired : data.Paired ρ data') : data.size = data'.size := paired.elements.length_eq

theorem isEmpty (paired : data.Paired ρ data') :
    data.elements.isEmpty = data'.elements.isEmpty := by
  have lengths := paired.elements.length_eq
  rw [Bool.eq_iff_iff, List.isEmpty_iff_length_eq_zero, List.isEmpty_iff_length_eq_zero, lengths]

theorem trackKey (paired : data.Paired ρ data') (key : Key) :
    (data.trackKey key).Paired ρ (data'.trackKey key) := by
  cases key with
  | integer n =>
      simp only [ArrayData.trackKey, paired.nextIndex]
      split
      · exact ⟨paired.elements, rfl, paired.pointer⟩
      · exact paired
  | string s => exact paired

theorem bind (paired : data.Paired ρ data') (key : Key) {s s' : SlotId} (pair : ρ.pairs s s') :
    (data.bind key s).Paired ρ (data'.bind key s') :=
  ⟨paired.elements.set key pair, (paired.trackKey key).nextIndex, (paired.trackKey key).pointer⟩

theorem advance (paired : data.Paired ρ data') : data.advance.Paired ρ data'.advance := by
  simp only [ArrayData.advance, paired.size, paired.pointer]
  split
  · exact ⟨paired.elements, paired.nextIndex, rfl⟩
  · exact paired

theorem reset (paired : data.Paired ρ data') : data.reset.Paired ρ data'.reset :=
  ⟨paired.elements, paired.nextIndex, rfl⟩

end ArrayData.Paired

/-- The stores are the same but for the numbers of their slots. -/
structure Store.Paired (ρ : Pairing) (st st' : Store) : Prop where
  left : st.slots.size = ρ.left
  right : st'.slots.size = ρ.right
  read : ∀ {s s' : SlotId}, ρ.pairs s s' → st.read s = st'.read s'
  spareLeft : ∀ s, (∀ s', ¬ ρ.pairs s s') → st.read s = .null
  spareRight : ∀ s', (∀ s, ¬ ρ.pairs s s') → st'.read s' = .null
  arrays : st.arrays.size = st'.arrays.size
  array : ∀ a, (st.array a).Paired ρ (st'.array a)
  objects : st.objects.size = st'.objects.size
  object : ∀ o, (st.object o).Paired ρ (st'.object o)
  classes : st.classes = st'.classes

namespace Store.Paired

variable {st st' : Store}

theorem symm (paired : st.Paired ρ st') : st'.Paired ρ.symm st where
  left := paired.right
  right := paired.left
  read pair := (paired.read pair).symm
  spareLeft := paired.spareRight
  spareRight := paired.spareLeft
  arrays := paired.arrays.symm
  array a :=
    have data := paired.array a
    ⟨data.elements.symm, data.nextIndex.symm, data.pointer.symm⟩
  objects := paired.objects.symm
  object o :=
    have data := paired.object o
    ⟨data.classId.symm, data.properties.symm⟩
  classes := paired.classes.symm

theorem classData (paired : st.Paired ρ st') (c : ClassId) : st.classData c = st'.classData c := by
  rw [Store.classData, Store.classData, paired.classes]

theorem className (paired : st.Paired ρ st') (o : ObjectId) : st.className o = st'.className o := by
  rw [Store.className, Store.className, (paired.object o).classId, paired.classData]

theorem read? (paired : st.Paired ρ st') {found found' : Option SlotId}
    (pair : Option.Rel ρ.pairs found found') : found.map st.read = found'.map st'.read := by
  cases pair with
  | none => rfl
  | some pair => exact congrArg some (paired.read pair)

theorem element? (paired : st.Paired ρ st') (a : ArrayId) (key : Key) :
    st.element? a key = st'.element? a key :=
  paired.read? ((paired.array a).elements.get? key)

theorem property? (paired : st.Paired ρ st') (o : ObjectId) (name : String) :
    st.property? o name = st'.property? o name :=
  paired.read? ((paired.object o).properties.get? name)

/-! Changes of both stores at once -/

theorem write (paired : st.Paired ρ st') {s s' : SlotId} (pair : ρ.pairs s s') (v : Value) :
    (st.write s v).Paired ρ (st'.write s' v) := by
  have inside : s.index < st.slots.size := paired.left ▸ (ρ.inside pair).1
  have inside' : s'.index < st'.slots.size := paired.right ▸ (ρ.inside pair).2
  refine { paired with
    left := by simpa [Store.write] using paired.left
    right := by simpa [Store.write] using paired.right
    read := fun {t t'} other => ?_
    spareLeft := fun t alone => ?_
    spareRight := fun t' alone => ?_ }
  · by_cases same : t = s
    · have same' := (ρ.unique other pair).mp same
      rw [same, same', read_write_self st s v inside, read_write_self st' s' v inside']
    · have apart' := fun same' => same ((ρ.unique other pair).mpr same')
      rw [read_write_of_ne st s t v same, read_write_of_ne st' s' t' v apart']
      exact paired.read other
  · rw [read_write_of_ne st s t v fun same => alone s' (same ▸ pair)]
    exact paired.spareLeft t alone
  · rw [read_write_of_ne st' s' t' v fun same => alone s (same ▸ pair)]
    exact paired.spareRight t' alone

theorem setArray (paired : st.Paired ρ st') (a : ArrayId) {data data' : ArrayData}
    (new : data.Paired ρ data') : (st.setArray a data).Paired ρ (st'.setArray a data') := by
  refine { paired with
    arrays := by simpa [Store.setArray] using paired.arrays
    array := fun b => ?_ }
  rw [array_setArray, array_setArray, paired.arrays]
  split
  · exact new
  · exact paired.array b

theorem setObject (paired : st.Paired ρ st') (o : ObjectId) {data data' : ObjectData}
    (new : data.Paired ρ data') : (st.setObject o data).Paired ρ (st'.setObject o data') := by
  refine { paired with
    objects := by simpa [Store.setObject] using paired.objects
    object := fun p => ?_ }
  have old := paired.object p
  simp only [Store.object, Store.setObject, Array.getElem?_setIfInBounds] at old ⊢
  rw [paired.objects]
  split
  · split
    · exact new
    · exact ⟨rfl, .nil⟩
  · exact old

end Store.Paired
end TreeScript
