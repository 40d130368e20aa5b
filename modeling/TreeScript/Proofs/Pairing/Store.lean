import TreeScript.Proofs.Pairing.Basic

set_option autoImplicit false

/- Paired stores stay paired under the same change of both, and show the same. What a change adds to
both stores at once becomes a pair. -/
namespace TreeScript

variable {ρ : Pairing} {st st' : Store}

/-- After changes of both stores the pairing has grown to one of the stores there are now, by which
the results are alike. -/
def Pairing.Ends {α : Type} (ρ : Pairing) (R : Pairing → α → α → Prop) (r r' : α × Store) : Prop :=
  ∃ ρ₁, ρ ≤ ρ₁ ∧ r.2.Paired ρ₁ r'.2 ∧ R ρ₁ r.1 r'.1

/-- The results are the same. -/
abbrev Same {α : Type} (_ : Pairing) (a a' : α) : Prop := a = a'

/-- The results are slots that are partners. -/
abbrev SameSlot (ρ : Pairing) (s s' : SlotId) : Prop := ρ.pairs s s'

namespace Store

namespace Paired

/-- A slot that only the first store gets has no partner. -/
theorem newLeft (paired : st.Paired ρ st') : (st.newSlot .null).2.Paired ρ.widenLeft st' := by
  have grows := ρ.grows_widenLeft
  refine { paired with
    left := by simp [newSlot, Pairing.widenLeft, paired.left]
    read := fun {s s'} pair => ?_
    spareLeft := fun s alone => ?_
    array := fun a => (paired.array a).mono grows
    object := fun o => ⟨(paired.object o).classId, (paired.object o).properties.mono grows⟩ }
  · rw [read_newSlot_of_lt st .null s (paired.left ▸ (ρ.inside pair).1)]
    exact paired.read pair
  · rw [read_newSlot]
    split
    · rfl
    · exact paired.spareLeft s alone

theorem newRight (paired : st.Paired ρ st') : st.Paired ρ.widenRight (st'.newSlot .null).2 :=
  paired.symm.newLeft.symm

/-- A slot of the first store that has had no partner gets one. -/
theorem wed (paired : st.Paired ρ st') {s : SlotId} (spare : ρ.SpareLeft s) :
    st.Paired (ρ.wed s spare) (st'.newSlot .null).2 := by
  have kept : ∀ {t t'}, ρ.pairs t t' → (ρ.wed s spare).pairs t t' := .inl
  refine { paired with
    right := by simp [newSlot, Pairing.wed, paired.right]
    read := ?_
    spareLeft := fun t alone => paired.spareLeft t fun t' pair => alone t' (.inl pair)
    spareRight := fun t' alone => ?_
    array := fun a => ?_
    object := fun o => ?_ }
  · rintro t t' (pair | ⟨rfl, rfl⟩)
    · rw [read_newSlot_of_lt st' .null t' (paired.right ▸ (ρ.inside pair).2)]
      exact paired.read pair
    · have new : (st'.newSlot .null).1 = ⟨ρ.right⟩ := congrArg SlotId.mk paired.right
      rw [paired.spareLeft t spare.2, ← new, read_newSlot_self]
  · have new : t'.index ≠ st'.slots.size := fun same =>
      alone s (.inr ⟨rfl, congrArg SlotId.mk (same.trans paired.right)⟩)
    rw [read_newSlot, if_neg new]
    exact paired.spareRight t' fun t pair => alone t (.inl pair)
  · have data := paired.array a
    exact ⟨data.elements.imp fun _ _ same => ⟨same.1, kept same.2⟩, data.nextIndex, data.pointer⟩
  · have data := paired.object o
    exact ⟨data.classId, data.properties.imp fun _ _ same => ⟨same.1, kept same.2⟩⟩

theorem newSlot (paired : st.Paired ρ st') (v : Value) :
    ρ.Ends SameSlot (st.newSlot v) (st'.newSlot v) := by
  have first : (st.newSlot v).1 = ⟨ρ.left⟩ := congrArg SlotId.mk paired.left
  have second : (st'.newSlot v).1 = ⟨ρ.right⟩ := congrArg SlotId.mk paired.right
  have pair : ρ.add.pairs (st.newSlot v).1 (st'.newSlot v).1 := by
    rw [first, second]
    exact ρ.pairs_add
  -- a slot for null that then gets the value is a slot for the value
  have filled : ∀ st : Store, ((st.newSlot .null).2.write (st.newSlot .null).1 v) =
      (st.newSlot v).2 := by
    intro st
    simp [Store.newSlot, Store.write, Array.setIfInBounds, Array.set_push]
  have both := (paired.newLeft.wed ρ.spareLeft_widenLeft).write pair v
  refine ⟨ρ.add, ρ.grows_add, ?_, pair⟩
  rw [← filled, ← filled]
  exact both

theorem newArray (paired : st.Paired ρ st') {data data' : ArrayData} (new : data.Paired ρ data') :
    (st.newArray data).1 = (st'.newArray data').1 ∧
      (st.newArray data).2.Paired ρ (st'.newArray data').2 := by
  refine ⟨congrArg ArrayId.mk paired.arrays, { paired with
    arrays := by simp [Store.newArray, paired.arrays]
    array := fun a => ?_ }⟩
  rw [array_newArray, array_newArray, paired.arrays]
  split
  · exact new
  · exact paired.array a

theorem newObject (paired : st.Paired ρ st') {data data' : ObjectData}
    (new : data.Paired ρ data') :
    (st.newObject data).1 = (st'.newObject data').1 ∧
      (st.newObject data).2.Paired ρ (st'.newObject data').2 := by
  refine ⟨congrArg ObjectId.mk paired.objects, { paired with
    objects := by simp [Store.newObject, paired.objects]
    object := fun o => ?_ }⟩
  have old := paired.object o
  simp only [Store.object, Store.newObject, Array.getElem?_push, paired.objects] at old ⊢
  split
  · exact new
  · exact old

theorem newClass (paired : st.Paired ρ st') (data : ClassData) :
    (st.newClass data).1 = (st'.newClass data).1 ∧
      (st.newClass data).2.Paired ρ (st'.newClass data).2 := by
  refine ⟨congrArg (fun l : Array ClassData => ClassId.mk l.size) paired.classes, { paired with
    classes := ?_ }⟩
  simp only [Store.newClass, paired.classes]

/-! Spots -/

theorem bindElement (paired : st.Paired ρ st') (a : ArrayId) (key : Key) {s s' : SlotId}
    (pair : ρ.pairs s s') : (st.bindElement a key s).Paired ρ (st'.bindElement a key s') :=
  paired.setArray a ((paired.array a).bind key pair)

theorem pushSlot (paired : st.Paired ρ st') (a : ArrayId) {s s' : SlotId} (pair : ρ.pairs s s') :
    (st.pushSlot a s).2.Paired ρ (st'.pushSlot a s').2 := by
  simp only [Store.pushSlot, (paired.array a).nextIndex]
  exact paired.bindElement a _ pair

theorem bindProperty (paired : st.Paired ρ st') (o : ObjectId) (name : String) {s s' : SlotId}
    (pair : ρ.pairs s s') : (st.bindProperty o name s).Paired ρ (st'.bindProperty o name s') :=
  paired.setObject o ⟨(paired.object o).classId, (paired.object o).properties.set name pair⟩

end Paired
end Store

/-- The spots are the same one. -/
inductive Spot.Paired (ρ : Pairing) : Spot → Spot → Prop
  | slot {s s' : SlotId} (pair : ρ.pairs s s') : Paired ρ (.slot s) (.slot s')
  | element (a : ArrayId) (key : Key) : Paired ρ (.element a key) (.element a key)
  | append (a : ArrayId) : Paired ρ (.append a) (.append a)
  | property (o : ObjectId) (name : String) : Paired ρ (.property o name) (.property o name)

theorem Spot.Paired.mono {ρ₁ : Pairing} (grows : ρ ≤ ρ₁) {spot spot' : Spot} :
    spot.Paired ρ spot' → spot.Paired ρ₁ spot'
  | .slot pair => .slot (grows.kept pair)
  | .element a key => .element a key
  | .append a => .append a
  | .property o name => .property o name

namespace Store.Paired

variable {spot spot' : Spot}

theorem bindAt (paired : st.Paired ρ st') (spots : spot.Paired ρ spot') {s s' : SlotId}
    (pair : ρ.pairs s s') : (st.bindAt spot s).Paired ρ (st'.bindAt spot' s') := by
  cases spots with
  | slot _ => exact paired
  | element a key => exact paired.bindElement a key pair
  | append a => exact paired.pushSlot a pair
  | property o name => exact paired.bindProperty o name pair

/-- An absent element or property is added to both stores. -/
theorem added (paired : st.Paired ρ st') (v : Value) {bind : Store → SlotId → Store}
    {bind' : Store → SlotId → Store}
    (binds : ∀ {ρ₁ : Pairing} {st₁ st₁' : Store} {s s' : SlotId}, ρ ≤ ρ₁ → st₁.Paired ρ₁ st₁' →
      ρ₁.pairs s s' → (bind st₁ s).Paired ρ₁ (bind' st₁' s')) :
    ρ.Ends SameSlot ((st.newSlot v).1, bind (st.newSlot v).2 (st.newSlot v).1)
      ((st'.newSlot v).1, bind' (st'.newSlot v).2 (st'.newSlot v).1) := by
  obtain ⟨ρ₁, grows, stores, pair⟩ := paired.newSlot v
  exact ⟨ρ₁, grows, binds grows stores pair, pair⟩

theorem slotAt (paired : st.Paired ρ st') (spots : spot.Paired ρ spot') :
    ρ.Ends SameSlot (st.slotAt spot) (st'.slotAt spot') := by
  cases spots with
  | slot pair => exact ⟨ρ, le_refl _, paired, pair⟩
  | element a key =>
      have found := (paired.array a).elements.get? key
      simp only [Store.slotAt, Store.elementSlot, ArrayData.slot?]
      generalize Assoc.get? (st.array a).elements key = here at found ⊢
      generalize Assoc.get? (st'.array a).elements key = there at found ⊢
      cases found with
      | none => exact paired.added .null fun _ stores pair => stores.bindElement a key pair
      | some pair =>
          exact ⟨ρ, le_refl _, paired.setArray a ((paired.array a).trackKey key), pair⟩
  | append a => exact paired.added .null fun _ stores pair => stores.pushSlot a pair
  | property o name =>
      have found := (paired.object o).properties.get? name
      simp only [Store.slotAt, Store.propertySlot]
      generalize Assoc.get? (st.object o).properties name = here at found ⊢
      generalize Assoc.get? (st'.object o).properties name = there at found ⊢
      cases found with
      | none => exact paired.added .null fun _ stores pair => stores.bindProperty o name pair
      | some pair => exact ⟨ρ, le_refl _, paired, pair⟩

theorem put (paired : st.Paired ρ st') (spots : spot.Paired ρ spot') (v : Value) :
    ∃ ρ₁, ρ ≤ ρ₁ ∧ (st.put spot v).Paired ρ₁ (st'.put spot' v) := by
  have settled : ∀ {r r' : SlotId × Store}, ρ.Ends SameSlot r r' →
      ∃ ρ₁, ρ ≤ ρ₁ ∧ r.2.Paired ρ₁ r'.2 := fun ends => ends.imp fun _ found => ⟨found.1, found.2.1⟩
  cases spots with
  | slot pair => exact ⟨ρ, le_refl _, paired.write pair v⟩
  | element a key =>
      have found := (paired.array a).elements.get? key
      simp only [Store.put, Store.insertElement, ArrayData.slot?]
      generalize Assoc.get? (st.array a).elements key = here at found ⊢
      generalize Assoc.get? (st'.array a).elements key = there at found ⊢
      cases found with
      | none => exact settled (paired.added v fun _ stores pair => stores.bindElement a key pair)
      | some pair => exact ⟨ρ, le_refl _, paired.write pair v⟩
  | append a => exact settled (paired.added v fun _ stores pair => stores.pushSlot a pair)
  | property o name =>
      have found := (paired.object o).properties.get? name
      simp only [Store.put, Store.setProperty]
      generalize Assoc.get? (st.object o).properties name = here at found ⊢
      generalize Assoc.get? (st'.object o).properties name = there at found ⊢
      cases found with
      | none => exact settled (paired.added v fun _ stores pair => stores.bindProperty o name pair)
      | some pair => exact ⟨ρ, le_refl _, paired.write pair v⟩

/-! What the stores show -/

theorem toBoolean (paired : st.Paired ρ st') (v : Value) : st.toBoolean v = st'.toBoolean v := by
  cases v with
  | array a => simp only [Store.toBoolean, (paired.array a).isEmpty]
  | _ => rfl

theorem toText (paired : st.Paired ρ st') (v : Value) : st.toText v = st'.toText v := by
  cases v with
  | object o => exact paired.className o
  | _ => rfl

theorem toInteger (paired : st.Paired ρ st') (v : Value) : st.toInteger v = st'.toInteger v := by
  cases v with
  | array a => simp only [Store.toInteger, (paired.array a).isEmpty]
  | _ => rfl

theorem toNumber (paired : st.Paired ρ st') (v : Value) : st.toNumber v = st'.toNumber v := by
  cases v with
  | integer n | float x | string s => rfl
  | _ => exact congrArg Number.integer (paired.toInteger _)

theorem compareUnlike (paired : st.Paired ρ st') (v w : Value) :
    st.compareUnlike v w = st'.compareUnlike v w := by
  cases v <;> cases w <;> simp only [Store.compareUnlike, paired.toBoolean]

theorem comparisonDepth (paired : st.Paired ρ st') : st.comparisonDepth = st'.comparisonDepth := by
  simp only [Store.comparisonDepth, paired.arrays, paired.objects]

end Store.Paired

/-- Entries of which the same is made. -/
theorem Pairing.Entries.map {κ α : Type} {l l' : List (κ × SlotId)} (paired : ρ.Entries l l')
    {f f' : κ × SlotId → α}
    (each : ∀ key {s s' : SlotId}, ρ.pairs s s' → f (key, s) = f' (key, s')) :
    l.map f = l'.map f' := by
  induction paired with
  | nil => rfl
  | @cons entry entry' _ _ pair _ ih =>
      obtain ⟨key, s⟩ := entry
      obtain ⟨key', s'⟩ := entry'
      obtain ⟨rfl, pair⟩ := pair
      exact congrArg₂ List.cons (each key pair) ih

theorem Pairing.Entries.allEnding {κ : Type} {l l' : List (κ × SlotId)} (paired : ρ.Entries l l')
    {test test' : κ × SlotId → Option Bool}
    (each : ∀ key {s s' : SlotId}, ρ.pairs s s' → test (key, s) = test' (key, s')) :
    TreeScript.allEnding test l = TreeScript.allEnding test' l' := by
  induction paired with
  | nil => rfl
  | @cons entry entry' _ _ pair _ ih =>
      obtain ⟨key, s⟩ := entry
      obtain ⟨key', s'⟩ := entry'
      obtain ⟨rfl, pair⟩ := pair
      simp only [TreeScript.allEnding, each key pair, ih]

namespace Store.Paired

theorem looselyEqualWithin (paired : st.Paired ρ st') (depth : Nat) (v w : Value) :
    st.looselyEqualWithin depth v w = st'.looselyEqualWithin depth v w := by
  induction depth generalizing v w with
  | zero => rfl
  | succ depth ih =>
      cases v <;> cases w
      case array.array a b =>
        simp only [Store.looselyEqualWithin, (paired.array a).size, (paired.array b).size]
        split
        · rfl
        · refine (paired.array a).elements.allEnding fun key s s' pair => ?_
          simp only [paired.element?, paired.read pair, ih]
      case object.object a b =>
        simp only [Store.looselyEqualWithin, paired.className,
          (paired.object a).properties.length_eq, (paired.object b).properties.length_eq]
        split
        · rfl
        · split
          · rfl
          · refine (paired.object a).properties.allEnding fun key s s' pair => ?_
            simp only [paired.property?, paired.read pair, ih]
      all_goals
        simp only [Store.looselyEqualWithin, paired.toBoolean, paired.compareUnlike]

theorem identicalWithin (paired : st.Paired ρ st') (depth : Nat) (v w : Value) :
    st.identicalWithin depth v w = st'.identicalWithin depth v w := by
  induction depth generalizing v w with
  | zero => rfl
  | succ depth ih =>
      cases v <;> cases w
      case array.array a b =>
        simp only [Store.identicalWithin, (paired.array a).size, (paired.array b).size]
        split
        · rfl
        · split
          · rfl
          · have first := (paired.array a).elements
            have second := (paired.array b).elements
            generalize (st.array a).elements = l, (st'.array a).elements = l' at first ⊢
            generalize (st.array b).elements = k, (st'.array b).elements = k' at second ⊢
            induction first generalizing k k' with
            | nil => rfl
            | @cons entry entry' _ _ pair _ ihFirst =>
                cases second with
                | nil => rfl
                | cons other later =>
                    simp only [List.zip_cons_cons, allEnding, pair.1, paired.read pair.2, other.1,
                      paired.read other.2]
                    rw [ih, ihFirst _ _ later]
      all_goals simp only [Store.identicalWithin]

theorem looselyEqual (paired : st.Paired ρ st') (v w : Value) :
    st.looselyEqual v w = st'.looselyEqual v w := by
  simp only [Store.looselyEqual, paired.comparisonDepth, paired.looselyEqualWithin]

theorem identical (paired : st.Paired ρ st') (v w : Value) :
    st.identical v w = st'.identical v w := by
  simp only [Store.identical, paired.comparisonDepth, paired.identicalWithin]

theorem compare (paired : st.Paired ρ st') (v w : Value) : st.compare v w = st'.compare v w := by
  cases v <;> cases w
  case array.array a b =>
    simp only [Store.compare, (paired.array a).size, (paired.array b).size, paired.looselyEqual]
  all_goals simp only [Store.compare, paired.looselyEqual, paired.compareUnlike]

theorem snapshotWithin (paired : st.Paired ρ st') (depth : Nat) (v : Value) :
    st.snapshotWithin depth v = st'.snapshotWithin depth v := by
  induction depth generalizing v with
  | zero => rfl
  | succ depth ih =>
      cases v with
      | array a =>
          refine congrArg Snapshot.array ((paired.array a).elements.map fun key s s' pair => ?_)
          simp only [paired.read pair, ih]
      | object o =>
          refine congrArg₂ Snapshot.object (paired.className o)
            ((paired.object o).properties.map fun key s s' pair => ?_)
          simp only [paired.read pair, ih]
      | _ => rfl

theorem dumpWithin (paired : st.Paired ρ st') (levels depth : Nat) (v : Value) :
    st.dumpWithin levels depth v = st'.dumpWithin levels depth v := by
  induction levels generalizing depth v with
  | zero =>
      cases v with
      | array a =>
          simp only [Store.dumpWithin, (paired.array a).elements.length_eq]
          congr 3
          exact (paired.array a).elements.map fun key s s' pair => rfl
      | object o =>
          simp only [Store.dumpWithin, (paired.object o).properties.length_eq, paired.className]
          congr 3
          exact (paired.object o).properties.map fun key s s' pair => rfl
      | _ => simp only [Store.dumpWithin]
  | succ levels ih =>
      cases v with
      | array a =>
          simp only [Store.dumpWithin, (paired.array a).elements.length_eq]
          congr 3
          refine (paired.array a).elements.map fun key s s' pair => ?_
          simp only [paired.read pair, ih]
      | object o =>
          simp only [Store.dumpWithin, (paired.object o).properties.length_eq, paired.className]
          congr 3
          refine (paired.object o).properties.map fun key s s' pair => ?_
          simp only [paired.read pair, ih]
      | _ => simp only [Store.dumpWithin]

theorem dump (paired : st.Paired ρ st') (depth : Nat) (v : Value) :
    st.dump depth v = st'.dump depth v := paired.dumpWithin _ depth v

end Store.Paired
end TreeScript
