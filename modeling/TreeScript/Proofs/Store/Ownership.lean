import Mathlib.Data.Multiset.ZeroCons
import TreeScript.Proofs.Store.Copy

set_option autoImplicit false

/- Ownership: an array is held by one slot at most. Arrays that are made but not stored are loose;
they have no owner yet, and storing one gives it its only owner. -/
namespace TreeScript.Store

/-- A store in which nothing leads out of the store and no array has two owners, and in which the
loose arrays have none. -/
structure Owned (loose : Multiset ArrayId) (st : Store) : Prop where
  closed : ∀ h : Handle, h.Within st.extent → ∀ g ∈ st.holds h, g.Within st.extent
  single : ∀ (s t : SlotId) (a : ArrayId), st.read s = .array a → st.read t = .array a → s = t
  distinct : loose.Nodup
  inside : ∀ a ∈ loose, (Handle.array a).Within st.extent
  unheld : ∀ a ∈ loose, ∀ s, st.read s ≠ .array a

/-- The loose arrays with that of a value. -/
def withArray (loose : Multiset ArrayId) : Value → Multiset ArrayId
  | .array a => a ::ₘ loose
  | _ => loose

theorem withArray_comm (loose : Multiset ArrayId) (v w : Value) :
    withArray (withArray loose v) w = withArray (withArray loose w) v := by
  cases v <;> cases w <;> simp [withArray, Multiset.cons_swap]

theorem withArray_plain {v : Value} (plain : ∀ a, v ≠ .array a) (loose : Multiset ArrayId) :
    withArray loose v = loose := by
  cases v with
  | array a => exact absurd rfl (plain a)
  | _ => rfl

variable {loose : Multiset ArrayId} {st st' : Store} {v : Value}

theorem mem_withArray {a : ArrayId} (member : a ∈ loose) : a ∈ withArray loose v := by
  cases v with
  | array b => exact Multiset.mem_cons_of_mem member
  | _ => exact member

theorem Owned.forget (owned : st.Owned (withArray loose v)) : st.Owned loose where
  closed := owned.closed
  single := owned.single
  distinct := by
    have distinct := owned.distinct
    cases v with
    | array a => exact (Multiset.nodup_cons.mp distinct).2
    | _ => exact distinct
  inside a member := owned.inside a (mem_withArray member)
  unheld a member := owned.unheld a (mem_withArray member)

/-! What lies outside of a store holds nothing -/

theorem read_outside {s : SlotId} (outside : ¬ (Handle.slot s).Within st.extent) :
    st.read s = .null := by
  have beyond : st.slots.size ≤ s.index := Nat.le_of_not_lt outside
  simp [read, beyond]

theorem array_outside {a : ArrayId} (outside : ¬ (Handle.array a).Within st.extent) :
    st.array a = .empty := by
  have beyond : st.arrays.size ≤ a.index := Nat.le_of_not_lt outside
  simp [array, beyond]

theorem object_outside {o : ObjectId} (outside : ¬ (Handle.object o).Within st.extent) :
    st.objects[o.index]? = none := by
  have beyond : st.objects.size ≤ o.index := Nat.le_of_not_lt outside
  simp [beyond]

theorem holds_object {o : ObjectId} (inside : (Handle.object o).Within st.extent) :
    st.holds (.object o) = handlesOf st.objects[o.index]? := by
  have bound : o.index < st.objects.size := inside
  simp [holds, object, handlesOf, bound]

theorem inside_of_read {s : SlotId} {g : Handle} (member : g ∈ (st.read s).handles) :
    (Handle.slot s).Within st.extent := by
  by_contra outside
  simp [read_outside outside, Value.handles] at member

theorem inside_of_array {a : ArrayId} {g : Handle} (member : g ∈ (st.array a).handles) :
    (Handle.array a).Within st.extent := by
  by_contra outside
  simp [array_outside outside, ArrayData.handles, ArrayData.empty] at member

theorem inside_of_object {o : ObjectId} {g : Handle}
    (member : g ∈ handlesOf st.objects[o.index]?) : (Handle.object o).Within st.extent := by
  by_contra outside
  simp [object_outside outside, handlesOf] at member

theorem Owned.read_within (owned : st.Owned loose) (s : SlotId) :
    ∀ g ∈ (st.read s).handles, g.Within st.extent :=
  fun g member => owned.closed (.slot s) (inside_of_read member) g member

/-! What steps keep -/

/-- A change that stores what is there leads nowhere else. -/
theorem closed_of_adjusts {may : Handle → Prop}
    (closed : ∀ h : Handle, h.Within st.extent → ∀ g ∈ st.holds h, g.Within st.extent)
    (allowed : ∀ h, may h → h.Within st.extent) (inside : ∀ g ∈ v.handles, g.Within st.extent)
    (change : Adjusts may v st st') :
    ∀ h : Handle, h.Within st'.extent → ∀ g ∈ st'.holds h, g.Within st'.extent := by
  intro h within g member
  cases h with
  | slot s =>
      simp only [holds] at member
      rcases change.slots s with same | ⟨-, stored | null⟩
      · have held : g ∈ (st.read s).handles := same ▸ member
        exact (closed (.slot s) (inside_of_read held) g held).mono change.grows
      · exact (inside g (stored ▸ member)).mono change.grows
      · simp [null, Value.handles] at member
  | array a =>
      exact (change.arrays a).holding (fun _ => .mono change.grows) allowed (fun _ => And.right)
        (fun g held => closed (.array a) (inside_of_array held) g held) g member
  | object o =>
      rw [holds_object within] at member
      refine (change.objects o).holding (fun _ => .mono change.grows) allowed (fun _ => And.right)
        (fun g held => ?_) g member
      have here := inside_of_object held
      exact closed (.object o) here g (holds_object here ▸ held)
  | classData c =>
      rw [change.holds_classData] at member
      exact (closed _ (change.within_classData within) g member).mono change.grows

theorem closed_newArray {data : ArrayData}
    (closed : ∀ h : Handle, h.Within st.extent → ∀ g ∈ st.holds h, g.Within st.extent)
    (inside : ∀ g ∈ data.handles, g.Within st.extent) :
    ∀ h : Handle, h.Within (st.newArray data).2.extent →
      ∀ g ∈ (st.newArray data).2.holds h, g.Within (st.newArray data).2.extent :=
  closed_of_adjusts (v := .null) closed (fun _ => id) (by simp [Value.handles])
    (adjusts_newArray st .null inside)

/-- A change that stores a loose array, if any, gives it its owner. -/
theorem Owned.adjust {may : Handle → Prop} (owned : st.Owned (withArray loose v))
    (allowed : ∀ h, may h → h.Within st.extent) (inside : ∀ g ∈ v.handles, g.Within st.extent)
    (change : Adjusts may v st st') : st'.Owned loose where
  closed := closed_of_adjusts owned.closed allowed inside change
  single s t a atFirst atSecond := by
    by_cases first : st'.read s = st.read s <;> by_cases second : st'.read t = st.read t
    · exact owned.single s t a (first ▸ atFirst) (second ▸ atSecond)
    · rcases change.slots t with same | ⟨-, stored | null⟩
      · exact absurd same second
      · have isLoose : a ∈ withArray loose v := by
          rw [← stored, atSecond]
          exact Multiset.mem_cons_self a loose
        exact absurd (first ▸ atFirst) (owned.unheld a isLoose s)
      · simp [null] at atSecond
    · rcases change.slots s with same | ⟨-, stored | null⟩
      · exact absurd same first
      · have isLoose : a ∈ withArray loose v := by
          rw [← stored, atFirst]
          exact Multiset.mem_cons_self a loose
        exact absurd (second ▸ atSecond) (owned.unheld a isLoose t)
      · simp [null] at atFirst
    · exact change.once s t first second
  distinct := owned.forget.distinct
  inside a member := (owned.forget.inside a member).mono change.grows
  unheld a member s holds := by
    rcases change.slots s with same | ⟨-, stored | null⟩
    · exact owned.forget.unheld a member s (same ▸ holds)
    · have distinct := owned.distinct
      rw [← stored, holds] at distinct
      exact (Multiset.nodup_cons.mp distinct).1 member
    · simp [null] at holds

theorem Owned.newArray {data : ArrayData} (owned : st.Owned loose)
    (inside : ∀ g ∈ data.handles, g.Within st.extent) :
    (st.newArray data).2.Owned (withArray loose (.array (st.newArray data).1)) := by
  have fresh := fresh_newArray st data
  have change : Adjusts (·.Within st.extent) .null st (st.newArray data).2 :=
    adjusts_newArray st .null inside
  have after : (st.newArray data).2.Owned loose :=
    Owned.adjust (v := .null) owned (fun _ here => here) (by simp [Value.handles]) change
  refine ⟨after.closed, after.single, ?_, ?_, ?_⟩
  · exact Multiset.nodup_cons.mpr ⟨fun member => fresh.1 (owned.inside _ member), owned.distinct⟩
  · intro a member
    rcases Multiset.mem_cons.mp member with rfl | member
    · exact fresh.2
    · exact after.inside a member
  · intro a member s held
    rcases Multiset.mem_cons.mp member with rfl | member
    · rw [read_newArray] at held
      refine fresh.1 (owned.read_within s _ ?_)
      rw [held]
      exact List.mem_cons_self
    · exact after.unheld a member s held

theorem Owned.newSlot (owned : st.Owned (withArray loose v))
    (inside : ∀ g ∈ v.handles, g.Within st.extent) : (st.newSlot v).2.Owned loose := by
  have change : Adjusts (fun _ => False) v st (st.newSlot v).2 := adjusts_newSlot _ v st
  exact owned.adjust (fun _ => False.elim) inside change

theorem Owned.newClass {data : ClassData} (owned : st.Owned loose)
    (inside : ∀ g ∈ data.handles, g.Within st.extent) : (st.newClass data).2.Owned loose := by
  have grows := extent_newClass st data
  refine ⟨?_, owned.single, owned.distinct, fun a member => (owned.inside a member).mono grows,
    owned.unheld⟩
  intro h within g member
  cases h with
  | classData c =>
      rcases mem_holds_newClass within member with added | ⟨before, held⟩
      · exact (inside g added).mono grows
      · exact (owned.closed (.classData c) before g held).mono grows
  | slot s => exact (owned.closed (.slot s) within g member).mono grows
  | array a => exact (owned.closed (.array a) within g member).mono grows
  | object o => exact (owned.closed (.object o) within g member).mono grows

theorem Owned.copyLaws {shared : SlotId → Bool} (owned : st.Owned loose) :
    CopyLaws (fun loose st => st.Owned loose) withArray (fun e h => h.Within e)
      (·.Within st.extent) shared st where
  mono grows inside := inside.mono grows
  plain plain owned := (withArray_plain plain _).symm ▸ owned
  newSlot owned inside := owned.newSlot inside
  newArray owned inside := owned.newArray inside
  fresh _ fresh := fresh.2
  object inside := inside
  inside inside := inside
  slotInside inside member := owned.closed _ inside _ member
  kept inside member _ := owned.closed _ inside _ member
  copied inside member _ h held := owned.closed _ (owned.closed _ inside _ member) h held

/-- A copy is loose. -/
theorem Owned.copy {roots : List Handle} {v' : Value} (owned : st.Owned loose)
    (inside : ∀ g ∈ v.handles, g.Within st.extent) (done : st.copy roots v = some (v', st')) :
    st'.Owned (withArray loose v') ∧ ∀ g ∈ v'.handles, g.Within st'.extent :=
  owned.copyLaws.copy owned inside done

theorem Owned.settled (owned : st.Owned loose) : st.Owned 0 where
  closed := owned.closed
  single := owned.single
  distinct := Multiset.nodup_zero
  inside a member := absurd member (Multiset.notMem_zero a)
  unheld a member := absurd member (Multiset.notMem_zero a)

theorem owned_empty : Store.empty.Owned 0 where
  closed h inside := by cases h <;> exact absurd inside (Nat.not_lt_zero _)
  single s t a atFirst := by simp [read, empty] at atFirst
  distinct := Multiset.nodup_zero
  inside a member := absurd member (Multiset.notMem_zero a)
  unheld a member := absurd member (Multiset.notMem_zero a)

/-! What a slot shows -/

/-- What is seen through a slot: its value, and the storage behind it when that is an array. -/
def behind (st : Store) (s : SlotId) : Value × Option ArrayData :=
  (st.read s, match st.read s with
    | .array a => some (st.array a)
    | _ => none)

/-- The slot through which a spot is reached: the spot itself, the property, or the slot that holds
the array of an element. -/
def Reaches (st : Store) (s : SlotId) : Spot → Prop
  | .slot t => s = t
  | .element a _ | .append a => st.read s = .array a
  | .property o name => Assoc.get? (st.object o).properties name = some s

/-- The slot through which a value is written to a spot: that of the element if it is there, and
otherwise the slot through which the spot is reached. -/
def Writes (st : Store) (s : SlotId) : Spot → Prop
  | .element a key =>
      match (st.array a).slot? key with
      | some t => s = t
      | none => st.Reaches s (.element a key)
  | spot => st.Reaches s spot

theorem behind_eq {t : SlotId} (value : st'.read t = st.read t)
    (storage : ∀ a, st.read t = .array a → st'.array a = st.array a) :
    st'.behind t = st.behind t := by
  simp only [behind, value]
  split
  · next a isArray => rw [storage a isArray]
  · rfl

theorem behind_write {s t : SlotId} (apart : t ≠ s) (v : Value) :
    (st.write s v).behind t = st.behind t :=
  behind_eq (read_write_of_ne st s t v apart) fun _ _ => rfl

/-- A change of an array shows only through its owner. -/
theorem Owned.behind_setArray (owned : st.Owned loose) {a : ArrayId} {s t : SlotId}
    (owner : st.read s = .array a) (apart : t ≠ s) (data : ArrayData) :
    (st.setArray a data).behind t = st.behind t := by
  refine behind_eq rfl fun b isOther => ?_
  have different : b ≠ a := fun same => apart (owned.single t s a (same ▸ isOther) owner)
  exact array_setArray_of_ne st a b data different

/-- A new element shows only through the owner of its array. -/
theorem Owned.behind_bindNew (owned : st.Owned loose) {a : ArrayId} {s t : SlotId}
    (owner : st.read s = .array a) (apart : t ≠ s) (there : (Handle.slot t).Within st.extent)
    (key : Key) (v : Value) :
    ((st.newSlot v).2.bindElement a key (st.newSlot v).1).behind t = st.behind t := by
  refine behind_eq (read_newSlot_of_lt st v t there) fun b isOther => ?_
  have different : b ≠ a := fun same => apart (owned.single t s a (same ▸ isOther) owner)
  exact array_setArray_of_ne _ a b _ different

theorem Owned.behind_put (owned : st.Owned loose) {spot : Spot} {s t : SlotId}
    (through : st.Writes s spot) (apart : t ≠ s) (there : (Handle.slot t).Within st.extent)
    (v : Value) : (st.put spot v).behind t = st.behind t := by
  cases spot with
  | slot u =>
      obtain rfl : s = u := through
      exact behind_write apart v
  | element a key =>
      simp only [Writes] at through
      rw [put, insertElement]
      cases found : (st.array a).slot? key with
      | some t =>
          rw [found] at through
          obtain rfl : s = t := through
          exact behind_write apart v
      | none =>
          rw [found] at through
          exact owned.behind_bindNew through apart there key v
  | append a => exact owned.behind_bindNew through apart there _ v
  | property o name =>
      have found : Assoc.get? (st.object o).properties name = some s := through
      simp only [put, setProperty, found]
      exact behind_write apart v

theorem Owned.behind_slotAt (owned : st.Owned loose) {spot : Spot} {s t : SlotId}
    (through : st.Reaches s spot) (apart : t ≠ s) (there : (Handle.slot t).Within st.extent) :
    (st.slotAt spot).2.behind t = st.behind t := by
  cases spot with
  | slot u => rfl
  | element a key =>
      simp only [slotAt, elementSlot]
      split
      · exact owned.behind_setArray through apart _
      · exact owned.behind_bindNew through apart there key .null
  | append a => exact owned.behind_bindNew through apart there _ .null
  | property o name =>
      have found : Assoc.get? (st.object o).properties name = some s := through
      simp only [slotAt, propertySlot, found]

end TreeScript.Store
