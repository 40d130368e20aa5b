import TreeScript.Proofs.Store.Indexing
import TreeScript.Session

set_option autoImplicit false

/- Arrays and objects under their operations. Whatever is done to them one after the other, each
array keeps its keys where they are, and its next index and pointer in step with them; no object
gets a property twice. An append adds an element, except to an array that has an element under the
greatest word: there it takes the place of that one. -/
namespace TreeScript

open Relation (ReflTransGen)

namespace Store

/-- One operation on arrays or objects, or on slots that may be theirs. A key comes from a value or
a text, and the properties of a new object from its class. -/
inductive Operation : Store → Store → Prop
  | new (st : Store) : Operation st (st.newArray .empty).2
  /-- An array of copied values, some of them under keys. -/
  | ofEntries (m : Machine) (held : List Handle) (entries : List (Option Value × Value)) :
      Operation m.store (Run.left ((arrayOf held entries).run m)).store
  | ofValues (m : Machine) (values : List Value) :
      Operation m.store (Run.left ((listOf values).run m)).store
  | insert (st : Store) (a : ArrayId) {key : Key} (made : key.Made) (v : Value) :
      Operation st (st.insertElement a key v)
  | bind (st : Store) (a : ArrayId) {key : Key} (made : key.Made) (s : SlotId) :
      Operation st (st.bindElement a key s)
  | slot (st : Store) (a : ArrayId) {key : Key} (made : key.Made) :
      Operation st (st.elementSlot a key).2
  | push (st : Store) (a : ArrayId) (v : Value) : Operation st (st.push a v).2
  | pushSlot (st : Store) (a : ArrayId) (s : SlotId) : Operation st (st.pushSlot a s).2
  | copy {st st' : Store} {roots : List Handle} {v v' : Value}
      (done : st.copy roots v = some (v', st')) : Operation st st'
  | reset (st : Store) (a : ArrayId) : Operation st (st.setArray a (st.array a).reset)
  | advance (st : Store) (a : ArrayId) : Operation st (st.setArray a (st.array a).advance)
  | newClass (st : Store) (data : ClassData) : Operation st (st.newClass data).2
  | newObject (st : Store) (c : ClassId) {properties : List (String × SlotId)}
      (distinct : (Assoc.keys properties).Nodup) : Operation st (st.newObject ⟨c, properties⟩).2
  | setProperty (st : Store) (o : ObjectId) (name : String) (v : Value) :
      Operation st (st.setProperty o name v)
  | bindProperty (st : Store) (o : ObjectId) (name : String) (s : SlotId) :
      Operation st (st.bindProperty o name s)
  | property (st : Store) (o : ObjectId) (name : String) : Operation st (st.propertySlot o name).2
  | newSlot (st : Store) (v : Value) : Operation st (st.newSlot v).2
  | write (st : Store) (s : SlotId) (v : Value) : Operation st (st.write s v)

/-- Any number of operations, one after the other. -/
abbrev Operations : Store → Store → Prop := ReflTransGen Operation

structure WellFormed (st : Store) : Prop where
  arrays : ∀ a, (st.array a).WellFormed
  properties : ∀ o, (Assoc.keys (st.object o).properties).Nodup

theorem WellFormed.keyed {st : Store} (wellFormed : st.WellFormed) : st.Keyed :=
  ⟨fun a => (wellFormed.arrays a).distinct, wellFormed.properties⟩

/-- A store that is well formed stays so, and its arrays begin with the keys they had. -/
def Onward (st st' : Store) : Prop :=
  st.WellFormed → st'.WellFormed ∧ ∀ a, (st.array a).keys <+: (st'.array a).keys

variable {st st₁ st₂ st' : Store} {a : ArrayId} {key : Key}

theorem Onward.refl (st : Store) : Onward st st := fun wellFormed =>
  ⟨wellFormed, fun _ => List.prefix_rfl⟩

theorem Onward.trans (first : Onward st st₁) (second : Onward st₁ st₂) : Onward st st₂ := by
  intro wellFormed
  obtain ⟨wellFormed₁, keys₁⟩ := first wellFormed
  obtain ⟨wellFormed₂, keys₂⟩ := second wellFormed₁
  exact ⟨wellFormed₂, fun a => (keys₁ a).trans (keys₂ a)⟩

/-! What the operations are made of -/

/-- Slots and classes may change. -/
theorem onward_of_same (arrays : st'.arrays = st.arrays) (objects : st'.objects = st.objects) :
    Onward st st' := by
  have sameArray : ∀ a, st'.array a = st.array a := fun a => by rw [array, arrays, array]
  have sameObject : ∀ o, st'.object o = st.object o := fun o => by rw [object, objects, object]
  intro wellFormed
  refine ⟨⟨fun a => ?_, fun o => ?_⟩, fun a => ?_⟩
  · rw [sameArray]
    exact wellFormed.arrays a
  · rw [sameObject]
    exact wellFormed.properties o
  · simp only [sameArray, List.prefix_rfl]

theorem onward_newSlot (st : Store) (v : Value) : Onward st (st.newSlot v).2 :=
  onward_of_same rfl rfl

theorem onward_write (st : Store) (s : SlotId) (v : Value) : Onward st (st.write s v) :=
  onward_of_same rfl rfl

theorem onward_setArray {data : ArrayData}
    (kept : (st.array a).WellFormed → data.WellFormed ∧ (st.array a).keys <+: data.keys) :
    Onward st (st.setArray a data) := by
  intro wellFormed
  obtain ⟨good, order⟩ := kept (wellFormed.arrays a)
  constructor
  · refine ⟨fun b => ?_, wellFormed.properties⟩
    rw [array_setArray]
    split
    · exact good
    · exact wellFormed.arrays b
  · intro b
    rw [array_setArray]
    split
    · next target => exact target.1 ▸ order
    · exact List.prefix_rfl

theorem onward_newArray {data : ArrayData} (good : st.WellFormed → data.WellFormed) :
    Onward st (st.newArray data).2 := by
  intro wellFormed
  constructor
  · refine ⟨fun b => ?_, wellFormed.properties⟩
    rw [array_newArray]
    split
    · exact good wellFormed
    · exact wellFormed.arrays b
  · intro b
    rw [array_newArray]
    split
    · next last =>
        have none : st.array b = .empty := by simp [array, last]
        rw [none]
        exact List.nil_prefix
    · exact List.prefix_rfl

theorem onward_bindElement (canonical : key.Canonical) (s : SlotId) :
    Onward st (st.bindElement a key s) :=
  onward_setArray fun wellFormed => ⟨wellFormed.bind canonical s, keys_bind (st.array a) key s⟩

theorem onward_insertElement (canonical : key.Canonical) (v : Value) :
    Onward st (st.insertElement a key v) := by
  rw [insertElement]
  split
  · exact onward_write st _ v
  · exact (onward_newSlot st v).trans (onward_bindElement canonical _)

theorem onward_elementSlot (canonical : key.Canonical) :
    Onward st (st.elementSlot a key).2 := by
  rw [elementSlot]
  split
  · next s found =>
      have member : key ∈ (st.array a).keys :=
        ((st.array a).slot?_isSome key).mp (Option.isSome_of_eq_some found)
      refine onward_setArray fun wellFormed => ?_
      rw [wellFormed.trackKey_of_mem member]
      exact ⟨wellFormed, List.prefix_rfl⟩
  · exact (onward_newSlot st .null).trans (onward_bindElement canonical _)

theorem onward_pushSlot (st : Store) (a : ArrayId) (s : SlotId) :
    Onward st (st.pushSlot a s).2 := by
  have canonical : (Key.integer (st.array a).nextIndex).Canonical := trivial
  exact onward_bindElement canonical s

theorem onward_push (st : Store) (a : ArrayId) (v : Value) : Onward st (st.push a v).2 :=
  (onward_newSlot st v).trans (onward_pushSlot _ a _)

theorem onward_setObject {o : ObjectId} {data : ObjectData}
    (distinct : (Assoc.keys (st.object o).properties).Nodup → (Assoc.keys data.properties).Nodup) :
    Onward st (st.setObject o data) := by
  intro wellFormed
  refine ⟨⟨wellFormed.arrays, fun p => ?_⟩, fun _ => List.prefix_rfl⟩
  rw [object, objects_setObject]
  split
  · exact distinct (wellFormed.properties o)
  · exact wellFormed.properties p

theorem onward_newObject {data : ObjectData} (distinct : (Assoc.keys data.properties).Nodup) :
    Onward st (st.newObject data).2 := by
  intro wellFormed
  refine ⟨⟨wellFormed.arrays, fun p => ?_⟩, fun _ => List.prefix_rfl⟩
  rw [object, objects_newObject]
  split
  · exact distinct
  · exact wellFormed.properties p

theorem onward_bindProperty (st : Store) (o : ObjectId) (name : String) (s : SlotId) :
    Onward st (st.bindProperty o name s) :=
  onward_setObject fun distinct => Assoc.nodup_keys_set distinct name s

theorem onward_setProperty (st : Store) (o : ObjectId) (name : String) (v : Value) :
    Onward st (st.setProperty o name v) := by
  rw [setProperty]
  split
  · exact onward_write st _ v
  · exact (onward_newSlot st v).trans (onward_bindProperty _ o name _)

theorem onward_propertySlot (st : Store) (o : ObjectId) (name : String) :
    Onward st (st.propertySlot o name).2 := by
  rw [propertySlot]
  split
  · exact .refl st
  · exact (onward_newSlot st .null).trans (onward_bindProperty _ o name _)

/-! Copies -/

theorem keys_copyElements {shared : SlotId → Bool}
    {once : Value → Store → Option (Value × Store)} (entries : List (Key × SlotId))
    {elements : List (Key × SlotId)}
    (done : copyElements shared once entries st = some (elements, st')) :
    Assoc.keys elements = Assoc.keys entries := by
  induction entries generalizing st elements with
  | nil =>
      simp only [copyElements, Option.some.injEq, Prod.mk.injEq] at done
      rw [← done.1]
  | cons entry rest ih =>
      obtain ⟨s₁, st₁, more, rfl, others, -⟩ := copyElements_cons done
      simpa [Assoc.keys] using ih others

theorem onward_copyElements {shared : SlotId → Bool}
    {once : Value → Store → Option (Value × Store)}
    (onceOnward : ∀ v st v' st', once v st = some (v', st') → Onward st st')
    (entries : List (Key × SlotId)) {elements : List (Key × SlotId)}
    (done : copyElements shared once entries st = some (elements, st')) : Onward st st' := by
  induction entries generalizing st elements with
  | nil =>
      simp only [copyElements, Option.some.injEq, Prod.mk.injEq] at done
      exact done.2 ▸ .refl st
  | cons entry rest ih =>
      obtain ⟨s₁, st₁, more, -, others, ⟨-, -, rfl⟩ | ⟨-, v, st₂, first, -, rfl⟩⟩ :=
        copyElements_cons done
      · exact ih others
      · exact ((onceOnward _ _ _ _ first).trans (onward_newSlot st₂ v)).trans (ih others)

/-- The copy of an array has its keys, its next index and its pointer. -/
theorem copyWithin_keeps {shared : SlotId → Bool} {depth : Nat} {v : Value}
    (done : copyWithin shared depth (.array a) st = some (v, st')) :
    ∃ c, v = .array c ∧ (st'.array c).keys = (st.array a).keys ∧
      (st'.array c).nextIndex = (st.array a).nextIndex ∧
      (st'.array c).pointer = (st.array a).pointer := by
  obtain ⟨smaller, elements, st₁, -, inner, rfl, rfl⟩ := copyWithin_array done
  refine ⟨_, rfl, ?_⟩
  rw [array_newArray_self]
  exact ⟨keys_copyElements _ inner, rfl, rfl⟩

theorem onward_copyWithin {shared : SlotId → Bool} (depth : Nat) {v v' : Value}
    (done : copyWithin shared depth v st = some (v', st')) : Onward st st' := by
  induction depth generalizing v v' st st' with
  | zero =>
      rcases v.array_or_plain with ⟨a, rfl⟩ | plain
      · simp [copyWithin] at done
      · rw [copyWithin_plain plain, Option.some.injEq, Prod.mk.injEq] at done
        exact done.2 ▸ .refl st
  | succ depth ih =>
      rcases v.array_or_plain with ⟨a, rfl⟩ | plain
      · obtain ⟨smaller, elements, st₁, same, inner, -, rfl⟩ := copyWithin_array done
        obtain rfl : depth = smaller := by omega
        intro wellFormed
        have good := (wellFormed.arrays a).rebound (keys_copyElements _ inner)
        exact ((onward_copyElements (fun _ _ _ _ => ih) _ inner).trans
          (onward_newArray fun _ => good)) wellFormed
      · rw [copyWithin_plain plain, Option.some.injEq, Prod.mk.injEq] at done
        exact done.2 ▸ .refl st

theorem onward_copy {roots : List Handle} {v v' : Value}
    (done : st.copy roots v = some (v', st')) : Onward st st' := by
  rcases v.array_or_plain with ⟨a, rfl⟩ | plain
  · exact onward_copyWithin _ done
  · rw [copy_plain plain, Option.some.injEq, Prod.mk.injEq] at done
    exact done.2 ▸ .refl st

end Store

/-! Arrays made from entries and from values -/

namespace Run

/-- However a computation ends, the machine that is left has a later store. -/
abbrev Onward {α : Type} (c : Run α) : Prop :=
  ∀ m, Store.Onward m.store (left (c.run m)).store

variable {α β : Type}

theorem Onward.bind {c : Run α} {f : α → Run β} (first : c.Onward) (next : ∀ a, (f a).Onward) :
    (c >>= f).Onward := by
  intro m
  have before := first m
  cases ran : c.run m with
  | ok a m₁ =>
      rw [ran] at before
      rw [run_bind ran]
      exact before.trans (next a m₁)
  | error fault m₁ =>
      rw [ran] at before
      rwa [run_bind_error ran]

theorem onward_pure (a : α) : (pure a : Run α).Onward := fun m => .refl m.store

/-- A computation that begins with a given result goes on from there. -/
theorem onward_pure_bind {a : α} {f : α → Run β} (next : (f a).Onward) :
    (pure a >>= f).Onward := fun m => next m

theorem onward_update {f : Store → α × Store} (onward : ∀ st, Store.Onward st (f st).2) :
    (update f).Onward := fun m => onward m.store

theorem onward_alter {f : Store → Store} (onward : ∀ st, Store.Onward st (f st)) :
    (alter f).Onward := fun m => onward m.store

theorem onward_copyValue (held : List Handle) (v : Value) : (copyValue held v).Onward := by
  intro m
  cases copied : m.store.copy (m.roots ++ v.handles ++ held) v with
  | none =>
      rw [run_copyValue_none copied]
      exact .refl m.store
  | some result =>
      rw [run_copyValue copied]
      exact Store.onward_copy copied

end Run

theorem entrySpot_cases (a : ArrayId) (key : Option Value) :
    entrySpot a key = Run.fail .illegalOffset ∨
      entrySpot a key = pure (.append a) ∨
      ∃ key' : Key, key'.Canonical ∧ entrySpot a key = pure (.element a key') := by
  cases key with
  | none => exact .inr (.inl rfl)
  | some w =>
      rw [entrySpot]
      cases made : Key.ofValue w with
      | none => exact .inl rfl
      | some key => exact .inr (.inr ⟨key, Key.canonical_ofValue made, rfl⟩)

theorem fillArray_onward (held : List Handle) (a : ArrayId)
    (entries : List (Option Value × Value)) : (fillArray held a entries).Onward := by
  induction entries generalizing held with
  | nil => exact Run.onward_pure ()
  | cons entry rest ih =>
      obtain ⟨key, v⟩ := entry
      have entered : ∀ (spot : Spot) (pending : List Handle),
          (∀ (st : Store) (copy : Value), Store.Onward st (st.put spot copy)) →
          (copyValue pending v >>= fun copy => Run.alter (·.put spot copy) >>= fun _ =>
            fillArray held a rest).Onward := fun spot pending put =>
        (Run.onward_copyValue pending v).bind fun copy =>
          (Run.onward_alter fun st => put st copy).bind fun _ => ih held
      rw [fillArray]
      rcases entrySpot_cases a key with fails | appends | ⟨key', canonical, inserts⟩
      · rw [fails]
        exact fun m => .refl m.store
      · rw [appends]
        exact Run.onward_pure_bind (entered _ _ fun st copy => Store.onward_push st a copy)
      · rw [inserts]
        exact Run.onward_pure_bind
          (entered _ _ fun st copy => Store.onward_insertElement canonical copy)

theorem arrayOf_onward (held : List Handle) (entries : List (Option Value × Value)) :
    (arrayOf held entries).Onward :=
  (Run.onward_update fun _ => Store.onward_newArray fun _ => ArrayData.wellFormed_empty).bind
    fun a => (fillArray_onward held a entries).bind fun _ => Run.onward_pure _

theorem appendAll_onward (a : ArrayId) (values : List Value) : (appendAll a values).Onward := by
  induction values with
  | nil => exact Run.onward_pure ()
  | cons v rest ih =>
      exact (Run.onward_alter fun st => Store.onward_push st a v).bind fun _ => ih

theorem listOf_onward (values : List Value) : (listOf values).Onward :=
  (Run.onward_update fun _ => Store.onward_newArray fun _ => ArrayData.wellFormed_empty).bind
    fun a => (appendAll_onward a values).bind fun _ => Run.onward_pure _

namespace Store

variable {st st' : Store} {a : ArrayId}

theorem Operation.onward (operation : Operation st st') : Onward st st' := by
  cases operation with
  | new st => exact onward_newArray fun _ => ArrayData.wellFormed_empty
  | ofEntries m held entries => exact arrayOf_onward held entries m
  | ofValues m values => exact listOf_onward values m
  | insert st a made v => exact onward_insertElement made.canonical v
  | bind st a made s => exact onward_bindElement made.canonical s
  | slot st a made => exact onward_elementSlot made.canonical
  | push st a v => exact onward_push st a v
  | pushSlot st a s => exact onward_pushSlot st a s
  | copy done => exact onward_copy done
  | reset st a => exact onward_setArray fun wellFormed => ⟨wellFormed.reset, List.prefix_rfl⟩
  | advance st a =>
      refine onward_setArray fun wellFormed => ⟨wellFormed.advance, ?_⟩
      rw [ArrayData.advance]
      split <;> exact List.prefix_rfl
  | newClass st data => exact onward_of_same rfl rfl
  | newObject st c distinct => exact onward_newObject distinct
  | setProperty st o name v => exact onward_setProperty st o name v
  | bindProperty st o name s => exact onward_bindProperty st o name s
  | property st o name => exact onward_propertySlot st o name
  | newSlot st v => exact onward_newSlot st v
  | write st s v => exact onward_write st s v

theorem onward_operations (operations : Operations st st') : Onward st st' := by
  induction operations with
  | refl => exact .refl st
  | tail _ operation ih => exact ih.trans operation.onward

theorem wellFormed_empty : empty.WellFormed where
  arrays a := by
    have none : empty.array a = .empty := by simp [array, empty]
    exact none ▸ ArrayData.wellFormed_empty
  properties o := by simp [object, empty, Assoc.keys]

theorem wellFormed_of_operations (built : Operations .empty st) : st.WellFormed :=
  (onward_operations built wellFormed_empty).1

theorem entryAt?_of_prefix {before after : ArrayData} (order : before.keys <+: after.keys)
    {position : Nat} {entry : Key × SlotId} (found : before.entryAt? position = some entry) :
    (after.entryAt? position).map (·.1) = some entry.1 := by
  have keyAt (data : ArrayData) : (data.entryAt? position).map (·.1) = data.keys[position]? :=
    List.getElem?_map.symm
  have known : before.keys[position]? = some entry.1 := by rw [← keyAt, found, Option.map_some]
  obtain ⟨inside, value⟩ := List.getElem?_eq_some_iff.mp known
  rw [keyAt, ← value]
  exact List.prefix_iff_getElem?.mp order position inside

/-- After any operations, on this array and on others, an array is well formed; whatever more is
done, it begins with the keys it had, each at its position. Its copies have its keys, its next index
and its pointer. -/
theorem arrays_keep_their_keys (built : Operations .empty st) (later : Operations st st')
    (a : ArrayId) :
    (st'.array a).WellFormed ∧
    (st.array a).keys <+: (st'.array a).keys ∧
    (∀ position entry, (st.array a).entryAt? position = some entry →
      ((st'.array a).entryAt? position).map (·.1) = some entry.1) ∧
    ∀ roots v st'', st'.copy roots (.array a) = some (v, st'') → ∃ c, v = .array c ∧
      (st''.array c).keys = (st'.array a).keys ∧
      (st''.array c).nextIndex = (st'.array a).nextIndex ∧
      (st''.array c).pointer = (st'.array a).pointer := by
  have before : st.WellFormed := wellFormed_of_operations built
  have after := onward_operations later before
  exact ⟨after.1.arrays a, after.2 a, fun _ _ found => entryAt?_of_prefix (after.2 a) found,
    fun _ _ _ copied => copyWithin_keeps copied⟩

/-- An array under a negative integer, a text and an integer, to which one element is appended. -/
def threeKeys : Store :=
  (((empty.newArray .empty).2.insertElement ⟨0⟩ (.ofText "-3") .null).insertElement ⟨0⟩
    (.ofText "05") .null).insertElement ⟨0⟩ (.integer 7) .null

theorem threeKeys_built : Operations .empty threeKeys :=
  (((ReflTransGen.single (.new _)).tail (.insert _ ⟨0⟩ (.inr ⟨"-3", rfl⟩) .null)).tail
    (.insert _ ⟨0⟩ (.inr ⟨"05", rfl⟩) .null)).tail
    (.insert _ ⟨0⟩ (.inl ⟨.integer 7, rfl⟩) .null)

theorem arrays_keep_their_keys_negative :
    ((threeKeys.push ⟨0⟩ (.boolean true)).2.array ⟨0⟩).WellFormed ∧
    ((threeKeys.push ⟨0⟩ (.boolean true)).2.array ⟨0⟩).keys =
      [.integer (-3), .string "05", .integer 7, .integer 8] := by
  have appended :=
    arrays_keep_their_keys threeKeys_built (.single (.push _ ⟨0⟩ (.boolean true))) ⟨0⟩
  exact ⟨appended.1, by decide⟩

/-! Appends -/

theorem takenIn_pushSlot (wellFormed : st.WellFormed) (there : a.index < st.arrays.size)
    (s : SlotId) :
    ArrayData.TakenIn (st.array a) ((st.pushSlot a s).2.array a)
      (.integer (st.array a).nextIndex) s := by
  have array : (st.pushSlot a s).2.array a =
      (st.array a).bind (.integer (st.array a).nextIndex) s := array_setArray_self st a _ there
  rw [array]
  exact (wellFormed.arrays a).takenIn s

/-- What is appended to an array, a slot or a value in a slot of its own, goes to the next index. It
is added after all other elements, which stay in their slots, as long as no element is under the
greatest word; otherwise it takes the place of that element. No value of an older slot changes. -/
theorem append_adds_below_greatest (built : Operations .empty st) (there : a.index < st.arrays.size)
    (s : SlotId) (v : Value) :
    let next := Key.integer (st.array a).nextIndex
    ArrayData.TakenIn (st.array a) ((st.bindAt (.append a) s).array a) next s ∧
    (∀ t, (st.bindAt (.append a) s).read t = st.read t) ∧
    ArrayData.TakenIn (st.array a) ((st.put (.append a) v).array a) next ⟨st.slots.size⟩ ∧
    (st.put (.append a) v).read ⟨st.slots.size⟩ = v ∧
    (∀ t, t.index < st.slots.size → (st.put (.append a) v).read t = st.read t) ∧
    (st.slotAt (.append a)).1 = ⟨st.slots.size⟩ ∧
    (st.slotAt (.append a)).2 = st.put (.append a) .null := by
  intro next
  have wellFormed : st.WellFormed := wellFormed_of_operations built
  have withSlot : (st.newSlot v).2.WellFormed := ⟨wellFormed.arrays, wellFormed.properties⟩
  exact ⟨takenIn_pushSlot wellFormed there s, fun _ => rfl, takenIn_pushSlot withSlot there _,
    read_newSlot_self st v, fun t older => read_newSlot_of_lt st v t older, rfl, rfl⟩

theorem append_adds_below_greatest_negative :
    ArrayData.Appended (threeKeys.array ⟨0⟩)
      ((threeKeys.put (.append ⟨0⟩) (.boolean true)).array ⟨0⟩) (.integer 8) ⟨3⟩ := by
  have there : (⟨0⟩ : ArrayId).index < threeKeys.arrays.size := by decide
  have room : Key.integer Int64.maxValue ∉ (threeKeys.array ⟨0⟩).keys := by decide
  obtain ⟨-, -, taken, -⟩ := append_adds_below_greatest threeKeys_built there ⟨0⟩ (.boolean true)
  exact taken.appended room

/-- An array with an element under the greatest word. -/
def greatestKey : Store :=
  (empty.newArray .empty).2.insertElement ⟨0⟩ (.integer Int64.maxValue) (.boolean true)

/-- `return [9223372036854775807 => 1, 2][9223372036854775807];` -/
def returnsGreatest : Node := .program [
  .returnStatement (some (.arrayIndex
    (.arrayLiteral [.keyValuePair (.integer Int64.maxValue) (.integer 1), .integer 2])
    [some (.integer Int64.maxValue)] false))]

/-- Whether an evaluation gives an integer. -/
def givesInteger (n : Int64) : Except EvalError Outcome × Session → Bool
  | (.ok ⟨_, .integer k⟩, _) => k == n
  | _ => false

/-- What is appended to an array with an element under the greatest word takes its place. The array
is no longer than before. -/
theorem append_replaces_greatest :
    Operations .empty greatestKey ∧
    (let next := Key.integer (greatestKey.array ⟨0⟩).nextIndex
     let after := (greatestKey.put (.append ⟨0⟩) (.boolean false)).array ⟨0⟩
     next ∈ (greatestKey.array ⟨0⟩).keys ∧ after.size = (greatestKey.array ⟨0⟩).size ∧
       after.slot? next ≠ (greatestKey.array ⟨0⟩).slot? next) ∧
    givesInteger 2 ((Session.create .default false [] .unlimited .unlimited).evaluate
      returnsGreatest) = true := by
  have built : Operations .empty greatestKey :=
    (ReflTransGen.single (.new _)).tail
      (.insert _ ⟨0⟩ (.inl ⟨.integer Int64.maxValue, rfl⟩) (.boolean true))
  exact ⟨built, by decide +kernel, by decide +kernel⟩

end Store
end TreeScript
