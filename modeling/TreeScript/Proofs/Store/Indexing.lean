import Mathlib.Data.Int.Order.Basic
import Mathlib.Logic.Relation
import Mathlib.Order.MinMax
import TreeScript.Proofs.Keys
import TreeScript.Proofs.Run
import TreeScript.Proofs.Store.Copy

set_option autoImplicit false

/- How an array keeps its keys: no key twice, texts only where no integer key stands for them, the
next index above all integer keys as far as words go, and the pointer no further than past the last
element. A key that is there keeps its position. -/
namespace TreeScript

theorem Assoc.nodup_keys_set {α β : Type} [BEq α] [LawfulBEq α]
    {entries : List (α × β)} (distinct : (keys entries).Nodup) (key : α) (value : β) :
    (keys (set entries key value)).Nodup := by
  rw [keys_set]
  split
  · exact distinct
  · next new =>
      refine List.nodup_append.mpr ⟨distinct, by simp, ?_⟩
      rintro other member _ isKey rfl
      exact new (List.mem_singleton.mp isKey ▸ member)

/-- The integer of an integer key. -/
def Key.integer? : Key → Option Int
  | .integer n => some n.toInt
  | .string _ => none

/-- The index that follows the greatest integer key; none comes before zero. -/
def indexAfter (keys : List Key) : Int :=
  match (keys.filterMap Key.integer?).max? with
  | some greatest => max 0 (1 + greatest)
  | none => 0

theorem mem_filterMap_integer? {keys : List Key} {n : Int64} :
    n.toInt ∈ keys.filterMap Key.integer? ↔ Key.integer n ∈ keys := by
  rw [List.mem_filterMap]
  constructor
  · rintro ⟨key, member, same⟩
    cases key with
    | integer k =>
        have equal : k = n := Int64.toInt_inj.mp (Option.some.inj same)
        exact equal ▸ member
    | string s => cases same
  · exact fun member => ⟨_, member, rfl⟩

theorem indexAfter_le_iff {keys : List Key} {bound : Int} :
    indexAfter keys ≤ bound ↔ 0 ≤ bound ∧ ∀ n, Key.integer n ∈ keys → n.toInt + 1 ≤ bound := by
  have integers : (∀ k ∈ keys.filterMap Key.integer?, k + 1 ≤ bound) ↔
      ∀ n, Key.integer n ∈ keys → n.toInt + 1 ≤ bound := by
    constructor
    · exact fun all n member => all _ (mem_filterMap_integer?.mpr member)
    · intro all k member
      obtain ⟨key, listed, isInteger⟩ := List.mem_filterMap.mp member
      cases key with
      | integer n =>
          cases isInteger
          exact all n listed
      | string s => cases isInteger
  rw [← integers, indexAfter]
  cases greatest : (keys.filterMap Key.integer?).max? with
  | none =>
      rw [List.max?_eq_none_iff] at greatest
      simp [greatest]
  | some g =>
      have below : g ≤ bound - 1 ↔ ∀ k ∈ keys.filterMap Key.integer?, k ≤ bound - 1 :=
        List.max?_le_iff greatest
      have shifted : (∀ k ∈ keys.filterMap Key.integer?, k + 1 ≤ bound) ↔ g ≤ bound - 1 := by
        rw [below]
        exact forall₂_congr fun k _ => by omega
      rw [shifted]
      simp only
      omega

theorem lt_indexAfter {keys : List Key} {n : Int64} (member : Key.integer n ∈ keys) :
    n.toInt < indexAfter keys := by
  have above := (indexAfter_le_iff.mp (le_refl (indexAfter keys))).2 n member
  omega

theorem indexAfter_integer (keys : List Key) (n : Int64) :
    indexAfter (keys ++ [.integer n]) = max (indexAfter keys) (n.toInt + 1) := by
  refine eq_of_forall_ge_iff fun bound => ?_
  rw [max_le_iff, indexAfter_le_iff, indexAfter_le_iff, and_assoc]
  simp only [List.mem_append, List.mem_singleton, Key.integer.injEq, or_imp, forall_and,
    forall_eq]

theorem indexAfter_string (keys : List Key) (s : String) :
    indexAfter (keys ++ [.string s]) = indexAfter keys := by
  refine eq_of_forall_ge_iff fun bound => ?_
  simp [indexAfter_le_iff]

namespace ArrayData

def keys (a : ArrayData) : List Key := Assoc.keys a.elements

structure WellFormed (a : ArrayData) : Prop where
  distinct : a.keys.Nodup
  canonical : ∀ key ∈ a.keys, key.Canonical
  next : a.nextIndex.toInt = min Int64.maxValue.toInt (indexAfter a.keys)
  pointer : a.pointer ≤ a.size

variable {a : ArrayData} {key : Key}

theorem size_eq (a : ArrayData) : a.size = a.keys.length := by
  simp [size, keys, Assoc.keys]

theorem toInt_clamped {n : Int} (above : 0 ≤ n) :
    (Int64.ofIntClamp n).toInt = min Int64.maxValue.toInt n := by
  have greatest : Int64.maxValue.toInt = 2 ^ 63 - 1 := Int64.toInt_maxValue
  have least : Int64.minValue.toInt ≤ n := by
    have negative : Int64.minValue.toInt = -2 ^ 63 := Int64.toInt_minValue
    omega
  by_cases fits : n ≤ Int64.maxValue.toInt
  · rw [Int64.toInt_ofIntClamp least fits]
    omega
  · rw [Int64.ofIntClamp, dif_pos least, dif_neg fits]
    omega

/-- Binding a slot leaves the next index above the key, and no lower than it was. -/
theorem toInt_trackKey (a : ArrayData) (n : Int64) (above : 0 ≤ a.nextIndex.toInt) :
    (a.trackKey (.integer n)).nextIndex.toInt =
      min Int64.maxValue.toInt (max a.nextIndex.toInt (n.toInt + 1)) := by
  have greatest : a.nextIndex.toInt ≤ Int64.maxValue.toInt := by
    have word := a.nextIndex.toInt_lt
    have bound : Int64.maxValue.toInt = 2 ^ 63 - 1 := Int64.toInt_maxValue
    omega
  rw [trackKey]
  split
  · next reached =>
      have below : a.nextIndex.toInt ≤ n.toInt := Int64.le_iff_toInt_le.mp reached
      rw [toInt_clamped (by omega)]
      omega
  · next short =>
      have above : n.toInt < a.nextIndex.toInt := by
        rw [Int64.le_iff_toInt_le] at short
        omega
      omega

theorem keys_bind (a : ArrayData) (key : Key) (s : SlotId) :
    (a.bind key s).keys = if key ∈ a.keys then a.keys else a.keys ++ [key] := Assoc.keys_set ..

theorem wellFormed_empty : empty.WellFormed where
  distinct := List.nodup_nil
  canonical key member := by cases member
  next := by decide
  pointer := le_refl 0

theorem slot?_isSome (a : ArrayData) (key : Key) : (a.slot? key).isSome = true ↔ key ∈ a.keys :=
  Assoc.contains_iff_mem_keys a.elements key

namespace WellFormed

variable {key : Key}

theorem next_nonneg (wellFormed : a.WellFormed) : 0 ≤ a.nextIndex.toInt := by
  have above : 0 ≤ indexAfter a.keys := (indexAfter_le_iff.mp (le_refl _)).1
  have bound : Int64.maxValue.toInt = 2 ^ 63 - 1 := Int64.toInt_maxValue
  rw [wellFormed.next]
  omega

/-- The next index after a key has been tracked is that of the keys with this one among them. -/
theorem next_trackKey (wellFormed : a.WellFormed) (key : Key) :
    (a.trackKey key).nextIndex.toInt =
      min Int64.maxValue.toInt (indexAfter (a.keys ++ [key])) := by
  cases key with
  | integer n =>
      rw [toInt_trackKey a n wellFormed.next_nonneg, indexAfter_integer, wellFormed.next]
      omega
  | string s => rw [indexAfter_string, ← wellFormed.next, trackKey]

/-- A key that is there has been tracked. -/
theorem trackKey_of_mem (wellFormed : a.WellFormed) (member : key ∈ a.keys) :
    a.trackKey key = a := by
  cases key with
  | string s => rfl
  | integer n =>
      have below := lt_indexAfter member
      have same : (a.trackKey (.integer n)).nextIndex = a.nextIndex := by
        apply Int64.toInt_inj.mp
        rw [wellFormed.next_trackKey, indexAfter_integer, wellFormed.next]
        omega
      by_cases reached : a.nextIndex ≤ n
      · rw [ArrayData.trackKey, if_pos reached] at same ⊢
        exact congrArg (fun next => { a with nextIndex := next }) same
      · rw [ArrayData.trackKey, if_neg reached]

theorem bind (wellFormed : a.WellFormed) (canonical : key.Canonical) (s : SlotId) :
    (a.bind key s).WellFormed := by
  have distinct : (a.bind key s).keys.Nodup := Assoc.nodup_keys_set wellFormed.distinct key s
  have grown := keys_bind a key s
  by_cases known : key ∈ a.keys
  · rw [if_pos known] at grown
    refine ⟨distinct, grown ▸ wellFormed.canonical, ?_, ?_⟩
    · have kept : (a.bind key s).nextIndex = a.nextIndex :=
        congrArg (·.nextIndex) (wellFormed.trackKey_of_mem known)
      rw [grown, ← wellFormed.next, kept]
    · rw [size_eq, grown, ← size_eq]
      exact (Store.pointer_trackKey a key).le.trans wellFormed.pointer
  · rw [if_neg known] at grown
    refine ⟨distinct, ?_, ?_, ?_⟩
    · rw [grown]
      exact List.forall_mem_append.mpr ⟨wellFormed.canonical, by simpa using canonical⟩
    · rw [grown]
      exact wellFormed.next_trackKey key
    · have longer : (a.bind key s).size = a.size + 1 := by simp [size_eq, grown]
      have kept : (a.bind key s).pointer = a.pointer :=
        Store.pointer_trackKey a key
      have inside := wellFormed.pointer
      omega

theorem reset (wellFormed : a.WellFormed) : a.reset.WellFormed :=
  ⟨wellFormed.distinct, wellFormed.canonical, wellFormed.next, Nat.zero_le _⟩

theorem advance (wellFormed : a.WellFormed) : a.advance.WellFormed := by
  rw [ArrayData.advance]
  split
  · next further => exact ⟨wellFormed.distinct, wellFormed.canonical, wellFormed.next, further⟩
  · exact wellFormed

/-- With the same keys in other slots, an array is as well formed. -/
theorem rebound (wellFormed : a.WellFormed) {elements : List (Key × SlotId)}
    (same : Assoc.keys elements = a.keys) : ({ a with elements } : ArrayData).WellFormed := by
  have keys : ({ a with elements } : ArrayData).keys = a.keys := same
  refine ⟨keys ▸ wellFormed.distinct, keys ▸ wellFormed.canonical, ?_, ?_⟩
  · rw [keys]
    exact wellFormed.next
  · rw [size_eq, keys, ← size_eq]
    exact wellFormed.pointer

theorem next_of_greatest (wellFormed : a.WellFormed)
    (full : Key.integer Int64.maxValue ∈ a.keys) : a.nextIndex = Int64.maxValue := by
  have below := lt_indexAfter full
  apply Int64.toInt_inj.mp
  rw [wellFormed.next]
  omega

/-- The next index is taken only when there is no greater one. -/
theorem mem_next_iff (wellFormed : a.WellFormed) :
    Key.integer a.nextIndex ∈ a.keys ↔ Key.integer Int64.maxValue ∈ a.keys := by
  constructor
  · intro taken
    have below := lt_indexAfter taken
    have next := wellFormed.next
    have last : a.nextIndex = Int64.maxValue := Int64.toInt_inj.mp (by omega)
    exact last ▸ taken
  · intro full
    rwa [wellFormed.next_of_greatest full]

end WellFormed

/-! Appending -/

/-- The array has one element more, the last, under a key that it did not have. All others are in
the slots they were in. -/
structure Appended (before after : ArrayData) (key : Key) (s : SlotId) : Prop where
  new : key ∉ before.keys
  longer : after.size = before.size + 1
  last : after.entryAt? before.size = some (key, s)
  kept : ∀ other t, before.slot? other = some t → after.slot? other = some t

/-- The array has the same keys in the same order, one of them with another slot. All others are in
the slots they were in. -/
structure Replaced (before after : ArrayData) (key : Key) (s : SlotId) : Prop where
  there : key ∈ before.keys
  keys : after.keys = before.keys
  slot : after.slot? key = some s
  others : ∀ other, other ≠ key → after.slot? other = before.slot? other

/-- A slot has been appended, unless the array has an element under the greatest word: there it has
taken the place of that one. -/
structure TakenIn (before after : ArrayData) (key : Key) (s : SlotId) : Prop where
  appended : Key.integer Int64.maxValue ∉ before.keys → Appended before after key s
  replaced : Key.integer Int64.maxValue ∈ before.keys → Replaced before after key s

theorem WellFormed.appended (wellFormed : a.WellFormed)
    (room : Key.integer Int64.maxValue ∉ a.keys) (s : SlotId) :
    Appended a (a.bind (.integer a.nextIndex) s) (.integer a.nextIndex) s := by
  have new : Key.integer a.nextIndex ∉ a.keys := fun taken =>
    room (wellFormed.mem_next_iff.mp taken)
  have elements : (a.bind (.integer a.nextIndex) s).elements =
      a.elements ++ [(.integer a.nextIndex, s)] := Assoc.set_of_absent (Assoc.get?_eq_none new) s
  refine ⟨new, ?_, ?_, fun other t found => ?_⟩
  · simp [size, elements]
  · simp [entryAt?, size, elements]
  · have apart : other ≠ .integer a.nextIndex := by
      rintro rfl
      exact new ((a.slot?_isSome _).mp (Option.isSome_of_eq_some found))
    rw [← found]
    exact Assoc.get?_set_of_ne a.elements _ s other apart

theorem WellFormed.replaced (wellFormed : a.WellFormed)
    (full : Key.integer Int64.maxValue ∈ a.keys) (s : SlotId) :
    Replaced a (a.bind (.integer a.nextIndex) s) (.integer a.nextIndex) s := by
  have taken := wellFormed.mem_next_iff.mpr full
  refine ⟨taken, ?_, Assoc.get?_set_self a.elements _ s, fun other apart => ?_⟩
  · rw [keys_bind, if_pos taken]
  · exact Assoc.get?_set_of_ne a.elements _ s other apart

theorem WellFormed.takenIn (wellFormed : a.WellFormed) (s : SlotId) :
    TakenIn a (a.bind (.integer a.nextIndex) s) (.integer a.nextIndex) s :=
  ⟨fun room => wellFormed.appended room s, fun full => wellFormed.replaced full s⟩

end ArrayData

/-- No array has a key twice, and no object a property. -/
structure Store.Keyed (st : Store) : Prop where
  elements : ∀ a, (st.array a).keys.Nodup
  properties : ∀ o, (Assoc.keys (st.object o).properties).Nodup

end TreeScript
