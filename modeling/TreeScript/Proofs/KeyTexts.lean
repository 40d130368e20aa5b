import Mathlib.Data.List.Nodup
import TreeScript.Proofs.Keys.Texts

set_option autoImplicit false

/- What the texts of keys can stand for. No two keys of an array share a text; so what is looked up
by the text of a key is the element under that key, different keys name different properties, and
the JSON of an array has a field for each of its elements. -/
namespace TreeScript

namespace Json

/-- No object in the JSON, at any depth, has two fields of one name. -/
def namesDistinct : Json → Prop
  | .null | .bool _ | .number _ | .string _ => True
  | .array items => inItems items
  | .object fields => (Assoc.keys fields).Nodup ∧ inFields fields
where
  inItems : List Json → Prop
    | [] => True
    | j :: rest => namesDistinct j ∧ inItems rest
  inFields : List (String × Json) → Prop
    | [] => True
    | (_, j) :: rest => namesDistinct j ∧ inFields rest

end Json

namespace Snapshot

theorem keys_entriesToJson (entries : List (Key × Snapshot)) :
    Assoc.keys (toJson.entriesToJson entries) = (Assoc.keys entries).map Key.text := by
  induction entries with
  | nil => rfl
  | cons entry rest ih =>
      obtain ⟨key, v⟩ := entry
      rw [toJson.entriesToJson, Assoc.keys, List.map_cons]
      exact congrArg (key.text :: ·) ih

theorem keys_propertiesToJson (properties : List (String × Snapshot)) :
    Assoc.keys (toJson.propertiesToJson properties) = Assoc.keys properties := by
  induction properties with
  | nil => rfl
  | cons entry rest ih =>
      obtain ⟨name, v⟩ := entry
      rw [toJson.propertiesToJson, Assoc.keys, List.map_cons]
      exact congrArg (name :: ·) ih

theorem entriesToJson_distinct {entries : List (Key × Snapshot)}
    (each : ∀ entry ∈ entries, entry.2.toJson.namesDistinct) :
    Json.namesDistinct.inFields (toJson.entriesToJson entries) := by
  induction entries with
  | nil => trivial
  | cons entry rest ih =>
      obtain ⟨first, later⟩ := List.forall_mem_cons.mp each
      obtain ⟨key, v⟩ := entry
      rw [toJson.entriesToJson, Json.namesDistinct.inFields]
      exact ⟨first, ih later⟩

theorem propertiesToJson_distinct {properties : List (String × Snapshot)}
    (each : ∀ entry ∈ properties, entry.2.toJson.namesDistinct) :
    Json.namesDistinct.inFields (toJson.propertiesToJson properties) := by
  induction properties with
  | nil => trivial
  | cons entry rest ih =>
      obtain ⟨first, later⟩ := List.forall_mem_cons.mp each
      obtain ⟨name, v⟩ := entry
      rw [toJson.propertiesToJson, Json.namesDistinct.inFields]
      exact ⟨first, ih later⟩

end Snapshot

/-! Arrays -/

/-- The elements of an array under the texts of their keys. -/
def ArrayData.byText (a : ArrayData) : List (String × SlotId) :=
  a.elements.map fun (key, s) => (key.text, s)

theorem ArrayData.keys_byText (a : ArrayData) : Assoc.keys a.byText = a.keys.map Key.text := by
  simp [byText, Assoc.keys, keys]

theorem ArrayData.WellFormed.texts_distinct {a : ArrayData} (wellFormed : a.WellFormed) :
    (Assoc.keys a.byText).Nodup := by
  rw [ArrayData.keys_byText]
  refine List.Nodup.map_on (fun key member key' member' same => ?_) wellFormed.distinct
  exact Key.text_injective (wellFormed.canonical key member) (wellFormed.canonical key' member') same

/-- What is looked up by the text of a key is what lies under the key. -/
theorem get?_byText {elements : List (Key × SlotId)}
    (canonical : ∀ entry ∈ elements, entry.1.Canonical) {key : Key} (isKey : key.Canonical) :
    Assoc.get? (elements.map fun entry => (entry.1.text, entry.2)) key.text =
      Assoc.get? elements key := by
  induction elements with
  | nil => rfl
  | cons entry rest ih =>
      obtain ⟨first, later⟩ := List.forall_mem_cons.mp canonical
      obtain ⟨other, s⟩ := entry
      by_cases same : other = key
      · rw [same, List.map_cons, Assoc.get?_cons_self, Assoc.get?_cons_self]
      · have apart : key.text ≠ other.text := fun texts =>
          same (Key.text_injective first isKey texts.symm)
        rw [List.map_cons, Assoc.get?_cons_of_ne _ _ apart, Assoc.get?_cons_of_ne _ _ (Ne.symm same)]
        exact ih later

namespace Store

variable {st : Store}

theorem keys_shown {α : Type} (shown : Value → Snapshot) (entries : List (α × SlotId)) :
    Assoc.keys (entries.map fun (key, s) => (key, shown (st.read s))) = Assoc.keys entries := by
  rw [Assoc.keys, List.map_map]
  rfl

theorem snapshotWithin_distinct (wellFormed : st.WellFormed) (depth : Nat) (v : Value) :
    (st.snapshotWithin depth v).toJson.namesDistinct := by
  induction depth generalizing v with
  | zero => trivial
  | succ depth ih =>
      cases v with
      | null | boolean b | float x | string s => trivial
      | integer n =>
          rw [snapshotWithin, Snapshot.toJson, Json.ofInt64]
          split <;> trivial
      | array a =>
          rw [snapshotWithin, Snapshot.toJson, Json.namesDistinct, Snapshot.keys_entriesToJson]
          refine ⟨?_, Snapshot.entriesToJson_distinct fun entry member => ?_⟩
          · have distinct := (wellFormed.arrays a).texts_distinct
            rw [ArrayData.keys_byText, ArrayData.keys] at distinct
            rwa [keys_shown]
          · obtain ⟨_, _, rfl⟩ := List.mem_map.mp member
            exact ih _
      | object o =>
          rw [snapshotWithin, Snapshot.toJson, Json.namesDistinct]
          refine ⟨show ["class", "properties"].Nodup by decide, ?_⟩
          rw [Json.namesDistinct.inFields, Json.namesDistinct.inFields, Json.namesDistinct.inFields,
            Json.namesDistinct, Json.namesDistinct, Snapshot.keys_propertiesToJson]
          refine ⟨trivial, ⟨?_, Snapshot.propertiesToJson_distinct fun entry member => ?_⟩, trivial⟩
          · rw [keys_shown]
            exact wellFormed.properties o
          · obtain ⟨_, _, rfl⟩ := List.mem_map.mp member
            exact ih _

end Store

/-- Keys lose nothing of the texts and values they are made of, nor by being texts. A text is the text
of its key, and an integer as a key exactly if it is the canonical decimal of a word. A key made
from a value is made again from its own value; keys that are made have different texts, and name
different properties, unless they are the same. So in a store that operations have built, what is
looked up by the text of a key is the element under it, no two keys of an array have one text, and
no object in the JSON of a value has two fields of one name. -/
theorem keys_lose_nothing (m : Machine) (o : ObjectId) {st : Store}
    (built : Store.Operations .empty st) :
    (∀ text, (Key.ofText text).text = text) ∧
    (∀ n : Int64, Key.ofText (toString n.toInt) = .integer n) ∧
    (∀ text n, Key.ofText text = .integer n ↔
      CanonicalDecimal text.toList ∧ decimalInteger text.toList = some n.toInt) ∧
    (∀ text, CanonicalDecimal text.toList ↔ ∃ n : Int, text = toString n) ∧
    (∀ v key, Key.ofValue v = some key → Key.ofValue key.toValue = some key) ∧
    (∀ key key' : Key, key.Made → key'.Made →
      (key.text = key'.text ↔ key = key') ∧
      ((Location.spotOf (.object o) (some key)).run m =
        (Location.spotOf (.object o) (some key')).run m ↔ key = key')) ∧
    ∀ a, (∀ key : Key, key.Made → Assoc.get? (st.array a).byText key.text = (st.array a).slot? key) ∧
      (Assoc.keys (st.array a).byText).Nodup ∧
      ∀ v, (st.snapshot v).toJson.namesDistinct := by
  have wellFormed : st.WellFormed := Store.wellFormed_of_operations built
  have texts (key key' : Key) (made : key.Made) (made' : key'.Made) :
      key.text = key'.text ↔ key = key' :=
    ⟨fun same => Key.text_injective made.canonical made'.canonical same, fun same => by rw [same]⟩
  refine ⟨Key.text_ofText, Key.ofText_decimal, fun text n => Key.ofText_eq_integer_iff,
    canonicalDecimal_iff, fun v key made => Key.ofValue_toValue made, ?_, ?_⟩
  · intro key key' made made'
    refine ⟨texts key key' made made', ?_⟩
    rw [← texts key key' made made']
    constructor
    · intro same
      have spots : Spot.property o key.text = Spot.property o key'.text := by
        injection same
      injection spots
    · intro same
      show EStateM.Result.ok (Spot.property o key.text) m = .ok (Spot.property o key'.text) m
      rw [same]
  · intro a
    have array := wellFormed.arrays a
    refine ⟨fun key made => ?_, array.texts_distinct,
      fun v => Store.snapshotWithin_distinct wellFormed _ v⟩
    refine get?_byText (fun entry member => ?_) made.canonical
    exact array.canonical entry.1 (List.mem_map_of_mem member)

/-- An array under an integer, a text that is no canonical decimal, and an integer. What is signed by
a plus, zero with a minus, filled with zeros or beyond the words stays a text. -/
theorem keys_lose_nothing_mixed :
    let m : Machine := (Session.create .default false [] .unlimited .unlimited).boot ⟨[], [], 0⟩
    Store.Operations .empty Store.threeKeys ∧
    (∀ text ∈ ["+5", "-0", "05", "9223372036854775808", "-9223372036854775809"],
      Key.ofText text = .string text) ∧
    Key.ofText "-9223372036854775808" = .integer Int64.minValue ∧
    Assoc.keys (Store.threeKeys.array ⟨0⟩).byText = ["-3", "05", "7"] ∧
    Assoc.get? (Store.threeKeys.array ⟨0⟩).byText "05" =
      (Store.threeKeys.array ⟨0⟩).slot? (.string "05") ∧
    (Store.threeKeys.snapshot (.array ⟨0⟩)).toJson.namesDistinct ∧
    (Location.spotOf (.object ⟨0⟩) (some (.string "05"))).run m ≠
      (Location.spotOf (.object ⟨0⟩) (some (.integer 5))).run m := by
  intro m
  have padded : (Key.string "05").Made := .inr ⟨"05", by decide⟩
  have plain : (Key.integer 5).Made := .inl ⟨.integer 5, rfl⟩
  obtain ⟨-, word, -, -, -, apart, arrays⟩ := keys_lose_nothing m ⟨0⟩ Store.threeKeys_built
  obtain ⟨byText, -, json⟩ := arrays ⟨0⟩
  refine ⟨Store.threeKeys_built, by decide, word Int64.minValue, by decide,
    byText (.string "05") padded, json (.array ⟨0⟩), fun same => ?_⟩
  cases (apart _ _ padded plain).2.mp same

end TreeScript
