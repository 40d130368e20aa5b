import Mathlib.Data.List.Perm.Subperm
import TreeScript.Proofs.Floats
import TreeScript.Proofs.Store.Depth
import TreeScript.Proofs.Store.Indexing

set_option autoImplicit false

/- Comparisons in both directions. Values that are not both arrays or both objects are compared at
once, and the order of two of them is reversed when they change places. Arrays and objects are
compared by key; since none has a key twice, two of the same size are compared by the same pairs in
both directions, though not in the same order. -/
namespace TreeScript

theorem Assoc.get?_of_mem {α β : Type} [BEq α] [LawfulBEq α] {entries : List (α × β)}
    (distinct : (keys entries).Nodup) {entry : α × β} (member : entry ∈ entries) :
    get? entries entry.1 = some entry.2 := by
  induction entries with
  | nil => cases member
  | cons first rest ih =>
      obtain ⟨k, v⟩ := first
      obtain ⟨new, distinctRest⟩ := List.nodup_cons.mp distinct
      rcases List.mem_cons.mp member with rfl | later
      · exact get?_cons_self ..
      · have apart : entry.1 ≠ k := by
          rintro rfl
          exact new (List.mem_map.mpr ⟨entry, later, rfl⟩)
        rw [get?_cons_of_ne _ _ apart]
        exact ih distinctRest later

/-! Tests that all pass, or of which one fails -/

section tests

variable {α : Type} {test : α → Option Bool} {l : List α}

theorem allEnding_eq_true_iff : allEnding test l = some true ↔ ∀ x ∈ l, test x = some true := by
  induction l with
  | nil => simp [allEnding]
  | cons x rest ih =>
      rw [allEnding, List.forall_mem_cons, ← ih]
      cases test x with
      | none => simp
      | some passed => cases passed <;> simp

theorem exists_of_allEnding_false (fails : allEnding test l = some false) :
    ∃ x ∈ l, test x = some false := by
  induction l with
  | nil => cases fails
  | cons x rest ih =>
      rw [allEnding] at fails
      cases here : test x with
      | none => simp [here] at fails
      | some passed =>
          cases passed with
          | false => exact ⟨x, List.mem_cons_self, here⟩
          | true =>
              rw [here] at fails
              obtain ⟨y, member, found⟩ := ih fails
              exact ⟨y, List.mem_cons_of_mem x member, found⟩

end tests

/-! Numbers and texts -/

theorem compare_swap {α : Type} [Ord α] [Std.OrientedOrd α] (x y : α) :
    some (Ord.compare y x) = (some (Ord.compare x y)).map Ordering.swap := by
  rw [Option.map_some, ← Std.OrientedOrd.eq_swap]

theorem Number.compare_swap (m n : Number) : n.compare m = (m.compare n).map Ordering.swap := by
  cases m with
  | integer m =>
      cases n with
      | integer n => exact TreeScript.compare_swap m.toInt n.toInt
      | float y => exact compareFloats_swap _ _
  | float x => cases n <;> exact compareFloats_swap _ _

theorem compareTexts_swap (s t : String) :
    compareTexts t s = (compareTexts s t).map Ordering.swap := by
  unfold compareTexts
  cases numericText s with
  | none => cases numericText t <;> exact compare_swap s t
  | some m =>
      cases numericText t with
      | none => exact compare_swap s t
      | some n => exact m.compare_swap n

theorem compareTextNumber_eq (s : String) (number : Number) (shown : String) :
    compareTextNumber s number shown =
      (compareNumberText number shown s).map Ordering.swap := by
  unfold compareTextNumber compareNumberText
  cases numericText s with
  | none => exact compare_swap shown s
  | some n => exact number.compare_swap n

theorem compareNumberText_eq (number : Number) (shown s : String) :
    compareNumberText number shown s =
      (compareTextNumber s number shown).map Ordering.swap := by
  unfold compareTextNumber compareNumberText
  cases numericText s with
  | none => exact compare_swap s shown
  | some n => exact n.compare_swap number

namespace Store

variable {st : Store} {v w : Value}

/-- Both arrays or both objects. -/
def Alike (v w : Value) : Prop :=
  (∃ a b, v = .array a ∧ w = .array b) ∨ ∃ o p, v = .object o ∧ w = .object p

theorem Alike.symm (alike : Alike v w) : Alike w v := by
  rcases alike with ⟨a, b, rfl, rfl⟩ | ⟨o, p, rfl, rfl⟩
  · exact .inl ⟨b, a, rfl, rfl⟩
  · exact .inr ⟨p, o, rfl, rfl⟩

theorem compareUnlike_swap (st : Store) (v w : Value) :
    st.compareUnlike w v = (st.compareUnlike v w).map Ordering.swap := by
  cases v with
  | null | boolean b => cases w <;> exact compare_swap _ _
  | integer m =>
      cases w with
      | null | boolean b => exact compare_swap _ _
      | integer n => exact Number.compare_swap (.integer m) (.integer n)
      | float y => exact Number.compare_swap (.integer m) (.float y)
      | string s => exact compareTextNumber_eq s (.integer m) (toString m.toInt)
      | array b | object p => rfl
  | float x =>
      cases w with
      | null | boolean b => exact compare_swap _ _
      | integer n => exact Number.compare_swap (.float x) (.integer n)
      | float y => exact Number.compare_swap (.float x) (.float y)
      | string s => exact compareTextNumber_eq s (.float x) (floatText x)
      | array b | object p => rfl
  | string s =>
      cases w with
      | null | boolean b => exact compare_swap _ _
      | integer n => exact compareNumberText_eq (.integer n) (toString n.toInt) s
      | float y => exact compareNumberText_eq (.float y) (floatText y) s
      | string t => exact compareTexts_swap s t
      | array b | object p => rfl
  | array a =>
      cases w with
      | null | boolean b => exact compare_swap _ _
      | _ => rfl
  | object o =>
      cases w with
      | null | boolean b => exact compare_swap _ _
      | _ => rfl

/-- Two values that are not alike are equal when their order says so. -/
theorem looselyEqualWithin_unlike (unlike : ¬ Alike v w) (depth : Nat) :
    st.looselyEqualWithin (depth + 1) v w = some (st.compareUnlike v w == some .eq) := by
  have falseFirst : ∀ b : Bool, (!b) = (some (Ord.compare false b) == some .eq) := by decide
  have falseLast : ∀ b : Bool, (!b) = (some (Ord.compare b false) == some .eq) := by decide
  have booleans : ∀ b c : Bool, (b == c) = (some (Ord.compare b c) == some .eq) := by decide
  have emptyFirst : ∀ s : String, (s == "") = (some (Ord.compare "" s) == some .eq) := by
    intro s
    rw [Bool.eq_iff_iff, beq_iff_eq, beq_iff_eq, Option.some.injEq, Std.compare_eq_iff_eq, eq_comm]
  have emptyLast : ∀ s : String, (s == "") = (some (Ord.compare s "") == some .eq) := by
    intro s
    rw [Bool.eq_iff_iff, beq_iff_eq, beq_iff_eq, Option.some.injEq, Std.compare_eq_iff_eq]
  cases v with
  | null =>
      cases w with
      | null => rfl
      | boolean b => exact congrArg some (booleans false b)
      | string s => exact congrArg some (emptyFirst s)
      | _ => exact congrArg some (falseFirst _)
  | boolean b =>
      cases w with
      | null => exact congrArg some (booleans b false)
      | _ => exact congrArg some (booleans b _)
  | string s =>
      cases w with
      | null => exact congrArg some (emptyLast s)
      | boolean b => exact congrArg some (booleans _ b)
      | _ => rfl
  | integer _ | float _ =>
      cases w with
      | null => exact congrArg some (falseLast _)
      | boolean b => exact congrArg some (booleans _ b)
      | _ => rfl
  | array a =>
      cases w with
      | null => exact congrArg some (falseLast _)
      | boolean b => exact congrArg some (booleans _ b)
      | array b => exact absurd (.inl ⟨a, b, rfl, rfl⟩) unlike
      | _ => rfl
  | object o =>
      cases w with
      | null => exact congrArg some (falseLast _)
      | boolean b => exact congrArg some (booleans _ b)
      | object p => exact absurd (.inr ⟨o, p, rfl, rfl⟩) unlike
      | _ => rfl

theorem looselyEqual_unlike (unlike : ¬ Alike v w) :
    st.looselyEqual v w = some (st.compareUnlike v w == some .eq) :=
  looselyEqualWithin_unlike unlike _

theorem compare_unlike (unlike : ¬ Alike v w) : st.compare v w = some (st.compareUnlike v w) := by
  cases v with
  | array a =>
      cases w with
      | array b => exact absurd (.inl ⟨a, b, rfl, rfl⟩) unlike
      | _ => rfl
  | object o =>
      cases w with
      | object p => exact absurd (.inr ⟨o, p, rfl, rfl⟩) unlike
      | _ => rfl
  | _ => cases w <;> rfl

/-! Entries under the same keys -/

section entries

variable {κ : Type} {find : κ → Option Value} {entries : List (κ × SlotId)}
  {equal : Value × Value → Option Bool}

theorem besides_true (all : (Comparison.pairs (st.besides find entries)).result equal = some true) :
    ∀ entry ∈ entries, ∃ other, find entry.1 = some other ∧
      equal (st.read entry.2, other) = some true := by
  intro entry member
  have passed := allEnding_eq_true_iff.mp all _ (List.mem_map.mpr ⟨entry, member, rfl⟩)
  cases found : find entry.1 with
  | none => simp [found] at passed
  | some other => exact ⟨other, rfl, by simpa [found] using passed⟩

theorem besides_false
    (one : (Comparison.pairs (st.besides find entries)).result equal = some false) :
    ∃ entry ∈ entries, ∀ other, find entry.1 = some other →
      equal (st.read entry.2, other) = some false := by
  obtain ⟨pair, listed, fails⟩ := exists_of_allEnding_false one
  obtain ⟨entry, member, rfl⟩ := List.mem_map.mp listed
  exact ⟨entry, member, fun other found => by simpa [found] using fails⟩

/-- Two lists with as many entries, none of them with a key twice: where all entries of the one are
equal to those under their keys in the other, none of the other differs from the one under its
key. -/
theorem besides_back [DecidableEq κ] {others : List (κ × SlotId)}
    {differ : Value × Value → Option Bool} (distinct : (Assoc.keys entries).Nodup)
    (distinct' : (Assoc.keys others).Nodup) (length : entries.length = others.length)
    (apart : ∀ v w, equal (v, w) = some true → differ (w, v) ≠ some false)
    (all : (Comparison.pairs (st.besides (fun key => (Assoc.get? others key).map st.read)
      entries)).result equal = some true) :
    (Comparison.pairs (st.besides (fun key => (Assoc.get? entries key).map st.read)
      others)).result differ ≠ some false := by
  intro one
  obtain ⟨entry, member, differs⟩ := besides_false one
  have passed := besides_true all
  have included : Assoc.keys entries ⊆ Assoc.keys others := by
    intro k isKey
    obtain ⟨entry, listed, rfl⟩ := List.mem_map.mp isKey
    obtain ⟨other, found, -⟩ := passed entry listed
    obtain ⟨s, isSlot, -⟩ := Option.map_eq_some_iff.mp found
    exact List.mem_map.mpr ⟨_, Assoc.mem_of_get? isSlot, rfl⟩
  -- As many keys, so that there are no others.
  have same : (Assoc.keys entries).Perm (Assoc.keys others) :=
    (distinct.subperm included).perm_of_length_le (by simp [Assoc.keys, length])
  obtain ⟨partner, listed, sameKey⟩ :=
    List.mem_map.mp (same.mem_iff.mpr (List.mem_map.mpr ⟨entry, member, rfl⟩))
  obtain ⟨other, found, equals⟩ := passed partner listed
  have isOther : other = st.read entry.2 := by
    rw [sameKey, Assoc.get?_of_mem distinct' member, Option.map_some] at found
    exact (Option.some.inj found).symm
  have isPartner : (Assoc.get? entries entry.1).map st.read = some (st.read partner.2) := by
    rw [← sameKey, Assoc.get?_of_mem distinct listed, Option.map_some]
  exact apart _ _ (isOther ▸ equals) (differs _ isPartner)

end entries

/-! Both directions -/

/-- At the depth the store allows, a comparison is its step. -/
theorem Stepwise.unfolds {step : Value × Value → Comparison} {f : Nat → Value × Value → Option Bool}
    (stepwise : Stepwise step f)
    (containers : ∀ pair l inner, step pair = .pairs l → some inner ∈ l → st.Containers pair)
    (pair : Value × Value) :
    f st.comparisonDepth pair = (step pair).result (f st.comparisonDepth) := by
  rw [← stepwise.succ]
  refine Option.ext fun b => ?_
  exact ⟨stepwise.deepens _ _ _, stepwise.ends containers⟩

theorem looselyEqual_step (st : Store) (v w : Value) :
    st.looselyEqual v w =
      (st.equalStep (v, w)).result fun pair => st.looselyEqual pair.1 pair.2 :=
  st.stepwise_equal.unfolds st.containers_of_equalStep (v, w)

theorem equalStep_array {a b : ArrayId} (same : (st.array a).size = (st.array b).size) :
    st.equalStep (.array a, .array b) =
      .pairs (st.besides (st.element? b) (st.array a).elements) := by
  simp [equalStep, same]

theorem equalStep_object {o p : ObjectId} (other : o ≠ p)
    (sameClass : st.className o = st.className p)
    (same : (st.object o).properties.length = (st.object p).properties.length) :
    st.equalStep (.object o, .object p) =
      .pairs (st.besides (st.property? p) (st.object o).properties) := by
  simp [equalStep, other, sameClass, same]

/-- Two values that are equal in one direction are not different in the other. -/
theorem equal_not_different (keyed : st.Keyed) (depth : Nat)
    (equal : st.looselyEqualWithin depth v w = some true) : st.looselyEqual w v ≠ some false := by
  induction depth generalizing v w with
  | zero => cases equal
  | succ depth ih =>
      by_cases alike : Alike v w
      · rw [looselyEqual_step]
        have step := st.looselyEqualWithin_succ depth (v, w)
        rw [equal] at step
        rcases alike with ⟨a, b, rfl, rfl⟩ | ⟨o, p, rfl, rfl⟩
        · by_cases same : (st.array a).size = (st.array b).size
          · rw [equalStep_array same] at step
            rw [equalStep_array same.symm]
            exact besides_back (keyed.elements a) (keyed.elements b) same
              (fun v w equal => ih equal) step.symm
          · simp [equalStep, same, Comparison.result] at step
        · by_cases one : o = p
          · simp [equalStep, one, Comparison.result]
          · by_cases sameClass : st.className o = st.className p
            · by_cases same : (st.object o).properties.length = (st.object p).properties.length
              · rw [equalStep_object one sameClass same] at step
                rw [equalStep_object (Ne.symm one) sameClass.symm same.symm]
                exact besides_back (keyed.properties o) (keyed.properties p) same
                  (fun v w equal => ih equal) step.symm
              · simp [equalStep, one, same, Comparison.result] at step
            · simp [equalStep, one, sameClass, Comparison.result] at step
      · rw [looselyEqualWithin_unlike alike, Option.some.injEq, beq_iff_eq] at equal
        rw [looselyEqual_unlike (fun back => alike back.symm), compareUnlike_swap, equal]
        simp

/-- In both directions two values are equal or neither. -/
theorem looselyEqual_symm (keyed : st.Keyed) {x y : Bool} (forth : st.looselyEqual v w = some x)
    (back : st.looselyEqual w v = some y) : y = x := by
  cases x with
  | true =>
      have notFalse := equal_not_different keyed _ forth
      cases y with
      | true => rfl
      | false => exact absurd back notFalse
  | false =>
      cases y with
      | true => exact absurd forth (equal_not_different keyed _ back)
      | false => rfl

/-- Two arrays of different sizes; their order is that of the sizes. -/
def Unsized (st : Store) (v w : Value) : Prop :=
  ∃ a b, v = .array a ∧ w = .array b ∧ (st.array a).size ≠ (st.array b).size

theorem compare_sizes {a b : ArrayId} (unsized : (st.array a).size ≠ (st.array b).size) :
    st.compare (.array a) (.array b) =
      some (some (Ord.compare (st.array a).size (st.array b).size)) := by
  simp [compare, unsized]

/-- Other arrays, and objects, are equal or have no order. -/
theorem compare_alike (alike : Alike v w) (sized : ¬ st.Unsized v w) :
    st.compare v w =
      (st.looselyEqual v w).map fun equal => if equal then some .eq else none := by
  rcases alike with ⟨a, b, rfl, rfl⟩ | ⟨o, p, rfl, rfl⟩
  · have same : (st.array a).size = (st.array b).size := by
      by_contra apart
      exact sized ⟨a, b, rfl, rfl, apart⟩
    simp only [compare, same, ne_eq, not_true_eq_false, if_false]
  · rfl

/-- Values whose order is decided are equal when that is what the order says. -/
theorem looselyEqual_of_compare {order : Option Ordering} (decided : st.compare v w = some order) :
    st.looselyEqual v w = some (order == some .eq) := by
  by_cases alike : Alike v w
  · by_cases unsized : st.Unsized v w
    · obtain ⟨a, b, rfl, rfl, apart⟩ := unsized
      have unequal : Ord.compare (st.array a).size (st.array b).size ≠ .eq := fun same =>
        apart (Nat.compare_eq_eq.mp same)
      rw [compare_sizes apart, Option.some.injEq] at decided
      rw [looselyEqual_step, ← decided]
      simp [equalStep, apart, Comparison.result, unequal]
    · rw [compare_alike alike unsized] at decided
      obtain ⟨equal, ends, rfl⟩ := Option.map_eq_some_iff.mp decided
      rw [ends]
      cases equal <;> rfl
  · rw [compare_unlike alike, Option.some.injEq] at decided
    rw [looselyEqual_unlike alike, decided]

/-- The order of two values is reversed when they change places. -/
theorem compare_symm (keyed : st.Keyed) {order order' : Option Ordering}
    (forth : st.compare v w = some order) (back : st.compare w v = some order') :
    order' = order.map Ordering.swap := by
  by_cases alike : Alike v w
  · by_cases unsized : st.Unsized v w
    · obtain ⟨a, b, rfl, rfl, apart⟩ := unsized
      rw [compare_sizes apart, Option.some.injEq] at forth
      rw [compare_sizes apart.symm, Option.some.injEq] at back
      rw [← forth, ← back]
      exact TreeScript.compare_swap _ _
    · have unsizedBack : ¬ st.Unsized w v := fun ⟨b, a, isB, isA, apart⟩ =>
        unsized ⟨a, b, isA, isB, apart.symm⟩
      rw [compare_alike alike unsized] at forth
      rw [compare_alike alike.symm unsizedBack] at back
      obtain ⟨equal, ends, rfl⟩ := Option.map_eq_some_iff.mp forth
      obtain ⟨equal', ends', rfl⟩ := Option.map_eq_some_iff.mp back
      rw [looselyEqual_symm keyed ends ends']
      cases equal <;> rfl
  · rw [compare_unlike alike, Option.some.injEq] at forth
    rw [compare_unlike (fun back => alike back.symm), Option.some.injEq] at back
    rw [← forth, ← back, compareUnlike_swap]

end Store
end TreeScript
