import Mathlib.Data.Finset.Prod
import TreeScript.Proofs.Store.Nesting

set_option autoImplicit false

/- Depths. What a comparison or a copy gives does not depend on the depth it is allowed, once that is
the depth the store allows: the pairs of containers that a comparison meets one within the other are
all different, and so are the arrays that a copy meets. -/
namespace TreeScript

/-! Tests that end at some depth -/

section tests

variable {π β : Type} {f : Nat → π → Option β}

/-- What a test gives at a depth it gives at every greater one. -/
def Deepens (f : Nat → π → Option β) : Prop :=
  ∀ (d : Nat) (p : π) (b : β), f d p = some b → f (d + 1) p = some b

theorem Deepens.le (deepens : Deepens f) {d d' : Nat} (below : d ≤ d') {p : π} {b : β}
    (ends : f d p = some b) : f d' p = some b := by
  induction below with
  | refl => exact ends
  | step _ ih => exact deepens _ p b ih

/-- The depth is the last at which a test does not end. -/
def Turns (f : Nat → π → Option β) (d : Nat) (p : π) : Prop :=
  f d p = none ∧ (f (d + 1) p).isSome = true

theorem Deepens.turns_unique (deepens : Deepens f) {d d' : Nat} {p : π} (here : Turns f d p)
    (there : Turns f d' p) : d' ≤ d := by
  by_contra above
  obtain ⟨b, ends⟩ := Option.isSome_iff_exists.mp here.2
  have open_ : f d' p = none := there.1
  rw [deepens.le (Nat.lt_of_not_le above) ends] at open_
  cases open_

/-- A test that turns at a depth has one below it that turns one level higher, so that as many of
them are different. -/
theorem Deepens.chain (deepens : Deepens f)
    (below : ∀ d p, Turns f (d + 1) p → ∃ q, Turns f d q) {d : Nat} {p : π} (turns : Turns f d p) :
    ∃ chain : Finset π, chain.card = d ∧ ∀ q ∈ chain, ∃ e < d, Turns f (e + 1) q := by
  classical
  induction d generalizing p with
  | zero => exact ⟨∅, rfl, by simp⟩
  | succ d ih =>
      obtain ⟨q, turnsBelow⟩ := below d p turns
      obtain ⟨chain, length, members⟩ := ih turnsBelow
      have new : p ∉ chain := fun member => by
        obtain ⟨e, less, again⟩ := members p member
        have same := deepens.turns_unique again turns
        omega
      refine ⟨insert p chain, by rw [Finset.card_insert_of_notMem new, length], fun q member => ?_⟩
      rcases Finset.mem_insert.mp member with rfl | earlier
      · exact ⟨d, Nat.lt_succ_self d, turns⟩
      · obtain ⟨e, less, turns⟩ := members q earlier
        exact ⟨e, Nat.lt_succ_of_lt less, turns⟩

/-- A test that ends at all ends at every depth beyond the number of those that do not end at
once. -/
theorem Deepens.ends (deepens : Deepens f)
    (below : ∀ d p, Turns f (d + 1) p → ∃ q, Turns f d q) (bound : Nat)
    (few : ∀ deep : Finset π, (∀ q ∈ deep, ∃ e, Turns f (e + 1) q) → deep.card ≤ bound)
    {d d' : Nat} (enough : bound < d') {p : π} {b : β} (ends : f d p = some b) :
    f d' p = some b := by
  induction d with
  | zero => exact deepens.le (Nat.zero_le d') ends
  | succ d ih =>
      cases earlier : f d p with
      | some b' =>
          obtain rfl := Option.some.inj ((deepens d p b' earlier).symm.trans ends)
          exact ih earlier
      | none =>
          have turns : Turns f d p := ⟨earlier, Option.isSome_iff_exists.mpr ⟨b, ends⟩⟩
          obtain ⟨chain, length, members⟩ := deepens.chain below turns
          have bounded := few chain fun q member => by
            obtain ⟨e, -, turns⟩ := members q member
            exact ⟨e, turns⟩
          exact deepens.le (by omega) ends

variable {α : Type} {test test' : α → Option Bool}

theorem allEnding_mono (later : ∀ x b, test x = some b → test' x = some b) {l : List α} {b : Bool}
    (ends : allEnding test l = some b) : allEnding test' l = some b := by
  induction l with
  | nil => exact ends
  | cons x rest ih =>
      rw [allEnding] at ends ⊢
      cases here : test x with
      | none => simp [here] at ends
      | some passed =>
          rw [here] at ends
          rw [later x passed here]
          cases passed with
          | true => exact ih ends
          | false => exact ends

/-- Where all items together do not end, one of them does not. -/
theorem exists_of_allEnding (later : ∀ x b, test x = some b → test' x = some b) {l : List α}
    (open_ : allEnding test l = none) (ends : (allEnding test' l).isSome = true) :
    ∃ x ∈ l, test x = none ∧ (test' x).isSome = true := by
  induction l with
  | nil => simp [allEnding] at open_
  | cons x rest ih =>
      rw [allEnding] at open_ ends
      cases here : test x with
      | none =>
          refine ⟨x, List.mem_cons_self, here, ?_⟩
          cases there : test' x with
          | none => simp [there] at ends
          | some passed => rfl
      | some passed =>
          rw [here] at open_
          rw [later x passed here] at ends
          cases passed with
          | true =>
              obtain ⟨y, member, found⟩ := ih open_ ends
              exact ⟨y, List.mem_cons_of_mem x member, found⟩
          | false => simp at open_

end tests

namespace Store

/-! Comparisons -/

/-- What a comparison comes down to: an answer, or pairs that are compared one after the other. A
pair that is missing does not match. -/
inductive Comparison where
  | answer (b : Option Bool)
  | pairs (l : List (Option (Value × Value)))

/-- The answer of a comparison, given how its pairs are compared. -/
def Comparison.result (equal : Value × Value → Option Bool) : Comparison → Option Bool
  | .answer b => b
  | .pairs l => allEnding (fun pair => pair.elim (some false) equal) l

/-- The values of entries, each with the one that is found under its key. -/
def besides {κ : Type} (st : Store) (find : κ → Option Value) (entries : List (κ × SlotId)) :
    List (Option (Value × Value)) :=
  entries.map fun entry => (find entry.1).map (st.read entry.2, ·)

def equalStep (st : Store) (pair : Value × Value) : Comparison :=
  match pair.1, pair.2 with
  | .array a, .array b =>
      if (st.array a).size ≠ (st.array b).size then .answer (some false)
      else .pairs (st.besides (st.element? b) (st.array a).elements)
  | .object o, .object p =>
      if o = p then .answer (some true)
      else if st.className o ≠ st.className p ∨
          (st.object o).properties.length ≠ (st.object p).properties.length then
        .answer (some false)
      else .pairs (st.besides (st.property? p) (st.object o).properties)
  | v, w => .answer (st.looselyEqualWithin 1 v w)

def identicalStep (st : Store) (pair : Value × Value) : Comparison :=
  match pair.1, pair.2 with
  | .array a, .array b =>
      if a = b then .answer (some true)
      else if (st.array a).size ≠ (st.array b).size then .answer (some false)
      else .pairs (((st.array a).elements.zip (st.array b).elements).map fun both =>
        if both.1.1 = both.2.1 then some (st.read both.1.2, st.read both.2.2) else none)
  | v, w => .answer (st.identicalWithin 1 v w)

variable {st : Store} {d : Nat}

theorem allEnding_map {α β : Type} (test : β → Option Bool) (f : α → β) (l : List α) :
    allEnding test (l.map f) = allEnding (fun x => test (f x)) l := by
  induction l with
  | nil => rfl
  | cons x rest ih => rw [List.map_cons, allEnding, allEnding, ih]

theorem looselyEqualWithin_succ (st : Store) (d : Nat) (pair : Value × Value) :
    st.looselyEqualWithin (d + 1) pair.1 pair.2 =
      (st.equalStep pair).result fun pair => st.looselyEqualWithin d pair.1 pair.2 := by
  have entries : ∀ {κ : Type} (find : κ → Option Value) (l : List (κ × SlotId)),
      (Comparison.pairs (st.besides find l)).result
        (fun pair => st.looselyEqualWithin d pair.1 pair.2) =
      allEnding (fun entry => (find entry.1).elim (some false)
        (st.looselyEqualWithin d (st.read entry.2))) l := by
    intro κ find l
    rw [Comparison.result, besides, allEnding_map]
    congr 1
    funext entry
    cases find entry.1 <;> rfl
  obtain ⟨v, w⟩ := pair
  cases v with
  | array a =>
      cases w with
      | array b =>
          simp only [equalStep, looselyEqualWithin]
          split
          · rfl
          · rw [entries]
            congr 1
            funext entry
            obtain ⟨key, s⟩ := entry
            dsimp only
            cases st.element? b key <;> rfl
      | _ => rfl
  | object o =>
      cases w with
      | object p =>
          simp only [equalStep, looselyEqualWithin]
          split
          · rfl
          · split
            · rfl
            · rw [entries]
              congr 1
              funext entry
              obtain ⟨name, s⟩ := entry
              dsimp only
              cases st.property? p name <;> rfl
      | _ => rfl
  | _ => cases w <;> rfl

theorem identicalWithin_succ (st : Store) (d : Nat) (pair : Value × Value) :
    st.identicalWithin (d + 1) pair.1 pair.2 =
      (st.identicalStep pair).result fun pair => st.identicalWithin d pair.1 pair.2 := by
  obtain ⟨v, w⟩ := pair
  cases v with
  | array a =>
      cases w with
      | array b =>
          simp only [identicalStep, identicalWithin]
          split
          · rfl
          · split
            · rfl
            · rw [Comparison.result, allEnding_map]
              congr 1
              funext both
              obtain ⟨⟨key, s⟩, key', s'⟩ := both
              dsimp only
              split <;> rfl
      | _ => rfl
  | _ => cases w <;> rfl

/-! The depth of comparisons -/

/-- A comparison by steps, at any depth. -/
structure Stepwise (step : Value × Value → Comparison) (f : Nat → Value × Value → Option Bool) :
    Prop where
  zero : ∀ pair, f 0 pair = none
  succ : ∀ d pair, f (d + 1) pair = (step pair).result (f d)

theorem stepwise_equal (st : Store) :
    Stepwise st.equalStep fun d pair => st.looselyEqualWithin d pair.1 pair.2 :=
  ⟨fun _ => rfl, st.looselyEqualWithin_succ⟩

theorem stepwise_identical (st : Store) :
    Stepwise st.identicalStep fun d pair => st.identicalWithin d pair.1 pair.2 :=
  ⟨fun _ => rfl, st.identicalWithin_succ⟩

section stepwise

variable {step : Value × Value → Comparison} {f : Nat → Value × Value → Option Bool}

theorem Stepwise.deepens (stepwise : Stepwise step f) : Deepens f := by
  intro d
  induction d with
  | zero =>
      intro pair b ends
      rw [stepwise.zero] at ends
      cases ends
  | succ d ih =>
      intro pair b ends
      rw [stepwise.succ] at ends ⊢
      cases found : step pair with
      | answer given =>
          rw [found] at ends
          exact ends
      | pairs l =>
          rw [found] at ends
          refine allEnding_mono (fun inner b ends => ?_) ends
          cases inner with
          | none => exact ends
          | some inner => exact ih inner b ends

/-- A comparison that turns has pairs, and one of them turns a level higher. -/
theorem Stepwise.below (stepwise : Stepwise step f) {pair : Value × Value}
    (turns : Turns f (d + 1) pair) :
    ∃ l, step pair = .pairs l ∧ ∃ inner, some inner ∈ l ∧ Turns f d inner := by
  obtain ⟨open_, ends⟩ := turns
  rw [stepwise.succ] at open_ ends
  cases found : step pair with
  | answer given =>
      rw [found] at open_ ends
      rw [Comparison.result] at open_ ends
      rw [open_] at ends
      cases ends
  | pairs l =>
      rw [found] at open_ ends
      have later : ∀ (inner : Option (Value × Value)) b, inner.elim (some false) (f d) = some b →
          inner.elim (some false) (f (d + 1)) = some b := by
        intro inner b ends
        cases inner with
        | none => exact ends
        | some inner => exact stepwise.deepens d inner b ends
      obtain ⟨inner, member, openInner, endsInner⟩ := exists_of_allEnding later open_ ends
      cases inner with
      | none => cases openInner
      | some inner => exact ⟨l, rfl, inner, member, openInner, endsInner⟩

/-- The number of a container among the arrays and objects of a store. -/
def containerNumber (st : Store) : Value → Nat
  | .array a => a.index
  | .object o => st.arrays.size + o.index
  | _ => 0

/-- Two containers of a store, both arrays or both objects. -/
def Containers (st : Store) (pair : Value × Value) : Prop :=
  (∃ a b, pair = (.array a, .array b) ∧ a.index < st.arrays.size ∧ b.index < st.arrays.size) ∨
    ∃ o p, pair = (.object o, .object p) ∧ o.index < st.objects.size ∧ p.index < st.objects.size

theorem card_containers_le {pairs : Finset (Value × Value)}
    (containers : ∀ pair ∈ pairs, st.Containers pair) :
    pairs.card ≤ (st.arrays.size + st.objects.size) * (st.arrays.size + st.objects.size) := by
  have images : pairs.card ≤ (Finset.range (st.arrays.size + st.objects.size) ×ˢ
      Finset.range (st.arrays.size + st.objects.size)).card := by
    refine Finset.card_le_card_of_injOn
      (fun pair => (st.containerNumber pair.1, st.containerNumber pair.2)) ?_ ?_
    · intro pair member
      simp only [Finset.coe_product, Finset.coe_range, Set.mem_prod, Set.mem_Iio]
      rcases containers pair member with ⟨a, b, rfl, first, second⟩ | ⟨o, p, rfl, first, second⟩
      · exact ⟨Nat.lt_add_right _ first, Nat.lt_add_right _ second⟩
      · exact ⟨Nat.add_lt_add_left first _, Nat.add_lt_add_left second _⟩
    · intro pair member pair' member' same
      obtain ⟨first, second⟩ := Prod.mk.inj same
      rcases containers pair member with ⟨⟨a⟩, ⟨b⟩, rfl, less, -⟩ | ⟨⟨o⟩, ⟨p⟩, rfl, -, -⟩ <;>
      rcases containers pair' member' with ⟨⟨a'⟩, ⟨b'⟩, rfl, less', -⟩ | ⟨⟨o'⟩, ⟨p'⟩, rfl, -, -⟩ <;>
      simp only [containerNumber] at first second
      · rw [first, second]
      · exact absurd (first ▸ less) (Nat.not_lt_of_le (Nat.le_add_right _ _))
      · exact absurd (first ▸ less') (Nat.not_lt_of_le (Nat.le_add_right _ _))
      · rw [Nat.add_left_cancel first, Nat.add_left_cancel second]
  simpa using images

/-- A comparison that ends at some depth gives the same at the depth the store allows. -/
theorem Stepwise.ends (stepwise : Stepwise step f)
    (containers : ∀ pair l inner, step pair = .pairs l → some inner ∈ l → st.Containers pair)
    {pair : Value × Value} {b : Bool} (ends : f d pair = some b) :
    f st.comparisonDepth pair = some b := by
  refine stepwise.deepens.ends (fun d pair turns => ?_)
    ((st.arrays.size + st.objects.size) * (st.arrays.size + st.objects.size))
    (fun deep turns => ?_) ?_ ends
  · obtain ⟨l, -, inner, -, turnsBelow⟩ := stepwise.below turns
    exact ⟨inner, turnsBelow⟩
  · refine card_containers_le fun pair member => ?_
    obtain ⟨e, turns⟩ := turns pair member
    obtain ⟨l, isPairs, inner, listed, -⟩ := stepwise.below turns
    exact containers pair l inner isPairs listed
  · exact Nat.lt_succ_of_le (Nat.mul_le_mul (Nat.le_succ _) (Nat.le_succ _))

end stepwise

theorem mem_besides {κ : Type} {find : κ → Option Value} {entries : List (κ × SlotId)}
    {inner : Value × Value} (member : some inner ∈ st.besides find entries) :
    ∃ entry ∈ entries, ∃ other, find entry.1 = some other := by
  obtain ⟨entry, listed, found⟩ := List.mem_map.mp member
  obtain ⟨other, isOther, -⟩ := Option.map_eq_some_iff.mp found
  exact ⟨entry, listed, other, isOther⟩

theorem inside_of_element? {a : ArrayId} {key : Key} {v : Value}
    (found : st.element? a key = some v) : (Handle.array a).Within st.extent := by
  obtain ⟨s, isSlot, -⟩ := Option.map_eq_some_iff.mp found
  exact inside_of_array (mem_handles_of_slot? isSlot)

theorem inside_of_property {o : ObjectId} {entry : String × SlotId}
    (member : entry ∈ (st.object o).properties) : (Handle.object o).Within st.extent := by
  by_contra outside
  have beyond : st.objects.size ≤ o.index := Nat.le_of_not_lt outside
  simp [object, beyond] at member

theorem inside_of_property? {o : ObjectId} {name : String} {v : Value}
    (found : st.property? o name = some v) : (Handle.object o).Within st.extent := by
  obtain ⟨s, isSlot, -⟩ := Option.map_eq_some_iff.mp found
  exact inside_of_property (Assoc.mem_of_get? isSlot)

theorem containers_of_equalStep (st : Store) (pair : Value × Value)
    (l : List (Option (Value × Value))) (inner : Value × Value)
    (isPairs : st.equalStep pair = .pairs l) (member : some inner ∈ l) : st.Containers pair := by
  obtain ⟨v, w⟩ := pair
  simp only [equalStep] at isPairs
  split at isPairs
  · next _ _ a b =>
      split at isPairs
      · cases isPairs
      · cases isPairs
        obtain ⟨entry, listed, other, found⟩ := mem_besides member
        refine .inl ⟨a, b, rfl, ?_, inside_of_element? found⟩
        exact inside_of_array (List.mem_map.mpr ⟨entry, listed, rfl⟩)
  · next _ _ o p =>
      split at isPairs
      · cases isPairs
      · split at isPairs
        · cases isPairs
        · cases isPairs
          obtain ⟨entry, listed, other, found⟩ := mem_besides member
          exact .inr ⟨o, p, rfl, inside_of_property listed,
            inside_of_property? found⟩
  · cases isPairs

theorem containers_of_identicalStep (st : Store) (pair : Value × Value)
    (l : List (Option (Value × Value))) (inner : Value × Value)
    (isPairs : st.identicalStep pair = .pairs l) (member : some inner ∈ l) :
    st.Containers pair := by
  obtain ⟨v, w⟩ := pair
  simp only [identicalStep] at isPairs
  split at isPairs
  · next _ _ a b =>
      split at isPairs
      · cases isPairs
      · split at isPairs
        · cases isPairs
        · cases isPairs
          obtain ⟨both, listed, -⟩ := List.mem_map.mp member
          obtain ⟨first, second⟩ := List.of_mem_zip listed
          exact .inl ⟨a, b, rfl,
            inside_of_array (List.mem_map.mpr ⟨both.1, first, rfl⟩),
            inside_of_array (List.mem_map.mpr ⟨both.2, second, rfl⟩)⟩
  · cases isPairs

theorem looselyEqual_eq_some_iff {v w : Value} {b : Bool} :
    st.looselyEqual v w = some b ↔ ∃ d, st.looselyEqualWithin d v w = some b := by
  refine ⟨fun ends => ⟨_, ends⟩, ?_⟩
  rintro ⟨d, ends⟩
  exact @Stepwise.ends _ _ _ _ st.stepwise_equal st.containers_of_equalStep (v, w) b ends

theorem identical_eq_some_iff {v w : Value} {b : Bool} :
    st.identical v w = some b ↔ ∃ d, st.identicalWithin d v w = some b := by
  refine ⟨fun ends => ⟨_, ends⟩, ?_⟩
  rintro ⟨d, ends⟩
  exact @Stepwise.ends _ _ _ _ st.stepwise_identical st.containers_of_identicalStep (v, w) b ends

/-! The depth of copies -/

variable {shared : SlotId → Bool} {v : Value}

theorem copyElements_mono {once once' : Value → Store → Option (Value × Store)}
    (later : ∀ v st r, once v st = some r → once' v st = some r) {entries : List (Key × SlotId)}
    {r : List (Key × SlotId) × Store} (done : copyElements shared once entries st = some r) :
    copyElements shared once' entries st = some r := by
  induction entries generalizing st r with
  | nil => exact done
  | cons entry rest ih =>
      obtain ⟨key, s⟩ := entry
      obtain ⟨elements, st'⟩ := r
      obtain ⟨s₁, st₁, more, rfl, others, ⟨kept, rfl, rfl⟩ | ⟨copied, v, st₂, first, rfl, rfl⟩⟩ :=
        copyElements_cons done
      · simp [copyElements, kept, ih others]
      · simp [copyElements, copied, later _ _ _ first, ih others]

theorem deepens_copyWithin (shared : SlotId → Bool) :
    Deepens fun d (from_ : Value × Store) => copyWithin shared d from_.1 from_.2 := by
  intro d
  induction d with
  | zero =>
      rintro ⟨v, st⟩ r done
      rcases v.array_or_plain with ⟨a, rfl⟩ | plain
      · cases done
      · exact (copyWithin_plain plain st).trans ((copyWithin_plain plain st).symm.trans done)
  | succ d ih =>
      rintro ⟨v, st⟩ ⟨v', st'⟩ done
      rcases v.array_or_plain with ⟨a, rfl⟩ | plain
      · obtain ⟨smaller, elements, st₁, same, inner, rfl, rfl⟩ := copyWithin_array done
        obtain rfl : d = smaller := by omega
        have further := copyElements_mono (fun v st r => ih (v, st) r) inner
        simp [copyWithin, further]
      · exact (copyWithin_plain plain st).trans ((copyWithin_plain plain st).symm.trans done)

/-- Beyond the depth the store allows, a copy is what it is there. -/
theorem copyWithin_eq (closed : st.Closed) (inside : ∀ h ∈ v.handles, h.Within st.extent) {d : Nat}
    (deeper : st.arrays.size + 1 ≤ d) :
    copyWithin shared d v st = copyWithin shared (st.arrays.size + 1) v st := by
  rcases v.array_or_plain with ⟨a, rfl⟩ | plain
  · cases done : copyWithin shared (st.arrays.size + 1) (.array a) st with
    | some r => exact (deepens_copyWithin shared).le deeper (p := (.array a, st)) done
    | none =>
        cases done' : copyWithin shared d (.array a) st with
        | none => rfl
        | some r =>
            have copied := copyWithin_copied closed d (.refl st) inside done'
            have ends := copyWithin_isSome closed (st.arrays.size + 1) a ∅
              (by simpa using inside _ List.mem_cons_self) (by simp)
              (copied.copyable.no_cycle a rfl) (by simp) (.refl st)
            rw [done] at ends
            cases ends
  · rw [copyWithin_plain plain, copyWithin_plain plain]

end Store
end TreeScript
