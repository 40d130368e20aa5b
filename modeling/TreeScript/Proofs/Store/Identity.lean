import TreeScript.Proofs.Store.Comparing
import TreeScript.Proofs.Store.Likeness

set_option autoImplicit false

/- Strict identity. Arrays are compared element by element in order, unless they are one and the
same; without NaN that gives what the elements would give. So identity is an equivalence, does not
tell a copy from its original, and is finer than loose equality. -/
namespace TreeScript
namespace Store

variable {st st' : Store} {v w x : Value}

/-- What a value is, or has in its arrays at any depth. What is in objects plays no part: they are
compared by their handles. -/
inductive Has (st : Store) : Value → Value → Prop
  | self (v : Value) : Has st v v
  | element {a : ArrayId} {entry : Key × SlotId} {x : Value}
      (member : entry ∈ (st.array a).elements) (inner : Has st (st.read entry.2) x) :
      Has st (.array a) x

/-- No float in a value is NaN. -/
def FreeOfNaN (st : Store) (v : Value) : Prop := ∀ x : Float, st.Has v (.float x) → x.isNaN = false

theorem FreeOfNaN.element {a : ArrayId} (free : st.FreeOfNaN (.array a)) {entry : Key × SlotId}
    (member : entry ∈ (st.array a).elements) : st.FreeOfNaN (st.read entry.2) :=
  fun x inner => free x (.element member inner)

/-! Comparison in order -/

/-- The values of two lists of entries, one beside the other as long as the keys are the same. -/
def inOrder (st : Store) (entries others : List (Key × SlotId)) : List (Option (Value × Value)) :=
  (entries.zip others).map fun both =>
    if both.1.1 = both.2.1 then some (st.read both.1.2, st.read both.2.2) else none

theorem identical_step (st : Store) (v w : Value) :
    st.identical v w = (st.identicalStep (v, w)).result fun pair => st.identical pair.1 pair.2 :=
  st.stepwise_identical.unfolds st.containers_of_identicalStep (v, w)

theorem identicalStep_array {a b : ArrayId} (other : a ≠ b)
    (same : (st.array a).size = (st.array b).size) :
    st.identicalStep (.array a, .array b) =
      .pairs (st.inOrder (st.array a).elements (st.array b).elements) := by
  simp [identicalStep, inOrder, other, same]

/-- Entries one beside the other under the same keys, with values that are equal. -/
def Matching (st : Store) (equal : Value × Value → Option Bool) :
    List (Key × SlotId) → List (Key × SlotId) → Prop :=
  List.Forall₂ fun entry other =>
    entry.1 = other.1 ∧ equal (st.read entry.2, st.read other.2) = some true

section inOrder

variable {equal equal' : Value × Value → Option Bool} {entry other : Key × SlotId}
  {entries others : List (Key × SlotId)}

theorem matching_cons :
    st.Matching equal (entry :: entries) (other :: others) ↔
      (entry.1 = other.1 ∧ equal (st.read entry.2, st.read other.2) = some true) ∧
        st.Matching equal entries others := List.forall₂_cons

theorem inOrder_cons_of_eq (same : entry.1 = other.1) :
    (Comparison.pairs (st.inOrder (entry :: entries) (other :: others))).result equal =
      (equal (st.read entry.2, st.read other.2)).bind fun equals =>
        if equals then (Comparison.pairs (st.inOrder entries others)).result equal
        else some false := by
  simp only [inOrder, Comparison.result, allEnding, List.zip_cons_cons, List.map_cons, if_pos same,
    Option.elim_some]
  cases equal (st.read entry.2, st.read other.2) with
  | none => rfl
  | some equals => cases equals <;> rfl

theorem inOrder_cons_of_ne (different : entry.1 ≠ other.1) :
    (Comparison.pairs (st.inOrder (entry :: entries) (other :: others))).result equal =
      some false := by
  simp [inOrder, Comparison.result, allEnding, different]

theorem inOrder_true_iff (length : entries.length = others.length) :
    (Comparison.pairs (st.inOrder entries others)).result equal = some true ↔
      st.Matching equal entries others := by
  induction entries generalizing others with
  | nil =>
      have none : others = [] := List.eq_nil_of_length_eq_zero length.symm
      simp [none, inOrder, Comparison.result, allEnding, Matching]
  | cons entry rest ih =>
      cases others with
      | nil => cases length
      | cons other more =>
          rw [matching_cons, ← ih (Nat.succ.inj length)]
          by_cases same : entry.1 = other.1
          · rw [inOrder_cons_of_eq same]
            cases equal (st.read entry.2, st.read other.2) with
            | none => simp
            | some equals => cases equals <;> simp [same]
          · simp [inOrder_cons_of_ne same, same]

theorem inOrder_comm (comm : ∀ v w, equal (w, v) = equal (v, w)) :
    (Comparison.pairs (st.inOrder others entries)).result equal =
      (Comparison.pairs (st.inOrder entries others)).result equal := by
  induction entries generalizing others with
  | nil => simp [inOrder]
  | cons entry rest ih =>
      cases others with
      | nil => simp [inOrder]
      | cons other more =>
          by_cases same : entry.1 = other.1
          · rw [inOrder_cons_of_eq same, inOrder_cons_of_eq same.symm, comm, ih]
          · rw [inOrder_cons_of_ne same, inOrder_cons_of_ne (Ne.symm same)]

theorem Matching.partner (matching : st.Matching equal entries others) (member : entry ∈ entries) :
    ∃ other ∈ others, entry.1 = other.1 ∧
      equal (st.read entry.2, st.read other.2) = some true := by
  induction matching with
  | nil => cases member
  | @cons first first' rest rest' here _ ih =>
      rcases List.mem_cons.mp member with rfl | later
      · exact ⟨first', List.mem_cons_self, here⟩
      · obtain ⟨other, listed, found⟩ := ih later
        exact ⟨other, List.mem_cons_of_mem _ listed, found⟩

theorem Matching.trans {equal'' : Value × Value → Option Bool} {more : List (Key × SlotId)}
    (values : ∀ u v w, equal (u, v) = some true → equal' (v, w) = some true →
      equal'' (u, w) = some true) (first : st.Matching equal entries others)
    (second : st.Matching equal' others more) : st.Matching equal'' entries more := by
  induction first generalizing more with
  | nil =>
      cases second
      exact .nil
  | cons here _ ih =>
      obtain _ | ⟨here', later⟩ := second
      exact .cons ⟨here.1.trans here'.1, values _ _ _ here.2 here'.2⟩ (ih later)

/-- A comparison in order gives what it gave when the entries on the left change places with others
under the same keys that compare alike. -/
theorem inOrder_replaced {replaced : List (Key × SlotId)}
    (keys : Assoc.keys replaced = Assoc.keys entries)
    (alike : ∀ pair ∈ entries.zip replaced, ∀ other ∈ others, ∀ b,
      equal (st.read pair.1.2, st.read other.2) = some b →
        equal' (st'.read pair.2.2, st'.read other.2) = some b)
    {b : Bool} (ends : (Comparison.pairs (st.inOrder entries others)).result equal = some b) :
    (Comparison.pairs (st'.inOrder replaced others)).result equal' = some b := by
  induction entries generalizing replaced others with
  | nil =>
      have none : replaced = [] := by simpa [Assoc.keys] using keys
      rw [none]
      exact ends
  | cons entry rest ih =>
      cases replaced with
      | nil => simp [Assoc.keys] at keys
      | cons first more =>
          obtain ⟨sameKey, sameKeys⟩ : first.1 = entry.1 ∧ Assoc.keys more = Assoc.keys rest := by
            simpa [Assoc.keys] using keys
          cases others with
          | nil => exact ends
          | cons other others =>
              obtain ⟨here, later⟩ := List.forall_mem_cons.mp alike
              have alikeLater : ∀ pair ∈ rest.zip more, ∀ other ∈ others, ∀ b,
                  equal (st.read pair.1.2, st.read other.2) = some b →
                    equal' (st'.read pair.2.2, st'.read other.2) = some b :=
                fun pair member other listed =>
                  later pair member other (List.mem_cons_of_mem _ listed)
              by_cases same : entry.1 = other.1
              · rw [inOrder_cons_of_eq same, Option.bind_eq_some_iff] at ends
                obtain ⟨equals, compared, ends⟩ := ends
                rw [inOrder_cons_of_eq (sameKey.trans same),
                  here other List.mem_cons_self equals compared, Option.bind_some]
                cases equals with
                | true => exact ih sameKeys alikeLater ends
                | false => exact ends
              · rw [inOrder_cons_of_ne same] at ends
                rw [inOrder_cons_of_ne (sameKey ▸ same)]
                exact ends

end inOrder

/-- Two arrays are identical when they are one, or their elements match. -/
theorem identicalStep_true_iff {a b : ArrayId} {equal : Value × Value → Option Bool} :
    (st.identicalStep (.array a, .array b)).result equal = some true ↔
      a = b ∨ st.Matching equal (st.array a).elements (st.array b).elements := by
  by_cases one : a = b
  · simp [identicalStep, one, Comparison.result]
  · by_cases same : (st.array a).size = (st.array b).size
    · rw [identicalStep_array one same, inOrder_true_iff same]
      simp [one]
    · have apart : ¬ st.Matching equal (st.array a).elements (st.array b).elements :=
        fun matching => same matching.length_eq
      simp [identicalStep, one, same, apart, Comparison.result]

theorem identical_array_iff {a b : ArrayId} :
    st.identical (.array a) (.array b) = some true ↔
      a = b ∨ st.Matching (fun pair => st.identical pair.1 pair.2) (st.array a).elements
        (st.array b).elements := by
  rw [identical_step, identicalStep_true_iff]

/-- An array is identical to arrays only. -/
theorem isArray_of_identical {a : ArrayId} (same : st.identical (.array a) w = some true) :
    ∃ b, w = .array b := by
  cases w with
  | array b => exact ⟨b, rfl⟩
  | _ => cases same

/-! An equivalence -/

/-- What is no array is identical to what it equals. Floats are compared as numbers. -/
theorem identicalWithin_plain_iff (plain : ∀ a, v ≠ .array a) (depth : Nat) :
    st.identicalWithin (depth + 1) v w = some true ↔
      (v = w ∧ ∀ x, v ≠ .float x) ∨ ∃ x y, v = .float x ∧ w = .float y ∧ (x == y) = true := by
  cases v with
  | array a => exact absurd rfl (plain a)
  | _ => cases w <;> simp [identicalWithin]

theorem identical_plain_iff (plain : ∀ a, v ≠ .array a) :
    st.identical v w = some true ↔
      (v = w ∧ ∀ x, v ≠ .float x) ∨ ∃ x y, v = .float x ∧ w = .float y ∧ (x == y) = true :=
  identicalWithin_plain_iff plain _

theorem identical_refl (free : st.FreeOfNaN v) : st.identical v v = some true := by
  rcases v.array_or_plain with ⟨a, rfl⟩ | plain
  · rw [identical_step]
    simp [identicalStep, Comparison.result]
  · rw [identical_plain_iff plain]
    by_cases isFloat : ∃ x, v = .float x
    · obtain ⟨x, rfl⟩ := isFloat
      exact .inr ⟨x, x, rfl, rfl, float_beq_self (free x (.self _))⟩
    · exact .inl ⟨rfl, fun x same => isFloat ⟨x, same⟩⟩

/-- Without NaN, the elements of an array are identical to themselves as well. -/
theorem matching_self {a : ArrayId} (free : st.FreeOfNaN (.array a)) :
    st.Matching (fun pair => st.identical pair.1 pair.2) (st.array a).elements
      (st.array a).elements :=
  List.forall₂_same.mpr fun _ member => ⟨rfl, identical_refl (free.element member)⟩

/-- So that two arrays are one makes no difference to what their elements give. -/
theorem identical_array_eq {a b : ArrayId} (free : st.FreeOfNaN (.array a))
    (same : (st.array a).size = (st.array b).size) :
    st.identical (.array a) (.array b) =
      (Comparison.pairs (st.inOrder (st.array a).elements (st.array b).elements)).result
        fun pair => st.identical pair.1 pair.2 := by
  by_cases one : a = b
  · subst one
    rw [identical_refl free, (inOrder_true_iff rfl).mpr (matching_self free)]
  · rw [identical_step, identicalStep_array one same]

theorem identicalWithin_comm (depth : Nat) (v w : Value) :
    st.identicalWithin depth w v = st.identicalWithin depth v w := by
  induction depth generalizing v w with
  | zero => rfl
  | succ depth ih =>
      cases v with
      | array a =>
          cases w with
          | array b =>
              have forth := st.identicalWithin_succ depth (.array a, .array b)
              have back := st.identicalWithin_succ depth (.array b, .array a)
              rw [forth, back]
              by_cases one : a = b
              · rw [one]
              · by_cases same : (st.array a).size = (st.array b).size
                · rw [identicalStep_array one same, identicalStep_array (Ne.symm one) same.symm]
                  exact inOrder_comm fun v w => ih v w
                · simp [identicalStep, one, Ne.symm one, same, Ne.symm same, Comparison.result]
          | _ => rfl
      | float x =>
          cases w with
          | float y => exact congrArg some (float_beq_comm y x)
          | _ => rfl
      | _ => cases w <;> simp [identicalWithin, Bool.beq_comm, eq_comm]

/-- Identity is the same in both directions, and ends in both or in neither. -/
theorem identical_comm (st : Store) (v w : Value) : st.identical w v = st.identical v w :=
  identicalWithin_comm _ v w

theorem identical_trans {u : Value} (depth : Nat)
    (first : st.identicalWithin depth u v = some true) (second : st.identical v w = some true) :
    st.identical u w = some true := by
  induction depth generalizing u v w with
  | zero => cases first
  | succ depth ih =>
      rcases u.array_or_plain with ⟨a, rfl⟩ | plain
      · obtain ⟨b, rfl⟩ := isArray_of_identical (identical_eq_some_iff.mpr ⟨_, first⟩)
        obtain ⟨c, rfl⟩ := isArray_of_identical second
        have step := st.identicalWithin_succ depth (.array a, .array b)
        rw [first] at step
        rcases identicalStep_true_iff.mp step.symm with rfl | matching
        · exact second
        · rcases identical_array_iff.mp second with rfl | matching'
          · exact identical_eq_some_iff.mpr ⟨_, first⟩
          · exact identical_array_iff.mpr (.inr (matching.trans (fun u v w => ih) matching'))
      · rcases (identicalWithin_plain_iff plain depth).mp first with
          ⟨rfl, -⟩ | ⟨x, y, rfl, rfl, same⟩
        · exact second
        · have plain' : ∀ a, Value.float y ≠ .array a := fun a => Value.noConfusion
          rcases (identical_plain_iff plain').mp second with ⟨-, noFloat⟩ | ⟨y', z, isY, rfl, same'⟩
          · exact absurd rfl (noFloat y)
          · cases isY
            exact (identical_plain_iff plain).mpr
              (.inr ⟨x, z, rfl, rfl, float_beq_trans same same'⟩)

/-! Copies -/

/-- Where everything is as it was, values are as identical as they were. -/
theorem Extends.identicalWithin (ext : Extends st st') (closed : st.Closed) (depth : Nat)
    (inside : ∀ h ∈ v.handles, h.Within st.extent) (inside' : ∀ h ∈ w.handles, h.Within st.extent)
    {b : Bool} (ends : st.identicalWithin depth v w = some b) :
    st'.identicalWithin depth v w = some b := by
  induction depth generalizing v w b with
  | zero => cases ends
  | succ depth ih =>
      cases v with
      | array a =>
          cases w with
          | array c =>
              have here : (Handle.array a).Within st.extent := inside _ List.mem_cons_self
              have here' : (Handle.array c).Within st.extent := inside' _ List.mem_cons_self
              have before := st.identicalWithin_succ depth (.array a, .array c)
              have after := st'.identicalWithin_succ depth (.array a, .array c)
              rw [ends] at before
              rw [after]
              by_cases one : a = c
              · simpa [identicalStep, one, Comparison.result] using before.symm
              · have array := ext.arrays a here
                have array' := ext.arrays c here'
                by_cases same : (st.array a).size = (st.array c).size
                · rw [identicalStep_array one same] at before
                  rw [identicalStep_array one (by rw [array, array', same]), array, array']
                  refine inOrder_replaced rfl (fun pair member other listed b ends => ?_)
                    before.symm
                  obtain ⟨entry, known, rfl⟩ : ∃ entry ∈ (st.array a).elements,
                      (entry, entry) = pair := by
                    rwa [List.zip_eq_zipWith, List.zipWith_self, List.mem_map] at member
                  have slot := closed.element here known
                  have slot' := closed.element here' listed
                  rw [ext.slots _ slot, ext.slots _ slot']
                  exact ih (closed.read slot) (closed.read slot') ends
                · rw [before]
                  simp [identicalStep, one, same, array, array', Comparison.result]
          | _ => exact ends
      | _ => cases w <;> exact ends

theorem Extends.identical (ext : Extends st st') (closed : st.Closed)
    (inside : ∀ h ∈ v.handles, h.Within st.extent) (inside' : ∀ h ∈ w.handles, h.Within st.extent)
    {b : Bool} (ends : st.identical v w = some b) : st'.identical v w = some b :=
  identical_eq_some_iff.mpr ⟨_, ext.identicalWithin closed _ inside inside' ends⟩

/-- A copy is as identical to what was there as its original. -/
theorem Copied.identical {shared : SlotId → Bool} {v' : Value} (copied : Copied shared st st' v v')
    (ext : Extends st st') (closed : st.Closed) (free : st.FreeOfNaN v)
    (inside : ∀ h ∈ v.handles, h.Within st.extent) (inside' : ∀ h ∈ w.handles, h.Within st.extent)
    {b : Bool} (ends : st.identical v w = some b) : st'.identical v' w = some b := by
  induction copied generalizing w b with
  | plain plain => exact ext.identical closed inside inside' ends
  | @array a c new nextIndex pointer keys kept fresh copied ih =>
      cases w with
      | array d =>
          have here : (Handle.array a).Within st.extent := inside _ List.mem_cons_self
          have here' : (Handle.array d).Within st.extent := inside' _ List.mem_cons_self
          have array' := ext.arrays d here'
          have sizes : (st'.array c).size = (st.array a).size := by
            simpa [ArrayData.size, Assoc.keys] using congrArg List.length keys
          have other : c ≠ d := by
            rintro rfl
            exact new.1 here'
          rw [identical_step]
          by_cases same : (st.array a).size = (st.array d).size
          · rw [identical_array_eq free same] at ends
            rw [identicalStep_array other (by rw [sizes, array', same]), array']
            refine inOrder_replaced keys (fun pair member entry listed b ends => ?_) ends
            have known := (mem_elements_of_pair member).1
            have slot := closed.element here known
            have slot' := closed.element here' listed
            rw [ext.slots _ slot']
            cases isShared : shared pair.1.2 with
            | true =>
                rw [kept pair member isShared, ext.slots _ slot]
                exact ext.identical closed (closed.read slot) (closed.read slot') ends
            | false =>
                exact ih pair member isShared (free.element known) (closed.read slot)
                  (closed.read slot') ends
          · have apart : a ≠ d := fun one => same (one ▸ rfl)
            rw [identical_step] at ends
            simp only [identicalStep, apart, same, Comparison.result, if_false, ne_eq,
              not_false_eq_true, if_true] at ends
            simp [identicalStep, other, sizes, array', same, Comparison.result, ends]
      | _ => exact ends

/-! Finer than loose equality -/

/-- In its order a scalar that is no float is equal to itself: a numeric text is never NaN. -/
theorem compareUnlike_self (plain : ∀ a, v ≠ .array a) (object : ∀ o, v ≠ .object o)
    (float : ∀ x, v ≠ .float x) : st.compareUnlike v v = some .eq := by
  cases v with
  | null => rfl
  | boolean b => exact congrArg some Std.ReflOrd.compare_self
  | integer n => exact congrArg some Std.ReflOrd.compare_self
  | float x => exact absurd rfl (float x)
  | string s =>
      change compareTexts s s = some .eq
      unfold compareTexts
      cases number : numericText s with
      | none => exact congrArg some Std.ReflOrd.compare_self
      | some n =>
          cases n with
          | integer n => exact congrArg some Std.ReflOrd.compare_self
          | float x =>
              exact (float_beq_iff_compare x x).mp (float_beq_self (numericText_number number))
  | array a => exact absurd rfl (plain a)
  | object o => exact absurd rfl (object o)

/-- Identical values are not found different, to whatever depth they are compared. -/
theorem identical_not_different (keyed : st.Keyed) (depth : Nat) (free : st.FreeOfNaN v)
    (same : st.identical v w = some true) : st.looselyEqualWithin depth v w ≠ some false := by
  induction depth generalizing v w with
  | zero => simp [looselyEqualWithin]
  | succ depth ih =>
      intro differs
      rcases v.array_or_plain with ⟨a, rfl⟩ | plain
      · obtain ⟨b, rfl⟩ := isArray_of_identical same
        have matching : st.Matching (fun pair => st.identical pair.1 pair.2) (st.array a).elements
            (st.array b).elements := by
          rcases identical_array_iff.mp same with rfl | matching
          · exact matching_self free
          · exact matching
        have step := st.looselyEqualWithin_succ depth (.array a, .array b)
        rw [differs, equalStep_array matching.length_eq] at step
        obtain ⟨entry, member, differs⟩ := besides_false step.symm
        -- The element in the same place has the same key, so it is the one that is looked up.
        obtain ⟨other, listed, sameKey, same⟩ := matching.partner member
        have found : st.element? b entry.1 = some (st.read other.2) := by
          have slot : (st.array b).slot? entry.1 = some other.2 :=
            sameKey ▸ Assoc.get?_of_mem (keyed.elements b) listed
          rw [element?, slot, Option.map_some]
        exact ih (free.element member) same (differs _ found)
      · rcases (identical_plain_iff plain).mp same with ⟨rfl, noFloat⟩ | ⟨x, y, rfl, rfl, equal⟩
        · by_cases object : ∃ o, v = .object o
          · obtain ⟨o, rfl⟩ := object
            simp [looselyEqualWithin] at differs
          · have noObject : ∀ o, v ≠ .object o := fun o isObject => object ⟨o, isObject⟩
            have unlike : ¬ Alike v v := by
              rintro (⟨a, -, isArray, -⟩ | ⟨o, -, isObject, -⟩)
              · exact plain a isArray
              · exact noObject o isObject
            rw [looselyEqualWithin_unlike unlike, compareUnlike_self plain noObject noFloat]
              at differs
            cases differs
        · have ordered : st.compareUnlike (.float x) (.float y) = some .eq :=
            (float_beq_iff_compare x y).mp equal
          have unlike : ¬ Alike (.float x) (.float y) := by
            rintro (⟨a, -, isArray, -⟩ | ⟨o, -, isObject, -⟩)
            · cases isArray
            · cases isObject
          rw [looselyEqualWithin_unlike unlike, ordered] at differs
          cases differs

/-- On values without NaN strict identity is reflexive, symmetric and transitive; that arrays are
one gives what their elements give; a copy is as identical to any value as its original, from either
side; and identical values are loosely equal, where that comparison ends. -/
theorem identity_finer_equivalence (closed : st.Closed) (keyed : st.Keyed) {u v w : Value}
    (inside : ∀ h ∈ v.handles, h.Within st.extent) (inside' : ∀ h ∈ w.handles, h.Within st.extent)
    (free : st.FreeOfNaN v) :
    st.identical v v = some true ∧
    st.identical w v = st.identical v w ∧
    (st.identical u v = some true → st.identical v w = some true →
      st.identical u w = some true) ∧
    (∀ a b, v = .array a → w = .array b → (st.array a).size = (st.array b).size →
      st.identical v w =
        (Comparison.pairs (st.inOrder (st.array a).elements (st.array b).elements)).result
          fun pair => st.identical pair.1 pair.2) ∧
    (∀ roots v' st' b, st.copy roots v = some (v', st') → st.identical v w = some b →
      st'.identical v w = some b ∧ st'.identical v' w = some b ∧ st'.identical w v' = some b) ∧
    ∀ b, st.identical v w = some true → st.looselyEqual v w = some b → b = true := by
  refine ⟨identical_refl free, st.identical_comm v w, identical_trans _, ?_, ?_, ?_⟩
  · rintro a b rfl rfl same
    exact identical_array_eq free same
  · intro roots v' st' b done ends
    have ext := copy_extends done
    have copied := (copy_copied closed inside done).identical ext closed free inside inside' ends
    refine ⟨ext.identical closed inside inside' ends, copied, ?_⟩
    rw [identical_comm]
    exact copied
  · intro b same ends
    cases b with
    | true => rfl
    | false => exact absurd ends (identical_not_different keyed _ free same)

theorem ringed_keyed : ringed.Keyed where
  elements a := by
    obtain ⟨_ | _ | n⟩ := a
    · decide
    · decide
    · exact List.nodup_nil
  properties o := List.nodup_nil

theorem ringed_free (a : ArrayId) : ringed.FreeOfNaN (.array a) := by
  have noFloat : ∀ (s : SlotId) (x : Float), ringed.read s ≠ .float x := by
    rintro ⟨_ | _ | _ | _ | n⟩ x isFloat <;> cases isFloat
  have none : ∀ {v w : Value}, ringed.Has v w → (∀ x, v ≠ .float x) → ∀ x, w ≠ .float x := by
    intro v w has
    induction has with
    | self v => exact id
    | element member _ ih => exact fun _ => ih (noFloat _)
  exact fun x has => absurd rfl (none has (fun _ => Value.noConfusion) x)

/-- The array that holds itself is identical to its copy. -/
theorem identity_finer_equivalence_ringed :
    (∃ copy st', ringed.copy [.slot ⟨0⟩, .array ⟨0⟩] (.array ⟨0⟩) = some (copy, st') ∧
      st'.identical copy (.array ⟨0⟩) = some true) ∧
    ringed.looselyEqual (.array ⟨1⟩) (.array ⟨1⟩) = some true := by
  have closed : ringed.Closed := closed_of_contents (by decide +kernel)
  have inside : ∀ a < 2, ∀ h ∈ (Value.array ⟨a⟩).handles, h.Within ringed.extent := by
    simp [Value.handles, Handle.Within, extent, ringed]
  have law (a : Nat) (there : a < 2) := identity_finer_equivalence (u := .array ⟨a⟩) closed
    ringed_keyed (inside a there) (inside a there) (ringed_free ⟨a⟩)
  constructor
  · have made : (ringed.copy [.slot ⟨0⟩, .array ⟨0⟩] (.array ⟨0⟩)).isSome = true := by
      decide +kernel
    obtain ⟨⟨copy, st'⟩, done⟩ := Option.isSome_iff_exists.mp made
    obtain ⟨same, -, -, -, copies, -⟩ := law 0 (by decide)
    exact ⟨copy, st', done, (copies _ _ _ _ done same).2.1⟩
  · obtain ⟨same, -, -, -, -, finer⟩ := law 1 (by decide)
    have ends : (ringed.looselyEqual (.array ⟨1⟩) (.array ⟨1⟩)).isSome = true := by decide +kernel
    obtain ⟨b, ends⟩ := Option.isSome_iff_exists.mp ends
    rw [ends, finer b same ends]

end Store
end TreeScript
