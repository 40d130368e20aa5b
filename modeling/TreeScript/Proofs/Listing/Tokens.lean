import TreeScript.Proofs.Decimal.Written

set_option autoImplicit false

/- Words and numbers of code listings. Such a token ends where the listing closes or separates, or
at the point of a step; a point inside a number is followed by a digit, that of a step is not. So a
token at the front of a text is determined. -/
namespace TreeScript

namespace Code

/-- Closes or separates what stands before it. -/
def isCloser (c : Char) : Bool :=
  c == ',' || c == ')' || c == ']' || c == ';' || c == ' ' || c == '\n'

inductive Token : List Char → Prop
  | nil : Token []
  | char {c : Char} {rest : List Char} (inside : isCloser c = false) (notPoint : c ≠ '.')
      (more : Token rest) : Token (c :: rest)
  | point {d : Char} {rest : List Char} (digit : d.isDigit = true) (more : Token rest) :
      Token ('.' :: d :: rest)

/-- What may stand behind a token. -/
inductive Ends : List Char → Prop
  | nil : Ends []
  | closer {c : Char} (rest : List Char) (closes : isCloser c = true) : Ends (c :: rest)
  | link {d : Char} (rest : List Char) (other : d.isDigit = false) : Ends ('.' :: d :: rest)

section tokens

variable {w w' r r' : List Char}

theorem Ends.not_char {c : Char} {rest : List Char} (ends : Ends (c :: rest))
    (inside : isCloser c = false) (notPoint : c ≠ '.') : False := by
  cases ends with
  | closer _ closes =>
      rw [inside] at closes
      cases closes
  | link => exact notPoint rfl

theorem Ends.not_point {d : Char} {rest : List Char} (ends : Ends ('.' :: d :: rest))
    (digit : d.isDigit = true) : False := by
  cases ends with
  | closer _ closes => exact absurd closes (by decide)
  | link _ other =>
      rw [digit] at other
      cases other

/-- A token at the front of a text is determined, and so is what follows it. -/
theorem token_append_inj (token : Token w) (token' : Token w') (ends : Ends r) (ends' : Ends r')
    (same : w ++ r = w' ++ r') : w = w' ∧ r = r' := by
  induction token generalizing w' with
  | nil =>
      cases token' with
      | nil => exact ⟨rfl, same⟩
      | char inside notPoint _ =>
          subst same
          exact (ends.not_char inside notPoint).elim
      | point digit _ =>
          subst same
          exact (ends.not_point digit).elim
  | char inside notPoint more ih =>
      cases token' with
      | nil =>
          subst same
          exact (ends'.not_char inside notPoint).elim
      | char inside' notPoint' more' =>
          obtain ⟨rfl, others⟩ := List.cons.inj same
          obtain ⟨rfl, rests⟩ := ih more' others
          exact ⟨rfl, rests⟩
      | point => exact absurd (List.cons.inj same).1 notPoint
  | point digit more ih =>
      cases token' with
      | nil =>
          subst same
          exact (ends'.not_point digit).elim
      | char _ notPoint' _ => exact absurd (List.cons.inj same).1.symm notPoint'
      | point digit' more' =>
          obtain ⟨rfl, others⟩ := List.cons.inj (List.cons.inj same).2
          obtain ⟨rfl, rests⟩ := ih more' others
          exact ⟨rfl, rests⟩

theorem Token.append (token : Token w) (token' : Token w') : Token (w ++ w') := by
  induction token with
  | nil => exact token'
  | char inside notPoint _ ih => exact .char inside notPoint ih
  | point digit _ ih => exact .point digit ih

theorem token_of_forall (plain : ∀ c ∈ w, isCloser c = false ∧ c ≠ '.') : Token w := by
  induction w with
  | nil => exact .nil
  | cons c rest ih =>
      obtain ⟨⟨inside, notPoint⟩, others⟩ := List.forall_mem_cons.mp plain
      exact .char inside notPoint (ih others)

theorem Token.oneLine (token : Token w) : '\n' ∉ w := by
  induction token with
  | nil => exact List.not_mem_nil
  | char inside _ _ ih =>
      intro member
      rcases List.mem_cons.mp member with rfl | later
      · cases inside
      · exact ih later
  | point digit _ ih =>
      intro member
      rcases List.mem_cons.mp member with same | later
      · cases same
      · rcases List.mem_cons.mp later with rfl | others
        · cases digit
        · exact ih others

end tokens

/-! Numbers -/

theorem digit_plain {c : Char} (digit : c.isDigit = true) : isCloser c = false ∧ c ≠ '.' := by
  have other (d : Char) (notDigit : d.isDigit = false) : c ≠ d := by
    rintro rfl
    rw [digit] at notDigit
    cases notDigit
  refine ⟨?_, other '.' rfl⟩
  simp [isCloser, other ',' rfl, other ')' rfl, other ']' rfl, other ';' rfl, other ' ' rfl,
    other '\n' rfl]

theorem token_digits {ds : List Char} (digits : Digits ds) : Token ds :=
  token_of_forall fun c member => digit_plain (digits c member)

theorem token_minus (negative : Bool) : Token (if negative then ['-'] else []) := by
  cases negative
  · exact .nil
  · exact .char rfl (by decide) .nil

theorem token_fraction {fs : List Char} (places : Digits fs) (any : fs ≠ []) : Token ('.' :: fs) := by
  cases fs with
  | nil => exact absurd rfl any
  | cons d rest =>
      obtain ⟨digit, others⟩ := List.forall_mem_cons.mp places
      exact .point digit (token_digits others)

end Code

open Code (Token token_digits token_minus token_fraction digit_plain) in
theorem MagnitudeText.token {text : List Char} {x : ℚ} (magnitude : MagnitudeText text x) :
    Token text := by
  cases magnitude with
  | positional digits _ places any => exact (token_digits digits).append (token_fraction places any)
  | @scientific c fs ks negative digit places digits _ =>
      have fraction : Token (if fs = [] then [] else '.' :: fs) := by
        split
        · exact .nil
        · next any => exact token_fraction places any
      have power : Token ('e' :: ((if negative then ['-'] else []) ++ ks)) :=
        .char rfl (by decide) ((token_minus negative).append (token_digits digits))
      exact .char (digit_plain digit).1 (digit_plain digit).2 (fraction.append power)

namespace Code

theorem DoubleText.token {d : Binary64} {text : List Char} (written : DoubleText d text) :
    Token text := by
  cases written with
  | nan | infinite | minusInfinite => exact token_of_forall (by simp [isCloser])
  | finite signed magnitude =>
      subst signed
      exact (token_minus _).append magnitude.token

theorem token_float (x : Float) : Token (floatLayout.write x).toList := (doubleText_write x).token

theorem token_natural (n : Nat) : Token (toString n).toList := by
  rw [Nat.toString_eq_repr, Nat.toList_repr]
  exact token_digits (digits_decimal n)

/-- What an integer is written with. -/
theorem integer_plain (n : Int) : ∀ c ∈ (toString n).toList, c.isDigit = true ∨ c = '-' := by
  intro c member
  cases n with
  | ofNat size =>
      rw [toList_toString_natural] at member
      exact .inl (digits_decimal size c member)
  | negSucc size =>
      rw [toList_toString_negative] at member
      rcases List.mem_cons.mp member with minus | digit
      · exact .inr minus
      · exact .inl (digits_decimal _ c digit)

theorem token_integer (n : Int) : Token (toString n).toList := by
  refine token_of_forall fun c member => ?_
  rcases integer_plain n c member with digit | rfl
  · exact digit_plain digit
  · decide

theorem integer_ne_float (n : Int) (x : Float) :
    (toString n).toList ≠ (floatLayout.write x).toList := by
  intro same
  obtain ⟨c, member, notDigit, notMinus⟩ := (doubleText_write x).mark
  rw [← same] at member
  rcases integer_plain n c member with digit | minus
  · rw [digit] at notDigit
    cases notDigit
  · exact notMinus minus

/-- The first character of a number. -/
theorem integer_first (n : Int) :
    ∃ c rest, (toString n).toList = c :: rest ∧ (c.isDigit = true ∨ c = '-') := by
  cases text : (toString n).toList with
  | nil =>
      have some : (toString n).toList ≠ [] := by
        cases n with
        | ofNat size =>
            rw [toList_toString_natural]
            exact Nat.toDigits_ne_nil
        | negSucc size =>
            rw [toList_toString_negative]
            exact List.cons_ne_nil _ _
      exact absurd text some
  | cons c rest =>
      have plain := integer_plain n c (by rw [text]; exact List.mem_cons_self)
      exact ⟨c, rest, rfl, plain⟩

/-! Names -/

/-- A letter or an underscore, then letters, digits and underscores. -/
def IsIdentifier (name : String) : Prop :=
  ∃ c rest, name.toList = c :: rest ∧ (c.isAlpha = true ∨ c = '_') ∧
    ∀ d ∈ rest, d.isAlphanum = true ∨ d = '_'

def isIdentifier (name : String) : Bool :=
  match name.toList with
  | [] => false
  | c :: rest => (c.isAlpha || c == '_') && rest.all fun d => d.isAlphanum || d == '_'

theorem isIdentifier_iff {name : String} : isIdentifier name = true ↔ IsIdentifier name := by
  unfold isIdentifier IsIdentifier
  cases name.toList with
  | nil => simp
  | cons c rest => simp

instance (name : String) : Decidable (IsIdentifier name) := decidable_of_iff _ isIdentifier_iff

theorem IsIdentifier.plain {name : String} (identifier : IsIdentifier name) :
    ∀ c ∈ name.toList, isCloser c = false ∧ c ≠ '.' := by
  obtain ⟨first, rest, spelled, initial, others⟩ := identifier
  have wordly (c : Char) (inWord : c.isAlphanum = true ∨ c = '_') :
      isCloser c = false ∧ c ≠ '.' := by
    have other (d : Char) (notInWord : d.isAlphanum = false) (notMark : d ≠ '_') : c ≠ d := by
      rintro rfl
      rcases inWord with letter | mark
      · rw [letter] at notInWord
        cases notInWord
      · exact notMark mark
    refine ⟨?_, other '.' rfl (by decide)⟩
    simp [isCloser, other ',' rfl (by decide), other ')' rfl (by decide), other ']' rfl (by decide),
      other ';' rfl (by decide), other ' ' rfl (by decide), other '\n' rfl (by decide)]
  intro c member
  rw [spelled] at member
  rcases List.mem_cons.mp member with rfl | later
  · exact wordly c (initial.imp_left fun letter => by simp [Char.isAlphanum, letter])
  · exact wordly c (others c later)

theorem token_name {name : String} (identifier : IsIdentifier name) : Token name.toList :=
  token_of_forall identifier.plain

end Code
end TreeScript
