import TreeScript.Proofs.Increments.Successor

set_option autoImplicit false

/- The successor of a text, byte by byte. A loop over the bytes of a text that knows nothing of its
characters leaves the bytes of its successor. -/
namespace TreeScript

def isAlphanumericByte (b : UInt8) : Bool :=
  (48 ≤ b && b ≤ 57) || (65 ≤ b && b ≤ 90) || (97 ≤ b && b ≤ 122)

/-- Steps bytes from the last one, given in reverse, and reports a carry out of the first. -/
def stepBytes : List UInt8 → List UInt8 × Bool
  | [] => ([], true)
  | b :: rest =>
      let carry (first : UInt8) :=
        let (rest, overflow) := stepBytes rest
        (first :: rest, overflow)
      if b = 122 then carry 97
      else if b = 90 then carry 65
      else if b = 57 then carry 48
      else if isAlphanumericByte b then ((b + 1) :: rest, false)
      else (b :: rest, false)

/-- The byte in front of bytes that were carried out of. -/
def carriedByte : List UInt8 → List UInt8
  | b :: _ => if b = 48 then [49] else if b = 97 then [97] else if b = 65 then [65] else []
  | [] => []

def successorBytes (bytes : List UInt8) : List UInt8 :=
  let (reversed, overflow) := stepBytes bytes.reverse
  if overflow then carriedByte reversed.reverse ++ reversed.reverse else reversed.reverse

/-- The bytes of characters. -/
def encode (cs : List Char) : List UInt8 := cs.flatMap String.utf8EncodeChar

/-- The bytes of characters given in reverse, in reverse. -/
def encodeReversed (cs : List Char) : List UInt8 := (encode cs.reverse).reverse

theorem toByteArray_ofList (cs : List Char) :
    (String.ofList cs).toByteArray.data.toList = encode cs := by
  rw [String.toByteArray_ofList, List.utf8Encode, List.toList_data_toByteArray]
  rfl

theorem encode_cons (c : Char) (cs : List Char) :
    encode (c :: cs) = String.utf8EncodeChar c ++ encode cs := rfl

theorem encodeReversed_cons (c : Char) (cs : List Char) :
    encodeReversed (c :: cs) = (String.utf8EncodeChar c).reverse ++ encodeReversed cs := by
  simp [encodeReversed, encode]

/-! One character -/

theorem encodeChar_ascii {c : Char} (ascii : c.toNat < 128) :
    String.utf8EncodeChar c = [UInt8.ofNat c.toNat] := by
  rw [String.utf8EncodeChar]
  exact if_pos (Nat.le_of_lt_succ ascii)

theorem toNat_ofNat_ascii {n : Nat} (ascii : n < 128) : (UInt8.ofNat n).toNat = n := by
  rw [UInt8.toNat_ofNat']
  omega

/-- All bytes of a character beyond the first 128 are beyond them. -/
theorem encodeChar_beyond {c : Char} (beyond : 128 ≤ c.toNat) :
    ∀ b ∈ String.utf8EncodeChar c, 128 ≤ b.toNat := by
  have notAscii : ¬ c.val.toNat ≤ 0x7f := Nat.not_le.mpr beyond
  simp only [String.utf8EncodeChar, if_neg notAscii]
  intro b member
  split at member
  · simp only [List.mem_cons, List.not_mem_nil, or_false] at member
    rcases member with rfl | rfl <;> simp only [UInt8.toNat_ofNat'] <;> omega
  · split at member
    · simp only [List.mem_cons, List.not_mem_nil, or_false] at member
      rcases member with rfl | rfl | rfl <;> simp only [UInt8.toNat_ofNat'] <;> omega
    · simp only [List.mem_cons, List.not_mem_nil, or_false] at member
      rcases member with rfl | rfl | rfl | rfl <;> simp only [UInt8.toNat_ofNat'] <;> omega

theorem stepBytes_char (k : CharClass) {i : Nat} (inside : i < k.size) (rest : List UInt8) :
    stepBytes (.ofNat (k.char i).toNat :: rest) =
      if i + 1 = k.size then (.ofNat k.first.toNat :: (stepBytes rest).1, (stepBytes rest).2)
      else (.ofNat (k.char (i + 1)).toNat :: rest, false) := by
  by_cases last : i + 1 = k.size
  · obtain rfl : i = k.size - 1 := by omega
    rw [if_pos last]
    cases k <;> rfl
  · have next : let b : UInt8 := .ofNat (k.char i).toNat
        b ≠ 122 ∧ b ≠ 90 ∧ b ≠ 57 ∧ isAlphanumericByte b = true ∧
          b + 1 = .ofNat (k.char (i + 1)).toNat := by
      revert i
      cases k <;> decide
    obtain ⟨notLower, notUpper, notDigit, alphanumeric, isNext⟩ := next
    rw [if_neg last, stepBytes, if_neg notLower, if_neg notUpper, if_neg notDigit,
      if_pos alphanumeric, isNext]

theorem stepBytes_other {b : UInt8} (other : isAlphanumericByte b = false) (rest : List UInt8) :
    stepBytes (b :: rest) = (b :: rest, false) := by
  have notLower : b ≠ 122 := by
    rintro rfl
    cases other
  have notUpper : b ≠ 90 := by
    rintro rfl
    cases other
  have notDigit : b ≠ 57 := by
    rintro rfl
    cases other
  rw [stepBytes, if_neg notLower, if_neg notUpper, if_neg notDigit, if_neg (by simp [other])]

theorem isAlphanumericByte_iff {b : UInt8} :
    isAlphanumericByte b = true ↔ (48 ≤ b.toNat ∧ b.toNat ≤ 57) ∨ (65 ≤ b.toNat ∧ b.toNat ≤ 90) ∨
      (97 ≤ b.toNat ∧ b.toNat ≤ 122) := by
  simp only [isAlphanumericByte, Bool.or_eq_true, Bool.and_eq_true, decide_eq_true_eq,
    UInt8.le_iff_toNat_le, or_assoc]
  rfl

/-- The last byte of a character that is neither letter nor digit is none either. -/
theorem encodeChar_other {c : Char} (other : c.isAlphanum = false) :
    ∃ b more, (String.utf8EncodeChar c).reverse = b :: more ∧ isAlphanumericByte b = false := by
  have outside := isAlphanum_iff.not.mp (Bool.not_eq_true _ ▸ other)
  by_cases ascii : c.toNat < 128
  · refine ⟨.ofNat c.toNat, [], by rw [encodeChar_ascii ascii]; rfl, ?_⟩
    rw [← Bool.not_eq_true, isAlphanumericByte_iff, toNat_ofNat_ascii ascii]
    exact outside
  · obtain ⟨b, more, parts⟩ := List.exists_cons_of_ne_nil
      (List.reverse_ne_nil_iff.mpr (String.utf8EncodeChar_ne_nil (c := c)))
    have large : 128 ≤ b.toNat := encodeChar_beyond (Nat.not_lt.mp ascii) b
      (List.mem_reverse.mp (by rw [parts]; exact List.mem_cons_self))
    refine ⟨b, more, parts, ?_⟩
    rw [← Bool.not_eq_true, isAlphanumericByte_iff]
    omega

/-! All characters -/

theorem encodeReversed_ascii {c : Char} (ascii : c.toNat < 128) (cs : List Char) :
    encodeReversed (c :: cs) = .ofNat c.toNat :: encodeReversed cs := by
  rw [encodeReversed_cons, encodeChar_ascii ascii]
  rfl

theorem ascii_of_isAlphanum {c : Char} (alphanumeric : c.isAlphanum = true) : c.toNat < 128 := by
  have ranges := isAlphanum_iff.mp alphanumeric
  omega

theorem stepBytes_encode (cs : List Char) :
    stepBytes (encodeReversed cs) =
      (encodeReversed (stepReversed cs).1, (stepReversed cs).2) := by
  induction cs with
  | nil => rfl
  | cons c rest ih =>
      by_cases alphanumeric : c.isAlphanum = true
      · have ascii : c.toNat < 128 := ascii_of_isAlphanum alphanumeric
        obtain ⟨k, i, inside, rfl⟩ := exists_char alphanumeric
        rw [encodeReversed_ascii ascii, stepBytes_char k inside, stepReversed_char k inside, ih]
        split
        · have first : k.first.toNat < 128 := by cases k <;> decide
          rw [encodeReversed_ascii first]
        · have next : (k.char (i + 1)).toNat < 128 :=
            ascii_of_isAlphanum (char_spec k (by omega)).1
          rw [encodeReversed_ascii next]
      · have other : c.isAlphanum = false := by simpa using alphanumeric
        obtain ⟨b, more, parts, isOther⟩ := encodeChar_other other
        rw [stepReversed_other other, encodeReversed_cons, parts, List.cons_append,
          stepBytes_other isOther]

/-- The byte in front of a text is that of a character of the first 128 exactly when the character
in front is. -/
theorem head_encode (c : Char) (cs : List Char) :
    ∃ b more, encode (c :: cs) = b :: more ∧
      ∀ a : Char, a.toNat < 128 → (b = .ofNat a.toNat ↔ c = a) := by
  by_cases ascii : c.toNat < 128
  · refine ⟨.ofNat c.toNat, encode cs, by rw [encode_cons, encodeChar_ascii ascii]; rfl, ?_⟩
    intro a isAscii
    rw [← UInt8.toNat_inj, toNat_ofNat_ascii ascii, toNat_ofNat_ascii isAscii, Char.toNat_inj]
  · obtain ⟨b, more, parts⟩ := List.exists_cons_of_ne_nil (String.utf8EncodeChar_ne_nil (c := c))
    have large : 128 ≤ b.toNat :=
      encodeChar_beyond (Nat.not_lt.mp ascii) b (by rw [parts]; exact List.mem_cons_self)
    refine ⟨b, more ++ encode cs, by rw [encode_cons, parts]; rfl, fun a isAscii => ?_⟩
    refine iff_of_false (fun same => ?_) (fun same => ascii (same ▸ isAscii))
    rw [same, toNat_ofNat_ascii isAscii] at large
    omega

theorem carriedByte_encode (c : Char) (cs : List Char) :
    carriedByte (encode (c :: cs)) =
      if c = '0' then [49] else if c = 'a' then [97] else if c = 'A' then [65] else [] := by
  obtain ⟨b, more, parts, same⟩ := head_encode c cs
  have digit : b = 48 ↔ c = '0' := same '0' (by decide)
  have lower : b = 97 ↔ c = 'a' := same 'a' (by decide)
  have upper : b = 65 ↔ c = 'A' := same 'A' (by decide)
  simp only [parts, carriedByte, digit, lower, upper]

/-- The bytes of the successor of a text are the successor of its bytes. -/
theorem successorBytes_toByteArray (text : String) :
    successorBytes text.toByteArray.data.toList =
      (successorText text).toByteArray.data.toList := by
  have bytes : text.toByteArray.data.toList.reverse = encodeReversed text.toList.reverse := by
    rw [encodeReversed, List.reverse_reverse, ← toByteArray_ofList, String.ofList_toList]
  rw [successorBytes, bytes, stepBytes_encode, successorText]
  obtain ⟨reversed, overflow⟩ := stepReversed text.toList.reverse
  have back : (encodeReversed reversed).reverse = encode reversed.reverse := by
    rw [encodeReversed, List.reverse_reverse]
  simp only [back]
  generalize reversed.reverse = cs
  cases overflow with
  | false => exact (toByteArray_ofList cs).symm
  | true =>
      cases cs with
      | nil => rfl
      | cons c more =>
          rw [if_pos rfl, carriedByte_encode]
          by_cases digit : c = '0'
          · subst digit
            exact (toByteArray_ofList ('1' :: '0' :: more)).symm
          · by_cases lower : c = 'a'
            · subst lower
              exact (toByteArray_ofList ('a' :: 'a' :: more)).symm
            · by_cases upper : c = 'A'
              · subst upper
                exact (toByteArray_ofList ('A' :: 'A' :: more)).symm
              · simp only [if_neg digit, if_neg lower, if_neg upper, List.nil_append]
                split
                · next same => exact absurd (List.cons.inj same).1 digit
                · next same => exact absurd (List.cons.inj same).1 lower
                · next same => exact absurd (List.cons.inj same).1 upper
                · exact (toByteArray_ofList (c :: more)).symm

end TreeScript
