import TreeScript.Proofs.Json.Numbers

set_option autoImplicit false

/- A value as it is written is read as it was, when it nests no deeper than the reader allows and
each of its numbers is read as it is written. -/
namespace TreeScript.Json

open JsonNumber (Stops ReadsBack)

/-- The numbers in a value, at any depth. -/
def numbers : Json → List JsonNumber
  | .null | .bool _ | .string _ => []
  | .number n => [n]
  | .array items => numbersItems items
  | .object fields => numbersFields fields
where
  numbersItems : List Json → List JsonNumber
    | [] => []
    | j :: rest => numbers j ++ numbersItems rest
  numbersFields : List (String × Json) → List JsonNumber
    | [] => []
    | (_, j) :: rest => numbers j ++ numbersFields rest

/-- The text is read as the given result, whatever follows that does not go on it. -/
def Reads {α : Type} (item : Parser α) (text : List Char) (a : α) : Prop :=
  ∀ rest, Stops rest → item (text ++ rest) = some (a, rest)

/-- The text starts with neither a blank nor a closing bracket. -/
def Opens (text : List Char) : Prop :=
  ∃ c more, text = c :: more ∧ isSpace c = false ∧ c ≠ ']' ∧ c ≠ '\x7d'

theorem skipSpace_cons {c : Char} (solid : isSpace c = false) (cs : List Char) :
    skipSpace (c :: cs) = c :: cs := by
  simp [skipSpace, solid]

theorem Opens.skipSpace {text : List Char} (opens : Opens text) (rest : List Char) :
    skipSpace (text ++ rest) = text ++ rest := by
  obtain ⟨c, more, rfl, solid, -⟩ := opens
  exact skipSpace_cons solid _

theorem Opens.append {text : List Char} (opens : Opens text) (rest : List Char) :
    Opens (text ++ rest) := by
  obtain ⟨c, more, rfl, solid⟩ := opens
  exact ⟨c, more ++ rest, rfl, solid⟩

/-! Strings -/

theorem hexDigit_digitChar : ∀ n < 16, hexDigit (Nat.digitChar n) = some n := by decide

theorem hexUnit_hexPair {n : Nat} (small : n < 0x20) :
    hexUnit '0' '0' (Nat.digitChar (n / 16)) (Nat.digitChar (n % 16)) = some n := by
  have zero : hexDigit '0' = some 0 := rfl
  simp only [hexUnit, zero, hexDigit_digitChar (n / 16) (by omega),
    hexDigit_digitChar (n % 16) (by omega), Option.bind_eq_bind, Option.bind_some,
    Option.some.injEq]
  omega

/-- A character is read as it is written between quotes. -/
theorem stringItem_escapeChar (c : Char) (rest : List Char) :
    stringItem (escapeChar c ++ rest) = some (some c, rest) := by
  unfold escapeChar
  by_cases quote : c = '"'
  · subst quote
    rfl
  by_cases slash : c = '\\'
  · subst slash
    rfl
  by_cases named : c = '\x08' ∨ c = '\x0c' ∨ c = '\n' ∨ c = '\r' ∨ c = '\t'
  · rcases named with rfl | rfl | rfl | rfl | rfl <;> rfl
  obtain ⟨backspace, feed, newline, back, tab⟩ :
      c ≠ '\x08' ∧ c ≠ '\x0c' ∧ c ≠ '\n' ∧ c ≠ '\r' ∧ c ≠ '\t' := by
    simpa only [not_or] using named
  rw [if_neg quote, if_neg slash, if_neg backspace, if_neg feed, if_neg newline, if_neg back,
    if_neg tab]
  by_cases control : c.toNat < 0x20
  · have plain : plainUnit c.toNat = some c := by
      rw [plainUnit, if_neg (by omega), Char.ofNat_toNat]
    rw [if_pos control]
    simp only [hexPair, List.cons_append, List.nil_append, stringItem, hexUnit_hexPair control,
      plain, Option.bind_eq_bind, Option.bind_some]
  · rw [if_neg control]
    simp only [List.cons_append, List.nil_append]
    unfold stringItem
    split
    · next same => exact absurd (List.cons.inj same).1 quote
    · next same => exact absurd (List.cons.inj same).1 slash
    · next same => exact absurd (List.cons.inj same).1 slash
    · next same =>
        obtain ⟨rfl, rfl⟩ := List.cons.inj same
        rw [if_neg (not_or.mpr ⟨control, slash⟩)]
    · next same => cases same

theorem stringBody_escaped (s : List Char) (rest : List Char) {n : Nat} (enough : s.length < n) :
    stringBody n (s.flatMap escapeChar ++ '"' :: rest) = some (s, rest) := by
  induction s generalizing n with
  | nil =>
      obtain ⟨n, rfl⟩ : ∃ m, n = m + 1 := ⟨n - 1, by simp at enough; omega⟩
      rfl
  | cons c s ih =>
      obtain ⟨n, rfl⟩ : ∃ m, n = m + 1 := ⟨n - 1, by simp at enough; omega⟩
      rw [List.flatMap_cons, List.append_assoc, stringBody, stringItem_escapeChar]
      simp [ih (by simpa using enough)]

theorem escapeChar_ne_nil (c : Char) : escapeChar c ≠ [] := by
  intro empty
  have item := stringItem_escapeChar c []
  rw [empty] at item
  cases item

theorem length_escaped (s : List Char) : s.length ≤ (s.flatMap escapeChar).length := by
  induction s with
  | nil => exact Nat.zero_le _
  | cons c s ih =>
      have := List.length_pos_iff.mpr (escapeChar_ne_nil c)
      simp only [List.flatMap_cons, List.length_append, List.length_cons]
      omega

theorem toList_writeString (s : String) :
    (writeString s).toList = '"' :: (s.toList.flatMap escapeChar ++ ['"']) := by
  simp [writeString]

theorem quoted_writeString (s : String) (rest : List Char) :
    quoted ((writeString s).toList ++ rest) = some (s, rest) := by
  rw [toList_writeString, List.cons_append, List.append_assoc]
  simp only [quoted, List.singleton_append]
  rw [stringBody_escaped s.toList rest]
  · simp
  · have := length_escaped s.toList
    simp only [List.length_append, List.length_cons]
    omega

theorem writeString_opens (s : String) : Opens (writeString s).toList :=
  ⟨'"', _, toList_writeString s, rfl, by decide, by decide⟩

/-! Items between commas and brackets -/

theorem toList_bracketed {opening closing : String} {first last : Char}
    (isFirst : opening.toList = [first]) (isLast : closing.toList = [last]) (parts : List String) :
    (bracketed opening closing parts).toList =
      first :: ((",".intercalate parts).toList ++ [last]) := by
  simp [bracketed, isFirst, isLast]

/-- A text of its own for each item, that the item is read from. -/
abbrev Texts {α : Type} (item : Parser α) (texts : List String) (as : List α) : Prop :=
  List.Forall₂ (fun text a => Reads item text.toList a ∧ Opens text.toList) texts as

section items

variable {α : Type} {item : Parser α} {close : Char}

/-- The text of items between commas. -/
theorem toList_joined (text next : String) (texts : List String) :
    (",".intercalate (text :: next :: texts)).toList =
      text.toList ++ ',' :: (",".intercalate (next :: texts)).toList := by
  simp [String.toList_intercalate]

theorem separated_reads (bracket : close = ']' ∨ close = '\x7d') {text : String}
    {texts : List String} {a : α} {as : List α} (all : Texts item (text :: texts) (a :: as))
    {n : Nat} (enough : as.length < n) (rest : List Char) :
    separated close item n ((",".intercalate (text :: texts)).toList ++ close :: rest) =
      some (a :: as, rest) := by
  induction as generalizing text texts a n with
  | nil =>
      obtain ⟨n, rfl⟩ : ∃ m, n = m + 1 := ⟨n - 1, by simp at enough; omega⟩
      cases all with
      | cons first none =>
          cases none
          have stops : Stops (close :: rest) := by
            rintro c ⟨⟩
            rcases bracket with rfl | rfl <;> simp
          have solid : isSpace close = false := by rcases bracket with rfl | rfl <;> rfl
          simp [separated, first.1 _ stops, skipSpace_cons solid]
  | cons b bs ih =>
      obtain ⟨n, rfl⟩ : ∃ m, n = m + 1 := ⟨n - 1, by simp at enough; omega⟩
      cases all with
      | cons first others =>
          cases others with
          | @cons next _ texts _ second others =>
              have stops :
                  Stops (',' :: ((",".intercalate (next :: texts)).toList ++ close :: rest)) := by
                rintro c ⟨⟩
                exact .inl rfl
              have comma : ¬ ',' = close := by rcases bracket with rfl | rfl <;> decide
              rw [toList_joined, List.append_assoc, List.cons_append, separated, first.1 _ stops]
              have solid : isSpace ',' = false := rfl
              simp only [Option.bind_eq_bind, Option.bind_some, skipSpace_cons solid,
                if_neg comma, if_true, ih (.cons second others) (by simpa using enough)]

theorem length_joined {texts : List String} {as : List α} (all : Texts item texts as) :
    as.length ≤ (",".intercalate texts).toList.length := by
  induction all with
  | nil => exact Nat.zero_le _
  | @cons text a texts as first others ih =>
      obtain ⟨c, more, isText, -⟩ := first.2
      cases others with
      | nil => simp [isText]
      | cons second others =>
          rw [toList_joined]
          simp only [List.length_cons, List.length_append] at ih ⊢
          omega

theorem joined_opens {text : String} {texts : List String} {a : α} {as : List α}
    (all : Texts item (text :: texts) (a :: as)) :
    Opens (",".intercalate (text :: texts)).toList := by
  cases all with
  | cons first others =>
      cases others with
      | nil => simpa [String.toList_intercalate] using first.2
      | cons second others =>
          rw [toList_joined]
          exact first.2.append _

/-- Items are read between commas and brackets as they are read alone. -/
theorem enclosed_reads (bracket : close = ']' ∨ close = '\x7d') {texts : List String}
    {as : List α} (all : Texts item texts as) (rest : List Char) :
    enclosed close item ((",".intercalate texts).toList ++ close :: rest) = some (as, rest) := by
  cases all with
  | nil =>
      have solid : isSpace close = false := by rcases bracket with rfl | rfl <;> rfl
      simp [enclosed, skipSpace_cons solid]
  | @cons text a texts as first others =>
      have all : Texts item (text :: texts) (a :: as) := .cons first others
      obtain ⟨c, more, isText, solid, notSquare, notCurly⟩ := joined_opens all
      have notClose : c ≠ close := by rcases bracket with rfl | rfl <;> assumption
      have enough := length_joined all
      have whole := separated_reads bracket all (n := (c :: more ++ close :: rest).length)
        (by rw [isText] at enough; simp at enough ⊢; omega) rest
      rw [isText] at whole ⊢
      rw [enclosed, List.cons_append, skipSpace_cons solid]
      simp only [if_neg notClose]
      exact whole

end items

/-! Values -/

/-- What starts like no array and no object is read as a scalar. -/
theorem value_of_scalar {c : Char} (solid : isSpace c = false) (notArray : c ≠ '[')
    (notObject : c ≠ '\x7b') (depth : Nat) (cs : List Char) :
    value depth (c :: cs) = scalar (c :: cs) := by
  cases depth with
  | zero => rw [value, skipSpace_cons solid]
  | succ depth =>
      rw [value, skipSpace_cons solid]
      split
      · next same => exact absurd (List.cons.inj same).1 notArray
      · next same => exact absurd (List.cons.inj same).1 notObject
      · rfl

theorem scalar_writeString (s : String) (rest : List Char) :
    scalar ((writeString s).toList ++ rest) = some (.string s, rest) := by
  have read := quoted_writeString s rest
  rw [toList_writeString, List.cons_append] at read ⊢
  simp only [scalar, read, Option.map_some]

/-- What a number can start with. -/
theorem numeral_head {c : Char} (numeral : c = '-' ∨ c.isDigit = true) :
    isSpace c = false ∧ c ≠ ']' ∧ c ≠ '\x7d' ∧ c ≠ '[' ∧ c ≠ '\x7b' ∧ c ≠ 'n' ∧ c ≠ 't' ∧
      c ≠ 'f' ∧ c ≠ '"' := by
  have other : ∀ d : Char, d ≠ '-' → d.isDigit = false → c ≠ d := by
    rintro d notMinus notDigit rfl
    rcases numeral with minus | digit
    · exact notMinus minus
    · rw [notDigit] at digit
      cases digit
  have solid : isSpace c = false := by
    simp only [isSpace, Bool.or_eq_false_iff, decide_eq_false_iff_not]
    exact ⟨⟨⟨other _ (by decide) rfl, other _ (by decide) rfl⟩, other _ (by decide) rfl⟩,
      other _ (by decide) rfl⟩
  exact ⟨solid, other _ (by decide) rfl, other _ (by decide) rfl, other _ (by decide) rfl,
    other _ (by decide) rfl, other _ (by decide) rfl, other _ (by decide) rfl,
    other _ (by decide) rfl, other _ (by decide) rfl⟩

theorem number_reads {x : JsonNumber} (back : x.ReadsBack) (depth : Nat) :
    Reads (value depth) (writeNumber x).toList (.number x) ∧ Opens (writeNumber x).toList := by
  obtain ⟨c, more, isText, numeral⟩ := JsonNumber.head_of_read back
  obtain ⟨solid, square, curly, notArray, notObject, n, t, f, quote⟩ := numeral_head numeral
  refine ⟨?_, c, more, isText, solid, square, curly⟩
  intro rest stops
  have read := JsonNumber.read_append stops back
  rw [isText, List.cons_append] at read ⊢
  rw [value_of_scalar solid notArray notObject]
  unfold scalar
  split
  · next same => exact absurd (List.cons.inj same).1 n
  · next same => exact absurd (List.cons.inj same).1 t
  · next same => exact absurd (List.cons.inj same).1 f
  · next same => exact absurd (List.cons.inj same).1 quote
  · rw [read]
    rfl

theorem member_reads {depth : Nat} (name : String) {j : Json}
    (read : Reads (value depth) j.write.toList j) :
    Reads (member (value depth)) (writeString name ++ ":" ++ j.write).toList (name, j) ∧
      Opens (writeString name ++ ":" ++ j.write).toList := by
  have text : (writeString name ++ ":" ++ j.write).toList =
      (writeString name).toList ++ ':' :: j.write.toList := by simp
  have opens := writeString_opens name
  rw [text]
  refine ⟨?_, opens.append _⟩
  intro rest stops
  have colon : isSpace ':' = false := rfl
  rw [List.append_assoc, List.cons_append, member, opens.skipSpace, quoted_writeString]
  simp [skipSpace_cons colon, read rest stops]

mutual
/-- A value is read as it is written. -/
theorem value_reads : ∀ (j : Json) (depth : Nat), j.depth ≤ depth →
    (∀ x ∈ j.numbers, x.ReadsBack) → Reads (value depth) j.write.toList j ∧ Opens j.write.toList
  | .null, depth, _, _ =>
      ⟨fun _ _ => value_of_scalar rfl (by decide) (by decide) _ _,
        'n', _, rfl, rfl, by decide, by decide⟩
  | .bool true, depth, _, _ =>
      ⟨fun _ _ => value_of_scalar rfl (by decide) (by decide) _ _,
        't', _, rfl, rfl, by decide, by decide⟩
  | .bool false, depth, _, _ =>
      ⟨fun _ _ => value_of_scalar rfl (by decide) (by decide) _ _,
        'f', _, rfl, rfl, by decide, by decide⟩
  | .number x, depth, _, back => number_reads (back x (List.mem_singleton_self x)) depth
  | .string s, depth, _, _ => by
      refine ⟨fun rest _ => ?_, writeString_opens s⟩
      rw [write, ← scalar_writeString s rest, toList_writeString]
      exact value_of_scalar rfl (by decide) (by decide) _ _
  | .array items, depth, within, back => by
      obtain ⟨depth, rfl⟩ : ∃ d, depth = d + 1 := ⟨depth - 1, by
        simp only [Json.depth] at within
        omega⟩
      have all := items_read items depth (by simpa [Json.depth] using within) back
      rw [write, toList_bracketed (show "[".toList = ['['] from rfl)
        (show "]".toList = [']'] from rfl)]
      refine ⟨fun rest _ => ?_, '[', _, rfl, rfl, by decide, by decide⟩
      rw [List.cons_append, List.append_assoc, value, skipSpace_cons rfl]
      simp only [List.singleton_append, enclosed_reads (.inl rfl) all rest, Option.map_some]
  | .object fields, depth, within, back => by
      obtain ⟨depth, rfl⟩ : ∃ d, depth = d + 1 := ⟨depth - 1, by
        simp only [Json.depth] at within
        omega⟩
      have all := fields_read fields depth (by simpa [Json.depth] using within) back
      rw [write, toList_bracketed (show "\x7b".toList = ['\x7b'] from rfl)
        (show "\x7d".toList = ['\x7d'] from rfl)]
      refine ⟨fun rest _ => ?_, '\x7b', _, rfl, rfl, by decide, by decide⟩
      rw [List.cons_append, List.append_assoc, value, skipSpace_cons rfl]
      simp only [List.singleton_append, enclosed_reads (.inr rfl) all rest, Option.map_some]

theorem items_read : ∀ (items : List Json) (depth : Nat), Json.depth.depthItems items ≤ depth →
    (∀ x ∈ numbers.numbersItems items, x.ReadsBack) →
    Texts (value depth) (write.writeItems items) items
  | [], _, _, _ => .nil
  | j :: rest, depth, within, back =>
      .cons (value_reads j depth (le_trans (le_max_left _ _) within)
          fun x member => back x (List.mem_append_left _ member))
        (items_read rest depth (le_trans (le_max_right _ _) within)
          fun x member => back x (List.mem_append_right _ member))

theorem fields_read : ∀ (fields : List (String × Json)) (depth : Nat),
    Json.depth.depthFields fields ≤ depth → (∀ x ∈ numbers.numbersFields fields, x.ReadsBack) →
    Texts (member (value depth)) (write.writeFields fields) fields
  | [], _, _, _ => .nil
  | (name, j) :: rest, depth, within, back =>
      .cons (member_reads name (value_reads j depth (le_trans (le_max_left _ _) within)
          fun x member => back x (List.mem_append_left _ member)).1)
        (fields_read rest depth (le_trans (le_max_right _ _) within)
          fun x member => back x (List.mem_append_right _ member))
end

/-- What is written for a value is read as that value. -/
theorem read_write {j : Json} {limit : Nat} (within : j.depth ≤ limit)
    (back : ∀ x ∈ j.numbers, x.ReadsBack) : read limit j.write = some j := by
  have whole := (value_reads j limit within back).1 [] (fun _ none => nomatch none)
  rw [List.append_nil] at whole
  rw [read, whole]
  rfl

end TreeScript.Json
