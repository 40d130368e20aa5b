import TreeScript.Text.Quoted

set_option autoImplicit false

/- Quoted texts. What begins with a quoted text determines it and what follows: no character inside
the quotes is shown as a quote or by the beginning of what another one is shown as. A quoted text is
on one line. -/
namespace TreeScript.Text

/-! Hexadecimal digits -/

theorem digitChar_hex : ∀ n < 16, Nat.digitChar n ≠ '\x7d' ∧ Nat.digitChar n ≠ '\n' := by decide

theorem digitChar_hex_inj : ∀ n < 16, ∀ k < 16, Nat.digitChar n = Nat.digitChar k → n = k := by
  decide

theorem mem_toDigits_hex {n : Nat} {c : Char} (member : c ∈ Nat.toDigits 16 n) :
    ∃ k < 16, c = Nat.digitChar k := by
  induction n using Nat.strongRecOn with
  | ind n ih =>
      by_cases small : n < 16
      · rw [Nat.toDigits_of_lt_base small] at member
        exact ⟨n, small, List.mem_singleton.mp member⟩
      · rw [Nat.toDigits_of_base_le (by omega) (by omega)] at member
        rcases List.mem_append.mp member with early | last
        · exact ih (n / 16) (by omega) early
        · exact ⟨n % 16, by omega, List.mem_singleton.mp last⟩

theorem toDigits_hex_inj {n k : Nat} (same : Nat.toDigits 16 n = Nat.toDigits 16 k) : n = k := by
  induction n using Nat.strongRecOn generalizing k with
  | ind n ih =>
      by_cases small : n < 16
      · by_cases small' : k < 16
        · rw [Nat.toDigits_of_lt_base small, Nat.toDigits_of_lt_base small'] at same
          exact digitChar_hex_inj n small k small' (List.singleton_inj.mp same)
        · rw [Nat.toDigits_of_lt_base small, Nat.toDigits_of_base_le (by omega) (by omega)] at same
          have lengths := congrArg List.length same
          have some : 0 < (Nat.toDigits 16 (k / 16)).length := Nat.length_toDigits_pos
          simp only [List.length_append, List.length_singleton] at lengths
          omega
      · by_cases small' : k < 16
        · rw [Nat.toDigits_of_lt_base small', Nat.toDigits_of_base_le (by omega) (by omega)] at same
          have lengths := congrArg List.length same
          have some : 0 < (Nat.toDigits 16 (n / 16)).length := Nat.length_toDigits_pos
          simp only [List.length_append, List.length_singleton] at lengths
          omega
        · rw [@Nat.toDigits_of_base_le 16 n (by omega) (by omega),
            @Nat.toDigits_of_base_le 16 k (by omega) (by omega)] at same
          obtain ⟨front, last⟩ := List.append_inj' same rfl
          have quotients : n / 16 = k / 16 := ih (n / 16) (by omega) front
          have rests : n % 16 = k % 16 :=
            digitChar_hex_inj _ (by omega) _ (by omega) (List.singleton_inj.mp last)
          omega

/-! Characters -/

/-- How a character is shown inside quotes. -/
inductive ShownAs (c : Char) : List Char → Prop
  | short {e : Char} (escape : shortEscape c = some e) : ShownAs c ['\\', e]
  | itself (free : shortEscape c = none) : ShownAs c [c]
  | code : ShownAs c (['\\', 'u', '\x7b'] ++ Nat.toDigits 16 c.toNat ++ ['\x7d'])

theorem shownAs_quoteChar (c : Char) : ShownAs c (quoteChar c) := by
  unfold quoteChar
  split
  · next e escape => exact .short escape
  · next free =>
      split
      · exact .itself free
      · exact .code

theorem shortEscape_cases {c e : Char} (escape : shortEscape c = some e) :
    (c, e) ∈ [('\x00', '0'), ('\t', 't'), ('\r', 'r'), ('\n', 'n'), ('\\', '\\'), ('"', '"')] := by
  unfold shortEscape at escape
  repeat' split at escape
  all_goals cases escape
  all_goals simp_all

theorem shortEscape_inj {c d e : Char} (first : shortEscape c = some e)
    (second : shortEscape d = some e) : c = d := by
  have here := shortEscape_cases first
  have there := shortEscape_cases second
  simp only [List.mem_cons, Prod.mk.injEq, List.not_mem_nil, or_false] at here there
  rcases here with ⟨rfl, rfl⟩ | ⟨rfl, rfl⟩ | ⟨rfl, rfl⟩ | ⟨rfl, rfl⟩ | ⟨rfl, rfl⟩ | ⟨rfl, rfl⟩ <;>
    simp_all

theorem shortEscape_ne_mark {c : Char} : shortEscape c ≠ some 'u' := by
  intro escape
  have cases := shortEscape_cases escape
  simp at cases

theorem free_ne {c d : Char} (free : shortEscape c = none) (escaped : (shortEscape d).isSome = true) :
    c ≠ d := by
  rintro rfl
  rw [free] at escaped
  cases escaped

/-- Two runs up to one end mark, which is in neither, are the same. -/
theorem run_inj {x : Char} {l l' r r' : List Char} (absent : x ∉ l) (absent' : x ∉ l')
    (same : l ++ x :: r = l' ++ x :: r') : l = l' ∧ r = r' := by
  induction l generalizing l' with
  | nil =>
      cases l' with
      | nil => exact ⟨rfl, (List.cons.inj same).2⟩
      | cons y rest =>
          obtain ⟨isMark, -⟩ := List.cons.inj same
          rw [isMark] at absent'
          exact absurd List.mem_cons_self absent'
  | cons y rest ih =>
      cases l' with
      | nil =>
          obtain ⟨isMark, -⟩ := List.cons.inj same
          rw [← isMark] at absent
          exact absurd List.mem_cons_self absent
      | cons z rest' =>
          obtain ⟨rfl, others⟩ := List.cons.inj same
          obtain ⟨rfl, ends⟩ := ih (fun member => absent (List.mem_cons_of_mem _ member))
            (fun member => absent' (List.mem_cons_of_mem _ member)) others
          exact ⟨rfl, ends⟩

theorem brace_notMem_hex (n : Nat) : '\x7d' ∉ Nat.toDigits 16 n := by
  intro member
  obtain ⟨k, small, isDigit⟩ := mem_toDigits_hex member
  exact (digitChar_hex k small).1 isDigit.symm

/-- What a character is shown as is not the beginning of what another is shown as. -/
theorem shownAs_inj {c d : Char} {l l' r r' : List Char} (here : ShownAs c l) (there : ShownAs d l')
    (same : l ++ r = l' ++ r') : c = d ∧ r = r' := by
  have backslash : (shortEscape '\\').isSome = true := by decide
  cases here with
  | @short e escape =>
      cases there with
      | @short e' escape' =>
          simp only [List.cons_append, List.nil_append, List.cons.injEq, true_and] at same
          obtain ⟨rfl, ends⟩ := same
          exact ⟨shortEscape_inj escape escape', ends⟩
      | itself free => exact absurd (List.cons.inj same).1.symm (free_ne free backslash)
      | code =>
          simp only [List.cons_append, List.nil_append, List.cons.injEq, true_and] at same
          obtain ⟨rfl, -⟩ := same
          exact absurd escape shortEscape_ne_mark
  | itself free =>
      cases there with
      | itself free' => exact List.cons.inj same
      | short escape => exact absurd (List.cons.inj same).1 (free_ne free backslash)
      | code => exact absurd (List.cons.inj same).1 (free_ne free backslash)
  | code =>
      cases there with
      | @short e' escape' =>
          simp only [List.cons_append, List.nil_append, List.cons.injEq, true_and] at same
          obtain ⟨rfl, -⟩ := same
          exact absurd escape' shortEscape_ne_mark
      | itself free => exact absurd (List.cons.inj same).1.symm (free_ne free backslash)
      | code =>
          simp only [List.cons_append, List.nil_append, List.append_assoc, List.cons.injEq,
            true_and] at same
          obtain ⟨digits, ends⟩ := run_inj (brace_notMem_hex _) (brace_notMem_hex _) same
          exact ⟨Char.toNat_inj.mp (toDigits_hex_inj digits), ends⟩

theorem quoteChar_head (c : Char) : ∃ x rest, quoteChar c = x :: rest ∧ x ≠ '"' := by
  have shown := shownAs_quoteChar c
  generalize quoteChar c = l at shown
  cases shown with
  | short _ => exact ⟨_, _, rfl, by decide⟩
  | itself free => exact ⟨_, _, rfl, free_ne free (by decide)⟩
  | code => exact ⟨_, _, rfl, by decide⟩

/-! Texts -/

theorem quoteChars_inj {s t r r' : List Char}
    (same : s.flatMap quoteChar ++ '"' :: r = t.flatMap quoteChar ++ '"' :: r') : s = t ∧ r = r' := by
  induction s generalizing t with
  | nil =>
      cases t with
      | nil => exact ⟨rfl, (List.cons.inj same).2⟩
      | cons d rest =>
          obtain ⟨x, others, shown, apart⟩ := quoteChar_head d
          rw [List.flatMap_cons, shown] at same
          exact absurd (List.cons.inj same).1.symm apart
  | cons c rest ih =>
      cases t with
      | nil =>
          obtain ⟨x, others, shown, apart⟩ := quoteChar_head c
          rw [List.flatMap_cons, shown] at same
          exact absurd (List.cons.inj same).1 apart
      | cons d rest' =>
          rw [List.flatMap_cons, List.flatMap_cons, List.append_assoc, List.append_assoc] at same
          obtain ⟨rfl, others⟩ := shownAs_inj (shownAs_quoteChar c) (shownAs_quoteChar d) same
          obtain ⟨rfl, ends⟩ := ih others
          exact ⟨rfl, ends⟩

/-- A quoted text at the front determines the text and what follows. -/
theorem quote_append_inj {s t : String} {r r' : List Char}
    (same : (quote s).toList ++ r = (quote t).toList ++ r') : s = t ∧ r = r' := by
  simp only [quote, String.toList_ofList, List.cons_append, List.append_assoc, List.nil_append,
    List.cons.injEq, true_and] at same
  obtain ⟨texts, ends⟩ := quoteChars_inj same
  exact ⟨String.toList_inj.mp texts, ends⟩

theorem newline_notMem_quote (s : String) : '\n' ∉ (quote s).toList := by
  have shown (c : Char) : '\n' ∉ quoteChar c := by
    have isShown := shownAs_quoteChar c
    generalize quoteChar c = l at isShown
    cases isShown with
    | @short e escape =>
        have known := shortEscape_cases escape
        simp only [List.mem_cons, Prod.mk.injEq, List.not_mem_nil, or_false] at known
        rcases known with ⟨-, rfl⟩ | ⟨-, rfl⟩ | ⟨-, rfl⟩ | ⟨-, rfl⟩ | ⟨-, rfl⟩ | ⟨-, rfl⟩ <;> decide
    | itself free =>
        intro member
        exact free_ne free (by decide) (List.mem_singleton.mp member).symm
    | code =>
        intro member
        rcases List.mem_append.mp member with early | last
        · rcases List.mem_append.mp early with first | digit
          · exact absurd first (by decide)
          · obtain ⟨k, small, isDigit⟩ := mem_toDigits_hex digit
            exact (digitChar_hex k small).2 isDigit.symm
        · exact absurd last (by decide)
  intro member
  rw [quote, String.toList_ofList] at member
  rcases List.mem_append.mp member with early | last
  · rcases List.mem_cons.mp early with first | inside
    · exact absurd first (by decide)
    · obtain ⟨c, -, there⟩ := List.mem_flatMap.mp inside
      exact shown c there
  · exact absurd last (by decide)

end TreeScript.Text
