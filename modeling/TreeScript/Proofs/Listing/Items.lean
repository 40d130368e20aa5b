import TreeScript.Proofs.Listing.Spine
import TreeScript.Proofs.Text.Quoted

set_option autoImplicit false

/- The text of an expression or a place determines it, also when more text follows that no step begins
with. The head is told by its first characters; then step after step is, by its name and by the items
between its parentheses, for which the same holds. -/
namespace TreeScript.Code

abbrev Identifiers (names : List String) : Prop := ∀ name ∈ names, IsIdentifier name

/-! First characters -/

/-- What a text begins with: a form of an item, or of a line. -/
inductive Opening where
  | null | boolean | number | quoted | bracket | call | creation | parenthesis
  | variable | list | implied
  | declaration | output | branch | loop | result | function | classDefinition | scope
  deriving DecidableEq

def Opening.isItem : Opening → Bool
  | .declaration | .output | .branch | .loop | .result | .function | .classDefinition | .scope => false
  | _ => true

def openings : List (String × Opening) :=
  [("null", .null), ("true", .boolean), ("false", .boolean), ("NaN", .number), ("inf", .number),
    ("-", .number), ("\"", .quoted), ("[", .bracket), ("namespace.getFunction(", .call),
    ("createInstance(", .creation), ("(", .parenthesis), ("$", .variable), ("list(", .list),
    ("implyArray(", .implied), ("scope.defineVariables(", .declaration), ("stdout.write(", .output),
    ("if (", .branch), ("array_", .loop), ("return", .result),
    ("namespace.defineFunction(", .function), ("namespace.defineClass(", .classDefinition),
    ("try \x7b", .scope)]

def openingOf (text : List Char) : Option Opening :=
  if text.head?.any Char.isDigit then some .number
  else (openings.find? fun entry => entry.1.toList.isPrefixOf text).map (·.2)

def Head.opening : Head → Opening
  | .null | .nullReference => .null
  | .boolean _ => .boolean
  | .integer _ | .float _ => .number
  | .string _ => .quoted
  | .array _ => .bracket
  | .call _ _ => .call
  | .instantiate _ _ => .creation
  | .conditional _ _ _ => .parenthesis
  | .variable _ => .variable
  | .list _ => .list
  | .implied _ => .implied

theorem opening_digit {c : Char} (digit : c.isDigit = true) (rest : List Char) :
    openingOf (c :: rest) = some .number := by
  rw [openingOf, if_pos]
  simpa using digit

theorem opening_integer (n : Int) (r : List Char) :
    openingOf ((toString n).toList ++ r) = some .number := by
  obtain ⟨c, rest, text, digit | rfl⟩ := integer_first n
  · rw [text]
    exact opening_digit digit _
  · rw [text]
    rfl

theorem opening_float (x : Float) (r : List Char) :
    openingOf ((floatLayout.write x).toList ++ r) = some .number := by
  have written := doubleText_write x
  generalize (floatLayout.write x).toList = text at written
  generalize Binary64.ofFloat x = d at written
  cases written with
  | nan | infinite | minusInfinite => rfl
  | @finite sign body negative _ _ signed magnitude =>
      subst signed
      cases negative with
      | true => rfl
      | false =>
          obtain ⟨c, rest, rfl, digit⟩ := magnitude.first
          exact opening_digit digit _

theorem opening_head (h : Head) (r : List Char) :
    openingOf (h.item.chars ++ r) = some h.opening := by
  cases h with
  | null | nullReference => rfl
  | boolean b => cases b <;> rfl
  | integer n => exact opening_integer n.toInt r
  | float x => exact opening_float x r
  | string s =>
      change openingOf ((Text.quote s).toList ++ r) = _
      rw [Text.quote, String.toList_ofList]
      rfl
  | array | call | instantiate | conditional | «variable» | list | implied =>
      simp [Head.item, Item.chars]
      rfl

theorem opening_item (i : Item) (r : List Char) :
    ∃ o, openingOf (i.chars ++ r) = some o ∧ o.isItem = true := by
  obtain ⟨h, steps, spine, -, -⟩ := Item.spined (fun _ _ => trivial) i (P := fun _ => True)
  refine ⟨h.opening, ?_, by cases h <;> rfl⟩
  rw [spine.text, List.append_assoc]
  exact opening_head h _

theorem opening_closer {c : Char} (closes : isCloser c = true) (rest : List Char) :
    openingOf (c :: rest) = none := by
  simp only [isCloser, Bool.or_eq_true, beq_iff_eq] at closes
  rcases closes with ((((rfl | rfl) | rfl) | rfl) | rfl) | rfl <;> rfl

/-- The text of an item is not empty and does not begin with what ends a token. -/
theorem item_first (i : Item) : ∃ c rest, i.chars = c :: rest ∧ isCloser c = false := by
  obtain ⟨o, opens, -⟩ := opening_item i []
  rw [List.append_nil] at opens
  cases text : i.chars with
  | nil =>
      rw [text] at opens
      cases opens
  | cons c rest =>
      refine ⟨c, rest, rfl, Bool.eq_false_iff.mpr fun closes => ?_⟩
      rw [text, opening_closer closes] at opens
      cases opens

/-! What may follow an item -/

/-- The text ends what stands before it, and no step begins it. -/
structure Done (r : List Char) : Prop where
  ends : Ends r
  noStep : ∀ (s : Step) (t : List Char), r ≠ s.chars ++ t

theorem done_closer {c : Char} (closes : isCloser c = true) (rest : List Char) :
    Done (c :: rest) where
  ends := .closer rest closes
  noStep s t same := by
    obtain ⟨rfl, -⟩ := List.cons.inj same
    cases closes

theorem done_text {text : String} {c : Char} {letters : List Char}
    (spelled : text.toList = c :: letters) (closes : isCloser c = true) (rest : List Char) :
    Done (text.toList ++ rest) := by
  rw [spelled]
  exact done_closer closes _

theorem step_chars_append (s : Step) (t : List Char) :
    s.chars ++ t = '.' :: (s.verb.name.toList ++ '(' :: (s.inside ++ ')' :: t)) := by
  simp [Step.chars]

theorem verb_append_inj {v v' : Verb} {r s : List Char}
    (same : v.name.toList ++ '(' :: r = v'.name.toList ++ '(' :: s) : v = v' ∧ r = s := by
  obtain ⟨names, rests⟩ := Text.run_inj v.name_letters.1 v'.name_letters.1 same
  exact ⟨Verb.name_injective (String.toList_inj.mp names), rests⟩

/-- A method that is none of the listed ones is called on the whole item. -/
theorem done_method (name : String) {c : Char} {letters : List Char}
    (spelled : name.toList = c :: letters) (notDigit : c.isDigit = false)
    (closed : '(' ∉ name.toList) (unlisted : Verb.ofName name = none) (rest : List Char) :
    Done ('.' :: (name.toList ++ '(' :: rest)) where
  ends := by
    rw [spelled]
    exact .link _ notDigit
  noStep s t same := by
    rw [step_chars_append] at same
    obtain ⟨names, -⟩ := Text.run_inj closed s.verb.name_letters.1 (List.cons.inj same).2
    rw [String.toList_inj.mp names, Verb.ofName_name] at unlisted
    cases unlisted

theorem done_getReference (rest : List Char) : Done (".getReference()".toList ++ rest) :=
  done_method "getReference" rfl rfl (by decide) (by decide) (')' :: rest)

theorem done_coerceToBoolean (rest : List Char) : Done (".coerceToBoolean()".toList ++ rest) :=
  done_method "coerceToBoolean" rfl rfl (by decide) (by decide) (')' :: rest)

theorem done_reset : Done ".reset();".toList :=
  done_method "reset" rfl rfl (by decide) (by decide) ");".toList

theorem done_test (rest : List Char) : Done (".coerceToBoolean() ? ".toList ++ rest) :=
  done_method "coerceToBoolean" rfl rfl (by decide) (by decide) (')' :: ' ' :: '?' :: ' ' :: rest)

/-- Nor does a step begin what is written to an item but is no item. -/
theorem done_write {v : Verb} (writes : v = .setValue ∨ v = .setReference) {inside : List Char}
    (foreign : ∀ o, openingOf inside = some o → o.isItem = false) :
    Done ('.' :: (v.name.toList ++ '(' :: inside)) where
  ends := by
    obtain ⟨-, -, c, rest, spelled, notDigit⟩ := v.name_letters
    rw [spelled]
    exact .link _ notDigit
  noStep s t same := by
    rw [step_chars_append] at same
    obtain ⟨isVerb, insides⟩ := verb_append_inj (List.cons.inj same).2
    have noItem (i : Item) (r : List Char) : inside ≠ i.chars ++ r := by
      rintro rfl
      obtain ⟨o, opens, isItem⟩ := opening_item i r
      rw [foreign o opens] at isItem
      cases isItem
    cases s with
    | assignValue e => exact noItem (.expr e) (')' :: t) insides
    | assignReference p =>
        rw [Step.inside, List.append_assoc] at insides
        exact noItem (.place p) _ insides
    | _ => rcases writes with rfl | rfl <;> cases isVerb

theorem done_setValue {inside : List Char}
    (foreign : ∀ o, openingOf inside = some o → o.isItem = false) :
    Done (".setValue(".toList ++ inside) := done_write (.inl rfl) foreign

/-! Lists -/

section lists

variable {α : Type} {text : α → String} {as bs : List α} {close : Char} {r s : List Char}

theorem listed_cons_cons (a b : String) (rest : List String) :
    listed (a :: b :: rest) = a.toList ++ ',' :: ' ' :: listed (b :: rest) := by
  simp [listed, commaSeparated, String.toList_intercalate]

/-- What follows an element of a list. -/
inductive Follows : List Char → Prop
  | comma (rest : List Char) : Follows (',' :: rest)
  | close {c : Char} (isClose : c = ')' ∨ c = ']') (rest : List Char) : Follows (c :: rest)

theorem Follows.closer {r : List Char} (follows : Follows r) :
    ∃ c rest, r = c :: rest ∧ isCloser c = true := by
  cases follows with
  | comma => exact ⟨_, _, rfl, rfl⟩
  | close isClose => rcases isClose with rfl | rfl <;> exact ⟨_, _, rfl, rfl⟩

theorem Follows.done {r : List Char} (follows : Follows r) : Done r := by
  obtain ⟨c, rest, rfl, closes⟩ := follows.closer
  exact done_closer closes rest

/-- A list in a text is its first element and what follows it. -/
theorem listed_cons (isClose : close = ')' ∨ close = ']') (a : String) (rest : List String)
    (r : List Char) :
    ∃ more, listed (a :: rest) ++ close :: r = a.toList ++ more ∧ Follows more ∧
      (rest = [] ∧ more = close :: r ∨
        rest ≠ [] ∧ more = ',' :: ' ' :: (listed rest ++ close :: r)) := by
  cases rest with
  | nil =>
      refine ⟨close :: r, ?_, .close isClose r, .inl ⟨rfl, rfl⟩⟩
      simp [listed, commaSeparated]
  | cons b rest =>
      refine ⟨_, ?_, .comma _, .inr ⟨List.cons_ne_nil _ _, rfl⟩⟩
      rw [listed_cons_cons, List.append_assoc]
      rfl

/-- The text of a list that is closed determines the list if the texts of its elements do. -/
theorem listed_append_inj (isClose : close = ')' ∨ close = ']')
    (first : ∀ a, ∃ c rest, (text a).toList = c :: rest ∧ isCloser c = false)
    (unique : ∀ a ∈ as, ∀ b ∈ bs, ∀ r s, Follows r → Follows s →
      (text a).toList ++ r = (text b).toList ++ s → a = b ∧ r = s)
    (same : listed (as.map text) ++ close :: r = listed (bs.map text) ++ close :: s) :
    as = bs ∧ r = s := by
  have notClosed (a : α) (x y : List Char) : close :: x ≠ (text a).toList ++ y := by
    obtain ⟨c, rest, spelled, opens⟩ := first a
    intro same
    rw [spelled] at same
    rw [← (List.cons.inj same).1] at opens
    rcases isClose with rfl | rfl <;> cases opens
  have notComma (x y : List Char) : close :: x ≠ ',' :: y := by
    intro same
    rw [(List.cons.inj same).1] at isClose
    rcases isClose with isClose | isClose <;> cases isClose
  induction as generalizing bs with
  | nil =>
      cases bs with
      | nil => exact ⟨rfl, (List.cons.inj same).2⟩
      | cons b rest =>
          obtain ⟨more, parts, -⟩ := listed_cons isClose (text b) (rest.map text) s
          rw [List.map_cons, parts] at same
          exact absurd same (notClosed b _ _)
  | cons a rest ih =>
      obtain ⟨more, parts, follows, isMore⟩ := listed_cons isClose (text a) (rest.map text) r
      cases bs with
      | nil =>
          rw [List.map_cons, parts] at same
          exact absurd same.symm (notClosed a _ _)
      | cons b rest' =>
          obtain ⟨more', parts', follows', isMore'⟩ :=
            listed_cons isClose (text b) (rest'.map text) s
          rw [List.map_cons, parts, List.map_cons, parts'] at same
          obtain ⟨rfl, rfl⟩ := unique a List.mem_cons_self b List.mem_cons_self more more'
            follows follows' same
          rcases isMore with ⟨none, rfl⟩ | ⟨some, rfl⟩
          · rcases isMore' with ⟨none', ends⟩ | ⟨-, comma⟩
            · rw [List.map_eq_nil_iff.mp none, List.map_eq_nil_iff.mp none']
              exact ⟨rfl, (List.cons.inj ends).2⟩
            · exact absurd comma (notComma _ _)
          · rcases isMore' with ⟨-, ends⟩ | ⟨-, others⟩
            · exact absurd ends.symm (notComma _ _)
            · obtain ⟨rfl, rests⟩ := ih
                (fun a member b member' => unique a (List.mem_cons_of_mem _ member) b
                  (List.mem_cons_of_mem _ member'))
                (List.cons.inj (List.cons.inj others).2).2
              exact ⟨rfl, rests⟩

end lists

/-! Items -/

/-- The text of the item determines it, whatever ends it. -/
def Unique (i : Item) : Prop :=
  Identifiers i.names → ∀ {j : Item} {r s : List Char}, Identifiers j.names → Done r → Done s →
    i.chars ++ r = j.chars ++ s → i = j ∧ r = s

section items

variable {r s : List Char}

theorem Unique.expr {e e' : Expr} (unique : Unique (.expr e)) (named : Identifiers e.names)
    (named' : Identifiers e'.names) (done : Done r) (done' : Done s)
    (same : e.text.toList ++ r = e'.text.toList ++ s) : e = e' ∧ r = s := by
  obtain ⟨items, rests⟩ := @unique named (.expr e') r s named' done done' same
  exact ⟨Item.expr.inj items, rests⟩

theorem Unique.place {p p' : Place} (unique : Unique (.place p)) (named : Identifiers p.names)
    (named' : Identifiers p'.names) (done : Done r) (done' : Done s)
    (same : p.text.toList ++ r = p'.text.toList ++ s) : p = p' ∧ r = s := by
  obtain ⟨items, rests⟩ := @unique named (.place p') r s named' done done' same
  exact ⟨Item.place.inj items, rests⟩

theorem items_append_inj {α : Type} {item : α → Item} {text : α → String} {as bs : List α}
    {close : Char} (isClose : close = ')' ∨ close = ']')
    (isText : ∀ a, (item a).chars = (text a).toList) (injective : ∀ {a b}, item a = item b → a = b)
    (unique : ∀ part ∈ as.map item, Unique part)
    (named : Identifiers ((as.map item).flatMap Item.names))
    (named' : Identifiers ((bs.map item).flatMap Item.names))
    (same : listed (as.map text) ++ close :: r = listed (bs.map text) ++ close :: s) :
    as = bs ∧ r = s := by
  have mention {a : α} {as : List α} (member : a ∈ as)
      (named : Identifiers ((as.map item).flatMap Item.names)) : Identifiers (item a).names :=
    fun name inItem =>
      named name (List.mem_flatMap.mpr ⟨item a, List.mem_map_of_mem member, inItem⟩)
  have first (a : α) : ∃ c rest, (text a).toList = c :: rest ∧ isCloser c = false := by
    rw [← isText]
    exact item_first (item a)
  refine listed_append_inj isClose first ?_ same
  intro a member b member' r s follows follows' texts
  rw [← isText, ← isText] at texts
  obtain ⟨items, rests⟩ := unique _ (List.mem_map_of_mem member) (mention member named)
    (mention member' named') follows.done follows'.done texts
  exact ⟨injective items, rests⟩

theorem exprs_append_inj {es es' : List Expr} {close : Char} (isClose : close = ')' ∨ close = ']')
    (unique : ∀ part ∈ es.map Item.expr, Unique part)
    (named : Identifiers (namesInAll es)) (named' : Identifiers (namesInAll es'))
    (same : listed (exprTexts es) ++ close :: r = listed (exprTexts es') ++ close :: s) :
    es = es' ∧ r = s := by
  rw [exprTexts_eq, exprTexts_eq] at same
  rw [namesInAll_eq] at named named'
  exact items_append_inj isClose (fun _ => rfl) Item.expr.inj unique named named' same

theorem places_append_inj {ps ps' : List Place}
    (unique : ∀ part ∈ ps.map Item.place, Unique part)
    (named : Identifiers (namesInPlaces ps)) (named' : Identifiers (namesInPlaces ps'))
    (same : listed (placeTexts ps) ++ ')' :: r = listed (placeTexts ps') ++ ')' :: s) :
    ps = ps' ∧ r = s := by
  rw [placeTexts_eq, placeTexts_eq] at same
  rw [namesInPlaces_eq] at named named'
  exact items_append_inj (.inl rfl) (fun _ => rfl) Item.place.inj unique named named' same

theorem entry_append_inj {entry entry' : Entry} (unique : ∀ part ∈ entry.parts, Unique part)
    (named : Identifiers entry.names) (named' : Identifiers entry'.names) (follows : Follows r)
    (follows' : Follows s) (same : entry.text.toList ++ r = entry'.text.toList ++ s) :
    entry = entry' ∧ r = s := by
  have arrow (e : Expr) (r : List Char) : Done (" => ".toList ++ (e.text.toList ++ r)) :=
    done_closer rfl _
  have notArrow {r x : List Char} (follows : Follows r) : r ≠ " => ".toList ++ x := by
    rintro rfl
    cases follows with
    | close isClose => rcases isClose with isClose | isClose <;> cases isClose
  cases entry with
  | value e =>
      have first : Unique (.expr e) := unique _ List.mem_cons_self
      cases entry' with
      | value e' =>
          obtain ⟨rfl, rests⟩ := first.expr named named' follows.done follows'.done same
          exact ⟨rfl, rests⟩
      | pair key e' =>
          obtain ⟨inKey, -⟩ := List.forall_mem_append.mp named'
          rw [text_pair, String.toList_append, String.toList_append, List.append_assoc,
            List.append_assoc] at same
          obtain ⟨-, rests⟩ := first.expr named inKey follows.done (arrow _ _) same
          exact absurd rests (notArrow follows)
  | pair key e =>
      obtain ⟨firstUnique, others⟩ := List.forall_mem_cons.mp unique
      have second : Unique (.expr e) := others _ List.mem_cons_self
      obtain ⟨inKey, inValue⟩ := List.forall_mem_append.mp named
      rw [text_pair, String.toList_append, String.toList_append, List.append_assoc,
        List.append_assoc] at same
      cases entry' with
      | value e' =>
          obtain ⟨-, rests⟩ := firstUnique.expr inKey named' (arrow _ _) follows'.done same
          exact absurd rests.symm (notArrow follows')
      | pair key' e' =>
          obtain ⟨inKey', inValue'⟩ := List.forall_mem_append.mp named'
          rw [text_pair, String.toList_append, String.toList_append, List.append_assoc,
            List.append_assoc] at same
          obtain ⟨rfl, rests⟩ := firstUnique.expr inKey inKey' (arrow _ _) (arrow _ _) same
          obtain ⟨rfl, ends⟩ := second.expr inValue inValue' follows.done follows'.done
            (List.append_cancel_left rests)
          exact ⟨rfl, ends⟩

theorem entries_append_inj {entries entries' : List Entry}
    (unique : ∀ part ∈ entries.flatMap Entry.parts, Unique part)
    (named : Identifiers (namesInEntries entries)) (named' : Identifiers (namesInEntries entries'))
    (same : listed (entryTexts entries) ++ ']' :: r = listed (entryTexts entries') ++ ']' :: s) :
    entries = entries' ∧ r = s := by
  have mention {entry : Entry} {entries : List Entry} (member : entry ∈ entries)
      (named : Identifiers (namesInEntries entries)) : Identifiers entry.names := by
    intro name inEntry
    rw [names_entry] at inEntry
    obtain ⟨part, inParts, inPart⟩ := List.mem_flatMap.mp inEntry
    refine named name ?_
    rw [namesInEntries_eq]
    exact List.mem_flatMap.mpr ⟨part, List.mem_flatMap.mpr ⟨entry, member, inParts⟩, inPart⟩
  have first (entry : Entry) : ∃ c rest, entry.text.toList = c :: rest ∧ isCloser c = false := by
    cases entry with
    | value e => exact item_first (.expr e)
    | pair key e =>
        obtain ⟨c, rest, spelled, opens⟩ := item_first (.expr key)
        refine ⟨c, rest ++ (" => ".toList ++ e.text.toList), ?_, opens⟩
        have spelled : key.text.toList = c :: rest := spelled
        rw [text_pair, String.toList_append, String.toList_append, spelled, List.append_assoc]
        rfl
  rw [entryTexts_eq, entryTexts_eq] at same
  refine listed_append_inj (.inr rfl) first ?_ same
  intro entry member entry' member' r s follows follows' texts
  exact entry_append_inj
    (fun part inPart => unique part (List.mem_flatMap.mpr ⟨entry, member, inPart⟩))
    (mention member named) (mention member' named') follows follows' texts

/-! Steps -/

/-- A step at the front of a text is determined. -/
theorem step_append_inj {t t' : Step} (unique : ∀ part ∈ t.parts, Unique part)
    (named : Identifiers (t.parts.flatMap Item.names))
    (named' : Identifiers (t'.parts.flatMap Item.names)) (same : t.chars ++ r = t'.chars ++ s) :
    t = t' ∧ r = s := by
  rw [step_chars_append, step_chars_append] at same
  obtain ⟨verbs, insides⟩ := verb_append_inj (List.cons.inj same).2
  have single {e e' : Expr} {r s : List Char} (unique : ∀ part ∈ [Item.expr e], Unique part)
      (named : Identifiers ([Item.expr e].flatMap Item.names))
      (named' : Identifiers ([Item.expr e'].flatMap Item.names))
      (same : e.text.toList ++ ')' :: r = e'.text.toList ++ ')' :: s) : e = e' ∧ r = s := by
    rw [List.flatMap_singleton] at named named'
    obtain ⟨rfl, rests⟩ := (unique _ List.mem_cons_self).expr named named' (done_closer rfl _)
      (done_closer rfl _) same
    exact ⟨rfl, (List.cons.inj rests).2⟩
  cases t with
  | load =>
      cases t' with
      | load => exact ⟨rfl, (List.cons.inj insides).2⟩
      | _ => cases verbs
  | push =>
      cases t' with
      | push => exact ⟨rfl, (List.cons.inj insides).2⟩
      | _ => cases verbs
  | unary o =>
      cases t' with
      | unary o' =>
          cases verbs
          exact ⟨rfl, (List.cons.inj insides).2⟩
      | _ => cases verbs
  | assignValue e =>
      cases t' with
      | assignValue e' =>
          obtain ⟨rfl, rests⟩ := single unique named named' insides
          exact ⟨rfl, rests⟩
      | _ => cases verbs
  | element key =>
      cases t' with
      | element key' =>
          obtain ⟨rfl, rests⟩ := single unique named named' insides
          exact ⟨rfl, rests⟩
      | _ => cases verbs
  | binary o right =>
      cases t' with
      | binary o' right' =>
          cases verbs
          obtain ⟨rfl, rests⟩ := single unique named named' insides
          exact ⟨rfl, rests⟩
      | _ => cases verbs
  | assignReference p =>
      cases t' with
      | assignReference p' =>
          rw [Step.inside, Step.inside, List.append_assoc, List.append_assoc] at insides
          rw [Step.parts, List.flatMap_singleton] at named named'
          obtain ⟨rfl, rests⟩ := (unique _ List.mem_cons_self).place named named'
            (done_getReference _) (done_getReference _) insides
          exact ⟨rfl, (List.cons.inj (List.append_cancel_left rests)).2⟩
      | _ => cases verbs
  | callMethod method arguments =>
      cases t' with
      | callMethod method' arguments' =>
          obtain ⟨atMethod, atArguments⟩ := List.forall_mem_cons.mp unique
          rw [Step.parts, List.flatMap_cons] at named named'
          obtain ⟨inMethod, inArguments⟩ := List.forall_mem_append.mp named
          obtain ⟨inMethod', inArguments'⟩ := List.forall_mem_append.mp named'
          rw [← namesInAll_eq] at inArguments inArguments'
          simp only [Step.inside, List.append_assoc] at insides
          obtain ⟨rfl, rests⟩ := atMethod.expr inMethod inMethod' (done_text rfl rfl _)
            (done_text rfl rfl _) insides
          obtain ⟨rfl, ends⟩ := exprs_append_inj (.inr rfl) atArguments inArguments inArguments'
            (List.append_cancel_left rests)
          exact ⟨rfl, (List.cons.inj ends).2⟩
      | _ => cases verbs

theorem ends_steps (steps : List Step) (ends : Ends r) : Ends (steps.flatMap Step.chars ++ r) := by
  cases steps with
  | nil => exact ends
  | cons t rest =>
      obtain ⟨-, -, c, letters, spelled, notDigit⟩ := t.verb.name_letters
      rw [List.flatMap_cons, List.append_assoc, step_chars_append, spelled]
      exact .link _ notDigit

theorem steps_append_inj {steps steps' : List Step}
    (unique : ∀ t ∈ steps, ∀ part ∈ t.parts, Unique part)
    (named : Identifiers ((steps.flatMap Step.parts).flatMap Item.names))
    (named' : Identifiers ((steps'.flatMap Step.parts).flatMap Item.names))
    (done : Done r) (done' : Done s)
    (same : steps.flatMap Step.chars ++ r = steps'.flatMap Step.chars ++ s) :
    steps = steps' ∧ r = s := by
  induction steps generalizing steps' with
  | nil =>
      cases steps' with
      | nil => exact ⟨rfl, same⟩
      | cons t' rest' =>
          rw [List.flatMap_cons, List.append_assoc] at same
          exact absurd same (done.noStep _ _)
  | cons t rest ih =>
      cases steps' with
      | nil =>
          rw [List.flatMap_cons, List.append_assoc] at same
          exact absurd same.symm (done'.noStep _ _)
      | cons t' rest' =>
          rw [List.flatMap_cons, List.flatMap_append] at named named'
          obtain ⟨inStep, inRest⟩ := List.forall_mem_append.mp named
          obtain ⟨inStep', inRest'⟩ := List.forall_mem_append.mp named'
          obtain ⟨atStep, atRest⟩ := List.forall_mem_cons.mp unique
          rw [List.flatMap_cons, List.append_assoc, List.flatMap_cons, List.append_assoc] at same
          obtain ⟨rfl, others⟩ := step_append_inj atStep inStep inStep' same
          obtain ⟨rfl, rests⟩ := ih atRest inRest inRest' others
          exact ⟨rfl, rests⟩

/-! Heads -/

/-- A head at the front of a text is determined. -/
theorem head_append_inj {h h' : Head} (unique : ∀ part ∈ h.parts, Unique part)
    (named : Identifiers h.item.names) (named' : Identifiers h'.item.names) (ends : Ends r)
    (ends' : Ends s) (same : h.item.chars ++ r = h'.item.chars ++ s) : h = h' ∧ r = s := by
  have openings : h.opening = h'.opening := by
    apply Option.some.inj
    rw [← opening_head h r, same, opening_head]
  cases h with
  | null =>
      cases h' with
      | null => exact ⟨rfl, List.append_cancel_left same⟩
      | nullReference =>
          have tail : r = "Reference".toList ++ s := @List.append_cancel_left _ "null".toList _ _ same
          subst tail
          exact (ends.not_char rfl (by decide)).elim
      | _ => cases openings
  | nullReference =>
      cases h' with
      | nullReference => exact ⟨rfl, List.append_cancel_left same⟩
      | null =>
          have tail : "Reference".toList ++ r = s := @List.append_cancel_left _ "null".toList _ _ same
          subst tail
          exact (ends'.not_char rfl (by decide)).elim
      | _ => cases openings
  | boolean b =>
      cases h' with
      | boolean b' =>
          cases b with
          | true =>
              cases b' with
              | true => exact ⟨rfl, List.append_cancel_left same⟩
              | false => cases (List.cons.inj same).1
          | false =>
              cases b' with
              | true => cases (List.cons.inj same).1
              | false => exact ⟨rfl, List.append_cancel_left same⟩
      | _ => cases openings
  | integer n =>
      cases h' with
      | integer n' =>
          obtain ⟨texts, rests⟩ :=
            token_append_inj (token_integer n.toInt) (token_integer n'.toInt) ends ends' same
          have numbers : n.toInt = n'.toInt := by
            apply Option.some.inj
            rw [← decimalInteger_toString, texts, decimalInteger_toString]
          rw [Int64.toInt_inj.mp numbers]
          exact ⟨rfl, rests⟩
      | float x =>
          obtain ⟨texts, -⟩ :=
            token_append_inj (token_integer n.toInt) (token_float x) ends ends' same
          exact absurd texts (integer_ne_float _ _)
      | _ => cases openings
  | float x =>
      cases h' with
      | float x' =>
          obtain ⟨texts, rests⟩ :=
            token_append_inj (token_float x) (token_float x') ends ends' same
          rw [floatLayout_inj (String.toList_inj.mp texts)]
          exact ⟨rfl, rests⟩
      | integer n =>
          obtain ⟨texts, -⟩ :=
            token_append_inj (token_float x) (token_integer n.toInt) ends ends' same
          exact absurd texts.symm (integer_ne_float _ _)
      | _ => cases openings
  | string text =>
      cases h' with
      | string text' =>
          obtain ⟨rfl, rests⟩ := Text.quote_append_inj same
          exact ⟨rfl, rests⟩
      | _ => cases openings
  | «variable» name =>
      cases h' with
      | «variable» name' =>
          simp only [Head.item, Item.chars, text_variable, String.toList_append, List.append_assoc]
            at same
          have texts : name.toList ++ r = name'.toList ++ s := List.append_cancel_left same
          have inName : IsIdentifier name := named name List.mem_cons_self
          have inName' : IsIdentifier name' := named' name' List.mem_cons_self
          obtain ⟨names, rests⟩ :=
            token_append_inj (token_name inName) (token_name inName') ends ends' texts
          rw [String.toList_inj.mp names]
          exact ⟨rfl, rests⟩
      | _ => cases openings
  | array entries =>
      cases h' with
      | array entries' =>
          simp only [Head.item, Item.chars, text_array, String.toList_append, List.append_assoc]
            at same
          obtain ⟨rfl, rests⟩ := entries_append_inj unique named named'
            (List.append_cancel_left same)
          exact ⟨rfl, rests⟩
      | _ => cases openings
  | list places =>
      cases h' with
      | list places' =>
          simp only [Head.item, Item.chars, text_list, String.toList_append, List.append_assoc]
            at same
          obtain ⟨rfl, rests⟩ := places_append_inj unique named named'
            (List.append_cancel_left same)
          exact ⟨rfl, rests⟩
      | _ => cases openings
  | implied p =>
      cases h' with
      | implied p' =>
          simp only [Head.item, Item.chars, text_implied, String.toList_append, List.append_assoc]
            at same
          obtain ⟨rfl, rests⟩ := (unique _ List.mem_cons_self).place named named'
            (done_closer rfl _) (done_closer rfl _) (List.append_cancel_left same)
          exact ⟨rfl, (List.cons.inj rests).2⟩
      | _ => cases openings
  | call function arguments =>
      cases h' with
      | call function' arguments' =>
          obtain ⟨atFunction, atArguments⟩ := List.forall_mem_cons.mp unique
          obtain ⟨inFunction, inArguments⟩ := List.forall_mem_append.mp named
          obtain ⟨inFunction', inArguments'⟩ := List.forall_mem_append.mp named'
          simp only [Head.item, Item.chars, text_call, String.toList_append, List.append_assoc]
            at same
          obtain ⟨rfl, rests⟩ := atFunction.expr inFunction inFunction' (done_text rfl rfl _)
            (done_text rfl rfl _) (List.append_cancel_left same)
          obtain ⟨rfl, ends⟩ := exprs_append_inj (.inl rfl) atArguments inArguments inArguments'
            (List.append_cancel_left rests)
          exact ⟨rfl, ends⟩
      | _ => cases openings
  | instantiate className arguments =>
      cases h' with
      | instantiate className' arguments' =>
          obtain ⟨atName, atArguments⟩ := List.forall_mem_cons.mp unique
          obtain ⟨inName, inArguments⟩ := List.forall_mem_append.mp named
          obtain ⟨inName', inArguments'⟩ := List.forall_mem_append.mp named'
          simp only [Head.item, Item.chars, text_instantiate, String.toList_append,
            List.append_assoc] at same
          obtain ⟨rfl, rests⟩ := atName.expr inName inName' (done_text rfl rfl _) (done_text rfl rfl _)
            (List.append_cancel_left same)
          obtain ⟨rfl, ends⟩ := exprs_append_inj (.inr rfl) atArguments inArguments inArguments'
            (List.append_cancel_left rests)
          exact ⟨rfl, (List.cons.inj ends).2⟩
      | _ => cases openings
  | conditional condition consequent alternate =>
      cases h' with
      | conditional condition' consequent' alternate' =>
          obtain ⟨atCondition, others⟩ := List.forall_mem_cons.mp unique
          obtain ⟨atConsequent, others⟩ := List.forall_mem_cons.mp others
          have atAlternate : Unique (.expr alternate) := others _ List.mem_cons_self
          obtain ⟨inCondition, names⟩ := List.forall_mem_append.mp named
          obtain ⟨inConsequent, inAlternate⟩ := List.forall_mem_append.mp names
          obtain ⟨inCondition', names'⟩ := List.forall_mem_append.mp named'
          obtain ⟨inConsequent', inAlternate'⟩ := List.forall_mem_append.mp names'
          simp only [Head.item, Item.chars, text_conditional, String.toList_append,
            List.append_assoc] at same
          obtain ⟨rfl, rests⟩ := atCondition.expr inCondition inCondition' (done_test _)
            (done_test _) (List.append_cancel_left same)
          obtain ⟨rfl, others⟩ := atConsequent.expr inConsequent inConsequent' (done_text rfl rfl _)
            (done_text rfl rfl _) (List.append_cancel_left rests)
          obtain ⟨rfl, ends⟩ := atAlternate.expr inAlternate inAlternate' (done_text rfl rfl _)
            (done_text rfl rfl _) (List.append_cancel_left others)
          exact ⟨rfl, (List.cons.inj ends).2⟩
      | _ => cases openings

/-! Whole items -/

/-- The text of any item determines it. -/
theorem item_unique (i : Item) : Unique i := by
  refine Item.induction (fun i spined => ?_) i
  intro named j r s named' done done' same
  obtain ⟨h, steps, spine, inHead, inSteps⟩ := spined
  obtain ⟨h', steps', spine', -, -⟩ := Item.spined (fun _ _ => trivial) j (P := fun _ => True)
  rw [spine.names] at named
  rw [spine'.names] at named'
  obtain ⟨namedHead, namedSteps⟩ := List.forall_mem_append.mp named
  obtain ⟨namedHead', namedSteps'⟩ := List.forall_mem_append.mp named'
  rw [spine.text, List.append_assoc, spine'.text, List.append_assoc] at same
  obtain ⟨rfl, others⟩ := head_append_inj inHead namedHead namedHead' (ends_steps steps done.ends)
    (ends_steps steps' done'.ends) same
  obtain ⟨rfl, rests⟩ := steps_append_inj inSteps namedSteps namedSteps' done done' others
  exact ⟨spine.built.symm.trans spine'.built, rests⟩

end items

end TreeScript.Code
