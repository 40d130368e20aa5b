import TreeScript.Proofs.Compile.Slots
import TreeScript.Proofs.Listing.Lines

set_option autoImplicit false

/- The lines of a statement determine it, also when more lines follow. Its first line tells its kind;
a block inside it ends with the first line that is not indented. The lines leave out how many loops a
function numbers and the name of a method beside that it stands under; in the statements considered
these follow from the rest. -/
namespace TreeScript.Code

mutual
/-- A statement whose variables and parameters are identifiers, and whose functions have the loops of
their bodies and, as methods, the names under which they stand. -/
inductive Spelled : Stmt → Prop
  | defineVariables (names : List String) : Spelled (.defineVariables names)
  | bindArgument {name : String} (named : IsIdentifier name) (index : Nat) :
      Spelled (.bindArgument name index)
  | bindThis : Spelled .bindThis
  | echo {e : Expr} (named : Identifiers e.names) : Spelled (.echo e)
  | inlineHtml (html : String) : Spelled (.inlineHtml html)
  | expression {e : Expr} (named : Identifiers e.names) : Spelled (.expression e)
  | ifElse {condition : Expr} {consequent alternate : Block} (named : Identifiers condition.names)
      (first : ∀ s ∈ consequent, Spelled s) (second : ∀ s ∈ alternate, Spelled s) :
      Spelled (.ifElse condition consequent alternate)
  | foreach {slot : Nat} {array : Expr} {key : Option Place} {value : Place} {byReference : Bool}
      {body : Block} (walked : Identifiers array.names) (keyed : ∀ k ∈ key, Identifiers k.names)
      (valued : Identifiers value.names) (each : ∀ s ∈ body, Spelled s) :
      Spelled (.foreach slot array key value byReference body)
  | ret {e : Option Expr} (named : ∀ result ∈ e, Identifiers result.names) : Spelled (.ret e)
  | defineFunction {f : Function Stmt} (function : SpelledFunction f) : Spelled (.defineFunction f)
  | defineClass {definition : ClassDefinition Stmt} (named : Identifiers definition.name.names)
      (defaults : ∀ property ∈ definition.properties, Identifiers property.2.names)
      (keyed : ∀ method ∈ definition.methods, method.2.name = method.1)
      (methods : ∀ method ∈ definition.methods, SpelledFunction method.2) :
      Spelled (.defineClass definition)
  | scoped {body : Block} (each : ∀ s ∈ body, Spelled s) : Spelled (.scoped body)

inductive SpelledFunction : Function Stmt → Prop
  | mk {f : Function Stmt} (parameters : Identifiers f.parameters)
      (counted : slotsOf f.body = List.range f.loopSlots) (each : ∀ s ∈ f.body, Spelled s) :
      SpelledFunction f
end

abbrev AllSpelled (b : Block) : Prop := ∀ s ∈ b, Spelled s

theorem SpelledFunction.each {f : Function Stmt} (spelled : SpelledFunction f) :
    AllSpelled f.body := by
  obtain ⟨-, -, each⟩ := spelled
  exact each

theorem SpelledFunction.parameters {f : Function Stmt} (spelled : SpelledFunction f) :
    Identifiers f.parameters := by
  obtain ⟨parameters, -, -⟩ := spelled
  exact parameters

theorem SpelledFunction.counted {f : Function Stmt} (spelled : SpelledFunction f) :
    slotsOf f.body = List.range f.loopSlots := by
  obtain ⟨-, counted, -⟩ := spelled
  exact counted

/-! Kinds of statements -/

/-- The kind of a statement, where its first line does not begin with an item. -/
def Stmt.form : Stmt → Option Opening
  | .expression _ | .bindArgument .. | .bindThis => none
  | .defineVariables _ => some .declaration
  | .echo _ | .inlineHtml _ => some .output
  | .ifElse .. => some .branch
  | .foreach .. => some .loop
  | .ret _ => some .result
  | .defineFunction _ => some .function
  | .defineClass _ => some .classDefinition
  | .scoped _ => some .scope

def formOf (line : List Char) : Option Opening := (openingOf line).filter (!·.isItem)

/-- What stands before the item of a statement on one line. -/
inductive Lead where
  | bare | output | result

def Lead.text : Lead → String
  | .bare => ""
  | .output => "stdout.write("
  | .result => "return "

/-- A statement on one line: an item, what stands before it, and what follows it. -/
inductive Single : Lead → Stmt → Item → List Char → Prop
  | bindArgument (name : String) (index : Nat) :
      Single .bare (.bindArgument name index) (.place (.variable name))
        (".setValue(".toList ++ ("arguments[".toList ++ ((toString index).toList ++ "]);".toList)))
  | bindThis :
      Single .bare .bindThis (.place (.variable "this")) (".setValue(".toList ++ "this);".toList)
  | expression (e : Expr) : Single .bare (.expression e) (.expr e) ";".toList
  | echo (e : Expr) : Single .output (.echo e) (.expr e) ".coerceToString());".toList
  | inlineHtml (html : String) :
      Single .output (.inlineHtml html) (.expr (.string html)) ");".toList
  | ret (e : Expr) : Single .result (.ret (some e)) (.expr e) ";".toList

/-- A number at the front of a text is determined, if what follows ends it. -/
theorem natural_append_inj {n k : Nat} {r s : List Char} (ends : Ends r) (ends' : Ends s)
    (same : (toString n).toList ++ r = (toString k).toList ++ s) : n = k ∧ r = s := by
  obtain ⟨digits, rests⟩ := token_append_inj (token_natural n) (token_natural k) ends ends' same
  rw [Nat.toString_eq_repr, Nat.toList_repr, Nat.toString_eq_repr, Nat.toList_repr] at digits
  refine ⟨?_, rests⟩
  rw [← @Nat.ofDigitChars_ten_toDigits n, digits, Nat.ofDigitChars_ten_toDigits]

section single

variable {lead : Lead} {s s' : Stmt} {i j : Item} {r r' : List Char}

theorem Single.line (single : Single lead s i r) :
    ∃ line, s.lines = [line] ∧ line.toList = lead.text.toList ++ (i.chars ++ r) := by
  cases single with
  | bindArgument name index => exact ⟨_, rfl, by simp [Item.chars, Lead.text]⟩
  | bindThis => exact ⟨_, rfl, by simp [Item.chars, Lead.text]⟩
  | expression e => exact ⟨_, rfl, by simp [Item.chars, Lead.text]⟩
  | echo e => exact ⟨_, rfl, by simp [Item.chars, Lead.text]⟩
  | inlineHtml html => exact ⟨"stdout.write(" ++ Text.quote html ++ ");", rfl, by
      rw [String.toList_append, String.toList_append, List.append_assoc]
      rfl⟩
  | ret e => exact ⟨_, rfl, by simp [Item.chars, Lead.text]⟩

theorem Single.done (single : Single lead s i r) : Done r := by
  cases single with
  | bindArgument name index =>
      refine done_setValue fun o opens => ?_
      cases opens
  | bindThis =>
      refine done_setValue fun o opens => ?_
      cases opens
  | expression e | ret e => exact done_closer rfl _
  | echo e => exact done_method "coerceToString" rfl rfl (by decide) (by decide) "));".toList
  | inlineHtml html => exact done_closer rfl _

theorem Single.named (single : Single lead s i r) (spelled : Spelled s) : Identifiers i.names := by
  cases single with
  | bindArgument name index =>
      cases spelled with
      | bindArgument named _ => exact List.forall_mem_singleton.mpr named
  | bindThis => exact List.forall_mem_singleton.mpr (by decide)
  | expression e =>
      cases spelled with
      | expression named => exact named
  | echo e =>
      cases spelled with
      | echo named => exact named
  | inlineHtml html => nofun
  | ret e =>
      cases spelled with
      | ret named => exact named e rfl

/-- What stands behind an item on a line of its own tells the statements apart that have the item. -/
theorem Single.determined (single : Single lead s i r) (single' : Single lead s' i r) :
    s = s' := by
  generalize same : r = r' at single'
  cases single with
  | bindArgument name index =>
      cases single' with
      | bindArgument _ index' =>
          have indices := List.append_cancel_left (List.append_cancel_left same)
          obtain ⟨rfl, -⟩ := natural_append_inj (.closer _ rfl) (.closer _ rfl) indices
          rfl
      | bindThis => cases List.append_cancel_left same
  | bindThis =>
      cases single' with
      | bindThis => rfl
      | bindArgument => cases List.append_cancel_left same
  | expression e =>
      cases single' with
      | expression => rfl
  | echo e =>
      cases single' with
      | echo => rfl
      | inlineHtml => cases same
  | inlineHtml html =>
      cases single' with
      | inlineHtml => rfl
      | echo => cases same
  | ret e =>
      cases single' with
      | ret => rfl

theorem Single.unique (single : Single lead s i r) (single' : Single lead s' j r')
    (spelled : Spelled s) (spelled' : Spelled s') {rest rest' : List String}
    (same : s.lines ++ rest = s'.lines ++ rest') : s = s' ∧ rest = rest' := by
  obtain ⟨line, isLine, text⟩ := single.line
  obtain ⟨line', isLine', text'⟩ := single'.line
  rw [isLine, isLine'] at same
  obtain ⟨lines, rests⟩ := List.cons.inj same
  rw [← lines, text] at text'
  obtain ⟨rfl, rfl⟩ := item_unique i (single.named spelled) (single'.named spelled') single.done
    single'.done (List.append_cancel_left text')
  exact ⟨single.determined single', rests⟩

theorem Single.first (single : Single .bare s i r) :
    ∃ line rest, s.lines = line :: rest ∧ formOf line.toList = none := by
  obtain ⟨line, isLine, text⟩ := single.line
  obtain ⟨o, opens, isItem⟩ := opening_item i r
  refine ⟨line, [], isLine, ?_⟩
  have opens : openingOf line.toList = some o := by rw [text]; exact opens
  rw [formOf, opens]
  simp [isItem]

end single

/-- The first line of a statement tells its kind. -/
theorem form_lines (s : Stmt) :
    ∃ line rest, s.lines = line :: rest ∧ formOf line.toList = s.form := by
  cases s with
  | expression e => exact (Single.expression e).first
  | bindArgument name index => exact (Single.bindArgument name index).first
  | bindThis => exact Single.bindThis.first
  | defineVariables names => exact ⟨_, _, rfl, by simp; rfl⟩
  | echo e => exact ⟨_, _, rfl, by simp; rfl⟩
  | inlineHtml html => exact ⟨_, _, rfl, by simp; rfl⟩
  | ifElse condition consequent alternate => exact ⟨_, _, rfl, by simp; rfl⟩
  | foreach slot array key value byReference body => exact ⟨_, _, rfl, by simp; rfl⟩
  | ret e =>
      cases e with
      | none => exact ⟨_, _, rfl, rfl⟩
      | some e => exact ⟨_, _, rfl, by simp; rfl⟩
  | defineFunction f => exact ⟨_, _, rfl, by simp; rfl⟩
  | defineClass definition => exact ⟨_, _, rfl, by simp; rfl⟩
  | «scoped» body => exact ⟨_, _, rfl, rfl⟩

theorem form_eq {s s' : Stmt} {rest rest' : List String}
    (same : s.lines ++ rest = s'.lines ++ rest') : s.form = s'.form := by
  obtain ⟨line, others, isLine, form⟩ := form_lines s
  obtain ⟨line', others', isLine', form'⟩ := form_lines s'
  rw [isLine, isLine'] at same
  rw [← form, ← form', (List.cons.inj same).1]

/-- The lines of the statement determine it, whatever lines follow. -/
def StmtUnique (s : Stmt) : Prop :=
  ∀ {s' : Stmt} {rest rest' : List String}, Spelled s' → s.lines ++ rest = s'.lines ++ rest' →
    s = s' ∧ rest = rest'

/-! Statements without blocks -/

section statements

variable {r s : List Char}

theorem quotes_append_inj {names names' : List String}
    (same : listed (names.map Text.quote) ++ ']' :: r = listed (names'.map Text.quote) ++ ']' :: s) :
    names = names' ∧ r = s := by
  have first (name : String) :
      ∃ c rest, (Text.quote name).toList = c :: rest ∧ isCloser c = false :=
    item_first (.expr (.string name))
  exact listed_append_inj (.inr rfl) first (fun _ _ _ _ _ _ _ _ texts => Text.quote_append_inj texts)
    same

theorem unique_defineVariables (names : List String) : StmtUnique (.defineVariables names) := by
  intro s' rest rest' spelled' same
  have form := form_eq same
  cases s' with
  | defineVariables names' =>
      obtain ⟨line, rests⟩ := List.cons.inj same
      have chars := congrArg String.toList line
      simp only [String.toList_append, List.append_assoc] at chars
      obtain ⟨rfl, -⟩ := @quotes_append_inj ");".toList ");".toList _ _
        (List.append_cancel_left chars)
      exact ⟨rfl, rests⟩
  | _ => cases form

/-- A statement on one line that begins with an item. -/
theorem unique_bare {s : Stmt} {i : Item} {r : List Char} (single : Single .bare s i r)
    (spelled : Spelled s) (bare : s.form = none) : StmtUnique s := by
  intro s' rest rest' spelled' same
  have form := form_eq same
  rw [bare] at form
  cases s' with
  | expression e => exact single.unique (.expression e) spelled spelled' same
  | bindArgument name index => exact single.unique (.bindArgument name index) spelled spelled' same
  | bindThis => exact single.unique .bindThis spelled spelled' same
  | _ => cases form

theorem unique_output {s : Stmt} {i : Item} {r : List Char} (single : Single .output s i r)
    (spelled : Spelled s) : StmtUnique s := by
  intro s' rest rest' spelled' same
  have form := form_eq same
  have output : s.form = some .output := by cases single <;> rfl
  rw [output] at form
  cases s' with
  | echo e => exact single.unique (.echo e) spelled spelled' same
  | inlineHtml html => exact single.unique (.inlineHtml html) spelled spelled' same
  | _ => cases form

theorem unique_ret {result : Option Expr} (spelled : Spelled (.ret result)) :
    StmtUnique (.ret result) := by
  intro s' rest rest' spelled' same
  have form := form_eq same
  have apart (e : Expr) : "return;" ≠ "return " ++ e.text ++ ";" := by
    intro line
    have chars := congrArg String.toList line
    simp only [String.toList_append, List.append_assoc] at chars
    cases @List.append_cancel_left _ "return".toList ";".toList
      (' ' :: (e.text.toList ++ ";".toList)) chars
  cases s' with
  | ret result' =>
      cases result with
      | none =>
          cases result' with
          | none => exact ⟨rfl, (List.cons.inj same).2⟩
          | some e' => exact absurd (List.cons.inj same).1 (apart e')
      | some e =>
          cases result' with
          | none => exact absurd (List.cons.inj same).1.symm (apart e)
          | some e' => exact (Single.ret e).unique (.ret e') spelled spelled' same
  | _ => cases form

end statements

/-! Statements with blocks -/

/-- The lines of the block determine it. -/
def BlockUnique (b : Block) : Prop :=
  ∀ {b' : Block}, AllSpelled b' → blockLines b = blockLines b' → b = b'

section blocks

theorem unique_ifElse {condition : Expr} {consequent alternate : Block}
    (named : Identifiers condition.names) (first : BlockUnique consequent)
    (second : BlockUnique alternate) : StmtUnique (.ifElse condition consequent alternate) := by
  intro s' rest rest' spelled' same
  have form := form_eq same
  cases s' with
  | ifElse condition' consequent' alternate' =>
      cases spelled' with
      | ifElse named' first' second' =>
          simp only [Stmt.lines, List.append_assoc, List.singleton_append] at same
          obtain ⟨line, others⟩ := List.cons.inj same
          have chars := congrArg String.toList line
          simp only [String.toList_append, List.append_assoc] at chars
          obtain ⟨rfl, -⟩ := (item_unique (.expr condition)).expr named named'
            (done_coerceToBoolean _) (done_coerceToBoolean _) (List.append_cancel_left chars)
          obtain ⟨inConsequent, -, others⟩ :=
            indented_append_inj (by simp [Outermost]) (by simp [Outermost]) others
          obtain ⟨inAlternate, -, rests⟩ :=
            indented_append_inj (by simp [Outermost]) (by simp [Outermost]) others
          rw [first first' inConsequent, second second' inAlternate]
          exact ⟨rfl, rests⟩
  | _ => cases form

theorem unique_scoped {body : Block} (inside : BlockUnique body) : StmtUnique (.scoped body) := by
  intro s' rest rest' spelled' same
  have form := form_eq same
  cases s' with
  | «scoped» body' =>
      cases spelled' with
      | «scoped» each' =>
          simp only [Stmt.lines, List.append_assoc, List.singleton_append] at same
          obtain ⟨-, others⟩ := List.cons.inj same
          obtain ⟨bodies, -, rests⟩ :=
            indented_append_inj (by simp [Outermost]) (by simp [Outermost]) others
          rw [inside each' (List.cons.inj bodies).2]
          exact ⟨rfl, (List.cons.inj (List.append_cancel_left rests)).2⟩
  | _ => cases form

/-- What a round of a loop writes to a place: the key of the element it is at, its value, or a
reference to it. -/
inductive Taken where
  | key | value | reference

namespace Taken

def verb : Taken → Verb
  | .key | .value => .setValue
  | .reference => .setReference

/-- What is read of the array. -/
def accessor : Taken → String
  | .key => ".getKeyByIndex(pointer_"
  | .value | .reference => ".getElementByIndex(pointer_"

def rest : Taken → String
  | .key => "));"
  | .value => ").getValue());"
  | .reference => ").getReference());"

/-- What stands behind the place, for the loop with the number `n`. -/
def text (n : String) (taken : Taken) : String :=
  "." ++ taken.verb.name ++ "(array_" ++ n ++ taken.accessor ++ n ++ taken.rest

theorem toList_text (n : String) (taken : Taken) : (taken.text n).toList =
    '.' :: (taken.verb.name.toList ++ '(' :: ("array_".toList ++ (n.toList ++
      (taken.accessor.toList ++ (n.toList ++ taken.rest.toList))))) := by
  simp [text]

theorem text_key (n : String) :
    text n .key = ".setValue(array_" ++ n ++ ".getKeyByIndex(pointer_" ++ n ++ "));" :=
  String.toList_inj.mp (by simp [text, verb, Verb.name, accessor, rest])

theorem text_value (n : String) : text n .value =
    ".setValue(" ++ ("array_" ++ n ++ ".getElementByIndex(pointer_" ++ n ++ ")") ++ ".getValue());" :=
  String.toList_inj.mp (by simp [text, verb, Verb.name, accessor, rest])

theorem text_reference (n : String) : text n .reference =
    ".setReference(" ++ ("array_" ++ n ++ ".getElementByIndex(pointer_" ++ n ++ ")") ++
      ".getReference());" :=
  String.toList_inj.mp (by simp [text, verb, Verb.name, accessor, rest])

theorem done (n : String) (taken : Taken) : Done (taken.text n).toList := by
  have writes : taken.verb = .setValue ∨ taken.verb = .setReference := by
    cases taken
    · exact .inl rfl
    · exact .inl rfl
    · exact .inr rfl
  rw [toList_text]
  refine done_write writes fun o opens => ?_
  cases opens
  rfl

theorem accessors_apart (r s : List Char) :
    Taken.key.accessor.toList ++ r ≠ Taken.value.accessor.toList ++ s := by
  intro same
  have starts := congrArg (List.take 5) same
  rw [List.take_append_of_le_length (by decide), List.take_append_of_le_length (by decide)] at starts
  exact absurd starts (by decide)

theorem text_injective {n : String} {taken taken' : Taken}
    (same : (taken.text n).toList = (taken'.text n).toList) : taken = taken' := by
  rw [toList_text, toList_text] at same
  obtain ⟨verbs, insides⟩ := verb_append_inj (List.cons.inj same).2
  have accessors := List.append_cancel_left (List.append_cancel_left insides)
  cases taken with
  | key =>
      cases taken' with
      | key => rfl
      | value => exact absurd accessors (accessors_apart _ _)
      | reference => cases verbs
  | value =>
      cases taken' with
      | key => exact absurd accessors.symm (accessors_apart _ _)
      | value => rfl
      | reference => cases verbs
  | reference =>
      cases taken' with
      | key | value => cases verbs
      | reference => rfl

end Taken

/-- The lines by which a round takes its key and its element. -/
def roundLines (n : String) (key : Option Place) (value : Place) (byReference : Bool) :
    List String :=
  (match key with
    | some key => [key.text ++ Taken.key.text n]
    | none => []) ++
    [value.text ++ (if byReference then Taken.reference else Taken.value).text n]

theorem loopOpening_eq (slot : Nat) (array : Expr) (key : Option Place) (value : Place)
    (byReference : Bool) : loopOpening slot array key value byReference =
      ["array_" ++ toString slot ++ " = " ++ array.text ++ ".reset();",
        "length_" ++ toString slot ++ " = array_" ++ toString slot ++ ".getLength();",
        "pointer_" ++ toString slot ++ " = 0;",
        "while (pointer_" ++ toString slot ++ " < length_" ++ toString slot ++ ") \x7b"] ++
        indented (roundLines (toString slot) key value byReference ++
          ["pointer_" ++ toString slot ++ "++;"]) := by
  unfold loopOpening roundLines
  cases key <;> cases byReference <;>
    simp [Taken.text_key, Taken.text_value, Taken.text_reference, String.append_assoc]

theorem roundLine_inj {n : String} {p p' : Place} {taken taken' : Taken}
    (named : Identifiers p.names) (named' : Identifiers p'.names)
    (same : p.text ++ taken.text n = p'.text ++ taken'.text n) : p = p' ∧ taken = taken' := by
  have chars := congrArg String.toList same
  rw [String.toList_append, String.toList_append] at chars
  obtain ⟨places, rests⟩ := (item_unique (.place p)).place named named' (taken.done n)
    (taken'.done n) chars
  exact ⟨places, Taken.text_injective rests⟩

theorem roundLines_append_inj {n : String} {key key' : Option Place} {value value' : Place}
    {byReference byReference' : Bool} {rest rest' : List String}
    (keyed : ∀ k ∈ key, Identifiers k.names) (keyed' : ∀ k ∈ key', Identifiers k.names)
    (valued : Identifiers value.names) (valued' : Identifiers value'.names)
    (same : roundLines n key value byReference ++ rest =
      roundLines n key' value' byReference' ++ rest') :
    key = key' ∧ value = value' ∧ byReference = byReference' ∧ rest = rest' := by
  have notKey (byReference : Bool) :
      Taken.key ≠ if byReference then Taken.reference else Taken.value := by
    cases byReference <;> nofun
  have marks {byReference byReference' : Bool} (same : (if byReference then Taken.reference else
      Taken.value) = if byReference' then Taken.reference else Taken.value) :
      byReference = byReference' := by
    cases byReference <;> cases byReference' <;> first
      | rfl
      | cases same
  simp only [roundLines, List.append_assoc] at same
  cases key with
  | none =>
      cases key' with
      | none =>
          obtain ⟨line, rests⟩ := List.cons.inj same
          obtain ⟨rfl, taken⟩ := roundLine_inj valued valued' line
          exact ⟨rfl, rfl, marks taken, rests⟩
      | some k' =>
          obtain ⟨-, taken⟩ := roundLine_inj valued (keyed' k' rfl) (List.cons.inj same).1
          exact absurd taken.symm (notKey _)
  | some k =>
      cases key' with
      | none =>
          obtain ⟨-, taken⟩ := roundLine_inj (keyed k rfl) valued' (List.cons.inj same).1
          exact absurd taken (notKey _)
      | some k' =>
          obtain ⟨line, lines⟩ := List.cons.inj same
          obtain ⟨line', rests⟩ := List.cons.inj lines
          obtain ⟨rfl, -⟩ := roundLine_inj (keyed k rfl) (keyed' k' rfl) line
          obtain ⟨rfl, taken⟩ := roundLine_inj valued valued' line'
          exact ⟨rfl, rfl, marks taken, rests⟩

theorem unique_foreach {slot : Nat} {array : Expr} {key : Option Place} {value : Place}
    {byReference : Bool} {body : Block} (walked : Identifiers array.names)
    (keyed : ∀ k ∈ key, Identifiers k.names) (valued : Identifiers value.names)
    (inside : BlockUnique body) :
    StmtUnique (.foreach slot array key value byReference body) := by
  intro s' rest rest' spelled' same
  have form := form_eq same
  cases s' with
  | «foreach» slot' array' key' value' byReference' body' =>
      cases spelled' with
      | «foreach» walked' keyed' valued' each' =>
          simp only [Stmt.lines, loopOpening_eq, List.append_assoc, List.cons_append,
            List.nil_append] at same
          obtain ⟨line, others⟩ := List.cons.inj same
          have chars := congrArg String.toList line
          simp only [String.toList_append, List.append_assoc] at chars
          have equals (l : List Char) : Ends (" = ".toList ++ l) := .closer _ rfl
          obtain ⟨rfl, headers⟩ := natural_append_inj (equals _) (equals _)
            (List.append_cancel_left chars)
          obtain ⟨rfl, -⟩ := (item_unique (.expr array)).expr walked walked' done_reset done_reset
            (List.append_cancel_left headers)
          have lines := (List.cons.inj (List.cons.inj (List.cons.inj others).2).2).2
          rw [← List.append_assoc, ← indented_append, ← List.append_assoc (indented _),
            ← indented_append] at lines
          obtain ⟨round, -, rests⟩ :=
            indented_append_inj (by simp [Outermost]) (by simp [Outermost]) lines
          rw [List.append_assoc, List.append_assoc] at round
          obtain ⟨rfl, rfl, rfl, bodies⟩ := roundLines_append_inj keyed keyed' valued valued' round
          rw [inside each' (List.append_cancel_left bodies)]
          exact ⟨rfl, rests⟩
  | _ => cases form

theorem parameters_append_inj {names names' : List String} {r s : List Char}
    (named : Identifiers names) (named' : Identifiers names')
    (same : (parameterList names).toList ++ ')' :: r = (parameterList names').toList ++ ')' :: s) :
    names = names' ∧ r = s := by
  have mentions (names : List String) :
      (names.map fun name => Item.place (.variable name)).flatMap Item.names = names := by
    induction names with
    | nil => rfl
    | cons name rest ih =>
        rw [List.map_cons, List.flatMap_cons, ih]
        rfl
  refine items_append_inj (.inl rfl) (fun _ => rfl) (fun same => ?_) (fun i _ => item_unique i)
    (by rwa [mentions]) (by rwa [mentions]) same
  exact Place.variable.inj (Item.place.inj same)

/-- What the listing of a function leaves out follows from what it shows. -/
theorem SpelledFunction.ext {f f' : Function Stmt} (spelled : SpelledFunction f)
    (spelled' : SpelledFunction f') (names : f.name = f'.name)
    (parameters : f.parameters = f'.parameters) (bodies : f.body = f'.body) : f = f' := by
  have slots : f.loopSlots = f'.loopSlots := by
    have ranges := congrArg List.length (congrArg slotsOf bodies)
    rwa [spelled.counted, spelled'.counted, List.length_range, List.length_range] at ranges
  cases f
  cases f'
  cases names
  cases parameters
  cases bodies
  cases slots
  rfl

theorem unique_defineFunction {f : Function Stmt} (spelled : SpelledFunction f)
    (inside : BlockUnique f.body) : StmtUnique (.defineFunction f) := by
  intro s' rest rest' spelled' same
  have form := form_eq same
  cases s' with
  | defineFunction f' =>
      cases spelled' with
      | defineFunction function' =>
          simp only [Stmt.lines, List.append_assoc, List.singleton_append] at same
          obtain ⟨line, others⟩ := List.cons.inj same
          have chars := congrArg String.toList line
          simp only [String.toList_append, List.append_assoc] at chars
          obtain ⟨names, chars⟩ := Text.quote_append_inj (List.append_cancel_left chars)
          obtain ⟨lists, -⟩ := @parameters_append_inj _ _ " \x7b".toList " \x7b".toList
            spelled.parameters function'.parameters (List.append_cancel_left chars)
          obtain ⟨bodies, -, rests⟩ :=
            indented_append_inj (by simp [Outermost]) (by simp [Outermost]) others
          rw [spelled.ext function' names lists (inside function'.each bodies)]
          exact ⟨rfl, rests⟩
  | _ => cases form

theorem propertyLines_inj {properties properties' : List (String × Expr)}
    (named : ∀ property ∈ properties, Identifiers property.2.names)
    (named' : ∀ property ∈ properties', Identifiers property.2.names)
    (same : propertyLines properties = propertyLines properties') : properties = properties' := by
  induction properties generalizing properties' with
  | nil =>
      cases properties' with
      | nil => rfl
      | cons _ _ => cases same
  | cons property rest ih =>
      cases properties' with
      | nil => cases same
      | cons property' rest' =>
          obtain ⟨name, value⟩ := property
          obtain ⟨name', value'⟩ := property'
          obtain ⟨here, later⟩ := List.forall_mem_cons.mp named
          obtain ⟨here', later'⟩ := List.forall_mem_cons.mp named'
          obtain ⟨line, others⟩ := List.cons.inj same
          have chars := congrArg String.toList line
          simp only [String.toList_append, List.append_assoc] at chars
          obtain ⟨rfl, values⟩ := Text.quote_append_inj chars
          have comma : Done ",".toList := done_closer rfl []
          obtain ⟨rfl, -⟩ := (item_unique (.expr value)).expr here here' comma comma
            (List.append_cancel_left values)
          rw [ih later later' others]

/-- Methods that stand under their own names, and whose functions are spelled. -/
structure MethodsSpelled (methods : List (String × Function Stmt)) : Prop where
  keyed : ∀ method ∈ methods, method.2.name = method.1
  functions : ∀ method ∈ methods, SpelledFunction method.2

/-- The lines of the methods determine them. -/
def MethodsUnique (methods : List (String × Function Stmt)) : Prop :=
  ∀ {methods' : List (String × Function Stmt)}, MethodsSpelled methods' →
    methodLines methods = methodLines methods' → methods = methods'

theorem methods_nil : MethodsUnique [] := by
  intro methods' spelled' same
  cases methods' with
  | nil => rfl
  | cons method' rest' =>
      rw [methodLines, methodLines] at same
      cases same

theorem methods_cons {key : String} {f : Function Stmt} {rest : List (String × Function Stmt)}
    (keyed : f.name = key) (spelled : SpelledFunction f) (inside : BlockUnique f.body)
    (others : MethodsUnique rest) : MethodsUnique ((key, f) :: rest) := by
  intro methods' spelled' same
  cases methods' with
  | nil =>
      rw [methodLines, methodLines] at same
      cases same
  | cons method' rest' =>
      obtain ⟨key', f'⟩ := method'
      obtain ⟨keyed', functions'⟩ := spelled'
      obtain ⟨isKey', later'⟩ := List.forall_mem_cons.mp keyed'
      obtain ⟨function', moreFunctions'⟩ := List.forall_mem_cons.mp functions'
      simp only [methodLines, List.append_assoc, List.singleton_append] at same
      obtain ⟨line, lines⟩ := List.cons.inj same
      have chars := congrArg String.toList line
      simp only [String.toList_append, List.append_assoc] at chars
      obtain ⟨rfl, headers⟩ := Text.quote_append_inj chars
      obtain ⟨lists, -⟩ := @parameters_append_inj _ _ " \x7b".toList " \x7b".toList
        spelled.parameters function'.parameters (List.append_cancel_left headers)
      obtain ⟨bodies, -, rests⟩ :=
        indented_append_inj (by simp [Outermost]) (by simp [Outermost]) lines
      rw [spelled.ext function' (keyed.trans isKey'.symm) lists (inside function'.each bodies),
        others ⟨later', moreFunctions'⟩ rests]

theorem unique_defineClass {name : Expr} {properties : List (String × Expr)}
    {methods : List (String × Function Stmt)} (named : Identifiers name.names)
    (defaults : ∀ property ∈ properties, Identifiers property.2.names)
    (unique : MethodsUnique methods) : StmtUnique (.defineClass ⟨name, properties, methods⟩) := by
  intro s' rest rest' spelled' same
  have form := form_eq same
  cases s' with
  | defineClass definition' =>
      obtain ⟨name', properties', methods'⟩ := definition'
      cases spelled' with
      | defineClass named' defaults' keyed' functions' =>
          simp only [Stmt.lines, List.append_assoc, List.singleton_append] at same
          obtain ⟨line, others⟩ := List.cons.inj same
          have chars := congrArg String.toList line
          simp only [String.toList_append, List.append_assoc] at chars
          have brace : Done ", \x7b".toList := done_closer rfl _
          obtain ⟨rfl, -⟩ := (item_unique (.expr name)).expr named named' brace brace
            (List.append_cancel_left chars)
          obtain ⟨members, -, rests⟩ :=
            indented_append_inj (by simp [Outermost]) (by simp [Outermost]) others
          obtain ⟨inProperties, -, moreLines⟩ :=
            indented_append_inj (by simp [Outermost]) (by simp [Outermost]) (List.cons.inj members).2
          obtain ⟨inMethods, -, -⟩ :=
            indented_append_inj (by simp [Outermost]) (by simp [Outermost])
              (List.cons.inj moreLines).2
          obtain rfl := propertyLines_inj defaults defaults' inProperties
          obtain rfl := unique ⟨keyed', functions'⟩ inMethods
          exact ⟨rfl, rests⟩
  | _ => cases form

end blocks

end TreeScript.Code
