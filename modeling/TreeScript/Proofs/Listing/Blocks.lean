import TreeScript.Proofs.Listing.Statements

set_option autoImplicit false

/- The listing of a block determines it. Its lines do, by recursion over its statements and the blocks
inside them; and each of these lines is one line of the listing. -/
namespace TreeScript.Code

/-! The lines of a block determine it -/

theorem blockUnique_nil : BlockUnique [] := by
  intro b' spelled' same
  cases b' with
  | nil => rfl
  | cons s' rest' =>
      obtain ⟨line, rest, isLine, -⟩ := form_lines s'
      rw [blockLines, blockLines, isLine] at same
      cases same

theorem blockUnique_cons {s : Stmt} {b : Block} (first : StmtUnique s) (others : BlockUnique b) :
    BlockUnique (s :: b) := by
  intro b' spelled' same
  cases b' with
  | nil =>
      obtain ⟨line, rest, isLine, -⟩ := form_lines s
      rw [blockLines, blockLines, isLine] at same
      cases same
  | cons s' rest' =>
      obtain ⟨here, later⟩ := List.forall_mem_cons.mp spelled'
      rw [blockLines, blockLines] at same
      obtain ⟨rfl, lines⟩ := first here same
      rw [others later lines]

mutual
theorem stmt_unique : (s : Stmt) → Spelled s → StmtUnique s
  | .defineVariables names, _ => unique_defineVariables names
  | .bindArgument name index, spelled => unique_bare (.bindArgument name index) spelled rfl
  | .bindThis, spelled => unique_bare .bindThis spelled rfl
  | .expression e, spelled => unique_bare (.expression e) spelled rfl
  | .echo e, spelled => unique_output (.echo e) spelled
  | .inlineHtml html, spelled => unique_output (.inlineHtml html) spelled
  | .ret _, spelled => unique_ret spelled
  | .ifElse _ consequent alternate, .ifElse named first second =>
      unique_ifElse named (block_unique consequent first) (block_unique alternate second)
  | .foreach _ _ _ _ _ body, .foreach walked keyed valued each =>
      unique_foreach walked keyed valued (block_unique body each)
  | .scoped body, .scoped each => unique_scoped (block_unique body each)
  | .defineFunction ⟨_, _, body, _⟩, .defineFunction function =>
      unique_defineFunction function (block_unique body function.each)
  | .defineClass ⟨_, _, methods⟩, .defineClass named defaults keyed functions =>
      unique_defineClass named defaults (methods_unique methods ⟨keyed, functions⟩)

theorem methods_unique :
    (methods : List (String × Function Stmt)) → MethodsSpelled methods → MethodsUnique methods
  | [], _ => methods_nil
  | (_, ⟨_, _, body, _⟩) :: rest, spelled =>
      have keyed := List.forall_mem_cons.mp spelled.keyed
      have functions := List.forall_mem_cons.mp spelled.functions
      methods_cons keyed.1 functions.1 (block_unique body functions.1.each)
        (methods_unique rest ⟨keyed.2, functions.2⟩)

theorem block_unique : (b : Block) → AllSpelled b → BlockUnique b
  | [], _ => blockUnique_nil
  | s :: rest, spelled =>
      have parts := List.forall_mem_cons.mp spelled
      blockUnique_cons (stmt_unique s parts.1) (block_unique rest parts.2)
end

/-! Each of its lines is one line -/

section oneLine

theorem expr_oneLine {e : Expr} (named : Identifiers e.names) : '\n' ∉ e.text.toList :=
  item_oneLine (.expr e) named

theorem place_oneLine {p : Place} (named : Identifiers p.names) : '\n' ∉ p.text.toList :=
  item_oneLine (.place p) named

theorem number_oneLine (n : Nat) : '\n' ∉ (toString n).toList := (token_natural n).oneLine

theorem names_oneLine (names : List String) :
    '\n' ∉ (commaSeparated (names.map Text.quote)).toList := by
  refine listed_oneLine fun text member => ?_
  obtain ⟨name, -, rfl⟩ := List.mem_map.mp member
  exact Text.newline_notMem_quote name

theorem parameters_oneLine {names : List String} (named : Identifiers names) :
    '\n' ∉ (parameterList names).toList := by
  refine listed_oneLine fun text member => ?_
  obtain ⟨name, isName, rfl⟩ := List.mem_map.mp member
  have letters : '\n' ∉ name.toList := (token_name (named name isName)).oneLine
  simp [letters]

theorem properties_oneLine {properties : List (String × Expr)}
    (named : ∀ property ∈ properties, Identifiers property.2.names) :
    OnOneLine (propertyLines properties) := by
  intro line member
  obtain ⟨property, isProperty, rfl⟩ := List.mem_map.mp member
  have inName := Text.newline_notMem_quote property.1
  have inValue := expr_oneLine (named property isProperty)
  simp [inName, inValue]

theorem loopOpening_oneLine (slot : Nat) {array : Expr} {key : Option Place} {value : Place}
    (byReference : Bool) (walked : Identifiers array.names)
    (keyed : ∀ k ∈ key, Identifiers k.names) (valued : Identifiers value.names) :
    OnOneLine (loopOpening slot array key value byReference) := by
  have inSlot := number_oneLine slot
  have inArray := expr_oneLine walked
  have inValue := place_oneLine valued
  rw [loopOpening_eq]
  generalize toString slot = n at inSlot ⊢
  have behind (taken : Taken) : '\n' ∉ (taken.text n).toList := by
    have inVerb := taken.verb.name_letters.2.1
    rw [Taken.toList_text]
    cases taken <;> simp [inVerb, inSlot, Taken.accessor, Taken.rest]
  have inRound : OnOneLine (roundLines n key value byReference) := by
    unfold roundLines
    cases key with
    | none => simp [inValue, behind]
    | some k => simp [place_oneLine (keyed k rfl), inValue, behind]
  simp [inSlot, inArray, inRound]

theorem single_oneLine {lead : Lead} {s : Stmt} {i : Item} {r : List Char}
    (single : Single lead s i r) (spelled : Spelled s) : OnOneLine s.lines := by
  obtain ⟨line, isLine, text⟩ := single.line
  have inLead : '\n' ∉ lead.text.toList := by cases lead <;> decide
  have inItem : '\n' ∉ i.chars := item_oneLine i (single.named spelled)
  have inRest : '\n' ∉ r := by
    cases single with
    | bindArgument name index => simpa using number_oneLine index
    | _ => decide
  rw [isLine, oneLine_cons, text]
  simp [inLead, inItem, inRest]

mutual
theorem lines_oneLine : (s : Stmt) → Spelled s → OnOneLine s.lines
  | .defineVariables names, _ => by simp [Stmt.lines, names_oneLine names]
  | .bindArgument name index, spelled => single_oneLine (.bindArgument name index) spelled
  | .bindThis, spelled => single_oneLine .bindThis spelled
  | .expression e, spelled => single_oneLine (.expression e) spelled
  | .echo e, spelled => single_oneLine (.echo e) spelled
  | .inlineHtml html, spelled => single_oneLine (.inlineHtml html) spelled
  | .ret none, _ => by simp [Stmt.lines]
  | .ret (some e), spelled => single_oneLine (.ret e) spelled
  | .ifElse _ consequent alternate, .ifElse named first second => by
      simp [Stmt.lines, expr_oneLine named, block_oneLine consequent first,
        block_oneLine alternate second]
  | .foreach slot _ _ _ byReference body, .foreach walked keyed valued each => by
      simp [Stmt.lines, loopOpening_oneLine slot byReference walked keyed valued,
        block_oneLine body each]
  | .scoped body, .scoped each => by simp [Stmt.lines, block_oneLine body each]
  | .defineFunction ⟨name, _, body, _⟩, .defineFunction function => by
      simp [Stmt.lines, Text.newline_notMem_quote name, parameters_oneLine function.parameters,
        block_oneLine body function.each]
  | .defineClass ⟨_, _, methods⟩, .defineClass named defaults _ functions => by
      simp [Stmt.lines, expr_oneLine named, properties_oneLine defaults,
        methods_oneLine methods functions]

theorem methods_oneLine : (methods : List (String × Function Stmt)) →
    (∀ method ∈ methods, SpelledFunction method.2) → OnOneLine (methodLines methods)
  | [], _ => oneLine_nil
  | (key, ⟨_, _, body, _⟩) :: rest, spelled => by
      obtain ⟨function, others⟩ := List.forall_mem_cons.mp spelled
      simp [methodLines, Text.newline_notMem_quote key, parameters_oneLine function.parameters,
        block_oneLine body function.each, methods_oneLine rest others]

theorem block_oneLine : (b : Block) → AllSpelled b → OnOneLine (blockLines b)
  | [], _ => oneLine_nil
  | s :: rest, spelled =>
      have parts := List.forall_mem_cons.mp spelled
      oneLine_append.mpr ⟨lines_oneLine s parts.1, block_oneLine rest parts.2⟩
end

end oneLine

/-! Listings -/

/-- The listing of a block determines it. -/
theorem listing_inj {b b' : Block} (spelled : AllSpelled b) (spelled' : AllSpelled b')
    (same : listing b = listing b') : b = b' :=
  block_unique b spelled spelled'
    (listing_lines (block_oneLine b spelled) (block_oneLine b' spelled') same)

end TreeScript.Code
