import TreeScript.Proofs.Json.Texts
import TreeScript.Proofs.Tree.Spelling

set_option autoImplicit false

/- A tree is read as it was from each of its spellings, and so from its text. -/
namespace TreeScript.Tree

/-- Every spelling of the value that nests less deep than the limit is read as the given result. -/
def ReadsAs {α : Type} (read : Json → Option α) (limit : Nat) (written : Json) (a : α) : Prop :=
  ∀ j, Respells written j → j.depth < limit → read j = some a

/-- What a spelling has for one field, nesting less deep than the limit. -/
def Answered (defaults : List (String × Json)) (limit : Nat) (field : String × Json)
    (answer : Option Json) : Prop :=
  match answer with
  | some j => Respells field.2 j ∧ j.depth < limit
  | none => field ∈ defaults

theorem Answers.answered {defaults record : List (String × Json)} {answers : List (Option Json)}
    {limit : Nat} (each : Answers defaults record answers)
    (within : ∀ j, some j ∈ answers → j.depth < limit) :
    List.Forall₂ (Answered defaults limit) record answers := by
  induction record generalizing answers with
  | nil =>
      cases each
      exact .nil
  | cons field record ih =>
      cases each with
      | given first rest =>
          exact .cons ⟨first, within _ List.mem_cons_self⟩
            (ih rest fun j later => within j (List.mem_cons_of_mem _ later))
      | omitted default rest =>
          exact .cons default (ih rest fun j later => within j (List.mem_cons_of_mem _ later))

/-! Fields -/

section fields

variable {α : Type} {read : Json → Option α} {limit : Nat} {written : Json} {a : α}
  {defaults : List (String × Json)} {name : String} {answer : Option Json}

theorem ReadsAs.required (reads : ReadsAs read limit written a)
    (must : name ∉ defaults.map Prod.fst)
    (answered : Answered defaults limit (name, written) answer) :
    required read answer = some a := by
  cases answer with
  | none => exact absurd (List.mem_map_of_mem answered) must
  | some j => exact reads j answered.1 answered.2

theorem ReadsAs.defaulted (default : α) (reads : ReadsAs read limit written a)
    (left : (name, written) ∈ defaults → a = default)
    (answered : Answered defaults limit (name, written) answer) :
    defaulted default read answer = some a := by
  cases answer with
  | none => exact congrArg some (left answered).symm
  | some j => exact reads j answered.1 answered.2

theorem ReadsAs.optional {o : Option α}
    (reads : ReadsAs (fun j => Tree.optional read (some j)) limit written o)
    (left : (name, written) ∈ defaults → o = none)
    (answered : Answered defaults limit (name, written) answer) :
    Tree.optional read answer = some o := by
  cases answer with
  | none =>
      rw [left answered]
      rfl
  | some j => exact reads j answered.1 answered.2

end fields

theorem string_reads (s : String) (limit : Nat) : ReadsAs readString limit (.string s) s := by
  intro j spelled _
  cases spelled
  rfl

theorem bool_reads (b : Bool) (limit : Nat) : ReadsAs readBool limit (.bool b) b := by
  intro j spelled _
  cases spelled
  rfl

theorem float_reads (x : Float) (limit : Nat) :
    ReadsAs readFloat limit (.number (.real x)) x := by
  intro j spelled _
  cases spelled
  rfl

theorem integer_reads (n : Int64) (limit : Nat) :
    ReadsAs readInteger limit (Json.ofInt64 n) n := by
  intro j spelled _
  unfold Json.ofInt64 at spelled
  by_cases negative : n < 0
  · rw [if_pos negative] at spelled
    cases spelled
    rfl
  · rw [if_neg negative] at spelled
    cases spelled
    have positive : 0 ≤ n.toBitVec.toInt := by
      rw [Int64.lt_iff_toInt_lt] at negative
      exact Int.not_lt.mp negative
    have size : n.toBitVec.toNat < 9223372036854775808 := by
      rw [BitVec.toInt_eq_toNat_cond] at positive
      split at positive <;> omega
    rw [readInteger, if_pos (show n.toUInt64.toNat < 9223372036854775808 from size)]
    simp

theorem list_reads {α : Type} {read : Json → Option α} {limit : Nat} {written : List Json}
    {as : List α} (each : List.Forall₂ (ReadsAs read limit) written as) :
    ReadsAs (readList read) limit (.array written) as := by
  intro j spelled within
  cases spelled with
  | @array _ given spelled =>
      apply mapM_of_forall
      have within : ∀ j ∈ given, j.depth < limit := fun j member =>
        lt_of_le_of_lt (depth_item member) (Nat.lt_of_succ_lt within)
      clear * - each spelled within
      induction each generalizing given with
      | nil =>
          cases spelled
          exact .nil
      | cons first _ ih =>
          cases spelled with
          | cons head rest =>
              exact .cons (first _ head (within _ List.mem_cons_self))
                (ih rest fun j later => within j (List.mem_cons_of_mem _ later))

/-! Records -/

/-- A step of a chain is read when it is put together from what any spelling has for its
fields. -/
theorem step_reads {α : Type} {read : Json → Option α} {limit : Nat}
    {record : List (String × Json)} {a : α} (names : List String)
    (declared : record.map Prod.fst = names) (distinct : names.Nodup)
    (noKind : defaultsOf record = stepDefaults)
    (build : ∀ j answers, fields names j = some answers →
      List.Forall₂ (Answered stepDefaults limit) record answers → read j = some a) :
    ReadsAs read limit (.object record) a := by
  intro j spelled within
  obtain ⟨answers, each, found, bounded⟩ := spelled.step (declared ▸ distinct)
  rw [noKind] at each
  exact build j answers (declared ▸ found)
    (each.answered fun j' member => lt_trans (bounded j' member) within)

theorem declared_distinct (kind : Kind) : ("name" :: declaredFields kind).Nodup := by
  cases kind <;> decide

/-- A node is read when it is put together from what any spelling has for its fields. -/
theorem node_reads {kind : Kind} {record : List (String × Json)} {n : Node}
    (declared : record.map Prod.fst = declaredFields kind)
    (build : ∀ limit answers, List.Forall₂ (Answered (defaults kind) limit) record answers →
      assemble (readNode true limit) kind answers = some n) (nested : Bool) (limit : Nat) :
    ReadsAs (readNode nested limit) limit (Node.record kind record) n := by
  intro j spelled within
  obtain ⟨content, answers, each, isKind, found, bounded⟩ :=
    spelled.node (declared ▸ declared_distinct kind) nested
  obtain ⟨limit, rfl⟩ : ∃ l, limit = l + 1 := ⟨limit - 1, by omega⟩
  rw [declared] at found
  have all := each.answered fun j' member =>
    lt_of_lt_of_le (bounded j' member) (Nat.le_of_lt_succ within)
  simp only [readNode, isKind, found, build limit answers all, Option.bind_eq_bind,
    Option.bind_some]

/-! What is written in place of a default -/

@[simp] theorem toJsons_eq_nil {nodes : List Node} : Node.toJsons nodes = [] ↔ nodes = [] := by
  cases nodes <;> simp [Node.toJsons]

@[simp] theorem operationsToJson_eq_nil {operations : List (Operation Node)} :
    Node.operationsToJson operations = [] ↔ operations = [] := by
  cases operations <;> simp [Node.operationsToJson]

/-- A node is written as an object that opens with its kind, and then has its declared fields. -/
theorem toJson_record (n : Node) : ∃ record : List (String × Json),
    n.toJson = Node.record n.kind record ∧ record.map Prod.fst = declaredFields n.kind := by
  cases n <;> exact ⟨_, rfl, rfl⟩

@[simp] theorem optionToJson_eq_null {o : Option Node} :
    Node.optionToJson o = .null ↔ o = none := by
  cases o with
  | none => simp [Node.optionToJson]
  | some n =>
      obtain ⟨record, written, -⟩ := toJson_record n
      simp [Node.optionToJson, written, Node.record]

/-! The steps of chains -/

section steps

variable {node : Json → Option Node} {limit : Nat}

theorem operation_reads (operator : String) {operand : Node}
    (reads : ReadsAs node limit operand.toJson operand) :
    ReadsAs (readOperation node) limit
      (.object [("operator", .string operator), ("operand", operand.toJson)])
      ⟨operator, operand⟩ := by
  refine step_reads ["operator", "operand"] rfl (by decide) rfl ?_
  rintro j _ found (_ | ⟨atOperator, _ | ⟨atOperand, _ | _⟩⟩)
  simp [readOperation, found, (string_reads operator limit).required (by decide) atOperator,
    reads.required (by decide) atOperand]

theorem call_reads {method : Node} {arguments : List Node}
    (reads : ReadsAs node limit method.toJson method)
    (each : List.Forall₂ (ReadsAs node limit) (Node.toJsons arguments) arguments) :
    ReadsAs (readCall node) limit
      (.object [("func", method.toJson), ("args", .array (Node.toJsons arguments))])
      ⟨method, arguments⟩ := by
  refine step_reads ["func", "args"] rfl (by decide) rfl ?_
  rintro j _ found (_ | ⟨atMethod, _ | ⟨atArguments, _ | _⟩⟩)
  simp [readCall, found, reads.required (by decide) atMethod,
    (list_reads each).defaulted [] (by simp [stepDefaults]) atArguments]

theorem choice_reads {consequent alternate : Node}
    (reads : ReadsAs node limit consequent.toJson consequent)
    (otherwise : ReadsAs node limit alternate.toJson alternate) :
    ReadsAs (readChoice node) limit
      (.object [("consequent", consequent.toJson), ("alternate", alternate.toJson)])
      ⟨consequent, alternate⟩ := by
  refine step_reads ["consequent", "alternate"] rfl (by decide) rfl ?_
  rintro j _ found (_ | ⟨atConsequent, _ | ⟨atAlternate, _ | _⟩⟩)
  simp [readChoice, found, reads.required (by decide) atConsequent,
    otherwise.required (by decide) atAlternate]

theorem index_reads {index : Option Node}
    (reads : ReadsAs (fun j => optional node (some j)) limit (Node.optionToJson index) index) :
    ReadsAs (readIndex node) limit (.object [("index", Node.optionToJson index)]) index := by
  refine step_reads ["index"] rfl (by decide) rfl ?_
  rintro j _ found (_ | ⟨atIndex, _ | _⟩)
  simp [readIndex, found, reads.optional (by simp [stepDefaults]) atIndex]

theorem property_reads {property : Node} (reads : ReadsAs node limit property.toJson property) :
    ReadsAs (readProperty node) limit (.object [("property", property.toJson)]) property := by
  refine step_reads ["property"] rfl (by decide) rfl ?_
  rintro j _ found (_ | ⟨atProperty, _ | _⟩)
  simp [readProperty, found, reads.required (by decide) atProperty]

end steps

/-! Nodes -/

mutual
/-- A node is read from each of its spellings, by its kind. -/
theorem toJson_reads : ∀ (n : Node) (nested : Bool) (limit : Nat),
    ReadsAs (readNode nested limit) limit n.toJson n
  | .program statements, nested, limit => by
      refine node_reads rfl ?_ nested limit
      rintro limit _ (_ | ⟨atStatements, _ | _⟩)
      simp [assemble,
        (list_reads (toJsons_read statements limit)).required (by decide) atStatements]
  | .classStatement className members, nested, limit => by
      refine node_reads rfl ?_ nested limit
      rintro limit _ (_ | ⟨atClassName, _ | ⟨atMembers, _ | _⟩⟩)
      simp [assemble, (toJson_reads className true limit).required (by decide) atClassName,
        (list_reads (toJsons_read members limit)).defaulted [] (by simp [defaults]) atMembers]
  | .echoStatement operand, nested, limit => by
      refine node_reads rfl ?_ nested limit
      rintro limit _ (_ | ⟨atOperand, _ | _⟩)
      simp [assemble, (toJson_reads operand true limit).required (by decide) atOperand]
  | .expressionStatement operand, nested, limit => by
      refine node_reads rfl ?_ nested limit
      rintro limit _ (_ | ⟨atOperand, _ | _⟩)
      simp [assemble, (toJson_reads operand true limit).required (by decide) atOperand]
  | .foreachStatement array key value statements, nested, limit => by
      refine node_reads rfl ?_ nested limit
      rintro limit _ (_ | ⟨atArray, _ | ⟨atKey, _ | ⟨atValue, _ | ⟨atStatements, _ | _⟩⟩⟩⟩)
      simp [assemble, (toJson_reads array true limit).required (by decide) atArray,
        (option_reads key limit).optional (by simp [defaults]) atKey,
        (toJson_reads value true limit).required (by decide) atValue,
        (list_reads (toJsons_read statements limit)).defaulted [] (by simp [defaults]) atStatements]
  | .functionStatement name parameters statements, nested, limit => by
      refine node_reads rfl ?_ nested limit
      rintro limit _ (_ | ⟨atName, _ | ⟨atParameters, _ | ⟨atStatements, _ | _⟩⟩⟩)
      simp [assemble, (string_reads name limit).required (by decide) atName,
        (list_reads (toJsons_read parameters limit)).defaulted [] (by simp [defaults]) atParameters,
        (list_reads (toJsons_read statements limit)).defaulted [] (by simp [defaults]) atStatements]
  | .ifStatement condition consequent alternate, nested, limit => by
      refine node_reads rfl ?_ nested limit
      rintro limit _ (_ | ⟨atCondition, _ | ⟨atConsequent, _ | ⟨atAlternate, _ | _⟩⟩⟩)
      simp [assemble, (toJson_reads condition true limit).required (by decide) atCondition,
        (list_reads (toJsons_read consequent limit)).defaulted [] (by simp [defaults]) atConsequent,
        (list_reads (toJsons_read alternate limit)).defaulted [] (by simp [defaults]) atAlternate]
  | .inlineHtmlStatement html, nested, limit => by
      refine node_reads rfl ?_ nested limit
      rintro limit _ (_ | ⟨atHtml, _ | _⟩)
      simp [assemble, (string_reads html limit).required (by decide) atHtml]
  | .returnStatement operand, nested, limit => by
      refine node_reads rfl ?_ nested limit
      rintro limit _ (_ | ⟨atOperand, _ | _⟩)
      simp [assemble, (option_reads operand limit).optional (by simp [defaults]) atOperand]
  | .methodDefinition name parameters statements, nested, limit => by
      refine node_reads rfl ?_ nested limit
      rintro limit _ (_ | ⟨atName, _ | ⟨atParameters, _ | ⟨atStatements, _ | _⟩⟩⟩)
      simp [assemble, (toJson_reads name true limit).required (by decide) atName,
        (list_reads (toJsons_read parameters limit)).defaulted [] (by simp [defaults]) atParameters,
        (list_reads (toJsons_read statements limit)).defaulted [] (by simp [defaults]) atStatements]
  | .propertyDefinition target value, nested, limit => by
      refine node_reads rfl ?_ nested limit
      rintro limit _ (_ | ⟨atTarget, _ | ⟨atValue, _ | _⟩⟩)
      simp [assemble, (toJson_reads target true limit).required (by decide) atTarget,
        (option_reads value limit).optional (by simp [defaults]) atValue]
  | .arrayIndex array indices reference, nested, limit => by
      refine node_reads rfl ?_ nested limit
      rintro limit _ (_ | ⟨atArray, _ | ⟨atIndices, _ | ⟨atReference, _ | _⟩⟩⟩)
      simp [assemble, (toJson_reads array true limit).required (by decide) atArray,
        (list_reads (indices_read indices limit)).required (by decide) atIndices,
        (bool_reads reference limit).defaulted false (by simp [defaults]) atReference]
  | .arrayLiteral elements, nested, limit => by
      refine node_reads rfl ?_ nested limit
      rintro limit _ (_ | ⟨atElements, _ | _⟩)
      simp [assemble,
        (list_reads (toJsons_read elements limit)).defaulted [] (by simp [defaults]) atElements]
  | .boolean value, nested, limit => by
      refine node_reads rfl ?_ nested limit
      rintro limit _ (_ | ⟨atValue, _ | _⟩)
      simp [assemble, (bool_reads value limit).required (by decide) atValue]
  | .expression left right, nested, limit => by
      refine node_reads rfl ?_ nested limit
      rintro limit _ (_ | ⟨atLeft, _ | ⟨atRight, _ | _⟩⟩)
      simp [assemble, (toJson_reads left true limit).required (by decide) atLeft,
        (list_reads (operations_read right limit)).defaulted [] (by simp [defaults]) atRight]
  | .float number, nested, limit => by
      refine node_reads rfl ?_ nested limit
      rintro limit _ (_ | ⟨atNumber, _ | _⟩)
      simp [assemble, (float_reads number limit).required (by decide) atNumber]
  | .functionCall function arguments, nested, limit => by
      refine node_reads rfl ?_ nested limit
      rintro limit _ (_ | ⟨atFunction, _ | ⟨atArguments, _ | _⟩⟩)
      simp [assemble, (toJson_reads function true limit).required (by decide) atFunction,
        (list_reads (toJsons_read arguments limit)).defaulted [] (by simp [defaults]) atArguments]
  | .integer number, nested, limit => by
      refine node_reads rfl ?_ nested limit
      rintro limit _ (_ | ⟨atNumber, _ | _⟩)
      simp [assemble, (integer_reads number limit).required (by decide) atNumber]
  | .keyValuePair key value, nested, limit => by
      refine node_reads rfl ?_ nested limit
      rintro limit _ (_ | ⟨atKey, _ | ⟨atValue, _ | _⟩⟩)
      simp [assemble, (toJson_reads key true limit).required (by decide) atKey,
        (toJson_reads value true limit).required (by decide) atValue]
  | .list elements, nested, limit => by
      refine node_reads rfl ?_ nested limit
      rintro limit _ (_ | ⟨atElements, _ | _⟩)
      simp [assemble, (list_reads (toJsons_read elements limit)).required (by decide) atElements]
  | .methodCall object calls, nested, limit => by
      refine node_reads rfl ?_ nested limit
      rintro limit _ (_ | ⟨atObject, _ | ⟨atCalls, _ | _⟩⟩)
      simp [assemble, (toJson_reads object true limit).required (by decide) atObject,
        (list_reads (calls_read calls limit)).required (by decide) atCalls]
  | .newExpression className arguments, nested, limit => by
      refine node_reads rfl ?_ nested limit
      rintro limit _ (_ | ⟨atClassName, _ | ⟨atArguments, _ | _⟩⟩)
      simp [assemble, (toJson_reads className true limit).required (by decide) atClassName,
        (list_reads (toJsons_read arguments limit)).defaulted [] (by simp [defaults]) atArguments]
  | .objectProperty object properties reference, nested, limit => by
      refine node_reads rfl ?_ nested limit
      rintro limit _ (_ | ⟨atObject, _ | ⟨atProperties, _ | ⟨atReference, _ | _⟩⟩⟩)
      simp [assemble, (toJson_reads object true limit).required (by decide) atObject,
        (list_reads (properties_read properties limit)).required (by decide) atProperties,
        (bool_reads reference limit).defaulted false (by simp [defaults]) atReference]
  | .string text, nested, limit => by
      refine node_reads rfl ?_ nested limit
      rintro limit _ (_ | ⟨atText, _ | _⟩)
      simp [assemble, (string_reads text limit).required (by decide) atText]
  | .stringLiteral text, nested, limit => by
      refine node_reads rfl ?_ nested limit
      rintro limit _ (_ | ⟨atText, _ | _⟩)
      simp [assemble, (string_reads text limit).required (by decide) atText]
  | .ternary condition options, nested, limit => by
      refine node_reads rfl ?_ nested limit
      rintro limit _ (_ | ⟨atCondition, _ | ⟨atOptions, _ | _⟩⟩)
      simp [assemble, (toJson_reads condition true limit).required (by decide) atCondition,
        (list_reads (choices_read options limit)).required (by decide) atOptions]
  | .unaryExpression operator operand leading, nested, limit => by
      refine node_reads rfl ?_ nested limit
      rintro limit _ (_ | ⟨atOperator, _ | ⟨atOperand, _ | ⟨atLeading, _ | _⟩⟩⟩)
      simp [assemble, (string_reads operator limit).required (by decide) atOperator,
        (toJson_reads operand true limit).required (by decide) atOperand,
        (bool_reads leading limit).defaulted true (by simp [defaults]) atLeading]
  | .variable name reference, nested, limit => by
      refine node_reads rfl ?_ nested limit
      rintro limit _ (_ | ⟨atName, _ | ⟨atReference, _ | _⟩⟩)
      simp [assemble, (string_reads name limit).required (by decide) atName,
        (bool_reads reference limit).defaulted false (by simp [defaults]) atReference]
  | .void, nested, limit => by
      refine node_reads rfl ?_ nested limit
      rintro limit _ (_ | _)
      rfl

theorem toJsons_read : ∀ (nodes : List Node) (limit : Nat),
    List.Forall₂ (ReadsAs (readNode true limit) limit) (Node.toJsons nodes) nodes
  | [], _ => .nil
  | n :: rest, limit => .cons (toJson_reads n true limit) (toJsons_read rest limit)

theorem option_reads : ∀ (o : Option Node) (limit : Nat),
    ReadsAs (fun j => optional (readNode true limit) (some j)) limit (Node.optionToJson o) o
  | none, _ => by
      intro j spelled _
      cases spelled
      rfl
  | some n, limit => by
      intro j spelled within
      have isNode := toJson_reads n true limit j spelled within
      cases j with
      | null => cases limit <;> cases isNode
      | _ => simp [optional, isNode]

theorem indices_read : ∀ (indices : List (Option Node)) (limit : Nat),
    List.Forall₂ (ReadsAs (readIndex (readNode true limit)) limit) (Node.indicesToJson indices)
      indices
  | [], _ => .nil
  | index :: rest, limit =>
      .cons (index_reads (option_reads index limit)) (indices_read rest limit)

theorem properties_read : ∀ (properties : List Node) (limit : Nat),
    List.Forall₂ (ReadsAs (readProperty (readNode true limit)) limit)
      (Node.propertiesToJson properties) properties
  | [], _ => .nil
  | property :: rest, limit =>
      .cons (property_reads (toJson_reads property true limit)) (properties_read rest limit)

theorem operations_read : ∀ (operations : List (Operation Node)) (limit : Nat),
    List.Forall₂ (ReadsAs (readOperation (readNode true limit)) limit)
      (Node.operationsToJson operations) operations
  | [], _ => .nil
  | ⟨operator, operand⟩ :: rest, limit =>
      .cons (operation_reads operator (toJson_reads operand true limit))
        (operations_read rest limit)

theorem calls_read : ∀ (calls : List (Call Node)) (limit : Nat),
    List.Forall₂ (ReadsAs (readCall (readNode true limit)) limit) (Node.callsToJson calls) calls
  | [], _ => .nil
  | ⟨method, arguments⟩ :: rest, limit =>
      .cons (call_reads (toJson_reads method true limit) (toJsons_read arguments limit))
        (calls_read rest limit)

theorem choices_read : ∀ (options : List (Choice Node)) (limit : Nat),
    List.Forall₂ (ReadsAs (readChoice (readNode true limit)) limit) (Node.choicesToJson options)
      options
  | [], _ => .nil
  | ⟨consequent, alternate⟩ :: rest, limit =>
      .cons (choice_reads (toJson_reads consequent true limit) (toJson_reads alternate true limit))
        (choices_read rest limit)
end

/-- A tree is read from each of its spellings. -/
theorem ofJson_respelled {n : Node} {j : Json} (spelled : Respells n.toJson j) :
    ofJson j = some n :=
  toJson_reads n false (j.depth + 1) j spelled (Nat.lt_succ_self _)

/-! The numbers of a tree -/

/-- Each number in the value that is no double is read as it is written. -/
def Exact (j : Json) : Prop := ∀ x ∈ j.numbers, (∃ y, x = .real y) ∨ x.ReadsBack

@[simp] theorem exact_null : Exact .null := fun _ none => nomatch none

@[simp] theorem exact_bool (b : Bool) : Exact (.bool b) := fun _ none => nomatch none

@[simp] theorem exact_string (s : String) : Exact (.string s) := fun _ none => nomatch none

@[simp] theorem exact_real (x : Float) : Exact (.number (.real x)) := by
  intro y member
  exact .inl ⟨x, List.mem_singleton.mp member⟩

@[simp] theorem exact_items_nil : Exact (.array []) := fun _ none => nomatch none

@[simp] theorem exact_items_cons {j : Json} {rest : List Json} :
    Exact (.array (j :: rest)) ↔ Exact j ∧ Exact (.array rest) := by
  simp only [Exact, Json.numbers, Json.numbers.numbersItems, List.mem_append, or_imp, forall_and]

@[simp] theorem exact_fields_nil : Exact (.object []) := fun _ none => nomatch none

@[simp] theorem exact_fields_cons {field : String × Json} {rest : List (String × Json)} :
    Exact (.object (field :: rest)) ↔ Exact field.2 ∧ Exact (.object rest) := by
  simp only [Exact, Json.numbers, Json.numbers.numbersFields, List.mem_append, or_imp, forall_and]

theorem integer_exact (n : Int64) : Exact (Json.ofInt64 n) := by
  intro x member
  unfold Json.ofInt64 at member
  split at member
  · next negative =>
      cases List.mem_singleton.mp member
      exact .inr (JsonNumber.negative_readsBack negative)
  · cases List.mem_singleton.mp member
    exact .inr (JsonNumber.natural_readsBack _)

mutual
theorem toJson_exact : ∀ n : Node, Exact n.toJson
  | .program statements => by simp [Node.toJson, Node.record, toJsons_exact statements]
  | .classStatement className members => by
      simp [Node.toJson, Node.record, toJson_exact className, toJsons_exact members]
  | .echoStatement operand => by simp [Node.toJson, Node.record, toJson_exact operand]
  | .expressionStatement operand => by simp [Node.toJson, Node.record, toJson_exact operand]
  | .foreachStatement array key value statements => by
      simp [Node.toJson, Node.record, toJson_exact array, option_exact key,
        toJson_exact value, toJsons_exact statements]
  | .functionStatement _ parameters statements => by
      simp [Node.toJson, Node.record, toJsons_exact parameters, toJsons_exact statements]
  | .ifStatement condition consequent alternate => by
      simp [Node.toJson, Node.record, toJson_exact condition,
        toJsons_exact consequent, toJsons_exact alternate]
  | .inlineHtmlStatement _ => by simp [Node.toJson, Node.record]
  | .returnStatement operand => by simp [Node.toJson, Node.record, option_exact operand]
  | .methodDefinition name parameters statements => by
      simp [Node.toJson, Node.record, toJson_exact name,
        toJsons_exact parameters, toJsons_exact statements]
  | .propertyDefinition target value => by
      simp [Node.toJson, Node.record, toJson_exact target, option_exact value]
  | .arrayIndex array indices _ => by
      simp [Node.toJson, Node.record, toJson_exact array, indices_exact indices]
  | .arrayLiteral elements => by simp [Node.toJson, Node.record, toJsons_exact elements]
  | .boolean _ => by simp [Node.toJson, Node.record]
  | .expression left right => by
      simp [Node.toJson, Node.record, toJson_exact left, operations_exact right]
  | .float _ => by simp [Node.toJson, Node.record]
  | .functionCall function arguments => by
      simp [Node.toJson, Node.record, toJson_exact function, toJsons_exact arguments]
  | .integer number => by simp [Node.toJson, Node.record, integer_exact number]
  | .keyValuePair key value => by
      simp [Node.toJson, Node.record, toJson_exact key, toJson_exact value]
  | .list elements => by simp [Node.toJson, Node.record, toJsons_exact elements]
  | .methodCall object calls => by
      simp [Node.toJson, Node.record, toJson_exact object, calls_exact calls]
  | .newExpression className arguments => by
      simp [Node.toJson, Node.record, toJson_exact className, toJsons_exact arguments]
  | .objectProperty object properties _ => by
      simp [Node.toJson, Node.record, toJson_exact object, properties_exact properties]
  | .string _ => by simp [Node.toJson, Node.record]
  | .stringLiteral _ => by simp [Node.toJson, Node.record]
  | .ternary condition options => by
      simp [Node.toJson, Node.record, toJson_exact condition, choices_exact options]
  | .unaryExpression _ operand _ => by simp [Node.toJson, Node.record, toJson_exact operand]
  | .variable _ _ => by simp [Node.toJson, Node.record]
  | .void => by simp [Node.toJson, Node.record]

theorem toJsons_exact : ∀ nodes : List Node, Exact (.array (Node.toJsons nodes))
  | [] => by simp [Node.toJsons]
  | n :: rest => by simp [Node.toJsons, toJson_exact n, toJsons_exact rest]

theorem option_exact : ∀ o : Option Node, Exact (Node.optionToJson o)
  | none => by simp [Node.optionToJson]
  | some n => by simp [Node.optionToJson, toJson_exact n]

theorem indices_exact : ∀ indices : List (Option Node), Exact (.array (Node.indicesToJson indices))
  | [] => by simp [Node.indicesToJson]
  | index :: rest => by simp [Node.indicesToJson, option_exact index, indices_exact rest]

theorem properties_exact : ∀ properties : List Node,
    Exact (.array (Node.propertiesToJson properties))
  | [] => by simp [Node.propertiesToJson]
  | n :: rest => by simp [Node.propertiesToJson, toJson_exact n, properties_exact rest]

theorem operations_exact : ∀ operations : List (Operation Node),
    Exact (.array (Node.operationsToJson operations))
  | [] => by simp [Node.operationsToJson]
  | ⟨_, operand⟩ :: rest => by
      simp [Node.operationsToJson, toJson_exact operand, operations_exact rest]

theorem calls_exact : ∀ calls : List (Call Node), Exact (.array (Node.callsToJson calls))
  | [] => by simp [Node.callsToJson]
  | ⟨method, arguments⟩ :: rest => by
      simp [Node.callsToJson, toJson_exact method, toJsons_exact arguments, calls_exact rest]

theorem choices_exact : ∀ options : List (Choice Node), Exact (.array (Node.choicesToJson options))
  | [] => by simp [Node.choicesToJson]
  | ⟨consequent, alternate⟩ :: rest => by
      simp [Node.choicesToJson, toJson_exact consequent, toJson_exact alternate,
        choices_exact rest]
end

/-- A tree whose doubles are read as they are printed is read from its text, which opens with its
kind and then has the declared fields, and from every text that spells it in another way. -/
theorem ofText_spellings (n : Node) (shallow : n.toJson.depth ≤ nestingLimit)
    (finite : ∀ x, .real x ∈ n.toJson.numbers → x.isFinite = true)
    (printed : ∀ x, .real x ∈ n.toJson.numbers → x.isFinite = true →
      JsonNumber.ReadsBack (.real x)) :
    ofText n.toText = some n ∧
      (∃ record : List (String × Json),
        n.toJson = .object (("name", .string n.kind.tag) :: record) ∧
          record.map Prod.fst = declaredFields n.kind) ∧
      ∀ j, Respells n.toJson j →
        (∀ text, Json.read nestingLimit text = some j → ofText text = some n) ∧
          (j.depth ≤ nestingLimit → (∀ x ∈ j.numbers, x.ReadsBack) → ofText j.write = some n) := by
  have back : ∀ x ∈ n.toJson.numbers, x.ReadsBack := by
    intro x member
    rcases toJson_exact n x member with ⟨y, rfl⟩ | back
    · exact printed y member (finite y member)
    · exact back
  have spelled : ∀ j, Respells n.toJson j →
      ∀ text, Json.read nestingLimit text = some j → ofText text = some n := by
    intro j respelled text isRead
    rw [ofText, isRead]
    exact ofJson_respelled respelled
  refine ⟨spelled _ (Respells.refl _) _ (Json.read_write shallow back), toJson_record n, ?_⟩
  intro j respelled
  exact ⟨spelled j respelled, fun within back =>
    spelled j respelled _ (Json.read_write within back)⟩

/-- The tree of `-1.5`, and a spelling of it with the fields turned round, a line number among
them, the default left out and the operand as an array. -/
theorem ofText_spellings_negated :
    let n : Node := .unaryExpression "-" (.float 1.5) true
    let j : Json := .object [("line", .number (.natural 3)),
      ("operand", .array [.string "N_FLOAT", .number (.real 1.5)]), ("operator", .string "-"),
      ("name", .string "N_UNARY_EXPRESSION")]
    n.toJson.depth ≤ nestingLimit ∧ Float.isFinite 1.5 = true ∧
      JsonNumber.ReadsBack (.real 1.5) ∧ Respells n.toJson j ∧ ofText n.toText = some n ∧
      ofText j.write = some n := by
  intro n j
  have shallow : n.toJson.depth ≤ nestingLimit := by decide
  have finite : Float.isFinite 1.5 = true := by decide
  have printed : JsonNumber.ReadsBack (.real 1.5) := by
    have text : Json.writeNumber (.real 1.5) = "1.5" := by decide +kernel
    rw [JsonNumber.ReadsBack, text]
    with_unfolding_all rfl
  have only : ∀ x, .real x ∈ n.toJson.numbers → x = 1.5 := by
    intro x member
    cases List.mem_singleton.mp member
    rfl
  have operand : Respells (Node.toJson (.float 1.5))
      (.array [.string "N_FLOAT", .number (.real 1.5)]) := by
    have listed : Answers (defaults .float)
        [("name", .string "N_FLOAT"), ("number", .number (.real 1.5))]
        ([.string "N_FLOAT", .number (.real 1.5)].map some ++ List.replicate 0 none) :=
      .given (.string _) (.given (.number _) .nil)
    exact .positional listed
  have respelled : Respells n.toJson j := by
    have leading : ("prefix", Json.bool true) ∈ defaults .unaryExpression := by simp [defaults]
    have order : [("line", .number (.natural 3)),
        ("operand", .array [.string "N_FLOAT", .number (.real 1.5)]), ("operator", .string "-"),
        ("name", .string "N_UNARY_EXPRESSION")].Perm
        (standing ["name", "operator", "operand", "prefix"]
          [some (.string "N_UNARY_EXPRESSION"), some (.string "-"),
            some (.array [.string "N_FLOAT", .number (.real 1.5)]), none] ++
          [("line", .number (.natural 3))]) :=
      List.reverse_perm [("name", Json.string "N_UNARY_EXPRESSION"), ("operator", .string "-"),
        ("operand", .array [.string "N_FLOAT", .number (.real 1.5)]),
        ("line", .number (.natural 3))]
    exact .object (.given (.string _) (.given (.string _)
      (.given operand (.omitted leading .nil)))) order (by simp)
  have results := ofText_spellings n shallow (fun x member => only x member ▸ finite)
    (fun x member _ => only x member ▸ printed)
  refine ⟨shallow, finite, printed, respelled, results.1,
    (results.2.2 j respelled).2 (by decide) ?_⟩
  intro x member
  rcases List.mem_cons.mp member with rfl | later
  · exact JsonNumber.natural_readsBack 3
  · cases List.mem_singleton.mp later
    exact printed

end TreeScript.Tree
