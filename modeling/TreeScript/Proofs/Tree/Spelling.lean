import Mathlib.Data.List.Nodup
import Mathlib.Order.Lattice
import TreeScript.Tree.Reader
import TreeScript.Tree.Writer

set_option autoImplicit false

/- The spellings of a tree. Besides the one that is written, an object may have its fields in any
order, with fields of other names between them and without those that hold their default, and a
record may be an array of its fields in declared order. Main statement: in each of them the reader
finds the same fields. -/
namespace TreeScript.Tree

/-- What the fields of a node that may be left out hold then. -/
def defaults : Kind → List (String × Json)
  | .classStatement => [("members", .array [])]
  | .foreachStatement => [("key", .null), ("statements", .array [])]
  | .functionStatement | .methodDefinition => [("args", .array []), ("statements", .array [])]
  | .ifStatement => [("consequentStatements", .array []), ("alternateStatements", .array [])]
  | .returnStatement => [("expression", .null)]
  | .propertyDefinition => [("value", .null)]
  | .arrayIndex | .objectProperty | .variable => [("reference", .bool false)]
  | .arrayLiteral => [("elements", .array [])]
  | .expression => [("right", .array [])]
  | .functionCall | .newExpression => [("args", .array [])]
  | .unaryExpression => [("prefix", .bool true)]
  | .program | .echoStatement | .expressionStatement | .inlineHtmlStatement | .boolean | .float
  | .integer | .keyValuePair | .list | .methodCall | .string | .stringLiteral | .ternary
  | .void => []

/-- The same for the steps of a chain, which have no kind: an index may be left out, and the
arguments of a call. -/
def stepDefaults : List (String × Json) := [("index", .null), ("args", .array [])]

/-- The fields of a written record that may be left out. -/
def defaultsOf : List (String × Json) → List (String × Json)
  | ("name", .string tag) :: _ => ((Kind.ofTag tag).map defaults).getD []
  | _ => stepDefaults

/-- The fields that are there, under their names. -/
def standing : List String → List (Option Json) → List (String × Json)
  | name :: names, some j :: answers => (name, j) :: standing names answers
  | _ :: names, none :: answers => standing names answers
  | _, _ => []

mutual
/-- The second value is a spelling of the first, which is a tree as it is written. -/
inductive Respells : Json → Json → Prop
  | null : Respells .null .null
  | bool (b : Bool) : Respells (.bool b) (.bool b)
  | number (x : JsonNumber) : Respells (.number x) (.number x)
  | string (s : String) : Respells (.string s) (.string s)
  | array {items given : List Json} (each : RespellsEach items given) :
      Respells (.array items) (.array given)
  | object {fields given unknown : List (String × Json)} {answers : List (Option Json)}
      (each : Answers (defaultsOf fields) fields answers)
      (order : given.Perm (standing (fields.map Prod.fst) answers ++ unknown))
      (ignored : ∀ field ∈ unknown, field.1 ∉ fields.map Prod.fst) :
      Respells (.object fields) (.object given)
  | positional {fields : List (String × Json)} {given : List Json} {left : Nat}
      (each : Answers (defaultsOf fields) fields (given.map some ++ List.replicate left none)) :
      Respells (.object fields) (.array given)

inductive RespellsEach : List Json → List Json → Prop
  | nil : RespellsEach [] []
  | cons {j j' : Json} {items given : List Json} (first : Respells j j')
      (rest : RespellsEach items given) : RespellsEach (j :: items) (j' :: given)

/-- What a spelling has for the fields of a record: a spelling of the value, or nothing in place
of a default. -/
inductive Answers : List (String × Json) → List (String × Json) → List (Option Json) → Prop
  | nil {defaults : List (String × Json)} : Answers defaults [] []
  | given {defaults fields : List (String × Json)} {answers : List (Option Json)} {name : String}
      {j j' : Json} (first : Respells j j') (rest : Answers defaults fields answers) :
      Answers defaults ((name, j) :: fields) (some j' :: answers)
  | omitted {defaults fields : List (String × Json)} {answers : List (Option Json)}
      {field : String × Json} (default : field ∈ defaults)
      (rest : Answers defaults fields answers) :
      Answers defaults (field :: fields) (none :: answers)
end

/-! A tree as it is written is one of its spellings. -/

theorem standing_all (fields : List (String × Json)) :
    standing (fields.map Prod.fst) (fields.map fun field => some field.2) = fields := by
  induction fields with
  | nil => rfl
  | cons field rest ih => simp only [List.map_cons, standing, ih]

mutual
theorem Respells.refl : ∀ j : Json, Respells j j
  | .null => .null
  | .bool b => .bool b
  | .number x => .number x
  | .string s => .string s
  | .array items => .array (RespellsEach.refl items)
  | .object fields => by
      have order : fields.Perm (standing (fields.map Prod.fst)
          (fields.map fun field => some field.2) ++ []) := by
        rw [standing_all, List.append_nil]
      exact .object (Answers.refl _ fields) order (fun _ none => nomatch none)

theorem RespellsEach.refl : ∀ items : List Json, RespellsEach items items
  | [] => .nil
  | j :: rest => .cons (Respells.refl j) (RespellsEach.refl rest)

theorem Answers.refl (defaults : List (String × Json)) : ∀ fields : List (String × Json),
    Answers defaults fields (fields.map fun field => some field.2)
  | [] => .nil
  | (_, j) :: rest => .given (Respells.refl j) (Answers.refl defaults rest)
end

/-! How the reader finds the fields of a spelling -/

theorem mapM_of_forall {α β : Type} {f : α → Option β} {as : List α} {bs : List β}
    (each : List.Forall₂ (fun a b => f a = some b) as bs) : as.mapM f = some bs := by
  induction each with
  | nil => rfl
  | cons first rest ih => simp [List.mapM_cons, first, ih]

theorem Answers.length {defaults fields : List (String × Json)} {answers : List (Option Json)}
    (each : Answers defaults fields answers) : fields.length = answers.length := by
  induction fields generalizing answers with
  | nil =>
      cases each
      rfl
  | cons field fields ih =>
      cases each with
      | given _ rest | omitted _ rest => simp [ih rest]

theorem standing_names {names : List String} {answers : List (Option Json)}
    {field : String × Json} (member : field ∈ standing names answers) :
    field.1 ∈ names ∧ some field.2 ∈ answers := by
  fun_induction standing names answers with
  | case1 name names j answers ih =>
      rcases List.mem_cons.mp member with rfl | later
      · exact ⟨List.mem_cons_self, List.mem_cons_self⟩
      · exact (ih later).imp (List.mem_cons_of_mem _) (List.mem_cons_of_mem _)
  | case2 name names answers ih =>
      exact (ih member).imp (List.mem_cons_of_mem _) (List.mem_cons_of_mem _)
  | case3 => cases member

/-- Under each name stands what the spelling has for it. -/
theorem standing_filter {names : List String} {answers : List (Option Json)}
    (distinct : names.Nodup) {name : String} {answer : Option Json}
    (pair : (name, answer) ∈ names.zip answers) :
    (standing names answers).filter (·.1 == name) = answer.toList.map (name, ·) := by
  induction names generalizing answers with
  | nil => cases pair
  | cons other names ih =>
      obtain ⟨absent, distinct⟩ := List.nodup_cons.mp distinct
      cases answers with
      | nil => cases pair
      | cons first answers =>
          rcases List.mem_cons.mp pair with same | later
          · obtain ⟨rfl, rfl⟩ := Prod.mk.inj same
            have nothing : (standing names answers).filter (·.1 == name) = [] := by
              rw [List.filter_eq_nil_iff]
              intro field member same
              exact absent (eq_of_beq same ▸ (standing_names member).1)
            cases answer with
            | none => exact nothing
            | some j => simp [standing, nothing]
          · have differs : (other == name) = false := by
              rw [beq_eq_false_iff_ne]
              rintro rfl
              exact absent (List.of_mem_zip later).1
            cases first with
            | none => exact ih distinct later
            | some j => simpa [standing, differs] using ih distinct later

/-- Whatever the order of the fields and whatever stands between them, under each name is what
the spelling has for it. -/
theorem filter_of_order {names : List String} {answers : List (Option Json)}
    {given unknown : List (String × Json)} (distinct : names.Nodup)
    (order : given.Perm (standing names answers ++ unknown))
    (ignored : ∀ field ∈ unknown, field.1 ∉ names) {name : String} {answer : Option Json}
    (pair : (name, answer) ∈ names.zip answers) :
    given.filter (·.1 == name) = answer.toList.map (name, ·) := by
  have nothing : unknown.filter (·.1 == name) = [] := by
    rw [List.filter_eq_nil_iff]
    intro field member same
    exact ignored field member (eq_of_beq same ▸ (List.of_mem_zip pair).1)
  have perm := order.filter (·.1 == name)
  rw [List.filter_append, nothing, List.append_nil, standing_filter distinct pair] at perm
  cases answer with
  | none => exact perm.eq_nil
  | some j => exact perm.eq_singleton

/-- The fields of a record that stand in an object, found by their names. -/
theorem fields_object {names : List String} {answers : List (Option Json)}
    {given : List (String × Json)} (long : names.length = answers.length)
    (found : ∀ {name : String} {answer : Option Json}, (name, answer) ∈ names.zip answers →
      given.filter (·.1 == name) = answer.toList.map (name, ·)) :
    fields names (.object given) = some answers := by
  apply mapM_of_forall
  rw [List.forall₂_iff_zip]
  refine ⟨long, fun {name answer} pair => ?_⟩
  rw [found pair]
  cases answer <;> rfl

/-- The fields of a record that stand in an array, the last ones left out. -/
theorem fields_array {names : List String} {given : List Json} {left : Nat}
    (long : names.length = (given.map some ++ List.replicate left none : List (Option Json)).length) :
    fields names (.array given) = some (given.map some ++ List.replicate left none) := by
  have count : names.length = given.length + left := by simpa using long
  have rest : names.length - given.length = left := by omega
  rw [fields, if_pos (by omega), rest]

/-! Depths -/

theorem depth_item {j : Json} {items : List Json} (member : j ∈ items) :
    j.depth ≤ Json.depth.depthItems items := by
  induction items with
  | nil => cases member
  | cons first rest ih =>
      rcases List.mem_cons.mp member with rfl | later
      · exact le_max_left _ _
      · exact le_trans (ih later) (le_max_right _ _)

theorem depth_field {field : String × Json} {fields : List (String × Json)}
    (member : field ∈ fields) : field.2.depth ≤ Json.depth.depthFields fields := by
  induction fields with
  | nil => cases member
  | cons first rest ih =>
      rcases List.mem_cons.mp member with rfl | later
      · exact le_max_left _ _
      · exact le_trans (ih later) (le_max_right _ _)

theorem standing_of_answer {names : List String} {answers : List (Option Json)} {j : Json}
    (long : names.length = answers.length) (member : some j ∈ answers) :
    ∃ name, (name, j) ∈ standing names answers := by
  induction names generalizing answers with
  | nil =>
      cases answers with
      | nil => cases member
      | cons _ _ => cases long
  | cons name names ih =>
      cases answers with
      | nil => cases long
      | cons first answers =>
          have long : names.length = answers.length := by simpa using long
          rcases List.mem_cons.mp member with rfl | later
          · exact ⟨name, List.mem_cons_self⟩
          · obtain ⟨other, stands⟩ := ih long later
            cases first with
            | none => exact ⟨other, stands⟩
            | some _ => exact ⟨other, List.mem_cons_of_mem _ stands⟩

/-- What stands in an object nests less deep than the object. -/
theorem depth_of_order {names : List String} {answers : List (Option Json)}
    {given unknown : List (String × Json)} (long : names.length = answers.length)
    (order : given.Perm (standing names answers ++ unknown)) {j : Json} (member : some j ∈ answers) :
    j.depth < (Json.object given).depth := by
  obtain ⟨name, stands⟩ := standing_of_answer long member
  have inGiven := order.mem_iff.mpr (List.mem_append_left unknown stands)
  exact Nat.lt_succ_of_le (depth_field inGiven)

theorem depth_of_listed {given : List Json} {left : Nat} {j : Json}
    (member : some j ∈ given.map some ++ List.replicate left none) :
    j.depth < (Json.array given).depth := by
  have inGiven : j ∈ given := by simpa using member
  exact Nat.lt_succ_of_le (depth_item inGiven)

/-! Records -/

/-- A step of a chain in any spelling: the reader finds what the spelling has for its fields. -/
theorem Respells.step {record : List (String × Json)} {j : Json}
    (spelled : Respells (.object record) j) (distinct : (record.map Prod.fst).Nodup) :
    ∃ answers, Answers (defaultsOf record) record answers ∧
      fields (record.map Prod.fst) j = some answers ∧
      ∀ j', some j' ∈ answers → j'.depth < j.depth := by
  cases spelled with
  | @object _ given unknown answers each order ignored =>
      have long : (record.map Prod.fst).length = answers.length := by simpa using each.length
      exact ⟨answers, each, fields_object long (filter_of_order distinct order ignored),
        fun j' => depth_of_order long order⟩
  | @positional _ given left each =>
      have long : (record.map Prod.fst).length =
        (given.map some ++ List.replicate left none : List (Option Json)).length := by
        rw [List.length_map, each.length]
      exact ⟨_, each, fields_array long, fun j' => depth_of_listed⟩

theorem name_not_default {kind : Kind} {field : String × Json} (default : field ∈ defaults kind) :
    field.1 ≠ "name" := by
  cases kind <;> simp only [defaults, List.mem_cons, List.not_mem_nil, or_false] at default <;>
    rcases default with rfl | rfl <;> decide

theorem defaultsOf_record (kind : Kind) (record : List (String × Json)) :
    defaultsOf (("name", .string kind.tag) :: record) = defaults kind := by
  rw [defaultsOf, Kind.ofTag_tag]
  rfl

/-- A node in any spelling: the reader finds its kind, and what the spelling has for its
fields. -/
theorem Respells.node {kind : Kind} {record : List (String × Json)} {j : Json}
    (spelled : Respells (Node.record kind record) j)
    (distinct : ("name" :: record.map Prod.fst).Nodup) (nested : Bool) :
    ∃ content answers, Answers (defaults kind) record answers ∧
      tagged nested j = some (kind, content) ∧
      fields (record.map Prod.fst) content = some answers ∧
      ∀ j', some j' ∈ answers → j'.depth < j.depth := by
  have isKind : readKind nested (.string kind.tag) = some kind := Kind.ofTag_tag kind
  cases spelled with
  | @object _ given unknown answers each order ignored =>
      have long := each.length
      rw [defaultsOf_record] at each
      cases each with
      | omitted default _ => exact absurd rfl (name_not_default default)
      | @given _ _ answers _ _ _ first rest =>
          cases first
          have found : ∀ {name : String} {answer : Option Json},
              (name, answer) ∈ ("name" :: record.map Prod.fst).zip (some _ :: answers) →
              given.filter (·.1 == name) = answer.toList.map (name, ·) :=
            filter_of_order distinct order ignored
          have atName : given.filter (·.1 == "name") = [("name", .string kind.tag)] :=
            found List.mem_cons_self
          have aside : ∀ {name : String} {answer : Option Json},
              (name, answer) ∈ (record.map Prod.fst).zip answers →
              (given.filter (·.1 != "name")).filter (·.1 == name) =
                answer.toList.map (name, ·) := by
            intro name answer pair
            rw [← found (List.mem_cons_of_mem _ pair), List.filter_filter]
            apply List.filter_congr
            intro field _
            have other : name ≠ "name" := by
              rintro rfl
              exact (List.nodup_cons.mp distinct).1 (List.of_mem_zip pair).1
            by_cases same : field.1 = name
            · simp [same, other]
            · simp [same]
          refine ⟨_, answers, rest, ?_, fields_object (by simpa using long) aside,
            fun j' later =>
              depth_of_order (by simpa using long) order (List.mem_cons_of_mem _ later)⟩
          rw [tagged, atName]
          simp [isKind]
  | @positional _ given left each =>
      have long := each.length
      rw [defaultsOf_record] at each
      cases given with
      | nil =>
          cases left with
          | zero => cases each
          | succ left =>
              cases each with
              | omitted default _ => exact absurd rfl (name_not_default default)
      | cons tag given =>
          cases each with
          | given first rest =>
              cases first
              refine ⟨.array given, _, rest, by simp [tagged, isKind],
                fields_array (by simpa using long),
                fun j' later => depth_of_listed (List.mem_cons_of_mem _ later)⟩

end TreeScript.Tree
