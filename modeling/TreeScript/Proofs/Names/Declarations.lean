import TreeScript.Proofs.Defaults.Declaration
import TreeScript.Proofs.Names.Pledge
import TreeScript.Proofs.Operands.Taken

set_option autoImplicit false

/- The declarations of a block, compiled and run. Each is found in the compiled block and its turn
comes when the block runs; and the class that a declaration makes has its methods under their names
in lower case, and its properties under their names without the sigil. -/
namespace TreeScript

open Code (Expr Function Stmt Block Routine ClassDefinition)

/-! Texts in lower case -/

namespace Text

/-- Of the characters below 128 only the Latin capitals have a lowercase form. -/
theorem capitals_or_beyond {run : Nat × Nat × Nat × Int} (member : run ∈ lowercaseRuns) :
    run.1 = 65 ∧ run.2.1 = 90 ∨ 128 ≤ run.1 := by
  have all : ∀ run ∈ lowercaseRuns.toList, run.1 = 65 ∧ run.2.1 = 90 ∨ 128 ≤ run.1 := by
    decide +kernel
  exact all run member.val

theorem lowerChar_eq_self {c : Char} (plain : c.toNat < 128) (small : c.toNat < 65 ∨ 90 < c.toNat) :
    lowerChar c = [c] := by
  have undotted : c ≠ '\u0130' := by
    rintro rfl
    exact absurd plain (by decide)
  rw [lowerChar, if_neg undotted, Array.find?_eq_none.mpr]
  rintro ⟨lo, hi, step, offset⟩ member
  have apart := capitals_or_beyond member
  dsimp only at apart
  simp only [Bool.and_eq_true, decide_eq_true_eq]
  omega

theorem lowerFrom_eq_self {cs : List Char}
    (plain : ∀ c ∈ cs, c.toNat < 128 ∧ (c.toNat < 65 ∨ 90 < c.toNat)) (before : List Char) :
    lowerFrom before cs = cs := by
  induction cs generalizing before with
  | nil => rfl
  | cons c rest ih =>
      obtain ⟨⟨low, small⟩, plainRest⟩ := List.forall_mem_cons.mp plain
      have noSigma : c ≠ '\u03A3' := by
        rintro rfl
        exact absurd low (by decide)
      rw [lowerFrom, ih plainRest, if_neg noSigma, lowerChar_eq_self low small]
      rfl

theorem lowercase_eq_self {s : String}
    (plain : s.toList.all fun c => c.toNat < 128 && (c.toNat < 65 || 90 < c.toNat)) :
    lowercase s = s := by
  rw [lowercase, lowerFrom_eq_self (by simpa using plain), String.ofList_toList]

end Text

/-! Lists by key -/

namespace Assoc

variable {α β : Type} [BEq α] [LawfulBEq α] {entries : List (α × β)} {key : α} {value : β}

theorem eq_or_mem_of_mem_set {entry : α × β} (member : entry ∈ set entries key value) :
    entry = (key, value) ∨ entry ∈ entries := by
  induction entries with
  | nil => exact .inl (List.mem_singleton.mp member)
  | cons first rest ih =>
      obtain ⟨k, v⟩ := first
      rw [set] at member
      split at member
      · next same =>
          rcases List.mem_cons.mp member with rfl | later
          · exact .inl (by rw [eq_of_beq same])
          · exact .inr (List.mem_cons_of_mem _ later)
      · rcases List.mem_cons.mp member with rfl | later
        · exact .inr List.mem_cons_self
        · exact (ih later).imp_right (List.mem_cons_of_mem _)

theorem mem_keys_set {other : α} :
    other ∈ keys (set entries key value) ↔ other = key ∨ other ∈ keys entries := by
  rw [keys_set]
  split
  · next present =>
      refine ⟨.inr, ?_⟩
      rintro (rfl | member)
      · exact present
      · exact member
  · rw [List.mem_append, List.mem_singleton, or_comm]

theorem get?_of_mem_keys (member : key ∈ keys entries) : ∃ value, get? entries key = some value := by
  have present := (contains_iff_mem_keys entries key).mpr member
  exact Option.isSome_iff_exists.mp present

end Assoc

/-! Compiled declarations -/

namespace Compile

/-- A declaration is compiled in one way only. -/
theorem CompiledFrom.unique {n : Node} {r r' : Routine} (first : CompiledFrom n r)
    (second : CompiledFrom n r') : r = r' := by
  cases first with
  | function name compiled =>
      cases second with
      | function _ again =>
          cases compiled.symm.trans again
          rfl
  | method name compiled =>
      cases second with
      | method _ again =>
          cases compiled.symm.trans again
          rfl

theorem mem_selected {n : Node} {nodes : List Node} (member : n ∈ nodes) {b : Block}
    {c c' : Context} (compiled : selected n.isDeclaration nodes c = .ok (b, c')) :
    ∃ before s after c₁ c₂, b = before ++ s :: after ∧ statement n c₁ = .ok (s, c₂) := by
  induction nodes generalizing b c c' with
  | nil => cases member
  | cons first rest ih =>
      rw [selected] at compiled
      split at compiled
      · obtain ⟨s, c₁, here, compiled⟩ := bind_eq_ok.mp compiled
        obtain ⟨others, c₂, later, compiled⟩ := bind_eq_ok.mp compiled
        cases compiled
        rcases List.mem_cons.mp member with rfl | inside
        · exact ⟨[], s, others, c, c₁, rfl, here⟩
        · obtain ⟨before, t, after, c₃, c₄, rfl, there⟩ := ih inside later
          exact ⟨s :: before, t, after, c₃, c₄, rfl, there⟩
      · next otherwise =>
          rcases List.mem_cons.mp member with rfl | inside
          · exact absurd rfl otherwise
          · exact ih inside compiled

theorem functionStatement_ok {name : String} {parameters statements : List Node} {s : Stmt}
    {c c' : Context}
    (compiled : statement (.functionStatement name parameters statements) c = .ok (s, c')) :
    ∃ f, s = .defineFunction f ∧ f.name = name ∧
      CompiledFrom (.functionStatement name parameters statements) ⟨false, f⟩ := by
  rw [statement] at compiled
  obtain ⟨ps, c₁, named, compiled⟩ := bind_eq_ok.mp compiled
  obtain ⟨⟨body, context⟩, c₂, inside, compiled⟩ := bind_eq_ok.mp compiled
  cases compiled
  have within := (inBody_compiled ps statements).holds inside
  rw [(parameterNames_granted parameters).holds named] at within ⊢
  exact ⟨_, rfl, rfl, .function name within⟩

theorem classStatement_ok {className : Node} {members : List Node} {s : Stmt} {c c' : Context}
    (compiled : statement (.classStatement className members) c = .ok (s, c')) :
    ∃ definition c₁, s = .defineClass definition ∧
      classMembers ⟨[], []⟩ members c₁ = .ok (⟨definition.properties, definition.methods⟩, c') := by
  rw [statement] at compiled
  obtain ⟨name, c₁, named, compiled⟩ := bind_eq_ok.mp compiled
  obtain ⟨found, c₂, inside, compiled⟩ := bind_eq_ok.mp compiled
  cases compiled
  exact ⟨_, c₁, rfl, inside⟩

/-! Members -/

/-- The members declare a method of this name that is compiled to this function. -/
def DeclaresMethod (members : List Node) (method : String × Function Stmt) : Prop :=
  ∃ parameters statements, .methodDefinition (.string method.1) parameters statements ∈ members ∧
    CompiledFrom (.methodDefinition (.string method.1) parameters statements) ⟨true, method.2⟩

/-- The members declare a property of this name whose default is compiled to this. -/
def DeclaresProperty (members : List Node) (property : String × Expr) : Prop :=
  ∃ name reference value c default c', variableName name = property.1 ∧
    .propertyDefinition (.variable name reference) value ∈ members ∧
    optionalValue value c = .ok (default, c') ∧ property.2 = default.getD .null

/-- What the members of a class add to those found before. -/
structure MembersFrom (members : List Node) (found found' : Members) : Prop where
  methods : ∀ method ∈ found'.methods, method ∈ found.methods ∨ DeclaresMethod members method
  properties : ∀ property ∈ found'.properties,
    property ∈ found.properties ∨ DeclaresProperty members property
  methodsStay : ∀ name ∈ Assoc.keys found.methods, name ∈ Assoc.keys found'.methods
  propertiesStay : ∀ name ∈ Assoc.keys found.properties, name ∈ Assoc.keys found'.properties
  methodsCome : ∀ name parameters statements,
    .methodDefinition (.string name) parameters statements ∈ members →
      name ∈ Assoc.keys found'.methods
  propertiesCome : ∀ name reference value,
    .propertyDefinition (.variable name reference) value ∈ members →
      variableName name ∈ Assoc.keys found'.properties

theorem DeclaresMethod.later {members : List Node} {method : String × Function Stmt} (n : Node)
    (declared : DeclaresMethod members method) : DeclaresMethod (n :: members) method := by
  obtain ⟨parameters, statements, listed, compiled⟩ := declared
  exact ⟨parameters, statements, List.mem_cons_of_mem n listed, compiled⟩

theorem DeclaresProperty.later {members : List Node} {property : String × Expr} (n : Node)
    (declared : DeclaresProperty members property) : DeclaresProperty (n :: members) property := by
  obtain ⟨name, reference, value, c, default, c', isName, listed, given⟩ := declared
  exact ⟨name, reference, value, c, default, c', isName, List.mem_cons_of_mem n listed, given⟩

theorem MembersFrom.method {rest : List Node} {found found' : Members} {name : String}
    {parameters statements : List Node} {f : Function Stmt}
    (compiled : CompiledFrom (.methodDefinition (.string name) parameters statements) ⟨true, f⟩)
    (later : MembersFrom rest { found with methods := Assoc.set found.methods name f } found') :
    MembersFrom (.methodDefinition (.string name) parameters statements :: rest) found found' where
  methods method member := by
    rcases later.methods method member with before | declared
    · rcases Assoc.eq_or_mem_of_mem_set before with rfl | old
      · exact .inr ⟨parameters, statements, List.mem_cons_self, compiled⟩
      · exact .inl old
    · exact .inr (declared.later _)
  properties property member :=
    (later.properties property member).imp_right (·.later _)
  methodsStay other member := later.methodsStay other (Assoc.mem_keys_set.mpr (.inr member))
  propertiesStay := later.propertiesStay
  methodsCome other ps ss member := by
    rcases List.mem_cons.mp member with same | inside
    · cases same
      exact later.methodsStay name (Assoc.mem_keys_set.mpr (.inl rfl))
    · exact later.methodsCome other ps ss inside
  propertiesCome other reference value member := by
    rcases List.mem_cons.mp member with same | inside
    · cases same
    · exact later.propertiesCome other reference value inside

theorem MembersFrom.property {rest : List Node} {found found' : Members} {name : String}
    {reference : Bool} {value : Option Node} {default : Option Expr} {c c' : Context}
    (given : optionalValue value c = .ok (default, c'))
    (later : MembersFrom rest { found with
      properties := Assoc.set found.properties (variableName name) (default.getD .null) } found') :
    MembersFrom (.propertyDefinition (.variable name reference) value :: rest) found found' where
  methods method member := (later.methods method member).imp_right (·.later _)
  properties property member := by
    rcases later.properties property member with before | declared
    · rcases Assoc.eq_or_mem_of_mem_set before with rfl | old
      · exact .inr ⟨name, reference, value, c, default, c', rfl, List.mem_cons_self, given, rfl⟩
      · exact .inl old
    · exact .inr (declared.later _)
  methodsStay := later.methodsStay
  propertiesStay other member :=
    later.propertiesStay other (Assoc.mem_keys_set.mpr (.inr member))
  methodsCome other ps ss member := by
    rcases List.mem_cons.mp member with same | inside
    · cases same
    · exact later.methodsCome other ps ss inside
  propertiesCome other reference' value' member := by
    rcases List.mem_cons.mp member with same | inside
    · cases same
      exact later.propertiesStay _ (Assoc.mem_keys_set.mpr (.inl rfl))
    · exact later.propertiesCome other reference' value' inside

theorem classMembers_from (members : List Node) {found : Members} :
    Grants (MembersFrom members found) (classMembers found members) := by
  induction members generalizing found with
  | nil =>
      rw [classMembers]
      exact .pure ⟨fun _ => .inl, fun _ => .inl, fun _ member => member, fun _ member => member,
        nofun, nofun⟩
  | cons n rest ih =>
      cases n with
      | propertyDefinition target value =>
          cases target with
          | «variable» name reference =>
              have given : Grants (fun default => ∃ c c', optionalValue value c = .ok (default, c'))
                (optionalValue value) := ⟨fun done => ⟨_, _, done⟩⟩
              rw [classMembers]
              refine given.bind fun default compiled => ?_
              obtain ⟨c, c', compiled⟩ := compiled
              exact ih.imp fun _ later => later.property compiled
          | _ =>
              rw [classMembers]
              · exact .throw _
              · simp only [reduceCtorEq, false_imp_iff, implies_true]
      | methodDefinition name parameters statements =>
          cases name with
          | string name =>
              rw [classMembers]
              refine (parameterNames_granted parameters).bind fun ps areNames => ?_
              refine (inBody_compiled ps statements).bind fun result compiled => ?_
              subst areNames
              exact ih.imp fun _ later => later.method (.method name compiled)
          | _ =>
              rw [classMembers]
              · exact .throw _
              · simp only [reduceCtorEq, false_imp_iff, implies_true]
      | _ =>
          rw [classMembers]
          · exact .throw _
          all_goals simp only [reduceCtorEq, false_imp_iff, implies_true]

end Compile

/-! The class that a definition makes -/

/-- Of methods defined one after the other, one that alone has its name is found by it. -/
theorem method_of_foldl {methods : List (String × Function Stmt)} {data : ClassData}
    {name : String} {f : Function Stmt}
    (only : ∀ method ∈ methods, Text.lowercase method.1 = Text.lowercase name → method.2 = f)
    (present : data.method? name = some (.user f) ∨
      ∃ method ∈ methods, Text.lowercase method.1 = Text.lowercase name) :
    (methods.foldl (fun data (key, f) => ClassData.defineMethod data key (.user f))
      data).method? name = some (.user f) := by
  induction methods generalizing data with
  | nil =>
      rcases present with found | ⟨method, member, -⟩
      · exact found
      · cases member
  | cons first rest ih =>
      obtain ⟨key, g⟩ := first
      obtain ⟨onlyHere, onlyLater⟩ := List.forall_mem_cons.mp only
      rw [List.foldl_cons]
      by_cases same : Text.lowercase key = Text.lowercase name
      · obtain rfl : g = f := onlyHere same
        have found : (data.defineMethod key (.user g)).method? name = some (.user g) := by
          rw [ClassData.method?, ClassData.defineMethod, ← same]
          exact Assoc.get?_set_self _ _ _
        exact ih onlyLater (.inl found)
      · have kept : (data.defineMethod key (.user g)).method? name = data.method? name :=
          Assoc.get?_set_of_ne _ _ _ _ (Ne.symm same)
        refine ih onlyLater ?_
        rcases present with found | ⟨method, member, named⟩
        · exact .inl (kept.trans found)
        · rcases List.mem_cons.mp member with rfl | later
          · exact absurd named same
          · exact .inr ⟨method, later, named⟩

/-- A name that no method has is not found. -/
theorem method_none_of_foldl {methods : List (String × Function Stmt)} {data : ClassData}
    {name : String} (apart : ∀ method ∈ methods, Text.lowercase method.1 ≠ Text.lowercase name)
    (missing : data.method? name = none) :
    (methods.foldl (fun data (key, f) => ClassData.defineMethod data key (.user f))
      data).method? name = none := by
  induction methods generalizing data with
  | nil => exact missing
  | cons first rest ih =>
      obtain ⟨apartHere, apartLater⟩ := List.forall_mem_cons.mp apart
      rw [List.foldl_cons]
      refine ih apartLater ?_
      rw [← missing]
      exact Assoc.get?_set_of_ne _ _ _ _ (Ne.symm apartHere)

theorem properties_of_foldl (methods : List (String × Function Stmt)) (data : ClassData) :
    (methods.foldl (fun data (key, f) => ClassData.defineMethod data key (.user f))
      data).properties = data.properties := by
  induction methods generalizing data with
  | nil => rfl
  | cons first rest ih =>
      rw [List.foldl_cons, ih]
      rfl

namespace Compile.MembersFrom

variable {members : List Node} {definition : ClassDefinition Stmt} {name : String}

/-- The method that alone has its name among the members is the one found by that name. -/
theorem method_made
    (inside : MembersFrom members ⟨[], []⟩ ⟨definition.properties, definition.methods⟩)
    {parameters statements : List Node}
    (declared : .methodDefinition (.string name) parameters statements ∈ members)
    (only : ∀ other ps ss, .methodDefinition (.string other) ps ss ∈ members →
      Text.lowercase other = Text.lowercase name →
        Node.methodDefinition (.string other) ps ss =
          .methodDefinition (.string name) parameters statements)
    (className : String) (defaults : List (String × Value)) :
    ∃ f, CompiledFrom (.methodDefinition (.string name) parameters statements) ⟨true, f⟩ ∧
      (definition.made className defaults).method? name = some (.user f) := by
  have compiled : ∀ method ∈ definition.methods, Text.lowercase method.1 = Text.lowercase name →
      CompiledFrom (.methodDefinition (.string name) parameters statements)
        ⟨true, method.2⟩ := by
    intro method member named
    rcases inside.methods method member with none | ⟨ps, ss, listed, compiled⟩
    · cases none
    · rwa [only _ ps ss listed named] at compiled
  obtain ⟨f, found⟩ := Assoc.get?_of_mem_keys (inside.methodsCome name parameters statements declared)
  have member := Assoc.mem_of_get? found
  have isDeclared := compiled _ member rfl
  refine ⟨f, isDeclared, method_of_foldl (fun method listed named => ?_) (.inr ⟨_, member, rfl⟩)⟩
  have same := (compiled method listed named).unique isDeclared
  exact congrArg Routine.function same

theorem no_constructor
    (inside : MembersFrom members ⟨[], []⟩ ⟨definition.properties, definition.methods⟩)
    (absent : ∀ other ps ss, .methodDefinition (.string other) ps ss ∈ members →
      Text.lowercase other ≠ "__construct")
    (className : String) (defaults : List (String × Value)) :
    (definition.made className defaults).method? "__construct" = none := by
  refine method_none_of_foldl (fun method member => ?_) rfl
  have lowered : Text.lowercase "__construct" = "__construct" :=
    Text.lowercase_eq_self (by decide)
  rw [lowered]
  rcases inside.methods method member with none | ⟨ps, ss, listed, -⟩
  · cases none
  · exact absent _ ps ss listed

/-- The default of the property that alone has its name among the members is the one kept under
that name. -/
theorem property_kept
    (inside : MembersFrom members ⟨[], []⟩ ⟨definition.properties, definition.methods⟩)
    {spelling : String} {reference : Bool} {value : Option Node}
    (declared : .propertyDefinition (.variable spelling reference) value ∈ members)
    (only : ∀ other reference' value',
      .propertyDefinition (.variable other reference') value' ∈ members →
        variableName other = variableName spelling → value' = value) :
    ∃ c default c', optionalValue value c = .ok (default, c') ∧
      Assoc.get? definition.properties (variableName spelling) = some (default.getD .null) := by
  obtain ⟨e, found⟩ :=
    Assoc.get?_of_mem_keys (inside.propertiesCome spelling reference value declared)
  rcases inside.properties _ (Assoc.mem_of_get? found) with none | declares
  · cases none
  · obtain ⟨other, reference', value', c, default, c', isName, listed, given, rfl⟩ := declares
    obtain rfl := only other reference' value' listed isName
    exact ⟨c, default, c', given, found⟩

end Compile.MembersFrom

/-! Declarations as they run -/

section

variable {user : UserCall} {frame : Frame} {m m' m₁ : Machine}

/-- A block that ends normally has run its first part, and then its second. -/
theorem of_run_append {first second : Block}
    (ended : (execBlock user frame (first ++ second)).run m = .ok .normal m') :
    ∃ m₁, (execBlock user frame first).run m = .ok .normal m₁ ∧
      (execBlock user frame second).run m₁ = .ok .normal m' := by
  induction first generalizing m with
  | nil => exact ⟨m, by rw [execBlock]; rfl, ended⟩
  | cons s rest ih =>
      rw [List.cons_append, execBlock] at ended
      obtain ⟨flow, m₂, here, ended⟩ := Run.of_run_bind ended
      cases flow with
      | returned v => cases ended
      | normal =>
          obtain ⟨m₁, before, after⟩ := ih ended
          refine ⟨m₁, ?_, after⟩
          rw [execBlock, Run.run_bind here]
          exact before

theorem of_run_cons {s : Stmt} {rest : Block}
    (ended : (execBlock user frame (s :: rest)).run m = .ok .normal m') :
    ∃ m₁, (execStmt user frame s).run m = .ok .normal m₁ ∧
      (execBlock user frame rest).run m₁ = .ok .normal m' := by
  have parts : (execBlock user frame ([s] ++ rest)).run m = .ok .normal m' := ended
  obtain ⟨m₁, before, after⟩ := of_run_append parts
  rw [run_single] at before
  exact ⟨m₁, before, after⟩

theorem reaches_append {first second : Block}
    (before : (execBlock user frame first).run m = .ok .normal m₁)
    (reached : (execBlock user frame second).Reaches m₁ m') :
    (execBlock user frame (first ++ second)).Reaches m m' := by
  induction first generalizing m with
  | nil =>
      rw [execBlock] at before
      cases before
      exact reached
  | cons s rest ih =>
      obtain ⟨m₂, here, later⟩ := of_run_cons before
      rw [List.cons_append, execBlock]
      exact Run.Reaches.next here (ih later)

theorem reaches_cons {s : Stmt} (rest : Block) (reached : (execStmt user frame s).Reaches m m') :
    (execBlock user frame (s :: rest)).Reaches m m' := by
  rw [execBlock]
  exact reached.first _

/-- The default that is kept under a name is evaluated when its turn comes. -/
theorem default_evaluated {defaults : List (String × Expr)} {name : String} {e : Expr}
    (kept : Assoc.get? defaults name = some e) {values : List (String × Value)}
    (ran : (evalDefaults user frame defaults).run m = .ok values m') :
    ∃ v held m₁ m₂, Assoc.get? values name = some v ∧
      (evalDefaults user frame defaults).Reaches m m₁ ∧
      (evalExpr user (frame.holding held) e).run m₁ = .ok v m₂ := by
  induction defaults generalizing frame m values with
  | nil => cases kept
  | cons default rest ih =>
      obtain ⟨key, first⟩ := default
      rw [evalDefaults] at ran ⊢
      obtain ⟨v, m₂, here, ran⟩ := Run.of_run_bind ran
      obtain ⟨more, m₃, later, ran⟩ := Run.of_run_bind ran
      cases ran
      by_cases same : name = key
      · subst same
        obtain rfl : first = e :=
          Option.some.inj ((Assoc.get?_cons_self rest name first).symm.trans kept)
        exact ⟨v, [], m, m₂, Assoc.get?_cons_self _ _ _, .start _ _, here⟩
      · have inRest : Assoc.get? rest name = some e :=
          (Assoc.get?_cons_of_ne rest first same).symm.trans kept
        obtain ⟨w, held, m₄, m₅, given, reached, evaluated⟩ := ih inRest later
        refine ⟨w, held ++ v.handles, m₄, m₅, ?_, .next here (reached.first _), ?_⟩
        · exact (Assoc.get?_cons_of_ne _ v same).trans given
        · rwa [Frame.holding, List.append_assoc]

end

end TreeScript
