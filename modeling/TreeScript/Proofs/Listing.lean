import TreeScript.Proofs.Compile.Declarations
import TreeScript.Proofs.Compile.Identifiers

set_option autoImplicit false

/- Listings tell programs apart. A program's listing determines its statements; the first of these
tells the locals, and the loops are as many as the body numbers. -/
namespace TreeScript

namespace Code

theorem declaredIn_statements {p : Program} (body : declaredIn p.body = []) :
    declaredIn p.statements = if p.locals = [] then [] else [p.locals] := by
  rw [Program.statements, declaredIn_append, body, List.append_nil]
  unfold declarations
  cases p.locals <;> rfl

end Code

namespace Compile

open Code (AllSpelled slotsOf declaredIn declaredIn_statements)

/-- What the listing of a compiled program leaves out follows from its statements. -/
theorem statements_inj {t t' : Node} {p p' : Code.Program} (compiled : program t = .ok p)
    (compiled' : program t' = .ok p') (same : p.statements = p'.statements) : p = p' := by
  obtain ⟨nodes, -, ran⟩ := program_compiled compiled
  obtain ⟨nodes', -, ran'⟩ := program_compiled compiled'
  have locals : p.locals = p'.locals := by
    have declared := congrArg declaredIn same
    rw [declaredIn_statements ((block_declaresNothing nodes).holds ran),
      declaredIn_statements ((block_declaresNothing nodes').holds ran')] at declared
    by_cases none : p.locals = []
    · by_cases none' : p'.locals = []
      · rw [none, none']
      · simp [none, none'] at declared
    · by_cases none' : p'.locals = []
      · simp [none, none'] at declared
      · simpa [none, none'] using declared
  have bodies : p.body = p'.body := by
    rw [Code.Program.statements, Code.Program.statements, locals] at same
    exact List.append_cancel_left same
  have loops : p.loopSlots = p'.loopSlots := by
    have slots := congrArg slotsOf bodies
    rw [(slots_numbered compiled).1, (slots_numbered compiled').1] at slots
    have counts := congrArg List.length slots
    rwa [List.length_range, List.length_range] at counts
  cases p
  cases p'
  cases locals
  cases bodies
  cases loops
  rfl

theorem program_spelled {t : Node} {p : Code.Program} (compiled : program t = .ok p)
    (named : t.WellNamed) : AllSpelled p.statements := by
  obtain ⟨nodes, rfl, ran⟩ := program_compiled compiled
  have body : AllSpelled p.body :=
    (block_spelled nodes fun n member => named.part member).holds ran
  refine List.forall_mem_append.mpr ⟨fun s member => ?_, body⟩
  unfold Code.declarations at member
  split at member
  · cases member
  · rw [List.mem_singleton.mp member]
    exact .defineVariables _

end Compile

/-- The listing of a compiled program determines the program, its body, its locals and the number of
its loops, among those of all trees whose variables and parameters are identifiers. -/
theorem listing_determines_program {t t' : Node} {p p' : Code.Program}
    (compiled : Compile.program t = .ok p) (compiled' : Compile.program t' = .ok p')
    (named : t.WellNamed) (named' : t'.WellNamed) (same : p.listing = p'.listing) : p = p' :=
  Compile.statements_inj compiled compiled'
    (Code.listing_inj (Compile.program_spelled compiled named)
      (Compile.program_spelled compiled' named') same)

/-- Two trees with one listing: the names of their variables are with and without the sigil. The name
of the property is no identifier. -/
theorem listing_determines_program_sigils :
    let t (x : String) : Node := .program
      [.classStatement (.string "Box")
        [.propertyDefinition (.variable "the size" false) (some (.float 0.5)),
          .methodDefinition (.string "each") [.variable x false]
            [.foreachStatement (.variable x false) none (.variable "$item" true)
              [.echoStatement (.variable "item" false)]]]]
    (t "$items").WellNamed ∧ (t "items").WellNamed ∧
      ∃ p p', Compile.program (t "$items") = .ok p ∧ Compile.program (t "items") = .ok p' ∧
        p.listing = p'.listing ∧ p.body.length = 1 ∧ p = p' := by
  intro t
  have variableNamed (x : String) (reference : Bool)
      (identifier : Code.IsIdentifier (Compile.variableName x)) :
      (Node.variable x reference).WellNamed :=
    .node (by simpa [Node.variableName] using identifier) nofun
  have named (x : String) (identifier : Code.IsIdentifier (Compile.variableName x)) :
      (t x).WellNamed := by
    have echo : (Node.echoStatement (.variable "item" false)).WellNamed :=
      .node nofun (List.forall_mem_singleton.mpr (variableNamed "item" false (by decide)))
    have loop : (Node.foreachStatement (.variable x false) none (.variable "$item" true)
        [.echoStatement (.variable "item" false)]).WellNamed := by
      refine .node nofun (List.forall_mem_cons.mpr ⟨variableNamed x false identifier, ?_⟩)
      exact List.forall_mem_cons.mpr ⟨variableNamed "$item" true (by decide),
        List.forall_mem_singleton.mpr echo⟩
    have leaf {n : Node} (unnamed : n.variableName = none) (parts : n.listedParts = []) :
        n.WellNamed := .node (by simp [unnamed]) (by simp [parts])
    refine .node nofun (List.forall_mem_singleton.mpr (.node nofun ?_))
    refine List.forall_mem_cons.mpr ⟨leaf rfl rfl, List.forall_mem_cons.mpr ⟨?_, ?_⟩⟩
    · exact .node nofun (List.forall_mem_singleton.mpr (leaf rfl rfl))
    · refine List.forall_mem_singleton.mpr (.node nofun ?_)
      exact List.forall_mem_cons.mpr ⟨leaf rfl rfl, List.forall_mem_cons.mpr
        ⟨variableNamed x false identifier, List.forall_mem_singleton.mpr loop⟩⟩
  have first := named "$items" (by decide)
  have second := named "items" (by decide)
  obtain ⟨p, p', compiled, compiled', same, single⟩ : ∃ p p',
      Compile.program (t "$items") = .ok p ∧ Compile.program (t "items") = .ok p' ∧
        p.listing = p'.listing ∧ p.body.length = 1 := ⟨_, _, rfl, rfl, rfl, rfl⟩
  exact ⟨first, second, p, p', compiled, compiled', same, single,
    listing_determines_program compiled compiled' first second same⟩

/-- A variable whose name is the text of a step is listed like that step: the names have to be
identifiers. -/
example :
    let element : Node :=
      .program [.echoStatement (.arrayIndex (.variable "a" false) [some (.variable "b" false)] false)]
    let spelled : Node :=
      .program [.echoStatement (.variable "a.getValue().getElementByKey($b.getValue())" false)]
    ∃ p p', Compile.program element = .ok p ∧ Compile.program spelled = .ok p' ∧
      p.listing = p'.listing ∧ p ≠ p' :=
  ⟨_, _, rfl, rfl, rfl, by rintro ⟨⟩⟩

end TreeScript
