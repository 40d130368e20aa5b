import TreeScript.Proofs.Compile.Covered
import TreeScript.Proofs.Discipline.Control
import TreeScript.Proofs.History

set_option autoImplicit false

/- No write is lost: a variable that compiled code looks up to write to is declared in the scope
where it is looked up, so that what is written stays. -/
namespace TreeScript

open Code (Function Stmt Block)
open Compile (Covered AllCovered OwnLocals)

/-- The outer scopes, and the names that the current one has declared for certain. -/
structure Declarations where
  outer : List Scope
  names : List String

/-- The names are declared, and all functions there are have locals of their own. -/
structure Declarations.Hold (i : Declarations) (m : Machine) : Prop where
  scopes : ∃ scope, m.scopes = scope :: i.outer ∧ ∀ name ∈ i.names, name ∈ Assoc.keys scope
  functions : ∀ name f, (name, Callable.user f) ∈ m.names.functions → OwnLocals f
  methods : ∀ data ∈ m.store.classes, ∀ name f, (name, Callable.user f) ∈ data.methods →
    OwnLocals f

/-- Whether a variable of the current scope is declared. -/
def Machine.Declares (m : Machine) (name : String) : Prop :=
  ∃ scope outer, m.scopes = scope :: outer ∧ name ∈ Assoc.keys scope

/-! Compiled code fits -/

namespace Policy

variable {D : Policy} {i : D.Index}

/-- Functions with locals of their own may be called, and what is declared may be written to. -/
structure Declares (D : Policy) : Prop where
  callable : ∀ f, OwnLocals f → D.callable f
  definable : ∀ f, OwnLocals f → D.definable f
  writable : ∀ (i : D.Index) (names : List String), D.Writes (D.declare i names) names

/-- A statement that fits and declares nothing. -/
abbrev Stays (D : Policy) (i : D.Index) (s : Stmt) : Prop := D.Fits i s ∧ D.after i s = i

theorem fitsAll_of_stays {block : Block} (each : ∀ s ∈ block, D.Stays i s) :
    D.FitsAll i block := by
  induction block with
  | nil =>
      rw [FitsAll]
      exact trivial
  | cons s rest ih =>
      obtain ⟨⟨fits, same⟩, later⟩ := List.forall_mem_cons.mp each
      rw [FitsAll, same]
      exact ⟨fits, ih later⟩

theorem stays_of_covered {names : List String} (declares : D.Declares) (writes : D.Writes i names)
    {s : Stmt} : Covered names s → D.Stays i s
  | .echo written | .expression written | .ret written => by
      refine ⟨?_, rfl⟩
      rw [Fits]
      exact fun name member => writes name (written member)
  | .inlineHtml html => by
      refine ⟨?_, rfl⟩
      rw [Fits]
      exact trivial
  | .ifElse written first second => by
      refine ⟨?_, rfl⟩
      rw [Fits]
      exact ⟨fun name member => writes name (written member),
        fitsAll_of_stays fun s member => stays_of_covered declares writes (first s member),
        fitsAll_of_stays fun s member => stays_of_covered declares writes (second s member)⟩
  | .foreach slot byReference walked keyed valued each => by
      refine ⟨?_, rfl⟩
      rw [Fits]
      exact ⟨fun name member => writes name (walked member),
        fun name member => writes name (keyed member),
        fun name member => writes name (valued member),
        fitsAll_of_stays fun s member => stays_of_covered declares writes (each s member)⟩
  | .defineFunction own => by
      refine ⟨?_, rfl⟩
      rw [Fits]
      exact declares.definable _ own
  | .defineClass named defaults methods => by
      refine ⟨?_, rfl⟩
      rw [Fits]
      exact ⟨fun name member => writes name (named member),
        fun name member => writes name (defaults member),
        fun method member => declares.callable _ (methods method member)⟩

/-- After the declarations of a body, what writes to its locals fits. -/
theorem fitsAll_declarations {locals : List String} {rest : Block} (declares : D.Declares)
    (each : ∀ i, D.Writes i locals → ∀ s ∈ rest, D.Stays i s) (i : D.Index) :
    D.FitsAll i (Code.declarations locals ++ rest) := by
  unfold Code.declarations
  split
  · next none =>
      refine fitsAll_of_stays (each i ?_)
      simp [Writes, List.isEmpty_iff.mp none]
  · rw [List.singleton_append, FitsAll, Fits]
    exact ⟨trivial, fitsAll_of_stays (each _ (declares.writable i locals))⟩

theorem stays_bindThis : D.Stays i .bindThis := ⟨by rw [Fits]; exact trivial, rfl⟩

theorem stays_bindArgument (name : String) (index : Nat) : D.Stays i (.bindArgument name index) :=
  ⟨by rw [Fits]; exact trivial, rfl⟩

theorem fitsAll_body {f : Function Stmt} (declares : D.Declares) (own : OwnLocals f)
    (i : D.Index) : D.FitsAll i f.body := by
  obtain @⟨statements, context, name, parameters, isMethod, covered⟩ := own
  rw [Compile.assembleFunction, FitsAll, Fits, FitsAll]
  refine ⟨fun m _ => ?_, trivial⟩
  rw [List.append_assoc, List.append_assoc]
  refine fitsAll_declarations declares (fun i writes s member => ?_) _
  rcases List.mem_append.mp member with receiver | member
  · cases isMethod with
    | true => exact List.mem_singleton.mp receiver ▸ stays_bindThis
    | false => exact absurd receiver List.not_mem_nil
  · rcases List.mem_append.mp member with argument | statement
    · obtain ⟨index, inside, rfl⟩ := List.mem_mapIdx.mp argument
      exact stays_bindArgument _ index
    · exact stays_of_covered declares writes (covered s statement)

theorem fitsAll_code {tree : Node} {p : Code.Program} (declares : D.Declares)
    (compiled : Compile.program tree = .ok p) (i : D.Index) : D.FitsAll i p.code := by
  rw [Code.Program.code, Code.Program.statements, List.append_assoc]
  refine fitsAll_declarations declares (fun i writes s member => ?_) i
  rcases List.mem_append.mp member with body | last
  · exact stays_of_covered declares writes (Compile.program_covered compiled s body)
  · obtain rfl := List.mem_singleton.mp last
    exact stays_of_covered declares writes .retNull

end Policy

/-! The discipline -/

theorem Machine.user_method {m : Machine} {c : ClassId} {name : String} {f : Function Stmt}
    (member : (name, Callable.user f) ∈ (m.store.classData c).methods) :
    ∃ data ∈ m.store.classes, (name, Callable.user f) ∈ data.methods := by
  unfold Store.classData at member
  cases found : m.store.classes[c.index]? with
  | none => simp [found] at member
  | some data =>
      rw [found] at member
      exact ⟨data, Array.mem_of_getElem? found, member⟩

def declaring : Control where
  Index := Declarations
  good := Declarations.Hold
  moment moment := ∀ name, moment.event = some (.lookup .write name) →
    moment.machine.Declares name
  writable i name := name ∈ i.names
  callable := OwnLocals
  declare i names := { i with names := names ++ i.names }
  inner _ m := ⟨m.scopes, []⟩
  callee i _ := i
  alike hold alike :=
    ⟨by rw [alike.scopes]; exact hold.scopes, by rw [alike.names]; exact hold.functions,
      by rw [alike.classes]; exact hold.methods⟩
  seen _ _ := by simp
  lookup {i m use name} hold writes other noted := by
    obtain ⟨rfl, rfl⟩ : use = .write ∧ name = other := by simpa using noted
    obtain ⟨scope, isScope, declared⟩ := hold.scopes
    exact ⟨scope, i.outer, isScope, declared name (writes rfl)⟩
  methods hold member := by
    obtain ⟨data, listed, isMethod⟩ := Machine.user_method member
    exact hold.methods data listed _ _ isMethod
  functions hold member := hold.functions _ _ member
  scope hold := by
    obtain ⟨scope, isScope, -⟩ := hold.scopes
    exact ⟨scope, _, isScope⟩
  undeclare hold := by
    obtain ⟨scope, isScope, declared⟩ := hold.scopes
    exact ⟨⟨scope, isScope, fun name member => declared name (List.mem_append_right _ member)⟩,
      hold.functions, hold.methods⟩
  newClass hold own := by
    refine ⟨hold.scopes, hold.functions, fun data member => ?_⟩
    rcases Array.mem_push.mp member with old | rfl
    · exact hold.methods data old
    · exact own
  rebind {i m scope outer} name s hold isScope := by
    obtain ⟨current, isCurrent, declared⟩ := hold.scopes
    obtain ⟨rfl, rfl⟩ := List.cons.inj (isScope.symm.trans isCurrent)
    refine ⟨⟨_, rfl, fun other member => ?_⟩, hold.functions, hold.methods⟩
    rw [Assoc.keys_set]
    split
    · exact declared other member
    · exact List.mem_append_left _ (declared other member)
  extend {i m scope added outer names} hold isScope listed := by
    obtain ⟨current, isCurrent, declared⟩ := hold.scopes
    obtain ⟨rfl, rfl⟩ := List.cons.inj (isScope.symm.trans isCurrent)
    refine ⟨⟨_, rfl, fun name member => ?_⟩, hold.functions, hold.methods⟩
    rcases List.mem_append.mp member with new | old
    · exact listed name new
    · simp only [Assoc.keys, List.map_append]
      exact List.mem_append_left _ (declared name old)
  defineFunction hold own := by
    refine ⟨hold.scopes, fun key f member => ?_, hold.methods⟩
    rcases Assoc.mem_set member with old | isNew
    · exact hold.functions key f old
    · exact Callable.user.inj isNew ▸ own
  defineClass _ _ hold := ⟨hold.scopes, hold.functions, hold.methods⟩
  push hold := ⟨⟨[], rfl, by simp⟩, hold.functions, hold.methods⟩
  pop before after := by
    obtain ⟨scope, isScope, -⟩ := after.scopes
    refine ⟨?_, after.functions, after.methods⟩
    simpa [isScope] using before.scopes
  enter hold _ := ⟨hold.scopes, hold.functions, hold.methods⟩
  leave _ after := ⟨after.scopes, after.functions, after.methods⟩
  body _ own := Policy.fitsAll_body
    ⟨fun _ own => own, fun _ own => own, fun _ _ _ member => List.mem_append_left _ member⟩ own _

theorem declaring_declares : declaring.discipline.toPolicy.Declares :=
  ⟨fun _ own => own, fun _ own => own, fun _ _ _ member => List.mem_append_left _ member⟩

/-- A declared variable is found where it is, and nothing changes. -/
theorem Machine.Declares.ofVariable {m : Machine} {name : String} (declares : m.Declares name) :
    Location.ofVariable name m = .ok (.variable name) m := by
  obtain ⟨scope, outer, isScope, member⟩ := declares
  have contained := (Assoc.contains_iff_mem_keys scope name).mpr member
  have looked : currentScope m = .ok scope m := by
    rw [currentScope, Run.run_bind rfl, isScope]
    rfl
  rw [Location.ofVariable, Run.run_bind looked, if_pos contained]
  rfl

namespace Session

/-- What one program leaves to the next: functions and methods with locals of their own. -/
structure LeavesOwn (_globals : Scope) (names : Namespace) (st : Store) : Prop where
  functions : ∀ name f, (name, Callable.user f) ∈ names.functions → OwnLocals f
  methods : ∀ data ∈ st.classes, ∀ name f, (name, Callable.user f) ∈ data.methods → OwnLocals f

theorem no_user_methods {data : ClassData} (builtin : data ∈ Builtin.classes) (name : String)
    (f : Function Stmt) : (name, Callable.user f) ∉ data.methods := by
  simp only [Builtin.classes, List.mem_cons, List.not_mem_nil, or_false] at builtin
  intro member
  rcases builtin with rfl | rfl
  · simp at member
  · simp only [ClassData.defineMethod] at member
    rcases Assoc.mem_set member with earlier | isNew
    · rcases Assoc.mem_set earlier with none | isNew
      · simp at none
      · cases isNew
    · cases isNew

theorem LeavesOwn.install {globals : Scope} {n : Namespace} {st : Store}
    (leaves : LeavesOwn globals n st) :
    LeavesOwn globals (Builtin.install n st).1 (Builtin.install n st).2 := by
  refine install_keeps (P := LeavesOwn globals) ?_ ?_ leaves
  · intro n st b leaves
    refine ⟨fun name f member => ?_, leaves.methods⟩
    rcases Assoc.mem_set member with old | isNew
    · exact leaves.functions name f old
    · cases isNew
  · intro n st data builtin leaves
    refine ⟨leaves.functions, fun other member name f isMethod => ?_⟩
    rcases Array.mem_push.mp member with old | rfl
    · exact leaves.methods other old name f isMethod
    · exact absurd isMethod (no_user_methods builtin name f)

/-- At every moment of every session, a variable that is looked up to be written to is declared in
the current scope: the lookup finds the scope's own variable, never a detached one. -/
theorem written_variable_declared (config : Config) (builtins : Bool) (stdin : List String)
    (stdout stderr : Output) (trees : List Node) (moment : Moment)
    (passed : moment ∈ (create config builtins stdin stdout stderr).history trees)
    (name : String) (writes : moment.event = some (.lookup .write name)) :
    moment.machine.Declares name ∧
      Location.ofVariable name moment.machine = .ok (.variable name) moment.machine := by
  have start : LeavesOwn (create config builtins stdin stdout stderr).globals
      (create config builtins stdin stdout stderr).names .empty := by
    rw [names_create]
    exact ⟨by simp [Namespace.empty], by simp [Store.empty]⟩
  have declared : moment.machine.Declares name := by
    refine history_keeps (D := declaring.discipline) (P := LeavesOwn) LeavesOwn.install
      (fun {s tree p} leaves compiled => ?_) trees start moment passed name writes
    refine ⟨(⟨[], []⟩ : Declarations), ⟨⟨_, rfl, by simp⟩, leaves.functions, leaves.methods⟩,
      Policy.fitsAll_code declaring_declares compiled _, fun m hold => ?_⟩
    exact ⟨hold.functions, hold.methods⟩
  exact ⟨declared, declared.ofVariable⟩

/-- `function f() { $y[] = true; } f();` -/
def appendsInCall : Node := .program [
  .functionStatement "f" [] [.expressionStatement
    (.expression (.arrayIndex (.variable "y" false) [none] false) [⟨"=", .boolean true⟩])],
  .expressionStatement (.functionCall (.string "f") [])]

/-- The variable in which the call vivifies an array is one of its own scope. -/
theorem written_variable_declared_in_call :
    ∃ moment ∈ (create .default false [] .unlimited .unlimited).history [appendsInCall],
      moment.event = some (.lookup .write "y") ∧ moment.machine.Declares "y" ∧
        Location.ofVariable "y" moment.machine = .ok (.variable "y") moment.machine := by
  have reached : ((create .default false [] .unlimited .unlimited).history [appendsInCall]).any
      (·.event == some (.lookup .write "y")) = true := by decide +kernel
  obtain ⟨moment, passed, noted⟩ := List.any_eq_true.mp reached
  have writes : moment.event = some (.lookup .write "y") := by simpa using noted
  exact ⟨moment, passed, writes, written_variable_declared .default false [] .unlimited .unlimited
    [appendsInCall] moment passed "y" writes⟩

end Session
end TreeScript
