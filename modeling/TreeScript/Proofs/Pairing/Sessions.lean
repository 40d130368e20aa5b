import TreeScript.Proofs.Loops
import TreeScript.Proofs.Ownership
import TreeScript.Proofs.Pairing.Execution
import TreeScript.Proofs.Store.Likeness

set_option autoImplicit false

/- Sessions that are the same but for the numbers of their slots: no program can tell them apart. -/
namespace TreeScript

open Code (Stmt Block)

/-- Entries within a store, each slot beside itself. -/
theorem Pairing.Entries.self {κ : Type} {st : Store} {l : List (κ × SlotId)}
    (inside : ∀ entry ∈ l, (Handle.slot entry.2).Within st.extent) :
    (Pairing.same st.slots.size).Entries l l :=
  List.forall₂_same.mpr fun entry member => ⟨rfl, rfl, inside entry member⟩

/-- A store that nothing leads out of is paired with itself. -/
theorem Store.Paired.self {st : Store} (closed : st.Closed) :
    st.Paired (.same st.slots.size) st where
  left := rfl
  right := rfl
  read pair := congrArg st.read pair.1
  spareLeft s alone := by
    have outside : st.slots.size ≤ s.index := Nat.le_of_not_lt fun inside => alone s ⟨rfl, inside⟩
    simp [Store.read, outside]
  spareRight s alone := by
    have outside : st.slots.size ≤ s.index := Nat.le_of_not_lt fun inside => alone s ⟨rfl, inside⟩
    simp [Store.read, outside]
  arrays := rfl
  array a := by
    by_cases inside : (Handle.array a).Within st.extent
    · exact ⟨.self fun _ member => closed.element inside member, rfl, rfl⟩
    · have none : st.array a = .empty := by
        simp [Store.array, Array.getElem?_eq_none (Nat.le_of_not_lt inside)]
      rw [none]
      exact ⟨.nil, rfl, rfl⟩
  objects := rfl
  object o := by
    by_cases inside : (Handle.object o).Within st.extent
    · exact ⟨rfl, .self fun _ member => closed.property inside member⟩
    · have none : (st.object o).properties = [] := by
        simp [Store.object, Array.getElem?_eq_none (Nat.le_of_not_lt inside)]
      exact ⟨rfl, none ▸ .nil⟩
  classes := rfl

namespace Session

variable {s s' : Session} {ρ ρ₁ : Pairing}

/-! What programs leave -/

/-- What every session has that programs have run in: a store that is in order, and functions that
come from the compiler. -/
structure Orderly (s : Session) : Prop where
  leaves : Leaves s.globals s.names s.store
  own : LeavesOwn s.globals s.names s.store
  compiled : LeavesCompiled s.names s.store

theorem LeavesOwn.begins (leaves : LeavesOwn s.globals s.names s.store) {tree : Node}
    {p : Code.Program} (compiled : Compile.program tree = .ok p) :
    ∃ i, declaring.discipline.good i (s.boot p) ∧ declaring.discipline.FitsAll i p.code ∧
      ∀ m, declaring.discipline.good i m → LeavesOwn (m.scopes.headD []) m.names m.store :=
  ⟨(⟨[], []⟩ : Declarations), ⟨⟨_, rfl, by simp⟩, leaves.functions, leaves.methods⟩,
    Policy.fitsAll_code declaring_declares compiled _, fun _ hold => ⟨hold.functions, hold.methods⟩⟩

namespace Orderly

theorem evaluate (orderly : s.Orderly) (tree : Node) : (s.evaluate tree).2.Orderly where
  leaves := orderly.leaves.evaluate tree
  own := (evaluate_keeps (D := declaring.discipline) (P := LeavesOwn) LeavesOwn.install
    (fun leaves compiled => leaves.begins compiled) tree orderly.own).2
  compiled := orderly.compiled.evaluate tree

theorem withBuiltins (orderly : s.Orderly) : s.withBuiltins.Orderly where
  leaves := by
    rw [globals_withBuiltins]
    rcases s.names_withBuiltins with ⟨names, store⟩ | ⟨names, store⟩ <;> rw [names, store]
    · exact orderly.leaves
    · exact orderly.leaves.install
  own := by
    rw [globals_withBuiltins]
    rcases s.names_withBuiltins with ⟨names, store⟩ | ⟨names, store⟩ <;> rw [names, store]
    · exact orderly.own
    · exact orderly.own.install
  compiled := orderly.compiled.withBuiltins

end Orderly

theorem orderly_create (config : Config) (builtins : Bool) (stdin : List String)
    (stdout stderr : Output) : (create config builtins stdin stdout stderr).Orderly := by
  refine ⟨?_, ?_, leavesCompiled_create config builtins stdin stdout stderr⟩
  · rw [names_create]
    exact ⟨Store.owned_empty, by simp [create], by simp [Namespace.empty]⟩
  · rw [names_create]
    exact ⟨by simp [Namespace.empty], by simp [create, Store.empty]⟩

theorem Orderly.outcomes (orderly : s.Orderly) (trees : List Node) :
    (s.outcomes Session.evaluate trees).2.Orderly := by
  induction trees generalizing s with
  | nil => exact orderly
  | cons tree rest ih => exact ih (orderly.evaluate tree)

/-! Sessions beside one another -/

/-- The sessions are the same but for the numbers of their slots. -/
structure Paired (ρ : Pairing) (s s' : Session) : Prop where
  store : s.store.Paired ρ s'.store
  globals : ρ.Entries s.globals s'.globals
  namespaces : s.namespaces = s'.namespaces
  config : s.config = s'.config
  awaitsBuiltins : s.awaitsBuiltins = s'.awaitsBuiltins
  stdin : s.stdin = s'.stdin
  stdout : s.stdout = s'.stdout
  stderr : s.stderr = s'.stderr

/-- A session is paired with itself. -/
theorem Orderly.paired (orderly : s.Orderly) : s.Paired (.same s.store.slots.size) s where
  store := .self orderly.leaves.owned.closed
  globals := .self orderly.leaves.globals
  namespaces := rfl
  config := rfl
  awaitsBuiltins := rfl
  stdin := rfl
  stdout := rfl
  stderr := rfl

/-- The variables in their order, each with its value as far as so many levels of it. -/
def shown (s : Session) (depth : Nat) : List (String × Snapshot) :=
  s.globals.map fun (name, slot) => (name, s.store.snapshotWithin depth (s.store.read slot))

/-- How a session concludes a run. -/
def conclude (s : Session) :
    EStateM.Result Fault Machine Flow → Except EvalError Outcome × Session
  | .ok flow m =>
      let v := match flow with
        | .returned v => v
        | .normal => .null
      (.ok ⟨v.typeTag, m.store.snapshot v⟩, s.resume m)
  | .error f m => (.error (.runtime f), (s.resume m).report f)

theorem executeOwn_conclude (s : Session) (p : Code.Program) :
    s.executeOwn p = s.withBuiltins.conclude
      ((Own.runBody p.code).run (s.withBuiltins.machine s.withBuiltins.names 0)) := by
  simp only [executeOwn]
  cases (Own.runBody p.code).run (s.withBuiltins.machine s.withBuiltins.names 0) <;> rfl

namespace Paired

theorem names (paired : s.Paired ρ s') : s.names = s'.names := by
  rw [Session.names, Session.names, paired.namespaces, paired.config]

theorem shown (paired : s.Paired ρ s') (depth : Nat) :
    s.shown depth = s'.shown depth := by
  refine paired.globals.map fun name slot slot' pair => ?_
  simp only [paired.store.read pair, paired.store.snapshotWithin]

theorem machine (paired : s.Paired ρ s') (own : LeavesOwn s.globals s.names s.store) :
    (s.machine s.names 0).Paired ρ [.level] (s'.machine s'.names 0) where
  store := paired.store
  scopes := .cons (.level paired.globals) .nil
  names := paired.names
  stdin := paired.stdin
  stdout := paired.stdout
  callDepth := rfl
  callLimit := congrArg Config.callLimit paired.config
  own := ⟨own.functions, own.methods⟩

theorem resume (paired : s.Paired ρ s') {m m' : Machine} (machines : m.Paired ρ₁ [.level] m') :
    (s.resume m).Paired ρ₁ (s'.resume m') where
  store := machines.store
  globals := by
    have scopes := machines.scopes
    simp only [Session.resume]
    generalize m.scopes = all, m'.scopes = all' at scopes ⊢
    cases scopes with
    | cons inner _ =>
        cases inner with
        | level entries => exact entries
  namespaces := by simp only [Session.resume, paired.namespaces, paired.config, machines.names]
  config := paired.config
  awaitsBuiltins := paired.awaitsBuiltins
  stdin := machines.stdin
  stdout := machines.stdout
  stderr := paired.stderr

theorem report (paired : s.Paired ρ s') (f : Fault) : (s.report f).Paired ρ (s'.report f) := by
  cases f with
  | script e => exact { paired with stderr := by simp only [Session.report, paired.stderr] }
  | _ => exact paired

/-- Runs that end alike are concluded alike. -/
theorem conclude (paired : s.Paired ρ s') {ended ended' : EStateM.Result Fault Machine Flow}
    (alike : ρ₁.EndAlike [.level] Same ended ended') :
    (s.conclude ended).1 = (s'.conclude ended').1 ∧
      ∃ ρ₂, (s.conclude ended).2.Paired ρ₂ (s'.conclude ended').2 := by
  cases alike with
  | ok _ machines same =>
      obtain rfl := same
      simp only [Session.conclude]
      exact ⟨by rw [Store.snapshot, Store.snapshot, machines.store.snapshotWithin], _,
        paired.resume machines⟩
  | error f _ machines => exact ⟨rfl, _, (paired.resume machines).report f⟩

end Paired

/-! Later programs -/

variable {tree : Node} {p : Code.Program}

/-- The code of a program: what readies it, and statements that write only to its locals. -/
theorem code_covered (compiled : Compile.program tree = .ok p) {stmt : Stmt}
    (member : stmt ∈ p.code) : stmt.isPrologue = true ∨ Compile.Covered p.locals stmt := by
  rcases List.mem_append.mp member with statements | last
  · rcases List.mem_append.mp statements with declared | body
    · unfold Code.declarations at declared
      split at declared
      · cases declared
      · obtain rfl := List.mem_singleton.mp declared
        exact .inl rfl
    · exact .inr (Compile.program_covered compiled stmt body)
  · obtain rfl := List.mem_singleton.mp last
    exact .inr .retNull

theorem code_alike (compiled : Compile.program tree = .ok p) :
    ρ.Alike [.level] Same (Own.runBody p.code) (Own.runBody p.code) := by
  refine .look fun m m' paired => ?_
  rw [paired.callLimit]
  have frames : Frame.Paired ρ ⟨[], none, []⟩ ⟨[], none, []⟩ := ⟨rfl, rfl, .nil⟩
  refine execBlock_alike frames fun stmt member {ρ₁} frames => ?_
  rcases code_covered compiled member with readies | covered
  · exact prologue_alike frames readies
  · exact execStmt_alike (invoke_alike _) (fun _ _ => List.not_mem_nil) frames covered

theorem awaitsBuiltins_withBuiltins (s : Session) : s.withBuiltins.awaitsBuiltins = false := by
  unfold withBuiltins
  split
  · rfl
  · next awaits => exact eq_false_of_ne_true awaits

theorem awaitsBuiltins_execute (s : Session) (p : Code.Program) :
    (s.execute p).2.awaitsBuiltins = false := by
  rw [← s.awaitsBuiltins_withBuiltins, execute]
  cases (runBody p.code).run (s.withBuiltins.boot p) with
  | ok flow m => rfl
  | error f m => cases f <;> rfl

theorem awaitsBuiltins_evaluate (ready : s.awaitsBuiltins = false) (tree : Node) :
    (s.evaluate tree).2.awaitsBuiltins = false := by
  rcases s.evaluate_cases tree with ⟨-, same, -⟩ | ⟨p, -, -, runs⟩
  · rw [same]
    exact ready
  · rw [runs]
    exact s.awaitsBuiltins_execute p

namespace Paired

/-- Sessions that have their builtins. -/
theorem withBuiltins (paired : s.Paired ρ s') (ready : s.awaitsBuiltins = false) :
    s.withBuiltins.Paired ρ s'.withBuiltins := by
  have ready' : s'.awaitsBuiltins = false := paired.awaitsBuiltins ▸ ready
  simp only [Session.withBuiltins, ready, ready', Bool.false_eq_true, if_false]
  exact { paired with
    namespaces := by simp only [paired.namespaces, paired.config]
    awaitsBuiltins := rfl }

theorem execute (paired : s.Paired ρ s') (ready : s.awaitsBuiltins = false) (orderly : s.Orderly)
    (compiled : Compile.program tree = .ok p) :
    (s.executeOwn p).1 = (s'.executeOwn p).1 ∧
      ∃ ρ₁, (s.executeOwn p).2.Paired ρ₁ (s'.executeOwn p).2 := by
  have both := paired.withBuiltins ready
  rw [executeOwn_conclude, executeOwn_conclude]
  exact both.conclude (code_alike compiled _ _ (both.machine orderly.withBuiltins.own))

theorem evaluate (paired : s.Paired ρ s') (ready : s.awaitsBuiltins = false) (orderly : s.Orderly)
    (orderly' : s'.Orderly) (tree : Node) :
    (s.evaluate tree).1 = (s'.evaluate tree).1 ∧
      ∃ ρ₁, (s.evaluate tree).2.Paired ρ₁ (s'.evaluate tree).2 := by
  rw [← evaluateOwn_eq orderly.compiled, ← evaluateOwn_eq orderly'.compiled]
  cases tree with
  | program statements =>
      simp only [evaluateOwn]
      cases compiled : Compile.program (.program statements) with
      | ok p => exact paired.execute ready orderly compiled
      | error e => exact ⟨rfl, ρ, paired⟩
  | _ => exact ⟨rfl, ρ, paired⟩

/-- No later program can tell the sessions apart. -/
theorem outcomes (paired : s.Paired ρ s') (ready : s.awaitsBuiltins = false) (orderly : s.Orderly)
    (orderly' : s'.Orderly) (trees : List Node) :
    (s.outcomes Session.evaluate trees).1 = (s'.outcomes Session.evaluate trees).1 := by
  induction trees generalizing ρ s s' with
  | nil => rfl
  | cons tree rest ih =>
      obtain ⟨same, ρ₁, next⟩ := paired.evaluate ready orderly orderly' tree
      exact congrArg₂ List.cons same (ih next (awaitsBuiltins_evaluate ready tree)
        (orderly.evaluate tree) (orderly'.evaluate tree))

end Paired
end Session
end TreeScript
