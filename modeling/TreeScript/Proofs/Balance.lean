import TreeScript.Proofs.Discipline.Control
import TreeScript.Proofs.History

set_option autoImplicit false

/- Scopes and calls are balanced: whatever is run, and however it ends, the scopes around are those
that were there before, the current one has kept its variables, and as many calls are under way. -/
namespace TreeScript

/-- What is around at a point of a run: the outer scopes, the variables of the current one that
were there first, and the calls under way. -/
structure Surroundings where
  outer : List Scope
  first : List String
  depth : Nat

/-- The surroundings are as they should be, within a bound on the calls. -/
structure Surroundings.Hold (bound : Nat) (around : Surroundings) (m : Machine) : Prop where
  scopes : ∃ scope, m.scopes = scope :: around.outer ∧ around.first <+: Assoc.keys scope
  depth : m.callDepth = around.depth
  depthBound : m.callDepth ≤ bound
  limitBound : m.callLimit ≤ bound

def balance (bound : Nat) : Control where
  Index := Surroundings
  good := Surroundings.Hold bound
  moment moment := moment.machine.callDepth ≤ bound
  writable _ _ := True
  callable _ := True
  declare around _ := around
  inner around m := ⟨m.scopes, [], around.depth⟩
  callee around _ := { around with depth := around.depth + 1 }
  alike hold alike :=
    ⟨by rw [alike.scopes]; exact hold.scopes, by rw [alike.callDepth, hold.depth],
      by rw [alike.callDepth]; exact hold.depthBound,
      by rw [alike.callLimit]; exact hold.limitBound⟩
  seen hold := hold.depthBound
  lookup hold _ := hold.depthBound
  methods _ _ := trivial
  functions _ _ := trivial
  scope hold := by
    obtain ⟨scope, isScope, -⟩ := hold.scopes
    exact ⟨scope, _, isScope⟩
  undeclare hold := hold
  newClass hold _ := ⟨hold.scopes, hold.depth, hold.depthBound, hold.limitBound⟩
  rebind {around m scope outer} name s hold isScope := by
    obtain ⟨current, isCurrent, kept⟩ := hold.scopes
    obtain ⟨rfl, rfl⟩ := List.cons.inj (isScope.symm.trans isCurrent)
    refine ⟨⟨_, rfl, kept.trans ?_⟩, hold.depth, hold.depthBound, hold.limitBound⟩
    rw [Assoc.keys_set]
    split
    · exact List.prefix_rfl
    · exact List.prefix_append _ _
  extend {around m scope added outer names} hold isScope _ := by
    obtain ⟨current, isCurrent, kept⟩ := hold.scopes
    obtain ⟨rfl, rfl⟩ := List.cons.inj (isScope.symm.trans isCurrent)
    refine ⟨⟨_, rfl, kept.trans ?_⟩, hold.depth, hold.depthBound, hold.limitBound⟩
    simp only [Assoc.keys, List.map_append]
    exact List.prefix_append _ _
  defineFunction hold _ := ⟨hold.scopes, hold.depth, hold.depthBound, hold.limitBound⟩
  defineClass _ _ hold := ⟨hold.scopes, hold.depth, hold.depthBound, hold.limitBound⟩
  push hold := ⟨⟨[], rfl, List.nil_prefix⟩, hold.depth, hold.depthBound, hold.limitBound⟩
  pop before after := by
    obtain ⟨scope, isScope, -⟩ := after.scopes
    refine ⟨?_, after.depth, after.depthBound, after.limitBound⟩
    simpa [isScope] using before.scopes
  enter hold below := ⟨hold.scopes, by simp [hold.depth],
    Nat.le_trans (Nat.succ_le_of_lt below) hold.limitBound, hold.limitBound⟩
  leave before after := by
    refine ⟨after.scopes, ?_, ?_, after.limitBound⟩
    · simp [Machine.leaveCall, after.depth]
    · exact Nat.le_trans (Nat.sub_le _ _) after.depthBound
  body _ _ := Policy.fitsAll_of_free _ (fun _ _ => trivial) (fun _ => trivial)
    (fun _ => trivial) _ _

theorem balance_fits (bound : Nat) (around : Surroundings) (block : Code.Block) :
    (balance bound).discipline.FitsAll around block :=
  (balance bound).discipline.toPolicy.fitsAll_of_free (fun _ _ => trivial) (fun _ => trivial)
    (fun _ => trivial) block around

/-- A session always has a scope to run a program in. -/
theorem Session.execute_ne_noScope (s : Session) (p : Code.Program) :
    (s.execute p).1 ≠ .error (.runtime .noScope) := by
  have start : (balance s.withBuiltins.config.callLimit).discipline.good
      (⟨[], [], 0⟩ : Surroundings) (s.withBuiltins.boot p) :=
    ⟨⟨_, rfl, List.nil_prefix⟩, rfl, Nat.zero_le _, Nat.le_refl _⟩
  exact (execute_keeps start (balance_fits _ _ _)).2.1

/-- Code that is run on a machine with scopes, however it ends, leaves the scopes that were there:
the outer ones as they were, and the current one with all its variables. It leaves as many calls
under way as before, and passes the limit of calls at no moment. So no program that a session
evaluates ever finds itself without a scope. -/
theorem scopes_and_calls_balanced (levels : Nat) (frame : Frame) (block : Code.Block) (m : Machine)
    (scope : Scope) (outer : List Scope) (isScope : m.scopes = scope :: outer) :
    (∃ scope', (Run.left ((execBlock (invoke levels) frame block) m)).scopes = scope' :: outer ∧
        Assoc.keys scope <+: Assoc.keys scope') ∧
      (Run.left ((execBlock (invoke levels) frame block) m)).callDepth = m.callDepth ∧
      (∀ moment ∈ (execBlock (invoke levels) frame block).trace m,
        moment.machine.callDepth ≤ max m.callDepth m.callLimit) ∧
      (∀ m', (execBlock (invoke levels) frame block) m ≠ .error .noScope m') ∧
      ∀ (s : Session) (tree : Node), (s.evaluate tree).1 ≠ .error (.runtime .noScope) := by
  let around : Surroundings := ⟨outer, Assoc.keys scope, m.callDepth⟩
  let D := (balance (max m.callDepth m.callLimit)).discipline
  have start : D.good around m :=
    ⟨⟨scope, isScope, List.prefix_rfl⟩, rfl, Nat.le_max_left _ _, Nat.le_max_right _ _⟩
  have keeps : D.Keeps around m.store.extent D.KnownFlow (execBlock (invoke levels) frame block) :=
    Discipline.execBlock_meets (Discipline.invoke_serves levels) block
      ((balance _).holds_any _ frame) (balance_fits _ around block)
  have holds := keeps.holds start (le_refl _)
  have final : D.good around (Run.left ((execBlock (invoke levels) frame block) m)) :=
    (holds.mono (fun _ _ ended => ended.2.1) fun _ _ ended => ended.2.1).left
  obtain ⟨passed, ended⟩ := holds.sound
  refine ⟨final.scopes, final.depth, passed, fun m' failed => ?_, fun s tree => ?_⟩
  · rw [failed] at ended
    exact ended.2.2 rfl
  · rcases s.evaluate_cases tree with ⟨-, -, noFault⟩ | ⟨p, -, -, runs⟩
    · exact noFault .noScope
    · rw [runs]
      exact s.execute_ne_noScope p

/-- Calls a function whose body, in a scope of its own, calls one that does not exist. -/
def failsInCall : Code.Block :=
  [.defineFunction (Compile.assembleFunction "f" [] false
      [.expression (.call (.string "g") [])] ⟨["y"], 0⟩),
    .expression (.call (.string "f") [])]

/-- A fault within a call leaves the scopes and the depth of its start. -/
theorem scopes_and_calls_balanced_on_failure :
    let m := (Session.create .default false [] .unlimited .unlimited).boot ⟨[], [], 0⟩
    let ended := (execBlock (invoke 2) ⟨[], none, []⟩ failsInCall) m
    (ended matches .error (.script (.undefinedFunction "g")) _) = true ∧
      m.scopes = [[]] ∧ (∃ scope, (Run.left ended).scopes = [scope]) ∧
      (Run.left ended).callDepth = m.callDepth := by
  intro m ended
  obtain ⟨⟨scope, isScope, -⟩, depth, -⟩ :=
    scopes_and_calls_balanced 2 ⟨[], none, []⟩ failsInCall m [] [] rfl
  exact ⟨by decide +kernel, rfl, ⟨scope, isScope⟩, depth⟩

end TreeScript
