import TreeScript.Evaluate
import TreeScript.Proofs.Run

set_option autoImplicit false

/- Running code whose calls and loops are left open. Computations that are made of plain steps,
writes, calls and loops are uniform: they look at no limit, and what calls and loops do is all that
they leave to others. -/
namespace TreeScript

open Code (Stmt)

/-- The statement has blocks of its own. -/
def Code.Stmt.nests : Stmt → Bool
  | .ifElse .. | .foreach .. | .scoped _ => true
  | _ => false

/-- One round of a loop, and what comes after it unless the loop is left or has no element. -/
def round (slot : Nat) (body : Key → SlotId → Run Flow) (again : Run Flow) : Run Flow := do
  match ← nextElement slot with
  | none => pure .normal
  | some (key, s) =>
      match ← body key s with
      | .normal => again
      | .returned v => pure (.returned v)

theorem walk_succ (slot : Nat) (body : Key → SlotId → Run Flow) (n : Nat) :
    walk slot body (n + 1) = round slot body (walk slot body n) := rfl

/-! The ends of these computations -/

theorem run_inLoop (slot : Nat) (loop : Loop) (c : Run Flow) (m : Machine) :
    (inLoop slot loop c).run m =
      Run.after (·.setLoop slot none) (c.run (m.setLoop slot (some loop))) := Run.run_ensure c _

/-- The machine when a loop has gone on by one element. -/
def Machine.nextRound (m : Machine) (slot : Nat) (loop : Loop) : Machine :=
  m.setLoop slot (some { loop with position := loop.position + 1 })

theorem run_nextElement (slot : Nat) (m : Machine) :
    (nextElement slot).run m = match m.loops[slot]?.join with
      | none => .ok none m
      | some loop =>
          if loop.length ≤ loop.position then .ok none m
          else match (m.store.array loop.array).entryAt? loop.position with
            | none => .ok none (m.nextRound slot loop)
            | some entry => .ok (some entry) { m.nextRound slot loop with
                store := m.store.setArray loop.array (m.store.array loop.array).advance } := by
  rw [nextElement, Run.run_get_bind]
  cases m.loops[slot]?.join with
  | none => rfl
  | some loop =>
      by_cases spent : loop.length ≤ loop.position
      · simp only [if_pos spent]
        rfl
      · have moved : (modify (·.setLoop slot (some { loop with position := loop.position + 1 })) :
            Run Unit).run m = .ok () (m.nextRound slot loop) := rfl
        have array : (Run.inspect (·.array loop.array)).run (m.nextRound slot loop) =
            .ok (m.store.array loop.array) (m.nextRound slot loop) := rfl
        simp only [if_neg spent]
        rw [Run.run_bind moved, Run.run_bind array]
        cases (m.store.array loop.array).entryAt? loop.position with
        | none => rfl
        | some entry => rfl

section

variable {slot : Nat} {body : Key → SlotId → Run Flow} {again : Run Flow} {m m₁ : Machine}
  {key : Key} {s : SlotId}

theorem run_round_none (spent : (nextElement slot).run m = .ok none m₁) :
    (round slot body again).run m = .ok .normal m₁ := by
  rw [round, Run.run_bind spent]
  rfl

theorem run_round_some (next : (nextElement slot).run m = .ok (some (key, s)) m₁) :
    (round slot body again).run m = match (body key s).run m₁ with
      | .ok .normal m₂ => again.run m₂
      | .ok (.returned v) m₂ => .ok (.returned v) m₂
      | .error f m₂ => .error f m₂ := by
  rw [round, Run.run_bind next]
  cases ran : (body key s).run m₁ with
  | error f m₂ => exact Run.run_bind_error ran
  | ok flow m₂ =>
      refine (Run.run_bind ran).trans ?_
      cases flow with
      | normal => rfl
      | returned v => rfl

end

/-- How calls of user functions are made, and how a loop goes on: by its number, what it does for an
element, and the number of elements it began with. -/
structure Recursion where
  call : UserCall
  loop : Nat → (Key → SlotId → Run Flow) → Nat → Run Flow

namespace Recursion

mutual
def execStmt (r : Recursion) (frame : Frame) : Stmt → Run Flow
  | .ifElse condition consequent alternate => do
      let v ← evalExpr r.call frame condition
      if ← Run.inspect (·.toBoolean v) then r.execBlock frame consequent
      else r.execBlock frame alternate
  | .foreach slot array key value byReference body => do
      match ← evalExpr r.call frame array with
      | .array source => do
          Run.alter fun st => st.setArray source (st.array source).reset
          match ← walkedArray frame.held byReference source with
          | .array a => do
              let length := (← Run.inspect (·.array a)).size
              let inside := frame.holding [.array source, .array a]
              inLoop slot ⟨a, length, 0⟩ (r.loop slot (fun k s => do
                let frame := inside.holding [.slot s]
                assignKey r.call frame k key
                let l ← evalPlace r.call frame .write value
                let _ ← takeElement frame.held byReference l s
                r.execBlock ((if byReference then inside else frame).holding l.handles) body)
                length)
          | _ => pure .normal
      | _ => pure .normal
  | .scoped body => inNewScope (r.execBlock frame body)
  | s => TreeScript.execStmt r.call frame s

def execBlock (r : Recursion) (frame : Frame) : List Stmt → Run Flow
  | [] => pure .normal
  | s :: rest => do
      match ← r.execStmt frame s with
      | .normal => r.execBlock frame rest
      | .returned v => pure (.returned v)
end

/-- The body of a function, with all that it calls left to `r`. -/
def callBody (r : Recursion) (f : Code.Function Stmt) (frame : Frame) : Run Value := do
  match ← r.execBlock frame f.body with
  | .normal => pure .null
  | .returned v => pure v

/-- One call, and one round of a loop with the rounds after it left to `r`. A call is refused by the
count of calls alone, and a loop ends where it has no element. -/
def unfold (r : Recursion) : Recursion where
  call f frame := inCall f.loopSlots (r.callBody f frame)
  loop slot body length := round slot body (r.loop slot body length)

/-- So many levels of calls and rounds of loops, and `r` beyond them. -/
def unfolded (r : Recursion) : Nat → Recursion
  | 0 => r
  | n + 1 => (r.unfolded n).unfold

theorem unfolded_add (r : Recursion) (n k : Nat) :
    r.unfolded (n + k) = (r.unfolded n).unfolded k := by
  induction k with
  | zero => rfl
  | succ k ih => exact congrArg unfold ih

theorem unfolded_of_le (r : Recursion) {n k : Nat} (fewer : n ≤ k) :
    ∃ r' : Recursion, r.unfolded k = r'.unfolded n := by
  refine ⟨r.unfolded (k - n), ?_⟩
  rw [← unfolded_add, Nat.sub_add_cancel fewer]

/-- Calls that nest so deep, and loops that go on for as many rounds as they had elements. -/
def bounded (levels : Nat) : Recursion := ⟨invoke levels, walk⟩

mutual
theorem bounded_execStmt (levels : Nat) (frame : Frame) :
    (s : Stmt) → (bounded levels).execStmt frame s = TreeScript.execStmt (invoke levels) frame s
  | .ifElse condition consequent alternate => by
      simp only [execStmt, TreeScript.execStmt, bounded_execBlock]
      rfl
  | .foreach slot array key value byReference body => by
      simp only [execStmt, TreeScript.execStmt, bounded_execBlock]
      rfl
  | .scoped body => by
      simp only [execStmt, TreeScript.execStmt, bounded_execBlock]
  | .defineVariables _ | .bindArgument _ _ | .bindThis | .echo _ | .inlineHtml _ | .expression _
  | .ret _ | .defineFunction _ | .defineClass _ => by simp only [execStmt, bounded]

theorem bounded_execBlock (levels : Nat) (frame : Frame) :
    (block : List Stmt) →
      (bounded levels).execBlock frame block = TreeScript.execBlock (invoke levels) frame block
  | [] => rfl
  | s :: rest => by
      rw [execBlock, TreeScript.execBlock, bounded_execStmt levels frame s]
      refine congrArg (Run.bind _) (funext fun flow => ?_)
      cases flow with
      | normal => exact bounded_execBlock levels frame rest
      | returned v => rfl
end

theorem bounded_call (levels : Nat) (f : Code.Function Stmt) (frame : Frame) :
    (bounded (levels + 1)).call f frame = inCall f.loopSlots ((bounded levels).callBody f frame) := by
  simp only [callBody, bounded_execBlock]
  rfl

end Recursion

/-- The machine with another limit of calls and another stream. -/
def Machine.under (m : Machine) (limit : Nat) (stdout : Output) : Machine :=
  { m with callLimit := limit, stdout }

/-- A step that neither looks at the limit of calls and the stream nor changes them. -/
def Blind {α : Type} (action : Machine → α × Machine) : Prop :=
  ∀ m limit stdout,
    action (m.under limit stdout) = ((action m).1, (action m).2.under limit stdout)

theorem Blind.limit {α : Type} {action : Machine → α × Machine} (blind : Blind action)
    (m : Machine) : (action m).2.callLimit = m.callLimit :=
  congrArg (·.2.callLimit) (blind m m.callLimit m.stdout)

theorem Blind.stdout {α : Type} {action : Machine → α × Machine} (blind : Blind action)
    (m : Machine) : (action m).2.stdout = m.stdout :=
  congrArg (·.2.stdout) (blind m m.callLimit m.stdout)

/-- The machine with another table of loops. -/
def Machine.withLoops (m : Machine) (loops : List (Option Loop)) : Machine := { m with loops }

/-- A blind step that leaves the count of calls, and neither looks at the loops nor changes them. -/
structure Plain {α : Type} (action : Machine → α × Machine) : Prop where
  blind : Blind action
  depth : ∀ m, (action m).2.callDepth = m.callDepth
  withLoops : ∀ m loops,
    action (m.withLoops loops) = ((action m).1, (action m).2.withLoops loops)

theorem Plain.loops {α : Type} {action : Machine → α × Machine} (plain : Plain action)
    (m : Machine) : (action m).2.loops = m.loops :=
  congrArg (·.2.loops) (plain.withLoops m m.loops)

/-- A computation that has calls and loops made by a recursion it knows nothing of, and is otherwise
made of plain steps, writes and failures. What holds of all of these, and of calls, holds of the
evaluation of all code. Unless it is `looping` it goes through no loop of its own. -/
inductive Uniform (looping : Prop) : {α : Type} → (Recursion → Run α) → Prop
  | pure {α : Type} (a : α) : Uniform looping fun _ => Pure.pure a
  | fault {α : Type} (f : Fault) : Uniform looping fun _ => (Run.fault f : Run α)
  | note (event : Event) : Uniform looping fun _ => Run.note event
  | step {α : Type} {action : Machine → α × Machine} (plain : Plain action) :
      Uniform looping fun _ => Run.step action
  | write (text : String) : Uniform looping fun _ => Run.write text
  /-- The machine is looked at for something that is neither a limit nor a loop. -/
  | look {α γ : Type} {k : γ → Recursion → Run α} (see : Machine → γ)
      (blind : ∀ m limit stdout, see (m.under limit stdout) = see m)
      (withLoops : ∀ m loops, see (m.withLoops loops) = see m)
      (next : ∀ x, Uniform looping (k x)) : Uniform looping fun r => get >>= fun m => k (see m) r
  | bind {α β : Type} {p : Recursion → Run α} {q : Recursion → α → Run β}
      (first : Uniform looping p) (next : ∀ a, Uniform looping fun r => q r a) :
      Uniform looping fun r => p r >>= q r
  | scoped {α : Type} {p : Recursion → Run α} (body : Uniform looping p) :
      Uniform looping fun r => inNewScope (p r)
  | call (f : Code.Function Stmt) (frame : Frame) : Uniform looping fun r => r.call f frame
  | loop {body : Recursion → Key → SlotId → Run Flow} (loops : looping) (slot : Nat)
      (a : ArrayId) (length : Nat) (each : ∀ k s, Uniform looping fun r => body r k s) :
      Uniform looping fun r => inLoop slot ⟨a, length, 0⟩ (r.loop slot (body r) length)

namespace Uniform

variable {looping : Prop}

theorem fail {α : Type} (e : ScriptError) : Uniform looping fun _ => (Run.fail e : Run α) :=
  .fault _

theorem inspect {α : Type} (f : Store → α) : Uniform looping fun _ => Run.inspect f :=
  .look (k := fun st _ => Pure.pure (f st)) (·.store) (fun _ _ _ => rfl) (fun _ _ => rfl)
    fun st => .pure (f st)

theorem update {α : Type} (f : Store → α × Store) : Uniform looping fun _ => Run.update f :=
  .step ⟨fun _ _ _ => rfl, fun _ => rfl, fun _ _ => rfl⟩

theorem alter (f : Store → Store) : Uniform looping fun _ => Run.alter f := update _

theorem ending {α : Type} (answer : Option α) : Uniform looping fun _ => Run.ending answer := by
  cases answer with
  | none => exact .fault _
  | some a => exact .pure a

theorem change {f : Machine → Machine}
    (blind : ∀ m limit stdout, f (m.under limit stdout) = (f m).under limit stdout)
    (depth : ∀ m, (f m).callDepth = m.callDepth)
    (withLoops : ∀ m loops, f (m.withLoops loops) = (f m).withLoops loops) :
    Uniform looping fun _ => (modify f : Run Unit) :=
  .step ⟨fun m limit stdout => congrArg ((), ·) (blind m limit stdout), depth,
    fun m loops => congrArg ((), ·) (withLoops m loops)⟩

end Uniform
end TreeScript
