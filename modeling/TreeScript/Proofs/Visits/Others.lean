import TreeScript.Proofs.Defaults.Declaration
import TreeScript.Proofs.Loops.Simulation

set_option autoImplicit false

/- Code whose loops have other numbers neither sees the entry of a loop in the table nor changes it:
on a machine with another entry there it runs the same, and leaves that entry. -/
namespace TreeScript

open Code (Stmt Block slotsOf)

/-- The machine with another entry for a loop. -/
def Machine.mark (m : Machine) (slot : Nat) (entry : Option Loop) : Machine :=
  m.withLoops (m.loops.set slot entry)

/-- What a computation does does not depend on the entry of a loop, which it leaves. The table does
not get shorter. -/
def Skips {α : Type} (slot : Nat) (c : Run α) : Prop :=
  ∀ (m : Machine) (entry : Option Loop), slot < m.loops.length →
    c.run (m.mark slot entry) = Run.after (·.mark slot entry) (c.run m) ∧
      m.loops.length ≤ (Run.left (c.run m)).loops.length

namespace Machine

variable {m : Machine} {slot : Nat}

theorem mark_mark (entry entry' : Option Loop) :
    (m.mark slot entry).mark slot entry' = m.mark slot entry' := by
  simp [mark, withLoops]

/-- Nothing changes where the entry is put that is there. -/
theorem mark_same {entry : Option Loop} (running : m.loops[slot]? = some entry) :
    m.mark slot entry = m := by
  obtain ⟨inside, same⟩ := List.getElem?_eq_some_iff.mp running
  rw [mark, ← same, List.set_getElem_self]
  rfl

theorem loops_mark (inside : slot < m.loops.length) (entry : Option Loop) :
    (m.mark slot entry).loops[slot]? = some entry := List.getElem?_set_self inside

/-- Entries of other loops are set all the same. -/
theorem setLoop_mark {other : Nat} (inside : slot < m.loops.length) (apart : other ≠ slot)
    (entry loop : Option Loop) :
    (m.mark slot entry).setLoop other loop = (m.setLoop other loop).mark slot entry := by
  have table : (m.loops.set slot entry ++
        List.replicate (other + 1 - (m.loops.set slot entry).length) none).set other loop =
      ((m.loops ++ List.replicate (other + 1 - m.loops.length) none).set other loop).set slot
        entry := by
    rw [List.length_set, ← List.set_append_left _ _ inside, List.set_comm _ _ apart]
  simp only [setLoop, mark, withLoops, table]

theorem length_setLoop (loop : Option Loop) : m.loops.length ≤ (m.setLoop slot loop).loops.length := by
  simp [setLoop]

end Machine

namespace Skips

variable {α β : Type} {slot : Nat}

theorem pure (a : α) : Skips slot (Pure.pure a) := fun _ _ _ => ⟨rfl, le_refl _⟩

theorem bind {c : Run α} {f : α → Run β} (first : Skips slot c) (next : ∀ a, Skips slot (f a)) :
    Skips slot (c >>= f) := by
  intro m entry inside
  obtain ⟨same, longer⟩ := first m entry inside
  cases ran : c.run m with
  | ok a m' =>
      rw [ran] at same longer
      obtain ⟨same', longer'⟩ := next a m' entry (inside.trans_le longer)
      rw [Run.run_bind same, Run.run_bind ran]
      exact ⟨same', longer.trans longer'⟩
  | error f m' =>
      rw [ran] at same longer
      rw [Run.run_bind_error same, Run.run_bind_error ran]
      exact ⟨rfl, longer⟩

/-- What leaves the table alone and does not look at it. -/
theorem of_withLoops {c : Run α} (kept : ∀ m, (Run.left (c.run m)).loops = m.loops)
    (blind : ∀ m loops, c.run (m.withLoops loops) = Run.after (·.withLoops loops) (c.run m)) :
    Skips slot c := by
  intro m entry inside
  have kept := kept m
  refine ⟨(blind m _).trans ?_, kept ▸ le_refl _⟩
  cases ran : c.run m with
  | ok a m' =>
      rw [ran] at kept
      simp only [Run.after, Machine.mark, show m'.loops = m.loops from kept]
  | error f m' =>
      rw [ran] at kept
      simp only [Run.after, Machine.mark, show m'.loops = m.loops from kept]

/-- The entry is there afterwards, however the computation ends. -/
theorem entry_kept {c : Run α} (skips : Skips slot c) {m : Machine} {entry : Option Loop}
    (running : m.loops[slot]? = some entry) :
    (Run.left (c.run m)).loops[slot]? = some entry := by
  have inside := (List.getElem?_eq_some_iff.mp running).1
  obtain ⟨same, longer⟩ := skips m entry inside
  rw [Machine.mark_same running] at same
  rw [same, Run.left_after]
  exact Machine.loops_mark (inside.trans_le longer) entry

end Skips

/-! Parts without loops of their own -/

/-- What goes through no loop of its own skips every entry, if calls do. -/
theorem Uniform.skips {α : Type} {p : Recursion → Run α} (uniform : Uniform False p) {slot : Nat}
    {r : Recursion} (calls : ∀ f frame, Skips slot (r.call f frame)) : Skips slot (p r) := by
  induction uniform with
  | pure a => exact .pure a
  | fault f => exact fun _ _ _ => ⟨rfl, le_refl _⟩
  | note event => exact fun _ _ _ => ⟨rfl, le_refl _⟩
  | step plain =>
      refine .of_withLoops plain.loops fun m loops => ?_
      simp only [Run.run, plain.withLoops]
      rfl
  | write text =>
      refine .of_withLoops (fun m => ?_) fun m loops => ?_
      · rw [Run.run_write]
        split <;> rfl
      · have same : (m.withLoops loops).stdout.write text = m.stdout.write text := rfl
        rw [Run.run_write, Run.run_write, same]
        cases m.stdout.write text <;> rfl
  | @look _ _ k see _ withLoops next ih =>
      intro m entry inside
      have same : see (m.mark slot entry) = see m := withLoops m _
      rw [Run.run_get_bind, Run.run_get_bind, same]
      exact ih (see m) m entry inside
  | bind first next ihFirst ihNext => exact ihFirst.bind ihNext
  | @«scoped» _ p body ih =>
      intro m entry inside
      obtain ⟨same, longer⟩ := ih { m with scopes := [] :: m.scopes } entry inside
      rw [Run.run_inNewScope, Run.run_inNewScope, Run.left_after]
      refine ⟨?_, longer⟩
      refine (congrArg _ same).trans ?_
      cases (p r).run { m with scopes := [] :: m.scopes } <;> rfl
  | call f frame => exact calls f frame
  | loop loops => exact loops.elim

/-- A call has loops of its own, and gives back those of its caller. -/
theorem invoke_skips (levels slot : Nat) (f : Code.Function Stmt) (frame : Frame) :
    Skips slot (invoke levels f frame) := by
  refine .of_withLoops (invoke_loops levels f frame) fun m loops => ?_
  cases levels with
  | zero => rfl
  | succ levels =>
      rw [invoke, Run.run_inCall, Run.run_inCall]
      by_cases full : m.callLimit ≤ m.callDepth
      · have same : (m.withLoops loops).callLimit ≤ (m.withLoops loops).callDepth := full
        rw [if_pos full, if_pos same]
        rfl
      · have same : ¬ (m.withLoops loops).callLimit ≤ (m.withLoops loops).callDepth := full
        rw [if_neg full, if_neg same, Run.after_after]
        rfl

/-! Loops with other numbers -/

section

variable {slot other : Nat}

theorem nextElement_skips (apart : other ≠ slot) : Skips slot (nextElement other) := by
  intro m entry inside
  have table : (m.mark slot entry).loops[other]? = m.loops[other]? :=
    List.getElem?_set_ne apart.symm
  rw [run_nextElement, run_nextElement, table]
  cases m.loops[other]?.join with
  | none => exact ⟨rfl, le_refl _⟩
  | some loop =>
      have moved : (m.mark slot entry).nextRound other loop =
          (m.nextRound other loop).mark slot entry := Machine.setLoop_mark inside apart entry _
      have longer : m.loops.length ≤ (m.nextRound other loop).loops.length :=
        Machine.length_setLoop _
      dsimp only
      rw [moved]
      split
      · exact ⟨rfl, le_refl _⟩
      · have same : (m.mark slot entry).store = m.store := rfl
        rw [same]
        cases (m.store.array loop.array).entryAt? loop.position <;> exact ⟨rfl, longer⟩

theorem walk_skips {body : Key → SlotId → Run Flow} (apart : other ≠ slot)
    (each : ∀ k s, Skips slot (body k s)) (n : Nat) : Skips slot (walk other body n) := by
  induction n with
  | zero => exact .pure _
  | succ n ih =>
      rw [walk_succ, round]
      refine (nextElement_skips apart).bind fun next => ?_
      cases next with
      | none => exact .pure _
      | some entry =>
          refine (each entry.1 entry.2).bind fun flow => ?_
          cases flow with
          | normal => exact ih
          | returned v => exact .pure _

theorem inLoop_skips {body : Run Flow} (apart : other ≠ slot) (loop : Loop)
    (skips : Skips slot body) : Skips slot (inLoop other loop body) := by
  intro m entry inside
  have begun : m.loops.length ≤ (m.setLoop other (some loop)).loops.length :=
    Machine.length_setLoop _
  obtain ⟨same, longer⟩ := skips (m.setLoop other (some loop)) entry (inside.trans_le begun)
  have inside' := inside.trans_le (begun.trans longer)
  rw [run_inLoop, run_inLoop, Machine.setLoop_mark inside apart, same, Run.left_after]
  refine ⟨?_, begun.trans (longer.trans (Machine.length_setLoop _))⟩
  cases ran : body.run (m.setLoop other (some loop)) with
  | ok flow m' =>
      rw [ran] at inside'
      simp only [Run.after, Machine.setLoop_mark (m := m') inside' apart]
  | error f m' =>
      rw [ran] at inside'
      simp only [Run.after, Machine.setLoop_mark (m := m') inside' apart]

end

/-! Statements -/

section

variable {slot : Nat} {user : UserCall}

mutual
theorem execStmt_skips (calls : ∀ f frame, Skips slot (user f frame)) (frame : Frame) :
    (s : Stmt) → slot ∉ s.slots → Skips slot (execStmt user frame s)
  | .ifElse condition consequent alternate, others => by
      rw [Stmt.slots, List.mem_append, not_or] at others
      have parts : ∀ {α : Type} {p : Recursion → Run α}, Uniform False p →
          Skips slot (p ⟨user, walk⟩) := fun uniform => uniform.skips calls
      rw [execStmt]
      refine (parts (evalExpr_uniform frame condition)).bind fun v => ?_
      refine (parts (.inspect _)).bind fun chosen => ?_
      cases chosen with
      | true => exact execBlock_skips calls frame consequent others.1
      | false => exact execBlock_skips calls frame alternate others.2
  | .foreach number array key value byReference body, others => by
      rw [Stmt.slots, List.mem_cons, not_or] at others
      obtain ⟨apart, inner⟩ := others
      have parts : ∀ {α : Type} {p : Recursion → Run α}, Uniform False p →
          Skips slot (p ⟨user, walk⟩) := fun uniform => uniform.skips calls
      rw [execStmt]
      refine (parts (evalExpr_uniform frame array)).bind fun v => ?_
      cases v with
      | array source =>
          refine (parts (.alter _)).bind fun _ =>
            (parts (walkedArray_uniform _ byReference source)).bind fun w => ?_
          cases w with
          | array walked =>
              refine (parts (.inspect _)).bind fun data =>
                inLoop_skips (Ne.symm apart) _ (walk_skips (Ne.symm apart) (fun k s => ?_) _)
              exact (parts (assignKey_uniform _ k key)).bind fun _ =>
                (parts (evalPlace_uniform _ .write value)).bind fun l =>
                  (parts (takeElement_uniform _ byReference l s)).bind fun _ =>
                    execBlock_skips calls _ body inner
          | _ => exact .pure _
      | _ => exact .pure _
  | .scoped body, others => by
      rw [Stmt.slots] at others
      rw [execStmt]
      have inner := execBlock_skips calls frame body others
      intro m entry inside
      obtain ⟨same, longer⟩ := inner { m with scopes := [] :: m.scopes } entry inside
      rw [Run.run_inNewScope, Run.run_inNewScope, Run.left_after]
      refine ⟨(congrArg _ same).trans ?_, longer⟩
      cases (execBlock user frame body).run { m with scopes := [] :: m.scopes } <;> rfl
  | .defineVariables _, _ | .bindArgument _ _, _ | .bindThis, _ | .echo _, _ | .inlineHtml _, _
  | .expression _, _ | .ret _, _ | .defineFunction _, _ | .defineClass _, _ =>
      (flatStmt_uniform frame rfl).skips (r := ⟨user, walk⟩) calls

theorem execBlock_skips (calls : ∀ f frame, Skips slot (user f frame)) (frame : Frame) :
    (b : Block) → slot ∉ slotsOf b → Skips slot (execBlock user frame b)
  | [], _ => by
      rw [execBlock]
      exact .pure _
  | s :: rest, others => by
      rw [slotsOf, List.mem_append, not_or] at others
      rw [execBlock]
      refine (execStmt_skips calls frame s others.1).bind fun flow => ?_
      cases flow with
      | normal => exact execBlock_skips calls frame rest others.2
      | returned v => exact .pure _
end

end

end TreeScript
