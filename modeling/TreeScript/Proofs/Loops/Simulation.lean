import TreeScript.Proofs.Compile.Slots
import TreeScript.Proofs.Loops.Table

set_option autoImplicit false

/- Code whose loops are numbered in order runs alike with a table of loops and with loops that keep
their state to themselves. A loop finds its place in the table free, those around it have smaller
numbers and those within it greater ones, and at its end the table is as it was. -/
namespace TreeScript

open Code (Stmt Block slotsOf)
open Compile (CompiledFunction)

/-- There is room in the table for so many loops from a number on. -/
structure Room (slot n : Nat) (T : LoopTable) : Prop where
  inside : slot + n ≤ T.length
  free : FreeFrom slot T

theorem Room.later {slot n : Nat} {T : LoopTable} (room : Room slot n T) {k k' : Nat}
    (fits : k + k' ≤ n) : Room (slot + k) k' T := by
  refine ⟨?_, fun i above => room.free i (by omega)⟩
  have := room.inside
  omega

theorem room_blank (n : Nat) : Room 0 n (blank n) := by
  refine ⟨by simp, fun i _ => ?_⟩
  simp only [List.getElem?_replicate]
  split <;> rfl

theorem FreeFrom.set_below {slot : Nat} {T : LoopTable} (free : FreeFrom slot T)
    (loop : Option Loop) : FreeFrom (slot + 1) (T.set slot loop) := by
  intro i above
  rw [List.getElem?_set_ne (by omega)]
  exact free i (by omega)

/-- Where a loop has been forgotten the table is as it was before it began. -/
theorem FreeFrom.set_none {slot : Nat} {T : LoopTable} (free : FreeFrom slot T)
    (inside : slot < T.length) (loop : Option Loop) : (T.set slot loop).set slot none = T := by
  have isNone : T[slot] = none := by
    have joined := free slot (Nat.le_refl _)
    rwa [List.getElem?_eq_getElem inside, Option.join_some] at joined
  rw [List.set_set, ← isNone, List.set_getElem_self]

theorem Machine.setLoop_loops {m : Machine} {slot : Nat} (inside : slot < m.loops.length)
    (loop : Option Loop) : (m.setLoop slot loop).loops = m.loops.set slot loop := by
  have none : slot + 1 - m.loops.length = 0 := by omega
  simp [setLoop, none]

/-! Loops -/

theorem element_agree (P : LoopTable → Prop) (loop : Loop) :
    Agree P (Own.element loop) (Own.element loop) (Own.element loop) := by
  refine .bind (.inspect _) fun data => ?_
  split
  · exact .pure none
  · exact .bind (.alter _) fun _ => .pure _

theorem run_element (loop : Loop) (m : Machine) :
    ∃ entry m', (Own.element loop).run m = .ok entry m' := by
  have looked : (Run.inspect (·.array loop.array)).run m = .ok (m.store.array loop.array) m := rfl
  rw [Own.element, Run.run_bind looked]
  cases (m.store.array loop.array).entryAt? loop.position with
  | none => exact ⟨_, _, rfl⟩
  | some entry => exact ⟨_, _, rfl⟩

/-- The table keeps the position of the innermost loop, and gives its next element. -/
theorem nextElement_tracks {m : Machine} {slot : Nat} {loop : Loop}
    (running : m.loops[slot]? = some (some loop)) (innermost : FreeFrom (slot + 1) m.loops)
    (left : ¬ loop.length ≤ loop.position) :
    Tracks (nextElement slot) (nextElement slot) (Own.element loop) m ∧
      ∃ entry m', (nextElement slot).run m = .ok entry m' ∧
        m'.loops = m.loops.set slot (some loop.next) := by
  have inside : slot < m.loops.length := (List.getElem?_eq_some_iff.mp running).1
  have moved : (m.nextRound slot loop).loops = m.loops.set slot (some loop.next) :=
    Machine.setLoop_loops inside _
  have joined : m.loops[slot]?.join = some loop := by rw [running, Option.join_some]
  have ran : (nextElement slot).run m = (Own.element loop).run (m.nextRound slot loop) := by
    rw [nextElement, Run.run_get_bind, joined]
    simp only [if_neg left]
    rfl
  have traced : (nextElement slot).trace m = ⟨none, m⟩ :: ⟨none, m.nextRound slot loop⟩ ::
      (Own.element loop).trace (m.nextRound slot loop) := by
    rw [nextElement, Run.trace_get_bind, joined]
    simp only [if_neg left]
    rfl
  obtain ⟨entry, m', found⟩ := run_element loop (m.nextRound slot loop)
  rcases element_agree (fun _ => True) loop (m.nextRound slot loop) trivial with
    ⟨_, refused⟩ | ⟨tracks, kept⟩
  · rw [found] at refused
    cases refused
  · refine ⟨⟨rfl, fun loops => ?_, ?_, ?_⟩, entry, m', ran.trans found, ?_⟩
    · rw [ran]
      exact tracks.own loops
    · rw [ran]
      exact tracks.depth
    · rw [traced, ran]
      refine .here ⟨rfl, rfl⟩ (.same _) (.here ⟨rfl, rfl⟩ ?_ tracks.passes)
      rw [moved]
      exact .advances running innermost
    · rw [found] at kept
      exact kept.trans moved

section loops

variable {g a o : Key → SlotId → Run Flow} {slot n : Nat} {T : LoopTable}

/-- The rounds that are left of a loop. Each leaves the table as it was but for the position. -/
theorem walk_tracks (each : ∀ k s, Agree (Room (slot + 1) n) (g k s) (a k s) (o k s))
    (room : Room slot (n + 1) T) (rounds : Nat) (loop : Loop)
    (left : loop.position + rounds = loop.length) (m : Machine)
    (table : m.loops = T.set slot (some loop)) :
    Refused (walk slot g rounds) m ∨
      Tracks (walk slot g rounds) (walk slot a rounds) (Own.walk o loop) m ∧
        ∃ loop', (Run.left ((walk slot g rounds).run m)).loops = T.set slot (some loop') := by
  have ended : ∀ (m : Machine) (flow : Flow), Tracks (pure flow) (pure flow) (pure flow) m :=
    fun m flow => ⟨rfl, fun _ => rfl, rfl, .nil⟩
  have inside : slot < T.length := by
    have := room.inside
    omega
  induction rounds generalizing loop m with
  | zero =>
      rw [Own.walk, if_pos (by omega)]
      exact .inr ⟨ended m .normal, loop, table⟩
  | succ rounds ih =>
      have running : m.loops[slot]? = some (some loop) := by
        rw [table, List.getElem?_set_self inside]
      have innermost : FreeFrom (slot + 1) m.loops := table ▸ room.free.set_below _
      obtain ⟨tracks, entry, m', ran, moved⟩ := nextElement_tracks running innermost (by omega)
      have table' : m'.loops = T.set slot (some loop.next) := by
        rw [moved, table, List.set_set]
      rw [Own.walk, if_neg (by omega), walk_succ, walk_succ, round, round]
      cases entry with
      | none =>
          refine .inr ⟨tracks.bind_ok ran (ended m' .normal), loop.next, ?_⟩
          rw [Run.run_bind ran]
          exact table'
      | some entry =>
          obtain ⟨key, s⟩ := entry
          have within : Room (slot + 1) n m'.loops := by
            rw [table']
            exact ⟨by have := room.inside; simp; omega, room.free.set_below _⟩
          rcases each key s m' within with ⟨m'', refused⟩ | ⟨bodyTracks, kept⟩
          · refine .inl ⟨m'', ?_⟩
            rw [Run.run_bind ran]
            exact Run.run_bind_error refused
          · cases ranBody : (g key s).run m' with
            | error f m'' =>
                rw [ranBody] at kept
                refine .inr ⟨tracks.bind_ok ran (bodyTracks.bind_error ranBody), loop.next, ?_⟩
                rw [Run.run_bind ran, Run.run_bind_error ranBody]
                exact kept.trans table'
            | ok flow m'' =>
                rw [ranBody] at kept
                have table'' : m''.loops = T.set slot (some loop.next) := kept.trans table'
                cases flow with
                | returned v =>
                    refine .inr ⟨tracks.bind_ok ran (bodyTracks.bind_ok ranBody (ended m'' _)),
                      loop.next, ?_⟩
                    rw [Run.run_bind ran, Run.run_bind ranBody]
                    exact table''
                | normal =>
                    rcases ih loop.next (by simp only [Loop.next]; omega) m'' table'' with
                      ⟨final, refused⟩ | ⟨later, loop', table₃⟩
                    · refine .inl ⟨final, ?_⟩
                      rw [Run.run_bind ran, Run.run_bind ranBody]
                      exact refused
                    · refine .inr ⟨tracks.bind_ok ran (bodyTracks.bind_ok ranBody later), loop', ?_⟩
                      rw [Run.run_bind ran, Run.run_bind ranBody]
                      exact table₃

/-- A whole loop begins in a free place of the table and leaves it free. -/
theorem inLoop_agree (each : ∀ k s, Agree (Room (slot + 1) n) (g k s) (a k s) (o k s))
    (array : ArrayId) (length : Nat) :
    Agree (Room slot (n + 1)) (inLoop slot ⟨array, length, 0⟩ (walk slot g length))
      (inLoop slot ⟨array, length, 0⟩ (walk slot a length)) (Own.walk o ⟨array, length, 0⟩) := by
  intro m room
  have inside : slot < m.loops.length := by
    have := room.inside
    omega
  let start : Machine := m.setLoop slot (some ⟨array, length, 0⟩)
  have table : start.loops = m.loops.set slot (some ⟨array, length, 0⟩) :=
    Machine.setLoop_loops inside _
  have within : ∀ c : Run Flow, (inLoop slot ⟨array, length, 0⟩ c).run m =
      Run.after (·.setLoop slot none) (c.run start) := fun c => run_inLoop slot _ c m
  have traced : ∀ c : Run Flow, (inLoop slot ⟨array, length, 0⟩ c).trace m =
      ⟨none, start⟩ :: (c.trace start ++ [⟨none, (Run.left (c.run start)).setLoop slot none⟩]) := by
    intro c
    rw [← Run.trace_ensure]
    rfl
  rcases walk_tracks each room length ⟨array, length, 0⟩ (Nat.zero_add _) start table with
    ⟨m', refused⟩ | ⟨tracks, loop, final⟩
  · refine .inl ⟨m'.setLoop slot none, ?_⟩
    rw [within, refused]
    rfl
  · have inside' : slot < (Run.left ((walk slot g length).run start)).loops.length := by
      rw [final, List.length_set]
      exact inside
    have cleared : ((Run.left ((walk slot g length).run start)).setLoop slot none).loops =
        m.loops := by
      rw [Machine.setLoop_loops inside', final]
      exact room.free.set_none inside _
    have ends : TableStep (Run.left ((walk slot g length).run start)).loops m.loops := by
      have running : (Run.left ((walk slot g length).run start)).loops[slot]? =
          some (some loop) := by rw [final, List.getElem?_set_self inside]
      have innermost : FreeFrom (slot + 1) (Run.left ((walk slot g length).run start)).loops :=
        final ▸ room.free.set_below _
      have forgotten := TableStep.ends running innermost
      rwa [← Machine.setLoop_loops inside', cleared] at forgotten
    refine .inr ⟨⟨?_, fun loops => ?_, ?_, ?_⟩, ?_⟩
    · rw [within, within, tracks.same]
    · have own : (Own.walk o ⟨array, length, 0⟩).run (m.withLoops loops) =
          Run.after (·.withLoops loops) ((walk slot g length).run start) := tracks.own loops
      rw [own, within]
      cases (walk slot g length).run start <;> rfl
    · rw [within, Run.left_after]
      exact tracks.depth
    · rw [traced, within, Run.left_after, tracks.same]
      have begins : TableStep m.loops start.loops := by
        rw [table]
        exact .begins array length inside room.free
      refine .here ⟨rfl, rfl⟩ begins (tracks.passes.append ?_)
      rw [cleared]
      exact .one ⟨tracks.depth, cleared⟩ ends
    · rw [within, Run.left_after, cleared]

end loops

/-! Statements -/

theorem Own.execStmt_flat (user : UserCall) (frame : Frame) {s : Stmt} (flat : s.nests = false) :
    Own.execStmt user frame s = TreeScript.execStmt user frame s := by
  cases s with
  | ifElse _ _ _ | «foreach» _ _ _ _ _ _ | «scoped» _ => cases flat
  | _ => rw [Own.execStmt] <;> intros <;> contradiction

section statements

variable {g a o : UserCall}

mutual
/-- A statement with its loops numbered in order needs no more of the table than their places. -/
theorem execStmt_agree (calls : CallsAgree g a o) (frame : Frame) :
    (s : Stmt) → (slot n : Nat) → s.slots = List.range' slot n →
      Agree (Room slot n) (execStmt g frame s) (execStmt a frame s) (Own.execStmt o frame s)
  | .ifElse condition consequent alternate, slot, n, slots => by
      rw [Stmt.slots, eq_comm, List.range'_eq_append_iff] at slots
      obtain ⟨k, few, first, second⟩ := slots
      rw [execStmt, execStmt, Own.execStmt]
      refine .bind ((evalExpr_uniform frame condition).agree calls _) fun v =>
        .bind (.inspect _) fun chosen => ?_
      cases chosen with
      | true =>
          exact (execBlock_agree calls frame consequent slot k first).imp fun _ room =>
            room.later (k := 0) (by omega)
      | false =>
          have second : slotsOf alternate = List.range' (slot + k) (n - k) := by simpa using second
          exact (execBlock_agree calls frame alternate _ _ second).imp fun _ room =>
            room.later (by omega)
  | .foreach number array key value byReference body, slot, n, slots => by
      rw [Stmt.slots] at slots
      cases n with
      | zero => cases slots
      | succ n =>
          rw [List.range'_succ] at slots
          obtain ⟨rfl, inner⟩ := List.cons.inj slots
          rw [execStmt, execStmt, Own.execStmt]
          refine .bind ((evalExpr_uniform frame array).agree calls _) fun v => ?_
          cases v with
          | array source =>
              refine .bind (.alter _) fun _ =>
                .bind ((walkedArray_uniform _ byReference _).agree calls _) fun w => ?_
              cases w with
              | array walked =>
                  refine .bind (.inspect _) fun data => inLoop_agree (fun k s => ?_) _ _
                  exact .bind ((assignKey_uniform _ k key).agree calls _) fun _ =>
                    .bind ((evalPlace_uniform _ .write value).agree calls _) fun l =>
                      .bind ((takeElement_uniform _ byReference l s).agree calls _) fun _ =>
                        execBlock_agree calls _ body (number + 1) n inner
              | _ => exact .pure _
          | _ => exact .pure _
  | .scoped body, slot, n, slots => by
      rw [Stmt.slots] at slots
      rw [execStmt, execStmt, Own.execStmt]
      exact (execBlock_agree calls frame body slot n slots).inScope
  | .defineVariables _, _, _, _ | .bindArgument _ _, _, _, _ | .bindThis, _, _, _
  | .echo _, _, _, _ | .inlineHtml _, _, _, _ | .expression _, _, _, _ | .ret _, _, _, _
  | .defineFunction _, _, _, _ | .defineClass _, _, _, _ => by
      rw [Own.execStmt_flat o frame rfl]
      exact (flatStmt_uniform frame rfl).agree calls _

theorem execBlock_agree (calls : CallsAgree g a o) (frame : Frame) :
    (b : Block) → (slot n : Nat) → slotsOf b = List.range' slot n →
      Agree (Room slot n) (execBlock g frame b) (execBlock a frame b) (Own.execBlock o frame b)
  | [], _, _, _ => by
      rw [execBlock, execBlock, Own.execBlock]
      exact .pure _
  | s :: rest, slot, n, slots => by
      rw [slotsOf, eq_comm, List.range'_eq_append_iff] at slots
      obtain ⟨k, few, first, second⟩ := slots
      rw [execBlock, execBlock, Own.execBlock]
      refine .bind ((execStmt_agree calls frame s slot k first).imp fun _ room =>
        room.later (k := 0) (by omega)) fun flow => ?_
      cases flow with
      | normal =>
          have second : slotsOf rest = List.range' (slot + k) (n - k) := by simpa using second
          exact (execBlock_agree calls frame rest _ _ second).imp fun _ room =>
            room.later (by omega)
      | returned v => exact .pure _
end

end statements

/-! Calls -/

theorem Own.run_inCall {α : Type} (c : Run α) (m : Machine) :
    (Own.inCall c).run m =
      if m.callLimit ≤ m.callDepth then .error (.script (.nestingLevel m.callLimit)) m
      else Run.after Machine.leaveCall (c.run { m with callDepth := m.callDepth + 1 }) := by
  by_cases full : m.callLimit ≤ m.callDepth
  · rw [if_pos full, Own.inCall, Run.run_bind_error (Run.run_enterCall.trans (if_pos full))]
  · rw [if_neg full, Own.inCall, Run.run_bind (Run.run_enterCall.trans (if_neg full))]
    exact Run.run_ensure c _

/-- The machine on which the body of a call begins. -/
def Machine.callee (m : Machine) (slots : Nat) : Machine :=
  { m with callDepth := m.callDepth + 1, loops := blank slots }

/-- The machine of the caller after a call. -/
def Machine.caller (m m' : Machine) : Machine := { m'.leaveCall with loops := m.loops }

theorem trace_inCall {α : Type} (slots : Nat) (c : Run α) (m : Machine) :
    (inCall slots c).trace m = ⟨none, m⟩ ::
      if m.callLimit ≤ m.callDepth then []
      else ⟨none, { m with callDepth := m.callDepth + 1 }⟩ :: ⟨none, m.callee slots⟩ ::
        (c.trace (m.callee slots) ++ [⟨none, m.caller (Run.left (c.run (m.callee slots)))⟩]) := by
  by_cases full : m.callLimit ≤ m.callDepth
  · rw [if_pos full, inCall, Run.trace_bind_error (Run.run_enterCall.trans (if_pos full)),
      enterCall, Run.trace_get_bind, if_pos full]
    rfl
  · rw [if_neg full, inCall, Run.trace_bind_ok (Run.run_enterCall.trans (if_neg full)),
      enterCall, Run.trace_get_bind, if_neg full, ← Run.trace_ensure]
    rfl

variable {α : Type}

/-- A call begins with a table of its own, with room for the loops of its body. -/
theorem inCall_agree {g a o : Run α} {slots : Nat} (body : Agree (Room 0 slots) g a o)
    (P : LoopTable → Prop) : Agree P (inCall slots g) (inCall slots a) (Own.inCall o) := by
  intro m _
  by_cases full : m.callLimit ≤ m.callDepth
  · have refused : ∀ c : Run α, (inCall slots c).run m =
        .error (.script (.nestingLevel m.callLimit)) m := fun c =>
      (Run.run_inCall slots c).trans (if_pos full)
    refine .inr ⟨⟨?_, fun loops => ?_, ?_, ?_⟩, ?_⟩
    · rw [refused, refused]
    · rw [refused]
      exact (Own.run_inCall o _).trans (if_pos full)
    · rw [refused]
      rfl
    · rw [refused, trace_inCall, if_pos full]
      exact .one ⟨rfl, rfl⟩ (.same _)
    · rw [refused]
      rfl
  · have ran : ∀ c : Run α, (inCall slots c).run m =
        Run.after m.caller (c.run (m.callee slots)) := fun c =>
      (Run.run_inCall slots c).trans (if_neg full)
    rcases body (m.callee slots) (room_blank slots) with ⟨m', refused⟩ | ⟨tracks, kept⟩
    · refine .inl ⟨m.caller m', ?_⟩
      rw [ran, refused]
      rfl
    · have depth : (m.caller (Run.left (g.run (m.callee slots)))).callDepth = m.callDepth := by
        simp only [Machine.caller, Machine.leaveCall, tracks.depth]
        exact Nat.add_sub_cancel _ _
      refine .inr ⟨⟨?_, fun loops => ?_, ?_, ?_⟩, ?_⟩
      · rw [ran, ran, tracks.same]
      · have own : (Own.inCall o).run (m.withLoops loops) =
            Run.after Machine.leaveCall (o.run ((m.callee slots).withLoops loops)) :=
          (Own.run_inCall o _).trans (if_neg full)
        rw [own, tracks.own, ran]
        cases g.run (m.callee slots) <;> rfl
      · rw [ran, Run.left_after, depth]
      · rw [trace_inCall, if_neg full, ran, Run.left_after, tracks.same]
        have inside := tracks.passes
        rw [kept] at inside
        exact .here ⟨rfl, rfl⟩ (.same _)
          (.call slots ⟨rfl, rfl⟩ ⟨rfl, rfl⟩ inside ⟨depth, rfl⟩ .nil)
      · rw [ran, Run.left_after]
        rfl

open Classical in
/-- Calls that stop at a function that the compiler has not made. -/
noncomputable def guardedInvoke : Nat → UserCall
  | 0 => invoke 0
  | levels + 1 => fun f frame =>
      if CompiledFunction f then
        inCall f.loopSlots do
          match ← execBlock (guardedInvoke levels) frame f.body with
          | .normal => pure .null
          | .returned v => pure v
      else .fault .noScope

theorem guardedInvoke_of_compiled (levels : Nat) {f : Code.Function Stmt}
    (compiled : CompiledFunction f) (frame : Frame) :
    guardedInvoke (levels + 1) f frame = inCall f.loopSlots (do
      match ← execBlock (guardedInvoke levels) frame f.body with
      | .normal => pure .null
      | .returned v => pure v) := if_pos compiled

/-- However many levels are left, calls of compiled functions agree. -/
theorem invoke_agree (levels : Nat) :
    CallsAgree (guardedInvoke levels) (invoke levels) (Own.invoke levels) := by
  induction levels with
  | zero =>
      intro f frame
      have each : ∀ limit, Agree (fun _ => True) (Run.fail (.nestingLevel limit) : Run Value)
          (Run.fail (.nestingLevel limit)) (Run.fail (.nestingLevel limit)) := fun _ => .fault _
      exact .look (·.callLimit) (fun _ _ => rfl) each
  | succ levels ih =>
      intro f frame
      by_cases compiled : CompiledFunction f
      · have slots : slotsOf f.body = List.range' 0 f.loopSlots := by
          rw [Compile.slotsOf_function compiled, List.range_eq_range']
        rw [guardedInvoke_of_compiled levels compiled, invoke, Own.invoke]
        refine inCall_agree (.bind (execBlock_agree ih frame f.body 0 f.loopSlots slots)
          fun flow => ?_) _
        cases flow with
        | normal => exact .pure _
        | returned v => exact .pure _
      · have stopped : guardedInvoke (levels + 1) f frame = .fault .noScope := if_neg compiled
        exact fun m _ => .inl ⟨m, by rw [stopped]; rfl⟩

end TreeScript
