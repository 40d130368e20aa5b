import TreeScript.Proofs.Loops.Own
import TreeScript.Proofs.Uniform.Evaluation

set_option autoImplicit false

/- The table of loops along a run, and the run of the same code with loops of their own. The loops
of a call that are under way are like a stack, by their numbers: a loop begins above all of them,
and only the one with the greatest number goes on or ends. -/
namespace TreeScript

/-- The loops of one call, by their numbers. -/
abbrev LoopTable := List (Option Loop)

/-- A table without loops under way. -/
abbrev blank (slots : Nat) : LoopTable := List.replicate slots none

/-- No loop with this number or a greater one is under way. -/
def FreeFrom (slot : Nat) (T : LoopTable) : Prop := ∀ i, slot ≤ i → T[i]?.join = none

/-- What one step may do to the table of a call. It never grows, no loop begins in the place of one
that is under way, and none but the innermost goes on or is forgotten. -/
inductive TableStep : LoopTable → LoopTable → Prop
  | same (T) : TableStep T T
  | begins {T slot} (a length) (inside : slot < T.length) (free : FreeFrom slot T) :
      TableStep T (T.set slot (some ⟨a, length, 0⟩))
  | advances {T slot loop} (running : T[slot]? = some (some loop))
      (innermost : FreeFrom (slot + 1) T) : TableStep T (T.set slot (some loop.next))
  | ends {T slot loop} (running : T[slot]? = some (some loop))
      (innermost : FreeFrom (slot + 1) T) : TableStep T (T.set slot none)

/-- The moment is one of a call at this depth, with this table. -/
structure Moment.At (moment : Moment) (depth : Nat) (T : LoopTable) : Prop where
  depth : moment.machine.callDepth = depth
  loops : moment.machine.loops = T

/-- The moments of a call at some depth, those of the calls that it makes included. Its table goes
from the first to the last by steps; a call that it makes begins with a blank table of its own,
leaves it blank, and gives the caller's table back as it was. -/
inductive Passes : Nat → LoopTable → List Moment → LoopTable → Prop
  | nil {depth T} : Passes depth T [] T
  | here {depth T T' T'' moment rest} (at_ : Moment.At moment depth T') (step : TableStep T T')
      (later : Passes depth T' rest T'') : Passes depth T (moment :: rest) T''
  | call {depth T T' entered begun inside left rest} (slots : Nat)
      (enters : Moment.At entered (depth + 1) T)
      (begins : Moment.At begun (depth + 1) (blank slots))
      (within : Passes (depth + 1) (blank slots) inside (blank slots))
      (leaves : Moment.At left depth T) (later : Passes depth T rest T') :
      Passes depth T (entered :: begun :: inside ++ left :: rest) T'

theorem Passes.append {depth : Nat} {T T' T'' : LoopTable} {first second : List Moment}
    (earlier : Passes depth T first T') (later : Passes depth T' second T'') :
    Passes depth T (first ++ second) T'' := by
  induction earlier with
  | nil => exact later
  | here at_ step _ ih => exact .here at_ step (ih later)
  | call slots enters begins within leaves _ _ ih =>
      have all := Passes.call slots enters begins within leaves (ih later)
      simpa using all

theorem Passes.one {depth : Nat} {T T' : LoopTable} {moment : Moment}
    (at_ : moment.At depth T') (step : TableStep T T') : Passes depth T [moment] T' :=
  .here at_ step .nil

/-! Traces -/

namespace Run

variable {α β : Type} {m m' : Machine}

theorem trace_bind_ok {c : Run α} {f : α → Run β} {a : α} (ran : c.run m = .ok a m') :
    (c >>= f).trace m = c.trace m ++ (f a).trace m' := by
  change (Run.bind c f).trace m = _
  rw [trace, ran]

theorem trace_bind_error {c : Run α} {f : α → Run β} {fault : Fault}
    (ran : c.run m = .error fault m') : (c >>= f).trace m = c.trace m := by
  change (Run.bind c f).trace m = _
  rw [trace, ran, List.append_nil]

theorem trace_ensure (c : Run α) (last : Machine → Machine) :
    (c.ensure last).trace m = c.trace m ++ [⟨none, last (left (c.run m))⟩] := by
  rw [trace]
  cases c.run m <;> rfl

theorem trace_get_bind (f : Machine → Run β) :
    (get >>= f : Run β).trace m = ⟨none, m⟩ :: (f m).trace m := rfl

end Run

/-! One computation made in three ways -/

variable {α β : Type}

/-- On the machine, `a` ends as `g` does and passes through tables of loops by steps; and `o` ends
as `g` does on the machine with any other loops, which it leaves as they are. -/
structure Tracks (g a o : Run α) (m : Machine) : Prop where
  same : a.run m = g.run m
  own : ∀ loops, o.run (m.withLoops loops) = Run.after (·.withLoops loops) (g.run m)
  depth : (Run.left (g.run m)).callDepth = m.callDepth
  passes : Passes m.callDepth m.loops (a.trace m) (Run.left (g.run m)).loops

/-- A run that is stopped for a reason that no code can give. -/
def Refused (g : Run α) (m : Machine) : Prop := ∃ m', g.run m = .error .noScope m'

/-- Unless `g` is refused, it is tracked, and leaves the table of loops as it found it. -/
def Agree (P : LoopTable → Prop) (g a o : Run α) : Prop :=
  ∀ m : Machine, P m.loops →
    Refused g m ∨ Tracks g a o m ∧ (Run.left (g.run m)).loops = m.loops

section

variable {g a o : Run α} {g' a' o' : α → Run β} {m m' : Machine}

theorem Refused.bind (refused : Refused g m) : Refused (g >>= g') m := by
  obtain ⟨m', ran⟩ := refused
  exact ⟨m', Run.run_bind_error ran⟩

theorem Tracks.bind_error {f : Fault} (first : Tracks g a o m) (ran : g.run m = .error f m') :
    Tracks (g >>= g') (a >>= a') (o >>= o') m := by
  have ranOwn : ∀ loops, o.run (m.withLoops loops) = .error f (m'.withLoops loops) := by
    intro loops
    rw [first.own, ran]
    rfl
  have ranSame := first.same.trans ran
  have passes := first.passes
  rw [ran] at passes
  refine ⟨?_, fun loops => ?_, ?_, ?_⟩
  · rw [Run.run_bind_error ranSame, Run.run_bind_error ran]
  · rw [Run.run_bind_error (ranOwn loops), Run.run_bind_error ran]
    rfl
  · rw [Run.run_bind_error ran]
    have depth := first.depth
    rwa [ran] at depth
  · rwa [Run.trace_bind_error ranSame, Run.run_bind_error ran]

theorem Tracks.bind_ok {x : α} (first : Tracks g a o m) (ran : g.run m = .ok x m')
    (next : Tracks (g' x) (a' x) (o' x) m') : Tracks (g >>= g') (a >>= a') (o >>= o') m := by
  have ranOwn : ∀ loops, o.run (m.withLoops loops) = .ok x (m'.withLoops loops) := by
    intro loops
    rw [first.own, ran]
    rfl
  have ranSame := first.same.trans ran
  have depth := first.depth
  have passes := first.passes
  have later := next.passes
  rw [ran] at depth passes
  have depth : m'.callDepth = m.callDepth := depth
  rw [depth] at later
  refine ⟨?_, fun loops => ?_, ?_, ?_⟩
  · rw [Run.run_bind ranSame, Run.run_bind ran, next.same]
  · rw [Run.run_bind (ranOwn loops), Run.run_bind ran, next.own]
  · rw [Run.run_bind ran, next.depth, depth]
  · rw [Run.trace_bind_ok ranSame, Run.run_bind ran]
    exact passes.append later

end

namespace Agree

variable {P P' : LoopTable → Prop} {g a o : Run α} {g' a' o' : α → Run β}

theorem imp (agree : Agree P g a o) (weaker : ∀ T, P' T → P T) : Agree P' g a o :=
  fun m ready => agree m (weaker _ ready)

theorem pure (x : α) : Agree P (Pure.pure x) (Pure.pure x) (Pure.pure x) :=
  fun _ _ => .inr ⟨⟨rfl, fun _ => rfl, rfl, .nil⟩, rfl⟩

theorem fault (f : Fault) : Agree P (Run.fault f : Run α) (Run.fault f) (Run.fault f) :=
  fun _ _ => .inr ⟨⟨rfl, fun _ => rfl, rfl, .nil⟩, rfl⟩

theorem note (event : Event) : Agree P (Run.note event) (Run.note event) (Run.note event) :=
  fun _ _ => .inr ⟨⟨rfl, fun _ => rfl, rfl, .one ⟨rfl, rfl⟩ (.same _)⟩, rfl⟩

/-- A step that leaves the count of calls, and neither looks at the loops nor changes them. -/
theorem step {action : Machine → α × Machine}
    (depth : ∀ m, (action m).2.callDepth = m.callDepth)
    (withLoops : ∀ m loops,
      action (m.withLoops loops) = ((action m).1, (action m).2.withLoops loops)) :
    Agree P (Run.step action) (Run.step action) (Run.step action) := by
  intro m _
  have kept : (action m).2.loops = m.loops := congrArg (·.2.loops) (withLoops m m.loops)
  refine .inr ⟨⟨rfl, fun loops => ?_, depth m, ?_⟩, kept⟩
  · simp only [Run.run, withLoops]
    rfl
  · exact .one ⟨depth m, rfl⟩ (kept ▸ .same _)

theorem bind (first : Agree P g a o) (next : ∀ x, Agree P (g' x) (a' x) (o' x)) :
    Agree P (g >>= g') (a >>= a') (o >>= o') := by
  intro m ready
  rcases first m ready with refused | ⟨tracks, kept⟩
  · exact .inl refused.bind
  · cases ran : g.run m with
    | error f m' =>
        rw [ran] at kept
        refine .inr ⟨tracks.bind_error ran, ?_⟩
        rwa [Run.run_bind_error ran]
    | ok x m' =>
        rw [ran] at kept
        have kept : m'.loops = m.loops := kept
        rcases next x m' (kept.symm ▸ ready) with ⟨m'', refused⟩ | ⟨later, kept'⟩
        · exact .inl ⟨m'', (Run.run_bind ran).trans refused⟩
        · refine .inr ⟨tracks.bind_ok ran later, ?_⟩
          rw [Run.run_bind ran, kept', kept]

theorem look {γ : Type} {k k' k'' : γ → Run α} (see : Machine → γ)
    (withLoops : ∀ m loops, see (m.withLoops loops) = see m)
    (next : ∀ x, Agree P (k x) (k' x) (k'' x)) :
    Agree P (get >>= fun m => k (see m)) (get >>= fun m => k' (see m))
      (get >>= fun m => k'' (see m)) := by
  intro m ready
  rcases next (see m) m ready with refused | ⟨tracks, kept⟩
  · exact .inl refused
  · refine .inr ⟨⟨tracks.same, fun loops => ?_, tracks.depth, ?_⟩, kept⟩
    · rw [Run.run_get_bind, withLoops]
      exact tracks.own loops
    · rw [Run.trace_get_bind]
      exact .here ⟨rfl, rfl⟩ (.same _) tracks.passes

theorem inspect (f : Store → α) : Agree P (Run.inspect f) (Run.inspect f) (Run.inspect f) :=
  .look (·.store) (fun _ _ => rfl) fun st => .pure (f st)

theorem alter (f : Store → Store) : Agree P (Run.alter f) (Run.alter f) (Run.alter f) :=
  .step (fun _ => rfl) fun _ _ => rfl

theorem write (text : String) :
    Agree P (Run.write text) (Run.write text) (Run.write text) := by
  let written (accepted : Option Output) : Run Unit :=
    accepted.elim (.fault (.stream "stream closed")) fun o => modify ({ · with stdout := o })
  have isElim : Run.write text = get >>= fun m => written (m.stdout.write text) :=
    congrArg (get >>= ·) (funext fun m => by cases m.stdout.write text <;> rfl)
  have each : ∀ accepted, Agree P (written accepted) (written accepted) (written accepted) := by
    intro accepted
    cases accepted with
    | none => exact .fault _
    | some o => exact .step (fun _ => rfl) fun _ _ => rfl
  rw [isElim]
  exact .look (·.stdout.write text) (fun _ _ => rfl) each

/-- A last step that looks at no loop and leaves them. -/
theorem ensure {last : Machine → Machine} (depth : ∀ m, (last m).callDepth = m.callDepth)
    (withLoops : ∀ m loops, last (m.withLoops loops) = (last m).withLoops loops)
    (body : Agree P g a o) : Agree P (g.ensure last) (a.ensure last) (o.ensure last) := by
  have loops : ∀ m, (last m).loops = m.loops := fun m =>
    congrArg (·.loops) (withLoops m m.loops)
  intro m ready
  rcases body m ready with ⟨m', ran⟩ | ⟨tracks, kept⟩
  · refine .inl ⟨last m', ?_⟩
    rw [Run.run_ensure, ran]
    rfl
  · refine .inr ⟨⟨?_, fun other => ?_, ?_, ?_⟩, ?_⟩
    · rw [Run.run_ensure, Run.run_ensure, tracks.same]
    · rw [Run.run_ensure, Run.run_ensure, tracks.own]
      cases g.run m <;> simp only [Run.after, withLoops]
    · rw [Run.run_ensure, Run.left_after, depth, tracks.depth]
    · rw [Run.trace_ensure, Run.run_ensure, Run.left_after, loops, tracks.same]
      refine tracks.passes.append (.one ⟨?_, loops _⟩ (.same _))
      exact (depth _).trans tracks.depth
    · rw [Run.run_ensure, Run.left_after, loops, kept]

theorem inScope (body : Agree P g a o) :
    Agree P (inNewScope g) (inNewScope a) (inNewScope o) :=
  .bind (.step (fun _ => rfl) fun _ _ => rfl) fun _ =>
    .ensure (fun _ => rfl) (fun _ _ => rfl) body

end Agree

/-- Three ways to call user functions that agree. -/
def CallsAgree (g a o : UserCall) : Prop :=
  ∀ f frame, Agree (fun _ => True) (g f frame) (a f frame) (o f frame)

/-- What goes through no loop of its own agrees, if calls do. -/
theorem Uniform.agree {g a o : UserCall} (calls : CallsAgree g a o) {p : Recursion → Run α}
    (uniform : Uniform False p) (P : LoopTable → Prop) :
    Agree P (p ⟨g, walk⟩) (p ⟨a, walk⟩) (p ⟨o, walk⟩) := by
  induction uniform with
  | pure x => exact .pure x
  | fault f => exact .fault f
  | note event => exact .note event
  | step plain => exact .step plain.depth plain.withLoops
  | write text => exact .write text
  | look see _ withLoops next ih => exact .look see withLoops ih
  | bind first next ihFirst ihNext => exact ihFirst.bind ihNext
  | «scoped» body ih => exact ih.inScope
  | call f frame => exact (calls f frame).imp fun _ _ => trivial
  | loop loops => exact loops.elim

end TreeScript
