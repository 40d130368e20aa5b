import TreeScript.Proofs.Isolation.Outset
import TreeScript.Proofs.Reading.Evaluation

set_option autoImplicit false

/- Reading changes nothing. An expression that neither assigns nor counts nor calls may make slots
and arrays for what it gives, but it leaves everything that was there, and so it gives the same when
it is evaluated again. -/
namespace TreeScript

open Code (Expr)
open Store (Extends Grounded Offshoot)

/-! The same value -/

/-- Values of two stores that are the same down to a depth. Arrays have the same next index, the
same pointer and the same keys in the same order, each with a value that is the same one level less;
everything else is equal. -/
def Store.AlikeWithin (st st' : Store) : Nat → Value → Value → Prop
  | 0, _, _ => True
  | depth + 1, .array a, .array b =>
      (st'.array b).nextIndex = (st.array a).nextIndex ∧
        (st'.array b).pointer = (st.array a).pointer ∧
        List.Forall₂ (fun entry entry' => entry'.1 = entry.1 ∧
            AlikeWithin st st' depth (st.read entry.2) (st'.read entry'.2))
          (st.array a).elements (st'.array b).elements
  | _ + 1, v, w => w = v

/-- A run ends like another: with the same fault, or with a value that is the same at every
depth. -/
inductive Run.EndsLike :
    EStateM.Result Fault Machine Value → EStateM.Result Fault Machine Value → Prop
  | value {v w : Value} {m m' : Machine}
      (alike : ∀ depth, m.store.AlikeWithin m'.store depth v w) : EndsLike (.ok v m) (.ok w m')
  | fault {m m' : Machine} (f : Fault) : EndsLike (.error f m) (.error f m')

theorem Shifted.alikeWithin {g : Shift} {st st' : Store} (shifted : Shifted g st st')
    (depth : Nat) (v : Value) : st.AlikeWithin st' depth v (g.value v) := by
  induction depth generalizing v with
  | zero => trivial
  | succ depth ih =>
      cases v with
      | array a =>
          simp only [Shift.value, Store.AlikeWithin, shifted.array, Shift.data, Shift.entries,
            List.forall₂_map_right_iff, true_and]
          refine List.forall₂_same.mpr fun entry _ => ?_
          rw [shifted.read]
          exact ⟨rfl, ih (st.read entry.2)⟩
      | _ => rfl

/-! Evaluation and repetition -/

variable {frame : Frame} {m : Machine} {e : Expr}

theorem evalExpr_repeated (user : UserCall) {later : Store} (reads : e.OnlyReads)
    (grounded : Grounded m.store (m.roots ++ frame.held))
    (spare : Offshoot m.store (m.roots ++ frame.held) later) :
    Repetition.EndAlike ⟨m, frame.held, later⟩ m.store (Shift.between m.store later).value
      (Repetition.KnownValue ⟨m, frame.held, later⟩) ((evalExpr user frame e).run m)
      ((evalExpr user frame e).run { m with store := later }) :=
  Repetition.evalExpr_alike (σ := ⟨m, frame.held, later⟩) e reads (.start grounded spare) .start

/-- At every moment of every session the machine is grounded, whatever of its store is held. -/
theorem Session.history_grounded (config : Config) (builtins : Bool) (stdin : List String)
    (stdout stderr : Output) (trees : List Node) (moment : Moment)
    (passed : moment ∈ (create config builtins stdin stdout stderr).history trees)
    (held : List Handle) (inside : ∀ h ∈ held, h.Within moment.machine.store.extent) :
    Grounded moment.machine.store (moment.machine.roots ++ held) := by
  have sound := history_sound config builtins stdin stdout stderr trees moment passed
  exact ⟨sound.owned.closed, List.forall_mem_append.mpr ⟨sound.roots_within, inside⟩⟩

/-- A tree that contains no assignment, no increment or decrement, no call and no `new` compiles,
for its value, to code in which nothing is assigned, written back, called, instantiated or implied.
Wherever that code is evaluated, with a result or with a fault, the machine is left as it was but
for slots and arrays that are new; and evaluated again it gives the same value or the same fault. -/
theorem reading_changes_nothing (n : Node) (c c' : Compile.Context) (e : Expr) (user : UserCall)
    (frame : Frame) (m : Machine) (reads : n.OnlyReads)
    (compiled : Compile.valueOf n c = .ok (e, c'))
    (grounded : Grounded m.store (m.roots ++ frame.held)) :
    e.OnlyReads ∧
      ∃ st, Run.left ((evalExpr user frame e).run m) = { m with store := st } ∧
        Extends m.store st ∧
        Run.EndsLike ((evalExpr user frame e).run m)
          ((evalExpr user frame e).run { m with store := st }) := by
  have code := (Compile.valueOf_reads reads).holds compiled
  -- the evaluation beside itself shows what it leaves, and beside its repetition what that gives
  obtain ⟨st, left, off⟩ := (evalExpr_repeated user code grounded (.start grounded)).offshoot
  refine ⟨code, st, left, off.ext, ?_⟩
  have ended := evalExpr_repeated user code grounded off
  generalize (evalExpr user frame e).run m = first at ended left ⊢
  generalize (evalExpr user frame e).run { m with store := st } = second at ended ⊢
  cases ended with
  | error f _ => exact .fault f
  | ok stores _ _ => exact .value fun depth => stores.shifted.alikeWithin depth _

/-- `$a = [5];` -/
def fiveAssigned : Node := .program [
  .expressionStatement (.expression (.variable "a" false) [⟨"=", .arrayLiteral [.integer 5]⟩])]

/-- `$a + [7 => $b[2]]` -/
def unionRead : Node :=
  .expression (.variable "a" false) [⟨"+", .arrayLiteral [.keyValuePair (.integer 7)
    (.arrayIndex (.variable "b" false) [some (.integer 2)] false)]⟩]

/-- The code of `unionRead`. -/
def unionCode : Expr :=
  .binary (.load (.variable "a")) .add (.array [.pair (.integer 7)
    (.load (.element (.value (.load (.variable "b"))) (some (.integer 2))))])

theorem unionRead_onlyReads : unionRead.OnlyReads := by
  have leaf : ∀ n : Node, n.acts = false → n.parts = [] → n.OnlyReads :=
    fun n still none => .node still (by simp [none])
  have named : ∀ name, (Node.variable name false).OnlyReads := fun _ => leaf _ rfl rfl
  have number : ∀ n, (Node.integer n).OnlyReads := fun _ => leaf _ rfl rfl
  have index : (Node.arrayIndex (.variable "b" false) [some (.integer 2)] false).OnlyReads :=
    .node rfl (by simp [Node.parts, named, number])
  have literal : (Node.arrayLiteral [.keyValuePair (.integer 7)
      (.arrayIndex (.variable "b" false) [some (.integer 2)] false)]).OnlyReads :=
    .node rfl (List.forall_mem_singleton.mpr (.node rfl (by simp [Node.parts, number, index])))
  exact .node (by decide) (by simp [unionRead, Node.parts, named, literal])

/-- How the evaluation of `unionRead` ends on a machine. -/
def unionEnd (m : Machine) : EStateM.Result Fault Machine Value :=
  (evalExpr (invoke 1) ⟨[], none, []⟩ unionCode).run m

/-- Neither does the array of `$a` get the key 7, nor does `$b` come into being: the union is
another array, and yet another one, with the same elements, when it is evaluated again. -/
theorem reading_changes_nothing_union :
    ∃ moment ∈ (Session.create .default false [] .unlimited .unlimited).history [fiveAssigned],
      ∃ st m', unionCode.OnlyReads ∧ Extends moment.machine.store st ∧
        unionEnd moment.machine = .ok (.array ⟨3⟩) { moment.machine with store := st } ∧
        unionEnd { moment.machine with store := st } = .ok (.array ⟨5⟩) m' ∧
        ∀ depth, st.AlikeWithin m'.store depth (.array ⟨3⟩) (.array ⟨5⟩) := by
  have reached : ((Session.create .default false [] .unlimited .unlimited).history
      [fiveAssigned]).any (fun moment => decide (Run.Ends (fun v m => v.handles = [.array ⟨3⟩] ∧
        Run.Ends (fun w _ => w.handles = [.array ⟨5⟩]) (fun _ _ => False) (unionEnd m))
        (fun _ _ => False) (unionEnd moment.machine))) = true := by decide +kernel
  obtain ⟨moment, passed, ends⟩ := List.any_eq_true.mp reached
  have ends := of_decide_eq_true ends
  have grounded := Session.history_grounded .default false [] .unlimited .unlimited [fiveAssigned]
    moment passed [] (by simp)
  obtain ⟨code, st, left, ext, again⟩ := reading_changes_nothing unionRead ⟨[], 0⟩ ⟨[], 0⟩ unionCode
    (invoke 1) ⟨[], none, []⟩ moment.machine unionRead_onlyReads rfl grounded
  change Run.left (unionEnd moment.machine) = _ at left
  change Run.EndsLike (unionEnd moment.machine) (unionEnd { moment.machine with store := st })
    at again
  refine ⟨moment, passed, st, ?_⟩
  generalize unionEnd moment.machine = first at ends left again ⊢
  generalize isSecond : unionEnd { moment.machine with store := st } = second at again ⊢
  cases again with
  | fault f => exact ends.elim
  | @value v w m m' alike =>
      obtain rfl : m = { moment.machine with store := st } := left
      obtain ⟨isFirst, ends⟩ := ends
      rw [isSecond] at ends
      obtain rfl := Value.eq_of_handles isFirst
      obtain rfl := Value.eq_of_handles ends
      exact ⟨m', code, ext, rfl, rfl, alike⟩

end TreeScript
