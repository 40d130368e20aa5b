import TreeScript.Proofs.Defaults
import TreeScript.Proofs.Operands.Taken

set_option autoImplicit false

/- The operands of a call or of an array literal are evaluated one after the other, and copied only
when they all are. So a parameter or an element shows what its operand shows at that time. That is
what the operand showed when its own evaluation ended, if nothing else leads to it, but an array
that is in a variable follows what later operands do to the variable. -/
namespace TreeScript

open Code (Expr Entry)

/-- An operand as its evaluation leaves it: its value, the frame in which it is held from then on,
and the machine as it is then. -/
structure Evaluated where
  value : Value
  frame : Frame
  machine : Machine

/-- The operands of a call, up to the first that fails. -/
def evaluated (user : UserCall) (frame : Frame) : List Expr → Machine → List Evaluated
  | [], _ => []
  | e :: rest, m =>
      match (evalExpr user frame e) m with
      | .ok v m₁ => ⟨v, frame.holding v.handles, m₁⟩ ::
          evaluated user (frame.holding v.handles) rest m₁
      | .error _ _ => []

/-- The entries of an array literal, each with its key if it has one, up to the first that fails. -/
def evaluatedEntries (user : UserCall) (frame : Frame) :
    List Entry → Machine → List (Option Value × Evaluated)
  | [], _ => []
  | .value e :: rest, m =>
      match (evalExpr user frame e) m with
      | .ok v m₁ => (none, ⟨v, frame.holding v.handles, m₁⟩) ::
          evaluatedEntries user (frame.holding v.handles) rest m₁
      | .error _ _ => []
  | .pair key e :: rest, m =>
      match (evalExpr user frame key) m with
      | .error _ _ => []
      | .ok k m₁ =>
          match (evalExpr user (frame.holding k.handles) e) m₁ with
          | .ok v m₂ => (some k, ⟨v, frame.holding (k.handles ++ v.handles), m₂⟩) ::
              evaluatedEntries user (frame.holding (k.handles ++ v.handles)) rest m₂
          | .error _ _ => []

namespace Evaluated

/-- The operand leads to no object and to no slot with more than one holder, and it is in no slot
that is not released, nor in a loop under way. -/
structure Apart (x : Evaluated) : Prop where
  noObject : ∀ o, ¬ x.machine.store.Reachable x.value.handles (.object o)
  unshared : ∀ s, x.machine.store.Reachable x.value.handles (.slot s) →
    x.machine.store.isShared (x.machine.roots ++ x.frame.held) s = false
  unstored : ∀ a, x.value = .array a → ∀ s, x.machine.store.read s = .array a →
    x.machine.store.Dead (x.machine.roots ++ x.frame.held) (.slot s)
  unwalked : ∀ loop, some loop ∈ x.machine.loops →
    ¬ x.machine.store.Reachable x.value.handles (.array loop.array)

/-- The outset of what comes after the evaluation of an operand, from which the operand is kept. -/
def outset (x : Evaluated) : Outset := ⟨x.machine, x.frame.held, x.value.handles, []⟩

/-- What an operand is taken up as: what it shows when all operands are evaluated, and, if it was
apart, what it showed when its own evaluation ended. -/
def ShownAs (x : Evaluated) (last : Machine) (shown : Snapshot) : Prop :=
  shown = last.store.snapshot x.value ∧ (x.Apart → shown = x.machine.store.snapshot x.value)

section kept

variable {x : Evaluated}

theorem Apart.secluded (apart : x.Apart) (suits : x.frame.Suits x.machine)
    (holds : ∀ h ∈ x.value.handles, h ∈ x.frame.held) : x.outset.Secluded where
  sound := suits.sound
  inside := suits.inside
  outer := List.nil_suffix
  rooted h member := .root (List.mem_append_right _ (holds h member))
  slots s member := by
    rcases Value.mem_handles member with ⟨_, _, same⟩ | ⟨_, _, same⟩ <;> cases same
  arrays a member s reads := by
    rcases Value.mem_handles member with ⟨_, isArray, same⟩ | ⟨_, _, same⟩
    · cases same
      exact apart.unstored a isArray s reads
    · cases same
  noClass c member := by
    rcases Value.mem_handles member with ⟨_, _, same⟩ | ⟨_, _, same⟩ <;> cases same
  noObject := apart.noObject
  unshared := apart.unshared

/-- An operand that is apart shows the same whatever is evaluated after it. -/
theorem Apart.kept (apart : x.Apart) (suits : x.frame.Suits x.machine)
    (holds : ∀ h ∈ x.value.handles, h ∈ x.frame.held) {α : Type} {c : Run α}
    {Q : (D : Discipline) → Extent → α → Prop}
    (keeps : ∀ (D : Discipline) (i : D.Index), (∀ i name, D.writable i name) →
      D.KnownFrame x.machine.store.extent x.frame → D.Keeps i x.machine.store.extent (Q D) c)
    {a : α} {m' : Machine} (ran : c.run x.machine = .ok a m') :
    m'.store.snapshot x.value = x.machine.store.snapshot x.value := by
  have secluded := apart.secluded suits holds
  have start : x.outset.Intact (x.machine.scopes.length - 1) x.machine := by
    refine secluded.startAll rfl suits.scopes (fun s kept => ?_) fun loop member =>
      ⟨suits.loops loop member, apart.unwalked loop member⟩
    rcases Value.mem_handles kept with ⟨_, _, same⟩ | ⟨_, _, same⟩ <;> cases same
  have known : (Outset.isolation _ secluded).KnownFrame x.machine.store.extent x.frame := {
    held := secluded.mayHold
    arguments v passed h member := secluded.mayHold h (suits.arguments v passed h member)
    receiver v passed h member := secluded.mayHold h (suits.receiver v passed h member) }
  have ended := ((keeps _ _ (fun _ _ => trivial) known).holds start (le_refl _)).sound.2
  rw [ran] at ended
  have guards : Store.Guards x.outset.Belongs x.machine.store m'.store :=
    ended.2.1.guards.mono fun _ => .inl
  exact guards.snapshotWithin (fun _ owner _ => owner.holds)
    (fun _ ours => (secluded.alive ours).1) _ _ fun h member => .root member

end kept

end Evaluated

/-! Evaluation -/

namespace Frame.Suits

variable {frame : Frame} {m m' : Machine} {levels : Nat}

theorem holding (suits : frame.Suits m) {handles : List Handle}
    (inside : ∀ h ∈ handles, h.Within m.store.extent) : (frame.holding handles).Suits m where
  sound := suits.sound
  scopes := suits.scopes
  inside := List.forall_mem_append.mpr ⟨inside, suits.inside⟩
  arguments v passed h member := List.mem_append_right _ (suits.arguments v passed h member)
  receiver v passed h member := List.mem_append_right _ (suits.receiver v passed h member)
  loops loop member := List.mem_append_right _ (suits.loops loop member)

/-- The frame suits the machine that an evaluation leaves. -/
theorem evaluation {α : Type} {p : Recursion → Run α} {Q : Extent → α → Prop} {a : α}
    (suits : frame.Suits m) (uniform : Uniform False p)
    (keeps : ownership.Keeps ((0 : Multiset ArrayId), m.scopes.length - 1) m.store.extent Q
      (p (.bounded levels)))
    (ran : (p (.bounded levels)).run m = .ok a m') :
    m.store.extent ≤ m'.store.extent ∧ frame.Suits m' ∧ Q m'.store.extent a := by
  have ended := (keeps.holds suits.good (le_refl _)).sound.2
  have loops := uniform.loops_kept (r := .bounded levels) (invoke_loops levels) m
  rw [ran] at ended loops
  obtain ⟨grows, ⟨sound, length⟩, result⟩ := ended
  refine ⟨grows, ⟨sound, ?_, fun h member => (suits.inside h member).mono grows, suits.arguments,
    suits.receiver, ?_⟩, result⟩
  · rintro none
    simp [none] at length
  · rw [show m'.loops = m.loops from loops]
    exact suits.loops

theorem evalExpr {outer : Frame} {e : Expr} {v : Value} (around : outer.Suits m)
    (suits : frame.Suits m) (ran : (evalExpr (invoke levels) frame e) m = .ok v m') :
    m.store.extent ≤ m'.store.extent ∧ outer.Suits m' ∧
      ∀ h ∈ v.handles, h.Within m'.store.extent :=
  around.evaluation (evalExpr_uniform frame e)
    (Discipline.evalExpr_meets (Discipline.invoke_serves levels) e suits.knownFrame
      fun _ _ => trivial) ran

end Frame.Suits

section evaluation

variable {levels : Nat} {m m' : Machine}

/-- What comes after an operand is evaluated in a frame that suits, and that holds the operand. -/
theorem evaluated_suits (arguments : List Expr) {frame : Frame} (suits : frame.Suits m) :
    ∀ x ∈ evaluated (invoke levels) frame arguments m,
      x.frame.Suits x.machine ∧ ∀ h ∈ x.value.handles, h ∈ x.frame.held := by
  induction arguments generalizing frame m with
  | nil => simp [evaluated]
  | cons e rest ih =>
      cases first : (evalExpr (invoke levels) frame e) m with
      | error f m₁ => simp [evaluated, first]
      | ok v m₁ =>
          obtain ⟨-, suits₁, inside⟩ := suits.evalExpr suits first
          have suits₁ := suits₁.holding inside
          simp only [evaluated, first]
          exact List.forall_mem_cons.mpr
            ⟨⟨suits₁, fun h member => List.mem_append_left _ member⟩, ih suits₁⟩

/-- The operands of a call, when they are all evaluated. -/
theorem evaluated_spec (arguments : List Expr) {frame : Frame} {values : List Value}
    (suits : frame.Suits m) (ran : (evalExprs (invoke levels) frame arguments) m = .ok values m') :
    frame.Suits m' ∧ (∀ v ∈ values, ∀ h ∈ v.handles, h.Within m'.store.extent) ∧
      values = (evaluated (invoke levels) frame arguments m).map (·.value) ∧
      ∀ x ∈ evaluated (invoke levels) frame arguments m, x.Apart →
        m'.store.snapshot x.value = x.machine.store.snapshot x.value := by
  obtain ⟨-, final, inside⟩ := suits.evaluation (evalExprs_uniform frame arguments)
    (Discipline.evalExprs_meets (Discipline.invoke_serves levels) arguments suits.knownFrame
      fun _ _ => trivial) ran
  refine ⟨final, inside, ?_⟩
  clear final inside
  induction arguments generalizing frame m values with
  | nil =>
      rw [evalExprs] at ran
      cases ran
      exact ⟨rfl, by simp [evaluated]⟩
  | cons e rest ih =>
      rw [evalExprs] at ran
      obtain ⟨v, m₁, first, ran⟩ := Run.of_run_bind ran
      obtain ⟨more, m₂, later, ran⟩ := Run.of_run_bind ran
      cases ran
      obtain ⟨-, suits₁, inside⟩ := suits.evalExpr suits first
      have suits₁ := suits₁.holding inside
      obtain ⟨isMap, kept⟩ := ih suits₁ later
      simp only [evaluated, first, List.map_cons, ← isMap, true_and]
      refine List.forall_mem_cons.mpr ⟨fun apart => ?_, kept⟩
      refine apart.kept suits₁ (fun h member => List.mem_append_left _ member)
        (Q := fun D e values => ∀ v ∈ values, D.Known e v) (fun D i free known => ?_) later
      exact Discipline.evalExprs_meets (Discipline.invoke_serves levels) rest known
        fun name _ => free i name

/-- The entries of a literal, when they are all evaluated. -/
theorem evaluatedEntries_spec (entries : List Entry) {frame : Frame}
    {values : List (Option Value × Value)} (suits : frame.Suits m)
    (ran : (evalEntries (invoke levels) frame entries) m = .ok values m') :
    frame.Suits m' ∧ (∀ entry ∈ values, ∀ h ∈ entry.2.handles, h.Within m'.store.extent) ∧
      values = (evaluatedEntries (invoke levels) frame entries m).map
        (fun entry => (entry.1, entry.2.value)) ∧
      ∀ entry ∈ evaluatedEntries (invoke levels) frame entries m, entry.2.Apart →
        m'.store.snapshot entry.2.value = entry.2.machine.store.snapshot entry.2.value := by
  obtain ⟨-, final, inside⟩ := suits.evaluation (evalEntries_uniform frame entries)
    (Discipline.evalEntries_meets (Discipline.invoke_serves levels) entries suits.knownFrame
      fun _ _ => trivial) ran
  refine ⟨final, fun entry member => (inside entry member).2, ?_⟩
  clear final inside
  induction entries generalizing frame m values with
  | nil =>
      rw [evalEntries] at ran
      cases ran
      exact ⟨rfl, by simp [evaluatedEntries]⟩
  | cons entry rest ih =>
      have keeps : ∀ {frame : Frame} {e : Extent} (D : Discipline) (i : D.Index),
          (∀ i name, D.writable i name) → D.KnownFrame e frame →
          D.Keeps i e (fun e values => ∀ entry ∈ values, (∀ k ∈ entry.1, D.Known e k) ∧
            D.Known e entry.2) (evalEntries (invoke levels) frame rest) :=
        fun D i free known => Discipline.evalEntries_meets (Discipline.invoke_serves levels) rest
          known fun name _ => free i name
      cases entry with
      | value e =>
          rw [evalEntries] at ran
          obtain ⟨v, m₁, first, ran⟩ := Run.of_run_bind ran
          obtain ⟨more, m₂, later, ran⟩ := Run.of_run_bind ran
          cases ran
          obtain ⟨-, suits₁, inside⟩ := suits.evalExpr suits first
          have suits₁ := suits₁.holding inside
          obtain ⟨isMap, kept⟩ := ih suits₁ later
          simp only [evaluatedEntries, first, List.map_cons, ← isMap, true_and]
          refine List.forall_mem_cons.mpr ⟨fun apart => ?_, kept⟩
          exact apart.kept suits₁ (fun h member => List.mem_append_left _ member) keeps later
      | pair key e =>
          rw [evalEntries] at ran
          obtain ⟨k, m₁, keyed, ran⟩ := Run.of_run_bind ran
          obtain ⟨v, m₂, first, ran⟩ := Run.of_run_bind ran
          obtain ⟨more, m₃, later, ran⟩ := Run.of_run_bind ran
          cases ran
          obtain ⟨-, suits₁, insideKey⟩ := suits.evalExpr suits keyed
          obtain ⟨grows, suits₂, inside⟩ := suits₁.evalExpr (suits₁.holding insideKey) first
          have suits₂ := suits₂.holding (List.forall_mem_append.mpr
            ⟨fun h member => (insideKey h member).mono grows, inside⟩)
          obtain ⟨isMap, kept⟩ := ih suits₂ later
          simp only [evaluatedEntries, keyed, first, List.map_cons, ← isMap, true_and]
          refine List.forall_mem_cons.mpr ⟨fun apart => ?_, kept⟩
          refine apart.kept suits₂ (fun h member => ?_) keeps later
          exact List.mem_append_left _ (List.mem_append_right _ member)

end evaluation

/-- Operands are copied when they are all evaluated. A call comes to its statements with each
parameter bound to a copy of its argument, and a literal becomes an array of copies of its entries,
unless a copy does not end. What each of them shows is what its operand shows when the last operand
has been evaluated; and that is what the operand showed when its own evaluation ended, if it leads to
no object and to no shared slot then and is in no slot that is not released, whatever the later
operands do. -/
theorem operands_copied_when_all_evaluated (levels : Nat) (frame : Frame) (m : Machine)
    (suits : frame.Suits m) :
    (∀ (arguments : List Expr) (values : List Value) (last : Machine),
      (evalExprs (invoke levels) frame arguments) m = .ok values last →
      ∀ (called : Frame) (name : String) (parameters : List String) (isMethod : Bool)
        (statements : Code.Block) (context : Compile.Context) (deeper : Nat),
      called.arguments = values → parameters.Nodup →
      (∀ v ∈ called.receiver, ∀ h ∈ v.handles, h.Within last.store.extent) →
      Run.Ends (fun flow n => flow = .normal ∧
          (last.callDepth < last.callLimit → (invoke (deeper + 1)
              (Compile.assembleFunction name parameters isMethod statements context) called) last =
            last.returning ((execBlock (invoke deeper) called statements) n)) ∧
          ∃ scope, n.scopes = scope :: last.scopes ∧ ∀ (i : Nat) parameter x,
            parameters[i]? = some parameter →
            (evaluated (invoke levels) frame arguments m)[i]? = some x →
            ∃ s, Assoc.get? scope parameter = some s ∧
              x.ShownAs last (n.store.snapshot (n.store.read s)))
        (fun f _ => f = .endless)
        ((execBlock (invoke deeper) called
          (Code.prologue context.locals parameters isMethod)) (last.called context.loops))) ∧
    ∀ (entries : List Entry) (v : Value) (m' : Machine),
      (evalExpr (invoke levels) frame (.array entries)) m = .ok v m' →
      ∃ a values last, v = .array a ∧
        (evalEntries (invoke levels) frame entries) m = .ok values last ∧
        m'.store.shownIn (m'.store.array a).elements = literalShown [] 0
          ((evaluatedEntries (invoke levels) frame entries m).map fun entry =>
            (entry.1.bind Key.ofValue, last.store.snapshot entry.2.value)) ∧
        ∀ entry ∈ evaluatedEntries (invoke levels) frame entries m,
          entry.2.ShownAs last (last.store.snapshot entry.2.value) := by
  refine ⟨fun arguments values last ran called name parameters isMethod statements context deeper
    isArguments distinct receiver => ?_, fun entries v m' ran => ?_⟩
  · obtain ⟨final, inside, isMap, kept⟩ := evaluated_spec arguments suits ran
    have entered := prologue_binds (invoke deeper) final.sound.owned
      (isArguments ▸ inside) receiver context.locals distinct isMethod context.loops
    cases ended : (execBlock (invoke deeper) called
        (Code.prologue context.locals parameters isMethod)).run (last.called context.loops) with
    | error f n =>
        rw [ended] at entered
        exact entered
    | ok flow n =>
        rw [ended] at entered
        obtain ⟨rfl, scope, isScope, bound⟩ := entered
        refine ⟨rfl, run_invoke name parameters isMethod statements context ended, scope, isScope,
          fun i parameter x listed operand => ?_⟩
        obtain ⟨s, found, shows⟩ := bound i parameter listed
        have argument : called.arguments[i]? = some x.value := by
          rw [isArguments, isMap, List.getElem?_map, operand]
          rfl
        rw [argument] at shows
        exact ⟨s, found, shows, fun apart =>
          shows.trans (kept x (List.mem_of_getElem? operand) apart)⟩
  · rw [evalExpr] at ran
    obtain ⟨values, last, first, ran⟩ := Run.of_run_bind ran
    obtain ⟨final, inside, isMap, kept⟩ := evaluatedEntries_spec entries suits first
    have made := arrayOf_shows final.sound.owned frame.held values inside
    rw [show (arrayOf frame.held values).run last = .ok v m' from ran] at made
    obtain ⟨a, isArray, shows⟩ := made
    refine ⟨a, values, last, isArray, first, ?_, fun entry member => ⟨rfl, kept entry member⟩⟩
    rw [shows, isMap, List.map_map]
    rfl

/-- `[true], $b = [false]` -/
def listThenAssignment : List Expr :=
  [.array [.value (.boolean true)],
    .assign (.variable "b") (.value (.array [.value (.boolean false)]))]

/-- The frame of a program. -/
def programFrame : Frame := ⟨[], none, []⟩

/-- Whether a block ends normally. -/
def endsNormally : EStateM.Result Fault Machine Flow → Bool
  | .ok .normal _ => true
  | _ => false

/-- Called with a list and an assignment, a function finds the list in its first parameter as it was
evaluated. -/
theorem operands_copied_when_all_evaluated_list :
    let start := Machine.idle [] (.empty rootPath) .empty
    ∃ values last x n scope s,
      (evalExprs (invoke 1) programFrame listThenAssignment) start = .ok values last ∧
      (evaluated (invoke 1) programFrame listThenAssignment start)[0]? = some x ∧ x.Apart ∧
      (execBlock (invoke 0) (programFrame.forCall none values)
        (Code.prologue ["x", "y"] ["x", "y"] false)) (last.called 0) = .ok .normal n ∧
      n.scopes = scope :: last.scopes ∧ Assoc.get? scope "x" = some s ∧
      n.store.snapshot (n.store.read s) = x.machine.store.snapshot x.value := by
  intro start
  have runs : (match (evalExprs (invoke 1) programFrame listThenAssignment) start with
    | .ok values last => (evaluated (invoke 1) programFrame listThenAssignment start)[0]?.any
        fun x => decide (x.value.handles = [.array ⟨0⟩] ∧ x.machine.store.objects.size = 0 ∧
          x.machine.loops.length = 0 ∧
          (∀ i < x.machine.store.slots.size,
            (x.machine.store.read ⟨i⟩).handles ≠ [.array ⟨0⟩] ∧
            x.machine.store.isShared (x.machine.roots ++ x.frame.held) ⟨i⟩ = false) ∧
          endsNormally ((execBlock (invoke 0) (programFrame.forCall none values)
            (Code.prologue ["x", "y"] ["x", "y"] false)) (last.called 0)) = true)
    | .error _ _ => false) = true := by decide +kernel
  have suits : programFrame.Suits start := {
    sound := ⟨Store.owned_empty, by simp [start, Machine.idle],
      by simp [start, Machine.idle, Namespace.empty], by simp [start, Machine.idle]⟩
    scopes := by simp [start, Machine.idle]
    inside := by simp [programFrame]
    arguments := by simp [programFrame]
    receiver := by simp [programFrame]
    loops := by simp [start, Machine.idle] }
  cases ran : (evalExprs (invoke 1) programFrame listThenAssignment) start with
  | error f last => simp [ran] at runs
  | ok values last =>
      rw [ran] at runs
      obtain ⟨x, operand, state⟩ := (Option.any_eq_true _ _).mp runs
      obtain ⟨isArray, objects, loops, slots, entered⟩ := of_decide_eq_true state
      obtain ⟨suits₁, holds⟩ := evaluated_suits _ suits x (List.mem_of_getElem? operand)
      have there : ∀ h, x.machine.store.Reachable x.value.handles h →
          h.Within x.machine.store.extent := fun h reachable =>
        (reachable.alive (fun g member => suits₁.inside g (holds g member))
          suits₁.sound.owned.closed).1
      have apart : x.Apart := {
        noObject := fun o reachable => by
          have inside : o.index < x.machine.store.objects.size := there _ reachable
          omega
        unshared := fun s reachable => (slots s.index (there _ reachable)).2
        unstored := fun a isValue s reads => by
          have inside : (Handle.slot s).Within x.machine.store.extent :=
            Store.inside_of_read (g := .array a) (by simp [reads, Value.handles])
          refine absurd ?_ (slots s.index inside).1
          rw [← isArray, isValue, ← reads]
        unwalked := fun loop member => by simp [List.length_eq_zero_iff.mp loops] at member }
      have result := (operands_copied_when_all_evaluated 1 programFrame start suits).1
        listThenAssignment values last ran (programFrame.forCall none values) "f" ["x", "y"] false
        [] ⟨["x", "y"], 0⟩ 0 rfl (by decide) (by simp [Frame.forCall])
      cases ended : (execBlock (invoke 0) (programFrame.forCall none values)
          (Code.prologue ["x", "y"] ["x", "y"] false)) (last.called 0) with
      | error f n => simp [ended, endsNormally] at entered
      | ok flow n =>
          rw [ended] at result
          obtain ⟨rfl, -, scope, isScope, bound⟩ := result
          obtain ⟨s, found, -, shows⟩ := bound 0 "x" x rfl operand
          exact ⟨values, last, x, n, scope, s, rfl, operand, apart, ended, isScope, found,
            shows apart⟩

/-- `$a, $a[] = true` -/
def variableThenAppend : List Expr :=
  [.load (.variable "a"),
    .assign (.element (.implied (.variable "a")) none) (.value (.boolean true))]

/-- `function f($x, $y) { return $x; } return f($a, $a[] = true);` -/
def passesVariable : Node := .program [
  .functionStatement "f" [.variable "x" false, .variable "y" false]
    [.returnStatement (some (.variable "x" false))],
  .returnStatement (some (.functionCall (.string "f") [.variable "a" false,
    .expression (.arrayIndex (.variable "a" false) [none] false) [⟨"=", .boolean true⟩]]))]

/-- `return [$a, $a[] = true];` -/
def listsVariable : Node := .program [
  .returnStatement (some (.arrayLiteral [.variable "a" false,
    .expression (.arrayIndex (.variable "a" false) [none] false) [⟨"=", .boolean true⟩]]))]

/-- Whether an evaluation gives an array whose first element is an array of so many elements. -/
def givesFirst (size : Nat) : Except EvalError Outcome × Session → Bool
  | (.ok ⟨_, .array ((_, .array entries) :: _)⟩, _) => entries.length == size
  | _ => false

/-- An operand that is the array of a variable is not taken up as it was evaluated: it has one element
then, and leads to no object and to no shared slot, but what the next operand appends to the variable
is in the parameter and in the element. -/
theorem operand_follows_variable :
    let before := ((Session.create .default false [] .unlimited .unlimited).evaluate
      Session.assignsVariable).2
    ((evaluated (invoke 1) programFrame variableThenAppend
        (.idle before.globals before.names before.store))[0]?.any fun x =>
      x.value.handles = [.array ⟨1⟩] ∧ (x.machine.store.array ⟨1⟩).size = 1 ∧
      x.machine.store.objects.size = 0 ∧ ∀ i < x.machine.store.slots.size,
        x.machine.store.isShared (x.machine.roots ++ x.frame.held) ⟨i⟩ = false) = true ∧
    Session.gives 2 (before.evaluate passesVariable) = true ∧
    givesFirst 2 (before.evaluate listsVariable) = true := by
  decide +kernel

end TreeScript
