import TreeScript.Proofs.Uniform.Evaluation
import TreeScript.Session

set_option autoImplicit false

/- Limits only cut runs short. A run under higher limits takes the same steps as one under lower
limits, until the latter fails for its limit; from there on it only adds to what is written. -/
namespace TreeScript

/-- The first number of writes is no greater than the second; `none` is without a limit. -/
def AtMost (n n' : Option Nat) : Prop := ∀ k' ∈ n', ∃ k ∈ n, k ≤ k'

namespace Output

variable {o o' next : Output} {text : String}

theorem writes_write (accepted : o.write text = some next) : next.writes = text :: o.writes := by
  simp only [write] at accepted
  split at accepted
  · simp [← Option.some.inj accepted]
  · cases accepted
  · simp [← Option.some.inj accepted]

/-- What one stream accepts, a stream with as much room accepts, and has as much room still. -/
theorem write_atMost (room : AtMost o.remaining o'.remaining) (accepted : o.write text = some next) :
    ∃ next', o'.write text = some next' ∧ AtMost next.remaining next'.remaining := by
  obtain ⟨writes, remaining⟩ := o
  obtain ⟨writes', remaining'⟩ := o'
  cases remaining' with
  | none => exact ⟨⟨text :: writes', none⟩, rfl, fun _ member => by cases member⟩
  | some k' =>
      obtain ⟨k, isLimit, fewer⟩ := room k' rfl
      obtain rfl : remaining = some k := isLimit
      cases k with
      | zero => cases accepted
      | succ k =>
          obtain ⟨j, rfl⟩ : ∃ j, k' = j + 1 := ⟨k' - 1, by omega⟩
          obtain rfl := Option.some.inj accepted
          refine ⟨⟨text :: writes', some j⟩, rfl, fun i member => ⟨k, rfl, ?_⟩⟩
          obtain rfl := Option.some.inj member
          omega

end Output

/-- The second machine is the first, under limits that are no lower. -/
structure Machine.Looser (d d' : Nat) (m m' : Machine) : Prop where
  limit : m.callLimit = d
  same : m' = m.under d' ⟨m.stdout.writes, m'.stdout.remaining⟩
  room : AtMost m.stdout.remaining m'.stdout.remaining

/-- The faults that a limit causes. -/
def Fault.CutShort (d : Nat) (f : Fault) : Prop :=
  f = .script (.nestingLevel d) ∨ f = .stream "stream closed"

/-- The second run ends as the first does, unless the first is cut short; then it has written no
less. -/
inductive Follows {α : Type} (d d' : Nat) :
    EStateM.Result Fault Machine α → EStateM.Result Fault Machine α → Prop
  | ok {a : α} {m m' : Machine} (looser : m.Looser d d' m') : Follows d d' (.ok a m) (.ok a m')
  | error {f : Fault} {m m' : Machine} (looser : m.Looser d d' m') :
      Follows d d' (.error f m) (.error f m')
  | cut {f : Fault} {m : Machine} {ended : EStateM.Result Fault Machine α} (cut : f.CutShort d)
      (written : m.stdout.writes <:+ (Run.left ended).stdout.writes) :
      Follows d d' (.error f m) ended

/-- The second computation goes as far as the first and perhaps further, and takes back nothing that
is written. -/
structure Prolongs {α : Type} (d d' : Nat) (c c' : Run α) : Prop where
  adds : ∀ m : Machine, m.stdout.writes <:+ (Run.left (c'.run m)).stdout.writes
  follows : ∀ m m' : Machine, Machine.Looser d d' m m' → Follows d d' (c.run m) (c'.run m')

variable {d d' : Nat} {m m' : Machine}

namespace Machine.Looser

theorem writes (looser : Looser d d' m m') : m'.stdout.writes = m.stdout.writes := by
  rw [looser.same, Machine.under]

/-- A blind step does the same on both machines. -/
theorem step {α : Type} {action : Machine → α × Machine} (looser : Looser d d' m m')
    (blind : Blind action) :
    (action m').1 = (action m).1 ∧ Looser d d' (action m).2 (action m').2 := by
  have same : action m' = ((action m).1,
      (action m).2.under d' ⟨m.stdout.writes, m'.stdout.remaining⟩) := by
    rw [← blind, ← looser.same]
  refine ⟨by rw [same], ?_, ?_, ?_⟩
  · rw [blind.limit, looser.limit]
  · rw [same, blind.stdout]
    rfl
  · rw [blind.stdout, blind.stdout]
    exact looser.room

end Machine.Looser

namespace Prolongs

variable {α β : Type}

theorem pure (a : α) : Prolongs d d' (Pure.pure a : Run α) (Pure.pure a) :=
  ⟨fun _ => List.suffix_refl _, fun _ _ looser => .ok looser⟩

theorem fault (f : Fault) : Prolongs d d' (.fault f : Run α) (.fault f) :=
  ⟨fun _ => List.suffix_refl _, fun _ _ looser => .error looser⟩

theorem note (event : Event) : Prolongs d d' (.note event) (.note event) :=
  ⟨fun _ => List.suffix_refl _, fun _ _ looser => .ok looser⟩

theorem step {action : Machine → α × Machine} (blind : Blind action) :
    Prolongs d d' (.step action) (.step action) where
  adds m := by
    simp only [Run.run, Run.left, blind.stdout, List.suffix_refl]
  follows m m' looser := by
    obtain ⟨same, looser⟩ := looser.step blind
    simp only [Run.run, same]
    exact .ok looser

theorem look {γ : Type} {k k' : γ → Run α} (see : Machine → γ)
    (blind : ∀ m limit stdout, see (m.under limit stdout) = see m)
    (next : ∀ x, Prolongs d d' (k x) (k' x)) :
    Prolongs d d' (get >>= fun m => k (see m)) (get >>= fun m => k' (see m)) where
  adds m := (next (see m)).adds m
  follows m m' looser := by
    have same : see m' = see m := by rw [looser.same, blind]
    rw [Run.run_get_bind, Run.run_get_bind, same]
    exact (next (see m)).follows m m' looser

theorem bind {c c' : Run α} {q q' : α → Run β} (first : Prolongs d d' c c')
    (next : ∀ a, Prolongs d d' (q a) (q' a)) : Prolongs d d' (c >>= q) (c' >>= q') := by
  have further : ∀ m, (Run.left (c'.run m)).stdout.writes <:+
      (Run.left ((c' >>= q').run m)).stdout.writes := by
    intro m
    cases ran : c'.run m with
    | ok a m₁ =>
        rw [Run.run_bind ran]
        exact (next a).adds m₁
    | error f m₁ =>
        rw [Run.run_bind_error ran]
        exact List.suffix_refl _
  refine ⟨fun m => (first.adds m).trans (further m), fun m m' looser => ?_⟩
  have both := first.follows m m' looser
  cases ran : c.run m with
  | ok a m₁ =>
      rw [ran] at both
      generalize ran' : c'.run m' = ended at both
      cases both with
      | ok looser₁ =>
          rw [Run.run_bind ran, Run.run_bind ran']
          exact (next a).follows _ _ looser₁
  | error f m₁ =>
      rw [ran] at both
      rw [Run.run_bind_error ran]
      generalize ran' : c'.run m' = ended at both
      cases both with
      | error looser₁ =>
          rw [Run.run_bind_error ran']
          exact .error looser₁
      | cut cut written =>
          -- the second run may go on where the first has stopped: what it writes then comes last
          have more := further m'
          rw [ran'] at more
          exact .cut cut (written.trans more)

/-- A last step is taken by both, also after a cut. -/
theorem ensure {c c' : Run α} {last : Machine → Machine} (blind : Blind fun m => ((), last m))
    (body : Prolongs d d' c c') : Prolongs d d' (c.ensure last) (c'.ensure last) := by
  have kept : ∀ m, (last m).stdout = m.stdout := fun m => blind.stdout m
  refine ⟨fun m => ?_, fun m m' looser => ?_⟩
  · rw [Run.run_ensure, Run.left_after, kept]
    exact body.adds m
  · rw [Run.run_ensure, Run.run_ensure]
    have both := body.follows m m' looser
    generalize c.run m = ended at both
    generalize c'.run m' = ended' at both
    cases both with
    | ok looser₁ => exact .ok (looser₁.step blind).2
    | error looser₁ => exact .error (looser₁.step blind).2
    | cut cut written =>
        refine .cut cut ?_
        rw [Run.left_after, kept, kept]
        exact written

theorem write (text : String) : Prolongs d d' (Run.write text) (Run.write text) := by
  have adds : ∀ m, m.stdout.writes <:+ (Run.left ((Run.write text).run m)).stdout.writes := by
    intro m
    rw [Run.run_write]
    cases accepted : m.stdout.write text with
    | none => exact List.suffix_refl _
    | some o =>
        simp only [Run.left, Output.writes_write accepted]
        exact List.suffix_cons _ _
  refine ⟨adds, fun m m' looser => ?_⟩
  rw [Run.run_write]
  cases accepted : m.stdout.write text with
  | none => exact .cut (.inr rfl) (looser.writes ▸ adds m')
  | some o =>
      obtain ⟨o', accepted', room⟩ := Output.write_atMost looser.room accepted
      rw [Run.run_write, accepted']
      refine .ok ⟨looser.limit, ?_, room⟩
      have written : o' = ⟨o.writes, o'.remaining⟩ := by
        rw [Output.writes_write accepted, ← looser.writes, ← Output.writes_write accepted']
      simp only
      rw [← written, looser.same]
      rfl

/-! Calls and loops -/

theorem inScope {c c' : Run α} (body : Prolongs d d' c c') :
    Prolongs d d' (inNewScope c) (inNewScope c') :=
  .bind (.step fun _ _ _ => rfl) fun _ => .ensure (fun _ _ _ => rfl) body

/-- What looks at no limit as a whole does the same on both machines. -/
theorem of_blind {c : Run α} (blind : ∀ m limit stdout,
      c.run (m.under limit stdout) = Run.after (·.under limit stdout) (c.run m)) :
    Prolongs d d' c c := by
  have moves : Blind fun m => ((), Run.left (c.run m)) := fun m limit stdout => by
    simp only [blind, Run.left_after]
  refine ⟨fun m => ?_, fun m m' looser => ?_⟩
  · have kept : (Run.left (c.run m)).stdout = m.stdout := moves.stdout m
    simp [kept]
  · have looser₁ := (looser.step moves).2
    have same : c.run m' =
        Run.after (·.under d' ⟨m.stdout.writes, m'.stdout.remaining⟩) (c.run m) := by
      rw [← blind, ← looser.same]
    rw [same] at looser₁ ⊢
    cases ran : c.run m with
    | ok a m₁ =>
        rw [ran] at looser₁
        exact .ok looser₁
    | error f m₁ =>
        rw [ran] at looser₁
        exact .error looser₁

theorem next (slot : Nat) : Prolongs d d' (nextElement slot) (nextElement slot) := by
  refine .of_blind fun m limit stdout => ?_
  have loops : (m.under limit stdout).loops = m.loops := rfl
  have store : (m.under limit stdout).store = m.store := rfl
  rw [run_nextElement, run_nextElement, loops, store]
  cases m.loops[slot]?.join with
  | none => rfl
  | some loop =>
      by_cases spent : loop.length ≤ loop.position
      · simp only [if_pos spent]
        rfl
      · simp only [if_neg spent]
        cases (m.store.array loop.array).entryAt? loop.position with
        | none => rfl
        | some entry => rfl

theorem rounds {body body' : Key → SlotId → Run Flow} (slot : Nat)
    (each : ∀ key s, Prolongs d d' (body key s) (body' key s)) (n : Nat) :
    Prolongs d d' (walk slot body n) (walk slot body' n) := by
  induction n with
  | zero => exact .pure _
  | succ n ih =>
      refine .bind (.next slot) fun entry => ?_
      cases entry with
      | none => exact .pure _
      | some entry =>
          refine .bind (each entry.1 entry.2) fun flow => ?_
          cases flow with
          | normal => exact ih
          | returned v => exact .pure _

theorem loop {c c' : Run Flow} (slot : Nat) (start : Loop) (body : Prolongs d d' c c') :
    Prolongs d d' (inLoop slot start c) (inLoop slot start c') :=
  .bind (.step fun _ _ _ => rfl) fun _ => .ensure (fun _ _ _ => rfl) body

/-- Where the lower limit refuses a call, the run under it is cut short. -/
theorem enter (deeper : d ≤ d') : Prolongs d d' enterCall enterCall := by
  have kept : ∀ m : Machine, (Run.left (enterCall.run m)).stdout = m.stdout := by
    intro m
    rw [Run.run_enterCall]
    split
    · rfl
    · rfl
  refine ⟨fun m => ?_, fun m m' looser => ?_⟩
  · simp [kept]
  · by_cases full : m.callLimit ≤ m.callDepth
    · rw [Run.run_enterCall, if_pos full]
      refine .cut (.inl (by rw [looser.limit])) ?_
      simp [kept, looser.writes]
    · have limit : m.callLimit = d := looser.limit
      have limit' : m'.callLimit = d' := by
        rw [looser.same]
        rfl
      have depth : m'.callDepth = m.callDepth := by
        rw [looser.same]
        rfl
      have free : ¬ m'.callLimit ≤ m'.callDepth := by omega
      rw [Run.run_enterCall, Run.run_enterCall, if_neg full, if_neg free]
      refine .ok ⟨limit, ?_, looser.room⟩
      rw [looser.same]
      rfl

theorem call {c c' : Run α} (deeper : d ≤ d') (loopSlots : Nat) (body : Prolongs d d' c c') :
    Prolongs d d' (inCall loopSlots c) (inCall loopSlots c') :=
  .bind (.enter deeper) fun _ => .bind (.step fun _ _ _ => rfl) fun _ =>
    .ensure (fun _ _ _ => rfl) body

end Prolongs

/-- Whatever is done beside calls goes further under higher limits, if calls do. -/
theorem Uniform.prolongs {α : Type} {k k' : Nat} {p : Recursion → Run α}
    (calls : ∀ f frame, Prolongs d d' ((Recursion.bounded k).call f frame)
      ((Recursion.bounded k').call f frame)) (uniform : Uniform True p) :
    Prolongs d d' (p (.bounded k)) (p (.bounded k')) := by
  induction uniform with
  | pure a => exact .pure a
  | fault f => exact .fault f
  | note event => exact .note event
  | step plain => exact .step plain.blind
  | write text => exact .write text
  | look see blind _ next ih => exact .look see blind ih
  | bind first next ihFirst ihNext => exact ihFirst.bind ihNext
  | «scoped» body ih => exact ih.inScope
  | call f frame => exact calls f frame
  | loop _ slot a length each ih => exact .loop slot _ (.rounds slot ih length)

/-- With fewer levels a call is cut short where one with more goes on. -/
theorem call_prolongs (deeper : d ≤ d') (k' : Nat) : ∀ k ≤ k', ∀ f frame,
    Prolongs d d' ((Recursion.bounded k).call f frame) ((Recursion.bounded k').call f frame) := by
  have refused : ∀ f frame (c' : Run Value), (∀ m : Machine,
      m.stdout.writes <:+ (Run.left (c'.run m)).stdout.writes) →
      Prolongs d d' ((Recursion.bounded 0).call f frame) c' := by
    refine fun f frame c' adds => ⟨adds, fun m m' looser => ?_⟩
    have ended : ((Recursion.bounded 0).call f frame).run m =
        .error (.script (.nestingLevel m.callLimit)) m := rfl
    rw [ended]
    exact .cut (.inl (by rw [looser.limit])) (looser.writes ▸ adds m')
  induction k' with
  | zero =>
      intro k fewer f frame
      obtain rfl : k = 0 := by omega
      exact refused f frame _ fun m => List.suffix_refl _
  | succ j ih =>
      have begun : ∀ k ≤ j, ∀ f frame, Prolongs d d' ((Recursion.bounded (k + 1)).call f frame)
          ((Recursion.bounded (j + 1)).call f frame) := by
        intro k fewer f frame
        rw [Recursion.bounded_call, Recursion.bounded_call]
        exact .call deeper _ ((callBody_uniform f frame).prolongs (ih k fewer))
      intro k fewer f frame
      cases k with
      | zero => exact refused f frame _ (begun j (Nat.le_refl j) f frame).adds
      | succ k => exact begun k (by omega) f frame

namespace Session

/-- The session with a limit of calls, and with a stream that accepts so many more writes. -/
def limited (s : Session) (calls : Nat) (writes : Option Nat) : Session :=
  { s with
    config := { s.config with callLimit := calls }, stdout := ⟨s.stdout.writes, writes⟩ }

theorem withBuiltins_limited (s : Session) (calls : Nat) (writes : Option Nat) :
    (s.limited calls writes).withBuiltins = s.withBuiltins.limited calls writes := by
  obtain ⟨config, store, globals, namespaces, awaits, stdin, stdout, stderr⟩ := s
  cases awaits with
  | true => rfl
  | false => rfl

theorem stdout_report (s : Session) (f : Fault) : (s.report f).stdout = s.stdout := by
  cases f <;> rfl

/-- The machines on which two sessions that differ in their limits begin. -/
theorem boot_looser {d d' : Nat} {n n' : Option Nat} (s : Session) (p : Code.Program)
    (wider : AtMost n n') : ((s.limited d n).boot p).Looser d d' ((s.limited d' n').boot p) :=
  ⟨rfl, rfl, wider⟩

theorem run_follows {d d' : Nat} {n n' : Option Nat} (s : Session) (p : Code.Program)
    (deeper : d ≤ d') (wider : AtMost n n') :
    Follows d d' ((runBody p.code).run ((s.limited d n).boot p))
      ((runBody p.code).run ((s.limited d' n').boot p)) := by
  have prolongs : Prolongs d d' ((Recursion.bounded d).execBlock ⟨[], none, []⟩ p.code)
      ((Recursion.bounded d').execBlock ⟨[], none, []⟩ p.code) :=
    (execBlock_uniform _ p.code).prolongs (call_prolongs deeper d' d deeper)
  rw [Recursion.bounded_execBlock, Recursion.bounded_execBlock] at prolongs
  exact prolongs.follows _ _ (boot_looser s p wider)

/-- Limits only cut runs short. Under limits that are no lower a program has the same result, and
leaves the same session but for the limits, unless it fails for a limit; and what it writes under
the lower limits comes first among what it writes under the higher ones. -/
theorem limits_only_cut (s : Session) (p : Code.Program) (d d' : Nat) (n n' : Option Nat)
    (deeper : d ≤ d') (wider : AtMost n n') :
    (((s.limited d n).execute p).1 ≠ .error (.runtime (.script (.nestingLevel d))) →
      ((s.limited d n).execute p).1 ≠ .error (.runtime (.stream "stream closed")) →
      ((s.limited d' n').execute p).1 = ((s.limited d n).execute p).1 ∧
        ((s.limited d' n').execute p).2.limited 0 none =
          ((s.limited d n).execute p).2.limited 0 none) ∧
    ((s.limited d n).execute p).2.stdout.writes.reverse <+:
      ((s.limited d' n').execute p).2.stdout.writes.reverse := by
  simp only [execute, withBuiltins_limited]
  have both := run_follows s.withBuiltins p deeper wider
  generalize (runBody p.code).run ((s.withBuiltins.limited d n).boot p) = ended at both
  generalize (runBody p.code).run ((s.withBuiltins.limited d' n').boot p) = ended' at both
  cases both with
  | @ok flow m m' looser =>
      obtain ⟨k, rfl⟩ : ∃ k, m' = m.under d' ⟨m.stdout.writes, k⟩ := ⟨_, looser.same⟩
      exact ⟨fun _ _ => ⟨rfl, rfl⟩, List.prefix_refl _⟩
  | @error f m m' looser =>
      obtain ⟨k, rfl⟩ : ∃ k, m' = m.under d' ⟨m.stdout.writes, k⟩ := ⟨_, looser.same⟩
      refine ⟨fun _ _ => ⟨rfl, ?_⟩, ?_⟩
      · cases f <;> rfl
      · simp only [stdout_report]
        exact List.prefix_refl _
  | @cut f m ended' isCut written =>
      constructor
      · intro notDeep notFull
        rcases isCut with rfl | rfl
        · exact absurd rfl notDeep
        · exact absurd rfl notFull
      · rw [List.reverse_prefix]
        cases ended' with
        | ok flow m' =>
            simp only [stdout_report]
            exact written
        | error f' m' =>
            simp only [stdout_report]
            exact written

/-- Writes, and calls a function that writes. -/
def writesInCall : Code.Program :=
  ⟨[.defineFunction ⟨"F", [], [.echo (.string "in")], 0⟩, .echo (.string "out"),
    .expression (.call (.string "F") [])], [], 0⟩

/-- With room for one call and two writes it ends as it does without a limit of writes; with no room
for a call it has written the first text. -/
theorem limits_only_cut_in_call :
    let s := create .default false [] .unlimited .unlimited
    (((s.limited 1 (some 2)).execute writesInCall).1 matches .ok _) = true ∧
      ((s.limited 7 none).execute writesInCall).1 =
        ((s.limited 1 (some 2)).execute writesInCall).1 ∧
      ((s.limited 0 (some 2)).execute writesInCall).2.stdout.writes = ["out"] ∧
      ["out"] <+: ((s.limited 1 (some 3)).execute writesInCall).2.stdout.writes.reverse := by
  intro s
  have ended : (((s.limited 1 (some 2)).execute writesInCall).1 matches .ok _) = true := by
    decide +kernel
  have written : ((s.limited 0 (some 2)).execute writesInCall).2.stdout.writes = ["out"] := by
    decide +kernel
  have whole := limits_only_cut s writesInCall 1 7 (some 2) none (by decide)
    fun _ member => by cases member
  have cut := limits_only_cut s writesInCall 0 1 (some 2) (some 3) (by decide)
    fun k member => ⟨2, rfl, by obtain rfl := Option.some.inj member; decide⟩
  have first := cut.2
  rw [written, List.reverse_singleton] at first
  refine ⟨ended, (whole.1 (fun failed => ?_) fun failed => ?_).1, written, first⟩
  · rw [failed] at ended
    cases ended
  · rw [failed] at ended
    cases ended

end Session
end TreeScript
