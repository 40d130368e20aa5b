import TreeScript.Proofs.Run
import TreeScript.Proofs.Uniform.Evaluation
import TreeScript.Session

set_option autoImplicit false

/- Every program comes to its end. Calls and loops are unfolded only so many times: the calls that
may still nest grow fewer from call to call, and the elements left to a loop from round to round,
whatever its body does to the array. -/
namespace TreeScript

def Loop.left (loop : Loop) : Nat := loop.length - loop.position

/-- The rounds that a loop may still go. -/
def Machine.roundsLeft (m : Machine) (slot : Nat) : Nat := (m.loops[slot]?.join).elim 0 Loop.left

/-- What every computation leaves to the one that it is a part of: as many calls under way, the same
limit, and no loop with more rounds to go. -/
structure Machine.Resumes (m m' : Machine) : Prop where
  depth : m'.callDepth = m.callDepth
  limit : m'.callLimit = m.callLimit
  rounds : ∀ slot, m'.roundsLeft slot ≤ m.roundsLeft slot

namespace Machine

variable {m m₁ m₂ : Machine}

theorem Resumes.refl (m : Machine) : m.Resumes m := ⟨rfl, rfl, fun _ => Nat.le_refl _⟩

theorem Resumes.trans (first : m.Resumes m₁) (second : m₁.Resumes m₂) : m.Resumes m₂ where
  depth := second.depth.trans first.depth
  limit := second.limit.trans first.limit
  rounds slot := Nat.le_trans (second.rounds slot) (first.rounds slot)

theorem Resumes.within {levels : Nat} (resumes : m.Resumes m₁)
    (within : m.callLimit ≤ m.callDepth + levels) : m₁.callLimit ≤ m₁.callDepth + levels := by
  rwa [resumes.limit, resumes.depth]

theorem Resumes.of_loops (depth : m₁.callDepth = m.callDepth) (limit : m₁.callLimit = m.callLimit)
    (loops : m₁.loops = m.loops) : m.Resumes m₁ :=
  ⟨depth, limit, fun slot => by simp only [roundsLeft, loops, Nat.le_refl]⟩

theorem roundsLeft_setLoop_self (m : Machine) (slot : Nat) (loop : Option Loop) :
    (m.setLoop slot loop).roundsLeft slot = loop.elim 0 Loop.left := by
  have inside : slot < (m.loops ++ List.replicate (slot + 1 - m.loops.length) none).length := by
    simp only [List.length_append, List.length_replicate]
    omega
  simp [roundsLeft, setLoop, List.getElem?_set_self inside]

theorem roundsLeft_setLoop_of_ne (m : Machine) {slot other : Nat} (loop : Option Loop)
    (apart : other ≠ slot) : (m.setLoop slot loop).roundsLeft other = m.roundsLeft other := by
  simp only [roundsLeft, setLoop, List.getElem?_set_ne apart.symm, List.getElem?_append]
  split
  · rfl
  · next beyond =>
      have none : m.loops[other]? = none := List.getElem?_eq_none (Nat.le_of_not_lt beyond)
      simp only [none, List.getElem?_replicate]
      split <;> rfl

end Machine

open Machine (Resumes)

/-- The next element of a loop takes one of its rounds; where there is none left, nothing changes. -/
theorem nextElement_cases (slot : Nat) (m : Machine) :
    (nextElement slot).run m = .ok none m ∨
      ∃ m', m.Resumes m' ∧ m'.roundsLeft slot < m.roundsLeft slot ∧
        ((nextElement slot).run m = .ok none m' ∨
          ∃ entry, (nextElement slot).run m = .ok (some entry) m') := by
  rw [run_nextElement]
  cases known : m.loops[slot]?.join with
  | none => exact .inl rfl
  | some loop =>
      by_cases spent : loop.length ≤ loop.position
      · exact .inl (if_pos spent)
      · have before : m.roundsLeft slot = loop.left := by simp [Machine.roundsLeft, known]
        have fewer : (m.nextRound slot loop).roundsLeft slot < m.roundsLeft slot := by
          rw [before, Machine.nextRound, Machine.roundsLeft_setLoop_self]
          simp only [Option.elim_some, Loop.left]
          omega
        have resumes : m.Resumes (m.nextRound slot loop) := by
          refine ⟨rfl, rfl, fun other => ?_⟩
          by_cases same : other = slot
          · subst same
            exact Nat.le_of_lt fewer
          · exact Nat.le_of_eq (m.roundsLeft_setLoop_of_ne _ same)
        simp only [if_neg spent]
        cases (m.store.array loop.array).entryAt? loop.position with
        | none => exact .inr ⟨_, resumes, fewer, .inl rfl⟩
        | some entry =>
            refine .inr ⟨{ m.nextRound slot loop with
              store := m.store.setArray loop.array (m.store.array loop.array).advance }, ?_, fewer,
              .inr ⟨entry, rfl⟩⟩
            exact resumes.trans (.of_loops rfl rfl rfl)

/-- While no more than so many calls may still nest, some number of unfoldings is enough: what lies
beyond them is never asked for, and the end is that of bounded calls and loops. -/
def Settles (levels : Nat) {α : Type} (p : Recursion → Run α) : Prop :=
  ∀ m : Machine, m.callLimit ≤ m.callDepth + levels →
    (∃ n, ∀ r : Recursion, (p (r.unfolded n)).run m = (p (.bounded levels)).run m) ∧
      m.Resumes (Run.left ((p (.bounded levels)).run m))

namespace Settles

variable {α β : Type} {levels : Nat}

/-- What makes no calls and goes through no loops needs no unfolding. -/
theorem of_resumes {c : Run α} (resumes : ∀ m : Machine, m.Resumes (Run.left (c.run m))) :
    Settles levels fun _ => c := fun m _ => ⟨⟨0, fun _ => rfl⟩, resumes m⟩

theorem bind {p : Recursion → Run α} {q : Recursion → α → Run β} (first : Settles levels p)
    (next : ∀ a, Settles levels fun r => q r a) : Settles levels fun r => p r >>= q r := by
  intro m within
  obtain ⟨⟨n, same⟩, resumes⟩ := first m within
  cases ran : (p (.bounded levels)).run m with
  | error f m₁ =>
      rw [ran] at resumes
      refine ⟨⟨n, fun r => ?_⟩, ?_⟩
      · rw [Run.run_bind_error ((same r).trans ran), Run.run_bind_error ran]
      · rwa [Run.run_bind_error ran]
  | ok a m₁ =>
      rw [ran] at resumes
      obtain ⟨⟨n₁, same₁⟩, resumes₁⟩ := next a m₁ (resumes.within within)
      refine ⟨⟨n + n₁, fun r => ?_⟩, ?_⟩
      · obtain ⟨r', first⟩ := r.unfolded_of_le (Nat.le_add_right n n₁)
        obtain ⟨r₁, second⟩ := r.unfolded_of_le (Nat.le_add_left n₁ n)
        have begun : (p (r.unfolded (n + n₁))).run m = .ok a m₁ := by rw [first, same r', ran]
        rw [Run.run_bind begun, Run.run_bind ran, second]
        exact same₁ r₁
      · rw [Run.run_bind ran]
        exact resumes.trans resumes₁

theorem inScope {p : Recursion → Run α} (body : Settles levels p) :
    Settles levels fun r => inNewScope (p r) := by
  intro m within
  obtain ⟨⟨n, same⟩, resumes⟩ := body { m with scopes := [] :: m.scopes } within
  refine ⟨⟨n, fun r => ?_⟩, ?_⟩
  · rw [Run.run_inNewScope, Run.run_inNewScope, same r]
  · rw [Run.run_inNewScope, Run.left_after]
    exact ⟨resumes.depth, resumes.limit, resumes.rounds⟩

variable {body : Recursion → Key → SlotId → Run Flow} {slot : Nat}

/-- So many rounds are all that is left of a loop, and some number of unfoldings is enough for them.
The body is unfolded apart from the loop: each round takes one unfolding from the loop and none from
the body. -/
def Spends (levels slot : Nat) (body : Recursion → Key → SlotId → Run Flow) (length rounds : Nat)
    (m : Machine) : Prop :=
  (∃ n, ∀ r r' : Recursion, ((r.unfolded n).loop slot (body (r'.unfolded n)) length).run m =
      (walk slot (body (.bounded levels)) rounds).run m) ∧
    m.Resumes (Run.left ((walk slot (body (.bounded levels)) rounds).run m))

/-- Each round leaves fewer rounds to the rest of a loop, whatever its body does. -/
theorem rounds (each : ∀ key s, Settles levels fun r => body r key s) (length rounds : Nat)
    (m : Machine) (within : m.callLimit ≤ m.callDepth + levels)
    (few : m.roundsLeft slot ≤ rounds) : Spends levels slot body length rounds m := by
  induction rounds generalizing m with
  | zero =>
      rcases nextElement_cases slot m with spent | ⟨m', -, fewer, -⟩
      · exact ⟨⟨1, fun r r' => run_round_none spent⟩, .refl m⟩
      · omega
  | succ rounds ih =>
      have ended : ∀ m', (nextElement slot).run m = .ok none m' → m.Resumes m' →
          Spends levels slot body length (rounds + 1) m := by
        intro m' spent resumes
        rw [Spends, walk_succ, run_round_none spent]
        exact ⟨⟨1, fun r r' => run_round_none spent⟩, resumes⟩
      rcases nextElement_cases slot m with spent | ⟨m', resumes, fewer, spent | ⟨⟨key, s⟩, next⟩⟩
      · exact ended m spent (.refl m)
      · exact ended m' spent resumes
      · obtain ⟨⟨n, same⟩, resumes₁⟩ := each key s m' (resumes.within within)
        have unfolds : ∀ k ≥ n, ∀ r : Recursion,
            (body (r.unfolded k) key s).run m' = (body (.bounded levels) key s).run m' := by
          intro k enough r
          obtain ⟨r₁, isUnfolded⟩ := r.unfolded_of_le enough
          rw [isUnfolded, same r₁]
        rw [Spends, walk_succ, run_round_some next]
        cases ran : (body (.bounded levels) key s).run m' with
        | error f m₁ =>
            rw [ran] at resumes₁
            refine ⟨⟨n + 1, fun r r' => (run_round_some next).trans ?_⟩, resumes.trans resumes₁⟩
            rw [unfolds _ (by omega), ran]
        | ok flow m₁ =>
            rw [ran] at resumes₁
            have resumed : m.Resumes m₁ := resumes.trans resumes₁
            cases flow with
            | returned v =>
                refine ⟨⟨n + 1, fun r r' => (run_round_some next).trans ?_⟩, resumed⟩
                rw [unfolds _ (by omega), ran]
            | normal =>
                have left : m₁.roundsLeft slot ≤ m'.roundsLeft slot := resumes₁.rounds slot
                obtain ⟨⟨n₁, same₁⟩, resumes₂⟩ := ih m₁ (resumed.within within) (by omega)
                -- enough for this body, for the loop after this round, and one for the round
                refine ⟨⟨n + n₁ + 1, fun r r' => (run_round_some next).trans ?_⟩,
                  resumed.trans resumes₂⟩
                rw [unfolds _ (by omega), ran]
                have again := same₁ (r.unfolded n) (r'.unfolded (n + 1))
                rw [← Recursion.unfolded_add, ← Recursion.unfolded_add,
                  show n + 1 + n₁ = n + n₁ + 1 by omega] at again
                exact again

/-- A loop begins with as many rounds to go as its array has elements then, and is forgotten at its
end. -/
theorem loop (each : ∀ key s, Settles levels fun r => body r key s) (a : ArrayId) (length : Nat) :
    Settles levels fun r => inLoop slot ⟨a, length, 0⟩ (r.loop slot (body r) length) := by
  intro m within
  have start : (m.setLoop slot (some ⟨a, length, 0⟩)).roundsLeft slot ≤ length := by
    simp [Machine.roundsLeft_setLoop_self, Loop.left]
  obtain ⟨⟨n, same⟩, resumes⟩ := rounds each length length
    (m.setLoop slot (some ⟨a, length, 0⟩)) within start
  refine ⟨⟨n, fun r => ?_⟩, ?_⟩
  · rw [run_inLoop, run_inLoop, same r r]
    rfl
  · rw [run_inLoop, Run.left_after]
    refine ⟨resumes.depth, resumes.limit, fun other => ?_⟩
    by_cases own : other = slot
    · subst own
      simp [Machine.roundsLeft_setLoop_self]
    · have before := m.roundsLeft_setLoop_of_ne (some ⟨a, length, 0⟩) own
      rw [Machine.roundsLeft_setLoop_of_ne _ _ own, ← before]
      exact resumes.rounds other

end Settles

/-- Whatever is done beside calls settles, if calls do. -/
theorem Uniform.settles {α : Type} {levels : Nat} {p : Recursion → Run α}
    (calls : ∀ f frame, Settles levels fun r => r.call f frame) (uniform : Uniform True p) :
    Settles levels p := by
  induction uniform with
  | pure a => exact .of_resumes .refl
  | fault f => exact .of_resumes .refl
  | note event => exact .of_resumes .refl
  | step plain =>
      exact .of_resumes fun m => .of_loops (plain.depth m) (plain.blind.limit m) (plain.loops m)
  | write text =>
      refine .of_resumes fun m => ?_
      rw [Run.run_write]
      split
      · exact .of_loops rfl rfl rfl
      · exact .refl m
  | look see blind _ next ih => exact fun m within => ih (see m) m within
  | bind first next ihFirst ihNext => exact ihFirst.bind ihNext
  | «scoped» body ih => exact ih.inScope
  | call f frame => exact calls f frame
  | loop _ slot a length each ih => exact .loop ih a length

/-- Each call that begins leaves one level less to the calls within it. -/
theorem call_settles (levels : Nat) (f : Code.Function Code.Stmt) (frame : Frame) :
    Settles levels fun r => r.call f frame := by
  have refused : ∀ (r : Recursion) (f : Code.Function Code.Stmt) (frame : Frame) (m : Machine),
      m.callLimit ≤ m.callDepth →
      ((r.unfolded 1).call f frame).run m = .error (.script (.nestingLevel m.callLimit)) m :=
    fun r f frame m full => (Run.run_inCall _ _).trans (if_pos full)
  induction levels generalizing f frame with
  | zero =>
      intro m full
      exact ⟨⟨1, fun r => refused r f frame m full⟩, .refl m⟩
  | succ levels ih =>
      have body : Settles levels fun r => r.callBody f frame := (callBody_uniform f frame).settles ih
      intro m within
      simp only [Recursion.bounded_call, Run.run_inCall]
      by_cases full : m.callLimit ≤ m.callDepth
      · rw [if_pos full]
        exact ⟨⟨1, fun r => refused r f frame m full⟩, .refl m⟩
      · rw [if_neg full]
        have deeper : m.callLimit ≤ m.callDepth + 1 + levels := by omega
        obtain ⟨⟨n, same⟩, resumes⟩ := body { m with
          callDepth := m.callDepth + 1, loops := List.replicate f.loopSlots none } deeper
        refine ⟨⟨n + 1, fun r => ?_⟩, ?_⟩
        · rw [← same r]
          exact (Run.run_inCall _ _).trans (if_neg full)
        · rw [Run.left_after]
          exact .of_loops (by simp only [Machine.leaveCall, resumes.depth, Nat.add_sub_cancel])
            resumes.limit rfl

/-- Every program comes to its end, whatever the session and its limit of calls: calls and rounds of
loops are unfolded a finite number of times, and whatever may lie beyond is not asked for. -/
theorem Session.program_unfolds_finitely (s : Session) (p : Code.Program) :
    ∃ n, ∀ beyond : Recursion,
      ((beyond.unfolded n).execBlock ⟨[], none, []⟩ p.code).run (s.withBuiltins.boot p) =
        (runBody p.code).run (s.withBuiltins.boot p) := by
  have settles : Settles s.withBuiltins.config.callLimit fun r =>
      r.execBlock ⟨[], none, []⟩ p.code :=
    (execBlock_uniform _ p.code).settles (call_settles _)
  obtain ⟨⟨n, same⟩, -⟩ := settles (s.withBuiltins.boot p) (Nat.le_add_left _ _)
  refine ⟨n, fun beyond => (same beyond).trans ?_⟩
  simp only [Recursion.bounded_execBlock]
  rfl

end TreeScript
