import TreeScript.Machine

set_option autoImplicit false

/- What a computation does on its way and at its end, put as a condition on the machine it starts
from. `Holds` follows the computation; `sound` reads off it the facts about traces and results. -/
namespace TreeScript.Run

/-- From the machine on, every moment satisfies `P`, a result satisfies `Q` and a fault `E`, each
with the machine that is left. -/
def Holds (P : Moment → Prop) : {α : Type} → Run α → (α → Machine → Prop) →
    (Fault → Machine → Prop) → Machine → Prop
  | _, .done a, Q, _, m => Q a m
  | _, .fault f, _, E, m => E f m
  | _, .step action, Q, _, m => P ⟨none, (action m).2⟩ ∧ Q (action m).1 (action m).2
  | _, .note event, Q, _, m => P ⟨some event, m⟩ ∧ Q () m
  | _, .bind first next, Q, E, m =>
      first.Holds P (fun a m => (next a).Holds P Q E m) E m
  | _, .ensure body last, Q, E, m =>
      body.Holds P (fun a m => P ⟨none, last m⟩ ∧ Q a (last m))
        (fun f m => P ⟨none, last m⟩ ∧ E f (last m)) m

variable {α β : Type} {P : Moment → Prop} {Q : α → Machine → Prop} {E : Fault → Machine → Prop}
  {m : Machine}

theorem holds_pure (a : α) : (pure a : Run α).Holds P Q E m ↔ Q a m := Iff.rfl

theorem holds_bind (c : Run α) (f : α → Run β) {Q : β → Machine → Prop} :
    (c >>= f).Holds P Q E m ↔ c.Holds P (fun a m => (f a).Holds P Q E m) E m := Iff.rfl

theorem holds_get {Q : Machine → Machine → Prop} :
    (get : Run Machine).Holds P Q E m ↔ P ⟨none, m⟩ ∧ Q m m := Iff.rfl

theorem holds_modify (f : Machine → Machine) {Q : Unit → Machine → Prop} :
    (modify f : Run Unit).Holds P Q E m ↔ P ⟨none, f m⟩ ∧ Q () (f m) := Iff.rfl

theorem holds_modifyGet (f : Machine → α × Machine) :
    (modifyGet f : Run α).Holds P Q E m ↔ P ⟨none, (f m).2⟩ ∧ Q (f m).1 (f m).2 := Iff.rfl

theorem holds_ensure (c : Run α) (last : Machine → Machine) :
    (c.ensure last).Holds P Q E m ↔
      c.Holds P (fun a m => P ⟨none, last m⟩ ∧ Q a (last m))
        (fun f m => P ⟨none, last m⟩ ∧ E f (last m)) m := Iff.rfl

theorem holds_inNewScope (c : Run α) :
    (inNewScope c).Holds P Q E m ↔
      P ⟨none, { m with scopes := [] :: m.scopes }⟩ ∧
        c.Holds P
          (fun a m => P ⟨none, { m with scopes := m.scopes.tail }⟩ ∧
            Q a { m with scopes := m.scopes.tail })
          (fun f m => P ⟨none, { m with scopes := m.scopes.tail }⟩ ∧
            E f { m with scopes := m.scopes.tail })
          { m with scopes := [] :: m.scopes } := Iff.rfl

/-- A call that is refused leaves the machine as it is; one that begins is counted until its end,
and has loops of its own. -/
theorem holds_inCall (loopSlots : Nat) (c : Run α) :
    (inCall loopSlots c).Holds P Q E m ↔
      P ⟨none, m⟩ ∧
        if m.callLimit ≤ m.callDepth then E (.script (.nestingLevel m.callLimit)) m
        else
          P ⟨none, { m with callDepth := m.callDepth + 1 }⟩ ∧
          P ⟨none, { m with callDepth := m.callDepth + 1,
                            loops := List.replicate loopSlots none }⟩ ∧
          c.Holds P
            (fun a m' => P ⟨none, { m'.leaveCall with loops := m.loops }⟩ ∧
              Q a { m'.leaveCall with loops := m.loops })
            (fun f m' => P ⟨none, { m'.leaveCall with loops := m.loops }⟩ ∧
              E f { m'.leaveCall with loops := m.loops })
            { m with callDepth := m.callDepth + 1, loops := List.replicate loopSlots none } := by
  rw [inCall, holds_bind, enterCall, holds_bind, holds_get]
  by_cases full : m.callLimit ≤ m.callDepth
  · simp only [if_pos full]
    exact Iff.rfl
  · simp only [if_neg full]
    exact Iff.rfl

theorem Holds.mono {c : Run α} {Q' : α → Machine → Prop} {E' : Fault → Machine → Prop}
    (holds : c.Holds P Q E m) (result : ∀ a m, Q a m → Q' a m)
    (failure : ∀ f m, E f m → E' f m) : c.Holds P Q' E' m := by
  induction c generalizing m E E' with
  | done a => exact result a m holds
  | fault f => exact failure f m holds
  | step action => exact ⟨holds.1, result _ _ holds.2⟩
  | note event => exact ⟨holds.1, result _ _ holds.2⟩
  | bind first next ihFirst ihNext =>
      exact ihFirst holds (fun a m later => ihNext a later result failure) failure
  | ensure body last ih =>
      exact ih holds (fun a m ⟨seen, final⟩ => ⟨seen, result a _ final⟩)
        (fun f m ⟨seen, final⟩ => ⟨seen, failure f _ final⟩)

/-- Less is asked of the moments. -/
theorem Holds.weaken {c : Run α} {P' : Moment → Prop} (holds : c.Holds P Q E m)
    (seen : ∀ moment, P moment → P' moment) : c.Holds P' Q E m := by
  induction c generalizing m E with
  | done a => exact holds
  | fault f => exact holds
  | step action => exact ⟨seen _ holds.1, holds.2⟩
  | note event => exact ⟨seen _ holds.1, holds.2⟩
  | bind first next ihFirst ihNext =>
      exact ihFirst (Holds.mono (c := first) holds (fun a _ later => ihNext a later)
        fun _ _ failed => failed)
  | ensure body last ih =>
      exact ih (Holds.mono (c := body) holds (fun _ _ ended => ⟨seen _ ended.1, ended.2⟩)
        fun _ _ ended => ⟨seen _ ended.1, ended.2⟩)

theorem run_bind {c : Run α} {f : α → Run β} {a : α} {m' : Machine} (first : c.run m = .ok a m') :
    (c >>= f).run m = (f a).run m' := by
  change (Run.bind c f).run m = _
  rw [run, first]

/-- A bind that ends with a result has one from its first part. -/
theorem of_run_bind {c : Run α} {f : α → Run β} {b : β} {m' : Machine}
    (done : (c >>= f).run m = .ok b m') :
    ∃ a m₁, c.run m = .ok a m₁ ∧ (f a).run m₁ = .ok b m' := by
  cases first : c.run m with
  | ok a m₁ =>
      rw [run_bind first] at done
      exact ⟨a, m₁, rfl, done⟩
  | error fault m₁ =>
      change (Run.bind c f).run m = _ at done
      rw [run, first] at done
      cases done

theorem run_get_bind (f : Machine → Run β) : (get >>= f : Run β).run m = (f m).run m := rfl

theorem run_bind_error {c : Run α} {f : α → Run β} {fault : Fault} {m' : Machine}
    (first : c.run m = .error fault m') : (c >>= f).run m = .error fault m' := by
  change (Run.bind c f).run m = _
  rw [run, first]

/-- The end of a run, with a last step on the machine it leaves. -/
def after (last : Machine → Machine) :
    EStateM.Result Fault Machine α → EStateM.Result Fault Machine α
  | .ok a m => .ok a (last m)
  | .error f m => .error f (last m)

theorem after_after (first second : Machine → Machine) (ended : EStateM.Result Fault Machine α) :
    after second (after first ended) = after (fun m => second (first m)) ended := by
  cases ended <;> rfl

theorem run_ensure (c : Run α) (last : Machine → Machine) :
    (c.ensure last).run m = after last (c.run m) := rfl

theorem run_inNewScope (c : Run α) :
    (inNewScope c).run m = after (fun m => { m with scopes := m.scopes.tail })
      (c.run { m with scopes := [] :: m.scopes }) := run_ensure c _

theorem run_enterCall :
    enterCall.run m =
      if m.callLimit ≤ m.callDepth then .error (.script (.nestingLevel m.callLimit)) m
      else .ok () { m with callDepth := m.callDepth + 1 } := by
  rw [enterCall, run_get_bind]
  by_cases full : m.callLimit ≤ m.callDepth
  · rw [if_pos full, if_pos full]
    rfl
  · rw [if_neg full, if_neg full]
    rfl

/-- A call that begins is counted until its end, and has loops of its own. -/
theorem run_inCall (loopSlots : Nat) (c : Run α) :
    (inCall loopSlots c).run m =
      if m.callLimit ≤ m.callDepth then .error (.script (.nestingLevel m.callLimit)) m
      else after (fun m' => { m'.leaveCall with loops := m.loops })
        (c.run { m with callDepth := m.callDepth + 1,
                        loops := List.replicate loopSlots none }) := by
  by_cases full : m.callLimit ≤ m.callDepth
  · rw [if_pos full, inCall, run_bind_error (run_enterCall.trans (if_pos full))]
  · rw [if_neg full, inCall, run_bind (run_enterCall.trans (if_neg full))]
    exact run_ensure c _

theorem run_write (text : String) :
    (write text).run m = match m.stdout.write text with
      | some o => .ok () { m with stdout := o }
      | none => .error (.stream "stream closed") m := by
  rw [write, run_get_bind]
  cases m.stdout.write text with
  | none => rfl
  | some o => rfl

theorem run_copyValue {held : List Handle} {v v' : Value} {st : Store}
    (done : m.store.copy (m.roots ++ v.handles ++ held) v = some (v', st)) :
    (copyValue held v).run m = .ok v' { m with store := st } := by
  simp only [copyValue, modifyGet, MonadStateOf.modifyGet, Bind.bind, run, done]
  rfl

theorem run_copyValue_none {held : List Handle} {v : Value}
    (never : m.store.copy (m.roots ++ v.handles ++ held) v = none) :
    (copyValue held v).run m = .error .endless m := by
  simp only [copyValue, modifyGet, MonadStateOf.modifyGet, Bind.bind, run, never]
  rfl

theorem of_run_copyValue {held : List Handle} {v v' : Value} {m' : Machine}
    (copied : (copyValue held v).run m = .ok v' m') :
    ∃ st, m.store.copy (m.roots ++ v.handles ++ held) v = some (v', st) ∧
      m' = { m with store := st } := by
  cases done : m.store.copy (m.roots ++ v.handles ++ held) v with
  | none =>
      rw [run_copyValue_none done] at copied
      cases copied
  | some result =>
      rw [run_copyValue done] at copied
      cases copied
      exact ⟨result.2, rfl, rfl⟩

/-- The machine that a run leaves. -/
def left : EStateM.Result Fault Machine α → Machine
  | .ok _ m => m
  | .error _ m => m

theorem left_after (last : Machine → Machine) (ended : EStateM.Result Fault Machine α) :
    left (after last ended) = last (left ended) := by
  cases ended <;> rfl

/-- The end of a run, as a condition on its result and on its fault. -/
def Ends (Q : α → Machine → Prop) (E : Fault → Machine → Prop) :
    EStateM.Result Fault Machine α → Prop
  | .ok a m => Q a m
  | .error f m => E f m

theorem Ends.mono {Q' : α → Machine → Prop} {E' : Fault → Machine → Prop}
    {ended : EStateM.Result Fault Machine α} (ends : Ends Q E ended)
    (result : ∀ a m, Q a m → Q' a m) (failure : ∀ f m, E f m → E' f m) : Ends Q' E' ended := by
  cases ended with
  | ok a m => exact result a m ends
  | error f m => exact failure f m ends

instance {ended : EStateM.Result Fault Machine α} [∀ a m, Decidable (Q a m)]
    [∀ f m, Decidable (E f m)] : Decidable (Ends Q E ended) :=
  match ended with
  | .ok a m => inferInstanceAs (Decidable (Q a m))
  | .error f m => inferInstanceAs (Decidable (E f m))

/-- A copy that ends adds to the store and leaves the rest of the machine. -/
theorem ends_copyValue (held : List Handle) (v : Value) (m : Machine) :
    Ends (fun copy m' => ∃ roots st, m.store.copy roots v = some (copy, st) ∧
        m' = { m with store := st })
      (fun f _ => f = .endless) ((copyValue held v).run m) := by
  cases copied : m.store.copy (m.roots ++ v.handles ++ held) v with
  | none =>
      rw [run_copyValue_none copied]
      rfl
  | some result =>
      rw [run_copyValue copied]
      exact ⟨_, result.2, copied, rfl⟩

/-- What follows a result starts from the machine that is left. -/
theorem Ends.bind {c : Run α} {f : α → Run β} {Q' : β → Machine → Prop}
    (first : Ends Q E (c.run m)) (next : ∀ a m', Q a m' → Ends Q' E ((f a).run m')) :
    Ends Q' E ((c >>= f).run m) := by
  cases ran : c.run m with
  | ok a m' =>
      rw [ran] at first
      rw [run_bind ran]
      exact next a m' first
  | error fault m' =>
      rw [ran] at first
      rw [run_bind_error ran]
      exact first

/-- What holds of a computation holds of its trace and of its end. -/
theorem Holds.sound {c : Run α} (holds : c.Holds P Q E m) :
    (∀ moment ∈ c.trace m, P moment) ∧ Ends Q E (c.run m) := by
  induction c generalizing m E with
  | done a => exact ⟨by simp [trace], holds⟩
  | fault f => exact ⟨by simp [trace], holds⟩
  | step action => exact ⟨by simpa [trace] using holds.1, holds.2⟩
  | note event => exact ⟨by simpa [trace] using holds.1, holds.2⟩
  | bind first next ihFirst ihNext =>
      obtain ⟨before, after⟩ := ihFirst holds
      simp only [trace, run]
      cases ended : first.run m with
      | ok a m' =>
          rw [ended] at after
          obtain ⟨later, final⟩ := ihNext a after
          exact ⟨fun moment member => (List.mem_append.mp member).elim (before moment)
            (later moment), final⟩
      | error f m' =>
          rw [ended] at after
          exact ⟨by simpa using before, after⟩
  | ensure body last ih =>
      obtain ⟨before, after⟩ := ih holds
      simp only [trace, run]
      cases ended : body.run m with
      | ok a m' =>
          rw [ended] at after
          exact ⟨fun moment member => (List.mem_append.mp member).elim (before moment)
            (fun last => List.mem_singleton.mp last ▸ after.1), after.2⟩
      | error f m' =>
          rw [ended] at after
          exact ⟨fun moment member => (List.mem_append.mp member).elim (before moment)
            (fun last => List.mem_singleton.mp last ▸ after.1), after.2⟩

/-- What holds at the end, with a result or with a fault, holds of the machine that is left. -/
theorem Holds.left {c : Run α} {R : Machine → Prop}
    (holds : c.Holds P (fun _ => R) (fun _ => R) m) : R (Run.left (c.run m)) := by
  have ended := holds.sound.2
  cases ran : c.run m with
  | ok a m' =>
      rw [ran] at ended
      exact ended
  | error f m' =>
      rw [ran] at ended
      exact ended

end TreeScript.Run
