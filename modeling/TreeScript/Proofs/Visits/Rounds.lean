import TreeScript.Proofs.Visits.Others
import TreeScript.Proofs.Visits.Reserve

set_option autoImplicit false

/- The rounds of a loop. Whatever the body does, each round finds the element at its position, and
the loop goes through all positions in order unless the body returns or fails. -/
namespace TreeScript

open Code (Place Block slotsOf)

/-- What a loop does for each element, and whether it takes elements up by reference. -/
structure LoopCode where
  key : Option Place
  value : Place
  byReference : Bool
  body : Block

namespace LoopCode

variable (code : LoopCode) (user : UserCall) (inside : Frame)

/-- The frame while the key and the value of an element are taken up. -/
def taking (s : SlotId) : Frame := inside.holding [.slot s]

/-- One round of the loop: the key is assigned, the place for the value is found, the element is
taken up there, and the body is run. -/
def round (k : Key) (s : SlotId) : Run Flow := do
  assignKey user (taking inside s) k code.key
  let l ← evalPlace user (taking inside s) .write code.value
  let _ ← takeElement (taking inside s).held code.byReference l s
  execBlock user ((if code.byReference then inside else taking inside s).holding l.handles)
    code.body

/-- How a loop over so many elements goes on from a position. There is an element at each position,
and a round for it, until all are visited or the body returns or fails. `Binds` says which element
is taken up at a position, on the machine on which its round begins. -/
inductive Rounds (slot length : Nat) (Binds : Nat → Machine → Key → SlotId → Prop) :
    Nat → Machine → EStateM.Result Fault Machine Flow → Prop
  | ended (m : Machine) : Rounds slot length Binds length m (.ok .normal m)
  | visited {i : Nat} {m m₁ m₂ : Machine} {k : Key} {s : SlotId}
      {result : EStateM.Result Fault Machine Flow} (left : i < length)
      (next : (nextElement slot) m = .ok (some (k, s)) m₁) (binds : Binds i m₁ k s)
      (ran : (code.round user inside k s) m₁ = .ok .normal m₂)
      (later : Rounds slot length Binds (i + 1) m₂ result) : Rounds slot length Binds i m result
  | returned {i : Nat} {m m₁ m₂ : Machine} {k : Key} {s : SlotId} {v : Value} (left : i < length)
      (next : (nextElement slot) m = .ok (some (k, s)) m₁) (binds : Binds i m₁ k s)
      (ran : (code.round user inside k s) m₁ = .ok (.returned v) m₂) :
      Rounds slot length Binds i m (.ok (.returned v) m₂)
  | failed {i : Nat} {m m₁ m₂ : Machine} {k : Key} {s : SlotId} {f : Fault} (left : i < length)
      (next : (nextElement slot) m = .ok (some (k, s)) m₁) (binds : Binds i m₁ k s)
      (ran : (code.round user inside k s) m₁ = .error f m₂) :
      Rounds slot length Binds i m (.error f m₂)

end LoopCode

/-! The table of loops and what is kept -/

section

variable {r : Reserve} {isSealed : r.Sealed} {slot depth : Nat}

/-- The machine while a loop with this number is at a position: the table says so, and but for that
entry everything is kept. -/
structure Reserve.At (r : Reserve) (slot depth length i : Nat) (m : Machine) : Prop where
  running : m.loops[slot]? = some (some ⟨r.array, length, i⟩)
  kept : r.Kept depth (m.mark slot none)

/-- What keeps to the discipline and has no loop with this number leaves the loop where it is. -/
theorem Reserve.At.keeps {α : Type} {c : Run α} {e : Extent} {Q : Extent → α → Prop}
    {length i : Nat} {m : Machine} (at_ : r.At slot depth length i m) (skips : Skips slot c)
    (keeps : (r.seclusion isSealed).Keeps depth e Q c) (inside : e ≤ m.store.extent) :
    Run.Ends (fun a m' => m.store.extent ≤ m'.store.extent ∧ r.At slot depth length i m' ∧
        Q m'.store.extent a)
      (fun _ _ => True) (c.run m) := by
  have bound := (List.getElem?_eq_some_iff.mp at_.running).1
  have masked : slot < (m.mark slot none).loops.length := by simpa [Machine.mark, Machine.withLoops]
  obtain ⟨same, longer⟩ := skips (m.mark slot none) (some ⟨r.array, length, i⟩) masked
  rw [Machine.mark_mark, Machine.mark_same at_.running] at same
  have free := skips.entry_kept (Machine.loops_mark bound none)
  have ended := (keeps.holds at_.kept inside).sound.2
  rw [same]
  cases ran : c.run (m.mark slot none) with
  | error f m' => exact trivial
  | ok a m' =>
      rw [ran] at ended free longer
      obtain ⟨grows, kept, result⟩ := ended
      refine ⟨grows, ⟨Machine.loops_mark (masked.trans_le longer) _, ?_⟩, result⟩
      have free : m'.loops[slot]? = some none := free
      rw [Machine.mark_mark, Machine.mark_same free]
      exact kept

end

/-! One round -/

namespace Reserve

variable {r : Reserve} {depth : Nat}

/-- A value that may be copied may be assigned. -/
theorem Sealed.assignable (isSealed : r.Sealed) :
    (r.seclusion isSealed).Assignable (r.seclusion isSealed).Source where
  mono grows source := source.mono grows
  known := Discipline.Known.source
  source source := source
  holds {e v} source g member := by
    refine ⟨(source g member).1, fun s isSlot => ?_⟩
    rcases Value.mem_handles member with ⟨_, _, same⟩ | ⟨_, _, same⟩ <;>
      cases same.symm.trans isSlot
  element {i m a key} kept _ v found := by
    obtain ⟨s, -, rfl⟩ := Option.map_eq_some_iff.mp found
    exact Kept.copyable kept isSealed s

theorem Sealed.takeElement_keeps (isSealed : r.Sealed) {e : Extent} {pending : List Handle}
    {l : Location} {s : SlotId} {byReference : Bool}
    (holds : (r.seclusion isSealed).Holds e pending)
    (locationKnown : (r.seclusion isSealed).KnownLocation e l)
    (slotKnown : byReference = true → r.Known e (.slot s)) :
    (r.seclusion isSealed).Keeps depth e Discipline.Any
      (takeElement pending byReference l s) := by
  cases byReference with
  | true =>
      exact (Discipline.bind_meets locationKnown (slotKnown rfl)).imp fun _ => trivial
  | false =>
      have looked : (r.seclusion isSealed).Keeps depth e (r.seclusion isSealed).Source
          (Run.inspect (·.read s)) :=
        Discipline.meets_inspect fun _ _ kept => Kept.copyable kept isSealed s
      exact looked.bind fun _ grows _ source =>
        (Discipline.setFrom_meets isSealed.assignable l (holds.mono grows)
          (locationKnown.mono grows) source).imp fun _ => trivial

/-- A round keeps to the discipline. -/
theorem Sealed.round_keeps (isSealed : r.Sealed) {e : Extent} {code : LoopCode} {inside : Frame}
    {s : SlotId} (levels : Nat) (k : Key)
    (known : (r.seclusion isSealed).KnownFrame e inside) (held : r.MayHold e (.slot s))
    (slotKnown : code.byReference = true → r.Known e (.slot s)) :
    (r.seclusion isSealed).Keeps depth e Discipline.Any
      (code.round (invoke levels) inside k s) := by
  have serves : (r.seclusion isSealed).Serves (invoke levels) := Discipline.invoke_serves levels
  have free : ∀ names, (r.seclusion isSealed).Writes depth names := fun _ _ _ => trivial
  have taking : (r.seclusion isSealed).KnownFrame e (LoopCode.taking inside s) :=
    known.holding (Discipline.Holds.cons held (by simp [Discipline.Holds]))
  apply (Discipline.assignKey_meets serves taking k code.key (free _)).bind
  intro e₁ grows₁ _ _
  apply (Discipline.evalPlace_meets serves .write code.value (taking.mono grows₁) (free _)).bind
  intro e₂ grows₂ l locationKnown
  have grows := grows₁.trans grows₂
  apply (isSealed.takeElement_keeps (taking.mono grows).held locationKnown fun byReference =>
    (slotKnown byReference).mono grows).bind
  intro e₃ grows₃ _ _
  have grows := grows.trans grows₃
  refine Discipline.Meets.imp (Discipline.execBlock_meets serves code.body (.holding ?_
    (locationKnown.mono grows₃).holds) ?_) fun _ => trivial
  · split
    · exact known.mono grows
    · exact taking.mono grows
  · exact Policy.fitsAll_of_free _ (fun _ _ => trivial) (fun _ => trivial) (fun _ => trivial) _ _

end Reserve

theorem LoopCode.round_skips {code : LoopCode} {slot : Nat} (others : slot ∉ slotsOf code.body)
    (levels : Nat) (inside : Frame) (k : Key) (s : SlotId) :
    Skips slot (code.round (invoke levels) inside k s) := by
  have calls := invoke_skips levels slot
  have parts : ∀ {α : Type} {p : Recursion → Run α}, Uniform False p →
      Skips slot (p (.bounded levels)) := fun uniform => uniform.skips calls
  exact (parts (assignKey_uniform _ k code.key)).bind fun _ =>
    (parts (evalPlace_uniform _ .write code.value)).bind fun l =>
      (parts (takeElement_uniform _ code.byReference l s)).bind fun _ =>
        execBlock_skips calls _ code.body others

namespace Reserve

variable {r : Reserve} {depth slot length i : Nat} {m : Machine}

/-- The element at the position is there, and the loop goes on to the next one. -/
theorem At.next (at_ : r.At slot depth length i m) (left : i < length)
    (enough : length ≤ (r.store.array r.array).elements.length) :
    ∃ k s m₁, (nextElement slot) m = .ok (some (k, s)) m₁ ∧
      (m₁.store.array r.array).elements[i]? = some (k, s) ∧
      m₁.store.extent = m.store.extent ∧ r.At slot depth length (i + 1) m₁ := by
  have longer : (r.store.array r.array).elements.length ≤
      (m.store.array r.array).elements.length := by
    have order : Assoc.keys (r.store.array r.array).elements <+:
        Assoc.keys (m.store.array r.array).elements := at_.kept.keys
    simpa [Assoc.keys] using order.length_le
  obtain ⟨entry, found⟩ : ∃ entry, (m.store.array r.array).elements[i]? = some entry :=
    ⟨_, List.getElem?_eq_getElem (by omega)⟩
  have bound := (List.getElem?_eq_some_iff.mp at_.running).1
  have ran := run_nextElement slot m
  rw [at_.running, Option.join_some] at ran
  simp only [if_neg (Nat.not_le.mpr left), ArrayData.entryAt?, found] at ran
  refine ⟨entry.1, entry.2, _, ran, ?_, ?_, ⟨?_, ?_⟩⟩
  · have same : ((m.store.setArray r.array (m.store.array r.array).advance).array
        r.array).elements = (m.store.array r.array).elements := by
      rw [Store.array_setArray]
      split
      · rw [Discipline.elements_advance]
      · rfl
    simpa only [same] using found
  · simp [Store.extent, Store.setArray]
  · simp only [Machine.nextRound, Machine.setLoop_loops bound, List.getElem?_set_self bound]
  · have table : (m.nextRound slot ⟨r.array, length, i⟩).loops.set slot none =
        m.loops.set slot none := by
      rw [Machine.nextRound, Machine.setLoop_loops bound, List.set_set]
    have moved := at_.kept.advance
    simp only [Machine.mark, Machine.withLoops, Machine.nextRound, Machine.setLoop] at moved table ⊢
    rw [table]
    exact moved

/-- The slot of an element may be held. -/
theorem Kept.element (kept : r.Kept depth m) (isSealed : r.Sealed) {s : SlotId}
    (member : .slot s ∈ (m.store.array r.array).handles) : r.MayHold m.store.extent (.slot s) := by
  by_cases own : r.own (.array r.array)
  · obtain ⟨same, theirs⟩ := kept.elements_own isSealed own
    exact ⟨(isSealed.inside _ (theirs _ member)).mono kept.guards.grows, fun _ _ _ => same ▸ member⟩
  · exact Known.mayHold (kept.closed.array own _ member)

/-- The loop is where it was when the key is assigned and the place for the value is found. -/
theorem At.located (isSealed : r.Sealed) {code : LoopCode} {inside : Frame} {levels : Nat} {k : Key}
    {s : SlotId} {l : Location} {m₂ m₃ : Machine} (at_ : r.At slot depth length i m)
    (known : (r.seclusion isSealed).KnownFrame m.store.extent (LoopCode.taking inside s))
    (assigned : (assignKey (invoke levels) (LoopCode.taking inside s) k code.key) m = .ok () m₂)
    (located : (evalPlace (invoke levels) (LoopCode.taking inside s) .write code.value) m₂ =
      .ok l m₃) : r.At slot depth length i m₃ := by
  have serves : (r.seclusion isSealed).Serves (invoke levels) := Discipline.invoke_serves levels
  have parts : ∀ {α : Type} {p : Recursion → Run α}, Uniform False p →
      Skips slot (p (.bounded levels)) := fun uniform => uniform.skips (invoke_skips levels slot)
  have first := at_.keeps (parts (assignKey_uniform (LoopCode.taking inside s) k code.key))
    (Discipline.assignKey_meets serves known k code.key fun _ _ => trivial) (le_refl _)
  rw [show (assignKey (Recursion.bounded levels).call _ k code.key).run m = _ from assigned] at first
  have second := first.2.1.keeps
    (parts (evalPlace_uniform (LoopCode.taking inside s) .write code.value))
    (Discipline.evalPlace_meets serves .write code.value (known.mono first.1) fun _ _ => trivial)
    (le_refl _)
  rw [show (evalPlace (Recursion.bounded levels).call _ .write code.value).run m₂ = _ from located]
    at second
  exact second.2.1

/-- A loop goes through all positions that are left, one after the other. -/
theorem At.rounds (isSealed : r.Sealed) {code : LoopCode} {inside : Frame} {levels : Nat}
    {Binds : Nat → Machine → Key → SlotId → Prop} (others : slot ∉ slotsOf code.body)
    (enough : length ≤ (r.store.array r.array).elements.length)
    (known : (r.seclusion isSealed).KnownFrame r.store.extent inside)
    (shared : code.byReference = true → ∀ h, ¬ r.own h)
    (binds : ∀ {i m k s}, i < length → r.At slot depth length (i + 1) m →
      (m.store.array r.array).elements[i]? = some (k, s) → Binds i m k s)
    (n : Nat) (rest : i + n = length) (at_ : r.At slot depth length i m) :
    code.Rounds (invoke levels) inside slot length Binds i m
      ((walk slot (code.round (invoke levels) inside) n) m) := by
  induction n generalizing i m with
  | zero =>
      obtain rfl : i = length := by omega
      exact .ended m
  | succ n ih =>
      have left : i < length := by omega
      obtain ⟨k, s, m₁, next, element, extent, moved⟩ := at_.next left enough
      have bound := binds left moved element
      have here : .slot s ∈ (m₁.store.array r.array).handles :=
        List.mem_map.mpr ⟨(k, s), List.mem_of_getElem? element, rfl⟩
      have held : r.MayHold m₁.store.extent (.slot s) := moved.kept.element isSealed here
      have keeps : (r.seclusion isSealed).Keeps depth m₁.store.extent Discipline.Any
          (code.round (invoke levels) inside k s) :=
        isSealed.round_keeps levels k (known.mono moved.kept.guards.grows) held fun byReference =>
          ⟨held.1, shared byReference _⟩
      have ended := moved.keeps (code.round_skips others levels inside k s) keeps (le_refl _)
      rw [walk_succ, run_round_some next]
      cases ran : (code.round (invoke levels) inside k s).run m₁ with
      | error f m₂ => exact .failed left next bound ran
      | ok flow m₂ =>
          rw [ran] at ended
          cases flow with
          | returned v => exact .returned left next bound ran
          | normal => exact .visited left next bound ran (ih (by omega) ended.2.1)

end Reserve
end TreeScript
