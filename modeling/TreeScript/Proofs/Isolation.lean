import TreeScript.Proofs.Isolation.Intact

set_option autoImplicit false

/- Calls are isolated: where the variables lead to no object and to no shared slot, a call leaves
them as they were, however it ends. -/
namespace TreeScript

open Store (Guards)

namespace Outset

variable {o : Outset}

/-- The index is the number of scopes of the run around the current one. -/
def isolation (o : Outset) (secluded : o.Secluded) : Discipline where
  Index := Nat
  good := o.Intact
  moment moment := ∃ depth, o.Intact depth moment.machine
  known := o.Known
  held := o.MayHold
  source := o.MayHold
  writable _ _ := True
  callable _ := True
  hold depth _ := depth
  declare depth _ := depth
  inner depth _ := depth + 1
  callee depth _ := depth
  known_mono := Known.mono
  held_mono := MayHold.mono
  held_of_known := Known.mayHold
  source_mono := MayHold.mono
  source_of_known := Known.mayHold
  known_fresh intact := secluded.known_fresh intact.guards.grows
  seen intact := ⟨_, intact⟩
  lookup intact _ := ⟨_, intact⟩
  closed intact := intact.closed _
  defaults intact := intact.defaults _
  methods _ _ := trivial
  functions _ _ := trivial
  classes intact member := intact.classes _ member
  scope {depth m} intact := by
    cases isScope : m.scopes with
    | nil =>
        obtain ⟨own, isOwn, length, -⟩ := intact.scopes
        simp_all
    | cons scope outer =>
        obtain ⟨_, _, _, known, _⟩ := intact.current isScope
        exact ⟨scope, outer, rfl, known⟩
  loops intact := intact.loops _
  hold_comm _ _ _ := rfl
  forget intact := intact
  plain _ intact := intact
  undeclare intact := intact
  adjust intact := intact.adjust secluded
  newArray {depth m} intact := intact.adjust (v := .null) secluded (by simp [Value.handles])
    (Store.adjusts_newArray m.store .null (by simp [ArrayData.handles, ArrayData.empty]))
  newClass intact known _ := intact.newClass known
  copy {depth m pending v v' st} intact held source done := by
    have all : ∀ g ∈ v.handles ++ pending, o.MayHold m.store.extent g :=
      List.forall_mem_append.mpr ⟨source, held⟩
    rw [List.append_assoc] at done
    exact (intact.copyLaws secluded all).copy intact source done
  rebind name intact isScope known := intact.replace isScope fun old entry member => by
    rcases Assoc.mem_set member with before | isNew
    · exact old entry before
    · exact isNew ▸ known
  extend intact isScope known _ := intact.replace isScope fun old entry member =>
    (List.mem_append.mp member).elim (old entry) (known entry)
  setLoop slot _ intact := intact.setLoop slot
  streams _ _ intact := ⟨intact.guards, intact.scopes, intact.closed, intact.defaults,
    intact.classes, intact.loops⟩
  defineFunction intact _ := ⟨intact.guards, intact.scopes, intact.closed, intact.defaults,
    intact.classes, intact.loops⟩
  defineClass name intact known := by
    refine ⟨intact.guards, intact.scopes, intact.closed, intact.defaults, fun entry member => ?_,
      intact.loops⟩
    rcases Assoc.mem_set member with old | isNew
    · exact intact.classes entry old
    · exact isNew ▸ known
  push intact := intact.push
  pop _ _ after := after.pop
  enter loopSlots intact _ := by
    refine ⟨⟨_, intact.guards, intact.scopes, intact.closed, intact.defaults, intact.classes,
      intact.loops⟩, intact.guards, intact.scopes, intact.closed, intact.defaults, intact.classes,
      fun loop member => ?_⟩
    exact absurd member Discipline.not_mem_blank
  leave before grows after := ⟨after.guards, after.scopes, after.closed, after.defaults,
    after.classes, fun loop member => (before.loops loop member).mono grows⟩
  body _ _ := Policy.fitsAll_of_free _ (fun _ _ => trivial) (fun _ => trivial)
    (fun _ => trivial) _ _

/-- Where a run begins with scopes of its own, everything is in order. -/
theorem Secluded.start (secluded : o.Secluded) (callDepth : Nat) {loops : List (Option Loop)}
    (own : List Scope) {depth : Nat} (length : own.length = depth + 1)
    (known : ∀ scope ∈ own, ∀ entry ∈ scope, o.Known o.machine.store.extent (.slot entry.2))
    (walked : ∀ loop, some loop ∈ loops → o.Known o.machine.store.extent (.array loop.array)) :
    o.Intact depth { o.machine with callDepth, loops, scopes := own ++ o.outer } where
  guards := .refl _ _
  scopes := ⟨own, rfl, length, known⟩
  closed h known isThing g member := by
    obtain ⟨inside, alive⟩ := secluded.held_alive known.1 known.2.2 member
    exact ⟨inside, fun ours => known.2.1 (secluded.holder ours known.1 known.2.2 isThing member),
      alive⟩
  defaults c known g member := by
    obtain ⟨inside, alive⟩ := secluded.held_alive known.1 known.2.2 member
    refine ⟨inside, alive, fun s isSlot => ?_⟩
    -- the defaults of a class are values, which hold no slots
    obtain ⟨_, _, held⟩ := List.mem_flatMap.mp member
    rcases Value.mem_handles held with ⟨_, _, same⟩ | ⟨_, _, same⟩ <;> cases same.symm.trans isSlot
  classes entry member := by
    refine ⟨secluded.sound.classes entry member, fun ours => ?_, fun ⟨_, unrooted, _⟩ => ?_⟩
    · rcases secluded.slot_or_array ours with ⟨_, same⟩ | ⟨_, same⟩ <;> cases same
    · exact unrooted (List.mem_append_left _ (List.mem_append_right _
        (List.mem_map.mpr ⟨entry, member, rfl⟩)))
  loops := walked

/-- Where no variable is kept, all scopes can be the run's own: no variable and no loop leads to what
is kept. -/
theorem Secluded.startAll (secluded : o.Secluded) (noOuter : o.outer = [])
    (scopes : o.machine.scopes ≠ []) (noSlot : ∀ s, .slot s ∉ o.kept)
    (walked : ∀ loop, some loop ∈ o.machine.loops →
      .array loop.array ∈ o.held ∧ ¬ o.Belongs (.array loop.array)) :
    o.Intact (o.machine.scopes.length - 1) o.machine := by
  have alive : ∀ h ∈ o.roots, ¬ o.Gone h := fun h member ⟨_, unrooted, _⟩ => unrooted member
  have known : ∀ scope ∈ o.machine.scopes, ∀ entry ∈ scope,
      o.Known o.machine.store.extent (.slot entry.2) := by
    intro scope listed entry member
    have rooted : .slot entry.2 ∈ o.roots := List.mem_append_left _
      (List.mem_append_left _ (mem_variablesOf.mpr ⟨scope, listed, entry, member, rfl⟩))
    exact ⟨secluded.sound.bound scope listed entry member,
      fun ours => noSlot _ (secluded.kept_of_rooted rooted ours), alive _ rooted⟩
  have length : o.machine.scopes.length = o.machine.scopes.length - 1 + 1 := by
    have positive := List.length_pos_iff.mpr scopes
    omega
  have start := secluded.start o.machine.callDepth o.machine.scopes length known
    fun loop member => ⟨secluded.sound.loops loop member, (walked loop member).2,
      alive _ (List.mem_append_right _ (walked loop member).1)⟩
  simpa [noOuter] using start

/-- The machine has the outer scopes, and what is kept is as it was. -/
def Untouched (o : Outset) (m : Machine) : Prop :=
  m.scopes = o.outer ∧ Guards o.Belongs o.machine.store m.store

theorem Intact.untouched {m : Machine} (intact : o.Intact 0 m) :
    o.Untouched { m with scopes := m.scopes.tail } := by
  obtain ⟨own, isOwn, length, -⟩ := intact.scopes
  obtain ⟨scope, rfl⟩ := List.length_eq_one_iff.mp length
  exact ⟨by simp [isOwn], intact.guards.mono fun _ => .inl⟩

/-- A block that is one scope runs what is in it, with a new scope. -/
theorem holds_scoped {user : UserCall} {frame : Frame} {body : Code.Block} {m : Machine}
    {P : Moment → Prop} {Q : Machine → Prop}
    (holds : (inNewScope (execBlock user frame body)).Holds P (fun _ => Q) (fun _ => Q) m) :
    (execBlock user frame [.scoped body]).Holds P (fun _ => Q) (fun _ => Q) m := by
  rw [execBlock, execStmt, Run.holds_bind]
  refine holds.mono (fun flow m ended => ?_) fun _ _ ended => ended
  cases flow with
  | normal =>
      rw [execBlock]
      exact ended
  | returned v => exact ended

theorem Secluded.body (secluded : o.Secluded) (all : o.outer = o.machine.scopes)
    (levels callDepth loopSlots : Nat) (block : Code.Block) (frame : Frame)
    (known : (isolation o secluded).KnownFrame o.machine.store.extent frame) :
    (inNewScope (execBlock (invoke levels) frame block)).Holds (fun _ => True)
      (fun _ => o.Untouched) (fun _ => o.Untouched)
      { o.machine with callDepth, loops := List.replicate loopSlots none } := by
  have fits : (isolation o secluded).FitsAll (0 : Nat) block :=
    Policy.fitsAll_of_free _ (fun _ _ => trivial) (fun _ => trivial) (fun _ => trivial) block _
  have keeps := Discipline.execBlock_meets (Discipline.invoke_serves levels) block known fits
  have start : o.Intact 0 { o.machine with
      callDepth, loops := List.replicate loopSlots none, scopes := [] :: o.machine.scopes } := by
    rw [← all]
    exact secluded.start callDepth [[]] rfl (by simp)
      fun loop member => absurd member Discipline.not_mem_blank
  rw [Run.holds_inNewScope]
  refine ⟨trivial, ((keeps.holds start (le_refl _)).weaken fun _ _ => trivial).mono ?_ ?_⟩
  · exact fun _ m ended => ⟨trivial, ended.2.1.untouched⟩
  · exact fun _ m ended => ⟨trivial, ended.2.1.untouched⟩

/-- However a call ends, it leaves what is kept from it untouched. -/
theorem Secluded.call (secluded : o.Secluded) (all : o.outer = o.machine.scopes) (levels : Nat)
    {f : Code.Function Code.Stmt} {block : Code.Block} (ownScope : f.body = [.scoped block])
    (frame : Frame)
    (known : (isolation o secluded).KnownFrame o.machine.store.extent frame) :
    (invoke levels f frame).Holds (fun _ => True) (fun _ => o.Untouched) (fun _ => o.Untouched)
      o.machine := by
  have still : o.Untouched o.machine := ⟨all.symm, .refl _ _⟩
  cases levels with
  | zero => exact ⟨trivial, still⟩
  | succ levels =>
      rw [invoke, Run.holds_inCall]
      refine ⟨trivial, ?_⟩
      split
      · exact still
      · have body := holds_scoped (secluded.body all levels (o.machine.callDepth + 1) f.loopSlots
          block frame known)
        rw [Run.holds_bind, ownScope]
        refine ⟨trivial, trivial, body.mono (fun flow m ended => ?_) fun _ _ ended =>
          ⟨trivial, ended⟩⟩
        cases flow with
        | normal => exact ⟨trivial, ended⟩
        | returned v => exact ⟨trivial, ended⟩

/-- A slot that is kept reads as before in an untouched machine. -/
theorem Untouched.reads (secluded : o.Secluded) {m : Machine} (untouched : o.Untouched m)
    {s : SlotId} (kept : .slot s ∈ o.kept) :
    m.store.read s = o.machine.store.read s ∧
      m.store.snapshot (m.store.read s) =
        o.machine.store.snapshot (o.machine.store.read s) := by
  have ours : o.Belongs (.slot s) := .root kept
  have same := untouched.2.slots _ ours
  refine ⟨same, ?_⟩
  rw [same]
  exact untouched.2.snapshotWithin (fun _ owner _ => owner.holds)
    (fun _ own => (secluded.alive own).1) _ _ fun _ => ours.holds

/-- What the frame of a call without receiver brings along may be held and copied. -/
theorem Secluded.knownFrame (secluded : o.Secluded) {caller : Frame} {arguments : List Value}
    (held : o.held = (caller.forCall none arguments).held) :
    (isolation o secluded).KnownFrame o.machine.store.extent (caller.forCall none arguments) where
  held := held ▸ secluded.mayHold
  arguments v passed g member := by
    apply secluded.mayHold g
    rw [held]
    have passedOn : g ∈ arguments.flatMap Value.handles :=
      List.mem_flatMap.mpr ⟨v, passed, member⟩
    exact List.mem_append_left _ (List.mem_append_right _ passedOn)
  receiver v member := by cases member

/-- The outset of a call, from which all variables are kept. -/
def ofCall (m : Machine) (held : List Handle) : Outset := ⟨m, held, m.variables, m.scopes⟩

theorem Secluded.ofCall {m : Machine} {held : List Handle} (sound : m.Sound 0)
    (inside : ∀ h ∈ held, h.Within m.store.extent)
    (noObject : ∀ object, ¬ m.store.Reachable m.variables (.object object))
    (unshared : ∀ s, m.store.Reachable m.variables (.slot s) →
      m.store.isShared (m.roots ++ held) s = false) : (Outset.ofCall m held).Secluded where
  sound := sound
  inside := inside
  outer := List.suffix_refl _
  rooted h member := .root (List.mem_append_left _ (List.mem_append_left _ member))
  slots _ member := member
  arrays a member := by
    obtain ⟨_, _, _, _, isSlot⟩ := mem_variablesOf.mp member
    cases isSlot
  noClass c member := by
    obtain ⟨_, _, _, _, isSlot⟩ := mem_variablesOf.mp member
    cases isSlot
  noObject := noObject
  unshared := unshared

end Outset

/-- A call without receiver of any function, with any arguments and however it ends, leaves the
scopes as they are and every variable of them with the value it had, provided that the variables
lead to no object and to no slot with more than one holder. Every machine that a session reaches is
sound. -/
theorem call_leaves_variables (levels : Nat) (name : String) (parameters : List String)
    (isMethod : Bool) (statements : Code.Block) (context : Compile.Context) (caller : Frame)
    (arguments : List Value) (m : Machine) (sound : m.Sound 0)
    (inside : ∀ h ∈ (caller.forCall none arguments).held, h.Within m.store.extent)
    (noObject : ∀ object, ¬ m.store.Reachable m.variables (.object object))
    (unshared : ∀ s, m.store.Reachable m.variables (.slot s) →
      m.store.isShared (m.roots ++ (caller.forCall none arguments).held) s = false) :
    let f := Compile.assembleFunction name parameters isMethod statements context
    let after := Run.left ((invoke levels f (caller.forCall none arguments)) m)
    after.scopes = m.scopes ∧
      ∀ scope ∈ m.scopes, ∀ entry ∈ scope,
        after.store.read entry.2 = m.store.read entry.2 ∧
        after.store.snapshot (after.store.read entry.2) =
          m.store.snapshot (m.store.read entry.2) := by
  intro f after
  let o : Outset := .ofCall m (caller.forCall none arguments).held
  have secluded : o.Secluded := .ofCall sound inside noObject unshared
  have untouched : o.Untouched after :=
    (secluded.call rfl levels (f := f) rfl _ (secluded.knownFrame rfl)).left
  exact ⟨untouched.1, fun scope listed entry member =>
    untouched.reads secluded (mem_variablesOf.mpr ⟨scope, listed, entry, member, rfl⟩)⟩

/-- `function f($x) { $x[] = true; return $x; }` -/
def appendsToParameter : Code.Function Code.Stmt :=
  Compile.assembleFunction "f" ["x"] false
    [.expression (.assign (.element (.implied (.variable "x")) none) (.value (.boolean true))),
      .ret (some (.load (.variable "x")))] ⟨["x"], 0⟩

/-- Whether a run gives an array of so many elements. -/
def givesArray (size : Nat) : EStateM.Result Fault Machine Value → Bool
  | .ok (.array a) m => (m.store.array a).size == size
  | _ => false

/-- Called with the array of a variable, of one element, a function that appends to its parameter
gives an array of two and leaves the variable as it was. -/
theorem call_leaves_variables_appending :
    ∃ moment ∈ (Session.create .default false [] .unlimited .unlimited).history
        [Session.assignedTwice],
      let m := moment.machine
      let ended := (invoke 1 appendsToParameter
        ((⟨[], none, []⟩ : Frame).forCall none [.array ⟨1⟩])) m
      m.scopes = [[("a", ⟨0⟩), ("b", ⟨1⟩)]] ∧ m.store.read ⟨0⟩ = .array ⟨1⟩ ∧
        givesArray 2 ended = true ∧
        (Run.left ended).scopes = m.scopes ∧
        (Run.left ended).store.snapshot ((Run.left ended).store.read ⟨0⟩) =
          m.store.snapshot (m.store.read ⟨0⟩) := by
  have reached : ((Session.create .default false [] .unlimited .unlimited).history
      [Session.assignedTwice]).any (fun moment =>
        moment.machine.scopes = [[("a", ⟨0⟩), ("b", ⟨1⟩)]] ∧
        (moment.machine.store.read ⟨0⟩).handles = [.array ⟨1⟩] ∧
        1 < moment.machine.store.arrays.size ∧ moment.machine.store.objects.size = 0 ∧
        (∀ i < moment.machine.store.slots.size,
          moment.machine.store.isShared (moment.machine.roots ++ [.array ⟨1⟩]) ⟨i⟩ = false) ∧
        givesArray 2 ((invoke 1 appendsToParameter
          ((⟨[], none, []⟩ : Frame).forCall none [.array ⟨1⟩])) moment.machine) = true) = true := by
    decide +kernel
  obtain ⟨⟨event, m⟩, passed, state⟩ := List.any_eq_true.mp reached
  obtain ⟨scopes, reads, arrays, objects, alone, returned⟩ := of_decide_eq_true state
  have sound : m.Sound 0 := Session.history_sound _ _ _ _ _ _ _ passed
  have there : ∀ h, m.store.Reachable m.variables h → h.Within m.store.extent := by
    refine fun h reachable => (reachable.alive (fun g member => ?_) sound.owned.closed).1
    obtain ⟨scope, listed, entry, inScope, rfl⟩ := mem_variablesOf.mp member
    exact sound.bound scope listed entry inScope
  have noObject : ∀ object, ¬ m.store.Reachable m.variables (.object object) := by
    intro object reachable
    have inside : object.index < m.store.objects.size := there _ reachable
    have none : m.store.objects.size = 0 := objects
    omega
  obtain ⟨kept, same⟩ := call_leaves_variables 1 "f" ["x"] false _ ⟨["x"], 0⟩ ⟨[], none, []⟩
    [.array ⟨1⟩] m sound (fun h member => List.mem_singleton.mp member ▸ arrays) noObject
    fun s reachable => alone s.index (there _ reachable)
  exact ⟨⟨event, m⟩, passed, scopes, Value.eq_of_handles reads, returned, kept,
    (same _ (scopes ▸ List.mem_singleton_self _) ("a", ⟨0⟩) List.mem_cons_self).2⟩

end TreeScript
