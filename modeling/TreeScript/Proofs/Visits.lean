import TreeScript.Proofs.Operands
import TreeScript.Proofs.Store.Placement
import TreeScript.Proofs.Visits.Rounds

set_option autoImplicit false

/- A loop visits the array that it started with: each of its elements once, in their order, whatever
its body does. By reference it takes up the slots that are there when it comes to them. By value it
walks a copy, and where nothing within the array is shared that copy is the loop's own, so that each
element is as it was at the start. -/
namespace TreeScript

open Code (Expr slotsOf)
open Store (Copied Extends Fresh Guards Placed Private)

theorem Machine.loops_setLoop (m : Machine) (slot : Nat) (loop : Option Loop) :
    (m.setLoop slot loop).loops[slot]? = some loop := by
  apply List.getElem?_set_self
  simp
  omega

theorem Machine.mark_setLoop (m : Machine) (slot : Nat) (loop loop' : Option Loop) :
    (m.setLoop slot loop).mark slot loop' = m.setLoop slot loop' := by
  simp [mark, withLoops, setLoop]

/-! Where a loop begins -/

/-- The machine when a loop starts: the pointer of the array is at the first element. -/
def Machine.resetting (m : Machine) (source : ArrayId) : Machine :=
  { m with store := m.store.setArray source (m.store.array source).reset }

/-- No element slot of the array, at any depth, has a second holder. -/
def Machine.ElementsUnshared (m : Machine) (held : List Handle) (source : ArrayId) : Prop :=
  ∀ s, Private (fun _ => false) m.store (.array source) (.slot s) →
    m.store.isShared (m.roots ++ [.array source] ++ held) s = false

namespace LoopCode

/-- What is taken up at a position, on the machine on which its round begins. By reference it is the
slot that is there then. The key is the one that was there at the start; and so is the value, by
value and where nothing is shared, when it is assigned: arrays are copies, all else is the same. -/
structure Binds (code : LoopCode) (user : UserCall) (inside : Frame) (start : Machine)
    (held : List Handle) (source : ArrayId) (i : Nat) (m : Machine) (k : Key) (s : SlotId) :
    Prop where
  reference : code.byReference = true → (m.store.array source).elements[i]? = some (k, s)
  value : ∃ s₀, (start.store.array source).elements[i]? = some (k, s₀) ∧
    (code.byReference = false → start.ElementsUnshared held source → ∀ m₂ l m₃,
      (assignKey user (taking inside s) k code.key) m = .ok () m₂ →
      (evalPlace user (taking inside s) .write code.value) m₂ = .ok l m₃ →
      Copied (fun _ => false) start.store m₃.store (start.store.read s₀) (m₃.store.read s))

end LoopCode

namespace Reserve

/-- A loop that has nothing to itself. -/
def bare (st : Store) (a : ArrayId) : Reserve := ⟨st, a, fun _ => False⟩

theorem sealed_bare (st : Store) (a : ArrayId) : (bare st a).Sealed where
  inside _ own := own.elim
  things _ own := own.elim
  elements _ own := own.elim
  closed _ own := own.elim
  top _ own := own.elim
  once _ own := own.elim
  single _ own := own.elim

/-- A loop that has the array it walks to itself, with all that is in it. -/
def whole (st : Store) (a : ArrayId) : Reserve := ⟨st, a, Private (fun _ => false) st (.array a)⟩

section copy

variable {st st' : Store} {source a : ArrayId}

theorem sealed_whole (owned : st'.Owned {a})
    (copied : Copied (fun _ => false) st st' (.array source) (.array a))
    (placed : Placed st st' []) : (whole st' a).Sealed where
  inside h own := (copied.private_new own).1.2
  things h own := by
    cases own with
    | array _ => exact .inr ⟨_, rfl⟩
    | slot _ _ _ => exact .inl ⟨_, rfl⟩
    | inner _ _ => exact .inr ⟨_, rfl⟩
  elements b own h member := by
    obtain ⟨entry, _, rfl⟩ := List.mem_map.mp member
    exact .slot own member rfl
  closed s _ := owned.read_within s
  top s _ := owned.unheld a (Multiset.mem_singleton_self a) s
  once s own b := (Nat.le_add_right _ _).trans (placed.once s (copied.private_new own).1.1 b)
  single s own := placed.single s (copied.private_new own).1.1

/-- Nothing but the loop's own leads to it. -/
theorem confined_whole (owned : st'.Owned {a})
    (copied : Copied (fun _ => false) st st' (.array source) (.array a)) (ext : Extends st st')
    (closed : st.Closed) (placed : Placed st st' []) :
    st'.Confined fun h => ¬ (whole st' a).own h := by
  intro h known isThing g member
  refine ⟨owned.closed h known.1 g member, fun own => known.2 ?_⟩
  have new := (copied.private_new own).1.1
  cases own with
  | array isArray =>
      cases isArray
      cases h with
      | slot s =>
          rcases Value.mem_handles member with ⟨_, reads, same⟩ | ⟨_, _, same⟩
          · cases same
            exact absurd reads (owned.unheld a (Multiset.mem_singleton_self a) s)
          · cases same
      | array b => simp [Store.holds, ArrayData.handles] at member
      | object o => simp [Store.holds, ObjectData.handles] at member
      | classData c => exact absurd rfl (isThing c)
  | @inner t b holder reads =>
      cases h with
      | slot s =>
          rcases Value.mem_handles member with ⟨_, reads', same⟩ | ⟨_, _, same⟩
          · cases same
            exact owned.single t s b reads reads' ▸ holder
          · cases same
      | array b => simp [Store.holds, ArrayData.handles] at member
      | object o => simp [Store.holds, ObjectData.handles] at member
      | classData c => exact absurd rfl (isThing c)
  | @slot b s owner within unshared =>
      cases h with
      | slot t =>
          rcases Value.mem_handles member with ⟨_, _, same⟩ | ⟨_, _, same⟩ <;> cases same
      | array c => exact placed.single s new c b member within ▸ owner
      | object o =>
          -- objects are as they were before the copy, and have none of its slots
          have same : st'.object o = st.object o := by simp only [Store.object, ext.objects]
          have inside : (Handle.object o).Within st.extent := by
            simpa [Handle.Within, Store.extent, ext.objects] using known.1
          refine absurd (closed (.object o) inside _ ?_) new
          simpa only [Store.holds, same] using member
      | classData c => exact absurd rfl (isThing c)

end copy

variable {r : Reserve} {frame : Frame} {start : Machine}

/-- A loop begins with everything in order. -/
theorem At.begin (suits : frame.Suits start) (ext : Extends start.store r.store)
    (old : ∀ h : Handle, h.Within start.store.extent → ¬ r.own h)
    (confined : r.store.Confined fun h => ¬ r.own h) (slot length : Nat) :
    r.At slot (start.scopes.length - 1) length 0
      (({ start with store := r.store } : Machine).setLoop slot
        (some ⟨r.array, length, 0⟩)) := by
  have known : ∀ h : Handle, h.Within start.store.extent → r.Known r.store.extent h :=
    fun h inside => ⟨inside.mono ext.grows, old h inside⟩
  refine ⟨Machine.loops_setLoop _ _ _, ?_⟩
  rw [Machine.mark_setLoop]
  refine ⟨.refl _ _, fun _ => rfl, List.prefix_rfl, suits.length,
    fun scope listed entry member => known _ (suits.sound.bound scope listed entry member), confined,
    fun c inside g member => ?_, fun entry member => known _ (suits.sound.classes entry member),
    fun loop member => ?_⟩
  · have inside : (Handle.classData c).Within r.store.extent := inside
    have member : g ∈ r.store.holds (.classData c) := member
    have before : (Handle.classData c).Within start.store.extent := by
      simpa [Handle.Within, Store.extent, ext.classes] using inside
    refine known g (suits.sound.owned.closed _ before g ?_)
    simpa only [Store.holds, Store.classData, ext.classes] using member
  · rcases Discipline.mem_setLoop member with earlier | none
    · exact known _ (suits.sound.loops loop earlier)
    · cases none

theorem knownFrame (isSealed : r.Sealed) (suits : frame.Suits start)
    (ext : Extends start.store r.store)
    (old : ∀ h : Handle, h.Within start.store.extent → ¬ r.own h) (arrays : List ArrayId)
    (inside : ∀ a ∈ arrays, (Handle.array a).Within r.store.extent) :
    (r.seclusion isSealed).KnownFrame r.store.extent (frame.holding (arrays.map .array)) := by
  have known : ∀ h ∈ frame.held, r.Known r.store.extent h := fun h member =>
    ⟨(suits.inside h member).mono ext.grows, old h (suits.inside h member)⟩
  refine ⟨List.forall_mem_append.mpr ⟨?_, fun h member => (known h member).mayHold⟩,
    fun v passed h member => (known h (suits.arguments v passed h member)).mayCopy,
    fun v passed h member => (known h (suits.receiver v passed h member)).mayCopy⟩
  exact List.forall_mem_map.mpr fun a member => ⟨inside a member, fun s => Handle.noConfusion⟩

end Reserve

/-! What is taken up -/

/-- Where the keys of one list begin with those of another, so do the keys of its entries. -/
theorem entry_of_keys {first second : List (Key × SlotId)} {i : Nat} {k : Key} {s : SlotId}
    (order : Assoc.keys first <+: Assoc.keys second) (left : i < first.length)
    (found : second[i]? = some (k, s)) : ∃ s₀, first[i]? = some (k, s₀) := by
  have same := List.prefix_iff_getElem?.mp order i (by simpa [Assoc.keys] using left)
  simp only [Assoc.keys, List.getElem?_map, found, Option.map_some, Option.some.injEq,
    List.getElem_map] at same
  exact ⟨first[i].2, by rw [List.getElem?_eq_getElem left, same]⟩

section

variable {code : LoopCode} {levels slot depth i : Nat} {inside : Frame} {start m : Machine}
  {held : List Handle} {source a : ArrayId} {st : Store} {k : Key} {s : SlotId}

theorem binds_reference (byReference : code.byReference = true)
    (at_ : (Reserve.bare start.store source).At slot depth
      (start.store.array source).elements.length (i + 1) m)
    (left : i < (start.store.array source).elements.length)
    (element : (m.store.array source).elements[i]? = some (k, s)) :
    code.Binds (invoke levels) inside start held source i m k s := by
  obtain ⟨s₀, before⟩ := entry_of_keys at_.kept.keys left element
  exact ⟨fun _ => element, s₀, before, fun byValue => by simp [byReference] at byValue⟩

theorem binds_shared (byValue : code.byReference = false)
    (shared : ¬ start.ElementsUnshared held source)
    (keys : Assoc.keys (st.array a).elements = Assoc.keys (start.store.array source).elements)
    (at_ : (Reserve.bare st a).At slot depth (start.store.array source).elements.length (i + 1) m)
    (left : i < (start.store.array source).elements.length)
    (element : (m.store.array a).elements[i]? = some (k, s)) :
    code.Binds (invoke levels) inside start held source i m k s := by
  have order : Assoc.keys (st.array a).elements <+: Assoc.keys (m.store.array a).elements :=
    at_.kept.keys
  obtain ⟨s₀, before⟩ := entry_of_keys (keys ▸ order) left element
  exact ⟨fun byReference => by simp [byValue] at byReference, s₀, before,
    fun _ unshared => absurd unshared shared⟩

/-- The loop's own copy is as it was made when an element of it is taken up. -/
theorem binds_whole (byValue : code.byReference = false)
    (copied : Copied (fun _ => false) start.store st (.array source) (.array a))
    (isSealed : (Reserve.whole st a).Sealed)
    (known : ((Reserve.whole st a).seclusion isSealed).KnownFrame st.extent inside)
    (at_ : (Reserve.whole st a).At slot depth (start.store.array source).elements.length (i + 1) m)
    (left : i < (start.store.array source).elements.length)
    (element : (m.store.array a).elements[i]? = some (k, s)) :
    code.Binds (invoke levels) inside start held source i m k s := by
  have own : (Reserve.whole st a).own (.array a) := .array rfl
  have same : (m.store.array a).elements = (st.array a).elements := at_.kept.elements own
  rw [same] at element
  cases copied with
  | plain plain => exact absurd rfl (plain source)
  | array new nextIndex pointer keys _ fresh copies =>
      obtain ⟨s₀, before⟩ := entry_of_keys (keys ▸ List.prefix_rfl) left element
      have paired : ((k, s₀), (k, s)) ∈ Store.elementPairs start.store st source a := by
        apply List.mem_of_getElem? (i := i)
        simp only [Store.elementPairs, List.getElem?_zip_eq_some]
        exact ⟨before, element⟩
      have member : .slot s ∈ (st.array a).handles :=
        List.mem_map.mpr ⟨(k, s), List.mem_of_getElem? element, rfl⟩
      have ownSlot : (Reserve.whole st a).own (.slot s) := .slot own member rfl
      refine ⟨fun byReference => by simp [byValue] at byReference, s₀, before, ?_⟩
      intro _ _ m₂ l m₃ assigned located
      have there : .slot s ∈ (m.store.array a).handles := by
        simpa only [ArrayData.handles, same] using member
      have holds : (Reserve.whole st a).MayHold m.store.extent (.slot s) :=
        at_.kept.element isSealed there
      have final := at_.located isSealed ((known.mono at_.kept.guards.grows).holding
        (Discipline.Holds.cons holds (by simp [Discipline.Holds]))) assigned located
      have reads : m₃.store.read s = st.read s := final.kept.read_own ownSlot
      rw [reads]
      have nested : ∀ {h}, Private (fun _ => false) st (st.read s) h → (Reserve.whole st a).own h :=
        fun within => within.nested fun _ reads => .inner ownSlot reads
      refine (copies _ paired rfl).guarded final.kept.guards fun h within => ⟨nested within, ?_⟩
      rintro rfl
      cases within with
      | array isArray => exact isSealed.top s ownSlot isArray
      | inner holder reads => exact isSealed.top _ (nested holder) reads

end

/-! The loop as a whole -/

theorem run_foreach {user : UserCall} {frame : Frame} {slot : Nat} {array : Expr} {code : LoopCode}
    {m m₁ n : Machine} {source a : ArrayId}
    (evaluated : (evalExpr user frame array) m = .ok (.array source) m₁)
    (walked : (walkedArray frame.held code.byReference source) (m₁.resetting source) =
      .ok (.array a) n) :
    (execStmt user frame
        (.foreach slot array code.key code.value code.byReference code.body)) m =
      Run.after (·.setLoop slot none)
        ((walk slot (code.round user (frame.holding [.array source, .array a]))
            (n.store.array a).elements.length)
          (n.setLoop slot (some ⟨a, (n.store.array a).elements.length, 0⟩))) := by
  have reset : (Run.alter fun st => st.setArray source (st.array source).reset).run m₁ =
      .ok () (m₁.resetting source) := rfl
  rw [execStmt, Run.run_bind evaluated, Run.run_bind reset, Run.run_bind walked]
  exact run_inLoop slot _ _ n

theorem run_foreach_endless {user : UserCall} {frame : Frame} {slot : Nat} {array : Expr}
    {code : LoopCode} {m m₁ : Machine} {source : ArrayId} (byValue : code.byReference = false)
    (evaluated : (evalExpr user frame array) m = .ok (.array source) m₁)
    (endless : (m₁.resetting source).store.copy
      ((m₁.resetting source).roots ++ [.array source] ++ frame.held) (.array source) = none) :
    (execStmt user frame
        (.foreach slot array code.key code.value code.byReference code.body)) m =
      .error .endless (m₁.resetting source) := by
  have reset : (Run.alter fun st => st.setArray source (st.array source).reset).run m₁ =
      .ok () (m₁.resetting source) := rfl
  have copied : (walkedArray frame.held code.byReference source).run (m₁.resetting source) =
      .error .endless (m₁.resetting source) := by
    rw [byValue]
    exact Run.run_copyValue_none endless
  rw [execStmt, Run.run_bind evaluated, Run.run_bind reset]
  exact Run.run_bind_error copied

section

variable {frame : Frame} {m₁ : Machine} {levels : Nat} {source : ArrayId}

/-- The frame suits the machine when the loop starts. -/
theorem Frame.Suits.resetting (suits : frame.Suits m₁)
    (inside : (Handle.array source).Within m₁.store.extent) :
    frame.Suits (m₁.resetting source) := by
  have keeps : ownership.Keeps ((0 : Multiset ArrayId), m₁.scopes.length - 1) m₁.store.extent
      Discipline.Any (Run.alter fun st => st.setArray source (st.array source).reset) :=
    Discipline.pointer_meets inside ArrayData.reset fun _ => rfl
  exact (@Frame.Suits.evaluation _ _ _ 0 _ (fun _ => Run.alter _) _ _ suits (.alter _) keeps rfl).2.1

/-- The rounds of a loop from its start. -/
theorem Reserve.rounds {r : Reserve} {start : Machine} {code : LoopCode} {slot : Nat}
    {Binds : Nat → Machine → Key → SlotId → Prop} (isSealed : r.Sealed)
    (suits : frame.Suits start) (ext : Extends start.store r.store)
    (old : ∀ h : Handle, h.Within start.store.extent → ¬ r.own h)
    (confined : r.store.Confined fun h => ¬ r.own h)
    (inside : (Handle.array source).Within start.store.extent ∧
      (Handle.array r.array).Within r.store.extent)
    (others : slot ∉ slotsOf code.body) (shared : code.byReference = true → ∀ h, ¬ r.own h)
    (binds : ∀ {i n k s}, (r.seclusion isSealed).KnownFrame r.store.extent
        (frame.holding [.array source, .array r.array]) →
      i < (r.store.array r.array).elements.length →
      r.At slot (start.scopes.length - 1) (r.store.array r.array).elements.length (i + 1) n →
      (n.store.array r.array).elements[i]? = some (k, s) → Binds i n k s) :
    code.Rounds (invoke levels) (frame.holding [.array source, .array r.array]) slot
      (r.store.array r.array).elements.length Binds 0
      (({ start with store := r.store } : Machine).setLoop slot
        (some ⟨r.array, (r.store.array r.array).elements.length, 0⟩))
      ((walk slot (code.round (invoke levels) (frame.holding [.array source, .array r.array]))
          (r.store.array r.array).elements.length)
        (({ start with store := r.store } : Machine).setLoop slot
          (some ⟨r.array, (r.store.array r.array).elements.length, 0⟩))) := by
  have known : (r.seclusion isSealed).KnownFrame r.store.extent
      (frame.holding [.array source, .array r.array]) :=
    knownFrame isSealed suits ext old [source, r.array] (by
      simpa using ⟨inside.1.mono ext.grows, inside.2⟩)
  exact Reserve.At.rounds isSealed others (le_refl _) known shared (binds known) _ (Nat.zero_add _)
    (.begin suits ext old confined slot _)

end

/-- A loop over an array that starts, as it does unless the copy that it is to walk does not end,
goes through all positions of the array in their order, with one round of its body for each, unless
the body returns or fails. There is always an element at the position. By reference it is the slot
that is there when its round begins; by value, where no element slot of the array at any depth is
shared when the loop starts, it is what the array held at the start. -/
theorem foreach_visits_each_once (node : Node) (context context' : Compile.Context) (slot : Nat)
    (array : Expr) (code : LoopCode)
    (compiled : Compile.statement node context =
      .ok (.foreach slot array code.key code.value code.byReference code.body, context'))
    (levels : Nat) (frame : Frame) (m m₁ : Machine) (source : ArrayId) (suits : frame.Suits m)
    (evaluated : (evalExpr (invoke levels) frame array) m = .ok (.array source) m₁) :
    (code.byReference = false ∧
      (m₁.resetting source).store.copy
        ((m₁.resetting source).roots ++ [.array source] ++ frame.held) (.array source) = none ∧
      (execStmt (invoke levels) frame
          (.foreach slot array code.key code.value code.byReference code.body)) m =
        .error .endless (m₁.resetting source)) ∨
    ∃ a st result, Extends (m₁.resetting source).store st ∧
      code.Rounds (invoke levels) (frame.holding [.array source, .array a]) slot
        (m₁.store.array source).elements.length
        (code.Binds (invoke levels) (frame.holding [.array source, .array a])
          (m₁.resetting source) frame.held source) 0
        (({ m₁.resetting source with store := st } : Machine).setLoop slot
          (some ⟨a, (m₁.store.array source).elements.length, 0⟩)) result ∧
      (execStmt (invoke levels) frame
          (.foreach slot array code.key code.value code.byReference code.body)) m =
        Run.after (·.setLoop slot none) result := by
  obtain ⟨-, suits₁, insideSource⟩ := suits.evalExpr suits evaluated
  have insideSource : (Handle.array source).Within m₁.store.extent :=
    insideSource _ List.mem_cons_self
  have start := suits₁.resetting insideSource
  have size : ((m₁.resetting source).store.array source).elements.length =
      (m₁.store.array source).elements.length := by
    simp only [Machine.resetting, Store.array_setArray]
    split <;> rfl
  have others : slot ∉ slotsOf code.body := by
    obtain ⟨n, -, slots⟩ := Compile.statement_takes node compiled
    have distinct : (Code.Stmt.slots (.foreach slot array code.key code.value code.byReference
        code.body)).Nodup := slots ▸ List.nodup_range'
    rw [Code.Stmt.slots] at distinct
    exact (List.nodup_cons.mp distinct).1
  have insideSource : (Handle.array source).Within (m₁.resetting source).store.extent := by
    simpa [Machine.resetting, Handle.Within, Store.extent, Store.setArray] using insideSource
  have closed : (m₁.resetting source).store.Closed := start.sound.owned.closed
  cases byReference : code.byReference with
  | true =>
      have walked : (walkedArray frame.held code.byReference source) (m₁.resetting source) =
          .ok (.array source) (m₁.resetting source) := by
        rw [byReference]
        rfl
      refine .inr ⟨source, (m₁.resetting source).store, _, .refl _, ?_,
        byReference ▸ run_foreach evaluated walked⟩
      rw [← size]
      refine Reserve.rounds (Reserve.sealed_bare _ source) start (.refl _) (fun _ _ => id) ?_
        ⟨insideSource, insideSource⟩ others (fun _ _ => id) fun _ left at_ element =>
        binds_reference byReference at_ left element
      exact fun h known isThing g member => ⟨closed h known.1 g member, id⟩
  | false =>
      cases done : (m₁.resetting source).store.copy
          ((m₁.resetting source).roots ++ [.array source] ++ frame.held) (.array source) with
      | none => exact .inl ⟨rfl, rfl, byReference ▸ run_foreach_endless byReference evaluated done⟩
      | some made =>
          obtain ⟨v, st⟩ := made
          have within : ∀ h ∈ (Value.array source).handles,
              h.Within (m₁.resetting source).store.extent := by
            simpa [Value.handles] using insideSource
          have ext := Store.copy_extends done
          have copied := Store.copy_copied closed within done
          have placed := Store.copy_placed closed within done
          obtain ⟨owned, insideCopy⟩ := start.sound.owned.copy within done
          obtain ⟨a, rfl, keys⟩ : ∃ a, v = .array a ∧ Assoc.keys (st.array a).elements =
              Assoc.keys ((m₁.resetting source).store.array source).elements := by
            cases copied with
            | plain plain => exact absurd rfl (plain source)
            | array _ _ _ keys _ _ _ => exact ⟨_, rfl, keys⟩
          have insideCopy : (Handle.array a).Within st.extent := insideCopy _ List.mem_cons_self
          have length : (st.array a).elements.length =
              (m₁.store.array source).elements.length := by
            simpa [Assoc.keys, size] using congrArg List.length keys
          have walked : (walkedArray frame.held code.byReference source) (m₁.resetting source) =
              .ok (.array a) { m₁.resetting source with store := st } := by
            rw [byReference]
            exact Run.run_copyValue done
          refine .inr ⟨a, st, _, ext, ?_, byReference ▸ run_foreach evaluated walked⟩
          rw [← length]
          by_cases unshared : (m₁.resetting source).ElementsUnshared frame.held source
          · have copied := copied.unshared unshared
            refine Reserve.rounds (Reserve.sealed_whole owned copied placed) start ext
              (fun h old own => (copied.private_new own).1.1 old)
              (Reserve.confined_whole owned copied ext closed placed) ⟨insideSource, insideCopy⟩
              others (by simp [byReference]) fun known left at_ element => ?_
            exact binds_whole byReference copied _ known (size ▸ length ▸ at_) (size ▸ length ▸ left)
              element
          · refine Reserve.rounds (Reserve.sealed_bare st a) start ext (fun _ _ => id) ?_
              ⟨insideSource, insideCopy⟩ others (fun _ _ => id) fun _ left at_ element => ?_
            · exact fun h known isThing g member => ⟨owned.closed h known.1 g member, id⟩
            · exact binds_shared byReference unshared keys (size ▸ length ▸ at_)
                (size ▸ length ▸ left) element

/-- `foreach ($a = [true, [false]] as $k => $v) { $a[] = $v; $v = null; }` -/
def appendsWhileWalking : Node :=
  .foreachStatement
    (.expression (.variable "a" false)
      [⟨"=", .arrayLiteral [.boolean true, .arrayLiteral [.boolean false]]⟩])
    (some (.variable "k" false)) (.variable "v" false)
    [.expressionStatement (.expression (.arrayIndex (.variable "a" false) [none] false)
        [⟨"=", .variable "v" false⟩]),
      .expressionStatement (.expression (.variable "v" false) [⟨"=", .string "null"⟩])]

/-- The machine before it, with its variables declared. -/
def beforeWalking : Machine :=
  Run.left ((defineVariables ["a", "k", "v"]) (.idle [] (.empty rootPath) .empty))

/-- The array that the loop is over. -/
def walkedLiteral : Expr :=
  .assign (.variable "a") (.value (.array
    [.value (.boolean true), .value (.array [.value (.boolean false)])]))

/-- What the loop does for each element. -/
def appendingCode : LoopCode :=
  ⟨some (.variable "k"), .variable "v", false,
    [.expression (.assign (.element (.implied (.variable "a")) none)
        (.value (.load (.variable "v")))),
      .expression (.assign (.variable "v") (.value .null))]⟩

/-- A loop that appends to the array it is over, and changes its variable, has a round for each of
the two elements that were there. -/
theorem foreach_visits_each_once_appending :
    ∃ m₁ source a st result,
      Compile.statement appendsWhileWalking ⟨[], 0⟩ = .ok (.foreach 0 walkedLiteral
        appendingCode.key appendingCode.value appendingCode.byReference appendingCode.body,
        ⟨["a", "k", "v"], 1⟩) ∧
      (evalExpr (invoke 1) programFrame walkedLiteral) beforeWalking = .ok (.array source) m₁ ∧
      appendingCode.Rounds (invoke 1) (programFrame.holding [.array source, .array a]) 0 2
        (appendingCode.Binds (invoke 1) (programFrame.holding [.array source, .array a])
          (m₁.resetting source) [] source) 0
        (({ m₁.resetting source with store := st } : Machine).setLoop 0 (some ⟨a, 2, 0⟩)) result ∧
      (execStmt (invoke 1) programFrame (.foreach 0 walkedLiteral appendingCode.key
          appendingCode.value appendingCode.byReference appendingCode.body)) beforeWalking =
        Run.after (·.setLoop 0 none) result ∧
      endsNormally (Run.after (·.setLoop 0 none) result) = true := by
  have empty : programFrame.Suits (.idle [] (.empty rootPath) .empty) := {
    sound := ⟨Store.owned_empty, by simp [Machine.idle],
      by simp [Machine.idle, Namespace.empty], by simp [Machine.idle]⟩
    scopes := by simp [Machine.idle]
    inside := by simp [programFrame]
    arguments := by simp [programFrame]
    receiver := by simp [programFrame]
    loops := by simp [Machine.idle] }
  have suits : programFrame.Suits beforeWalking :=
    (@Frame.Suits.evaluation _ _ _ 0 _ (fun _ => defineVariables ["a", "k", "v"]) _ _ empty
      (defineVariables_uniform _) (Discipline.defineVariables_meets _) rfl).2.1
  have runs : Run.Ends (fun v m₁ => v.handles = [.array ⟨4⟩] ∧
        (m₁.store.array ⟨4⟩).elements.length = 2 ∧
        endsNormally ((execStmt (invoke 1) programFrame (.foreach 0 walkedLiteral appendingCode.key
          appendingCode.value appendingCode.byReference appendingCode.body)) beforeWalking) = true)
      (fun _ _ => False) ((evalExpr (invoke 1) programFrame walkedLiteral) beforeWalking) := by
    decide +kernel
  cases ran : (evalExpr (invoke 1) programFrame walkedLiteral) beforeWalking with
  | error f m₁ =>
      rw [ran] at runs
      exact runs.elim
  | ok v m₁ =>
      rw [ran] at runs
      obtain ⟨isArray, two, ended⟩ := runs
      obtain rfl := Value.eq_of_handles isArray
      have visits := foreach_visits_each_once appendsWhileWalking ⟨[], 0⟩ _ 0 walkedLiteral
        appendingCode rfl 1 programFrame beforeWalking m₁ ⟨4⟩ suits ran
      rw [two] at visits
      rcases visits with ⟨-, -, endless⟩ | ⟨a, st, result, -, rounds, same⟩
      · simp [endless, endsNormally] at ended
      · exact ⟨m₁, ⟨4⟩, a, st, result, rfl, rfl, rounds, same, same ▸ ended⟩

end TreeScript
