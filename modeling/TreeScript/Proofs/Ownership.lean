import TreeScript.Proofs.History
import TreeScript.Proofs.Store.Ownership

set_option autoImplicit false

/- No array has two owners, at any moment of any session: evaluation stores an array only where it
has just been made or copied for that. -/
namespace TreeScript

/-- A machine whose arrays have one owner at most, and whose variables, classes and loops are in
its store. -/
structure Machine.Sound (loose : Multiset ArrayId) (m : Machine) : Prop where
  owned : m.store.Owned loose
  bound : ∀ scope ∈ m.scopes, ∀ entry ∈ scope, (Handle.slot entry.2).Within m.store.extent
  classes : ∀ entry ∈ m.names.classes, (Handle.classData entry.2).Within m.store.extent
  loops : ∀ loop, some loop ∈ m.loops → (Handle.array loop.array).Within m.store.extent

namespace Machine.Sound

variable {loose loose' : Multiset ArrayId} {m : Machine}

theorem settled (sound : m.Sound loose) : m.Sound 0 :=
  ⟨sound.owned.settled, sound.bound, sound.classes, sound.loops⟩

/-- A store that has grown serves as well. -/
theorem store {st : Store} (sound : m.Sound loose) (grows : m.store.extent ≤ st.extent)
    (owned : st.Owned loose') : ({ m with store := st } : Machine).Sound loose' where
  owned := owned
  bound scope listed entry member := (sound.bound scope listed entry member).mono grows
  classes entry member := (sound.classes entry member).mono grows
  loops loop member := (sound.loops loop member).mono grows

theorem rescope {scopes : List Scope} (sound : m.Sound loose)
    (inside : ∀ scope ∈ scopes, ∀ entry ∈ scope, (Handle.slot entry.2).Within m.store.extent) :
    ({ m with scopes } : Machine).Sound loose :=
  ⟨sound.owned, inside, sound.classes, sound.loops⟩

theorem setLoop {loop : Option Loop} (sound : m.Sound loose) (slot : Nat)
    (inside : ∀ l, loop = some l → (Handle.array l.array).Within m.store.extent) :
    (m.setLoop slot loop).Sound loose where
  owned := sound.owned
  bound := sound.bound
  classes := sound.classes
  loops l member := (Discipline.mem_setLoop member).elim (sound.loops l) (inside l)

end Machine.Sound

/-- The index has the loose arrays, and the number of scopes around the current one. -/
def ownership : Discipline where
  Index := Multiset ArrayId × Nat
  good i m := m.Sound i.1 ∧ m.scopes.length = i.2 + 1
  moment moment := moment.machine.Sound 0
  known e h := h.Within e
  held e h := h.Within e
  source e h := h.Within e
  writable _ _ := True
  callable _ := True
  hold i v := (Store.withArray i.1 v, i.2)
  declare i _ := i
  inner i _ := (i.1, i.2 + 1)
  callee i _ := i
  known_mono grows inside := inside.mono grows
  held_mono grows inside := inside.mono grows
  held_of_known inside := inside
  source_mono grows inside := inside.mono grows
  source_of_known inside := inside
  known_fresh _ fresh := fresh.2
  seen good := good.1.settled
  lookup good _ := good.1.settled
  closed good inside _ := good.1.owned.closed _ inside
  defaults good inside := good.1.owned.closed _ inside
  methods _ _ := trivial
  functions _ _ := trivial
  classes good member := good.1.classes _ member
  scope {i m} good := by
    cases isScope : m.scopes with
    | nil => simp [isScope] at good
    | cons scope outer => exact ⟨scope, outer, rfl, good.1.bound scope (by simp [isScope])⟩
  loops good member := good.1.loops _ member
  hold_comm i v w := by simp only [Store.withArray_comm]
  forget good := ⟨good.1.store (le_refl _) good.1.owned.forget, good.2⟩
  plain plain good := by rwa [Store.withArray_plain plain]
  undeclare good := good
  adjust good inside change :=
    ⟨good.1.store change.grows (good.1.owned.adjust (fun _ allowed => allowed) inside change),
      good.2⟩
  newArray good := ⟨good.1.store (Store.extends_newArray _ _).grows
    (good.1.owned.newArray (by simp [ArrayData.handles, ArrayData.empty])), good.2⟩
  newClass good inside _ :=
    ⟨good.1.store (Store.extent_newClass _ _) (good.1.owned.newClass inside), good.2⟩
  copy good _ source done :=
    have ⟨owned, known⟩ := good.1.owned.copy source done
    ⟨⟨good.1.store (Store.copy_extends done).grows owned, good.2⟩, known⟩
  rebind {i m scope outer s} name good isScope inside := by
    obtain ⟨sound, length⟩ := good
    rw [isScope] at length
    refine ⟨sound.rescope (List.forall_mem_cons.mpr ⟨fun entry member => ?_, ?_⟩), length⟩
    · rcases Assoc.mem_set member with old | isNew
      · exact sound.bound scope (by simp [isScope]) entry old
      · exact isNew ▸ inside
    · exact fun other listed => sound.bound other (by simp [isScope, listed])
  extend {i m scope added outer names} good isScope inside _ := by
    obtain ⟨sound, length⟩ := good
    rw [isScope] at length
    refine ⟨sound.rescope (List.forall_mem_cons.mpr ⟨fun entry member => ?_, ?_⟩), length⟩
    · rcases List.mem_append.mp member with old | new
      · exact sound.bound scope (by simp [isScope]) entry old
      · exact inside entry new
    · exact fun other listed => sound.bound other (by simp [isScope, listed])
  setLoop slot _ good inside := ⟨good.1.setLoop slot inside, good.2⟩
  streams _ _ good := ⟨⟨good.1.owned, good.1.bound, good.1.classes, good.1.loops⟩, good.2⟩
  defineFunction good _ :=
    ⟨⟨good.1.owned, good.1.bound, good.1.classes, good.1.loops⟩, good.2⟩
  defineClass name good inside := by
    refine ⟨⟨good.1.owned, good.1.bound, fun entry member => ?_, good.1.loops⟩, good.2⟩
    rcases Assoc.mem_set member with old | isNew
    · exact good.1.classes entry old
    · exact isNew ▸ inside
  push good := ⟨good.1.rescope (List.forall_mem_cons.mpr ⟨by simp, good.1.bound⟩), by
    simp [good.2]⟩
  pop _ _ good := ⟨good.1.rescope fun scope listed =>
    good.1.bound scope (List.mem_of_mem_tail listed), by simp [good.2]⟩
  enter loopSlots good _ := by
    refine ⟨⟨good.1.owned.settled, good.1.bound, good.1.classes, good.1.loops⟩,
      ⟨⟨good.1.owned, good.1.bound, good.1.classes, fun loop member => ?_⟩, good.2⟩⟩
    exact absurd member Discipline.not_mem_blank
  leave good grows after :=
    ⟨⟨after.1.owned, after.1.bound, after.1.classes, fun loop member =>
      (good.1.loops loop member).mono grows⟩, after.2⟩
  body _ _ := Policy.fitsAll_of_free _ (fun _ _ => trivial) (fun _ => trivial)
    (fun _ => trivial) _ _

namespace Session

/-- What one program leaves to the next. -/
structure Leaves (globals : Scope) (names : Namespace) (st : Store) : Prop where
  owned : st.Owned 0
  globals : ∀ entry ∈ globals, (Handle.slot entry.2).Within st.extent
  classes : ∀ entry ∈ names.classes, (Handle.classData entry.2).Within st.extent

theorem builtin_handles : ∀ data ∈ Builtin.classes, data.handles = [] := by decide

theorem Leaves.install {globals : Scope} {n : Namespace} {st : Store}
    (leaves : Leaves globals n st) :
    Leaves globals (Builtin.install n st).1 (Builtin.install n st).2 := by
  refine install_keeps (fun b leaves => ⟨leaves.owned, leaves.globals, leaves.classes⟩) ?_ leaves
  intro n st data builtin leaves
  have grows := Store.extent_newClass st data
  refine ⟨leaves.owned.newClass (by simp [builtin_handles data builtin]), fun entry member =>
    (leaves.globals entry member).mono grows, fun entry member => ?_⟩
  rcases Assoc.mem_set member with old | isNew
  · exact (leaves.classes entry old).mono grows
  · exact isNew ▸ (Store.fresh_newClass st data).2

theorem Leaves.boot {s : Session} (leaves : Leaves s.globals s.names s.store)
    (p : Code.Program) : ownership.good ((0 : Multiset ArrayId), (0 : Nat)) (s.boot p) := by
  refine ⟨⟨leaves.owned, ?_, leaves.classes, fun loop member => ?_⟩, rfl⟩
  · exact fun scope listed => List.mem_singleton.mp listed ▸ leaves.globals
  · exact absurd member Discipline.not_mem_blank

/-- A program leaves the scope that is current at its end. -/
theorem leaves_of_sound {m : Machine} (sound : m.Sound 0) :
    Leaves (m.scopes.headD []) m.names m.store where
  owned := sound.owned
  globals := by
    cases isScope : m.scopes with
    | nil => simp
    | cons scope outer => exact sound.bound scope (by simp [isScope])
  classes := sound.classes

/-- A program begins in good order with what one before it left, and leaves as much. -/
theorem Leaves.begins {s : Session} (leaves : Leaves s.globals s.names s.store)
    (p : Code.Program) : ∃ i, ownership.good i (s.boot p) ∧ ownership.FitsAll i p.code ∧
      ∀ m, ownership.good i m → Leaves (m.scopes.headD []) m.names m.store :=
  ⟨((0 : Multiset ArrayId), (0 : Nat)), leaves.boot p,
    Policy.fitsAll_of_free _ (fun _ _ => trivial) (fun _ => trivial) (fun _ => trivial) _ _,
    fun _ good => leaves_of_sound good.1⟩

/-- Every machine that a session reaches from what a program left is sound. -/
theorem Leaves.history {s : Session} (leaves : Leaves s.globals s.names s.store)
    (trees : List Node) : ∀ moment ∈ s.history trees, moment.machine.Sound 0 :=
  history_keeps (D := ownership) (P := Leaves) Leaves.install (fun leaves _ => leaves.begins _) trees
    leaves

theorem Leaves.evaluate {s : Session} (leaves : Leaves s.globals s.names s.store) (tree : Node) :
    Leaves (s.evaluate tree).2.globals (s.evaluate tree).2.names (s.evaluate tree).2.store :=
  (evaluate_keeps (D := ownership) (P := Leaves) Leaves.install (fun leaves _ => leaves.begins _) tree
    leaves).2

/-- Every machine that a session ever reaches is sound. -/
theorem history_sound (config : Config) (builtins : Bool) (stdin : List String)
    (stdout stderr : Output) (trees : List Node) :
    ∀ moment ∈ (create config builtins stdin stdout stderr).history trees,
      moment.machine.Sound 0 := by
  have start : Leaves (create config builtins stdin stdout stderr).globals
      (create config builtins stdin stdout stderr).names .empty := by
    rw [names_create]
    exact ⟨Store.owned_empty, by simp [create], by simp [Namespace.empty]⟩
  exact start.history trees

/-- At every moment of every session an array has one owner at most; so what is written, appended
or vivified through one slot shows through no other. -/
theorem array_has_one_owner (config : Config) (builtins : Bool) (stdin : List String)
    (stdout stderr : Output) (trees : List Node) (moment : Moment)
    (passed : moment ∈ (create config builtins stdin stdout stderr).history trees) :
    (∀ (s t : SlotId) (a : ArrayId), moment.machine.store.read s = .array a →
      moment.machine.store.read t = .array a → s = t) ∧
    ∀ (spot : Spot) (s t : SlotId) (v : Value), t ≠ s →
      (Handle.slot t).Within moment.machine.store.extent →
      (moment.machine.store.Writes s spot →
        (moment.machine.store.put spot v).behind t = moment.machine.store.behind t) ∧
      (moment.machine.store.Reaches s spot →
        (moment.machine.store.slotAt spot).2.behind t = moment.machine.store.behind t) := by
  have owned := (history_sound config builtins stdin stdout stderr trees moment passed).owned
  refine ⟨owned.single, fun spot s t v apart there => ⟨fun writes => ?_, fun reaches => ?_⟩⟩
  · exact owned.behind_put writes apart there v
  · exact owned.behind_slotAt reaches apart there

/-- `$a = [true]; $b = $a;` -/
def assignedTwice : Node := .program [
  .expressionStatement (.expression (.variable "a" false) [⟨"=", .arrayLiteral [.boolean true]⟩]),
  .expressionStatement (.expression (.variable "b" false) [⟨"=", .variable "a" false⟩])]

/-- Two variables of one array value have an array each, and an append through the first does not
show through the second. -/
theorem array_has_one_owner_assigned :
    ∃ moment ∈ (create .default false [] .unlimited .unlimited).history [assignedTwice],
      moment.machine.store.read ⟨0⟩ = .array ⟨1⟩ ∧ moment.machine.store.read ⟨1⟩ = .array ⟨2⟩ ∧
      (moment.machine.store.put (.append ⟨1⟩) .null).behind ⟨1⟩ =
        moment.machine.store.behind ⟨1⟩ := by
  have reached : ((create .default false [] .unlimited .unlimited).history [assignedTwice]).any
      (fun moment => (moment.machine.store.read ⟨0⟩).handles = [.array ⟨1⟩] ∧
        (moment.machine.store.read ⟨1⟩).handles = [.array ⟨2⟩] ∧
        1 < moment.machine.store.slots.size) = true := by decide +kernel
  obtain ⟨moment, passed, state⟩ := List.any_eq_true.mp reached
  obtain ⟨first, second, there⟩ := of_decide_eq_true state
  have first := Value.eq_of_handles first
  have second := Value.eq_of_handles second
  obtain ⟨-, apart⟩ := array_has_one_owner .default false [] .unlimited .unlimited
    [assignedTwice] moment passed
  exact ⟨moment, passed, first, second,
    (apart (.append ⟨1⟩) ⟨0⟩ ⟨1⟩ .null (by decide) there).1 first⟩

end Session
end TreeScript
