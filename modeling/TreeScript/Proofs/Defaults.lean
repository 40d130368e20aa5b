import TreeScript.Proofs.Defaults.Begin
import TreeScript.Proofs.Defaults.Declaration
import TreeScript.Proofs.Isolation
import TreeScript.Proofs.Store.Nesting

set_option autoImplicit false

/- The defaults of a class are copied into each new object, but the class keeps the very arrays that
its declaration evaluated. Where it has them to itself, no later execution changes what an object
begins with; where one of them is in a variable still, an append to the variable does. -/
namespace TreeScript

open Relation (ReflTransGen TransGen)
open Store (Extends Guards)

/-- The machine between two programs, as far as it matters. -/
def Machine.idle (globals : Scope) (names : Namespace) (st : Store) : Machine :=
  ⟨st, [globals], names, [], .unlimited, 0, 0, []⟩

/-! Defaults that a class has to itself -/

namespace Outset

variable {o : Outset}

/-- An array that is kept nests in nothing, so that nothing within it nests in itself. -/
theorem Secluded.no_cycle (secluded : o.Secluded) {a b : ArrayId} (kept : .array a ∈ o.kept)
    (path : ReflTransGen (o.machine.store.Nests (o.machine.store.isShared o.roots)) a b) :
    ¬ TransGen (o.machine.store.Nests (o.machine.store.isShared o.roots)) b b := by
  intro cycle
  have owned := secluded.sound.owned
  have back := owned.nests_back
    (fun h reachable => reachable.alive secluded.roots_within owned.closed)
    (secluded.rooted _ kept) path cycle
  obtain ⟨c, around, s, member, -, reads⟩ := TransGen.tail'_iff.mp back
  have ours : o.Belongs (.array c) := Store.reachable_of_nests (.root kept) around
  exact (secluded.alive (ours.holds member)).2 (secluded.arrays a kept s reads)

namespace Intact

variable {depth : Nat} {m : Machine} {shared : SlotId → Bool}

/-- What is kept nests as at the outset. -/
theorem nests (intact : o.Intact depth m) (secluded : o.Secluded) {a b : ArrayId}
    (ours : o.Belongs (.array a)) (nests : m.store.Nests shared a b) :
    o.machine.store.Nests (o.machine.store.isShared o.roots) a b ∧ o.Belongs (.array b) := by
  obtain ⟨s, member, -, reads⟩ := nests
  rw [intact.guards.arrays a (.inl ours)] at member
  have slot : o.Belongs (.slot s) := ours.holds member
  rw [intact.guards.slots s (.inl slot)] at reads
  exact ⟨⟨s, member, secluded.unshared s slot, reads⟩,
    slot.holds (by simp [Store.holds, reads, Value.handles])⟩

theorem nests_path (intact : o.Intact depth m) (secluded : o.Secluded) {a b : ArrayId}
    (ours : o.Belongs (.array a)) (path : ReflTransGen (m.store.Nests shared) a b) :
    ReflTransGen (o.machine.store.Nests (o.machine.store.isShared o.roots)) a b ∧
      o.Belongs (.array b) := by
  induction path with
  | refl => exact ⟨.refl, ours⟩
  | tail _ last ih =>
      obtain ⟨next, within⟩ := intact.nests secluded ih.2 last
      exact ⟨ih.1.tail next, within⟩

/-- So a copy of an array that is kept ends. -/
theorem copy_ends (intact : o.Intact depth m) (secluded : o.Secluded) (closed : m.store.Closed)
    {a : ArrayId} (kept : .array a ∈ o.kept) {st : Store} (ext : Extends m.store st)
    (roots : List Handle) : (st.copy roots (.array a)).isSome = true := by
  have inside : (Handle.array a).Within m.store.extent :=
    (secluded.alive (.root kept)).1.mono intact.guards.grows
  refine Store.copy_isSome_of_extends closed inside (fun shared b path cycle => ?_) ext
  obtain ⟨path, ours⟩ := intact.nests_path secluded (.root kept) path
  obtain ⟨c, first, rest⟩ := TransGen.head'_iff.mp cycle
  obtain ⟨first, within⟩ := intact.nests secluded ours first
  obtain ⟨rest, -⟩ := intact.nests_path secluded within rest
  exact secluded.no_cycle kept path (.head' first rest)

end Intact

/-- The outset of a run from which the defaults of a class are kept. -/
def ofClass (m : Machine) (held : List Handle) (c : ClassId) : Outset :=
  ⟨m, held, (m.store.classData c).handles, []⟩

/-- The defaults show what they showed, and so does the beginning of an object. -/
theorem Intact.begins {m m' : Machine} {held : List Handle} {c : ClassId} {depth : Nat}
    (intact : (ofClass m held c).Intact depth m') (secluded : (ofClass m held c).Secluded)
    (inside : (Handle.classData c).Within m.store.extent) (owned : m'.store.Owned 0)
    (name : String) : m'.Begins name c (m.store.defaultsShown c) := by
  have same : m'.store.classData c = m.store.classData c := intact.guards.classes c inside
  have kept : ∀ entry ∈ (m.store.classData c).properties, ∀ h ∈ entry.2.handles,
      h ∈ (ofClass m held c).kept := fun entry member h held =>
    List.mem_flatMap.mpr ⟨entry, member, held⟩
  have shown : m'.store.defaultsShown c = m.store.defaultsShown c := by
    rw [Store.defaultsShown, Store.defaultsShown, same]
    apply List.map_congr_left
    intro entry member
    have guards : Guards (ofClass m held c).Belongs m.store m'.store :=
      intact.guards.mono fun _ => .inl
    have still := guards.snapshotWithin (fun _ owner _ => owner.holds)
      (fun _ ours => (secluded.alive ours).1) Store.snapshotLevels entry.2
      fun h held => .root (kept entry member h held)
    exact congrArg (Prod.mk entry.1) still
  rw [← shown]
  refine begins_of_copies name owned (inside.mono intact.guards.grows) fun entry member st ext => ?_
  rw [same] at member
  rcases entry.2.array_or_plain with ⟨a, isArray⟩ | plain
  · rw [isArray]
    exact intact.copy_ends secluded owned.closed
      (kept entry member _ (by simp [isArray, Value.handles])) ext
  · simp [Store.copy_plain plain]

/-! What is kept through programs -/

theorem Intact.idle {depth : Nat} {m : Machine} (intact : o.Intact depth m) (none : o.outer = []) :
    o.Intact 0 (.idle (m.scopes.headD []) m.names m.store) := by
  refine ⟨intact.guards, ?_, intact.closed, intact.defaults, intact.classes,
    fun loop member => absurd member List.not_mem_nil⟩
  obtain ⟨own, isOwn, length, known⟩ := intact.scopes
  cases own with
  | nil => simp at length
  | cons scope rest =>
      refine ⟨[scope], ?_, rfl, fun _ listed => ?_⟩
      · simp [Machine.idle, isOwn, none]
      · rw [List.mem_singleton.mp listed]
        exact known scope List.mem_cons_self

theorem Intact.install {globals : Scope} {n : Namespace} {st : Store} (secluded : o.Secluded)
    (intact : o.Intact 0 (.idle globals n st)) :
    o.Intact 0 (.idle globals (Builtin.install n st).1 (Builtin.install n st).2) := by
  refine Session.install_keeps (P := fun n st => o.Intact 0 (.idle globals n st)) (fun b intact =>
    ⟨intact.guards, intact.scopes, intact.closed, intact.defaults, intact.classes, intact.loops⟩)
    ?_ intact
  intro n st data builtin intact
  have plain : data.handles = [] := Session.builtin_handles data builtin
  have known := secluded.known_fresh intact.guards.grows (Store.fresh_newClass st data)
  exact (isolation o secluded).defineClass data.name (intact.newClass (by simp [plain])) known

/-- What is kept from the machine between two programs is kept from all programs that follow. -/
theorem Secluded.history (secluded : o.Secluded) (none : o.outer = []) {s : Session}
    (intact : o.Intact 0 (.idle s.globals s.names s.store)) (trees : List Node) :
    ∀ moment ∈ s.history trees, ∃ depth, o.Intact depth moment.machine := by
  refine Session.history_keeps (D := isolation o secluded)
    (P := fun globals n st => o.Intact 0 (.idle globals n st)) (.install secluded)
    (fun {s tree p} intact _ => ?_) trees intact
  refine ⟨(0 : Nat), ?_, ?_, fun m left => ?_⟩
  · exact ⟨intact.guards, intact.scopes, intact.closed, intact.defaults, intact.classes,
      fun loop member => absurd member Discipline.not_mem_blank⟩
  · exact Policy.fitsAll_of_free _ (fun _ _ => trivial) (fun _ => trivial) (fun _ => trivial) _ _
  · exact Intact.idle left none

end Outset

/-- Defaults are values, which hold no slots and no classes. -/
theorem ClassData.mem_handles {data : ClassData} {h : Handle} (member : h ∈ data.handles) :
    (∃ a, h = .array a) ∨ ∃ o, h = .object o := by
  obtain ⟨entry, -, held⟩ := List.mem_flatMap.mp member
  rcases Value.mem_handles held with ⟨a, -, isArray⟩ | ⟨o, -, isObject⟩
  · exact .inl ⟨a, isArray⟩
  · exact .inr ⟨o, isObject⟩

/-- A class has a name and its defaults to itself: they lead to no object and to no slot with more
than one holder, and they are in no slot that is not released and in no loop under way. -/
structure Machine.OwnsDefaults (m : Machine) (held : List Handle) (c : ClassId) : Prop where
  named : .classData c ∈ m.namedClasses
  noObject : ∀ o, ¬ m.store.Reachable (m.store.classData c).handles (.object o)
  unshared : ∀ s, m.store.Reachable (m.store.classData c).handles (.slot s) →
    m.store.isShared (m.roots ++ held) s = false
  unstored : ∀ a, .array a ∈ (m.store.classData c).handles → ∀ s, m.store.read s = .array a →
    m.store.Dead (m.roots ++ held) (.slot s)
  unwalked : ∀ loop, some loop ∈ m.loops →
    ¬ m.store.Reachable (m.store.classData c).handles (.array loop.array)

namespace Machine.OwnsDefaults

variable {m : Machine} {frame : Frame} {c : ClassId}

theorem secluded (owns : m.OwnsDefaults frame.held c) (suits : frame.Suits m) :
    (Outset.ofClass m frame.held c).Secluded where
  sound := suits.sound
  inside := suits.inside
  outer := List.nil_suffix
  rooted h member :=
    .held (.root (List.mem_append_left _ (List.mem_append_right _ owns.named))) member
  slots s member := by
    rcases ClassData.mem_handles member with ⟨_, same⟩ | ⟨_, same⟩ <;> cases same
  arrays := owns.unstored
  noClass c member := by
    rcases ClassData.mem_handles member with ⟨_, same⟩ | ⟨_, same⟩ <;> cases same
  noObject := owns.noObject
  unshared := owns.unshared

/-- No variable and no loop leads to the defaults. -/
theorem start (owns : m.OwnsDefaults frame.held c) (suits : frame.Suits m) :
    (Outset.ofClass m frame.held c).Intact (m.scopes.length - 1) m := by
  refine (owns.secluded suits).startAll rfl suits.scopes (fun s kept => ?_) fun loop member =>
    ⟨suits.loops loop member, owns.unwalked loop member⟩
  rcases ClassData.mem_handles kept with ⟨_, same⟩ | ⟨_, same⟩ <;> cases same

theorem knownFrame (owns : m.OwnsDefaults frame.held c) (suits : frame.Suits m) :
    (Outset.isolation _ (owns.secluded suits)).KnownFrame m.store.extent frame where
  held := (owns.secluded suits).mayHold
  arguments v passed h held := (owns.secluded suits).mayHold h (suits.arguments v passed h held)
  receiver v passed h held := (owns.secluded suits).mayHold h (suits.receiver v passed h held)

/-- Through a block and all programs that follow, every machine is sound and keeps the defaults. -/
theorem kept (owns : m.OwnsDefaults frame.held c) (suits : frame.Suits m) (s : Session)
    (levels : Nat) (block : Code.Block) (trees : List Node) :
    let run := execBlock (invoke levels) frame block
    ∀ moment ∈ ⟨none, m⟩ :: run.trace m ++ (s.resume (Run.left (run m))).history trees,
      (∃ depth, (Outset.ofClass m frame.held c).Intact depth moment.machine) ∧
        moment.machine.Sound 0 := by
  intro run moment member
  obtain ⟨kept, left⟩ := Discipline.execBlock_keeps levels (owns.knownFrame suits)
    (Policy.fitsAll_of_free _ (fun _ _ => trivial) (fun _ => trivial) (fun _ => trivial) block _)
    (owns.start suits)
  obtain ⟨sound, leftSound⟩ := Discipline.execBlock_keeps levels suits.knownFrame
    (Policy.fitsAll_of_free _ (fun _ _ => trivial) (fun _ => trivial) (fun _ => trivial) block _)
    suits.good
  rcases List.mem_append.mp member with now | later
  · rcases List.mem_cons.mp now with rfl | passed
    · exact ⟨⟨_, owns.start suits⟩, suits.sound⟩
    · exact ⟨kept moment passed, sound moment passed⟩
  · constructor
    · apply (owns.secluded suits).history rfl _ trees moment later
      rw [Session.names_resume]
      exact Outset.Intact.idle left rfl
    · apply Session.Leaves.history _ trees moment later
      rw [Session.names_resume]
      exact Session.leaves_of_sound leftSound.1

end Machine.OwnsDefaults

namespace Session

/-- The defaults of a class stay as declared. Let a class be declared whose defaults lead to no
object, to no slot with more than one holder and to no array that a loop under way walks; and let
them be literals, or arrays that are in no slot unless it is released. Then whatever is executed
later, in the same block or in later programs, at every moment an instantiation by a name of the
class comes to the constructor with an object whose properties show what the defaults showed when
the class was declared. -/
theorem defaults_stay_declared (s : Session) (levels : Nat) (frame : Frame)
    (definition : Code.ClassDefinition Code.Stmt) (block : Code.Block) (trees : List Node)
    (m₀ m : Machine) (name : String) (c : ClassId) (suits : frame.Suits m₀)
    (declared : (defineClass (invoke levels) frame definition) m₀ = .ok () m)
    (latest : m.store.classes.size = c.index + 1)
    (noObject : ∀ o, ¬ m.store.Reachable (m.store.classData c).handles (.object o))
    (unshared : ∀ s, m.store.Reachable (m.store.classData c).handles (.slot s) →
      m.store.isShared (m.roots ++ frame.held) s = false)
    (unwalked : ∀ loop, some loop ∈ m.loops →
      ¬ m.store.Reachable (m.store.classData c).handles (.array loop.array))
    (unstored : (∀ entry ∈ definition.properties, entry.2.isLiteral = true) ∨
      ∀ a, .array a ∈ (m.store.classData c).handles → ∀ s, m.store.read s = .array a →
        m.store.Dead (m.roots ++ frame.held) (.slot s)) :
    let run := execBlock (invoke levels) frame block
    ∀ moment ∈ ⟨none, m⟩ :: run.trace m ++ (s.resume (Run.left (run m))).history trees,
      moment.machine.Begins name c (m.store.defaultsShown c) := by
  intro run moment member
  have after := suits.declare declared
  have named : .classData c ∈ m.namedClasses := declared_named declared latest
  have apart : ∀ a, .array a ∈ (m.store.classData c).handles → ∀ s, m.store.read s = .array a →
      m.store.Dead (m.roots ++ frame.held) (.slot s) := by
    rcases unstored with literal | apart
    · exact fun a listed s reads =>
        absurd reads (declared_literals suits declared latest literal a listed s)
    · exact apart
  have owns : m.OwnsDefaults frame.held c := ⟨named, noObject, unshared, apart, unwalked⟩
  obtain ⟨⟨depth, intact⟩, sound⟩ := owns.kept after s levels block trees moment member
  have inside : (Handle.classData c).Within m.store.extent :=
    after.sound.roots_within _ (List.mem_append_right _ named)
  exact intact.begins (owns.secluded after) inside sound.owned name

/-- `class C { public $p = [true]; }` -/
def listClass : Code.ClassDefinition Code.Stmt :=
  ⟨.string "C", [("p", .array [.value (.boolean true)])], []⟩

/-- `(new C)->p[] = false;` -/
def appendsToInstance : Code.Block :=
  [.expression (.assign (.element (.implied (.element (.value (.instantiate (.string "C") []))
    (some (.string "p")))) none) (.value (.boolean false)))]

/-- `return (new C)->p;` -/
def returnsDefault : Node := .program [
  .returnStatement (some (.objectProperty (.newExpression (.string "C") []) [.string "p"] false))]

/-- Whether an evaluation gives an array of so many elements. -/
def gives (size : Nat) : Except EvalError Outcome × Session → Bool
  | (.ok ⟨_, .array entries⟩, _) => entries.length == size
  | _ => false

/-- A literal default stays as declared when an append goes to the property of an object, and in a
later program. -/
theorem defaults_stay_declared_literal :
    ∃ m, (defineClass (invoke 1) ⟨[], none, []⟩ listClass)
        (.idle [] (.empty rootPath) .empty) = .ok () m ∧
      m.names.class? "C" = some ⟨0⟩ ∧
      let run := execBlock (invoke 1) ⟨[], none, []⟩ appendsToInstance
      let later := (create .default false [] .unlimited .unlimited).resume (Run.left (run m))
      gives 1 (later.evaluate returnsDefault) = true ∧
      ∀ moment ∈ ⟨none, m⟩ :: run.trace m ++ later.history [returnsDefault],
        moment.machine.Begins "C" ⟨0⟩ (m.store.defaultsShown ⟨0⟩) := by
  have declares : (match (defineClass (invoke 1) ⟨[], none, []⟩ listClass)
      (.idle [] (.empty rootPath) .empty) with
    | .ok _ m => decide (m.names.class? "C" = some ⟨0⟩ ∧ m.store.classes.size = 1 ∧
        m.store.objects.size = 0 ∧ m.loops.length = 0 ∧
        (∀ i < m.store.slots.size, m.store.isShared (m.roots ++ []) ⟨i⟩ = false) ∧
        gives 1 (((create .default false [] .unlimited .unlimited).resume
          (Run.left ((execBlock (invoke 1) ⟨[], none, []⟩ appendsToInstance) m))).evaluate
          returnsDefault) = true)
    | .error _ _ => false) = true := by decide +kernel
  have suits : (⟨[], none, []⟩ : Frame).Suits (.idle [] (.empty rootPath) .empty) := {
    sound := ⟨Store.owned_empty, by simp [Machine.idle], by simp [Machine.idle, Namespace.empty],
      by simp [Machine.idle]⟩
    scopes := by simp [Machine.idle]
    inside := by simp
    arguments := by simp
    receiver := by simp
    loops := by simp [Machine.idle] }
  cases ran : (defineClass (invoke 1) ⟨[], none, []⟩ listClass)
      (.idle [] (.empty rootPath) .empty) with
  | error f m => simp [ran] at declares
  | ok u m =>
      rw [ran] at declares
      obtain ⟨named, classes, objects, loops, alone, shown⟩ := of_decide_eq_true declares
      have sound := (suits.declare ran).sound
      have inside : (Handle.classData ⟨0⟩).Within m.store.extent := by
        simp [Handle.Within, Store.extent, classes]
      have there : ∀ h, m.store.Reachable (m.store.classData ⟨0⟩).handles h →
          h.Within m.store.extent := fun h reachable =>
        (reachable.alive (sound.owned.closed (.classData ⟨0⟩) inside) sound.owned.closed).1
      refine ⟨m, rfl, named, shown, ?_⟩
      refine defaults_stay_declared _ 1 ⟨[], none, []⟩ listClass appendsToInstance [returnsDefault]
        _ m "C" ⟨0⟩ suits ran classes (fun o reachable => ?_) (fun s reachable => ?_)
        (fun loop member => ?_) (.inl ?_)
      · have inside : o.index < m.store.objects.size := there _ reachable
        omega
      · exact alone s.index (there _ reachable)
      · simp [List.length_eq_zero_iff.mp loops] at member
      · simp [listClass, Code.Expr.isLiteral]

/-- `$a = [true];` -/
def assignsVariable : Node := .program [
  .expressionStatement (.expression (.variable "a" false) [⟨"=", .arrayLiteral [.boolean true]⟩])]

/-- `class C { public $p = $a; } return (new C)->p;` -/
def declaresVariable : Node := .program [
  .classStatement (.string "C")
    [.propertyDefinition (.variable "p" false) (some (.variable "a" false))],
  .returnStatement (some (.objectProperty (.newExpression (.string "C") []) [.string "p"] false))]

/-- `$a[] = true; return (new C)->p;` -/
def appendsToVariable : Node := .program [
  .expressionStatement (.expression (.arrayIndex (.variable "a" false) [none] false)
    [⟨"=", .boolean true⟩]),
  .returnStatement (some (.objectProperty (.newExpression (.string "C") []) [.string "p"] false))]

/-- A default that is the array of a variable does not stay: it leads to no object and to no shared
slot when it is declared, yet what a later program appends to the variable is in new objects. -/
theorem default_follows_variable :
    let before := (create .default false [] .unlimited .unlimited)
    let declared := (before.evaluate assignsVariable).2.evaluate declaresVariable
    (before.history [assignsVariable, declaresVariable]).any (fun moment =>
      moment.machine.names.class? "C" = some ⟨0⟩ ∧ moment.machine.store.objects.size = 0 ∧
      ∀ i < moment.machine.store.slots.size,
        moment.machine.store.isShared moment.machine.roots ⟨i⟩ = false) = true ∧
    gives 1 declared = true ∧ gives 2 (declared.2.evaluate appendsToVariable) = true := by
  decide +kernel

end Session
end TreeScript
