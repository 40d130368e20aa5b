import TreeScript.Proofs.Isolation.Outset
import TreeScript.Proofs.Store.Guard

set_option autoImplicit false

/- What a loop has to itself while its body runs: the array that it walks, and what the copy that it
walks is made of. The body may copy what it is given from there, but it gets hold of none of it, and
whatever it does, the elements of the array that is walked stay in their order. -/
namespace TreeScript

open Store (Adjusts Fresh Guards)

/-- A loop at its beginning: the store, the array that is walked, and what only the loop gets at. -/
structure Reserve where
  store : Store
  array : ArrayId
  own : Handle → Prop

namespace Reserve

/-- What the body may know and change. -/
def Known (r : Reserve) (e : Extent) (h : Handle) : Prop := h.Within e ∧ ¬ r.own h

/-- What may be held while the body runs: of the slots that are the loop's own, only those of the
elements. -/
def MayHold (r : Reserve) (e : Extent) (h : Handle) : Prop :=
  h.Within e ∧ ∀ s, h = .slot s → r.own h → h ∈ (r.store.array r.array).handles

/-- What the body may copy: what the elements lead to as well, but not the array itself. -/
def MayCopy (r : Reserve) (e : Extent) (h : Handle) : Prop :=
  h.Within e ∧ (r.own h → h ≠ .array r.array)

/-- The loop's own are slots and arrays. They lead only to one another and to what is known, each
slot is in one place, and the array that is walked is in none. -/
structure Sealed (r : Reserve) : Prop where
  inside : ∀ h, r.own h → h.Within r.store.extent
  things : ∀ h, r.own h → (∃ s, h = .slot s) ∨ ∃ a, h = .array a
  elements : ∀ a, r.own (.array a) → ∀ h ∈ (r.store.array a).handles, r.own h
  closed : ∀ s, r.own (.slot s) → ∀ h ∈ (r.store.read s).handles, h.Within r.store.extent
  top : ∀ s, r.own (.slot s) → r.store.read s ≠ .array r.array
  once : ∀ s, r.own (.slot s) → ∀ a, (r.store.array a).handles.count (.slot s) ≤ 1
  single : ∀ s, r.own (.slot s) → ∀ a b, .slot s ∈ (r.store.array a).handles →
    .slot s ∈ (r.store.array b).handles → a = b

/-- A machine while the body runs, with so many scopes around its current one: the loop's own is as
it was, but for the pointer of the array that is walked, whose elements keep their order, and what is
known leads nowhere near it. -/
structure Kept (r : Reserve) (depth : Nat) (m : Machine) : Prop where
  guards : Guards (fun h => r.own h ∧ h ≠ .array r.array) r.store m.store
  elements : r.own (.array r.array) →
    (m.store.array r.array).elements = (r.store.array r.array).elements
  keys : Assoc.keys (r.store.array r.array).elements <+:
    Assoc.keys (m.store.array r.array).elements
  scopes : m.scopes.length = depth + 1
  bound : ∀ scope ∈ m.scopes, ∀ entry ∈ scope, r.Known m.store.extent (.slot entry.2)
  closed : m.store.Confined fun h => ¬ r.own h
  defaults : ∀ c, (Handle.classData c).Within m.store.extent →
    ∀ g ∈ m.store.holds (.classData c), r.Known m.store.extent g
  classes : ∀ entry ∈ m.names.classes, r.Known m.store.extent (.classData entry.2)
  loops : ∀ loop, some loop ∈ m.loops → r.Known m.store.extent (.array loop.array)

variable {r : Reserve}

theorem Known.mono {e e' : Extent} {h : Handle} (grows : e ≤ e') (known : r.Known e h) :
    r.Known e' h := ⟨known.1.mono grows, known.2⟩

theorem MayHold.mono {e e' : Extent} {h : Handle} (grows : e ≤ e') (held : r.MayHold e h) :
    r.MayHold e' h := ⟨held.1.mono grows, held.2⟩

theorem MayCopy.mono {e e' : Extent} {h : Handle} (grows : e ≤ e') (source : r.MayCopy e h) :
    r.MayCopy e' h := ⟨source.1.mono grows, source.2⟩

theorem Known.mayHold {e : Extent} {h : Handle} (known : r.Known e h) : r.MayHold e h :=
  ⟨known.1, fun _ _ own => absurd own known.2⟩

theorem Known.mayCopy {e : Extent} {h : Handle} (known : r.Known e h) : r.MayCopy e h :=
  ⟨known.1, fun own => absurd own known.2⟩

/-- What is new is known. -/
theorem Sealed.known_fresh (isSealed : r.Sealed) {st st' : Store} {h : Handle}
    (grows : r.store.extent ≤ st.extent) (fresh : Fresh st st' h) : r.Known st'.extent h :=
  ⟨fresh.2, fun own => fresh.1 ((isSealed.inside h own).mono grows)⟩

namespace Kept

variable {depth : Nat} {m : Machine}

/-- A change of what is known, that stores what is known, keeps everything in order. -/
theorem adjust (kept : r.Kept depth m) (isSealed : r.Sealed) {v : Value} {st : Store}
    (knownValue : ∀ g ∈ v.handles, r.Known m.store.extent g)
    (change : Adjusts (r.Known m.store.extent) v m.store st) :
    r.Kept depth { m with store := st } where
  guards := kept.guards.adjust (fun h own => (isSealed.inside h own.1).mono kept.guards.grows)
    (fun h own known => known.2 own.1) change
  elements own := by
    rcases change.arrays r.array with same | ⟨touched, -⟩
    · rw [same]
      exact kept.elements own
    · rcases touched with known | fresh
      · exact absurd own known.2
      · exact absurd own (isSealed.known_fresh kept.guards.grows fresh).2
  keys := kept.keys.trans (change.keys r.array)
  scopes := kept.scopes
  bound scope listed entry member := (kept.bound scope listed entry member).mono change.grows
  closed := kept.closed.adjust knownValue
    (fun g fresh => (isSealed.known_fresh kept.guards.grows fresh).2) change
  defaults c inside g member := by
    rw [change.holds_classData] at member
    exact (kept.defaults c (change.within_classData inside) g member).mono change.grows
  classes entry member := (kept.classes entry member).mono change.grows
  loops loop member := (kept.loops loop member).mono change.grows

theorem newClass (kept : r.Kept depth m) {data : ClassData}
    (known : ∀ g ∈ data.handles, r.Known m.store.extent g) :
    r.Kept depth { m with store := (m.store.newClass data).2 } := by
  have grows := Store.extent_newClass m.store data
  refine ⟨kept.guards.newClass data, kept.elements, kept.keys, kept.scopes,
    fun scope listed entry member => (kept.bound scope listed entry member).mono grows,
    kept.closed.newClass data, fun c inside g member => ?_,
    fun entry member => (kept.classes entry member).mono grows,
    fun loop member => (kept.loops loop member).mono grows⟩
  rcases Store.mem_holds_newClass inside member with added | ⟨before, held⟩
  · exact (known g added).mono grows
  · exact (kept.defaults c before g held).mono grows

/-- The pointer of the array that is walked may move. -/
theorem advance (kept : r.Kept depth m) :
    r.Kept depth { m with
      store := m.store.setArray r.array (m.store.array r.array).advance } := by
  have same : ∀ b, ((m.store.setArray r.array (m.store.array r.array).advance).array b).elements =
      (m.store.array b).elements := by
    intro b
    rw [Store.array_setArray]
    split
    · next target => rw [Discipline.elements_advance, target.1]
    · rfl
  have extent : (m.store.setArray r.array (m.store.array r.array).advance).extent =
      m.store.extent := by simp [Store.extent, Store.setArray]
  have holds : ∀ h, (m.store.setArray r.array (m.store.array r.array).advance).holds h =
      m.store.holds h := by
    intro h
    cases h with
    | array b => simp only [Store.holds, ArrayData.handles, same]
    | _ => rfl
  refine ⟨⟨?_, kept.guards.slots, fun b own => ?_, kept.guards.objects, kept.guards.classes⟩, ?_, ?_,
    kept.scopes, ?_, ?_, ?_, ?_, ?_⟩
  · rw [extent]
    exact kept.guards.grows
  · have apart : b ≠ r.array := fun same => own.2 (by rw [same])
    rw [Store.array_setArray_of_ne _ _ _ _ apart]
    exact kept.guards.arrays b own
  · rw [same]
    exact kept.elements
  · rw [same]
    exact kept.keys
  · rw [extent]
    exact kept.bound
  · intro h
    rw [extent, holds]
    exact kept.closed h
  · intro c
    rw [extent, holds]
    exact kept.defaults c
  · rw [extent]
    exact kept.classes
  · rw [extent]
    exact kept.loops

/-! Copies -/

/-- An array that the body may copy, and what is in it, when it is the loop's own. -/
theorem elements_own (kept : r.Kept depth m) (isSealed : r.Sealed) {a : ArrayId}
    (own : r.own (.array a)) :
    (m.store.array a).handles = (r.store.array a).handles ∧
      ∀ h ∈ (m.store.array a).handles, r.own h := by
  have same : (m.store.array a).handles = (r.store.array a).handles := by
    by_cases top : a = r.array
    · subst top
      rw [ArrayData.handles, kept.elements own]
      rfl
    · rw [kept.guards.arrays a ⟨own, fun isTop => top (Handle.array.inj isTop)⟩]
  exact ⟨same, same ▸ isSealed.elements a own⟩

theorem read_own (kept : r.Kept depth m) {s : SlotId} (own : r.own (.slot s)) :
    m.store.read s = r.store.read s := kept.guards.slots s ⟨own, Handle.noConfusion⟩

/-- The only holder of a slot that is the loop's own is the array that it is in. -/
theorem holder (kept : r.Kept depth m) (isSealed : r.Sealed) {a : ArrayId} {s : SlotId}
    (ours : r.own (.array a)) (member : .slot s ∈ (m.store.array a).handles) {g : Handle}
    (inside : g.Within m.store.extent) (holds : .slot s ∈ m.store.holds g) : g = .array a := by
  obtain ⟨same, own⟩ := kept.elements_own isSealed ours
  have own := own _ member
  by_cases theirs : r.own g
  · rcases isSealed.things g theirs with ⟨t, rfl⟩ | ⟨b, rfl⟩
    · rcases Value.mem_handles holds with ⟨_, _, isSlot⟩ | ⟨_, _, isSlot⟩ <;> cases isSlot
    · have holds : .slot s ∈ (m.store.array b).handles := holds
      rw [(kept.elements_own isSealed theirs).1] at holds
      rw [same] at member
      rw [isSealed.single s own a b member holds]
  · by_cases isClass : ∃ c, g = .classData c
    · obtain ⟨c, rfl⟩ := isClass
      exact absurd own (kept.defaults c inside _ holds).2
    · exact absurd own (kept.closed g ⟨inside, theirs⟩ (fun c same => isClass ⟨c, same⟩) _ holds).2

/-- A slot within an element is not shared: no variable and nothing under way holds it. -/
theorem unshared (kept : r.Kept depth m) (isSealed : r.Sealed) {pending : List Handle}
    (held : ∀ g ∈ pending, r.MayHold m.store.extent g) {a : ArrayId} {s : SlotId}
    (ours : r.own (.array a)) (below : a ≠ r.array)
    (member : .slot s ∈ (m.store.array a).handles) :
    m.store.isShared (m.roots ++ pending) s = false := by
  obtain ⟨same, own⟩ := kept.elements_own isSealed ours
  have own := own _ member
  have before : .slot s ∈ (r.store.array a).handles := same ▸ member
  refine Store.not_shared_of_holder (g := .array a)
    ((isSealed.inside _ own).mono kept.guards.grows) (fun rooted => ?_) ?_
    fun g inside holds => kept.holder isSealed ours member inside holds
  · rcases List.mem_append.mp rooted with root | later
    · rcases List.mem_append.mp root with isVariable | isClass
      · obtain ⟨scope, listed, entry, inScope, isSlot⟩ := mem_variablesOf.mp isVariable
        exact (kept.bound scope listed entry inScope).2 (isSlot ▸ own)
      · obtain ⟨entry, -, isSlot⟩ := List.mem_map.mp isClass
        cases isSlot
    · exact below (isSealed.single s own a _ before ((held _ later).2 s rfl own))
  · simp only [Store.holds, same]
    exact isSealed.once s own a

/-- What is in any slot may be copied. -/
theorem copyable (kept : r.Kept depth m) (isSealed : r.Sealed) (s : SlotId) :
    ∀ h ∈ (m.store.read s).handles, r.MayCopy m.store.extent h := by
  intro h member
  by_cases own : r.own (.slot s)
  · rw [kept.read_own own] at member
    refine ⟨(isSealed.closed s own h member).mono kept.guards.grows, fun _ isTop => ?_⟩
    rcases Value.mem_handles member with ⟨b, isArray, same⟩ | ⟨_, _, same⟩
    · cases same.symm.trans isTop
      exact isSealed.top s own isArray
    · cases same.symm.trans isTop
  · exact Known.mayCopy (kept.closed.read own h member)

theorem copyLaws (kept : r.Kept depth m) (isSealed : r.Sealed) {pending : List Handle}
    (held : ∀ g ∈ pending, r.MayHold m.store.extent g) :
    Store.CopyLaws (fun depth st => r.Kept depth { m with store := st })
      (fun depth _ => depth) r.Known (r.MayCopy m.store.extent)
      (m.store.isShared (m.roots ++ pending)) m.store where
  mono := Known.mono
  plain _ kept := kept
  newSlot {depth st v} kept known := kept.adjust isSealed known (Store.adjusts_newSlot _ v st)
  newArray {depth st data} kept known := kept.adjust (v := .null) isSealed
    (by simp [Value.handles]) (Store.adjusts_newArray st .null known)
  fresh kept fresh := isSealed.known_fresh kept.guards.grows fresh
  object {o} source := by
    refine ⟨source.1, fun own => ?_⟩
    rcases isSealed.things _ own with ⟨_, same⟩ | ⟨_, same⟩ <;> cases same
  inside source := source.1
  slotInside {a s} source member := by
    by_cases own : r.own (.array a)
    · exact (isSealed.inside _ ((kept.elements_own isSealed own).2 _ member)).mono kept.guards.grows
    · exact (kept.closed.array own _ member).1
  kept {a s} source member shared := by
    by_cases own : r.own (.array a)
    · have below : a ≠ r.array := fun same => source.2 own (by rw [same])
      simp [kept.unshared isSealed held own below member] at shared
    · exact kept.closed.array own _ member
  copied _ _ _ := kept.copyable isSealed _

end Kept

/-- The index is the number of scopes around the current one. -/
def seclusion (r : Reserve) (isSealed : r.Sealed) : Discipline where
  Index := Nat
  good := r.Kept
  moment _ := True
  known := r.Known
  held := r.MayHold
  source := r.MayCopy
  writable _ _ := True
  callable _ := True
  hold depth _ := depth
  declare depth _ := depth
  inner depth _ := depth + 1
  callee depth _ := depth
  known_mono := Known.mono
  held_mono := MayHold.mono
  held_of_known := Known.mayHold
  source_mono := MayCopy.mono
  source_of_known := Known.mayCopy
  known_fresh kept := isSealed.known_fresh kept.guards.grows
  seen _ := trivial
  lookup _ _ := trivial
  closed kept known isThing := kept.closed _ known isThing
  defaults kept known g member := (kept.defaults _ known.1 g member).mayCopy
  methods _ _ := trivial
  functions _ _ := trivial
  classes kept member := kept.classes _ member
  scope {depth m} kept := by
    cases isScope : m.scopes with
    | nil =>
        have length := kept.scopes
        simp [isScope] at length
    | cons scope outer => exact ⟨scope, outer, rfl, kept.bound scope (by simp [isScope])⟩
  loops kept := kept.loops _
  hold_comm _ _ _ := rfl
  forget kept := kept
  plain _ kept := kept
  undeclare kept := kept
  adjust kept := kept.adjust isSealed
  newArray {depth m} kept := kept.adjust (v := .null) isSealed (by simp [Value.handles])
    (Store.adjusts_newArray m.store .null (by simp [ArrayData.handles, ArrayData.empty]))
  newClass kept known _ := kept.newClass known
  copy {depth m pending v v' st} kept held source done := by
    have all : ∀ g ∈ v.handles ++ pending, r.MayHold m.store.extent g := by
      refine List.forall_mem_append.mpr ⟨fun g member => ⟨(source g member).1, fun s isSlot => ?_⟩,
        held⟩
      rcases Value.mem_handles member with ⟨_, _, same⟩ | ⟨_, _, same⟩ <;>
        cases same.symm.trans isSlot
    rw [List.append_assoc] at done
    exact (kept.copyLaws isSealed all).copy kept source done
  rebind {depth m scope outer s} name kept isScope known := by
    have length := kept.scopes
    have bound := kept.bound
    rw [isScope] at length bound
    obtain ⟨here, around⟩ := List.forall_mem_cons.mp bound
    refine ⟨kept.guards, kept.elements, kept.keys, length, ?_, kept.closed, kept.defaults,
      kept.classes, kept.loops⟩
    refine List.forall_mem_cons.mpr ⟨fun entry member => ?_, around⟩
    rcases Assoc.mem_set member with old | isNew
    · exact here entry old
    · exact isNew ▸ known
  extend {depth m scope added outer names} kept isScope known _ := by
    have length := kept.scopes
    have bound := kept.bound
    rw [isScope] at length bound
    obtain ⟨here, around⟩ := List.forall_mem_cons.mp bound
    refine ⟨kept.guards, kept.elements, kept.keys, length, ?_, kept.closed, kept.defaults,
      kept.classes, kept.loops⟩
    exact List.forall_mem_cons.mpr ⟨List.forall_mem_append.mpr ⟨here, known⟩, around⟩
  setLoop slot _ kept known := ⟨kept.guards, kept.elements, kept.keys, kept.scopes, kept.bound,
    kept.closed, kept.defaults, kept.classes, fun l member =>
      (Discipline.mem_setLoop member).elim (kept.loops l) (known l)⟩
  streams _ _ kept := ⟨kept.guards, kept.elements, kept.keys, kept.scopes, kept.bound, kept.closed,
    kept.defaults, kept.classes, kept.loops⟩
  defineFunction kept _ := ⟨kept.guards, kept.elements, kept.keys, kept.scopes, kept.bound,
    kept.closed, kept.defaults, kept.classes, kept.loops⟩
  defineClass name kept known := by
    refine ⟨kept.guards, kept.elements, kept.keys, kept.scopes, kept.bound, kept.closed,
      kept.defaults, fun entry member => ?_, kept.loops⟩
    rcases Assoc.mem_set member with old | isNew
    · exact kept.classes entry old
    · exact isNew ▸ known
  push kept := ⟨kept.guards, kept.elements, kept.keys, by simp [kept.scopes],
    List.forall_mem_cons.mpr ⟨by simp, kept.bound⟩, kept.closed, kept.defaults, kept.classes,
    kept.loops⟩
  pop _ _ kept := ⟨kept.guards, kept.elements, kept.keys, by simp [kept.scopes],
    fun scope listed => kept.bound scope (List.mem_of_mem_tail listed), kept.closed, kept.defaults,
    kept.classes, kept.loops⟩
  enter loopSlots kept _ := ⟨trivial, kept.guards, kept.elements, kept.keys, kept.scopes,
    kept.bound, kept.closed, kept.defaults, kept.classes,
    fun loop member => absurd member Discipline.not_mem_blank⟩
  leave before grows after := ⟨after.guards, after.elements, after.keys, after.scopes, after.bound,
    after.closed, after.defaults, after.classes,
    fun loop member => (before.loops loop member).mono grows⟩
  body _ _ := Policy.fitsAll_of_free _ (fun _ _ => trivial) (fun _ => trivial)
    (fun _ => trivial) _ _

end Reserve
end TreeScript
