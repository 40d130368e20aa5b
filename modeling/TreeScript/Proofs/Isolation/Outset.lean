import TreeScript.Proofs.Ownership
import TreeScript.Proofs.Store.Tally

set_option autoImplicit false

/- The outset of a run: what is to be kept there, be it the variables around a call or the defaults
of a class, which things belong to it, which are gone, and what it means for the run that they
include no object and no shared slot. -/
namespace TreeScript

/-- What the variables of the scopes hold. -/
def variablesOf (scopes : List Scope) : List Handle :=
  scopes.flatMap fun scope => scope.map fun entry => .slot entry.2

theorem mem_variablesOf {scopes : List Scope} {h : Handle} :
    h ∈ variablesOf scopes ↔ ∃ scope ∈ scopes, ∃ entry ∈ scope, h = .slot entry.2 := by
  simp [variablesOf, eq_comm]

def Machine.variables (m : Machine) : List Handle := variablesOf m.scopes

/-- What the names of classes hold. -/
def Machine.namedClasses (m : Machine) : List Handle :=
  m.names.classes.map fun entry => .classData entry.2

theorem Machine.roots_eq (m : Machine) : m.roots = m.variables ++ m.namedClasses := rfl

theorem Machine.Sound.roots_within {loose : Multiset ArrayId} {m : Machine}
    (sound : m.Sound loose) : ∀ h ∈ m.roots, h.Within m.store.extent := by
  intro h member
  rcases List.mem_append.mp member with var | cls
  · obtain ⟨scope, listed, entry, inScope, rfl⟩ := mem_variablesOf.mp var
    exact sound.bound scope listed entry inScope
  · obtain ⟨entry, listed, rfl⟩ := List.mem_map.mp cls
    exact sound.classes entry listed

/-- Where a run begins: the machine, what evaluations under way hold, what is kept from the run with
everything it leads to, and the scopes that the run does not get at. -/
structure Outset where
  machine : Machine
  held : List Handle
  kept : List Handle
  outer : List Scope

namespace Outset

def roots (o : Outset) : List Handle := o.machine.roots ++ o.held

/-- What is kept, or led to by what is kept. -/
def Belongs (o : Outset) (h : Handle) : Prop := o.machine.store.Reachable o.kept h

/-- What was released before the run, and does not come back. -/
def Gone (o : Outset) (h : Handle) : Prop := o.machine.store.Dead o.roots h

/-- What the run may know and change. -/
def Known (o : Outset) (e : Extent) (h : Handle) : Prop := h.Within e ∧ ¬ o.Belongs h ∧ ¬ o.Gone h

/-- What the run may copy: arrays that are kept too, but no slots of theirs. -/
def MayHold (o : Outset) (e : Extent) (h : Handle) : Prop :=
  h.Within e ∧ ¬ o.Gone h ∧ ∀ s, h = .slot s → ¬ o.Belongs h

/-- What is kept are variables and arrays that are in no slot any more. They lead to no object and
to no slot with more than one holder. -/
structure Secluded (o : Outset) : Prop where
  sound : o.machine.Sound 0
  inside : ∀ h ∈ o.held, h.Within o.machine.store.extent
  outer : o.outer <:+ o.machine.scopes
  rooted : ∀ h ∈ o.kept, o.machine.store.Reachable o.roots h
  slots : ∀ s, .slot s ∈ o.kept → .slot s ∈ o.machine.variables
  arrays : ∀ a, .array a ∈ o.kept → ∀ s, o.machine.store.read s = .array a → o.Gone (.slot s)
  noClass : ∀ c, .classData c ∉ o.kept
  noObject : ∀ object, ¬ o.Belongs (.object object)
  unshared : ∀ s, o.Belongs (.slot s) → o.machine.store.isShared o.roots s = false

variable {o : Outset}

theorem Known.mono {e e' : Extent} {h : Handle} (grows : e ≤ e') (known : o.Known e h) :
    o.Known e' h := ⟨known.1.mono grows, known.2⟩

theorem MayHold.mono {e e' : Extent} {h : Handle} (grows : e ≤ e') (held : o.MayHold e h) :
    o.MayHold e' h := ⟨held.1.mono grows, held.2⟩

theorem Known.mayHold {e : Extent} {h : Handle} (known : o.Known e h) : o.MayHold e h :=
  ⟨known.1, known.2.2, fun _ _ => known.2.1⟩

theorem Belongs.holds {g h : Handle} (ours : o.Belongs g) (member : h ∈ o.machine.store.holds g) :
    o.Belongs h := .held ours member

namespace Secluded

theorem roots_within (secluded : o.Secluded) :
    ∀ h ∈ o.roots, h.Within o.machine.store.extent := by
  intro h member
  rcases List.mem_append.mp member with root | held
  · exact secluded.sound.roots_within h root
  · exact secluded.inside h held

/-- What belongs to what is kept is there and alive. -/
theorem alive (secluded : o.Secluded) {h : Handle} (ours : o.Belongs h) :
    h.Within o.machine.store.extent ∧ ¬ o.Gone h :=
  Store.Reachable.alive secluded.roots_within secluded.sound.owned.closed
    (ours.trans secluded.rooted)

/-- Only slots and arrays do. -/
theorem slot_or_array (secluded : o.Secluded) {h : Handle} (ours : o.Belongs h) :
    (∃ s, h = .slot s) ∨ ∃ a, h = .array a := by
  induction ours with
  | @root h member =>
      cases h with
      | slot s => exact .inl ⟨s, rfl⟩
      | array a => exact .inr ⟨a, rfl⟩
      | object object => exact absurd (.root member) (secluded.noObject object)
      | classData c => exact absurd member (secluded.noClass c)
  | @held g h holder member ih =>
      cases h with
      | slot s => exact .inl ⟨s, rfl⟩
      | array a => exact .inr ⟨a, rfl⟩
      | object object => exact absurd (.held holder member) (secluded.noObject object)
      | classData c =>
          -- only objects hold classes
          rcases ih with ⟨s, rfl⟩ | ⟨a, rfl⟩
          · rcases Value.mem_handles member with ⟨_, _, isArray⟩ | ⟨_, _, isObject⟩
            · cases isArray
            · cases isObject
          · simp [Store.holds, ArrayData.handles] at member

theorem outer_sublist (secluded : o.Secluded) : (variablesOf o.outer).Sublist o.roots := by
  have among : (variablesOf o.outer).Sublist o.machine.variables :=
    secluded.outer.sublist.flatMap _
  exact (among.trans (List.sublist_append_left _ _)).trans (List.sublist_append_left _ _)

theorem rooted_slot (secluded : o.Secluded) {s : SlotId} (kept : .slot s ∈ o.kept) :
    .slot s ∈ o.roots :=
  List.mem_append_left _ (List.mem_append_left _ (secluded.slots s kept))

/-- A slot that belongs to what is kept has no other living holder. -/
theorem slot_holder (secluded : o.Secluded) {g : Handle} {s : SlotId} (ours : o.Belongs (.slot s))
    (inside : g.Within o.machine.store.extent) (living : ¬ o.Gone g)
    (member : .slot s ∈ o.machine.store.holds g) : o.Belongs g := by
  by_contra theirs
  have here := (secluded.alive ours).1
  have alone := secluded.unshared s ours
  have shared : o.machine.store.isShared o.roots s = true := by
    cases ours with
    | root kept =>
        exact Store.isShared_of_root here (secluded.rooted_slot kept) ⟨inside, living⟩ member
    | held owner owns =>
        exact Store.isShared_of_holders here (secluded.alive owner) owns ⟨inside, living⟩ member
          fun same => theirs (same ▸ owner)
  simp [alone] at shared

/-- The only living owner of an array that belongs to what is kept is a slot that does. -/
theorem array_owner (secluded : o.Secluded) {a : ArrayId} {t : SlotId}
    (ours : o.Belongs (.array a)) (living : ¬ o.Gone (.slot t))
    (reads : o.machine.store.read t = .array a) : o.Belongs (.slot t) := by
  cases ours with
  | root kept => exact absurd (secluded.arrays a kept t reads) living
  | held owner owns =>
      rcases secluded.slot_or_array owner with ⟨s, rfl⟩ | ⟨b, rfl⟩
      · rcases Value.mem_handles owns with ⟨_, owned, same⟩ | ⟨_, _, same⟩
        · cases same
          exact secluded.sound.owned.single s t a owned reads ▸ owner
        · cases same
      · simp [Store.holds, ArrayData.handles] at owns

/-- What belongs to what is kept belongs to it alone: of the living things, classes apart, only what
belongs to it holds it. -/
theorem holder (secluded : o.Secluded) {g h : Handle} (ours : o.Belongs h)
    (inside : g.Within o.machine.store.extent) (living : ¬ o.Gone g)
    (isThing : ∀ c, g ≠ .classData c) (member : h ∈ o.machine.store.holds g) : o.Belongs g := by
  rcases secluded.slot_or_array ours with ⟨s, rfl⟩ | ⟨a, rfl⟩
  · exact secluded.slot_holder ours inside living member
  · cases g with
    | slot t =>
        rcases Value.mem_handles member with ⟨_, reads, same⟩ | ⟨_, _, same⟩
        · cases same
          exact secluded.array_owner ours living reads
        · cases same
    | array b => simp [Store.holds, ArrayData.handles] at member
    | object b => simp [Store.holds, ObjectData.handles] at member
    | classData c => exact absurd rfl (isThing c)

/-- What living things hold is alive. -/
theorem held_alive (secluded : o.Secluded) {g h : Handle}
    (inside : g.Within o.machine.store.extent) (living : ¬ o.Gone g)
    (member : h ∈ o.machine.store.holds g) :
    h.Within o.machine.store.extent ∧ ¬ o.Gone h :=
  ⟨secluded.sound.owned.closed g inside h member,
    fun ⟨_, _, holders⟩ => living (holders g inside member)⟩

/-- A root among the slots that belong to what is kept is kept itself. -/
theorem kept_of_rooted (secluded : o.Secluded) {s : SlotId} (rooted : .slot s ∈ o.roots)
    (ours : o.Belongs (.slot s)) : .slot s ∈ o.kept := by
  have here := (secluded.alive ours).1
  have alone := secluded.unshared s ours
  cases ours with
  | root kept => exact kept
  | held owner owns =>
      have shared := Store.isShared_of_root here rooted (secluded.alive owner) owns
      simp [alone] at shared

/-- No pending evaluation holds a slot that belongs to what is kept. -/
theorem mayHold (secluded : o.Secluded) :
    ∀ h ∈ o.held, o.MayHold o.machine.store.extent h := by
  intro h member
  refine ⟨secluded.inside h member, fun ⟨_, unrooted, _⟩ =>
    unrooted (List.mem_append_right _ member), ?_⟩
  rintro s rfl ours
  have kept := secluded.kept_of_rooted (List.mem_append_right _ member) ours
  have alone := secluded.unshared s ours
  have shared : o.machine.store.isShared o.roots s = true := by
    apply Store.isShared_of_roots (secluded.alive ours).1
    have first := List.count_pos_iff.mpr (secluded.slots s kept)
    have second := List.count_pos_iff.mpr member
    rw [roots, Machine.roots_eq, List.count_append, List.count_append]
    omega
  simp [alone] at shared

end Secluded

end Outset
end TreeScript
