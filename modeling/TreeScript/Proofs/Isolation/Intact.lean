import TreeScript.Proofs.Isolation.Outset
import TreeScript.Proofs.Store.Guard

set_option autoImplicit false

/- What a run leaves intact at every step: it may copy what is kept from it, and what it knows and
changes is its own. -/
namespace TreeScript.Outset

open Store (Adjusts Fresh Guards)

variable {o : Outset}

/-- A machine within the run, with so many scopes around its current one that are the run's own:
what is kept is as it was, and what the run knows leads nowhere near it. -/
structure Intact (o : Outset) (depth : Nat) (m : Machine) : Prop where
  guards : Guards (fun h => o.Belongs h ∨ o.Gone h) o.machine.store m.store
  scopes : ∃ own, m.scopes = own ++ o.outer ∧ own.length = depth + 1 ∧
    ∀ scope ∈ own, ∀ entry ∈ scope, o.Known m.store.extent (.slot entry.2)
  closed : m.store.Confined fun h => ¬ o.Belongs h ∧ ¬ o.Gone h
  defaults : ∀ c, o.Known m.store.extent (.classData c) →
    ∀ g ∈ m.store.holds (.classData c), o.MayHold m.store.extent g
  classes : ∀ entry ∈ m.names.classes, o.Known m.store.extent (.classData entry.2)
  loops : ∀ loop, some loop ∈ m.loops → o.Known m.store.extent (.array loop.array)

/-- What is guarded is in the store. -/
theorem Secluded.guarded_within (secluded : o.Secluded) {e : Extent} {h : Handle}
    (grows : o.machine.store.extent ≤ e) (kept : o.Belongs h ∨ o.Gone h) : h.Within e := by
  rcases kept with ours | gone
  · exact (secluded.alive ours).1.mono grows
  · exact gone.inside.mono grows

theorem not_guarded {e : Extent} {h : Handle} (kept : o.Belongs h ∨ o.Gone h) :
    ¬ o.Known e h := fun known => kept.elim known.2.1 known.2.2

/-- What is new is known. -/
theorem Secluded.known_fresh (secluded : o.Secluded) {st st' : Store} {h : Handle}
    (grows : o.machine.store.extent ≤ st.extent) (fresh : Fresh st st' h) :
    o.Known st'.extent h :=
  ⟨fresh.2, fun ours => fresh.1 (secluded.guarded_within grows (.inl ours)),
    fun gone => fresh.1 (secluded.guarded_within grows (.inr gone))⟩

namespace Intact

variable {depth : Nat} {m : Machine}

theorem read_known (intact : o.Intact depth m) {s : SlotId} {e : Extent}
    (known : o.Known e (.slot s)) :
    ∀ g ∈ (m.store.read s).handles, o.Known m.store.extent g := intact.closed.read known.2

theorem array_known (intact : o.Intact depth m) {a : ArrayId} {e : Extent}
    (known : o.Known e (.array a)) :
    ∀ g ∈ (m.store.array a).handles, o.Known m.store.extent g := intact.closed.array known.2

/-- A change of what is known, that stores what is known, keeps everything in order. -/
theorem adjust (intact : o.Intact depth m) (secluded : o.Secluded) {v : Value} {st : Store}
    (knownValue : ∀ g ∈ v.handles, o.Known m.store.extent g)
    (change : Adjusts (o.Known m.store.extent) v m.store st) :
    o.Intact depth { m with store := st } := by
  have mono : ∀ g, o.Known m.store.extent g → o.Known st.extent g := fun _ => .mono change.grows
  have fresh : ∀ g, Fresh m.store st g → o.Known st.extent g :=
    fun _ => secluded.known_fresh intact.guards.grows
  refine ⟨?_, ?_, ?_, ?_, fun entry member => mono _ (intact.classes entry member),
    fun loop member => mono _ (intact.loops loop member)⟩
  · exact intact.guards.adjust (fun _ => secluded.guarded_within intact.guards.grows)
      (fun _ => not_guarded) change
  · obtain ⟨own, isOwn, length, known⟩ := intact.scopes
    exact ⟨own, isOwn, length, fun scope listed entry member =>
      mono _ (known scope listed entry member)⟩
  · exact intact.closed.adjust knownValue (fun g isNew => (fresh g isNew).2) change
  · intro c known g member
    have before : o.Known m.store.extent (.classData c) :=
      ⟨change.within_classData known.1, known.2⟩
    rw [change.holds_classData] at member
    exact (intact.defaults c before g member).mono change.grows

theorem newClass (intact : o.Intact depth m) {data : ClassData}
    (known : ∀ g ∈ data.handles, o.Known m.store.extent g) :
    o.Intact depth { m with store := (m.store.newClass data).2 } := by
  have grows := Store.extent_newClass m.store data
  refine ⟨intact.guards.newClass data, ?_, ?_, ?_,
    fun entry member => (intact.classes entry member).mono grows,
    fun loop member => (intact.loops loop member).mono grows⟩
  · obtain ⟨own, isOwn, length, known⟩ := intact.scopes
    exact ⟨own, isOwn, length, fun scope listed entry member =>
      (known scope listed entry member).mono grows⟩
  · exact intact.closed.newClass data
  · intro c knownClass g member
    rcases Store.mem_holds_newClass knownClass.1 member with added | ⟨before, held⟩
    · exact (known g added).mayHold.mono grows
    · exact (intact.defaults c ⟨before, knownClass.2⟩ g held).mono grows

/-! Copies -/

/-- Only guarded things hold what the run may not hold. -/
theorem holder_guarded (intact : o.Intact depth m) {g h : Handle}
    (inside : g.Within m.store.extent) (forbidden : ¬ o.MayHold m.store.extent h)
    (member : h ∈ m.store.holds g) : o.Belongs g ∨ o.Gone g := by
  by_contra neither
  have known : o.Known m.store.extent g :=
    ⟨inside, fun ours => neither (.inl ours), fun gone => neither (.inr gone)⟩
  by_cases isClass : ∃ c, g = .classData c
  · obtain ⟨c, rfl⟩ := isClass
    exact forbidden (intact.defaults c known h member)
  · have isThing : ∀ c, g ≠ .classData c := fun c same => isClass ⟨c, same⟩
    exact forbidden (Known.mayHold (intact.closed g known isThing h member))

/-- A root is a variable of the outer scopes, or something that the run may hold. -/
theorem root_cases (intact : o.Intact depth m) {pending : List Handle}
    (held : ∀ g ∈ pending, o.MayHold m.store.extent g) {h : Handle}
    (rooted : h ∈ m.roots ++ pending) :
    h ∈ variablesOf o.outer ∨ o.MayHold m.store.extent h := by
  obtain ⟨own, isOwn, -, known⟩ := intact.scopes
  rcases List.mem_append.mp rooted with root | later
  · rcases List.mem_append.mp root with isVariable | isClass
    · obtain ⟨scope, listed, entry, inScope, rfl⟩ := mem_variablesOf.mp isVariable
      rw [isOwn] at listed
      rcases List.mem_append.mp listed with ours | theirs
      · exact .inr (known scope ours entry inScope).mayHold
      · exact .inl (mem_variablesOf.mpr ⟨scope, theirs, entry, inScope, rfl⟩)
    · obtain ⟨entry, listed, rfl⟩ := List.mem_map.mp isClass
      exact .inr (intact.classes entry listed).mayHold
  · exact .inr (held h later)

/-- What is gone stays gone. -/
theorem dead (intact : o.Intact depth m) (secluded : o.Secluded) {pending : List Handle}
    (held : ∀ g ∈ pending, o.MayHold m.store.extent g) {h : Handle} (gone : o.Gone h) :
    m.store.Dead (m.roots ++ pending) h := by
  have isGone : o.Gone h := gone
  induction gone with
  | @unheld h inside unrooted holders ih =>
      refine .unheld (inside.mono intact.guards.grows) (fun rooted => ?_) fun g here member => ?_
      · rcases intact.root_cases held rooted with isVariable | may
        · exact unrooted (secluded.outer_sublist.subset isVariable)
        · exact may.2.1 isGone
      · have kept := intact.holder_guarded here (fun may => may.2.1 isGone) member
        rw [intact.guards.holds (secluded.guarded_within (le_refl _) kept) kept] at member
        rcases kept with ours | holderGone
        · exact absurd isGone (secluded.alive (ours.holds member)).2
        · exact ih g holderGone.inside member holderGone

/-- A slot that is kept is rooted as often as at the outset, at most. -/
theorem count_roots_le (intact : o.Intact depth m) (secluded : o.Secluded) {pending : List Handle}
    (held : ∀ g ∈ pending, o.MayHold m.store.extent g) {s : SlotId} (ours : o.Belongs (.slot s)) :
    (m.roots ++ pending).count (.slot s) ≤ o.roots.count (.slot s) := by
  obtain ⟨own, isOwn, -, known⟩ := intact.scopes
  have ownCount : (variablesOf own).count (.slot s) = 0 := by
    apply List.count_eq_zero.mpr
    intro member
    obtain ⟨scope, listed, entry, isEntry, same⟩ := mem_variablesOf.mp member
    exact (known scope listed entry isEntry).2.1 (same ▸ ours)
  have classCount : m.namedClasses.count (.slot s) = 0 :=
    List.count_eq_zero.mpr (by simp [Machine.namedClasses])
  have pendingCount : pending.count (.slot s) = 0 :=
    List.count_eq_zero.mpr fun member => (held _ member).2.2 s rfl ours
  have split : m.variables = variablesOf own ++ variablesOf o.outer := by
    rw [Machine.variables, isOwn, variablesOf, List.flatMap_append]
    rfl
  have outset : (variablesOf o.outer).count (.slot s) ≤ o.roots.count (.slot s) :=
    secluded.outer_sublist.count_le _
  rw [Machine.roots_eq, split, List.count_append, List.count_append, List.count_append]
  omega

/-- The slots that are kept are not shared within the run either. -/
theorem unshared (intact : o.Intact depth m) (secluded : o.Secluded) {pending : List Handle}
    (held : ∀ g ∈ pending, o.MayHold m.store.extent g) {s : SlotId}
    (ours : o.Belongs (.slot s)) : m.store.isShared (m.roots ++ pending) s = false := by
  have here := (secluded.alive ours).1
  have fewer : (m.store.tally (m.roots ++ pending)).count (.slot s) ≤
      (o.machine.store.tally o.roots).count (.slot s) := by
    refine Store.count_tally_le here (here.mono intact.guards.grows)
      (intact.count_roots_le secluded held ours) fun g inside living member => ?_
    rcases intact.holder_guarded inside (fun may => may.2.2 s rfl ours) member with owner | gone
    · obtain ⟨there, alive⟩ := secluded.alive owner
      exact ⟨there, alive, intact.guards.holds there (.inl owner)⟩
    · exact absurd (intact.dead secluded held gone) living
  have alone := secluded.unshared s ours
  simp only [Store.isShared, decide_eq_false_iff_not] at alone ⊢
  omega

/-- What an array that is kept leads to is found as at the outset, and may be copied. -/
theorem copyLaws (intact : o.Intact depth m) (secluded : o.Secluded) {pending : List Handle}
    (held : ∀ g ∈ pending, o.MayHold m.store.extent g) :
    Store.CopyLaws (fun depth st => o.Intact depth { m with store := st })
      (fun depth _ => depth) o.Known (o.MayHold m.store.extent)
      (m.store.isShared (m.roots ++ pending)) m.store := by
  have element : ∀ {a : ArrayId} {s : SlotId}, o.MayHold m.store.extent (.array a) →
      .slot s ∈ (m.store.array a).handles →
      o.Belongs (.slot s) ∨ o.Known m.store.extent (.slot s) := by
    intro a s may member
    by_cases ours : o.Belongs (.array a)
    · rw [intact.guards.arrays a (.inl ours)] at member
      exact .inl (ours.holds member)
    · exact .inr (intact.array_known ⟨may.1, ours, may.2.1⟩ _ member)
  refine ⟨Known.mono, fun _ intact => intact, fun {depth st v} intact known => ?_,
    fun {depth st data} intact known => ?_, fun intact fresh => ?_, fun may => ?_, fun may => may.1,
    fun may member => ?_, fun may member shared => ?_, fun {a s} may member _ h reads => ?_⟩
  · exact intact.adjust secluded known (Store.adjusts_newSlot _ v st)
  · exact intact.adjust (v := .null) secluded (by simp [Value.handles])
      (Store.adjusts_newArray st .null known)
  · exact secluded.known_fresh intact.guards.grows fresh
  · exact ⟨may.1, secluded.noObject _, may.2.1⟩
  · rcases element may member with ours | known
    · exact (secluded.alive ours).1.mono intact.guards.grows
    · exact known.1
  · rcases element may member with ours | known
    · simp [intact.unshared secluded held ours] at shared
    · exact known
  · rcases element may member with ours | known
    · rw [intact.guards.slots s (.inl ours)] at reads
      have theirs : o.Belongs h := ours.holds reads
      obtain ⟨there, alive⟩ := secluded.alive theirs
      refine ⟨there.mono intact.guards.grows, alive, fun t isSlot => ?_⟩
      rcases Value.mem_handles reads with ⟨_, _, same⟩ | ⟨_, _, same⟩ <;>
        cases same.symm.trans isSlot
    · exact (intact.read_known known h reads).mayHold

/-! Scopes, names and loops -/

theorem rescope (intact : o.Intact depth m) (own : List Scope) {depth' : Nat}
    (length : own.length = depth' + 1)
    (known : ∀ scope ∈ own, ∀ entry ∈ scope, o.Known m.store.extent (.slot entry.2)) :
    o.Intact depth' { m with scopes := own ++ o.outer } where
  guards := intact.guards
  scopes := ⟨own, rfl, length, known⟩
  closed := intact.closed
  defaults := intact.defaults
  classes := intact.classes
  loops := intact.loops

/-- The current scope is the run's own. -/
theorem current (intact : o.Intact depth m) {scope : Scope} {outer : List Scope}
    (isScope : m.scopes = scope :: outer) :
    ∃ own, outer = own ++ o.outer ∧ own.length = depth ∧
      (∀ entry ∈ scope, o.Known m.store.extent (.slot entry.2)) ∧
      ∀ scope ∈ own, ∀ entry ∈ scope, o.Known m.store.extent (.slot entry.2) := by
  obtain ⟨own, isOwn, length, known⟩ := intact.scopes
  cases own with
  | nil => simp at length
  | cons first rest =>
      obtain ⟨rfl, rfl⟩ := List.cons.inj (isScope.symm.trans isOwn)
      obtain ⟨knownFirst, knownRest⟩ := List.forall_mem_cons.mp known
      exact ⟨rest, rfl, by simpa using length, knownFirst, knownRest⟩

/-- The current scope is replaced by another of known slots. -/
theorem replace (intact : o.Intact depth m) {scope scope' : Scope} {outer : List Scope}
    (isScope : m.scopes = scope :: outer)
    (known : (∀ entry ∈ scope, o.Known m.store.extent (.slot entry.2)) →
      ∀ entry ∈ scope', o.Known m.store.extent (.slot entry.2)) :
    o.Intact depth { m with scopes := scope' :: outer } := by
  obtain ⟨own, rfl, length, knownScope, knownOwn⟩ := intact.current isScope
  apply intact.rescope (scope' :: own) (by simp [length])
  exact List.forall_mem_cons.mpr ⟨known knownScope, knownOwn⟩

theorem push (intact : o.Intact depth m) :
    o.Intact (depth + 1) { m with scopes := [] :: m.scopes } := by
  obtain ⟨own, isOwn, length, known⟩ := intact.scopes
  rw [isOwn]
  apply intact.rescope ([] :: own) (by simp [length])
  exact List.forall_mem_cons.mpr ⟨by simp, known⟩

theorem pop (intact : o.Intact (depth + 1) m) :
    o.Intact depth { m with scopes := m.scopes.tail } := by
  obtain ⟨own, isOwn, length, known⟩ := intact.scopes
  cases own with
  | nil => simp at length
  | cons first rest =>
      rw [isOwn]
      exact intact.rescope rest (by simpa using length) (List.forall_mem_cons.mp known).2

theorem setLoop (intact : o.Intact depth m) (slot : Nat) {loop : Option Loop}
    (known : ∀ l, loop = some l → o.Known m.store.extent (.array l.array)) :
    o.Intact depth (m.setLoop slot loop) where
  guards := intact.guards
  scopes := intact.scopes
  closed := intact.closed
  defaults := intact.defaults
  classes := intact.classes
  loops l member := (Discipline.mem_setLoop member).elim (intact.loops l) (known l)

end Intact

end TreeScript.Outset
