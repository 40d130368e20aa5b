import Mathlib.Algebra.Order.BigOperators.Group.Finset
import TreeScript.Proofs.Store.Change

set_option autoImplicit false

/- The tally of a store counts, for each thing, the roots and the living holders of it. Dead is what
no root holds and only dead things hold; the tally releases exactly these. -/
namespace TreeScript

namespace Tally

def extent (t : Tally) : Extent := ⟨t.slots.size, t.arrays.size, t.objects.size, t.classes.size⟩

theorem count_outside {t : Tally} {h : Handle} (outside : ¬ h.Within t.extent) :
    t.count h = 0 := by
  cases h <;> exact congrArg (·.getD 0) (Array.getElem?_eq_none (Nat.le_of_not_lt outside))

theorem extent_modify (t : Tally) (f : Nat → Nat) (h : Handle) :
    (t.modify f h).extent = t.extent := by
  cases h <;> simp [modify, extent]

theorem count_modify_of_ne {t : Tally} {f : Nat → Nat} {g h : Handle} (apart : g ≠ h) :
    (t.modify f h).count g = t.count g := by
  rcases g with ⟨⟨i⟩⟩ | ⟨⟨i⟩⟩ | ⟨⟨i⟩⟩ | ⟨⟨i⟩⟩ <;> rcases h with ⟨⟨j⟩⟩ | ⟨⟨j⟩⟩ | ⟨⟨j⟩⟩ | ⟨⟨j⟩⟩ <;>
    simp_all [modify, count, Array.getElem?_modify, eq_comm]

theorem count_modify_self {t : Tally} {f : Nat → Nat} {h : Handle}
    (inside : h.Within t.extent) : (t.modify f h).count h = f (t.count h) := by
  cases h <;> simp_all [modify, count, Handle.Within, extent, Array.getElem_modify]

/-- Taking a holder away needs no bounds: where nothing is counted, nothing is taken. -/
theorem count_pred (t : Tally) (g h : Handle) :
    (t.modify (· - 1) h).count g = if g = h then t.count g - 1 else t.count g := by
  split
  · next same =>
      subst same
      by_cases inside : g.Within t.extent
      · exact count_modify_self inside
      · rw [count_outside (by rwa [extent_modify]), count_outside inside]
  · next apart => exact count_modify_of_ne apart

theorem addAll_cons (t : Tally) (h : Handle) (rest : List Handle) :
    t.addAll (h :: rest) = (t.modify (· + 1) h).addAll rest := rfl

theorem extent_addAll (t : Tally) (l : List Handle) : (t.addAll l).extent = t.extent := by
  induction l generalizing t with
  | nil => rfl
  | cons h rest ih => rw [addAll_cons, ih, extent_modify]

theorem count_addAll (t : Tally) (l : List Handle) {g : Handle} (inside : g.Within t.extent) :
    (t.addAll l).count g = t.count g + l.count g := by
  induction l generalizing t with
  | nil => rfl
  | cons h rest ih =>
      rw [addAll_cons, ih _ (by rwa [extent_modify]), List.count_cons]
      by_cases same : h = g
      · subst same
        rw [count_modify_self inside]
        simp only [beq_self_eq_true, if_true]
        omega
      · rw [count_modify_of_ne (Ne.symm same)]
        simp [same]

theorem extent_dropAll (t : Tally) (l : List Handle) : (t.dropAll l).2.extent = t.extent := by
  induction l generalizing t with
  | nil => rfl
  | cons h rest ih =>
      simp only [dropAll]
      split <;> exact (ih _).trans (extent_modify t _ h)

theorem count_dropAll (t : Tally) (l : List Handle) (g : Handle) :
    (t.dropAll l).2.count g = t.count g - l.count g := by
  induction l generalizing t with
  | nil => rfl
  | cons h rest ih =>
      have dropped : ((t.modify (· - 1) h).dropAll rest).2.count g =
          t.count g - (h :: rest).count g := by
        rw [ih, count_pred, List.count_cons]
        by_cases same : g = h
        · subst same
          simp only [if_true, beq_self_eq_true]
          omega
        · simp [same, Ne.symm same]
      simp only [dropAll]
      split <;> exact dropped

/-- Freed is what was held before and is not held any more. -/
theorem mem_dropAll (t : Tally) (l : List Handle) (g : Handle) :
    g ∈ (t.dropAll l).1 ↔ 0 < t.count g ∧ (t.dropAll l).2.count g = 0 := by
  induction l generalizing t with
  | nil => simp [dropAll, Nat.pos_iff_ne_zero]
  | cons h rest ih =>
      have later := ih (t.modify (· - 1) h)
      have left := count_dropAll (t.modify (· - 1) h) rest g
      rw [count_pred] at later left
      by_cases same : g = h
      · subst same
        simp only [if_true] at later left
        by_cases last : t.count g = 1
        · simp only [dropAll, if_pos last, List.mem_cons, true_or, true_iff]
          omega
        · simp only [dropAll, if_neg last, later]
          omega
      · simp only [if_neg same] at later
        by_cases last : t.count h = 1
        · simp only [dropAll, if_pos last, List.mem_cons, same, false_or, later]
        · simp only [dropAll, if_neg last, later]

theorem nodup_dropAll (t : Tally) (l : List Handle) : (t.dropAll l).1.Nodup := by
  induction l generalizing t with
  | nil => exact List.nodup_nil
  | cons h rest ih =>
      by_cases last : t.count h = 1
      · simp only [dropAll, if_pos last]
        refine List.nodup_cons.mpr ⟨fun again => ?_, ih _⟩
        have held := ((mem_dropAll _ rest h).mp again).1
        rw [count_pred, if_pos rfl, last] at held
        exact Nat.lt_irrefl 0 held
      · simp only [dropAll, if_neg last]
        exact ih _

theorem extent_zero (st : Store) : (zero st).extent = st.extent := by
  simp [zero, extent, Store.extent]

theorem count_zero (st : Store) (h : Handle) : (zero st).count h = 0 := by
  cases h <;> simp [zero, count, Array.getElem?_replicate] <;> split <;> rfl

end Tally

namespace Store

variable {st : Store} {roots : List Handle}

theorem mem_contents {h : Handle} : h ∈ st.contents ↔ h.Within st.extent := by
  rcases h with ⟨⟨i⟩⟩ | ⟨⟨i⟩⟩ | ⟨⟨i⟩⟩ | ⟨⟨i⟩⟩ <;> simp [contents, Handle.Within, extent]

theorem nodup_contents (st : Store) : st.contents.Nodup := by
  have each : ∀ (n : Nat) (handle : Nat → Handle), Function.Injective handle →
      ((List.range n).map handle).Nodup := fun n _ injective => List.nodup_range.map injective
  simp only [contents, List.nodup_append, List.mem_append, List.mem_map]
  refine ⟨⟨⟨each _ _ fun i j same => ?_, each _ _ fun i j same => ?_, ?_⟩,
    each _ _ fun i j same => ?_, ?_⟩, each _ _ fun i j same => ?_, ?_⟩
  all_goals grind

/-- What no root holds, and nothing but what is dead itself. -/
inductive Dead (st : Store) (roots : List Handle) : Handle → Prop
  | unheld {h : Handle} (inside : h.Within st.extent) (unrooted : h ∉ roots)
      (holders : ∀ g : Handle, g.Within st.extent → h ∈ st.holds g → Dead st roots g) :
      Dead st roots h

theorem Dead.inside {h : Handle} (dead : st.Dead roots h) : h.Within st.extent := by
  cases dead
  assumption

/-- What the roots lead to. -/
inductive Reachable (st : Store) (roots : List Handle) : Handle → Prop
  | root {h : Handle} (member : h ∈ roots) : Reachable st roots h
  | held {g h : Handle} (holder : Reachable st roots g) (member : h ∈ st.holds g) :
      Reachable st roots h

/-- The state of a release: what has not been released yet, what of it is unheld, and the tally. -/
structure Releasing (st : Store) (roots : List Handle) (waiting : Finset Handle)
    (unheld : List Handle) (t : Tally) : Prop where
  extent : t.extent = st.extent
  inside : ∀ h ∈ waiting, h.Within st.extent
  counts : ∀ h : Handle, h.Within st.extent →
    t.count h = roots.count h + ∑ g ∈ waiting, (st.holds g).count h
  distinct : unheld.Nodup
  listed : ∀ h, h ∈ unheld ↔ h ∈ waiting ∧ t.count h = 0
  released : ∀ h : Handle, h.Within st.extent → h ∉ waiting → t.count h = 0 ∧ st.Dead roots h

namespace Releasing

variable {waiting : Finset Handle} {unheld : List Handle} {t : Tally} {x : Handle}

/-- Something unheld that waits to be released is dead: its holders have been released. -/
theorem dead (state : Releasing st roots waiting unheld t) (waits : x ∈ waiting)
    (free : t.count x = 0) : st.Dead roots x := by
  have inside := state.inside x waits
  have sum := state.counts x inside
  refine .unheld inside (fun rooted => ?_) fun g here holds => ?_
  · have positive := List.count_pos_iff.mpr rooted
    omega
  · by_cases later : g ∈ waiting
    · have positive := List.count_pos_iff.mpr holds
      have part : (st.holds g).count x ≤ ∑ g ∈ waiting, (st.holds g).count x :=
        Finset.single_le_sum_of_canonicallyOrdered (f := fun g => (st.holds g).count x) later
      omega
    · exact (state.released g here later).2

/-- Releasing one thing keeps the state in order. -/
theorem step (state : Releasing st roots waiting (x :: unheld) t) :
    Releasing st roots (waiting.erase x) ((t.dropAll (st.holds x)).1 ++ unheld)
      (t.dropAll (st.holds x)).2 := by
  obtain ⟨waits, free⟩ := (state.listed x).mp List.mem_cons_self
  obtain ⟨fresh, distinct⟩ := List.nodup_cons.mp state.distinct
  have still : ∀ h, t.count h = 0 → (t.dropAll (st.holds x)).2.count h = 0 := by
    intro h none
    rw [Tally.count_dropAll]
    omega
  have others : ∀ h ∈ unheld, h ∈ waiting ∧ t.count h = 0 := fun h member =>
    (state.listed h).mp (List.mem_cons_of_mem x member)
  refine ⟨(Tally.extent_dropAll t _).trans state.extent,
    fun h member => state.inside h (Finset.mem_of_mem_erase member), ?_, ?_, ?_, ?_⟩
  · intro h inside
    rw [Tally.count_dropAll, state.counts h inside,
      ← Finset.add_sum_erase waiting (fun g => (st.holds g).count h) waits]
    omega
  · refine List.nodup_append.mpr ⟨Tally.nodup_dropAll t _, distinct, ?_⟩
    rintro h freed g member rfl
    have before := ((Tally.mem_dropAll t _ h).mp freed).1
    have none := (others h member).2
    omega
  · intro h
    rw [List.mem_append, Tally.mem_dropAll, Finset.mem_erase]
    constructor
    · rintro (⟨held, none⟩ | member)
      · refine ⟨⟨?_, ?_⟩, none⟩
        · rintro rfl
          omega
        · by_contra gone
          have within : h.Within st.extent := by
            by_contra outside
            have none := Tally.count_outside (t := t) (state.extent ▸ outside)
            omega
          have none := (state.released h within gone).1
          omega
      · obtain ⟨later, none⟩ := others h member
        exact ⟨⟨fun same => fresh (same ▸ member), later⟩, still h none⟩
    · rintro ⟨⟨other, later⟩, none⟩
      by_cases held : t.count h = 0
      · rcases List.mem_cons.mp ((state.listed h).mpr ⟨later, held⟩) with same | member
        · exact absurd same other
        · exact .inr member
      · exact .inl ⟨Nat.pos_of_ne_zero held, none⟩
  · intro h within gone
    by_cases same : h = x
    · subst same
      exact ⟨still h free, state.dead waits free⟩
    · obtain ⟨none, dead⟩ := state.released h within fun later =>
        gone (Finset.mem_erase.mpr ⟨same, later⟩)
      exact ⟨still h none, dead⟩

/-- With a step for each thing that waits, a release comes to its end. -/
theorem run {n : Nat} (state : Releasing st roots waiting unheld t) (enough : waiting.card ≤ n) :
    ∃ living, Releasing st roots living [] (st.release n unheld t) := by
  induction n generalizing waiting unheld t with
  | zero =>
      have empty : waiting = ∅ := Finset.card_eq_zero.mp (Nat.le_zero.mp enough)
      cases unheld with
      | nil => exact ⟨waiting, state⟩
      | cons x rest =>
          have waits := ((state.listed x).mp List.mem_cons_self).1
          simp [empty] at waits
  | succ n ih =>
      cases unheld with
      | nil => exact ⟨waiting, state⟩
      | cons x rest =>
          have waits := ((state.listed x).mp List.mem_cons_self).1
          have fewer := Finset.card_erase_of_mem waits
          exact ih state.step (by omega)

/-- Nothing dead is left at the end. -/
theorem living (state : Releasing st roots waiting [] t) {h : Handle} :
    h ∈ waiting ↔ h.Within st.extent ∧ ¬ st.Dead roots h := by
  constructor
  · intro waits
    refine ⟨state.inside h waits, fun dead => ?_⟩
    induction dead with
    | @unheld h inside unrooted holders ih =>
        have alone : ∑ g ∈ waiting, (st.holds g).count h = 0 :=
          Finset.sum_eq_zero fun g later => List.count_eq_zero.mpr fun holds =>
            ih g (state.inside g later) holds later
        have none : t.count h = 0 := by
          rw [state.counts h inside, alone, List.count_eq_zero.mpr unrooted]
        exact List.not_mem_nil ((state.listed h).mpr ⟨waits, none⟩)
  · rintro ⟨inside, alive⟩
    by_contra gone
    exact alive (state.released h inside gone).2

end Releasing

/-! The tally -/

theorem extent_foldl_addAll (holds : Handle → List Handle) (l : List Handle) (t : Tally) :
    (l.foldl (fun t h => t.addAll (holds h)) t).extent = t.extent := by
  induction l generalizing t with
  | nil => rfl
  | cons h rest ih => rw [List.foldl_cons, ih, Tally.extent_addAll]

theorem count_foldl_addAll (holds : Handle → List Handle) (l : List Handle) (distinct : l.Nodup)
    {t : Tally} {g : Handle} (inside : g.Within t.extent) :
    (l.foldl (fun t h => t.addAll (holds h)) t).count g =
      t.count g + ∑ h ∈ l.toFinset, (holds h).count g := by
  induction l generalizing t with
  | nil => rfl
  | cons h rest ih =>
      obtain ⟨new, distinct⟩ := List.nodup_cons.mp distinct
      rw [List.foldl_cons, ih distinct (by rwa [Tally.extent_addAll]),
        Tally.count_addAll _ _ inside, List.toFinset_cons,
        Finset.sum_insert (by simpa using new), Nat.add_assoc]

theorem count_everyHolder {h : Handle} (inside : h.Within st.extent) :
    (st.everyHolder roots).count h =
      roots.count h + ∑ g ∈ st.contents.toFinset, (st.holds g).count h := by
  have here : h.Within (Tally.zero st).extent := by rwa [Tally.extent_zero]
  rw [everyHolder, count_foldl_addAll _ _ st.nodup_contents (by rwa [Tally.extent_addAll]),
    Tally.count_addAll _ _ here, Tally.count_zero, Nat.zero_add]

/-- At first everything waits to be released. -/
theorem releasing_start (st : Store) (roots : List Handle) :
    Releasing st roots st.contents.toFinset
      (st.contents.filter ((st.everyHolder roots).count · = 0)) (st.everyHolder roots) where
  extent := by rw [everyHolder, extent_foldl_addAll, Tally.extent_addAll, Tally.extent_zero]
  inside h member := mem_contents.mp (List.mem_toFinset.mp member)
  counts _ inside := count_everyHolder inside
  distinct := st.nodup_contents.filter _
  listed h := by simp
  released h inside gone := absurd (List.mem_toFinset.mpr (mem_contents.mpr inside)) gone

/-- The tally counts the roots and the living holders. -/
theorem count_tally (st : Store) (roots : List Handle) :
    ∃ living : Finset Handle,
      (∀ g, g ∈ living ↔ g.Within st.extent ∧ ¬ st.Dead roots g) ∧
      ∀ h : Handle, h.Within st.extent →
        (st.tally roots).count h = roots.count h + ∑ g ∈ living, (st.holds g).count h := by
  obtain ⟨living, state⟩ := (releasing_start st roots).run (List.toFinset_card_le _)
  exact ⟨living, fun g => state.living, state.counts⟩

theorem extent_tally (st : Store) (roots : List Handle) : (st.tally roots).extent = st.extent := by
  obtain ⟨living, state⟩ := (releasing_start st roots).run (List.toFinset_card_le _)
  exact state.extent

variable {st' : Store} {roots' : List Handle}

/-- Where the roots are no more and the living holders were there before, as much as they hold
now, the count is no greater. -/
theorem count_tally_le {h : Handle} (inside : h.Within st.extent) (inside' : h.Within st'.extent)
    (fewer : roots'.count h ≤ roots.count h)
    (holders : ∀ g : Handle, g.Within st'.extent → ¬ st'.Dead roots' g → h ∈ st'.holds g →
      g.Within st.extent ∧ ¬ st.Dead roots g ∧ st'.holds g = st.holds g) :
    (st'.tally roots').count h ≤ (st.tally roots).count h := by
  obtain ⟨living, isLiving, counts⟩ := count_tally st roots
  obtain ⟨living', isLiving', counts'⟩ := count_tally st' roots'
  rw [counts h inside, counts' h inside']
  have before : ∀ g ∈ living', h ∈ st'.holds g → g ∈ living ∧ st'.holds g = st.holds g := by
    intro g member holds
    obtain ⟨here, alive⟩ := (isLiving' g).mp member
    obtain ⟨there, aliveThere, same⟩ := holders g here alive holds
    exact ⟨(isLiving g).mpr ⟨there, aliveThere⟩, same⟩
  have sums : ∑ g ∈ living', (st'.holds g).count h ≤ ∑ g ∈ living, (st.holds g).count h := by
    calc ∑ g ∈ living', (st'.holds g).count h
        = ∑ g ∈ living' with h ∈ st'.holds g, (st'.holds g).count h := by
          refine (Finset.sum_filter_of_ne fun g _ some => ?_).symm
          exact List.count_pos_iff.mp (Nat.pos_of_ne_zero some)
      _ = ∑ g ∈ living' with h ∈ st'.holds g, (st.holds g).count h := by
          apply Finset.sum_congr rfl
          intro g member
          obtain ⟨member, holds⟩ := Finset.mem_filter.mp member
          rw [(before g member holds).2]
      _ ≤ ∑ g ∈ living, (st.holds g).count h := by
          apply Finset.sum_le_sum_of_subset
          intro g member
          obtain ⟨member, holds⟩ := Finset.mem_filter.mp member
          exact (before g member holds).1
  omega

/-- A slot that two living things hold is shared. -/
theorem isShared_of_holders {s : SlotId} {g g' : Handle} (inside : (Handle.slot s).Within st.extent)
    (here : g.Within st.extent ∧ ¬ st.Dead roots g) (holds : .slot s ∈ st.holds g)
    (here' : g'.Within st.extent ∧ ¬ st.Dead roots g') (holds' : .slot s ∈ st.holds g')
    (apart : g ≠ g') : st.isShared roots s = true := by
  obtain ⟨living, isLiving, counts⟩ := count_tally st roots
  have both : (st.holds g).count (.slot s) + (st.holds g').count (.slot s) ≤
      ∑ g ∈ living, (st.holds g).count (.slot s) :=
    Finset.add_le_sum (f := fun g => (st.holds g).count (.slot s)) (fun _ _ => Nat.zero_le _)
      ((isLiving g).mpr here) ((isLiving g').mpr here') apart
  have first := List.count_pos_iff.mpr holds
  have second := List.count_pos_iff.mpr holds'
  simp only [isShared, counts _ inside, decide_eq_true_eq]
  omega

/-- So is one that a root and a living thing hold. -/
theorem isShared_of_root {s : SlotId} {g : Handle} (inside : (Handle.slot s).Within st.extent)
    (rooted : .slot s ∈ roots) (here : g.Within st.extent ∧ ¬ st.Dead roots g)
    (holds : .slot s ∈ st.holds g) : st.isShared roots s = true := by
  obtain ⟨living, isLiving, counts⟩ := count_tally st roots
  have one : (st.holds g).count (.slot s) ≤ ∑ g ∈ living, (st.holds g).count (.slot s) :=
    Finset.single_le_sum_of_canonicallyOrdered (f := fun g => (st.holds g).count (.slot s))
      ((isLiving g).mpr here)
  have first := List.count_pos_iff.mpr rooted
  have second := List.count_pos_iff.mpr holds
  simp only [isShared, counts _ inside, decide_eq_true_eq]
  omega

/-- So is one that two roots hold. -/
theorem isShared_of_roots {s : SlotId} (inside : (Handle.slot s).Within st.extent)
    (twice : 1 < roots.count (.slot s)) : st.isShared roots s = true := by
  obtain ⟨living, isLiving, counts⟩ := count_tally st roots
  simp only [isShared, counts _ inside, decide_eq_true_eq]
  omega

/-- A slot is not shared that no root holds, and only one thing, which holds it once. -/
theorem not_shared_of_holder {s : SlotId} {g : Handle} (inside : (Handle.slot s).Within st.extent)
    (unrooted : .slot s ∉ roots) (once : (st.holds g).count (.slot s) ≤ 1)
    (holder : ∀ g' : Handle, g'.Within st.extent → .slot s ∈ st.holds g' → g' = g) :
    st.isShared roots s = false := by
  obtain ⟨living, isLiving, counts⟩ := count_tally st roots
  have others : ∀ g' ∈ living, g' ≠ g → (st.holds g').count (.slot s) = 0 :=
    fun g' member apart => List.count_eq_zero.mpr fun holds =>
      apart (holder g' ((isLiving g').mp member).1 holds)
  have alone : ∑ g' ∈ living, (st.holds g').count (.slot s) ≤ 1 := by
    by_cases there : g ∈ living
    · rwa [Finset.sum_eq_single_of_mem g there others]
    · rw [Finset.sum_eq_zero fun g' member => others g' member fun same => there (same ▸ member)]
      exact Nat.zero_le 1
  simp only [isShared, counts _ inside, List.count_eq_zero.mpr unrooted, decide_eq_false_iff_not]
  omega

theorem Reachable.trans {h : Handle} (led : ∀ g ∈ roots, st.Reachable roots' g)
    (reachable : st.Reachable roots h) : st.Reachable roots' h := by
  induction reachable with
  | root member => exact led _ member
  | held _ member ih => exact .held ih member

theorem Reachable.mono {h : Handle} (more : ∀ g ∈ roots, g ∈ roots')
    (reachable : st.Reachable roots h) : st.Reachable roots' h :=
  reachable.trans fun g member => .root (more g member)

/-- What roots lead to is alive, if nothing leads out of the store. -/
theorem Reachable.alive {h : Handle} (inside : ∀ g ∈ roots, g.Within st.extent)
    (closed : ∀ g : Handle, g.Within st.extent → ∀ h ∈ st.holds g, h.Within st.extent)
    (reachable : st.Reachable roots h) : h.Within st.extent ∧ ¬ st.Dead roots h := by
  induction reachable with
  | root member => exact ⟨inside _ member, fun ⟨_, unrooted, _⟩ => unrooted member⟩
  | @held g h holder member ih =>
      exact ⟨closed g ih.1 h member, fun ⟨_, _, holders⟩ => ih.2 (holders g ih.1 member)⟩

end Store
end TreeScript
