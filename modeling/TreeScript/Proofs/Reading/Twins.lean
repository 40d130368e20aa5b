import TreeScript.Proofs.Reading.Shift
import TreeScript.Proofs.Store.Offshoot

set_option autoImplicit false

/- Twins: a store that has grown out of another, and a second one to which the same things have been
added on top of others. The others hold nothing that would make a difference, so that the same slots
are shared in both, and copies are made alike. -/
namespace TreeScript

open Store (Extends Closed Grounded Met Tied Offshoot Regrown)

/-- The first store has grown out of `base`, the second out of `later`, which itself has grown out
of `base`, by the same additions. -/
structure Twins (base : Store) (roots : List Handle) (later st st' : Store) : Prop where
  grounded : Grounded base roots
  spare : Offshoot base roots later
  first : Offshoot base roots st
  second : Extends later st'
  shifted : Shifted (.between base later) st st'

namespace Twins

variable {base later st st' : Store} {roots roots₁ : List Handle} {h h' : Handle} {v : Value}

/-- At the start the first store is `base` itself and the second is `later`. -/
theorem start (grounded : Grounded base roots) (spare : Offshoot base roots later) :
    Twins base roots later base later where
  grounded := grounded
  spare := spare
  first := .start grounded
  second := .refl later
  shifted := by
    obtain ⟨slots, arrays, -, -⟩ := (Extent.le_def _ _).mp spare.ext.grows
    have moreSlots : later.slots.size = base.slots.size + (later.slots.size - base.slots.size) :=
      (Nat.add_sub_of_le slots).symm
    have moreArrays :
        later.arrays.size = base.arrays.size + (later.arrays.size - base.arrays.size) :=
      (Nat.add_sub_of_le arrays).symm
    refine ⟨moreSlots, moreArrays, Nat.le_refl _, Nat.le_refl _, fun s => ?_, fun a => ?_,
      spare.ext.objects, spare.ext.classes, fun o => ?_, fun c h member => ?_⟩
    · by_cases old : (Handle.slot s).Within base.extent
      · rw [Shift.slot_of_within old, spare.ext.slots s old,
          Shift.value_of_within (grounded.closed.read old)]
      · have outside : ¬ (Handle.slot ((Shift.between base later).slot s)).Within later.extent := by
          rw [Handle.Within, Store.extent, moreSlots]
          exact mt (shiftNumber_lt (Nat.le_refl _) _).mp old
        rw [Store.read_outside outside, Store.read_outside old]
        rfl
    · by_cases old : (Handle.array a).Within base.extent
      · rw [Shift.array_of_within old, spare.ext.arrays a old, Shift.data,
          Shift.entries_of_within fun entry member => grounded.closed.element old member]
      · have outside :
            ¬ (Handle.array ((Shift.between base later).array a)).Within later.extent := by
          rw [Handle.Within, Store.extent, moreArrays]
          exact mt (shiftNumber_lt (Nat.le_refl _) _).mp old
        rw [Store.array_outside outside, Store.array_outside old]
        rfl
    · exact Shift.entries_of_within fun entry member =>
        grounded.closed.property (Store.inside_of_property member) member
    · refine Shift.handle_of_within (grounded.closed (.classData c) ?_ h member)
      by_contra outside
      have beyond : base.classes.size ≤ c.index := Nat.le_of_not_lt outside
      simp [Store.classData, beyond, ClassData.handles] at member

/-! What is spare -/

/-- What the second store has and the first has not was there before the additions. -/
theorem exists_handle_iff (twins : Twins base roots later st st') (h' : Handle) :
    (∃ h, (Shift.between base later).handle h = h') ↔
      ¬ (h'.Within later.extent ∧ ¬ h'.Within base.extent) := by
  obtain ⟨slots, arrays, objects, classes⟩ := (Extent.le_def _ _).mp twins.spare.ext.grows
  cases h' with
  | slot s =>
      rw [Handle.Within, Handle.Within, ← exists_shiftNumber_iff slots]
      constructor
      · rintro ⟨h, same⟩
        cases h <;> cases same
        exact ⟨_, rfl⟩
      · rintro ⟨j, same⟩
        exact ⟨.slot ⟨j⟩, congrArg (fun i => Handle.slot ⟨i⟩) same⟩
  | array a =>
      rw [Handle.Within, Handle.Within, ← exists_shiftNumber_iff arrays]
      constructor
      · rintro ⟨h, same⟩
        cases h <;> cases same
        exact ⟨_, rfl⟩
      · rintro ⟨j, same⟩
        exact ⟨.array ⟨j⟩, congrArg (fun i => Handle.array ⟨i⟩) same⟩
  | object o =>
      have same : later.objects.size = base.objects.size := by rw [twins.spare.ext.objects]
      simp only [Handle.Within, Store.extent, same]
      exact iff_of_true ⟨.object o, rfl⟩ fun between => between.2 between.1
  | classData c =>
      have same : later.classes.size = base.classes.size := by rw [twins.spare.ext.classes]
      simp only [Handle.Within, Store.extent, same]
      exact iff_of_true ⟨.classData c, rfl⟩ fun between => between.2 between.1

/-- What is spare holds nothing that was added, and of the rest only what new things may hold. -/
theorem tied_of_spare (twins : Twins base roots later st st')
    (spare : h'.Within later.extent ∧ ¬ h'.Within base.extent)
    (holds : (Shift.between base later).handle h ∈ st'.holds h') :
    h.Within base.extent ∧ Tied base roots later.extent h := by
  rw [twins.second.holds spare.1] at holds
  have tied := twins.spare.tied h' spare.1 spare.2 _ holds
  have old : ((Shift.between base later).handle h).Within base.extent := by
    by_contra new
    exact (twins.exists_handle_iff _).mp ⟨h, rfl⟩ ⟨tied.inside, new⟩
  have same : (Shift.between base later).handle h = h :=
    Shift.handle_injective _ (Shift.handle_of_within old)
  rw [same] at tied old
  exact ⟨old, tied⟩

/-- What is new in the first store is outside of `later` in the second. -/
theorem outside (twins : Twins base roots later st st') (new : ¬ h.Within base.extent) :
    ¬ ((Shift.between base later).handle h).Within later.extent := by
  intro inside
  by_cases old : ((Shift.between base later).handle h).Within base.extent
  · have same : (Shift.between base later).handle h = h :=
      Shift.handle_injective _ (Shift.handle_of_within old)
    exact new (same ▸ old)
  · exact (twins.exists_handle_iff _).mp ⟨h, rfl⟩ ⟨inside, old⟩

/-! Additions -/

theorem newSlot (twins : Twins base roots later st st')
    (met : ∀ h ∈ v.handles, Met base roots st.extent h) :
    (st'.newSlot ((Shift.between base later).value v)).1 =
        (Shift.between base later).slot (st.newSlot v).1 ∧
      Twins base roots later (st.newSlot v).2
        (st'.newSlot ((Shift.between base later).value v)).2 := by
  obtain ⟨number, shifted⟩ := twins.shifted.newSlot v
  exact ⟨number.symm, twins.grounded, twins.spare, twins.first.newSlot met,
    twins.second.trans (Store.extends_newSlot _ _), shifted⟩

theorem newArray {data : ArrayData} (twins : Twins base roots later st st')
    (tied : ∀ h ∈ data.handles, Tied base roots st.extent h) :
    (st'.newArray ((Shift.between base later).data data)).1 =
        (Shift.between base later).array (st.newArray data).1 ∧
      Twins base roots later (st.newArray data).2
        (st'.newArray ((Shift.between base later).data data)).2 := by
  obtain ⟨number, shifted⟩ := twins.shifted.newArray data
  exact ⟨number.symm, twins.grounded, twins.spare, twins.first.newArray tied,
    twins.second.trans (Store.extends_newArray _ _), shifted⟩

/-- A value is put in an array that is new, where no slot is yet or a slot that is new. -/
theorem put {a : ArrayId} {key : Option Key} (twins : Twins base roots later st st')
    (there : (Handle.array a).Within st.extent) (new : ¬ (Handle.array a).Within base.extent)
    (found : ∀ k ∈ key, ∀ s ∈ (st.array a).slot? k, ¬ (Handle.slot s).Within base.extent)
    (met : ∀ h ∈ v.handles, Met base roots st.extent h) :
    Twins base roots later (st.put (key.elim (.append a) (.element a)) v)
      (st'.put (key.elim (.append ((Shift.between base later).array a))
        (.element ((Shift.between base later).array a))) ((Shift.between base later).value v)) := by
  refine ⟨twins.grounded, twins.spare, twins.first.put there new found met, ?_,
    twins.shifted.put a key v⟩
  have added : ∀ k s, Extends later
      ((st'.newSlot ((Shift.between base later).value v)).2.bindElement
        ((Shift.between base later).array a) k s) := fun k s =>
    (twins.second.trans (Store.extends_newSlot _ _)).setArray (twins.outside new) _
  cases key with
  | none => exact added _ _
  | some k =>
      simp only [Option.elim, Store.put, Store.insertElement, twins.shifted.array, Shift.slot?_data]
      cases isSlot : (st.array a).slot? k with
      | none => exact added _ _
      | some s => exact twins.second.write (twins.outside (found k rfl s isSlot)) _

/-! Sharing -/

theorem dead (twins : Twins base roots later st st')
    (regrown : Regrown base roots st.extent roots₁) (dead : st.Dead roots₁ h) :
    st'.Dead (roots₁.map (Shift.between base later).handle)
      ((Shift.between base later).handle h) := by
  induction dead with
  | @unheld h inside unrooted holders ih =>
      refine .unheld ((twins.shifted.within h).mpr inside) (fun root => ?_)
        fun g' within holds => ?_
      · exact unrooted ((List.mem_map_of_injective (Shift.handle_injective _)).mp root)
      · by_cases spare : g'.Within later.extent ∧ ¬ g'.Within base.extent
        · obtain ⟨old, tied⟩ := twins.tied_of_spare spare holds
          have isDead : st.Dead roots₁ h := .unheld inside unrooted holders
          have reachable := tied.reached old
          exact absurd (isDead.of_extends twins.first.ext regrown.kept old)
            (reachable.alive twins.grounded.inside twins.grounded.closed).2
        · obtain ⟨g, rfl⟩ := (twins.exists_handle_iff g').mpr spare
          rw [twins.shifted.holds] at holds
          exact ih g ((twins.shifted.within g).mp within)
            ((List.mem_map_of_injective (Shift.handle_injective _)).mp holds)

theorem dead_iff (twins : Twins base roots later st st')
    (regrown : Regrown base roots st.extent roots₁) (inside : h.Within st.extent) :
    st'.Dead (roots₁.map (Shift.between base later).handle)
      ((Shift.between base later).handle h) ↔ st.Dead roots₁ h := by
  refine ⟨fun dead => ?_, twins.dead regrown⟩
  generalize isHandle : (Shift.between base later).handle h = h' at dead
  induction dead generalizing h with
  | @unheld h' _ unrooted _ ih =>
      subst isHandle
      refine .unheld inside (fun root => unrooted (List.mem_map_of_mem root))
        fun g within holds => ?_
      refine ih _ ((twins.shifted.within g).mpr within) ?_ within rfl
      rw [twins.shifted.holds]
      exact List.mem_map_of_mem holds

theorem count_map (roots : List Handle) (g : Shift) (s : SlotId) :
    (roots.map g.handle).count (.slot (g.slot s)) = roots.count (.slot s) :=
  List.count_map_of_injective roots g.handle g.handle_injective (.slot s)

/-- A slot that nothing spare holds has as many living holders in both. -/
theorem count_tally (twins : Twins base roots later st st')
    (regrown : Regrown base roots st.extent roots₁) {s : SlotId}
    (inside : (Handle.slot s).Within st.extent)
    (unheld : ∀ h', h'.Within later.extent ∧ ¬ h'.Within base.extent →
      Handle.slot ((Shift.between base later).slot s) ∉ st'.holds h') :
    (st'.tally (roots₁.map (Shift.between base later).handle)).count
      (.slot ((Shift.between base later).slot s)) = (st.tally roots₁).count (.slot s) := by
  obtain ⟨living, isLiving, counts⟩ := Store.count_tally st roots₁
  obtain ⟨living', isLiving', counts'⟩ :=
    Store.count_tally st' (roots₁.map (Shift.between base later).handle)
  have inside' := (twins.shifted.within (.slot s)).mpr inside
  rw [counts _ inside, counts' (.slot ((Shift.between base later).slot s)) inside', count_map]
  congr 1
  have shifts : ∀ g, (Shift.between base later).handle g ∈ living' ↔ g ∈ living := by
    intro g
    rw [isLiving, isLiving', twins.shifted.within]
    exact and_congr_right fun within => not_congr (twins.dead_iff regrown within)
  calc ∑ g' ∈ living', (st'.holds g').count (.slot ((Shift.between base later).slot s))
      = ∑ g' ∈ living.map ⟨(Shift.between base later).handle, Shift.handle_injective _⟩,
          (st'.holds g').count (.slot ((Shift.between base later).slot s)) := by
        refine (Finset.sum_subset (fun g' member => ?_) fun g' member missing => ?_).symm
        · obtain ⟨g, isLiving, rfl⟩ := Finset.mem_map.mp member
          exact (shifts g).mpr isLiving
        · refine List.count_eq_zero.mpr (unheld g' ?_)
          by_contra used
          obtain ⟨g, rfl⟩ := (twins.exists_handle_iff g').mpr used
          exact missing (Finset.mem_map.mpr ⟨g, (shifts g).mp member, rfl⟩)
    _ = ∑ g ∈ living, (st.holds g).count (.slot s) := by
        rw [Finset.sum_map]
        refine Finset.sum_congr rfl fun g _ => ?_
        rw [Function.Embedding.coeFn_mk, twins.shifted.holds, count_map]

/-- The same slots are shared in twins. -/
theorem isShared (twins : Twins base roots later st st')
    (regrown : Regrown base roots st.extent roots₁) (s : SlotId) :
    st'.isShared (roots₁.map (Shift.between base later).handle)
      ((Shift.between base later).slot s) = st.isShared roots₁ s := by
  by_cases inside : (Handle.slot s).Within st.extent
  · by_cases bySpare : ∃ h', (h'.Within later.extent ∧ ¬ h'.Within base.extent) ∧
        Handle.slot ((Shift.between base later).slot s) ∈ st'.holds h'
    · -- a spare thing holds only what was shared before, and that it still is
      obtain ⟨h', spare, holds⟩ := bySpare
      obtain ⟨old, tied⟩ := twins.tied_of_spare (h := .slot s) spare holds
      have shared := tied.shared s rfl old
      have more : ∀ h ∈ roots, h ∈ roots₁.map (Shift.between base later).handle := by
        intro h member
        refine List.mem_map.mpr ⟨h, regrown.kept h member, ?_⟩
        exact Shift.handle_of_within (twins.grounded.inside h member)
      have count := count_map roots₁ (.between base later) s
      rw [Shift.slot_of_within old] at count ⊢
      rw [Store.isShared_of_extends twins.first.ext regrown.kept old
          (Nat.le_of_eq (regrown.slots s old).symm) shared,
        Store.isShared_of_extends (twins.spare.ext.trans twins.second) more old
          (Nat.le_of_eq (count.trans (regrown.slots s old)).symm) shared]
    · have counts := twins.count_tally regrown inside fun h' spare holds =>
        bySpare ⟨h', spare, holds⟩
      rw [Store.isShared, Store.isShared, counts]
  · have outside : ¬ (Handle.slot ((Shift.between base later).slot s)).Within st'.extent :=
      mt (twins.shifted.within (.slot s)).mp inside
    have none : (st.tally roots₁).count (.slot s) = 0 :=
      Tally.count_outside (by rwa [Store.extent_tally])
    have none' : (st'.tally (roots₁.map (Shift.between base later).handle)).count
        (.slot ((Shift.between base later).slot s)) = 0 :=
      Tally.count_outside (by rwa [Store.extent_tally])
    rw [Store.isShared, Store.isShared, none, none']

end Twins

/-! Copies -/

section copies

variable {g : Shift} {shared shared' : SlotId → Bool} {st st' : Store}

/-- Results that are the same but for the numbers, in stores that are. -/
def ShiftedResult {α : Type} (g : Shift) (f : α → α) (r r' : α × Store) : Prop :=
  r'.1 = f r.1 ∧ Shifted g r.2 r'.2

theorem copyElements_shifted {once once' : Value → Store → Option (Value × Store)}
    (alike : ∀ s, shared' (g.slot s) = shared s)
    (each : ∀ {st st' : Store} (v : Value), Shifted g st st' →
      Option.Rel (ShiftedResult g g.value) (once v st) (once' (g.value v) st'))
    (l : List (Key × SlotId)) (shifted : Shifted g st st') :
    Option.Rel (ShiftedResult g g.entries) (Store.copyElements shared once l st)
      (Store.copyElements shared' once' (g.entries l) st') := by
  induction l generalizing st st' with
  | nil => exact .some ⟨rfl, shifted⟩
  | cons entry rest ih =>
      obtain ⟨key, s⟩ := entry
      have others : ∀ {st₁ st₁' : Store} (t : SlotId), Shifted g st₁ st₁' →
          Option.Rel (ShiftedResult g g.entries)
            ((Store.copyElements shared once rest st₁).bind fun r => some ((key, t) :: r.1, r.2))
            ((Store.copyElements shared' once' (g.entries rest) st₁').bind fun r =>
              some ((key, g.slot t) :: r.1, r.2)) := by
        intro st₁ st₁' t stores
        refine rel_bind (ih stores) ?_
        rintro ⟨more, st₂⟩ ⟨_, st₂'⟩ ⟨rfl, stores'⟩
        exact .some ⟨rfl, stores'⟩
      simp only [Shift.entries, List.map_cons, Store.copyElements, Option.bind_eq_bind, alike,
        shifted.read]
      split
      · exact others s shifted
      · rw [Option.bind_map, Option.bind_map]
        refine rel_bind (each (st.read s) shifted) ?_
        rintro ⟨v, st₁⟩ ⟨_, st₁'⟩ ⟨rfl, stores⟩
        obtain ⟨number, stores'⟩ := stores.newSlot v
        have copied := others (st₁.newSlot v).1 stores'
        rw [number] at copied
        exact copied

theorem copyWithin_shifted (alike : ∀ s, shared' (g.slot s) = shared s) (depth : Nat) (v : Value)
    (shifted : Shifted g st st') :
    Option.Rel (ShiftedResult g g.value) (Store.copyWithin shared depth v st)
      (Store.copyWithin shared' depth (g.value v) st') := by
  induction depth generalizing st st' v with
  | zero =>
      cases v with
      | array a => exact .none
      | _ => exact .some ⟨rfl, shifted⟩
  | succ depth ih =>
      cases v with
      | array a =>
          simp only [Shift.value, Store.copyWithin, shifted.array, Option.bind_eq_bind]
          refine rel_bind (copyElements_shifted alike (fun v stores => ih v stores) _ shifted) ?_
          rintro ⟨elements, st₁⟩ ⟨_, st₁'⟩ ⟨rfl, stores⟩
          obtain ⟨number, stores'⟩ := stores.newArray { st.array a with elements }
          exact .some ⟨congrArg Value.array number.symm, stores'⟩
      | _ => exact .some ⟨rfl, shifted⟩

end copies

namespace Twins

variable {base later st st' : Store} {roots roots₁ : List Handle} {v : Value}

/-- Copies of a value in twins are the same but for the numbers, and both can be made or neither. -/
theorem copy (twins : Twins base roots later st st')
    (regrown : Regrown base roots st.extent roots₁)
    (met : ∀ h ∈ v.handles, Met base roots st.extent h) :
    Option.Rel (fun r r' => r'.1 = (Shift.between base later).value r.1 ∧
        Twins base roots later r.2 r'.2 ∧ Extends st r.2 ∧
        ∀ h ∈ r.1.handles, Met base roots r.2.extent h)
      (st.copy roots₁ v)
      (st'.copy (roots₁.map (Shift.between base later).handle)
        ((Shift.between base later).value v)) := by
  have made : Option.Rel (ShiftedResult (.between base later) (Shift.between base later).value)
      (st.copy roots₁ v) (st'.copy (roots₁.map (Shift.between base later).handle)
        ((Shift.between base later).value v)) := by
    cases v with
    | array a =>
        have deeper : st.arrays.size + 1 ≤ st'.arrays.size + 1 := by
          rw [twins.shifted.arrays]
          omega
        have same : Store.copyWithin (st.isShared roots₁) (st'.arrays.size + 1) (.array a) st =
            Store.copyWithin (st.isShared roots₁) (st.arrays.size + 1) (.array a) st :=
          Store.copyWithin_eq twins.first.closed (fun h member => (met h member).inside) deeper
        have alike := copyWithin_shifted (twins.isShared regrown) (st'.arrays.size + 1) (.array a)
          twins.shifted
        rw [same] at alike
        exact alike
    | _ => exact .some ⟨rfl, twins.shifted⟩
  generalize isFirst : st.copy roots₁ v = first at made ⊢
  generalize isSecond : st'.copy (roots₁.map (Shift.between base later).handle)
    ((Shift.between base later).value v) = second at made ⊢
  cases made with
  | none => exact .none
  | @some r r' results =>
      obtain ⟨off, metCopy⟩ := twins.first.copy twins.grounded regrown met isFirst
      refine .some ⟨results.1, ?_, Store.copy_extends isFirst, metCopy⟩
      exact ⟨twins.grounded, twins.spare, off, twins.second.trans (Store.copy_extends isSecond),
        results.2⟩

end Twins
end TreeScript
