import TreeScript.Proofs.Pairing.Store
import TreeScript.Proofs.Store.Copy

set_option autoImplicit false

/- Partners have the same number of living holders, so that the same slots are shared in paired
stores and copies are made alike. -/
namespace TreeScript

variable {ρ : Pairing} {st st' : Store} {roots roots' : List Handle}

namespace Store.Paired

theorem within (paired : st.Paired ρ st') {h h' : Handle} (pair : h.Paired ρ h') :
    h.Within st.extent ↔ h'.Within st'.extent := by
  cases pair with
  | slot pair =>
      have inside := ρ.inside pair
      simp only [Handle.Within, extent, paired.left, paired.right, inside]
  | array a => simp only [Handle.Within, extent, paired.arrays]
  | object o => simp only [Handle.Within, extent, paired.objects]
  | classData c => simp only [Handle.Within, extent, paired.classes]

theorem holds (paired : st.Paired ρ st') {h h' : Handle} (pair : h.Paired ρ h') :
    ρ.Handles (st.holds h) (st'.holds h') := by
  cases pair with
  | slot pair =>
      simp only [Store.holds, paired.read pair]
      exact .of_value _
  | array a => exact .of_entries (paired.array a).elements
  | object o =>
      have data := paired.object o
      simp only [Store.holds, ObjectData.handles, data.classId]
      exact .cons (.classData _) (.of_entries data.properties)
  | classData c =>
      simp only [Store.holds, ClassData.handles, paired.classData c]
      exact .of_values _ _ fun _ => .of_value _

/-- Whatever holds something has a partner. -/
theorem partner (paired : st.Paired ρ st') {g h : Handle} (holds : h ∈ st.holds g) :
    ∃ g', g.Paired ρ g' := by
  cases g with
  | slot s =>
      by_contra alone
      have null := paired.spareLeft s fun s' pair => alone ⟨_, .slot pair⟩
      simp [Store.holds, null, Value.handles] at holds
  | array a => exact ⟨_, .array a⟩
  | object o => exact ⟨_, .object o⟩
  | classData c => exact ⟨_, .classData c⟩

theorem dead (paired : st.Paired ρ st') (rooted : ρ.Handles roots roots') {h h' : Handle}
    (pair : h.Paired ρ h') (dead : st.Dead roots h) : st'.Dead roots' h' := by
  induction dead generalizing h' with
  | @unheld h inside unrooted _ ih =>
      refine .unheld ((paired.within pair).mp inside)
        (fun root => unrooted ((rooted.mem pair).mpr root)) ?_
      intro g' within' holds'
      obtain ⟨g, pairs⟩ := paired.symm.partner holds'
      have pairs : g.Paired ρ g' := pairs.symm
      exact ih g ((paired.within pairs).mpr within') (((paired.holds pairs).mem pair).mpr holds')
        pairs

theorem dead_iff (paired : st.Paired ρ st') (rooted : ρ.Handles roots roots') {h h' : Handle}
    (pair : h.Paired ρ h') : st.Dead roots h ↔ st'.Dead roots' h' :=
  ⟨paired.dead rooted pair, paired.symm.dead rooted.symm pair.symm⟩

/-- Partners have as many living holders. -/
theorem count_tally (paired : st.Paired ρ st') (rooted : ρ.Handles roots roots') {s s' : SlotId}
    (pair : ρ.pairs s s') :
    (st.tally roots).count (.slot s) = (st'.tally roots').count (.slot s') := by
  obtain ⟨living, isLiving, counts⟩ := Store.count_tally st roots
  obtain ⟨living', isLiving', counts'⟩ := Store.count_tally st' roots'
  have slots : (Handle.slot s).Paired ρ (.slot s') := .slot pair
  have inside : (Handle.slot s).Within st.extent := by
    rw [Handle.Within, extent, paired.left]
    exact (ρ.inside pair).1
  rw [counts _ inside, counts' _ ((paired.within slots).mp inside), rooted.count slots]
  have holder : ∀ g, (st.holds g).count (.slot s) ≠ 0 → ∃ g', g.Paired ρ g' := fun g some =>
    paired.partner (List.count_pos_iff.mp (Nat.pos_of_ne_zero some))
  have alive : ∀ {g g'}, g.Paired ρ g' → (g ∈ living ↔ g' ∈ living') := by
    intro g g' pairs
    rw [isLiving, isLiving', paired.dead_iff rooted pairs, paired.within pairs]
  congr 1
  -- each living holder of the one slot goes to its partner, which is one of the other slot
  refine Finset.sum_bij_ne_zero (fun g _ some => (holder g some).choose) ?_ ?_ ?_ ?_
  · exact fun g member some => (alive (holder g some).choose_spec).mp member
  · intro g _ some g₁ _ some₁ same
    exact ((holder g some).choose_spec.unique (holder g₁ some₁).choose_spec).mpr same
  · intro g' member' some'
    obtain ⟨g, pairs⟩ := paired.symm.partner (List.count_pos_iff.mp (Nat.pos_of_ne_zero some'))
    have pairs : g.Paired ρ g' := pairs.symm
    have some : (st.holds g).count (.slot s) ≠ 0 := by rwa [(paired.holds pairs).count slots]
    exact ⟨g, (alive pairs).mpr member', some, ((holder g some).choose_spec.unique pairs).mp rfl⟩
  · exact fun g _ some => (paired.holds (holder g some).choose_spec).count slots

end Store.Paired

/-! Copies -/

section copies

variable {shared shared' : SlotId → Bool} {once once' : Value → Store → Option (Value × Store)}

/-- However the pairing grows, partners are both shared or both not. -/
def SharedAlike (ρ : Pairing) (shared shared' : SlotId → Bool) : Prop :=
  ∀ {ρ₁ : Pairing} {s s' : SlotId}, ρ ≤ ρ₁ → ρ₁.pairs s s' → shared s = shared' s'

theorem SharedAlike.mono {ρ₁ : Pairing} (grows : ρ ≤ ρ₁) (alike : SharedAlike ρ shared shared') :
    SharedAlike ρ₁ shared shared' := fun further pair => alike (grows.trans further) pair

/-- Elements are copied alike where values are. -/
theorem copyElements_paired
    (each : ∀ {ρ : Pairing} {st st' : Store} (v : Value), st.Paired ρ st' →
      SharedAlike ρ shared shared' → Option.Rel (ρ.Ends Same) (once v st) (once' v st'))
    (l : List (Key × SlotId)) {l' : List (Key × SlotId)} (entries : ρ.Entries l l')
    (paired : st.Paired ρ st') (alike : SharedAlike ρ shared shared') :
    Option.Rel (ρ.Ends Pairing.Entries) (Store.copyElements shared once l st)
      (Store.copyElements shared' once' l' st') := by
  induction l generalizing ρ st st' l' with
  | nil =>
      cases entries
      exact .some ⟨ρ, le_refl _, paired, .nil⟩
  | cons entry rest ih =>
      cases entries with
      | @cons _ entry' _ rest' first later =>
      obtain ⟨key, s⟩ := entry
      obtain ⟨key', s'⟩ := entry'
      obtain ⟨rfl, pair⟩ := first
      have others : ∀ {ρ₁ : Pairing} {st₁ st₁' : Store} {t t' : SlotId}, ρ ≤ ρ₁ →
          st₁.Paired ρ₁ st₁' → ρ₁.pairs t t' → Option.Rel (ρ.Ends Pairing.Entries)
            ((Store.copyElements shared once rest st₁).bind fun r => some ((key, t) :: r.1, r.2))
            ((Store.copyElements shared' once' rest' st₁').bind fun r =>
              some ((key, t') :: r.1, r.2)) := by
        intro ρ₁ st₁ st₁' t t' grows stores slots
        refine rel_bind (ih (Pairing.Entries.mono grows later) stores (alike.mono grows)) ?_
        rintro ⟨more, st₂⟩ ⟨more', st₂'⟩ ⟨ρ₂, grows', stores', others⟩
        exact .some ⟨ρ₂, grows.trans grows', stores', .cons ⟨rfl, grows'.kept slots⟩ others⟩
      simp only [Store.copyElements, Option.bind_eq_bind, alike (le_refl ρ) pair, paired.read pair]
      split
      · exact others (le_refl ρ) paired pair
      · rw [Option.bind_map, Option.bind_map]
        refine rel_bind (each (st'.read s') paired alike) ?_
        rintro ⟨v, st₁⟩ ⟨_, st₁'⟩ ⟨ρ₁, grows, stores, rfl⟩
        obtain ⟨ρ₂, grows', stores', slots⟩ := stores.newSlot v
        exact others (grows.trans grows') stores' slots

theorem copyWithin_paired (depth : Nat) (v : Value) (paired : st.Paired ρ st')
    (alike : SharedAlike ρ shared shared') :
    Option.Rel (ρ.Ends Same) (Store.copyWithin shared depth v st)
      (Store.copyWithin shared' depth v st') := by
  induction depth generalizing ρ st st' v with
  | zero =>
      cases v with
      | array a => exact .none
      | _ => exact .some ⟨ρ, le_refl _, paired, rfl⟩
  | succ depth ih =>
      cases v with
      | array a =>
          have data := paired.array a
          refine rel_bind (copyElements_paired (fun v paired alike => ih v paired alike) _
            data.elements paired alike) ?_
          rintro ⟨elements, st₁⟩ ⟨elements', st₁'⟩ ⟨ρ₁, grows, stores, entries⟩
          have made : ArrayData.Paired ρ₁ { st.array a with elements }
              { st'.array a with elements := elements' } :=
            ⟨entries, data.nextIndex, data.pointer⟩
          obtain ⟨same, stores'⟩ := stores.newArray made
          exact .some ⟨ρ₁, grows, stores', congrArg Value.array same⟩
      | _ => exact .some ⟨ρ, le_refl _, paired, rfl⟩

end copies

/-- Copies of a value are alike, and both can be made or neither. -/
theorem Store.Paired.copy (paired : st.Paired ρ st') (rooted : ρ.Handles roots roots') (v : Value) :
    Option.Rel (ρ.Ends Same) (st.copy roots v) (st'.copy roots' v) := by
  cases v with
  | array a =>
      simp only [Store.copy, paired.arrays]
      refine copyWithin_paired _ _ paired fun {ρ₁ s s'} grows pair => ?_
      rcases grows.fresh pair with old | ⟨left, right⟩
      · rw [paired.count_tally rooted old]
      · -- what is new had no holder when the tally was made
        have none : ∀ (st : Store) (roots : List Handle) (s : SlotId), st.slots.size ≤ s.index →
            (st.tally roots).count (.slot s) = 0 := by
          intro st roots s new
          refine Tally.count_outside ?_
          rw [extent_tally]
          exact Nat.not_lt_of_le new
        rw [none st roots s (paired.left ▸ left), none st' roots' s' (paired.right ▸ right)]
  | _ => exact .some ⟨ρ, le_refl _, paired, rfl⟩

end TreeScript
