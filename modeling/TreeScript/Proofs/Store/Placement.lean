import TreeScript.Proofs.Store.Guard
import TreeScript.Proofs.Store.Likeness

set_option autoImplicit false

/- The slots that a copy adds are in one place each: no two elements of its arrays have the same
new slot. And a copy stays a copy as long as nothing of it is changed. -/
namespace TreeScript.Store

/-- Each slot that the first store does not have is in one array of the second at most, and there
once, or it is on the list of slots that are in no array yet, and there once. -/
structure Placed (st₀ st : Store) (pending : List SlotId) : Prop where
  inside : ∀ a, ∀ h ∈ (st.array a).handles, h.Within st.extent
  listed : ∀ s ∈ pending, (Handle.slot s).Within st.extent
  once : ∀ s, ¬ (Handle.slot s).Within st₀.extent → ∀ a,
    (st.array a).handles.count (.slot s) + pending.count s ≤ 1
  single : ∀ s, ¬ (Handle.slot s).Within st₀.extent → ∀ a b,
    .slot s ∈ (st.array a).handles → .slot s ∈ (st.array b).handles → a = b

variable {st₀ st st' : Store} {pending : List SlotId} {shared : SlotId → Bool}

namespace Placed

theorem start (closed : st.Closed) : Placed st st [] := by
  have inside : ∀ a, ∀ h ∈ (st.array a).handles, h.Within st.extent := by
    intro a h member
    by_cases here : (Handle.array a).Within st.extent
    · exact closed (.array a) here h member
    · have beyond : st.arrays.size ≤ a.index := Nat.le_of_not_lt here
      simp [Store.array, beyond, ArrayData.handles, ArrayData.empty] at member
  refine ⟨inside, by simp, fun s new a => ?_, fun s new a b member => ?_⟩
  · simp [List.count_eq_zero.mpr fun member => new (inside a _ member)]
  · exact absurd (inside a _ member) new

/-- A slot that the first store has may be listed as often as need be. -/
theorem keep (placed : Placed st₀ st pending) {s : SlotId} (grows : st₀.extent ≤ st.extent)
    (old : (Handle.slot s).Within st₀.extent) : Placed st₀ st (pending ++ [s]) where
  inside := placed.inside
  listed := List.forall_mem_append.mpr ⟨placed.listed, by simpa using old.mono grows⟩
  once t new a := by
    have other : s ≠ t := fun same => new (same ▸ old)
    simpa [List.count_append, other] using placed.once t new a
  single := placed.single

theorem newSlot (placed : Placed st₀ st pending) (v : Value) :
    Placed st₀ (st.newSlot v).2 (pending ++ [(st.newSlot v).1]) where
  inside a h member := (placed.inside a h member).mono (extent_newSlot st v)
  listed := List.forall_mem_append.mpr
    ⟨fun s member => (placed.listed s member).mono (extent_newSlot st v),
      by simpa using (fresh_newSlot st v).2⟩
  once t new a := by
    have before := placed.once t new a
    by_cases same : (st.newSlot v).1 = t
    · subst same
      have unplaced : (st.array a).handles.count (.slot (st.newSlot v).1) = 0 :=
        List.count_eq_zero.mpr fun member => (fresh_newSlot st v).1 (placed.inside a _ member)
      have unlisted : pending.count (st.newSlot v).1 = 0 :=
        List.count_eq_zero.mpr fun member => (fresh_newSlot st v).1 (placed.listed _ member)
      simp [List.count_append, unplaced, unlisted]
    · simpa [List.count_append, same] using before
  single := placed.single

/-- The slots that were listed last are put in a new array. -/
theorem newArray {slots : List SlotId} {data : ArrayData}
    (placed : Placed st₀ st (pending ++ slots)) (isData : data.handles = slots.map .slot) :
    Placed st₀ (st.newArray data).2 pending := by
  have grows := (extends_newArray st data).grows
  obtain ⟨earlier, later⟩ := List.forall_mem_append.mp placed.listed
  have held : ∀ h ∈ data.handles, h.Within st.extent := by
    rw [isData]
    exact List.forall_mem_map.mpr later
  have count : ∀ t, data.handles.count (.slot t) = slots.count t := fun t => by
    rw [isData]
    exact List.count_map_of_injective slots Handle.slot (fun _ _ => Handle.slot.inj) t
  have unplaced : ∀ t, ¬ (Handle.slot t).Within st₀.extent → .slot t ∈ data.handles → ∀ a,
      .slot t ∉ (st.array a).handles := by
    intro t new member a elsewhere
    have once := placed.once t new a
    have first := List.count_pos_iff.mpr elsewhere
    have second := List.count_pos_iff.mpr member
    rw [count] at second
    rw [List.count_append] at once
    omega
  refine ⟨fun a h member => ?_, fun s member => (earlier s member).mono grows, fun t new a => ?_,
    fun t new a b => ?_⟩
  · rw [array_newArray] at member
    split at member
    · exact (held h member).mono grows
    · exact (placed.inside a h member).mono grows
  · have once := placed.once t new a
    have once' := placed.once t new ⟨st.arrays.size⟩
    rw [List.count_append] at once once'
    rw [array_newArray]
    split
    · rw [count]
      omega
    · omega
  · rw [array_newArray, array_newArray]
    split
    · next last =>
        split
        · next last' =>
            intro _ _
            cases a
            cases b
            simp_all
        · exact fun member elsewhere => absurd elsewhere (unplaced t new member b)
    · split
      · exact fun elsewhere member => absurd elsewhere (unplaced t new member a)
      · exact placed.single t new a b

end Placed

theorem copyElements_placed {once : Value → Store → Option (Value × Store)}
    (onceExtends : ∀ v st v' st', once v st = some (v', st') → Extends st st')
    (closed : st₀.Closed)
    (oncePlaced : ∀ {v v' : Value} {st st' : Store} {pending : List SlotId}, Extends st₀ st →
      (∀ h ∈ v.handles, h.Within st₀.extent) → once v st = some (v', st') →
      Placed st₀ st pending → Placed st₀ st' pending)
    (entries : List (Key × SlotId)) {elements : List (Key × SlotId)} {st st' : Store}
    {pending : List SlotId} (inside : ∀ entry ∈ entries, (Handle.slot entry.2).Within st₀.extent)
    (ext : Extends st₀ st) (done : copyElements shared once entries st = some (elements, st'))
    (placed : Placed st₀ st pending) : Placed st₀ st' (pending ++ elements.map (·.2)) := by
  induction entries generalizing elements st pending with
  | nil =>
      simp only [copyElements, Option.some.injEq, Prod.mk.injEq] at done
      obtain ⟨rfl, rfl⟩ := done
      simpa using placed
  | cons entry rest ih =>
      obtain ⟨key, s⟩ := entry
      obtain ⟨here, others⟩ := List.forall_mem_cons.mp inside
      obtain ⟨s₁, st₁, more, rfl, later, ⟨-, rfl, rfl⟩ | ⟨-, v, st₂, first, rfl, rfl⟩⟩ :=
        copyElements_cons done
      · simpa using ih others ext later (placed.keep ext.grows here)
      · have reads : st.read s = st₀.read s := ext.slots s here
        have copied := oncePlaced ext (reads ▸ closed.read here) first placed
        have ext' := (ext.trans (onceExtends _ _ _ _ first)).trans (extends_newSlot st₂ v)
        simpa using ih others ext' later (copied.newSlot v)

theorem copyWithin_placed (closed : st₀.Closed) (depth : Nat) {v v' : Value} {st st' : Store}
    {pending : List SlotId} (ext : Extends st₀ st) (inside : ∀ h ∈ v.handles, h.Within st₀.extent)
    (done : copyWithin shared depth v st = some (v', st')) (placed : Placed st₀ st pending) :
    Placed st₀ st' pending := by
  induction depth generalizing v v' st st' pending with
  | zero =>
      rcases v.array_or_plain with ⟨a, rfl⟩ | plain
      · simp [copyWithin] at done
      · rw [copyWithin_plain plain, Option.some.injEq, Prod.mk.injEq] at done
        exact done.2 ▸ placed
  | succ depth ih =>
      rcases v.array_or_plain with ⟨a, rfl⟩ | plain
      · obtain ⟨smaller, elements, st₁, same, inner, rfl, rfl⟩ := copyWithin_array done
        obtain rfl : depth = smaller := by omega
        have here : (Handle.array a).Within st₀.extent := inside _ List.mem_cons_self
        rw [ext.arrays a here] at inner ⊢
        have filled := copyElements_placed (fun _ _ _ _ => copyWithin_extends depth _) closed
          (fun ext inside done placed => ih ext inside done placed) _
          (fun entry member => closed.element here member) ext inner placed
        exact filled.newArray (by simp [ArrayData.handles])
      · rw [copyWithin_plain plain, Option.some.injEq, Prod.mk.injEq] at done
        exact done.2 ▸ placed

/-- The slots that the copy of a value adds are in one place each. -/
theorem copy_placed {roots : List Handle} {v v' : Value} (closed : st.Closed)
    (inside : ∀ h ∈ v.handles, h.Within st.extent) (done : st.copy roots v = some (v', st')) :
    Placed st st' [] := by
  rcases v.array_or_plain with ⟨a, rfl⟩ | plain
  · exact copyWithin_placed closed _ (.refl st) inside done (.start closed)
  · rw [copy_plain plain, Option.some.injEq, Prod.mk.injEq] at done
    exact done.2 ▸ .start closed

/-- A value of which everything is guarded is still a copy. -/
theorem Copied.guarded {guarded : Handle → Prop} {v v' : Value} {st₁ : Store}
    (copied : Copied (fun _ => false) st st₁ v v') (guards : Guards guarded st₁ st')
    (own : ∀ h, Private (fun _ => false) st₁ v' h → guarded h) :
    Copied (fun _ => false) st st' v v' := by
  induction copied with
  | plain plain => exact .plain plain
  | @array a b new nextIndex pointer keys kept fresh copied ih =>
      have same : st'.array b = st₁.array b := guards.arrays b (own _ (.array rfl))
      have pairs : elementPairs st st' a b = elementPairs st st₁ a b := by
        simp only [elementPairs, same]
      refine .array (new.grow guards.grows) (same ▸ nextIndex) (same ▸ pointer) (same ▸ keys)
        (by simp) (fun pair member _ => ?_) fun pair member _ => ?_
      · exact (fresh pair (pairs ▸ member) rfl).grow guards.grows
      · have slot : Private (fun _ => false) st₁ (.array b) (.slot pair.2.2) :=
          .slot (.array rfl) (List.mem_map.mpr
            ⟨pair.2, (mem_elements_of_pair (pairs ▸ member)).2, rfl⟩) rfl
        rw [guards.slots _ (own _ slot)]
        exact ih pair (pairs ▸ member) rfl fun h inner =>
          own h (inner.nested fun c reads => .inner slot reads)

end TreeScript.Store
