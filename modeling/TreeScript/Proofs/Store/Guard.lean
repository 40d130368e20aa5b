import TreeScript.Proofs.Store.Ownership

set_option autoImplicit false

/- Guarded things: what changes may not touch stays as it was, and so does what is seen through
it. -/
namespace TreeScript.Store

/-- The guarded things are in the second store as they are in the first, and so are all classes. -/
structure Guards (guarded : Handle → Prop) (st st' : Store) : Prop where
  grows : st.extent ≤ st'.extent
  slots : ∀ s, guarded (.slot s) → st'.read s = st.read s
  arrays : ∀ a, guarded (.array a) → st'.array a = st.array a
  objects : ∀ o, guarded (.object o) → st'.objects[o.index]? = st.objects[o.index]?
  classes : ∀ c, (Handle.classData c).Within st.extent → st'.classData c = st.classData c

namespace Guards

variable {guarded may : Handle → Prop} {st st₁ st₂ : Store}

theorem refl (guarded : Handle → Prop) (st : Store) : Guards guarded st st :=
  ⟨le_refl _, fun _ _ => rfl, fun _ _ => rfl, fun _ _ => rfl, fun _ _ => rfl⟩

theorem mono {fewer : Handle → Prop} (guards : Guards guarded st st₁)
    (included : ∀ h, fewer h → guarded h) : Guards fewer st st₁ where
  grows := guards.grows
  slots s kept := guards.slots s (included _ kept)
  arrays a kept := guards.arrays a (included _ kept)
  objects o kept := guards.objects o (included _ kept)
  classes := guards.classes

theorem holds {h : Handle} (guards : Guards guarded st st₁) (inside : h.Within st.extent)
    (kept : guarded h) : st₁.holds h = st.holds h := by
  cases h with
  | slot s => simp only [Store.holds, guards.slots s kept]
  | array a => simp only [Store.holds, guards.arrays a kept]
  | object o => simp only [Store.holds, object, guards.objects o kept]
  | classData c => simp only [Store.holds, guards.classes c inside]

/-- A change that may touch nothing guarded. -/
theorem adjust {v : Value} (guards : Guards guarded st st₁)
    (inside : ∀ h, guarded h → h.Within st₁.extent) (apart : ∀ h, guarded h → ¬ may h)
    (change : Adjusts may v st₁ st₂) : Guards guarded st st₂ := by
  have still : ∀ h, guarded h → ¬ (may h ∨ Fresh st₁ st₂ h) := by
    rintro h kept (touched | fresh)
    · exact apart h kept touched
    · exact fresh.1 (inside h kept)
  refine ⟨guards.grows.trans change.grows, fun s kept => ?_, fun a kept => ?_, fun o kept => ?_,
    fun c earlier => ?_⟩
  · rcases change.slots s with same | ⟨touched, -⟩
    · exact same.trans (guards.slots s kept)
    · exact absurd touched (still _ kept)
  · rcases change.arrays a with same | ⟨touched, -⟩
    · exact same.trans (guards.arrays a kept)
    · exact absurd touched (still _ kept)
  · rcases change.objects o with same | ⟨touched, -⟩
    · exact same.trans (guards.objects o kept)
    · exact absurd touched (still _ kept)
  · rw [← guards.classes c earlier, classData, classData, change.classes]

theorem newClass (guards : Guards guarded st st₁) (data : ClassData) :
    Guards guarded st (st₁.newClass data).2 where
  grows := guards.grows.trans (extent_newClass st₁ data)
  slots := guards.slots
  arrays := guards.arrays
  objects := guards.objects
  classes c earlier := by
    have old : c.index ≠ st₁.classes.size := Nat.ne_of_lt (earlier.mono guards.grows)
    rw [← guards.classes c earlier]
    simp [classData, Store.newClass, Array.getElem?_push, old]

/-- A value that leads to guarded things only shows the same. -/
theorem snapshotWithin (guards : Guards guarded st st₁)
    (closed : ∀ g, guarded g → ∀ h ∈ st.holds g, guarded h)
    (inside : ∀ h, guarded h → h.Within st.extent) (depth : Nat) (v : Value)
    (kept : ∀ h ∈ v.handles, guarded h) :
    st₁.snapshotWithin depth v = st.snapshotWithin depth v := by
  induction depth generalizing v with
  | zero => rfl
  | succ depth ih =>
      cases v with
      | array a =>
          have here : guarded (.array a) := kept _ List.mem_cons_self
          simp only [Store.snapshotWithin, guards.arrays a here, Snapshot.array.injEq]
          apply List.map_congr_left
          intro entry member
          have element : guarded (.slot entry.2) :=
            closed _ here _ (List.mem_map.mpr ⟨entry, member, rfl⟩)
          rw [guards.slots _ element, ih _ (closed _ element)]
      | object o =>
          have here : guarded (.object o) := kept _ List.mem_cons_self
          have object : st₁.object o = st.object o := by
            simp only [Store.object, guards.objects o here]
          have ofClass : guarded (.classData (st.object o).classId) :=
            closed _ here _ List.mem_cons_self
          have name : st₁.className o = st.className o := by
            simp only [className, object, guards.classes _ (inside _ ofClass)]
          simp only [Store.snapshotWithin, object, name, Snapshot.object.injEq, true_and]
          apply List.map_congr_left
          intro entry member
          have element : guarded (.slot entry.2) :=
            closed _ here _ (List.mem_cons_of_mem _ (List.mem_map.mpr ⟨entry, member, rfl⟩))
          rw [guards.slots _ element, ih _ (closed _ element)]
      | _ => rfl

end Guards

/-- What has a property, classes apart, leads only to what has it. -/
def Confined (N : Handle → Prop) (st : Store) : Prop :=
  ∀ h : Handle, h.Within st.extent ∧ N h → (∀ c, h ≠ .classData c) →
    ∀ g ∈ st.holds h, g.Within st.extent ∧ N g

namespace Confined

variable {N : Handle → Prop} {st st' : Store}

theorem read (confined : st.Confined N) {s : SlotId} (has : N (.slot s)) :
    ∀ g ∈ (st.read s).handles, g.Within st.extent ∧ N g :=
  fun g member => confined (.slot s) ⟨inside_of_read member, has⟩ (by simp) g member

theorem array (confined : st.Confined N) {a : ArrayId} (has : N (.array a)) :
    ∀ g ∈ (st.array a).handles, g.Within st.extent ∧ N g :=
  fun g member => confined (.array a) ⟨inside_of_array member, has⟩ (by simp) g member

theorem object (confined : st.Confined N) {o : ObjectId} (has : N (.object o)) :
    ∀ g ∈ handlesOf st.objects[o.index]?, g.Within st.extent ∧ N g := by
  intro g member
  have inside := inside_of_object member
  exact confined (.object o) ⟨inside, has⟩ (by simp) g (holds_object inside ▸ member)

/-- A change of what has the property, that stores what has it, keeps it so. -/
theorem adjust (confined : st.Confined N) {v : Value}
    (value : ∀ g ∈ v.handles, g.Within st.extent ∧ N g) (fresh : ∀ g, Fresh st st' g → N g)
    (change : Adjusts (fun h => h.Within st.extent ∧ N h) v st st') : st'.Confined N := by
  have mono : ∀ g : Handle, g.Within st.extent ∧ N g → g.Within st'.extent ∧ N g :=
    fun _ has => ⟨has.1.mono change.grows, has.2⟩
  have new : ∀ g, Fresh st st' g → g.Within st'.extent ∧ N g := fun g isNew =>
    ⟨isNew.2, fresh g isNew⟩
  intro h has isThing g member
  cases h with
  | slot s =>
      simp only [holds] at member
      rcases change.slots s with same | ⟨-, stored | null⟩
      · exact mono g (confined.read has.2 g (same ▸ member))
      · exact mono g (value g (stored ▸ member))
      · simp [null, Value.handles] at member
  | array a =>
      exact (change.arrays a).holding (P := fun e h => h.Within e ∧ N h) mono
        (fun _ allowed => allowed) new (confined.array has.2) g member
  | object o =>
      rw [holds_object has.1] at member
      exact (change.objects o).holding (P := fun e h => h.Within e ∧ N h) mono
        (fun _ allowed => allowed) new (confined.object has.2) g member
  | classData c => exact absurd rfl (isThing c)

theorem newClass (confined : st.Confined N) (data : ClassData) :
    (st.newClass data).2.Confined N := by
  have grows := extent_newClass st data
  intro h has isThing g member
  have before : g.Within st.extent ∧ N g := by
    cases h with
    | slot s => exact confined.read has.2 g member
    | array a => exact confined.array has.2 g member
    | object o =>
        rw [holds_object has.1] at member
        exact confined.object has.2 g member
    | classData c => exact absurd rfl (isThing c)
  exact ⟨before.1.mono grows, before.2⟩

end Confined
end TreeScript.Store
