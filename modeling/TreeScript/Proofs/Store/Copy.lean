import TreeScript.Proofs.Store.Change

set_option autoImplicit false

/- Copies only add to the store, and what they add is made of two steps: a new slot for a value
just copied, and a new array of slots. Whatever these steps keep, a copy keeps. -/
namespace TreeScript

theorem Value.array_or_plain (v : Value) : (∃ a, v = .array a) ∨ ∀ a, v ≠ .array a := by
  cases v with
  | array a => exact .inl ⟨a, rfl⟩
  | _ => exact .inr fun a => Value.noConfusion

/-- Two computations that go on alike from results that are alike. -/
theorem rel_bind {α β : Type} {R : α → α → Prop} {S : β → β → Prop} {x x' : Option α}
    {next next' : α → Option β} (first : Option.Rel R x x')
    (later : ∀ a a', R a a' → Option.Rel S (next a) (next' a')) :
    Option.Rel S (x.bind next) (x'.bind next') := by
  cases first with
  | none => exact .none
  | some related => exact later _ _ related

namespace Store

/-- Everything in a store is still there, as it was. -/
structure Extends (st st' : Store) : Prop where
  grows : st.extent ≤ st'.extent
  slots : ∀ s, (Handle.slot s).Within st.extent → st'.read s = st.read s
  arrays : ∀ a, (Handle.array a).Within st.extent → st'.array a = st.array a
  objects : st'.objects = st.objects
  classes : st'.classes = st.classes

theorem Extends.refl (st : Store) : Extends st st :=
  ⟨le_refl _, fun _ _ => rfl, fun _ _ => rfl, rfl, rfl⟩

theorem Extends.trans {st st₁ st₂ : Store} (first : Extends st st₁) (second : Extends st₁ st₂) :
    Extends st st₂ where
  grows := first.grows.trans second.grows
  slots s inside := (second.slots s (inside.mono first.grows)).trans (first.slots s inside)
  arrays a inside := (second.arrays a (inside.mono first.grows)).trans (first.arrays a inside)
  objects := second.objects.trans first.objects
  classes := second.classes.trans first.classes

theorem extends_newSlot (st : Store) (v : Value) : Extends st (st.newSlot v).2 where
  grows := extent_newSlot st v
  slots s inside := read_newSlot_of_lt st v s inside
  arrays _ _ := rfl
  objects := rfl
  classes := rfl

theorem extends_newArray (st : Store) (data : ArrayData) : Extends st (st.newArray data).2 where
  grows := by simp [Extent.le_def, extent, newArray]
  slots _ _ := rfl
  arrays a inside := array_newArray_of_lt st data a inside
  objects := rfl
  classes := rfl

variable {shared : SlotId → Bool} {once : Value → Store → Option (Value × Store)}

/-- The two ways in which the first of several elements is copied. -/
theorem copyElements_cons {key : Key} {s : SlotId} {rest elements : List (Key × SlotId)}
    {st st' : Store}
    (done : copyElements shared once ((key, s) :: rest) st = some (elements, st')) :
    ∃ s₁ st₁ more, elements = (key, s₁) :: more ∧
      copyElements shared once rest st₁ = some (more, st') ∧
      (shared s = true ∧ s₁ = s ∧ st₁ = st ∨
        shared s = false ∧ ∃ v st₂, once (st.read s) st = some (v, st₂) ∧
          s₁ = (st₂.newSlot v).1 ∧ st₁ = (st₂.newSlot v).2) := by
  simp only [copyElements, Option.bind_eq_bind] at done
  split at done
  · next kept =>
      simp only [Option.bind_some, Option.bind_eq_some_iff, Option.some.injEq,
        Prod.mk.injEq] at done
      obtain ⟨⟨more, st₁⟩, later, rfl, rfl⟩ := done
      exact ⟨s, st, more, rfl, later, .inl ⟨kept, rfl, rfl⟩⟩
  · next copied =>
      simp only [Option.bind_eq_some_iff, Option.map_eq_some_iff, Option.some.injEq,
        Prod.mk.injEq] at done
      obtain ⟨_, ⟨⟨v, st₂⟩, first, rfl⟩, ⟨more, st₁⟩, later, rfl, rfl⟩ := done
      exact ⟨_, _, more, rfl, later, .inr ⟨by simpa using copied, v, st₂, first, rfl, rfl⟩⟩

/-- How an array is copied. -/
theorem copyWithin_array {depth : Nat} {a : ArrayId} {v : Value} {st st' : Store}
    (done : copyWithin shared depth (.array a) st = some (v, st')) :
    ∃ smaller elements st₁, depth = smaller + 1 ∧
      copyElements shared (copyWithin shared smaller) (st.array a).elements st =
        some (elements, st₁) ∧
      v = .array (st₁.newArray { st.array a with elements }).1 ∧
      st' = (st₁.newArray { st.array a with elements }).2 := by
  cases depth with
  | zero => simp [copyWithin] at done
  | succ smaller =>
      simp only [copyWithin, Option.bind_eq_bind, Option.bind_eq_some_iff, Prod.exists] at done
      obtain ⟨elements, st₁, inner, last⟩ := done
      simp only [Option.some.injEq, Prod.mk.injEq] at last
      exact ⟨smaller, elements, st₁, rfl, inner, last.1.symm, last.2.symm⟩

theorem copyWithin_plain {depth : Nat} {v : Value} (plain : ∀ a, v ≠ .array a) (st : Store) :
    copyWithin shared depth v st = some (v, st) := by
  cases v with
  | array a => exact absurd rfl (plain a)
  | _ => cases depth <;> rfl

theorem copy_plain {roots : List Handle} {v : Value} (plain : ∀ a, v ≠ .array a) (st : Store) :
    st.copy roots v = some (v, st) := by
  cases v with
  | array a => exact absurd rfl (plain a)
  | _ => rfl

theorem copyElements_extends
    (onceExtends : ∀ v st v' st', once v st = some (v', st') → Extends st st') :
    ∀ (entries : List (Key × SlotId)) {elements : List (Key × SlotId)} {st st' : Store},
      copyElements shared once entries st = some (elements, st') → Extends st st' := by
  intro entries
  induction entries with
  | nil =>
      intro elements st st' done
      simp only [copyElements, Option.some.injEq, Prod.mk.injEq] at done
      rw [← done.2]
      exact .refl st
  | cons entry rest ih =>
      intro elements st st' done
      obtain ⟨s₁, st₁, more, -, later, ⟨-, -, rfl⟩ | ⟨-, v, st₂, first, -, rfl⟩⟩ :=
        copyElements_cons done
      · exact ih later
      · exact ((onceExtends _ _ _ _ first).trans (extends_newSlot st₂ v)).trans (ih later)

theorem extends_of_plain {depth : Nat} {v v' : Value} {st st' : Store}
    (plain : ∀ a, v ≠ .array a) (done : copyWithin shared depth v st = some (v', st')) :
    Extends st st' := by
  rw [copyWithin_plain plain, Option.some.injEq, Prod.mk.injEq] at done
  rw [← done.2]
  exact .refl st

/-- A copy leaves everything in the store as it was. -/
theorem copyWithin_extends (depth : Nat) (v : Value) {v' : Value} {st st' : Store}
    (done : copyWithin shared depth v st = some (v', st')) : Extends st st' := by
  induction depth generalizing v v' st st' with
  | zero =>
      rcases v.array_or_plain with ⟨a, rfl⟩ | plain
      · simp [copyWithin] at done
      · exact extends_of_plain plain done
  | succ depth ih =>
      rcases v.array_or_plain with ⟨a, rfl⟩ | plain
      · obtain ⟨smaller, elements, st₁, same, inner, -, rfl⟩ := copyWithin_array done
        obtain rfl : depth = smaller := by omega
        exact (copyElements_extends (fun _ _ _ _ => ih _) _ inner).trans (extends_newArray _ _)
      · exact extends_of_plain plain done

theorem copy_extends {roots : List Handle} {v v' : Value} {st st' : Store}
    (done : st.copy roots v = some (v', st')) : Extends st st' := by
  rcases v.array_or_plain with ⟨a, rfl⟩ | plain
  · exact copyWithin_extends _ _ done
  · rw [copy_plain plain, Option.some.injEq, Prod.mk.injEq] at done
    rw [← done.2]
    exact .refl st

/-- What the two steps of a copy keep, where `hold` stands for a value that is copied but not yet
stored. Copied is what can be reached from a source; the slots kept on the way are known. -/
structure CopyLaws {I : Type} (G : I → Store → Prop) (hold : I → Value → I)
    (known : Extent → Handle → Prop) (source : Handle → Prop) (shared : SlotId → Bool)
    (st₀ : Store) : Prop where
  mono : ∀ {e e' : Extent} {h : Handle}, e ≤ e' → known e h → known e' h
  plain : ∀ {i : I} {st : Store} {v : Value}, (∀ a, v ≠ .array a) → G i st → G (hold i v) st
  newSlot : ∀ {i : I} {st : Store} {v : Value}, G (hold i v) st →
    (∀ h ∈ v.handles, known st.extent h) → G i (st.newSlot v).2
  newArray : ∀ {i : I} {st : Store} {data : ArrayData}, G i st →
    (∀ h ∈ data.handles, known st.extent h) →
    G (hold i (.array (st.newArray data).1)) (st.newArray data).2
  fresh : ∀ {i : I} {st st' : Store} {h : Handle}, G i st → Fresh st st' h → known st'.extent h
  object : ∀ {o : ObjectId}, source (.object o) → known st₀.extent (.object o)
  inside : ∀ {a : ArrayId}, source (.array a) → (Handle.array a).Within st₀.extent
  slotInside : ∀ {a : ArrayId} {s : SlotId}, source (.array a) →
    Handle.slot s ∈ (st₀.array a).handles → (Handle.slot s).Within st₀.extent
  kept : ∀ {a : ArrayId} {s : SlotId}, source (.array a) →
    Handle.slot s ∈ (st₀.array a).handles → shared s = true → known st₀.extent (.slot s)
  copied : ∀ {a : ArrayId} {s : SlotId}, source (.array a) →
    Handle.slot s ∈ (st₀.array a).handles → shared s = false →
    ∀ h ∈ (st₀.read s).handles, source h

namespace CopyLaws

variable {I : Type} {G : I → Store → Prop} {hold : I → Value → I}
  {known : Extent → Handle → Prop} {source : Handle → Prop} {st₀ : Store}

theorem copyElements (laws : CopyLaws G hold known source shared st₀) {a : ArrayId}
    (from_ : source (.array a))
    (onceExtends : ∀ v st v' st', once v st = some (v', st') → Extends st st')
    (onceKeeps : ∀ (i : I) (v : Value) {v' : Value} {st st' : Store}, Extends st₀ st → G i st →
      (∀ h ∈ v.handles, source h) → once v st = some (v', st') →
      G (hold i v') st' ∧ ∀ h ∈ v'.handles, known st'.extent h) (i : I) :
    ∀ (entries : List (Key × SlotId)) {elements : List (Key × SlotId)} {st st' : Store},
      (∀ entry ∈ entries, Handle.slot entry.2 ∈ (st₀.array a).handles) → Extends st₀ st → G i st →
      Store.copyElements shared once entries st = some (elements, st') →
      G i st' ∧ ∀ entry ∈ elements, known st'.extent (.slot entry.2) := by
  intro entries
  induction entries with
  | nil =>
      intro elements st st' _ _ good done
      simp only [Store.copyElements, Option.some.injEq, Prod.mk.injEq] at done
      obtain ⟨rfl, rfl⟩ := done
      exact ⟨good, by simp⟩
  | cons entry rest ih =>
      obtain ⟨key, s⟩ := entry
      intro elements st st' listed ext good done
      have ours : Handle.slot s ∈ (st₀.array a).handles := listed (key, s) List.mem_cons_self
      have others : ∀ entry ∈ rest, Handle.slot entry.2 ∈ (st₀.array a).handles :=
        fun entry member => listed entry (List.mem_cons_of_mem _ member)
      obtain ⟨s₁, st₁, more, rfl, later, ⟨kept, rfl, rfl⟩ | ⟨copied, v, st₂, first, rfl, rfl⟩⟩ :=
        copyElements_cons done
      · obtain ⟨final, knownMore⟩ := ih others ext good later
        refine ⟨final, List.forall_mem_cons.mpr ⟨?_, knownMore⟩⟩
        exact laws.mono (ext.trans (copyElements_extends onceExtends rest later)).grows
          (laws.kept from_ ours kept)
      · have reads : st.read s = st₀.read s := ext.slots s (laws.slotInside from_ ours)
        obtain ⟨held, knownCopy⟩ := onceKeeps i _ ext good
          (fun h member => laws.copied from_ ours copied h (reads ▸ member)) first
        have stored := laws.newSlot held knownCopy
        have ext' := (ext.trans (onceExtends _ _ _ _ first)).trans (extends_newSlot st₂ v)
        obtain ⟨final, knownMore⟩ := ih others ext' stored later
        refine ⟨final, List.forall_mem_cons.mpr ⟨?_, knownMore⟩⟩
        exact laws.mono (copyElements_extends onceExtends rest later).grows
          (laws.fresh held (fresh_newSlot st₂ v))

theorem copyPlain (laws : CopyLaws G hold known source shared st₀) {depth : Nat} {i : I}
    {v v' : Value} {st st' : Store} (plain : ∀ a, v ≠ .array a) (ext : Extends st₀ st)
    (good : G i st) (from_ : ∀ h ∈ v.handles, source h)
    (done : Store.copyWithin shared depth v st = some (v', st')) :
    G (hold i v') st' ∧ ∀ h ∈ v'.handles, known st'.extent h := by
  rw [copyWithin_plain plain, Option.some.injEq, Prod.mk.injEq] at done
  obtain ⟨rfl, rfl⟩ := done
  refine ⟨laws.plain plain good, fun h member => ?_⟩
  cases v with
  | array a => exact absurd rfl (plain a)
  | object o =>
      obtain rfl := List.mem_singleton.mp member
      exact laws.mono ext.grows (laws.object (from_ _ member))
  | _ => cases member

/-- A copy keeps what its steps keep, and gives a known value that is not yet stored. -/
theorem copyWithin (laws : CopyLaws G hold known source shared st₀) (depth : Nat) (i : I)
    (v : Value) {v' : Value} {st st' : Store} (ext : Extends st₀ st) (good : G i st)
    (from_ : ∀ h ∈ v.handles, source h)
    (done : Store.copyWithin shared depth v st = some (v', st')) :
    G (hold i v') st' ∧ ∀ h ∈ v'.handles, known st'.extent h := by
  induction depth generalizing i v v' st st' with
  | zero =>
      rcases v.array_or_plain with ⟨a, rfl⟩ | plain
      · simp [Store.copyWithin] at done
      · exact laws.copyPlain plain ext good from_ done
  | succ depth ih =>
      rcases v.array_or_plain with ⟨a, rfl⟩ | plain
      · obtain ⟨smaller, elements, st₁, same, inner, rfl, rfl⟩ := copyWithin_array done
        obtain rfl : depth = smaller := by omega
        have ours : source (.array a) := from_ _ List.mem_cons_self
        have data : st.array a = st₀.array a := ext.arrays a (laws.inside ours)
        have listed : ∀ entry ∈ (st.array a).elements,
            Handle.slot entry.2 ∈ (st₀.array a).handles := by
          rw [data]
          exact fun entry member => List.mem_map.mpr ⟨entry, member, rfl⟩
        obtain ⟨kept, slots⟩ := laws.copyElements ours (fun _ _ _ _ => copyWithin_extends depth _)
          (fun i v _ _ _ => ih i v) i _ listed ext good inner
        refine ⟨laws.newArray kept fun h member => ?_, fun h member => ?_⟩
        · obtain ⟨entry, element, rfl⟩ := List.mem_map.mp member
          exact slots entry element
        · obtain rfl := List.mem_singleton.mp member
          exact laws.fresh kept (fresh_newArray st₁ _)
      · exact laws.copyPlain plain ext good from_ done

/-- The same for the copy of a value, as the tally of the store decides what is shared. -/
theorem copy {roots : List Handle} {i : I} {v v' : Value} {st' : Store}
    (laws : CopyLaws G hold known source (st₀.isShared roots) st₀) (good : G i st₀)
    (from_ : ∀ h ∈ v.handles, source h) (done : st₀.copy roots v = some (v', st')) :
    G (hold i v') st' ∧ ∀ h ∈ v'.handles, known st'.extent h := by
  rcases v.array_or_plain with ⟨a, rfl⟩ | plain
  · exact laws.copyWithin _ i _ (.refl st₀) good from_ done
  · have handedOn : Store.copyWithin (st₀.isShared roots) 0 v st₀ = some (v', st') := by
      rw [copyWithin_plain plain, ← done, copy_plain plain]
    exact laws.copyPlain plain (.refl st₀) good from_ handedOn

end CopyLaws
end Store
end TreeScript
