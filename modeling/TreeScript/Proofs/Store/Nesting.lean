import Mathlib.Data.Finset.Card
import Mathlib.Logic.Relation
import TreeScript.Proofs.Store.Likeness
import TreeScript.Proofs.Store.Ownership

set_option autoImplicit false

/- Which copies end: those that meet no array within itself. Where each array has one owner, a copy
that does not end comes back to the very array it began with, and no variable leads there. -/
namespace TreeScript.Store

open Relation (ReflTransGen TransGen)

/-- The copy of the first array has a copy of the second in it. -/
def Nests (shared : SlotId → Bool) (st : Store) (a b : ArrayId) : Prop :=
  ∃ s, Handle.slot s ∈ (st.array a).handles ∧ shared s = false ∧ st.read s = .array b

/-- What roots lead to without the help of a class. -/
inductive Led (st : Store) (roots : List Handle) : Handle → Prop
  | root {h : Handle} (member : h ∈ roots) : Led st roots h
  | held {g h : Handle} (holder : Led st roots g) (noClass : ∀ c, g ≠ .classData c)
      (member : h ∈ st.holds g) : Led st roots h

variable {shared : SlotId → Bool} {st : Store} {roots : List Handle} {a b : ArrayId}

theorem Led.reachable {h : Handle} (led : st.Led roots h) : st.Reachable roots h := by
  induction led with
  | root member => exact .root member
  | held _ _ member ih => exact .held ih member

theorem Nests.within (closed : st.Closed) (inside : (Handle.array a).Within st.extent)
    (nests : st.Nests shared a b) : (Handle.array b).Within st.extent := by
  obtain ⟨s, member, -, reads⟩ := nests
  have slot : (Handle.slot s).Within st.extent := closed (.array a) inside _ member
  exact closed.read slot _ (by simp [reads, Value.handles])

theorem Nests.reachable (reachable : st.Reachable roots (.array a)) (nests : st.Nests shared a b) :
    st.Reachable roots (.array b) := by
  obtain ⟨s, member, -, reads⟩ := nests
  exact .held (.held reachable member) (by simp [holds, reads, Value.handles])

theorem reachable_of_nests (reachable : st.Reachable roots (.array a))
    (nests : ReflTransGen (st.Nests shared) a b) : st.Reachable roots (.array b) := by
  induction nests with
  | refl => exact reachable
  | tail _ last ih => exact last.reachable ih

/-! A copy that ends -/

/-- A value whose copy ends: so does the copy of whatever lies in an unshared slot of it. -/
inductive Copyable (shared : SlotId → Bool) (st : Store) : Value → Prop
  | plain {v : Value} (plain : ∀ a, v ≠ .array a) : Copyable shared st v
  | array {a : ArrayId} (elements : ∀ s, Handle.slot s ∈ (st.array a).handles →
      shared s = false → Copyable shared st (st.read s)) : Copyable shared st (.array a)

/-- What has a copy is copyable. -/
theorem Copied.copyable {st' : Store} {v v' : Value} (copied : Copied shared st st' v v') :
    Copyable shared st v := by
  induction copied with
  | plain plain => exact .plain plain
  | @array a b new nextIndex pointer keys kept fresh copied ih =>
      refine .array fun s member unshared => ?_
      obtain ⟨entry, listed, isSlot⟩ := List.mem_map.mp member
      obtain ⟨pair, paired, rfl⟩ := (exists_pair keys).1 entry listed
      obtain rfl := Handle.slot.inj isSlot
      exact ih pair paired unshared

/-- No array within an array that is copyable nests in itself. -/
theorem Copyable.no_cycle {v : Value} (copyable : Copyable shared st v) :
    ∀ a, v = .array a → ∀ b, ReflTransGen (st.Nests shared) a b →
      ¬ TransGen (st.Nests shared) b b := by
  induction copyable with
  | plain plain => exact fun a isArray => absurd isArray (plain a)
  | @array a elements ih =>
      have below : ∀ c, st.Nests shared a c → ∀ b, ReflTransGen (st.Nests shared) c b →
          ¬ TransGen (st.Nests shared) b b := by
        rintro c ⟨s, member, unshared, reads⟩
        exact ih s member unshared c reads
      rintro _ ⟨⟩ b path cycle
      rcases ReflTransGen.cases_head path with rfl | ⟨c, first, rest⟩
      · -- a cycle through `a` itself is one through what comes next on it
        obtain ⟨c, first, rest⟩ := TransGen.head'_iff.mp cycle
        exact below c first c .refl (TransGen.tail' rest first)
      · exact below c first b rest cycle

/-! A copy that finds no array within itself -/

theorem copyElements_isSome {once : Value → Store → Option (Value × Store)} {st₀ : Store}
    (onceExtends : ∀ v st v' st', once v st = some (v', st') → Extends st st')
    (entries : List (Key × SlotId)) {st : Store} (ext : Extends st₀ st)
    (ends : ∀ entry ∈ entries, shared entry.2 = false → ∀ st, Extends st₀ st →
      (once (st.read entry.2) st).isSome = true) :
    (copyElements shared once entries st).isSome = true := by
  induction entries generalizing st with
  | nil => rfl
  | cons entry rest ih =>
      obtain ⟨key, s⟩ := entry
      obtain ⟨here, later⟩ := List.forall_mem_cons.mp ends
      cases isShared : shared s with
      | true =>
          obtain ⟨last, more⟩ := Option.isSome_iff_exists.mp (ih ext later)
          simp [copyElements, isShared, more]
      | false =>
          obtain ⟨⟨v, st₁⟩, first⟩ := Option.isSome_iff_exists.mp (here isShared st ext)
          have ext' := (ext.trans (onceExtends _ _ _ _ first)).trans (extends_newSlot st₁ v)
          obtain ⟨last, more⟩ := Option.isSome_iff_exists.mp (ih ext' later)
          simp [copyElements, isShared, first, more]

theorem card_arrays_le {path : Finset ArrayId}
    (inside : ∀ p ∈ path, (Handle.array p).Within st.extent) : path.card ≤ st.arrays.size := by
  have images : path.card ≤ (Finset.range st.arrays.size).card := by
    refine Finset.card_le_card_of_injOn ArrayId.index (fun p member => ?_) ?_
    · exact Finset.mem_coe.mpr (Finset.mem_range.mpr (inside p member))
    · rintro ⟨i⟩ - ⟨j⟩ - same
      exact congrArg ArrayId.mk same
  simpa using images

/-- The arrays on the way to `a` are all different, so that there are no more levels below `a` than
there are other arrays. -/
theorem copyWithin_isSome {st₀ : Store} (closed : st₀.Closed) (depth : Nat) (a : ArrayId)
    (path : Finset ArrayId) (inside : ∀ p ∈ insert a path, (Handle.array p).Within st₀.extent)
    (above : ∀ p ∈ path, TransGen (st₀.Nests shared) p a)
    (noCycle : ∀ b, ReflTransGen (st₀.Nests shared) a b → ¬ TransGen (st₀.Nests shared) b b)
    (enough : st₀.arrays.size ≤ depth + path.card) {st : Store} (ext : Extends st₀ st) :
    (copyWithin shared depth (.array a) st).isSome = true := by
  have new : a ∉ path := fun member => noCycle a .refl (above a member)
  have few := card_arrays_le inside
  rw [Finset.card_insert_of_notMem new] at few
  induction depth generalizing a path st with
  | zero => omega
  | succ depth ih =>
      have here : (Handle.array a).Within st₀.extent := inside a (Finset.mem_insert_self _ _)
      have same : st.array a = st₀.array a := ext.arrays a here
      have ends : ∀ entry ∈ (st₀.array a).elements, shared entry.2 = false → ∀ st,
          Extends st₀ st → (copyWithin shared depth (st.read entry.2) st).isSome = true := by
        intro entry member unshared st ext
        rw [ext.slots _ (closed.element here member)]
        rcases (st₀.read entry.2).array_or_plain with ⟨b, isArray⟩ | plain
        · have nests : st₀.Nests shared a b :=
            ⟨entry.2, List.mem_map.mpr ⟨entry, member, rfl⟩, unshared, isArray⟩
          have onward : ∀ p ∈ insert a path, TransGen (st₀.Nests shared) p b := by
            intro p listed
            rcases Finset.mem_insert.mp listed with rfl | earlier
            · exact .single nests
            · exact (above p earlier).tail nests
          have apart : b ∉ insert a path := fun listed =>
            noCycle b (.single nests) (onward b listed)
          have within : ∀ p ∈ insert b (insert a path), (Handle.array p).Within st₀.extent := by
            intro p listed
            rcases Finset.mem_insert.mp listed with rfl | earlier
            · exact nests.within closed here
            · exact inside p earlier
          have fewer := card_arrays_le within
          rw [Finset.card_insert_of_notMem apart] at fewer
          have longer := Finset.card_insert_of_notMem new
          rw [isArray]
          exact ih b (insert a path) within onward
            (fun c path => noCycle c (.head nests path)) (by omega) ext apart fewer
        · simp [copyWithin_plain plain]
      have grows : ∀ v st v' st', copyWithin shared depth v st = some (v', st') → Extends st st' :=
        fun _ _ _ _ => copyWithin_extends depth _
      obtain ⟨⟨elements, st₁⟩, inner⟩ := Option.isSome_iff_exists.mp
        (copyElements_isSome grows _ ext ends)
      simp [copyWithin, same, inner]

/-- A copy ends unless it meets an array that nests in itself. -/
theorem copy_isSome_iff (closed : st.Closed) (inside : (Handle.array a).Within st.extent) :
    (st.copy roots (.array a)).isSome = true ↔
      ∀ b, ReflTransGen (st.Nests (st.isShared roots)) a b →
        ¬ TransGen (st.Nests (st.isShared roots)) b b := by
  constructor
  · intro done b path
    obtain ⟨⟨copy, st'⟩, done⟩ := Option.isSome_iff_exists.mp done
    have copied := copy_copied closed (by simpa [Value.handles] using inside) done
    exact copied.copyable.no_cycle a rfl b path
  · intro noCycle
    exact copyWithin_isSome closed _ a ∅ (by simpa using inside) (by simp) noCycle (by simp)
      (.refl st)

theorem copy_isSome_iff_copyable {v : Value} (closed : st.Closed)
    (inside : ∀ h ∈ v.handles, h.Within st.extent) :
    (st.copy roots v).isSome = true ↔ Copyable (st.isShared roots) st v := by
  constructor
  · intro done
    obtain ⟨⟨copy, st'⟩, done⟩ := Option.isSome_iff_exists.mp done
    exact (copy_copied closed inside done).copyable
  · intro copyable
    rcases v.array_or_plain with ⟨a, rfl⟩ | plain
    · exact (copy_isSome_iff closed (inside _ List.mem_cons_self)).mpr (copyable.no_cycle a rfl)
    · rw [copy_plain plain]
      rfl

/-- A copy ends in a later store too, whatever is shared there, if nothing nests in itself. -/
theorem copy_isSome_of_extends {st₀ : Store} (closed : st₀.Closed)
    (inside : (Handle.array a).Within st₀.extent)
    (noCycle : ∀ shared b, ReflTransGen (st₀.Nests shared) a b → ¬ TransGen (st₀.Nests shared) b b)
    (ext : Extends st₀ st) : (st.copy roots (.array a)).isSome = true := by
  have enough : st₀.arrays.size ≤ st.arrays.size := ((Extent.le_def _ _).mp ext.grows).2.1
  exact copyWithin_isSome closed _ a ∅ (by simpa using inside) (by simp) (noCycle _)
    (by simp only [Finset.card_empty]; omega) ext

/-! One owner for each array -/

variable {loose : Multiset ArrayId}

/-- An array nests in one living array at most: the slot that holds it would be shared. -/
theorem Owned.nests_unique (owned : st.Owned loose) {c : ArrayId}
    (alive : ∀ h, st.Reachable roots h → h.Within st.extent ∧ ¬ st.Dead roots h)
    (first : st.Reachable roots (.array a)) (second : st.Reachable roots (.array b))
    (nests : st.Nests (st.isShared roots) a c) (nests' : st.Nests (st.isShared roots) b c) :
    a = b := by
  obtain ⟨s, member, unshared, reads⟩ := nests
  obtain ⟨t, member', -, reads'⟩ := nests'
  obtain rfl := owned.single s t c reads reads'
  by_contra apart
  have shared := isShared_of_holders (alive _ (.held first member)).1 (alive _ first) member
    (alive _ second) member' fun same => apart (Handle.array.inj same)
  simp [unshared] at shared

/-- So an array from which a cycle is reached lies on it. -/
theorem Owned.nests_back (owned : st.Owned loose)
    (alive : ∀ h, st.Reachable roots h → h.Within st.extent ∧ ¬ st.Dead roots h)
    (start : st.Reachable roots (.array a))
    (path : ReflTransGen (st.Nests (st.isShared roots)) a b)
    (cycle : TransGen (st.Nests (st.isShared roots)) b b) :
    TransGen (st.Nests (st.isShared roots)) a a := by
  induction path with
  | refl => exact cycle
  | @tail c b path last ih =>
      obtain ⟨d, around, back⟩ := TransGen.tail'_iff.mp cycle
      have here := reachable_of_nests start path
      have there := reachable_of_nests (last.reachable here) around
      obtain rfl := owned.nests_unique alive here there last back
      exact ih (.head' last around)

/-- A slot in which an array of a cycle lies, itself in another array of the cycle. -/
def OnCycle (shared : SlotId → Bool) (st : Store) (s : SlotId) : Prop :=
  shared s = false ∧ ∃ a b, Handle.slot s ∈ (st.array a).handles ∧ st.read s = .array b ∧
    ReflTransGen (st.Nests shared) b a

/-- What slots and arrays the roots lead to lie on no cycle: where the way from the roots enters it,
there would be a second holder. -/
theorem Owned.led_off_cycle (owned : st.Owned loose) {more : List Handle}
    (inside : ∀ h ∈ roots ++ more, h.Within st.extent) {h : Handle} (led : st.Led roots h)
    (slots : ∀ g ∈ roots, ∃ s, g = .slot s) :
    (∀ s, h = .slot s → ¬ st.OnCycle (st.isShared (roots ++ more)) s) ∧
      ∀ a, h = .array a → ¬ TransGen (st.Nests (st.isShared (roots ++ more))) a a := by
  have alive : ∀ h, st.Reachable (roots ++ more) h →
      h.Within st.extent ∧ ¬ st.Dead (roots ++ more) h :=
    fun h reachable => reachable.alive inside owned.closed
  have among : ∀ {h}, st.Led roots h → st.Reachable (roots ++ more) h :=
    fun led => led.reachable.mono fun g member => List.mem_append_left _ member
  -- the array that holds the slot of a cycle is alive with that slot
  have holder : ∀ {s a b}, st.Reachable (roots ++ more) (.slot s) → st.read s = .array b →
      ReflTransGen (st.Nests (st.isShared (roots ++ more))) b a →
      st.Reachable (roots ++ more) (.array a) := fun reachable reads path =>
    reachable_of_nests (.held reachable (by simp [holds, reads, Value.handles])) path
  induction led with
  | @root h member =>
      refine ⟨?_, fun a isArray => ?_⟩
      · rintro s rfl ⟨unshared, a, b, held, reads, path⟩
        have reachable : st.Reachable (roots ++ more) (.slot s) :=
          .root (List.mem_append_left _ member)
        have shared := isShared_of_root (alive _ reachable).1 (List.mem_append_left more member)
          (alive _ (holder reachable reads path)) held
        simp [unshared] at shared
      · obtain ⟨s, isSlot⟩ := slots h member
        simp [isSlot] at isArray
  | @held g h led noClass member ih =>
      have reachable : st.Reachable (roots ++ more) g := among led
      cases g with
      | classData c => exact absurd rfl (noClass c)
      | slot s =>
          refine ⟨?_, ?_⟩
          · rintro t rfl
            rcases Value.mem_handles member with ⟨_, _, isSlot⟩ | ⟨_, _, isSlot⟩ <;> cases isSlot
          · rintro b rfl cycle
            have reads : st.read s = .array b := by
              rcases Value.mem_handles member with ⟨c, reads, same⟩ | ⟨_, _, isObject⟩
              · exact (Handle.array.inj same) ▸ reads
              · cases isObject
            obtain ⟨a, path, t, held, unshared, reads'⟩ := TransGen.tail'_iff.mp cycle
            obtain rfl := owned.single s t b reads reads'
            exact ih.1 s rfl ⟨unshared, a, b, held, reads, path⟩
      | array c =>
          refine ⟨?_, ?_⟩
          · rintro s rfl ⟨unshared, a, b, held, reads, path⟩
            have here : st.Reachable (roots ++ more) (.slot s) := .held reachable member
            by_cases same : c = a
            · subst same
              exact ih.2 c rfl (.head' ⟨s, held, unshared, reads⟩ path)
            · have shared := isShared_of_holders (alive _ here).1 (alive _ reachable) member
                (alive _ (holder here reads path)) held fun eq => same (Handle.array.inj eq)
              simp [unshared] at shared
          · rintro b rfl
            simp [holds, ArrayData.handles] at member
      | object o =>
          refine ⟨?_, ?_⟩
          · rintro s rfl ⟨unshared, a, b, held, reads, path⟩
            have here : st.Reachable (roots ++ more) (.slot s) := .held reachable member
            have shared := isShared_of_holders (alive _ here).1 (alive _ reachable) member
              (alive _ (holder here reads path)) held Handle.noConfusion
            simp [unshared] at shared
          · rintro b rfl
            simp [holds, ObjectData.handles] at member

end TreeScript.Store
