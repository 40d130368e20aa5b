import TreeScript.Proofs.Store.Copy
import TreeScript.Proofs.Store.Tally
import TreeScript.Store.Snapshot

set_option autoImplicit false

/- What a copy is: the same keys, next index and pointer at every level that is copied, new slots
and arrays throughout except for the slots that are shared. So it shows what the original shows,
and what is done to its own slots and arrays does not show through the original. -/
namespace TreeScript

/-- A spot that is a slot from a set of handles, or a new element of an array from it. -/
def Spot.Among (own : Handle → Prop) : Spot → Prop
  | .slot s => own (.slot s)
  | .append a => own (.array a)
  | .element _ _ | .property _ _ => False

theorem Spot.Among.mono {own more : Handle → Prop} {spot : Spot} (included : ∀ h, own h → more h)
    (among : spot.Among own) : spot.Among more := by
  cases spot with
  | slot s => exact included _ among
  | append a => exact included _ among
  | element a key => exact among.elim
  | property o name => exact among.elim

namespace Store

/-- Nothing leads out of the store. -/
def Closed (st : Store) : Prop :=
  ∀ h : Handle, h.Within st.extent → ∀ g ∈ st.holds h, g.Within st.extent

/-- The elements of an array in one store beside those of an array in another. -/
def elementPairs (st st' : Store) (a b : ArrayId) : List ((Key × SlotId) × (Key × SlotId)) :=
  (st.array a).elements.zip (st'.array b).elements

/-- A value of the second store is a copy of one of the first. What is no array is its own copy;
the copy of an array is new, and so are its slots, each with a copy of what the old one holds. Only
shared slots are kept. -/
inductive Copied (shared : SlotId → Bool) (st st' : Store) : Value → Value → Prop
  | plain {v : Value} (plain : ∀ a, v ≠ .array a) : Copied shared st st' v v
  | array {a b : ArrayId} (new : Fresh st st' (.array b))
      (nextIndex : (st'.array b).nextIndex = (st.array a).nextIndex)
      (pointer : (st'.array b).pointer = (st.array a).pointer)
      (keys : Assoc.keys (st'.array b).elements = Assoc.keys (st.array a).elements)
      (kept : ∀ pair ∈ elementPairs st st' a b, shared pair.1.2 = true → pair.2.2 = pair.1.2)
      (fresh : ∀ pair ∈ elementPairs st st' a b, shared pair.1.2 = false →
        Fresh st st' (.slot pair.2.2))
      (copied : ∀ pair ∈ elementPairs st st' a b, shared pair.1.2 = false →
        Copied shared st st' (st.read pair.1.2) (st'.read pair.2.2)) :
      Copied shared st st' (.array a) (.array b)

/-- What a value has to itself: its arrays, and their slots unless they are shared. What lies behind
a shared slot or an object is not its own. -/
inductive Private (shared : SlotId → Bool) (st : Store) (v : Value) : Handle → Prop
  | array {a : ArrayId} (isArray : v = .array a) : Private shared st v (.array a)
  | slot {a : ArrayId} {s : SlotId} (owner : Private shared st v (.array a))
      (member : Handle.slot s ∈ (st.array a).handles) (unshared : shared s = false) :
      Private shared st v (.slot s)
  | inner {s : SlotId} {a : ArrayId} (holder : Private shared st v (.slot s))
      (reads : st.read s = .array a) : Private shared st v (.array a)

variable {shared : SlotId → Bool} {st st' st₁ st₂ : Store} {v v' : Value}

/-! What is there stays readable -/

theorem Closed.read (closed : st.Closed) {s : SlotId} (inside : (Handle.slot s).Within st.extent) :
    ∀ h ∈ (st.read s).handles, h.Within st.extent := closed (.slot s) inside

theorem Closed.element (closed : st.Closed) {a : ArrayId} {entry : Key × SlotId}
    (inside : (Handle.array a).Within st.extent) (member : entry ∈ (st.array a).elements) :
    (Handle.slot entry.2).Within st.extent :=
  closed (.array a) inside _ (List.mem_map.mpr ⟨entry, member, rfl⟩)

theorem Closed.property (closed : st.Closed) {o : ObjectId} {entry : String × SlotId}
    (inside : (Handle.object o).Within st.extent) (member : entry ∈ (st.object o).properties) :
    (Handle.slot entry.2).Within st.extent :=
  closed (.object o) inside _ (List.mem_cons_of_mem _ (List.mem_map.mpr ⟨entry, member, rfl⟩))

/-- A value shows the same as long as what was there is there as it was. -/
theorem Extends.snapshotWithin (ext : Extends st st') (closed : st.Closed) (depth : Nat) (v : Value)
    (inside : ∀ h ∈ v.handles, h.Within st.extent) :
    st'.snapshotWithin depth v = st.snapshotWithin depth v := by
  induction depth generalizing v with
  | zero => rfl
  | succ depth ih =>
      cases v with
      | array a =>
          have here : (Handle.array a).Within st.extent := inside _ List.mem_cons_self
          simp only [Store.snapshotWithin, ext.arrays a here, Snapshot.array.injEq]
          apply List.map_congr_left
          intro entry member
          have slot := closed.element here member
          rw [ext.slots _ slot, ih _ (closed.read slot)]
      | object o =>
          have here : (Handle.object o).Within st.extent := inside _ List.mem_cons_self
          have object : st'.object o = st.object o := by simp only [Store.object, ext.objects]
          have name : st'.className o = st.className o := by
            simp only [className, classData, object, ext.classes]
          simp only [Store.snapshotWithin, object, name, Snapshot.object.injEq, true_and]
          apply List.map_congr_left
          intro entry member
          have slot := closed.property here member
          rw [ext.slots _ slot, ih _ (closed.read slot)]
      | _ => rfl

/-! A copy is copied -/

theorem mem_elements_of_pair {a b : ArrayId} {pair : (Key × SlotId) × (Key × SlotId)}
    (member : pair ∈ elementPairs st st' a b) :
    pair.1 ∈ (st.array a).elements ∧ pair.2 ∈ (st'.array b).elements :=
  List.of_mem_zip (show (pair.1, pair.2) ∈ _ from member)

/-- A copy stays one as long as what was new with it is as it was. -/
theorem Copied.carry (copied : Copied shared st st₁ v v') (grows : st₁.extent ≤ st₂.extent)
    (slots : ∀ s, Fresh st st₁ (.slot s) → st₂.read s = st₁.read s)
    (arrays : ∀ a, Fresh st st₁ (.array a) → st₂.array a = st₁.array a) :
    Copied shared st st₂ v v' := by
  induction copied with
  | plain plain => exact .plain plain
  | @array a b new nextIndex pointer keys kept fresh copied ih =>
      have same : st₂.array b = st₁.array b := arrays b new
      have pairs : elementPairs st st₂ a b = elementPairs st st₁ a b := by
        simp only [elementPairs, same]
      refine .array (new.grow grows) (same ▸ nextIndex) (same ▸ pointer) (same ▸ keys)
        (pairs ▸ kept) (fun pair member unshared => ?_) fun pair member unshared => ?_
      · exact (fresh pair (pairs ▸ member) unshared).grow grows
      · have slot := fresh pair (pairs ▸ member) unshared
        rw [slots _ slot]
        exact ih pair (pairs ▸ member) unshared

/-- What a later store adds does not concern a copy. -/
theorem Copied.extend (copied : Copied shared st st₁ v v') (ext : Extends st₁ st₂) :
    Copied shared st st₂ v v' :=
  copied.carry ext.grows (fun s new => ext.slots s new.2) fun a new => ext.arrays a new.2

/-- The elements of a copy, one after the other: `st₀` is the store when the copy was begun. -/
theorem copyElements_copied {once : Value → Store → Option (Value × Store)} {st₀ : Store}
    (onceExtends : ∀ v st v' st', once v st = some (v', st') → Extends st st')
    (closed : st₀.Closed)
    (onceCopied : ∀ {v v' : Value} {st st' : Store}, Extends st₀ st →
      (∀ h ∈ v.handles, h.Within st₀.extent) → once v st = some (v', st') →
      Copied shared st₀ st' v v')
    (entries : List (Key × SlotId)) {elements : List (Key × SlotId)} {st st' : Store}
    (inside : ∀ entry ∈ entries, (Handle.slot entry.2).Within st₀.extent)
    (ext : Extends st₀ st) (done : copyElements shared once entries st = some (elements, st')) :
    Assoc.keys elements = Assoc.keys entries ∧
      ∀ pair ∈ entries.zip elements,
        (shared pair.1.2 = true → pair.2.2 = pair.1.2) ∧
        (shared pair.1.2 = false → Fresh st₀ st' (.slot pair.2.2) ∧
          Copied shared st₀ st' (st₀.read pair.1.2) (st'.read pair.2.2)) := by
  induction entries generalizing elements st with
  | nil =>
      simp only [copyElements, Option.some.injEq, Prod.mk.injEq] at done
      simp [← done.1]
  | cons entry rest ih =>
      obtain ⟨key, s⟩ := entry
      obtain ⟨here, later⟩ := List.forall_mem_cons.mp inside
      obtain ⟨s₁, st₁, more, rfl, others, first⟩ := copyElements_cons done
      have ext' := copyElements_extends onceExtends rest others
      rcases first with ⟨isShared, rfl, rfl⟩ | ⟨unshared, copy, st₂, first, rfl, rfl⟩
      · obtain ⟨keys, pairs⟩ := ih later ext others
        refine ⟨by simpa [Assoc.keys] using keys, List.forall_mem_cons.mpr ⟨?_, pairs⟩⟩
        simp [isShared]
      · have reads : st.read s = st₀.read s := ext.slots s here
        have extFirst := onceExtends _ _ _ _ first
        have extSlot := extends_newSlot st₂ copy
        have value : Copied shared st₀ st₂ (st₀.read s) copy := by
          rw [reads] at first
          exact onceCopied ext (closed.read here) first
        have slot := fresh_newSlot st₂ copy
        have stored : st'.read (st₂.newSlot copy).1 = copy := by
          rw [ext'.slots _ slot.2, read_newSlot_self]
        obtain ⟨keys, pairs⟩ := ih later ((ext.trans extFirst).trans extSlot) others
        refine ⟨by simpa [Assoc.keys] using keys, List.forall_mem_cons.mpr ⟨?_, pairs⟩⟩
        simp only [unshared, stored, Bool.false_eq_true, false_implies, forall_const, true_and]
        exact ⟨(slot.start (ext.trans extFirst).grows).grow ext'.grows,
          value.extend (extSlot.trans ext')⟩

theorem copyWithin_copied {st₀ : Store} (closed : st₀.Closed) (depth : Nat) {v v' : Value}
    {st st' : Store} (ext : Extends st₀ st) (inside : ∀ h ∈ v.handles, h.Within st₀.extent)
    (done : copyWithin shared depth v st = some (v', st')) : Copied shared st₀ st' v v' := by
  induction depth generalizing v v' st st' with
  | zero =>
      rcases v.array_or_plain with ⟨a, rfl⟩ | plain
      · simp [copyWithin] at done
      · rw [copyWithin_plain plain, Option.some.injEq, Prod.mk.injEq] at done
        exact done.1 ▸ .plain plain
  | succ depth ih =>
      rcases v.array_or_plain with ⟨a, rfl⟩ | plain
      · obtain ⟨smaller, elements, st₁, same, inner, rfl, rfl⟩ := copyWithin_array done
        obtain rfl : depth = smaller := by omega
        have here : (Handle.array a).Within st₀.extent := inside _ List.mem_cons_self
        rw [ext.arrays a here] at inner ⊢
        have slots : ∀ entry ∈ (st₀.array a).elements, (Handle.slot entry.2).Within st₀.extent :=
          fun entry member => closed.element here member
        have extInner := copyElements_extends (fun _ _ _ _ => copyWithin_extends depth _) _ inner
        have extArray := extends_newArray st₁ { st₀.array a with elements := elements }
        obtain ⟨keys, pairs⟩ := copyElements_copied (fun _ _ _ _ => copyWithin_extends depth _)
          closed (fun ext inside done => ih ext inside done) _ slots ext inner
        have new := fresh_newArray st₁ { st₀.array a with elements := elements }
        have all : elementPairs st₀ (st₁.newArray { st₀.array a with elements := elements }).2 a
            (st₁.newArray { st₀.array a with elements := elements }).1 =
            (st₀.array a).elements.zip elements := by
          rw [elementPairs, array_newArray_self]
        refine .array (new.start (ext.trans extInner).grows) ?_ ?_ ?_ ?_ ?_ ?_
        · rw [array_newArray_self]
        · rw [array_newArray_self]
        · rw [array_newArray_self]
          exact keys
        · rw [all]
          exact fun pair member => (pairs pair member).1
        · rw [all]
          exact fun pair member unshared => ((pairs pair member).2 unshared).1.grow extArray.grows
        · rw [all]
          intro pair member unshared
          obtain ⟨-, value⟩ := (pairs pair member).2 unshared
          exact value.extend extArray
      · rw [copyWithin_plain plain, Option.some.injEq, Prod.mk.injEq] at done
        exact done.1 ▸ .plain plain

/-- A copy made in a larger store, as the tally of that store decides what is shared. -/
theorem copy_copied_of_extends {st₀ : Store} {roots : List Handle} (closed : st₀.Closed)
    (ext : Extends st₀ st) (inside : ∀ h ∈ v.handles, h.Within st₀.extent)
    (done : st.copy roots v = some (v', st')) : Copied (st.isShared roots) st₀ st' v v' := by
  rcases v.array_or_plain with ⟨a, rfl⟩ | plain
  · exact copyWithin_copied closed _ ext inside done
  · rw [copy_plain plain, Option.some.injEq, Prod.mk.injEq] at done
    exact done.1 ▸ .plain plain

theorem copy_copied {roots : List Handle} (closed : st.Closed)
    (inside : ∀ h ∈ v.handles, h.Within st.extent) (done : st.copy roots v = some (v', st')) :
    Copied (st.isShared roots) st st' v v' := copy_copied_of_extends closed (.refl st) inside done

/-! A copy shows what the original shows -/

theorem map_eq_of_pairs {f g : SlotId → Snapshot} (entries elements : List (Key × SlotId))
    (keys : Assoc.keys elements = Assoc.keys entries)
    (same : ∀ pair ∈ entries.zip elements, g pair.2.2 = f pair.1.2) :
    elements.map (fun entry => (entry.1, g entry.2)) =
      entries.map (fun entry => (entry.1, f entry.2)) := by
  induction entries generalizing elements with
  | nil =>
      have none : elements = [] := by simpa [Assoc.keys] using keys
      simp [none]
  | cons entry rest ih =>
      cases elements with
      | nil => simp [Assoc.keys] at keys
      | cons first more =>
          simp only [Assoc.keys, List.map_cons, List.cons.injEq] at keys
          obtain ⟨here, later⟩ := List.forall_mem_cons.mp same
          simp only [List.map_cons, keys.1, here, ih more keys.2 later]

theorem Copied.snapshotWithin (copied : Copied shared st st' v v') (ext : Extends st st')
    (closed : st.Closed) (inside : ∀ h ∈ v.handles, h.Within st.extent) (depth : Nat) :
    st'.snapshotWithin depth v' = st.snapshotWithin depth v := by
  induction depth generalizing v v' with
  | zero => rfl
  | succ depth ih =>
      cases copied with
      | plain plain => exact ext.snapshotWithin closed _ _ inside
      | @array a b new nextIndex pointer keys kept fresh copied =>
          have here : (Handle.array a).Within st.extent := inside _ List.mem_cons_self
          simp only [Store.snapshotWithin, Snapshot.array.injEq]
          apply map_eq_of_pairs (f := fun s => st.snapshotWithin depth (st.read s))
            (g := fun s => st'.snapshotWithin depth (st'.read s)) _ _ keys
          intro pair member
          have slot := closed.element here (mem_elements_of_pair member).1
          cases isShared : shared pair.1.2 with
          | true =>
              rw [kept pair member isShared, ext.slots _ slot]
              exact ext.snapshotWithin closed _ _ (closed.read slot)
          | false => exact ih (copied pair member isShared) (closed.read slot)

/-! A copy has its slots and arrays to itself -/

/-- Each element of an array is paired with one of its copy, and the other way round. -/
theorem exists_pair {a b : ArrayId}
    (keys : Assoc.keys (st'.array b).elements = Assoc.keys (st.array a).elements) :
    (∀ entry ∈ (st.array a).elements, ∃ pair ∈ elementPairs st st' a b, pair.1 = entry) ∧
      ∀ entry ∈ (st'.array b).elements, ∃ pair ∈ elementPairs st st' a b, pair.2 = entry := by
  have length : (st'.array b).elements.length = (st.array a).elements.length := by
    simpa [Assoc.keys] using congrArg List.length keys
  refine ⟨fun entry member => List.mem_map.mp ?_, fun entry member => List.mem_map.mp ?_⟩
  · rwa [elementPairs, List.map_fst_zip (Nat.le_of_eq length.symm)]
  · rwa [elementPairs, List.map_snd_zip (Nat.le_of_eq length)]

/-- Each array a copy has to itself is new and copied from one, and each slot is new and holds a
copy. -/
theorem Copied.private_new (copied : Copied shared st st' v v') {h : Handle}
    (own : Private shared st' v' h) :
    Fresh st st' h ∧ (∀ b, h = .array b → ∃ a, Copied shared st st' (.array a) (.array b)) ∧
      ∀ t, h = .slot t → ∃ w, Copied shared st st' w (st'.read t) := by
  have ofArray : ∀ {w : Value} {b : ArrayId}, Copied shared st st' w (.array b) →
      Fresh st st' (.array b) ∧ ∃ a, Copied shared st st' (.array a) (.array b) := by
    intro w b isCopy
    cases isCopy with
    | plain plain => exact absurd rfl (plain b)
    | @array a _ new nextIndex pointer keys kept fresh copied =>
        exact ⟨new, a, .array new nextIndex pointer keys kept fresh copied⟩
  induction own with
  | @array b isArray =>
      obtain ⟨new, isCopy⟩ := ofArray (isArray ▸ copied)
      exact ⟨new, fun _ same => (Handle.array.inj same) ▸ isCopy, fun _ => Handle.noConfusion⟩
  | @slot b t owner member unshared ih =>
      obtain ⟨a, isCopy⟩ := ih.2.1 b rfl
      cases isCopy with
      | plain plain => exact absurd rfl (plain b)
      | @array _ _ new nextIndex pointer keys kept fresh copied =>
          obtain ⟨entry, listed, isSlot⟩ := List.mem_map.mp member
          obtain ⟨pair, paired, same⟩ := (exists_pair keys).2 entry listed
          have target : pair.2.2 = t := by
            rw [same]
            exact Handle.slot.inj isSlot
          have unsharedBefore : shared pair.1.2 = false := by
            by_contra sharedBefore
            have still := kept pair paired (by simpa using sharedBefore)
            rw [target] at still
            exact sharedBefore (still ▸ unshared)
          refine ⟨target ▸ fresh pair paired unsharedBefore, fun _ => Handle.noConfusion, ?_⟩
          intro _ isTarget
          obtain rfl := Handle.slot.inj isTarget
          exact ⟨_, target ▸ copied pair paired unsharedBefore⟩
  | @inner t b holder reads ih =>
      obtain ⟨w, isCopy⟩ := ih.2.2 t rfl
      obtain ⟨new, isCopy⟩ := ofArray (reads ▸ isCopy)
      exact ⟨new, fun _ same => (Handle.array.inj same) ▸ isCopy, fun _ => Handle.noConfusion⟩

theorem Private.nested {w : Value} {h : Handle} (inner : Private shared st w h)
    (within : ∀ a, w = .array a → Private shared st v (.array a)) : Private shared st v h := by
  induction inner with
  | array isArray => exact within _ isArray
  | slot _ member unshared ih => exact .slot ih member unshared
  | inner _ reads ih => exact .inner ih reads

/-- What a value has to itself is among what its handles lead to. -/
theorem Private.among {P : Handle → Prop} {h : Handle} (own : Private shared st v h)
    (start : ∀ h ∈ v.handles, P h) (onward : ∀ h, P h → ∀ g ∈ st.holds h, P g) : P h := by
  induction own with
  | array isArray => exact start _ (isArray ▸ List.mem_cons_self)
  | slot owner member unshared ih => exact onward _ ih _ member
  | inner holder reads ih =>
      refine onward _ ih _ ?_
      rw [holds, reads]
      exact List.mem_cons_self

/-- Where nothing is shared, nothing is kept. -/
theorem Copied.unshared (copied : Copied shared st st' v v')
    (alone : ∀ s, Private (fun _ => false) st v (.slot s) → shared s = false) :
    Copied (fun _ => false) st st' v v' := by
  induction copied with
  | plain plain => exact .plain plain
  | @array a b new nextIndex pointer keys kept fresh copied ih =>
      have slot : ∀ pair ∈ elementPairs st st' a b,
          Private (fun _ => false) st (.array a) (.slot pair.1.2) := fun pair member =>
        .slot (.array rfl)
          (List.mem_map.mpr ⟨pair.1, (mem_elements_of_pair member).1, rfl⟩) rfl
      refine .array new nextIndex pointer keys (by simp) (fun pair member _ => ?_)
        fun pair member _ => ?_
      · exact fresh pair member (alone _ (slot pair member))
      · refine ih pair member (alone _ (slot pair member)) fun s inner => alone s ?_
        exact inner.nested fun a reads => .inner (slot pair member) reads

/-! Changes to what is new do not show -/

/-- Puts values at spots, one after the other. -/
def putAll (st : Store) : List (Spot × Value) → Store
  | [] => st
  | (spot, v) :: rest => (st.put spot v).putAll rest

theorem Extends.write {s : SlotId} (ext : Extends st st₁)
    (outside : ¬ (Handle.slot s).Within st.extent) (v : Value) : Extends st (st₁.write s v) where
  grows := by simpa [Extent.le_def, extent, Store.write] using ext.grows
  slots t inside := by
    have apart : t ≠ s := fun same => outside (same ▸ inside)
    rw [read_write_of_ne st₁ s t v apart, ext.slots t inside]
  arrays := ext.arrays
  objects := ext.objects
  classes := ext.classes

theorem Extends.setArray {a : ArrayId} (ext : Extends st st₁)
    (outside : ¬ (Handle.array a).Within st.extent) (data : ArrayData) :
    Extends st (st₁.setArray a data) where
  grows := by simpa [Extent.le_def, extent, Store.setArray] using ext.grows
  slots := ext.slots
  arrays b inside := by
    have apart : b ≠ a := fun same => outside (same ▸ inside)
    rw [array_setArray_of_ne st₁ a b data apart, ext.arrays b inside]
  objects := ext.objects
  classes := ext.classes

/-- A value put where nothing was leaves what was there. -/
theorem Extends.put {spot : Spot} (ext : Extends st st₁)
    (outside : spot.Among fun h => ¬ h.Within st.extent) (v : Value) :
    Extends st (st₁.put spot v) := by
  cases spot with
  | slot s => exact ext.write outside v
  | append a => exact (ext.trans (extends_newSlot st₁ v)).setArray outside _
  | element a key => exact outside.elim
  | property o name => exact outside.elim

theorem Extends.putAll (ext : Extends st st₁) (changes : List (Spot × Value))
    (outside : ∀ change ∈ changes, change.1.Among fun h => ¬ h.Within st.extent) :
    Extends st (st₁.putAll changes) := by
  induction changes generalizing st₁ with
  | nil => exact ext
  | cons change rest ih =>
      obtain ⟨here, later⟩ := List.forall_mem_cons.mp outside
      exact ih (ext.put here change.2) later

/-- A copy that is made shows what the original shows, with the same keys, next index and pointer at
every level that is copied. It leaves the store as it was, has all its arrays and unshared slots to
itself, and whatever is put there, or into what is added later, does not show through the
original. -/
theorem copy_alike_and_apart (st st' : Store) (roots : List Handle) (v copy : Value)
    (closed : st.Closed) (inside : ∀ h ∈ v.handles, h.Within st.extent)
    (done : st.copy roots v = some (copy, st')) :
    (∀ depth, st'.snapshotWithin depth copy = st.snapshotWithin depth v) ∧
      Copied (st.isShared roots) st st' v copy ∧
      Extends st st' ∧
      (∀ h, Private (st.isShared roots) st' copy h → Fresh st st' h) ∧
      ∀ changes : List (Spot × Value),
        (∀ change ∈ changes, change.1.Among fun h =>
          Private (st.isShared roots) st' copy h ∨ ¬ h.Within st'.extent) →
        Extends st (st'.putAll changes) ∧
          ∀ depth, (st'.putAll changes).snapshotWithin depth v = st.snapshotWithin depth v := by
  have copied := copy_copied closed inside done
  have ext := copy_extends done
  have new : ∀ h, Private (st.isShared roots) st' copy h → Fresh st st' h :=
    fun h own => (copied.private_new own).1
  refine ⟨copied.snapshotWithin ext closed inside, copied, ext, new, fun changes among => ?_⟩
  have outside : ∀ change ∈ changes, change.1.Among fun h => ¬ h.Within st.extent := by
    intro change member
    apply (among change member).mono
    rintro h (own | later)
    · exact (new h own).1
    · exact fun within => later (within.mono ext.grows)
  have kept := ext.putAll changes outside
  exact ⟨kept, fun depth => kept.snapshotWithin closed depth v inside⟩

/-- An array that holds a number, an array of its own, and the slot of the variable it is in. -/
def ringed : Store :=
  { slots := #[.array ⟨0⟩, .integer 7, .array ⟨1⟩, .string "deep"]
    arrays := #[⟨[(.integer 0, ⟨1⟩), (.integer 1, ⟨2⟩), (.string "self", ⟨0⟩)], 2, 1⟩,
      ⟨[(.integer 4, ⟨3⟩)], 5, 0⟩]
    objects := #[]
    classes := #[] }

theorem closed_of_contents
    (closed : ∀ h ∈ st.contents, ∀ g ∈ st.holds h, g ∈ st.contents) : st.Closed :=
  fun h within g member => mem_contents.mp (closed h (mem_contents.mpr within) g member)

/-- Its copy keeps the slot of the variable and shares nothing else, so that the array shows the same
whatever becomes of the elements of the copy. -/
theorem copy_alike_and_apart_ringed :
    ∃ copy st', ringed.copy [.slot ⟨0⟩, .array ⟨0⟩] (.array ⟨0⟩) = some (copy, st') ∧
      ringed.isShared [.slot ⟨0⟩, .array ⟨0⟩] ⟨0⟩ = true ∧
      st'.snapshot copy = ringed.snapshot (.array ⟨0⟩) ∧
      (st'.putAll [(.slot ⟨4⟩, .null), (.slot ⟨5⟩, .integer 8), (.append ⟨3⟩, copy)]).snapshot
        (.array ⟨0⟩) = ringed.snapshot (.array ⟨0⟩) := by
  have made : (ringed.copy [.slot ⟨0⟩, .array ⟨0⟩] (.array ⟨0⟩)).any (fun made =>
      made.1.handles = [.array ⟨3⟩] ∧
      (made.2.array ⟨3⟩).handles = [.slot ⟨4⟩, .slot ⟨6⟩, .slot ⟨0⟩] ∧
      (made.2.read ⟨6⟩).handles = [.array ⟨2⟩] ∧
      (made.2.array ⟨2⟩).handles = [.slot ⟨5⟩]) = true := by decide +kernel
  have shared : ∀ i < 7, ringed.isShared [.slot ⟨0⟩, .array ⟨0⟩] ⟨i⟩ = decide (i = 0) := by
    decide +kernel
  obtain ⟨⟨copy, st'⟩, done, shape⟩ := (Option.any_eq_true _ _).mp made
  obtain ⟨isArray, outer, holder, inner⟩ := of_decide_eq_true shape
  have isArray := Value.eq_of_handles isArray
  obtain ⟨alike, -, -, -, apart⟩ := copy_alike_and_apart ringed st' _ _ _
    (closed_of_contents (by decide +kernel))
    (by simp [Value.handles, Handle.Within, extent, ringed]) done
  have top : Private (ringed.isShared [.slot ⟨0⟩, .array ⟨0⟩]) st' copy (.array ⟨3⟩) :=
    .array isArray
  have below : Private (ringed.isShared [.slot ⟨0⟩, .array ⟨0⟩]) st' copy (.array ⟨2⟩) :=
    .inner (.slot top (by simp [outer]) (shared 6 (by decide))) (Value.eq_of_handles holder)
  refine ⟨copy, st', done, shared 0 (by decide), alike _, (apart _ ?_).2 _⟩
  simp only [List.forall_mem_cons, Spot.Among]
  exact ⟨.inl (.slot top (by simp [outer]) (shared 4 (by decide))),
    .inl (.slot below (by simp [inner]) (shared 5 (by decide))), .inl top, by simp⟩

end Store
end TreeScript
