import TreeScript.Proofs.Discipline.Operators
import TreeScript.Proofs.Reading.Twins

set_option autoImplicit false

/- The steps of an evaluation that only reads, and of the same evaluation on a store to which more
has been added. Both leave the machine but for its store, the stores stay twins, and the results are
the same but for the numbers. -/
namespace TreeScript

open Store (Extends Closed Grounded Met Tied Offshoot Regrown)

/-- What an entry of an array literal holds: its key, if it has one, and its value. -/
def itemHandles (item : Option Value × Value) : List Handle :=
  (item.1.map Value.handles).getD [] ++ item.2.handles

namespace Shift

variable (g : Shift)

def item (item : Option Value × Value) : Option Value × Value :=
  (item.1.map g.value, g.value item.2)

theorem handles_item (item : Option Value × Value) :
    itemHandles (g.item item) = (itemHandles item).map g.handle := by
  obtain ⟨key, v⟩ := item
  cases key <;> simp [itemHandles, Shift.item]

theorem handles_items (items : List (Option Value × Value)) :
    (items.map g.item).flatMap itemHandles = (items.flatMap itemHandles).map g.handle := by
  simp only [List.flatMap_map, List.map_flatMap, handles_item]

theorem isCompound (v : Value) : (g.value v).isCompound = v.isCompound := by cases v <;> rfl

theorem typeTag (v : Value) : (g.value v).typeTag = v.typeTag := by cases v <;> rfl

theorem ofValue (v : Value) : Key.ofValue (g.value v) = Key.ofValue v := by cases v <;> rfl

end Shift

/-- An evaluation and its repetition: the machine on which the first begins and what is held then,
and the store with which the second begins. -/
structure Repetition where
  machine : Machine
  held : List Handle
  later : Store

namespace Repetition

variable (σ : Repetition)

def base : Store := σ.machine.store

def roots : List Handle := σ.machine.roots ++ σ.held

/-- From the numbers of the first evaluation to those of the second. -/
def shift : Shift := .between σ.base σ.later

/-- The machine with another store. -/
def withStore (st : Store) : Machine := { σ.machine with store := st }

/-- The stores of both evaluations at the same point. -/
abbrev Stores (st st' : Store) : Prop := Twins σ.base σ.roots σ.later st st'

/-- What an evaluation may have in hand: what it may meet, and no old slots. -/
structure Carried (e : Extent) (h : Handle) : Prop extends Met σ.base σ.roots e h where
  slot : ∀ s, h = .slot s → ¬ h.Within σ.base.extent

/-- What the evaluations hold: what was held at the start, and after that the same. -/
inductive Held (e : Extent) : List Handle → List Handle → Prop
  | start : Held e σ.held σ.held
  | more {h : Handle} {H H' : List Handle} (carried : σ.Carried e h) (rest : Held e H H') :
      Held e (h :: H) (σ.shift.handle h :: H')

variable {σ} {e e' : Extent} {h : Handle} {H H' : List Handle} {v w : Value} {st st' : Store}

theorem Carried.mono (grows : e ≤ e') (carried : σ.Carried e h) : σ.Carried e' h :=
  ⟨carried.toMet.mono grows, carried.slot⟩

/-- A value is no slot. -/
theorem carried_value (met : ∀ h ∈ v.handles, Met σ.base σ.roots e h) :
    ∀ h ∈ v.handles, σ.Carried e h := by
  intro h member
  refine ⟨met h member, ?_⟩
  rintro s rfl
  rcases Value.mem_handles member with ⟨_, _, isSlot⟩ | ⟨_, _, isSlot⟩ <;> cases isSlot

/-- What is new may be carried. -/
theorem Carried.fresh (inside : h.Within e) (new : ¬ h.Within σ.base.extent) : σ.Carried e h :=
  ⟨⟨inside, fun old => absurd old new⟩, fun _ _ => new⟩

namespace Held

theorem mono (grows : e ≤ e') (held : σ.Held e H H') : σ.Held e' H H' := by
  induction held with
  | start => exact .start
  | more carried _ ih => exact .more (carried.mono grows) ih

theorem append {more more' : List Handle} (held : σ.Held e H H')
    (carried : ∀ h ∈ more, σ.Carried e h) (shifted : more' = more.map σ.shift.handle) :
    σ.Held e (more ++ H) (more' ++ H') := by
  subst shifted
  induction more with
  | nil => exact held
  | cons h rest ih =>
      obtain ⟨first, later⟩ := List.forall_mem_cons.mp carried
      exact .more first (ih later)

theorem value (held : σ.Held e H H') (carried : ∀ h ∈ v.handles, σ.Carried e h) :
    σ.Held e (v.handles ++ H) ((σ.shift.value v).handles ++ H') :=
  held.append carried (Shift.handles_value _ v)

/-- What is held comes before what was held at the start. -/
theorem split (held : σ.Held e H H') :
    ∃ more, H = more ++ σ.held ∧ H' = more.map σ.shift.handle ++ σ.held ∧
      ∀ h ∈ more, σ.Carried e h := by
  induction held with
  | start => exact ⟨[], rfl, rfl, by simp⟩
  | @more h H H' carried _ ih =>
      obtain ⟨more, rfl, rfl, others⟩ := ih
      exact ⟨h :: more, rfl, rfl, List.forall_mem_cons.mpr ⟨carried, others⟩⟩

/-- The roots of a copy that is made while so much is held. -/
theorem regrown (stores : σ.Stores st st') (held : σ.Held st.extent H H')
    (carried : ∀ h ∈ v.handles, σ.Carried st.extent h) :
    Regrown σ.base σ.roots st.extent (σ.machine.roots ++ v.handles ++ H) ∧
      (σ.machine.roots ++ v.handles ++ H).map σ.shift.handle =
        σ.machine.roots ++ (σ.shift.value v).handles ++ H' := by
  obtain ⟨more, rfl, rfl, others⟩ := held.split
  have all : ∀ h ∈ v.handles ++ more, σ.Carried st.extent h := by
    intro h member
    exact (List.mem_append.mp member).elim (carried h) (others h)
  constructor
  · have grown := Store.regrown_insert stores.grounded stores.first.ext.grows
      (fun h member => (all h member).toMet) fun s member => (all _ member).slot s rfl
    simpa only [roots, List.append_assoc] using grown
  · have still : ∀ l : List Handle, (∀ h ∈ l, h.Within σ.base.extent) →
        l.map σ.shift.handle = l := fun l inside =>
      (List.map_congr_left fun h member => Shift.handle_of_within (inside h member)).trans
        (List.map_id' l)
    have first := still σ.machine.roots fun h member =>
      stores.grounded.inside h (List.mem_append_left _ member)
    have last := still σ.held fun h member =>
      stores.grounded.inside h (List.mem_append_right _ member)
    simp [first, last]

end Held

/-! Computations -/

/-- Both runs end in the same way. A result of the second is what `f` makes of the first one, of
which `known` holds. -/
inductive EndAlike {α : Type} (σ : Repetition) (st : Store) (f : α → α) (known : Store → α → Prop) :
    EStateM.Result Fault Machine α → EStateM.Result Fault Machine α → Prop
  | ok {a : α} {st₁ st₁' : Store} (stores : σ.Stores st₁ st₁') (grows : st.extent ≤ st₁.extent)
      (holds : known st₁ a) :
      EndAlike σ st f known (.ok a (σ.withStore st₁)) (.ok (f a) (σ.withStore st₁'))
  | error {st₁ st₁' : Store} (fault : Fault) (stores : σ.Stores st₁ st₁') :
      EndAlike σ st f known (.error fault (σ.withStore st₁)) (.error fault (σ.withStore st₁'))

/-- The store that the first run leaves has grown out of the one it began with. -/
theorem EndAlike.offshoot {α : Type} {f : α → α} {known : Store → α → Prop}
    {ended ended' : EStateM.Result Fault Machine α} (alike : σ.EndAlike st f known ended ended') :
    ∃ st₁, Run.left ended = σ.withStore st₁ ∧ Offshoot σ.base σ.roots st₁ := by
  cases alike with
  | ok stores _ _ => exact ⟨_, rfl, stores.first⟩
  | error _ stores => exact ⟨_, rfl, stores.first⟩

/-- From stores at the same point, both computations end in the same way. -/
def Alike {α : Type} (σ : Repetition) (st st' : Store) (f : α → α) (known : Store → α → Prop)
    (c c' : Run α) : Prop :=
  σ.EndAlike st f known (c.run (σ.withStore st)) (c'.run (σ.withStore st'))

/-- What is known of a value: nothing in it is outside of the store. -/
def KnownValue (σ : Repetition) (st : Store) (v : Value) : Prop :=
  ∀ h ∈ v.handles, σ.Carried st.extent h

/-- Values that are the same but for the numbers. -/
abbrev AlikeValue (σ : Repetition) (st st' : Store) (c c' : Run Value) : Prop :=
  σ.Alike st st' σ.shift.value σ.KnownValue c c'

/-- Results without numbers are the same. -/
abbrev AlikePlain {α : Type} (σ : Repetition) (st st' : Store) (c c' : Run α) : Prop :=
  σ.Alike st st' id (fun _ _ => True) c c'

namespace Alike

variable {α β : Type} {f : α → α} {f₁ : β → β} {known : Store → α → Prop}
  {known₁ : Store → β → Prop} {c c' : Run α}

theorem pure {a : α} (stores : σ.Stores st st') (holds : known st a) :
    σ.Alike st st' f known (Pure.pure a) (Pure.pure (f a)) :=
  .ok stores (le_refl _) holds

theorem given {a a' : α} (stores : σ.Stores st st') (same : f a = a') (holds : known st a) :
    σ.Alike st st' f known (Pure.pure a) (Pure.pure a') := same ▸ .pure stores holds

theorem fault (stores : σ.Stores st st') (fault : Fault) :
    σ.Alike st st' f known (.fault fault) (.fault fault) := .error fault stores

theorem fail (stores : σ.Stores st st') (e : ScriptError) :
    σ.Alike st st' f known (Run.fail e) (Run.fail e) := .fault stores _

theorem note (stores : σ.Stores st st') (event : Event) :
    σ.AlikePlain st st' (.note event) (.note event) := .ok stores (le_refl _) trivial

theorem bind {next next' : α → Run β} (first : σ.Alike st st' f known c c')
    (later : ∀ st₁ st₁' a, σ.Stores st₁ st₁' → st.extent ≤ st₁.extent → known st₁ a →
      σ.Alike st₁ st₁' f₁ known₁ (next a) (next' (f a))) :
    σ.Alike st st' f₁ known₁ (c >>= next) (c' >>= next') := by
  unfold Alike at first ⊢
  generalize ran : c.run (σ.withStore st) = ended, ran' : c'.run (σ.withStore st') = ended' at first
  cases first with
  | error fault stores =>
      rw [Run.run_bind_error ran, Run.run_bind_error ran']
      exact .error fault stores
  | @ok a st₁ st₁' stores grows holds =>
      rw [Run.run_bind ran, Run.run_bind ran']
      have ended := later st₁ st₁' a stores grows holds
      unfold Alike at ended
      generalize (next a).run _ = result, (next' (f a)).run _ = result' at ended
      cases ended with
      | ok stores grows' holds => exact .ok stores (grows.trans grows') holds
      | error fault stores => exact .error fault stores

/-- The stores are changed. -/
theorem update {change change' : Store → α × Store}
    (stores : σ.Stores (change st).2 (change' st').2) (grows : st.extent ≤ (change st).2.extent)
    (same : f (change st).1 = (change' st').1) (holds : known (change st).2 (change st).1) :
    σ.Alike st st' f known (Run.update change) (Run.update change') := by
  have ended : σ.EndAlike st f known (.ok (change st).1 (σ.withStore (change st).2))
      (.ok (f (change st).1) (σ.withStore (change' st').2)) := .ok stores grows holds
  rw [same] at ended
  exact ended

/-- The stores are looked at. -/
theorem inspect {γ : Type} {look look' : Store → γ} {next next' : γ → Run α}
    (later : σ.Alike st st' f known (next (look st)) (next' (look' st'))) :
    σ.Alike st st' f known (Run.inspect look >>= next) (Run.inspect look' >>= next') := later

/-- What is looked up is the result. -/
theorem look {look look' : Store → α} (stores : σ.Stores st st') (same : f (look st) = look' st')
    (holds : known st (look st)) :
    σ.Alike st st' f known (Run.inspect look) (Run.inspect look') := .given stores same holds

theorem imp {known' : Store → α → Prop} (alike : σ.Alike st st' f known c c')
    (weaker : ∀ st₁ a, known st₁ a → known' st₁ a) : σ.Alike st st' f known' c c' := by
  unfold Alike at alike ⊢
  generalize c.run _ = ended, c'.run _ = ended' at alike
  cases alike with
  | ok stores grows holds => exact .ok stores grows (weaker _ _ holds)
  | error fault stores => exact .error fault stores

theorem ending (stores : σ.Stores st st') (answer : Option α) :
    σ.AlikePlain st st' (Run.ending answer) (Run.ending answer) := by
  cases answer with
  | none => exact .fault stores _
  | some a => exact .pure stores trivial

/-- A value without numbers. -/
theorem plain (stores : σ.Stores st st') (nothing : v.handles = []) :
    σ.AlikeValue st st' (Pure.pure v) (Pure.pure v) :=
  .given stores (Shift.value_eq_of_plain nothing) (by simp [KnownValue, nothing])

end Alike

/-! The store -/

theorem shifted (stores : σ.Stores st st') : Shifted σ.shift st st' := stores.shifted

theorem KnownValue.mono {st₁ : Store} (grows : st.extent ≤ st₁.extent) (known : σ.KnownValue st v) :
    σ.KnownValue st₁ v := fun h member => (known h member).mono grows

theorem KnownValue.of_slot {s : SlotId} (stores : σ.Stores st st')
    (met : Met σ.base σ.roots st.extent (.slot s)) : σ.KnownValue st (st.read s) :=
  carried_value fun _ member => stores.first.held met member

theorem newSlot_alike (stores : σ.Stores st st') :
    σ.Alike st st' σ.shift.slot (fun st₁ s => σ.Carried st₁.extent (.slot s))
      (Run.update (·.newSlot .null)) (Run.update (·.newSlot .null)) := by
  have none : ∀ h ∈ Value.null.handles, Met σ.base σ.roots st.extent h := by simp [Value.handles]
  obtain ⟨number, stores'⟩ := stores.newSlot none
  obtain ⟨outside, inside⟩ := Store.fresh_newSlot st .null
  have carried : σ.Carried (st.newSlot .null).2.extent (.slot (st.newSlot .null).1) :=
    .fresh inside fun old => outside (old.mono stores.first.ext.grows)
  exact .update stores' (Store.extent_newSlot st .null) number.symm carried

/-- What is known of a copy. -/
structure KnownCopy (σ : Repetition) (st st₁ : Store) (copy : Value) : Prop where
  ext : Extends st st₁
  known : σ.KnownValue st₁ copy
  new : ∀ a, copy = .array a → ¬ (Handle.array a).Within σ.base.extent

theorem copyValue_alike (stores : σ.Stores st st') (held : σ.Held st.extent H H')
    (known : σ.KnownValue st v) :
    σ.Alike st st' σ.shift.value (σ.KnownCopy st) (copyValue H v)
      (copyValue H' (σ.shift.value v)) := by
  obtain ⟨regrown, sameRoots⟩ := held.regrown stores known
  have copied := stores.copy regrown fun h member => (known h member).toMet
  have isRoots : (σ.machine.roots ++ v.handles ++ H).map (Shift.between σ.base σ.later).handle =
      σ.machine.roots ++ (σ.shift.value v).handles ++ H' := sameRoots
  rw [isRoots] at copied
  unfold Alike
  generalize made : st.copy (σ.machine.roots ++ v.handles ++ H) v = first at copied
  generalize made' : st'.copy (σ.machine.roots ++ (σ.shift.value v).handles ++ H')
    (Shift.value (Shift.between σ.base σ.later) v) = second at copied
  cases copied with
  | none =>
      have ran : (copyValue H v).run (σ.withStore st) = .error .endless (σ.withStore st) :=
        Run.run_copyValue_none made
      have ran' : (copyValue H' (σ.shift.value v)).run (σ.withStore st') =
          .error .endless (σ.withStore st') := Run.run_copyValue_none made'
      rw [ran, ran']
      exact .error _ stores
  | @some r r' results =>
      obtain ⟨isCopy, stores', ext, met⟩ := results
      have ran : (copyValue H v).run (σ.withStore st) = .ok r.1 (σ.withStore r.2) :=
        Run.run_copyValue made
      have ran' : (copyValue H' (σ.shift.value v)).run (σ.withStore st') =
          .ok r'.1 (σ.withStore r'.2) := Run.run_copyValue made'
      rw [ran, ran', isCopy]
      refine .ok stores' ext.grows ⟨ext, carried_value met, fun a isArray => ?_⟩
      have copied := Store.copy_copied stores.first.closed
        (fun h member => (known h member).inside) made
      rw [isArray] at copied
      cases copied with
      | plain plain => exact absurd rfl (plain a)
      | array new _ _ _ _ _ _ => exact fun old => new.1 (old.mono stores.first.ext.grows)

/-! Arrays -/

/-- An array that the evaluation has made itself, with slots that it has made. -/
structure Own (σ : Repetition) (st : Store) (a : ArrayId) : Prop where
  inside : (Handle.array a).Within st.extent
  new : ¬ (Handle.array a).Within σ.base.extent
  slots : ∀ h ∈ (st.array a).handles, ¬ h.Within σ.base.extent

variable {a : ArrayId}

theorem Own.extend {st₁ : Store} (own : σ.Own st a) (ext : Extends st st₁) : σ.Own st₁ a :=
  ⟨own.inside.mono ext.grows, own.new, ext.arrays a own.inside ▸ own.slots⟩

theorem Own.carried (own : σ.Own st a) : σ.Carried st.extent (.array a) :=
  .fresh own.inside own.new

/-- A spot in an array, by its key if it has one. -/
abbrev spotIn (a : ArrayId) (key : Option Key) : Spot := key.elim (.append a) (.element a)

theorem Own.put {key : Option Key} (stores : σ.Stores st st') (own : σ.Own st a) (v : Value) :
    σ.Own (st.put (spotIn a key) v) a := by
  have isArray : (spotIn a key).handle = .array a := by cases key <;> rfl
  have change : Store.Adjusts (fun h => ¬ h.Within σ.base.extent) v st (st.put (spotIn a key) v) :=
    Store.adjusts_put st _ v (isArray ▸ own.new) fun s member => by
      rw [isArray] at member
      exact own.slots _ member
  refine ⟨own.inside.mono change.grows, own.new, ?_⟩
  rcases change.arrays a with same | ⟨-, held⟩
  · exact same ▸ own.slots
  · intro h member
    rcases held h member with earlier | new | fresh
    · exact own.slots h earlier
    · exact new
    · exact fun old => fresh.1 (old.mono stores.first.ext.grows)

/-- A value is put in a new array, where no slot is yet or one that is new. -/
theorem put_alike {key : Option Key} (stores : σ.Stores st st')
    (there : (Handle.array a).Within st.extent) (new : ¬ (Handle.array a).Within σ.base.extent)
    (found : ∀ k ∈ key, ∀ s ∈ (st.array a).slot? k, ¬ (Handle.slot s).Within σ.base.extent)
    (known : σ.KnownValue st v) :
    σ.Alike st st' id (fun st₁ _ => st₁ = st.put (spotIn a key) v)
      (Run.alter (·.put (spotIn a key) v))
      (Run.alter (·.put (spotIn (σ.shift.array a) key) (σ.shift.value v))) := by
  have change : Store.Adjusts (fun _ => True) v st (st.put (spotIn a key) v) :=
    Store.adjusts_put st _ v trivial fun _ _ => trivial
  exact .ok (stores.put there new found fun h member => (known h member).toMet) change.grows rfl

theorem newArray_alike (stores : σ.Stores st st') :
    σ.Alike st st' σ.shift.array σ.Own (Run.update (·.newArray .empty))
      (Run.update (·.newArray .empty)) := by
  have none : ∀ h ∈ ArrayData.empty.handles, Tied σ.base σ.roots st.extent h := by
    simp [ArrayData.empty, ArrayData.handles]
  obtain ⟨number, stores'⟩ := stores.newArray none
  obtain ⟨outside, inside⟩ := Store.fresh_newArray st .empty
  have own : σ.Own (st.newArray .empty).2 (st.newArray .empty).1 := by
    refine ⟨inside, fun old => outside (old.mono stores.first.ext.grows), ?_⟩
    simp [ArrayData.empty, ArrayData.handles]
  exact .update stores' (Store.extends_newArray st .empty).grows number.symm own

theorem fillArray_alike (stores : σ.Stores st st') (held : σ.Held st.extent H H')
    (own : σ.Own st a) (items : List (Option Value × Value))
    (carried : ∀ h ∈ items.flatMap itemHandles, σ.Carried st.extent h) :
    σ.AlikePlain st st' (fillArray H a items)
      (fillArray H' (σ.shift.array a) (items.map σ.shift.item)) := by
  induction items generalizing st st' with
  | nil => exact .pure stores trivial
  | cons item rest ih =>
      obtain ⟨key, v⟩ := item
      simp only [List.flatMap_cons, List.forall_mem_append] at carried
      obtain ⟨here, later⟩ := carried
      have known : σ.KnownValue st v := fun h member => here h (List.mem_append_right _ member)
      have pending := held.append (List.forall_mem_cons.mpr ⟨own.carried, later⟩)
        (congrArg (Handle.array (σ.shift.array a) :: ·) (σ.shift.handles_items rest))
      -- the entry goes to the same spot in both, or neither has a key
      have filled : ∀ k : Option Key, σ.AlikePlain st st'
          (do
            let copy ← copyValue (Handle.array a :: rest.flatMap itemHandles ++ H) v
            Run.alter (·.put (spotIn a k) copy)
            fillArray H a rest)
          (do
            let copy ← copyValue (Handle.array (σ.shift.array a) ::
              (rest.map σ.shift.item).flatMap itemHandles ++ H') (σ.shift.value v)
            Run.alter (·.put (spotIn (σ.shift.array a) k) copy)
            fillArray H' (σ.shift.array a) (rest.map σ.shift.item)) := by
        intro k
        refine .bind (copyValue_alike stores pending known)
          fun st₁ st₁' copy stores₁ grows made => ?_
        have own₁ := own.extend made.ext
        refine .bind (put_alike stores₁ own₁.inside own₁.new
          (fun _ _ s found => own₁.slots _ (Store.mem_handles_of_slot? found)) made.known)
          fun st₂ st₂' _ stores₂ grows' isPut => ?_
        subst isPut
        have grown := grows.trans grows'
        exact ih stores₂ (held.mono grown) (own₁.put stores₁ copy) fun h member =>
          (later h member).mono grown
      cases key with
      | none => exact filled none
      | some k =>
          simp only [fillArray, List.map_cons, Shift.item, Option.map_some, entrySpot,
            σ.shift.ofValue]
          cases Key.ofValue k with
          | none => exact .error _ stores
          | some key => exact filled (some key)

theorem arrayOf_alike (stores : σ.Stores st st') (held : σ.Held st.extent H H')
    (items : List (Option Value × Value))
    (carried : ∀ h ∈ items.flatMap itemHandles, σ.Carried st.extent h) :
    σ.AlikeValue st st' (arrayOf H items) (arrayOf H' (items.map σ.shift.item)) := by
  refine .bind (newArray_alike stores) fun st₁ st₁' a stores₁ grows own => ?_
  refine .bind (fillArray_alike stores₁ (held.mono grows) own items fun h member =>
    (carried h member).mono grows) fun st₂ st₂' _ stores₂ grows' _ => ?_
  exact .pure stores₂ (List.forall_mem_singleton.mpr (own.carried.mono grows'))

/-! Unions -/

theorem addIfMissing_alike {s : SlotId} (stores : σ.Stores st st') (held : σ.Held st.extent H H')
    (there : (Handle.array a).Within st.extent) (new : ¬ (Handle.array a).Within σ.base.extent)
    (key : Key) (met : Met σ.base σ.roots st.extent (.slot s)) :
    σ.AlikePlain st st' (addIfMissing H a key s)
      (addIfMissing H' (σ.shift.array a) key (σ.shift.slot s)) := by
  refine .inspect ?_
  rw [(shifted stores).array, Shift.slot?_data, Option.isNone_map]
  split
  · next missing =>
      refine .inspect ?_
      rw [(shifted stores).read]
      have held' := Held.more (.fresh there new) held
      refine .bind (copyValue_alike stores held' (.of_slot stores met))
        fun st₁ st₁' copy stores₁ grows made => ?_
      -- the union may have slots that are old, the shared ones; but none is under this key
      have absent : ∀ k ∈ some key, ∀ s ∈ (st₁.array a).slot? k,
          ¬ (Handle.slot s).Within σ.base.extent := by
        rintro _ ⟨⟩ s found
        rw [made.ext.arrays a there, Option.isNone_iff_eq_none.mp missing] at found
        cases found
      exact (put_alike stores₁ (there.mono grows) new absent made.known).imp fun _ _ _ => trivial
  · exact .pure stores trivial

theorem addMissing_alike (stores : σ.Stores st st') (held : σ.Held st.extent H H')
    (there : (Handle.array a).Within st.extent) (new : ¬ (Handle.array a).Within σ.base.extent)
    (entries : List (Key × SlotId))
    (met : ∀ entry ∈ entries, Met σ.base σ.roots st.extent (.slot entry.2)) :
    σ.AlikePlain st st' (addMissing H a entries)
      (addMissing H' (σ.shift.array a) (σ.shift.entries entries)) := by
  induction entries generalizing st st' with
  | nil => exact .pure stores trivial
  | cons entry rest ih =>
      obtain ⟨here, later⟩ := List.forall_mem_cons.mp met
      refine .bind (addIfMissing_alike stores held there new entry.1 here)
        fun st₁ st₁' _ stores₁ grows _ => ?_
      exact ih stores₁ (held.mono grows) (there.mono grows) fun entry member =>
        (later entry member).mono grows

theorem uniteArrays_alike {b : ArrayId} (stores : σ.Stores st st') (held : σ.Held st.extent H H')
    (left : σ.KnownValue st (.array a)) (right : σ.KnownValue st (.array b)) :
    σ.AlikeValue st st' (uniteArrays H a b)
      (uniteArrays H' (σ.shift.array a) (σ.shift.array b)) := by
  have second := right _ List.mem_cons_self
  have held' := Held.more (left _ List.mem_cons_self) (.more second held)
  refine .bind (copyValue_alike stores held' left) fun st₁ st₁' copy stores₁ grows made => ?_
  cases copy with
  | array u =>
      have there := (made.known _ List.mem_cons_self).inside
      refine .inspect ?_
      rw [(shifted stores₁).array]
      refine .bind (addMissing_alike stores₁ (held'.mono grows) there (made.new u rfl) _
        fun entry member => ?_) fun st₂ st₂' _ stores₂ grows' _ => ?_
      · exact stores₁.first.held (second.toMet.mono grows)
          (List.mem_map.mpr ⟨entry, member, rfl⟩)
      · exact .pure stores₂ (made.known.mono grows')
  | null | boolean x | integer n | float x | string text | object o =>
      exact .pure stores₁ made.known

/-! Operators -/

theorem requireScalars_alike (stores : σ.Stores st st') (operator : BinaryOperator) (v w : Value) :
    σ.AlikePlain st st' (requireScalars operator v w)
      (requireScalars operator (σ.shift.value v) (σ.shift.value w)) := by
  simp only [requireScalars, Shift.isCompound, Shift.typeTag]
  split
  · exact .fail stores _
  · exact .pure stores trivial

theorem arithmetic_alike (stores : σ.Stores st st') (operator : BinaryOperator)
    (f : Number → Number → Option Number) (v w : Value) :
    σ.AlikeValue st st' (arithmetic operator f v w)
      (arithmetic operator f (σ.shift.value v) (σ.shift.value w)) := by
  refine .bind (requireScalars_alike stores operator v w) fun st₁ st₁' _ stores₁ _ _ => ?_
  refine .inspect ?_
  simp only [id_eq, (shifted stores₁).toNumber]
  split
  · next n _ => exact .plain stores₁ (Discipline.handles_toValue n)
  · exact .fail stores₁ _

theorem shift_alike (stores : σ.Stores st st') (operator : BinaryOperator)
    (f : Int64 → Nat → Int64) (v w : Value) :
    σ.AlikeValue st st' (TreeScript.shift operator f v w)
      (TreeScript.shift operator f (σ.shift.value v) (σ.shift.value w)) := by
  refine .bind (requireScalars_alike stores operator v w) fun st₁ st₁' _ stores₁ _ _ => ?_
  refine .inspect ?_
  simp only [id_eq, (shifted stores₁).toInteger]
  split
  · exact .fail stores₁ _
  · exact .plain stores₁ rfl

/-- What a comparison that may not end gives. -/
theorem decided_alike {γ : Type} (stores : σ.Stores st st') {compare compare' : Store → Option γ}
    (result : γ → Value) (same : compare' st' = compare st)
    (plain : ∀ answer, (result answer).handles = []) :
    σ.AlikeValue st st' (do pure (result (← Run.ending (← Run.inspect compare))))
      (do pure (result (← Run.ending (← Run.inspect compare')))) := by
  refine .inspect ?_
  rw [same]
  exact .bind (.ending stores _) fun _ _ answer stores₁ _ _ => .plain stores₁ (plain answer)

theorem applyBinary_alike (stores : σ.Stores st st') (held : σ.Held st.extent H H')
    (operator : BinaryOperator) (left : σ.KnownValue st v) (right : σ.KnownValue st w) :
    σ.AlikeValue st st' (applyBinary H operator v w)
      (applyBinary H' operator (σ.shift.value v) (σ.shift.value w)) := by
  have sum := arithmetic_alike stores .add (fun m n => some (m.add n)) v w
  cases operator with
  | add =>
      cases v with
      | array a =>
          cases w with
          | array b => exact uniteArrays_alike stores held left right
          | null | boolean x | integer n | float x | string text | object o => exact sum
      | null | boolean x | integer n | float x | string text | object o => exact sum
  | subtract => exact arithmetic_alike stores .subtract (fun m n => some (m.subtract n)) v w
  | multiply => exact arithmetic_alike stores .multiply (fun m n => some (m.multiply n)) v w
  | divide => exact arithmetic_alike stores .divide Number.divide v w
  | modulo =>
      refine .bind (requireScalars_alike stores .modulo v w) fun st₁ st₁' _ stores₁ _ _ => ?_
      refine .inspect ?_
      simp only [id_eq, (shifted stores₁).toInteger]
      split
      · exact .fail stores₁ _
      · exact .plain stores₁ rfl
  | concat =>
      refine .inspect ?_
      simp only [id_eq, (shifted stores).toText]
      exact .plain stores rfl
  | shiftLeft | shiftRight => exact shift_alike stores _ _ v w
  | equal => exact decided_alike stores _ ((shifted stores).looselyEqual v w) fun _ => rfl
  | notEqual =>
      exact decided_alike stores (fun b => .boolean !b) ((shifted stores).looselyEqual v w)
        fun _ => rfl
  | identical => exact decided_alike stores _ ((shifted stores).identical v w) fun _ => rfl
  | notIdentical =>
      exact decided_alike stores (fun b => .boolean !b) ((shifted stores).identical v w)
        fun _ => rfl
  | less | lessOrEqual | greater | greaterOrEqual =>
      exact decided_alike stores _ ((shifted stores).compare v w) fun _ => rfl

theorem applyUnary_alike (stores : σ.Stores st st') (operator : UnaryOperator)
    (known : σ.KnownValue st v) :
    σ.AlikeValue st st' (applyUnary operator v) (applyUnary operator (σ.shift.value v)) := by
  have stepped : ∀ f : Value → Value, (∀ v, v.isCompound = true → f v = v) →
      (∀ v, (f v).handles = v.handles) →
      σ.AlikeValue st st' (pure (f v)) (pure (f (σ.shift.value v))) := by
    intro f same handles
    by_cases compound : v.isCompound = true
    · rw [same v compound, same _ ((σ.shift.isCompound v).trans compound)]
      exact .pure stores known
    · have nothing : v.handles = [] := by cases v <;> simp_all [Value.isCompound, Value.handles]
      rw [Shift.value_eq_of_plain nothing]
      exact .plain stores ((handles v).trans nothing)
  cases operator with
  | plus =>
      exact arithmetic_alike stores .multiply (fun m n => some (m.multiply n)) v (.integer 1)
  | minus =>
      exact arithmetic_alike stores .multiply (fun m n => some (m.multiply n)) v (.integer (-1))
  | complement =>
      cases v with
      | integer n | float x => exact .plain stores rfl
      | null | boolean b | string text | array a | object o => exact .fail stores _
  | not =>
      refine .inspect ?_
      rw [(shifted stores).toBoolean]
      exact .plain stores rfl
  | preIncrement | postIncrement =>
      refine stepped Value.increment (fun v compound => ?_) Discipline.handles_increment
      cases v <;> first | rfl | cases compound
  | preDecrement | postDecrement =>
      refine stepped Value.decrement (fun v compound => ?_) Discipline.handles_decrement
      cases v <;> first | rfl | cases compound

end Repetition
end TreeScript
