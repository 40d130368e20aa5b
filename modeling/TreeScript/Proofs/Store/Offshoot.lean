import TreeScript.Proofs.Store.Filling
import TreeScript.Proofs.Store.Tally

set_option autoImplicit false

/- What grows out of a store. A store to which things are only added keeps what it had, and as long
as the new things hold nothing of the old but what its roots lead to, and no slot but one that is
shared, the same slots of it are shared as before. -/
namespace TreeScript.Store

/-- Neither the store nor the roots lead out of it. -/
structure Grounded (base : Store) (roots : List Handle) : Prop where
  closed : base.Closed
  inside : ∀ h ∈ roots, h.Within base.extent

/-- What may be met in a store that has grown out of `base`: what is new, and of the old what the
roots lead to. -/
structure Met (base : Store) (roots : List Handle) (e : Extent) (h : Handle) : Prop where
  inside : h.Within e
  reached : h.Within base.extent → base.Reachable roots h

/-- What new things may hold: of the old slots only those that are shared. -/
structure Tied (base : Store) (roots : List Handle) (e : Extent) (h : Handle) : Prop
    extends Met base roots e h where
  shared : ∀ s, h = .slot s → h.Within base.extent → base.isShared roots s = true

/-- A store that has grown out of another. -/
structure Offshoot (base : Store) (roots : List Handle) (st : Store) : Prop where
  ext : Extends base st
  closed : st.Closed
  tied : ∀ h, h.Within st.extent → ¬ h.Within base.extent → ∀ g ∈ st.holds h,
    Tied base roots st.extent g

/-- Roots of the grown store: those there were, and others that do not hold old slots. -/
structure Regrown (base : Store) (roots : List Handle) (e : Extent) (roots' : List Handle) :
    Prop where
  met : ∀ h ∈ roots', Met base roots e h
  kept : ∀ h ∈ roots, h ∈ roots'
  slots : ∀ s, (Handle.slot s).Within base.extent → roots'.count (.slot s) = roots.count (.slot s)

variable {base st st' : Store} {roots roots' : List Handle} {e e' : Extent} {g h : Handle}
  {v v' : Value}

theorem Met.mono (grows : e ≤ e') (met : Met base roots e h) : Met base roots e' h :=
  ⟨met.inside.mono grows, met.reached⟩

theorem Tied.mono (grows : e ≤ e') (tied : Tied base roots e h) : Tied base roots e' h :=
  ⟨tied.toMet.mono grows, tied.shared⟩

/-- What is new is met and may be held. -/
theorem Tied.fresh (inside : h.Within e) (new : ¬ h.Within base.extent) : Tied base roots e h :=
  ⟨⟨inside, fun old => absurd old new⟩, fun _ _ old => absurd old new⟩

theorem Met.tied_value (met : ∀ h ∈ v.handles, Met base roots e h) :
    ∀ h ∈ v.handles, Tied base roots e h := by
  intro h member
  refine ⟨met h member, ?_⟩
  rintro s rfl
  rcases Value.mem_handles member with ⟨_, _, isSlot⟩ | ⟨_, _, isSlot⟩ <;> cases isSlot

/-- Other roots between the ones there were. -/
theorem regrown_insert {first last more : List Handle}
    (grounded : Grounded base (first ++ last)) (grows : base.extent ≤ e)
    (met : ∀ h ∈ more, Met base (first ++ last) e h)
    (slots : ∀ s, Handle.slot s ∈ more → ¬ (Handle.slot s).Within base.extent) :
    Regrown base (first ++ last) e (first ++ more ++ last) where
  met h member := by
    have root : h ∈ first ++ last → Met base (first ++ last) e h := fun member =>
      ⟨(grounded.inside h member).mono grows, fun _ => .root member⟩
    simp only [List.mem_append] at member root
    rcases member with (early | extra) | late
    · exact root (.inl early)
    · exact met h extra
    · exact root (.inr late)
  kept h member := by
    simp only [List.mem_append] at member ⊢
    exact member.imp_left .inl
  slots s old := by
    have none : more.count (.slot s) = 0 := List.count_eq_zero.mpr fun member => slots s member old
    simp [List.count_append, none]

namespace Offshoot

theorem start (grounded : Grounded base roots) : Offshoot base roots base :=
  ⟨.refl base, grounded.closed, fun _ inside new => absurd inside new⟩

/-- What something that is met holds is met. -/
theorem held (off : Offshoot base roots st) (met : Met base roots st.extent h)
    (member : g ∈ st.holds h) : Met base roots st.extent g := by
  by_cases old : h.Within base.extent
  · refine ⟨off.closed h met.inside g member, fun _ => ?_⟩
    rw [off.ext.holds old] at member
    exact .held (met.reached old) member
  · exact (off.tied h met.inside old g member).toMet

/-! Sharing -/

/-- What is dead in the store is dead in what grows out of it. -/
theorem dead (grounded : Grounded base roots) (off : Offshoot base roots st)
    (regrown : Regrown base roots st.extent roots') (dead : base.Dead roots h) :
    st.Dead roots' h := by
  have alive : ∀ {h}, base.Reachable roots h → base.Dead roots h → False :=
    fun reachable dead => (reachable.alive grounded.inside grounded.closed).2 dead
  induction dead with
  | @unheld h inside unrooted holders ih =>
      have isDead : base.Dead roots h := .unheld inside unrooted holders
      refine .unheld (inside.mono off.ext.grows) (fun root => ?_) fun g within holds => ?_
      · exact alive ((regrown.met h root).reached inside) isDead
      · by_cases old : g.Within base.extent
        · rw [off.ext.holds old] at holds
          exact ih g old holds
        · exact (alive ((off.tied g within old h holds).reached inside) isDead).elim

/-- An old slot that is shared in what grows out of the store was shared in it. -/
theorem isShared_base (grounded : Grounded base roots) (off : Offshoot base roots st)
    (regrown : Regrown base roots st.extent roots') {s : SlotId}
    (old : (Handle.slot s).Within base.extent) (shared : st.isShared roots' s = true) :
    base.isShared roots s = true := by
  by_contra unshared
  have fewer : (st.tally roots').count (.slot s) ≤ (base.tally roots).count (.slot s) := by
    refine count_tally_le old (old.mono off.ext.grows) (Nat.le_of_eq (regrown.slots s old))
      fun g within alive holds => ?_
    by_cases oldHolder : g.Within base.extent
    · exact ⟨oldHolder, fun dead => alive (off.dead grounded regrown dead),
        off.ext.holds oldHolder⟩
    · exact absurd ((off.tied g within oldHolder _ holds).shared s rfl old) unshared
  simp only [isShared, decide_eq_true_eq] at shared unshared
  omega

end Offshoot

/-- What is dead in a larger store, with more roots, is dead in the smaller. -/
theorem Dead.of_extends (ext : Extends base st) (more : ∀ h ∈ roots, h ∈ roots')
    (old : h.Within base.extent) (dead : st.Dead roots' h) : base.Dead roots h := by
  induction dead with
  | @unheld h _ unrooted holders ih =>
      refine .unheld old (fun root => unrooted (more h root)) fun g within holds => ?_
      exact ih g (within.mono ext.grows) (by rwa [ext.holds within]) within

/-- A slot that is shared is shared in a larger store, with more roots. -/
theorem isShared_of_extends (ext : Extends base st) (more : ∀ h ∈ roots, h ∈ roots') {s : SlotId}
    (old : (Handle.slot s).Within base.extent)
    (count : roots.count (.slot s) ≤ roots'.count (.slot s))
    (shared : base.isShared roots s = true) : st.isShared roots' s = true := by
  have fewer : (base.tally roots).count (.slot s) ≤ (st.tally roots').count (.slot s) :=
    count_tally_le (old.mono ext.grows) old count fun g within alive _ =>
      ⟨within.mono ext.grows, fun dead => alive (dead.of_extends ext more within),
        (ext.holds within).symm⟩
  simp only [isShared, decide_eq_true_eq] at shared ⊢
  omega

/-! Steps -/

namespace Offshoot

/-- A change of what is new. -/
theorem adjust {may : Handle → Prop} (off : Offshoot base roots st)
    (new : ∀ h, may h → h.Within st.extent ∧ ¬ h.Within base.extent)
    (met : ∀ h ∈ v.handles, Met base roots st.extent h) (change : Adjusts may v st st')
    (objects : st'.objects = st.objects) : Offshoot base roots st' where
  ext := by
    have apart : ∀ h, h.Within base.extent → ¬ (may h ∨ Fresh st st' h) := by
      rintro h old (allowed | fresh)
      · exact (new h allowed).2 old
      · exact fresh.1 (old.mono off.ext.grows)
    refine ⟨off.ext.grows.trans change.grows, fun s old => ?_, fun a old => ?_,
      objects.trans off.ext.objects, change.classes.trans off.ext.classes⟩
    · rcases change.slots s with same | ⟨touched, -⟩
      · exact same.trans (off.ext.slots s old)
      · exact absurd touched (apart _ old)
    · rcases change.arrays a with same | ⟨touched, -⟩
      · exact same.trans (off.ext.arrays a old)
      · exact absurd touched (apart _ old)
  closed := closed_of_adjusts off.closed (fun h allowed => (new h allowed).1)
    (fun h member => (met h member).inside) change
  tied h inside outside g member := by
    have later : ∀ {g}, Tied base roots st.extent g → Tied base roots st'.extent g :=
      fun tied => tied.mono change.grows
    cases h with
    | slot s =>
        rw [holds] at member
        rcases change.slots s with same | ⟨-, stored | null⟩
        · rw [same] at member
          exact later (off.tied (.slot s) (inside_of_read member) outside g member)
        · exact later (Met.tied_value met g (stored ▸ member))
        · simp [null, Value.handles] at member
    | array a =>
        rw [holds] at member
        have before : g ∈ (st.array a).handles → Tied base roots st'.extent g := fun member =>
          later (off.tied (.array a) (inside_of_array member) outside g member)
        rcases change.arrays a with same | ⟨-, held⟩
        · exact before (same ▸ member)
        · rcases held g member with earlier | allowed | fresh
          · exact before earlier
          · exact later (.fresh (new g allowed).1 (new g allowed).2)
          · exact .fresh fresh.2 fun old => fresh.1 (old.mono off.ext.grows)
    | object o =>
        have size : st'.objects.size = base.objects.size := by rw [objects, off.ext.objects]
        exact absurd (Nat.lt_of_lt_of_eq inside size) outside
    | classData c =>
        have size : st'.classes.size = base.classes.size := by
          rw [change.classes, off.ext.classes]
        exact absurd (Nat.lt_of_lt_of_eq inside size) outside

theorem newSlot (off : Offshoot base roots st) (met : ∀ h ∈ v.handles, Met base roots st.extent h) :
    Offshoot base roots (st.newSlot v).2 :=
  off.adjust (fun _ => False.elim) met (adjusts_newSlot (fun _ => False) v st) rfl

theorem newArray {data : ArrayData} (off : Offshoot base roots st)
    (tied : ∀ h ∈ data.handles, Tied base roots st.extent h) :
    Offshoot base roots (st.newArray data).2 where
  ext := off.ext.trans (extends_newArray st data)
  closed := closed_newArray off.closed fun h member => (tied h member).inside
  tied h inside outside g member := by
    have grows := (extends_newArray st data).grows
    cases h with
    | array a =>
        rw [holds, array_newArray] at member
        split at member
        · exact (tied g member).mono grows
        · exact (off.tied (.array a) (inside_of_array member) outside g member).mono grows
    | slot s => exact (off.tied (.slot s) inside outside g member).mono grows
    | object o => exact (off.tied (.object o) inside outside g member).mono grows
    | classData c => exact (off.tied (.classData c) inside outside g member).mono grows

/-- A value is put in an array that is new, where no slot is yet or a slot that is new. -/
theorem put {a : ArrayId} {key : Option Key} (off : Offshoot base roots st)
    (there : (Handle.array a).Within st.extent) (new : ¬ (Handle.array a).Within base.extent)
    (found : ∀ k ∈ key, ∀ s ∈ (st.array a).slot? k, ¬ (Handle.slot s).Within base.extent)
    (met : ∀ h ∈ v.handles, Met base roots st.extent h) :
    Offshoot base roots (st.put (key.elim (.append a) (.element a)) v) := by
  have added : ∀ k, Offshoot base roots ((st.newSlot v).2.bindElement a k (st.newSlot v).1) := by
    intro k
    have change : Adjusts (· = .array a) v st
        ((st.newSlot v).2.bindElement a k (st.newSlot v).1) :=
      .bindNew v (adjusts_bindElement _ _ k (.inl rfl) (.inr (fresh_newSlot st v))) fun _ => rfl
    refine off.adjust ?_ met change rfl
    rintro _ rfl
    exact ⟨there, new⟩
  cases key with
  | none => exact added _
  | some k =>
      simp only [Option.elim, Store.put, insertElement]
      split
      · next s isSlot =>
          have inside := off.closed (.array a) there _ (mem_handles_of_slot? isSlot)
          have change : Adjusts (· = .slot s) v st (st.write s v) := adjusts_write st v rfl
          refine off.adjust ?_ met change rfl
          rintro _ rfl
          exact ⟨inside, found k rfl s isSlot⟩
      · exact added k

/-! Copies -/

theorem copyLaws (grounded : Grounded base roots) (off : Offshoot base roots st)
    (regrown : Regrown base roots st.extent roots') :
    CopyLaws (fun (_ : Unit) st => Offshoot base roots st) (fun _ _ => ()) (Tied base roots)
      (Met base roots st.extent) (st.isShared roots') st where
  mono := .mono
  plain _ off := off
  newSlot off tied := off.newSlot fun h member => (tied h member).toMet
  newArray off tied := off.newArray tied
  fresh off fresh := .fresh fresh.2 fun old => fresh.1 (old.mono off.ext.grows)
  object met := ⟨met, by simp⟩
  inside met := met.inside
  slotInside met member := (off.held met member).inside
  kept met member shared := by
    refine ⟨off.held met member, ?_⟩
    rintro _ ⟨⟩ old
    exact off.isShared_base grounded regrown old shared
  copied met member _ h inner := off.held (off.held met member) inner

theorem copy (grounded : Grounded base roots) (off : Offshoot base roots st)
    (regrown : Regrown base roots st.extent roots')
    (met : ∀ h ∈ v.handles, Met base roots st.extent h)
    (done : st.copy roots' v = some (v', st')) :
    Offshoot base roots st' ∧ ∀ h ∈ v'.handles, Met base roots st'.extent h := by
  obtain ⟨off', tied⟩ := (off.copyLaws grounded regrown).copy (i := ()) off met done
  exact ⟨off', fun h member => (tied h member).toMet⟩

end Offshoot

end TreeScript.Store
