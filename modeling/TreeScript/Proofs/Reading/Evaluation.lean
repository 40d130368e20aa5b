import TreeScript.Evaluate
import TreeScript.Proofs.Compile.Reading
import TreeScript.Proofs.Reading.Steps

set_option autoImplicit false

/- Code that only reads is evaluated alike, on a store and on what has grown out of it. The
evaluation adds slots and arrays of its own, and fills no others. -/
namespace TreeScript

open Code (Expr Place Base Entry Operand)
open Store (Extends Met)

/-! Locations -/

namespace Shift

variable (g : Shift)

mutual
def location : Location → Location
  | .variable name => .variable name
  | .detached s => .detached (g.slot s)
  | .element container key => .element (g.value container) key
  | .list elements => .list (locations elements)

def locations : List Location → List Location
  | [] => []
  | l :: rest => location l :: locations rest
end

mutual
theorem handles_location : (l : Location) → (g.location l).handles = l.handles.map g.handle
  | .variable _ => by simp only [location, Location.handles, List.map_nil]
  | .detached s => by simp only [location, Location.handles, List.map_cons, List.map_nil, handle]
  | .element container _ => by simp only [location, Location.handles, handles_value]
  | .list elements => by
      simp only [location, Location.handles]
      exact handles_locations elements

theorem handles_locations : (l : List Location) →
    Location.handles.handlesOfAll (g.locations l) = (Location.handles.handlesOfAll l).map g.handle
  | [] => by simp only [locations, Location.handles.handlesOfAll, List.map_nil]
  | l :: rest => by
      simp only [locations, Location.handles.handlesOfAll, List.map_append, handles_location l,
        handles_locations rest]
end

theorem value_getD (found : Option Value) :
    g.value (found.getD .null) = (found.map g.value).getD .null := by
  cases found <;> rfl

end Shift

namespace Repetition

variable {σ : Repetition} {st st' : Store} {v : Value} {a : ArrayId}

/-- What is known of a location: nothing in it is outside of the store, and its slots are new. -/
def KnownLocation (σ : Repetition) (st : Store) (l : Location) : Prop :=
  ∀ h ∈ l.handles, σ.Carried st.extent h

theorem currentScope_alike {α : Type} {f : α → α} {known : Store → α → Prop}
    {next next' : Scope → Run α} (stores : σ.Stores st st')
    (later : ∀ scope ∈ σ.machine.scopes, σ.Alike st st' f known (next scope) (next' scope)) :
    σ.Alike st st' f known (currentScope >>= next) (currentScope >>= next') := by
  unfold Alike at later ⊢
  cases scopes : σ.machine.scopes with
  | nil =>
      have ran : ∀ st, currentScope.run (σ.withStore st) = .error .noScope (σ.withStore st) := by
        intro st
        simp only [currentScope, Run.run_get_bind, withStore, scopes]
        rfl
      rw [Run.run_bind_error (ran st), Run.run_bind_error (ran st')]
      exact .error _ stores
  | cons scope outer =>
      have ran : ∀ st, currentScope.run (σ.withStore st) = .ok scope (σ.withStore st) := by
        intro st
        simp only [currentScope, Run.run_get_bind, withStore, scopes]
        rfl
      rw [Run.run_bind (ran st), Run.run_bind (ran st')]
      exact later scope (scopes ▸ List.mem_cons_self)

/-- A variable is a root. -/
theorem met_of_scope {scope : Scope} {name : String} {s : SlotId} (stores : σ.Stores st st')
    (inScope : scope ∈ σ.machine.scopes) (bound : Assoc.get? scope name = some s) :
    σ.shift.slot s = s ∧ Met σ.base σ.roots st.extent (.slot s) := by
  have inReach : Handle.slot s ∈ σ.machine.roots := by
    refine List.mem_append_left _ (List.mem_flatMap.mpr ⟨scope, inScope, ?_⟩)
    exact List.mem_map.mpr ⟨(name, s), Assoc.mem_of_get? bound, rfl⟩
  have root : Handle.slot s ∈ σ.roots := List.mem_append_left _ inReach
  have inside := stores.grounded.inside _ root
  exact ⟨Shift.slot_of_within inside, inside.mono stores.first.ext.grows, fun _ => .root root⟩

theorem variableSlot_alike (stores : σ.Stores st st') (name : String) :
    σ.Alike st st' σ.shift.slot (fun st₁ s => Met σ.base σ.roots st₁.extent (.slot s))
      (Location.variableSlot name) (Location.variableSlot name) := by
  refine currentScope_alike stores fun scope inScope => ?_
  cases bound : Assoc.get? scope name with
  | none => exact (newSlot_alike stores).imp fun _ _ carried => carried.toMet
  | some s =>
      obtain ⟨same, met⟩ := met_of_scope stores inScope bound
      exact .given stores same met

theorem ofVariable_alike (stores : σ.Stores st st') (name : String) :
    σ.Alike st st' σ.shift.location σ.KnownLocation (Location.ofVariable name)
      (Location.ofVariable name) := by
  refine currentScope_alike stores fun scope _ => ?_
  split
  · refine .given stores ?_ ?_
    · simp only [Shift.location]
    · simp [KnownLocation, Location.handles]
  · refine .bind (newSlot_alike stores) fun st₁ st₁' s stores₁ _ carried => .given stores₁ ?_ ?_
    · simp only [Shift.location]
    · simp only [KnownLocation, Location.handles]
      exact List.forall_mem_singleton.mpr carried

/-! What is read -/

theorem KnownValue.null : σ.KnownValue st .null := by simp [KnownValue, Value.handles]

/-- What is found in a slot of something that may be met; what is absent is null. -/
theorem KnownValue.of_found {found : Option SlotId} {h : Handle} (stores : σ.Stores st st')
    (met : Met σ.base σ.roots st.extent h)
    (held : ∀ s ∈ found, Handle.slot s ∈ st.holds h) :
    σ.KnownValue st ((found.map st.read).getD .null) := by
  cases found with
  | none => exact .null
  | some s => exact .of_slot stores (stores.first.held met (held s rfl))

theorem textOffset_alike (stores : σ.Stores st st') (text : String) (key : Key) :
    σ.AlikeValue st st' (Location.textOffset text key) (Location.textOffset text key) := by
  cases key with
  | string _ => exact .fail stores _
  | integer offset =>
      simp only [Location.textOffset]
      (repeat' split) <;> exact .plain stores rfl

theorem readElement_alike (stores : σ.Stores st st') (known : σ.KnownValue st v) (key : Key) :
    σ.AlikeValue st st' (Location.readElement v key)
      (Location.readElement (σ.shift.value v) key) := by
  cases v with
  | array a =>
      have met := (known _ List.mem_cons_self).toMet
      refine .inspect (.given stores ?_ ?_)
      · rw [(shifted stores).element?, Shift.value_getD]
      · exact .of_found stores met fun s found => Store.mem_handles_of_slot? found
  | object o =>
      have met := (known _ List.mem_cons_self).toMet
      refine .inspect (.given stores ?_ ?_)
      · rw [(shifted stores).property?, Shift.value_getD]
      · exact .of_found stores met fun s found => Store.mem_handles_of_property found
  | string text => exact textOffset_alike stores text key
  | null | boolean b | integer n | float x => exact .plain stores rfl

theorem get_alike {l : Location} (stores : σ.Stores st st') (known : σ.KnownLocation st l) :
    σ.AlikeValue st st' l.get (σ.shift.location l).get := by
  cases l with
  | «variable» name =>
      simp only [Shift.location, Location.get]
      refine .bind (variableSlot_alike stores name) fun st₁ st₁' s stores₁ _ met => ?_
      exact .look stores₁ ((shifted stores₁).read s).symm (.of_slot stores₁ met)
  | detached s =>
      simp only [KnownLocation, Location.handles] at known
      simp only [Shift.location, Location.get]
      exact .look stores ((shifted stores).read s).symm
        (.of_slot stores (known _ List.mem_cons_self).toMet)
  | element container key =>
      simp only [KnownLocation, Location.handles] at known
      simp only [Shift.location]
      cases key with
      | none => exact .fail stores _
      | some key => exact readElement_alike stores known key
  | list elements =>
      simp only [Shift.location]
      exact .fail stores _

/-! Evaluation -/

variable {user : UserCall}

mutual
theorem evalExpr_alike {st st' : Store} {frame frame' : Frame} : (e : Expr) → e.OnlyReads →
    σ.Stores st st' → σ.Held st.extent frame.held frame'.held →
      σ.AlikeValue st st' (evalExpr user frame e) (evalExpr user frame' e)
  | .null, _, stores, _ | .boolean _, _, stores, _ | .integer _, _, stores, _
  | .float _, _, stores, _ | .string _, _, stores, _ => by
      simp only [evalExpr]
      exact .plain stores rfl
  | .array entries, reads, stores, held => by
      simp only [evalExpr, Expr.OnlyReads] at reads ⊢
      refine .bind (evalEntries_alike entries reads stores held)
        fun st₁ st₁' items stores₁ grows carried => ?_
      exact arrayOf_alike stores₁ (held.mono grows) items carried
  | .load place, reads, stores, held => by
      simp only [evalExpr, Expr.OnlyReads] at reads ⊢
      exact .bind (evalPlace_alike .read place reads stores held)
        fun st₁ st₁' l stores₁ _ known => get_alike stores₁ known
  | .binary left operator right, reads, stores, held => by
      simp only [evalExpr, Expr.OnlyReads] at reads ⊢
      refine .bind (evalExpr_alike left reads.1 stores held)
        fun st₁ st₁' v stores₁ grows known => ?_
      have held₁ := held.mono grows
      refine .bind (evalExpr_alike right reads.2 stores₁ (held₁.value known))
        fun st₂ st₂' w stores₂ grows' known' => ?_
      have both : ∀ h ∈ v.handles ++ w.handles, σ.Carried st₂.extent h :=
        List.forall_mem_append.mpr ⟨known.mono grows', known'⟩
      exact applyBinary_alike stores₂ ((held₁.mono grows').append both (by simp)) operator
        (known.mono grows') known'
  | .unary operator operand, reads, stores, held => by
      simp only [evalExpr, Expr.OnlyReads] at reads ⊢
      exact evalOperand_alike operator operand reads stores held
  | .conditional condition consequent alternate, reads, stores, held => by
      simp only [evalExpr, Expr.OnlyReads] at reads ⊢
      refine .bind (evalExpr_alike condition reads.1 stores held)
        fun st₁ st₁' v stores₁ grows _ => ?_
      refine .inspect ?_
      rw [(shifted stores₁).toBoolean]
      split
      · exact evalExpr_alike consequent reads.2.1 stores₁ (held.mono grows)
      · exact evalExpr_alike alternate reads.2.2 stores₁ (held.mono grows)
  | .assign .., reads, _, _ | .call .., reads, _, _ | .callMethod .., reads, _, _
  | .instantiate .., reads, _, _ => by
      simp only [Expr.OnlyReads] at reads

theorem evalEntries_alike {st st' : Store} {frame frame' : Frame} : (entries : List Entry) →
    Code.entriesOnlyRead entries → σ.Stores st st' →
      σ.Held st.extent frame.held frame'.held →
      σ.Alike st st' (List.map σ.shift.item)
        (fun st₁ items => ∀ h ∈ items.flatMap itemHandles, σ.Carried st₁.extent h)
        (evalEntries user frame entries) (evalEntries user frame' entries)
  | [], _, stores, _ => by
      simp only [evalEntries]
      exact .given stores rfl (by simp)
  | .value e :: rest, reads, stores, held => by
      simp only [evalEntries, Code.entriesOnlyRead] at reads ⊢
      refine .bind (evalExpr_alike e reads.1 stores held) fun st₁ st₁' v stores₁ grows known => ?_
      refine .bind (evalEntries_alike rest reads.2 stores₁ ((held.mono grows).value known))
        fun st₂ st₂' items stores₂ grows' carried => .given stores₂ rfl ?_
      rw [List.flatMap_cons]
      exact List.forall_mem_append.mpr ⟨known.mono grows', carried⟩
  | .pair key e :: rest, reads, stores, held => by
      simp only [evalEntries, Code.entriesOnlyRead] at reads ⊢
      refine .bind (evalExpr_alike key reads.1 stores held) fun st₁ st₁' k stores₁ grows keyed => ?_
      refine .bind (evalExpr_alike e reads.2.1 stores₁ ((held.mono grows).value keyed))
        fun st₂ st₂' v stores₂ grows' known => ?_
      have both : ∀ h ∈ k.handles ++ v.handles, σ.Carried st₂.extent h :=
        List.forall_mem_append.mpr ⟨keyed.mono grows', known⟩
      refine .bind (evalEntries_alike rest reads.2.2 stores₂
        ((held.mono (grows.trans grows')).append both (by simp)))
        fun st₃ st₃' items stores₃ grows'' carried => .given stores₃ rfl ?_
      rw [List.flatMap_cons]
      exact List.forall_mem_append.mpr ⟨fun h member => (both h member).mono grows'', carried⟩

theorem evalOperand_alike {st st' : Store} {frame frame' : Frame} (operator : UnaryOperator) :
    (operand : Operand) → operand.OnlyReads → σ.Stores st st' →
      σ.Held st.extent frame.held frame'.held →
      σ.AlikeValue st st' (evalOperand user frame operator operand)
        (evalOperand user frame' operator operand)
  | .value e, reads, stores, held => by
      simp only [evalOperand, Operand.OnlyReads] at reads ⊢
      exact .bind (evalExpr_alike e reads stores held) fun st₁ st₁' v stores₁ _ known =>
        applyUnary_alike stores₁ operator known
  | .place _, reads, _, _ => by
      simp only [Operand.OnlyReads] at reads

theorem evalPlace_alike {st st' : Store} {frame frame' : Frame} (use : Use) : (p : Place) →
    p.OnlyReads → σ.Stores st st' → σ.Held st.extent frame.held frame'.held →
      σ.Alike st st' σ.shift.location σ.KnownLocation (evalPlace user frame use p)
        (evalPlace user frame' use p)
  | .variable name, _, stores, _ => by
      simp only [evalPlace]
      exact .bind (.note stores _) fun st₁ st₁' _ stores₁ _ _ => ofVariable_alike stores₁ name
  | .element base key, reads, stores, held => by
      simp only [evalPlace, Place.OnlyReads] at reads ⊢
      refine .bind (evalBase_alike use base reads.1 stores held)
        fun st₁ st₁' container stores₁ grows known => ?_
      refine .bind (evalKey_alike key reads.2 stores₁ ((held.mono grows).value known))
        fun st₂ st₂' key stores₂ grows' _ => .given stores₂ ?_ ?_
      · simp only [Shift.location, id_eq]
      · simp only [KnownLocation, Location.handles]
        exact known.mono grows'
  | .nullReference, _, stores, _ => by
      simp only [evalPlace]
      refine .bind (newSlot_alike stores) fun st₁ st₁' s stores₁ _ carried => .given stores₁ ?_ ?_
      · simp only [Shift.location]
      · simp only [KnownLocation, Location.handles]
        exact List.forall_mem_singleton.mpr carried
  | .list places, reads, stores, held => by
      simp only [evalPlace, Place.OnlyReads] at reads ⊢
      refine .bind (evalPlaces_alike use places reads stores held)
        fun st₁ st₁' elements stores₁ _ carried => .given stores₁ ?_ ?_
      · simp only [Shift.location]
      · simp only [KnownLocation, Location.handles]
        exact carried

theorem evalBase_alike {st st' : Store} {frame frame' : Frame} (use : Use) : (base : Base) →
    base.OnlyReads → σ.Stores st st' → σ.Held st.extent frame.held frame'.held →
      σ.AlikeValue st st' (evalBase user frame use base) (evalBase user frame' use base)
  | .value e, reads, stores, held => by
      simp only [evalBase, Base.OnlyReads] at reads ⊢
      exact evalExpr_alike e reads stores held
  | .implied _, reads, _, _ => by
      simp only [Base.OnlyReads] at reads

theorem evalKey_alike {st st' : Store} {frame frame' : Frame} : (key : Option Expr) →
    Code.keyOnlyReads key → σ.Stores st st' → σ.Held st.extent frame.held frame'.held →
      σ.AlikePlain st st' (evalKey user frame key) (evalKey user frame' key)
  | none, _, stores, _ => by
      simp only [evalKey]
      exact .pure stores trivial
  | some e, reads, stores, held => by
      simp only [evalKey, Code.keyOnlyReads] at reads ⊢
      refine .bind (evalExpr_alike e reads stores held) fun st₁ st₁' v stores₁ _ _ => ?_
      rw [Shift.ofValue]
      split
      · exact .pure stores₁ trivial
      · exact .fail stores₁ _

theorem evalPlaces_alike {st st' : Store} {frame frame' : Frame} (use : Use) :
    (places : List Place) → Code.placesOnlyRead places → σ.Stores st st' →
      σ.Held st.extent frame.held frame'.held →
      σ.Alike st st' σ.shift.locations
        (fun st₁ l => ∀ h ∈ Location.handles.handlesOfAll l, σ.Carried st₁.extent h)
        (evalPlaces user frame use places) (evalPlaces user frame' use places)
  | [], _, stores, _ => by
      simp only [evalPlaces]
      refine .given stores ?_ ?_
      · simp only [Shift.locations]
      · simp [Location.handles.handlesOfAll]
  | p :: rest, reads, stores, held => by
      simp only [evalPlaces, Code.placesOnlyRead] at reads ⊢
      refine .bind (evalPlace_alike use p reads.1 stores held)
        fun st₁ st₁' l stores₁ grows known => ?_
      refine .bind (evalPlaces_alike use rest reads.2 stores₁
        ((held.mono grows).append known (σ.shift.handles_location l)))
        fun st₂ st₂' elements stores₂ grows' carried => .given stores₂ ?_ ?_
      · simp only [Shift.locations]
      · simp only [Location.handles.handlesOfAll]
        exact List.forall_mem_append.mpr
          ⟨fun h member => (known h member).mono grows', carried⟩
end

end Repetition
end TreeScript
