import TreeScript.Proofs.Pairing.Run

set_option autoImplicit false

/- The steps of evaluation are alike on paired machines: copies, arrays, scopes, locations, operators
and builtins. -/
namespace TreeScript

variable {ρ ρ₁ : Pairing} {X : Lead} {E : List Lead} {H H' : List Handle}

/-! The store -/

/-- Any change that the evaluation makes to the store leaves the classes. -/
theorem Store.Adjusts.keepsClasses {v : Value} {st st' : Store}
    (change : Store.Adjusts (fun _ => True) v st st') : st'.classes = st.classes := change.classes

theorem put_alike {spot spot' : Spot} (spots : spot.Paired ρ spot') (v : Value) :
    ρ.Alike E Same (Run.alter (·.put spot v)) (Run.alter (·.put spot' v)) :=
  .alter (fun stores => stores.put spots v) fun st =>
    (Store.adjusts_put st spot v trivial fun _ _ => trivial).keepsClasses

theorem slotAt_alike {spot spot' : Spot} (spots : spot.Paired ρ spot') :
    ρ.Alike E SameSlot (Run.update (·.slotAt spot)) (Run.update (·.slotAt spot')) :=
  .update (fun stores => stores.slotAt spots) fun st =>
    (Store.adjusts_slotAt st spot trivial).keepsClasses

theorem bindAt_alike {spot spot' : Spot} (spots : spot.Paired ρ spot') {s s' : SlotId}
    (pair : ρ.pairs s s') :
    ρ.Alike E Same (Run.alter (·.bindAt spot s)) (Run.alter (·.bindAt spot' s')) :=
  .alter (fun stores => ⟨ρ, le_refl _, stores.bindAt spots pair⟩) fun st =>
    (Store.adjusts_bindAt st spot .null trivial trivial).keepsClasses

theorem newSlot_alike (v : Value) :
    ρ.Alike E SameSlot (Run.update (·.newSlot v)) (Run.update (·.newSlot v)) :=
  .update (fun stores => stores.newSlot v) fun _ => rfl

theorem newArray_alike :
    ρ.Alike E Same (Run.update (·.newArray .empty)) (Run.update (·.newArray .empty)) :=
  have empty : ArrayData.empty.Paired ρ .empty := ⟨.nil, rfl, rfl⟩
  .update (fun stores =>
    have ⟨same, ended⟩ := stores.newArray empty
    ⟨ρ, le_refl _, ended, same⟩) fun _ => rfl

theorem read_alike {s s' : SlotId} (pair : ρ.pairs s s') :
    ρ.Alike E Same (Run.inspect (·.read s)) (Run.inspect (·.read s')) :=
  .inspect fun stores => stores.read pair

/-- The stores themselves are looked at. -/
theorem store_alike :
    ρ.Alike E (fun ρ st st' => Store.Paired ρ st st') (Run.inspect id) (Run.inspect id) :=
  .inspect id

theorem array_alike (a : ArrayId) :
    ρ.Alike E (fun ρ data data' => ArrayData.Paired ρ data data') (Run.inspect (·.array a))
      (Run.inspect (·.array a)) :=
  .inspect fun stores => stores.array a

theorem copyValue_alike (held : ρ.Handles H H') (v : Value) :
    ρ.Alike E Same (copyValue H v) (copyValue H' v) := by
  intro m m' paired
  have copied := paired.store.copy ((paired.roots.append (.of_value v)).append held) v
  generalize made : m.store.copy (m.roots ++ v.handles ++ H) v = here at copied
  generalize made' : m'.store.copy (m'.roots ++ v.handles ++ H') v = there at copied
  cases copied with
  | none =>
      rw [Run.run_copyValue_none made, Run.run_copyValue_none made']
      exact .error _ (le_refl _) paired
  | some ended =>
      obtain ⟨ρ₁, grows, stores, same⟩ := ended
      rw [Run.run_copyValue made, Run.run_copyValue made']
      exact .ok grows (paired.withStore grows stores (Store.copy_extends made).classes) same

/-! Arrays -/

theorem entrySpot_alike (a : ArrayId) (key : Option Value) :
    ρ.Alike E Spot.Paired (entrySpot a key) (entrySpot a key) := by
  cases key with
  | none => exact .pure (.append a)
  | some key =>
      simp only [entrySpot]
      split
      · exact .fail _
      · exact .pure (.element a _)

theorem fillArray_alike (held : ρ.Handles H H') (a : ArrayId)
    (entries : List (Option Value × Value)) :
    ρ.Alike E Same (fillArray H a entries) (fillArray H' a entries) := by
  induction entries generalizing ρ with
  | nil => exact .pure rfl
  | cons entry rest ih =>
      have pending : ∀ entry : Option Value × Value, ρ.Handles
          ((entry.1.map Value.handles).getD [] ++ entry.2.handles)
          ((entry.1.map Value.handles).getD [] ++ entry.2.handles) := by
        rintro ⟨key, v⟩
        cases key with
        | none => exact .of_value v
        | some key => exact (Pairing.Handles.of_value key).append (.of_value v)
      have held' := (Pairing.Handles.cons (.array a) (.of_values rest _ pending)).append held
      refine .bind (entrySpot_alike a entry.1) fun ρ₁ grows spot spot' spots => ?_
      refine .bindSame (copyValue_alike (held'.mono grows) entry.2) fun ρ₂ grows' copy => ?_
      exact .bindSame (put_alike (spots.mono grows') copy) fun ρ₃ grows'' _ =>
        ih (held.mono ((grows.trans grows').trans grows''))

theorem arrayOf_alike (held : ρ.Handles H H') (entries : List (Option Value × Value)) :
    ρ.Alike E Same (arrayOf H entries) (arrayOf H' entries) :=
  .bindSame newArray_alike fun _ grows a =>
    .bindSame (fillArray_alike (held.mono grows) a entries) fun _ _ _ => .pure rfl

theorem copiedValues_alike (held : ρ.Handles H H') (slots : List SlotId) {slots' : List SlotId}
    (pairs : List.Forall₂ ρ.pairs slots slots') :
    ρ.Alike E Same (copiedValues H slots) (copiedValues H' slots') := by
  induction slots generalizing ρ H H' slots' with
  | nil =>
      cases pairs
      exact .pure rfl
  | cons s rest ih =>
      cases pairs with
      | cons pair later =>
          refine .bindSame (read_alike pair) fun ρ₁ grows v =>
            .bindSame (copyValue_alike (held.mono grows) v) fun ρ₂ grows' copy => ?_
          have grown := grows.trans grows'
          exact .bindSame (ih ((Pairing.Handles.of_value copy).append (held.mono grown))
            (later.imp fun _ _ pair => grown.kept pair)) fun _ _ _ => .pure rfl

theorem appendAll_alike (a : ArrayId) (values : List Value) :
    ρ.Alike E Same (appendAll a values) (appendAll a values) := by
  induction values generalizing ρ with
  | nil => exact .pure rfl
  | cons v rest ih => exact .bindSame (put_alike (.append a) v) fun _ _ _ => ih

theorem listOf_alike (values : List Value) : ρ.Alike E Same (listOf values) (listOf values) :=
  .bindSame newArray_alike fun _ _ a =>
    .bindSame (appendAll_alike a values) fun _ _ _ => .pure rfl

/-! Scopes -/

theorem currentScope_alike :
    ρ.Alike (X :: E) (fun ρ scope scope' => Scope.Paired ρ X scope scope') currentScope
      currentScope := by
  refine .look fun m m' paired => ?_
  have scopes := paired.scopes
  generalize m.scopes = all, m'.scopes = all' at scopes ⊢
  cases scopes with
  | cons inner _ => exact .pure inner

theorem setScope_alike {scope scope' : Scope} (scopes : scope.Paired ρ X scope') :
    ρ.Alike (X :: E) Same (setScope scope) (setScope scope') := by
  refine .change fun {m m'} paired => ?_
  have rest : Scope.AllPaired ρ E m.scopes.tail m'.scopes.tail := by
    have all := paired.scopes
    generalize m.scopes = outer, m'.scopes = outer' at all ⊢
    cases all with
    | cons _ rest => exact rest
  exact { paired with scopes := .cons scopes rest }

theorem classes_define (names : List String) (scope : Scope) (st : Store) :
    (scope.define st names).2.classes = st.classes := by
  obtain ⟨-, -, -, -, adjusts, -⟩ := Discipline.define_spec names scope st
  exact (adjusts fun _ => True).classes

theorem defineVariables_alike (names : List String) :
    ρ.Alike (.level :: E) Same (defineVariables names) (defineVariables names) := by
  refine .bind currentScope_alike fun ρ₁ _ scope scope' scopes => ?_
  exact .bind (.update (fun stores => scopes.define names stores)
    fun st => classes_define names scope st) fun _ _ _ _ scopes => setScope_alike scopes

theorem defineVariable_alike (name : String) :
    ρ.Alike (.level :: E) SameSlot (defineVariable name) (defineVariable name) := by
  refine .bindSame (defineVariables_alike [name]) fun ρ₁ _ _ => ?_
  refine .bind currentScope_alike fun ρ₂ _ scope scope' scopes => ?_
  have found := scopes.get? (List.not_mem_nil : name ∉ Lead.level.names)
  generalize Assoc.get? scope name = here at found ⊢
  generalize Assoc.get? scope' name = there at found ⊢
  cases found with
  | none => exact .fault _
  | some pair => exact .pure pair

theorem bindVariable_alike (held : ρ.Handles H H') (name : String) (v : Value) :
    ρ.Alike (.level :: E) Same (bindVariable H name v) (bindVariable H' name v) :=
  .bind (defineVariable_alike name) fun _ grows _ _ pair =>
    .bindSame (copyValue_alike (held.mono grows) v) fun _ grows' copy =>
      put_alike (.slot (grows'.kept pair)) copy

/-! Locations -/

mutual
/-- The locations are the same one. A variable that is ahead is read as one on its own that holds
null. -/
inductive Location.Paired (ρ : Pairing) (X : Lead) (use : Use) : Location → Location → Prop
  | «variable» (name : String) (has : X.Has name) :
      Paired ρ X use (.variable name) (.variable name)
  | ahead {s' : SlotId} (name : String) (reads : use = .read) (member : name ∈ X.names)
      (spare : ρ.SpareRight s') : Paired ρ X use (.variable name) (.detached s')
  | detached {s s' : SlotId} (pair : ρ.pairs s s') : Paired ρ X use (.detached s) (.detached s')
  | element (container : Value) (key : Option Key) :
      Paired ρ X use (.element container key) (.element container key)
  | list {elements elements' : List Location} (each : AllPaired ρ X use elements elements') :
      Paired ρ X use (.list elements) (.list elements')

inductive Location.AllPaired (ρ : Pairing) (X : Lead) (use : Use) :
    List Location → List Location → Prop
  | nil : AllPaired ρ X use [] []
  | cons {l l' : Location} {rest rest' : List Location} (first : Paired ρ X use l l')
      (later : AllPaired ρ X use rest rest') : AllPaired ρ X use (l :: rest) (l' :: rest')
end

namespace Location

variable {use : Use} {l l' : Location} {elements elements' : List Location}

mutual
theorem Paired.mono (grows : ρ ≤ ρ₁) {l l' : Location} : Paired ρ X use l l' → Paired ρ₁ X use l l'
  | .variable name has => .variable name has
  | .ahead name reads member spare => .ahead name reads member (spare.mono grows)
  | .detached pair => .detached (grows.kept pair)
  | .element container key => .element container key
  | .list each => .list (each.mono grows)

theorem AllPaired.mono (grows : ρ ≤ ρ₁) {elements elements' : List Location} :
    AllPaired ρ X use elements elements' → AllPaired ρ₁ X use elements elements'
  | .nil => .nil
  | .cons first later => .cons (first.mono grows) (later.mono grows)
end

mutual
theorem Paired.handles {l l' : Location} : Paired ρ X use l l' → ρ.Handles l.handles l'.handles
  | .variable _ _ => by
      simp only [Location.handles]
      exact .nil
  | .ahead _ _ _ spare => by
      simp only [Location.handles]
      exact .right spare .nil
  | .detached pair => by
      simp only [Location.handles]
      exact .cons (.slot pair) .nil
  | .element container _ => by
      simp only [Location.handles]
      exact .of_value container
  | .list each => by
      simp only [Location.handles]
      exact each.handles

theorem AllPaired.handles {elements elements' : List Location} :
    AllPaired ρ X use elements elements' →
      ρ.Handles (Location.handles.handlesOfAll elements) (Location.handles.handlesOfAll elements')
  | .nil => by
      simp only [Location.handles.handlesOfAll]
      exact .nil
  | .cons first later => by
      simp only [Location.handles.handlesOfAll]
      exact first.handles.append later.handles
end

/-- Where a variable is written to it is not ahead. -/
theorem ofVariable_alike {name : String} (outside : use = .write → name ∉ X.names) :
    ρ.Alike (X :: E) (fun ρ l l' => Location.Paired ρ X use l l') (ofVariable name)
      (ofVariable name) := by
  refine .bind currentScope_alike fun ρ₁ _ scope scope' scopes => ?_
  by_cases member : name ∈ X.names
  · obtain ⟨⟨s, found, -⟩, absent⟩ := scopes.get?_ahead member
    have here : Assoc.contains scope name = true := by simp [Assoc.contains, found]
    have there : Assoc.contains scope' name = false := by
      rw [← Bool.not_eq_true, Assoc.contains_iff_mem_keys]
      exact absent
    have reads : use = .read := by
      cases use with
      | read => rfl
      | write => exact absurd member (outside rfl)
    rw [here, there]
    -- the first machine has the variable, the second one makes a slot for it
    intro m m' paired
    have grows := ρ₁.grows_widenRight
    exact .ok grows (paired.withStore grows paired.store.newRight rfl)
      (.ahead name reads member (paired.store.right ▸ ρ₁.spareRight_widenRight))
  · rw [scopes.contains member]
    split
    · next declared => exact .pure (.variable name (scopes.has declared))
    · exact .bind (newSlot_alike .null) fun _ _ _ _ pair => .pure (.detached pair)

theorem variableSlot_alike {name : String} (has : X.Has name) :
    ρ.Alike (X :: E) SameSlot (variableSlot name) (variableSlot name) := by
  refine .bind currentScope_alike fun ρ₁ _ scope scope' scopes => ?_
  have found := scopes.get? (scopes.outside has)
  generalize Assoc.get? scope name = here at found ⊢
  generalize Assoc.get? scope' name = there at found ⊢
  cases found with
  | none => exact newSlot_alike .null
  | some pair => exact .pure pair

theorem textOffset_alike (text : String) (key : Key) :
    ρ.Alike E Same (textOffset text key) (textOffset text key) := by
  cases key with
  | string _ => exact .fail _
  | integer offset =>
      simp only [textOffset]
      (repeat' split) <;> exact .pure rfl

theorem element?_alike (a : ArrayId) (key : Key) :
    ρ.Alike E Same (Run.inspect (·.element? a key)) (Run.inspect (·.element? a key)) :=
  .inspect fun stores => stores.element? a key

theorem property?_alike (o : ObjectId) (name : String) :
    ρ.Alike E Same (Run.inspect (·.property? o name)) (Run.inspect (·.property? o name)) :=
  .inspect fun stores => stores.property? o name

theorem readElement_alike (container : Value) (key : Key) :
    ρ.Alike E Same (readElement container key) (readElement container key) := by
  cases container with
  | array a => exact .bindSame (element?_alike a key) fun _ _ _ => .pure rfl
  | object o => exact .bindSame (property?_alike o key.text) fun _ _ _ => .pure rfl
  | string text => exact textOffset_alike text key
  | null | boolean b | integer n | float x => exact .pure rfl

theorem spotOf_alike (container : Value) (key : Option Key) :
    ρ.Alike E Spot.Paired (spotOf container key) (spotOf container key) := by
  cases container with
  | array a =>
      cases key with
      | none => exact .pure (.append a)
      | some key => exact .pure (.element a key)
  | object o =>
      cases key with
      | none => exact .fail _
      | some key => exact .pure (.property o key.text)
  | null | boolean b | integer n | float x | string text => exact .fail _

theorem presentElement_alike (container : Value) (key : Option Key) :
    ρ.Alike E Same (presentElement container key) (presentElement container key) := by
  cases key with
  | none => exact .pure rfl
  | some key =>
      cases container with
      | array a => exact element?_alike a key
      | object o => exact property?_alike o key.text
      | null | boolean b | integer n | float x | string text => exact .pure rfl

theorem implyIn_alike {s s' : SlotId} (pair : ρ.pairs s s') :
    ρ.Alike E Same (implyIn s) (implyIn s') := by
  refine .bindSame (read_alike pair) fun ρ₁ grows v => ?_
  cases v with
  | null =>
      exact .bindSame newArray_alike fun ρ₂ grows' a =>
        .bindSame (put_alike (.slot (grows'.kept (grows.kept pair))) _) fun _ _ _ => .pure rfl
  | boolean b | integer n | float x | string text | array a | object o => exact .pure rfl

theorem get_alike (paired : Paired ρ X use l l') : ρ.Alike (X :: E) Same l.get l'.get := by
  cases paired with
  | «variable» name has =>
      exact .bind (variableSlot_alike has) fun _ _ _ _ pair => read_alike pair
  | @ahead s' name _ member spare =>
      intro m m' paired
      obtain ⟨scope, outer, isScope, s, found, spareLeft⟩ := paired.ahead member
      have looked : currentScope.run m = .ok scope m := by
        rw [currentScope, Run.run_get_bind, isScope]
        rfl
      have slot : (variableSlot name).run m = .ok s m := by
        rw [variableSlot, Run.run_bind looked, found]
        rfl
      have null : m.store.read s = m'.store.read s' := by
        rw [paired.store.spareLeft s spareLeft.2, paired.store.spareRight s' spare.2]
      rw [Location.get, Run.run_bind slot]
      exact .ok (le_refl _) paired null
  | detached pair => exact read_alike pair
  | element container key =>
      cases key with
      | none => exact .fail _
      | some key => exact readElement_alike container key
  | list _ => exact .fail _

theorem slot_alike (paired : Paired ρ X .write l l') :
    ρ.Alike (X :: E) SameSlot l.slot l'.slot := by
  cases paired with
  | «variable» name has => exact variableSlot_alike has
  | ahead _ reads _ _ => cases reads
  | detached pair => exact .pure pair
  | element container key =>
      exact .bind (spotOf_alike container key) fun _ _ _ _ spots => slotAt_alike spots
  | list _ => exact .fail _

theorem rebind_alike {s s' : SlotId} (paired : Paired ρ X .write l l') (pair : ρ.pairs s s') :
    ρ.Alike (X :: E) Same (l.rebind s) (l'.rebind s') := by
  cases paired with
  | «variable» name has =>
      exact .bind currentScope_alike fun _ grows _ _ scopes =>
        setScope_alike (scopes.set has (grows.kept pair))
  | ahead _ reads _ _ => cases reads
  | detached _ => exact .pure rfl
  | element container key =>
      exact .bind (spotOf_alike container key) fun _ grows _ _ spots =>
        bindAt_alike spots (grows.kept pair)
  | list _ => exact .fail _

theorem bind_alike {s s' : SlotId} (paired : Paired ρ X .write l l') (pair : ρ.pairs s s') :
    ρ.Alike (X :: E) Same (l.bind s) (l'.bind s') :=
  .bindSame (read_alike pair) fun _ grows _ =>
    .bindSame (rebind_alike (paired.mono grows) (grows.kept pair)) fun _ _ _ => .pure rfl

theorem imply_alike (paired : Paired ρ X .write l l') : ρ.Alike (X :: E) Same l.imply l'.imply := by
  cases paired with
  | «variable» name has =>
      exact .bind (variableSlot_alike has) fun _ _ _ _ pair => implyIn_alike pair
  | ahead _ reads _ _ => cases reads
  | detached pair => exact implyIn_alike pair
  | element container key =>
      have implied : ∀ {ρ₁ : Pairing}, ρ₁.Alike (X :: E) Same
          (do implyIn (← Run.update (·.slotAt (← spotOf container key))))
          (do implyIn (← Run.update (·.slotAt (← spotOf container key)))) :=
        .bind (spotOf_alike container key) fun _ _ _ _ spots =>
          .bind (slotAt_alike spots) fun _ _ _ _ pair => implyIn_alike pair
      refine .bindSame (presentElement_alike container key) fun ρ₁ _ present => ?_
      cases present with
      | none => exact implied
      | some v =>
          cases v with
          | null => exact implied
          | boolean b | integer n | float x | string text | array a | object o => exact .pure rfl
  | list _ => exact .fail _

theorem itemAt_alike (v : Value) (position : Nat) :
    ρ.Alike E Same (itemAt v position) (itemAt v position) := by
  cases v with
  | array a => exact .bindSame (element?_alike a _) fun _ _ _ => .pure rfl
  | null | boolean b | integer n | float x | string text | object o => exact .pure rfl

mutual
theorem set_alike {ρ : Pairing} {H H' : List Handle} (held : ρ.Handles H H') (v : Value) :
    {l l' : Location} → Paired ρ X .write l l' →
      ρ.Alike (X :: E) Same (l.set H v) (l'.set H' v)
  | _, _, .variable name has => by
      rw [set, set]
      exact .bindSame (copyValue_alike held v) fun _ _ copy =>
        .bind (variableSlot_alike has) fun _ _ _ _ pair =>
          .bindSame (put_alike (.slot pair) copy) fun _ _ _ => .pure rfl
  | _, _, .ahead _ reads _ _ => by cases reads
  | _, _, .detached pair => by
      rw [set, set]
      exact .bindSame (copyValue_alike (.cons (.slot pair) held) v) fun _ grows copy =>
        .bindSame (put_alike (.slot (grows.kept pair)) copy) fun _ _ _ => .pure rfl
  | _, _, .element container key => by
      rw [set, set]
      exact .bindSame (copyValue_alike ((Pairing.Handles.of_value container).append held) v)
        fun _ _ copy => .bind (spotOf_alike container key) fun _ _ _ _ spots =>
          .bindSame (put_alike spots copy) fun _ _ _ => .pure rfl
  | _, _, .list each => by
      rw [set, set]
      exact .bindSame (setAll_alike (((Pairing.Handles.of_value v).append each.handles).append held)
        v 0 each) fun _ _ _ => .pure rfl

theorem setAll_alike {ρ : Pairing} {H H' : List Handle} (held : ρ.Handles H H') (v : Value)
    (position : Nat) : {elements elements' : List Location} →
      AllPaired ρ X .write elements elements' →
      ρ.Alike (X :: E) Same (setAll H v position elements) (setAll H' v position elements')
  | _, _, .nil => by
      rw [setAll, setAll]
      exact .pure rfl
  | _, _, .cons first later => by
      rw [setAll, setAll]
      exact .bindSame (itemAt_alike v position) fun _ grows item =>
        .bindSame (set_alike (held.mono grows) item (first.mono grows)) fun _ grows' _ =>
          have grown := grows.trans grows'
          setAll_alike (held.mono grown) v (position + 1) (later.mono grown)
end

end Location
end TreeScript
