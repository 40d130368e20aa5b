import TreeScript.Proofs.Discipline.Basic

set_option autoImplicit false

/- The computations on the machine that everything is made of keep every discipline: storing and
copying, building arrays, declaring and binding variables, scopes and calls. -/
namespace TreeScript.Discipline

variable {D : Discipline} {b i : D.Index} {e : Extent}

/-! Storing and copying -/

theorem closed_spot {m : Machine} {spot : Spot} (good : D.good i m)
    (known : D.known m.store.extent spot.handle) :
    ∀ g ∈ m.store.holds spot.handle, D.known m.store.extent g := by
  apply D.closed good known
  cases spot <;> exact fun _ => Handle.noConfusion

theorem put_meets {spot : Spot} {v : Value} (spotKnown : D.known e spot.handle)
    (known : D.Known e v) :
    D.Meets b (D.hold i v) e (fun _ => i) Any (Run.alter (·.put spot v)) :=
  meets_alter known fun _ inside good =>
    Store.adjusts_put _ spot v (D.known_mono inside spotKnown) fun s member =>
      closed_spot good (D.known_mono inside spotKnown) (.slot s) member

theorem slotAt_meets {spot : Spot} (known : D.known e spot.handle) :
    D.Meets b i e (fun _ => i) (fun e s => D.known e (.slot s)) (Run.update (·.slotAt spot)) := by
  refine (meets_update (known_plain rfl) (fun m inside _ => ?_) fun m inside good => ?_).ofNull
  · exact Store.adjusts_slotAt _ spot (D.known_mono inside known)
  · have grows := (Store.adjusts_slotAt m.store spot (D.known_mono inside known)).grows
    rcases Store.slotAt_slot m.store spot with same | held | fresh
    · rw [same]
      exact D.known_mono (inside.trans grows) known
    · exact D.known_mono grows (closed_spot good (D.known_mono inside known) _ held)
    · exact D.known_fresh good fresh

theorem bindAt_meets {spot : Spot} {s : SlotId} (spotKnown : D.known e spot.handle)
    (known : D.known e (.slot s)) :
    D.Meets b i e (fun _ => i) Any (Run.alter (·.bindAt spot s)) :=
  (meets_alter (known_plain rfl) fun _ inside _ => Store.adjusts_bindAt _ spot .null
    (D.known_mono inside spotKnown) (D.known_mono inside known)).ofNull

theorem newSlot_meets {v : Value} (known : D.Known e v) :
    D.Meets b (D.hold i v) e (fun _ => i) (fun e s => D.known e (.slot s))
      (Run.update (·.newSlot v)) :=
  meets_update known (fun m _ _ => Store.adjusts_newSlot _ v m.store)
    fun m _ good => D.known_fresh good (Store.fresh_newSlot m.store v)

theorem newNull_meets :
    D.Meets b i e (fun _ => i) (fun e s => D.known e (.slot s)) (Run.update (·.newSlot .null)) :=
  (newSlot_meets (known_plain rfl)).ofNull

theorem newArray_meets :
    D.Meets b i e (fun a => D.hold i (.array a)) (fun e a => D.known e (.array a))
      (Run.update (·.newArray .empty)) := by
  intro m _ good
  have held := D.newArray good
  exact ⟨D.seen (D.forget held), (Store.extends_newArray m.store .empty).grows, held,
    D.known_fresh good (Store.fresh_newArray m.store .empty)⟩

theorem copyValue_meets {pending : List Handle} {v : Value} (holds : D.Holds e pending)
    (source : D.Source e v) :
    D.Meets i i e (fun v => D.hold i v) D.Known (copyValue pending v) := by
  intro m inside good
  rw [copyValue, Run.holds_bind, Run.holds_modifyGet]
  cases done : m.store.copy (m.roots ++ v.handles ++ pending) v with
  | none => exact ⟨D.seen good, le_refl _, good, by simp⟩
  | some copied =>
      obtain ⟨v', st⟩ := copied
      obtain ⟨held, known⟩ := D.copy good (holds.mono inside) (source.mono inside) done
      exact ⟨D.seen (D.forget held), (Store.copy_extends done).grows, held, known⟩

theorem ending_meets {α : Type} (answer : Option α) :
    D.Keeps i e Any (Run.ending answer) := by
  cases answer with
  | some a => exact .pure fun _ _ => trivial
  | none => exact .fault (by simp)

/-! Arrays -/

theorem holds_pending (rest : List (Option Value × Value))
    (known : ∀ entry ∈ rest, (∀ k ∈ entry.1, D.Known e k) ∧ D.Known e entry.2) :
    D.Holds e (rest.flatMap fun (key, v) => (key.map Value.handles).getD [] ++ v.handles) := by
  intro g member
  obtain ⟨⟨key, v⟩, inside, held⟩ := List.mem_flatMap.mp member
  obtain ⟨keyKnown, valueKnown⟩ := known (key, v) inside
  rcases List.mem_append.mp held with inKey | inValue
  · cases key with
    | none => simp at inKey
    | some k => exact (keyKnown k rfl).holds g inKey
  · exact valueKnown.holds g inValue

theorem entrySpot_meets {a : ArrayId} (known : D.known e (.array a)) (key : Option Value) :
    D.Keeps i e (fun e spot => D.known e spot.handle) (entrySpot a key) := by
  cases key with
  | none => exact .pure fun _ grows => D.known_mono grows known
  | some key =>
      simp only [entrySpot]
      split
      · exact .fail _
      · exact .pure fun _ grows => D.known_mono grows known

theorem fillArray_meets {pending : List Handle} {a : ArrayId} (holds : D.Holds e pending)
    (known : D.known e (.array a)) (entries : List (Option Value × Value))
    (entriesKnown : ∀ entry ∈ entries, (∀ k ∈ entry.1, D.Known e k) ∧ D.Known e entry.2) :
    D.Keeps i e Any (fillArray pending a entries) := by
  induction entries generalizing e with
  | nil => exact .pure fun _ _ => trivial
  | cons entry rest ih =>
      obtain ⟨key, v⟩ := entry
      obtain ⟨⟨-, valueKnown⟩, restKnown⟩ := List.forall_mem_cons.mp entriesKnown
      rw [fillArray]
      apply (entrySpot_meets known key).bind
      intro e₁ grows₁ spot spotKnown
      have holds' :=
        Holds.cons (D.held_of_known known) ((holds_pending rest restKnown).append holds)
      apply (copyValue_meets (holds'.mono grows₁) (valueKnown.source.mono grows₁)).bind
      intro e₂ grows₂ copy copyKnown
      apply (put_meets (D.known_mono grows₂ spotKnown) copyKnown).bind
      intro e₃ grows₃ _ _
      have grows := (grows₁.trans grows₂).trans grows₃
      exact ih (holds.mono grows) (D.known_mono grows known) fun entry member =>
        ⟨fun k isKey => ((restKnown entry member).1 k isKey).mono grows,
          (restKnown entry member).2.mono grows⟩

/-- An array that nothing holds yet is handed on as it is. -/
theorem array_meets {a : ArrayId} (known : D.known e (.array a)) :
    D.Meets b i e (fun _ => i) D.Known (pure (.array a)) :=
  .pure fun _ grows _ member => List.mem_singleton.mp member ▸ D.known_mono grows known

/-- Nothing holds the array yet. -/
theorem arrayOf_loose {pending : List Handle} (holds : D.Holds e pending)
    (entries : List (Option Value × Value))
    (known : ∀ entry ∈ entries, (∀ k ∈ entry.1, D.Known e k) ∧ D.Known e entry.2) :
    D.Meets i i e (fun v => D.hold i v) D.Known (arrayOf pending entries) := by
  apply newArray_meets.bind
  intro e₁ grows₁ a arrayKnown
  have filled : D.Keeps (D.hold i (.array a)) e₁ Any (fillArray pending a entries) :=
    fillArray_meets (holds.mono grows₁) arrayKnown entries fun entry member =>
      ⟨fun k isKey => ((known entry member).1 k isKey).mono grows₁,
        (known entry member).2.mono grows₁⟩
  apply (filled.weaken fun _ => D.forget).bind
  intro e₂ grows₂ _ _
  refine .pureAt rfl fun e₃ grows₃ g member => ?_
  exact List.mem_singleton.mp member ▸ D.known_mono (grows₂.trans grows₃) arrayKnown

theorem arrayOf_meets {pending : List Handle} (holds : D.Holds e pending)
    (entries : List (Option Value × Value))
    (known : ∀ entry ∈ entries, (∀ k ∈ entry.1, D.Known e k) ∧ D.Known e entry.2) :
    D.Keeps i e D.Known (arrayOf pending entries) := by
  intro m inside good
  refine (arrayOf_loose holds entries known m inside good).mono ?_ fun _ _ failed => failed
  rintro v m' ⟨grows, loose, result⟩
  exact ⟨grows, D.forget loose, result⟩

/-- The index while several values are copied but not stored. -/
def holdAll (D : Discipline) (i : D.Index) (values : List Value) : D.Index := values.foldl D.hold i

theorem holdAll_cons (i : D.Index) (v : Value) (values : List Value) :
    D.holdAll i (v :: values) = D.hold (D.holdAll i values) v := by
  induction values generalizing i with
  | nil => rfl
  | cons w rest ih =>
      calc D.holdAll i (v :: w :: rest) = D.holdAll (D.hold i w) (v :: rest) := by
            simp only [holdAll, List.foldl_cons, D.hold_comm i v w]
        _ = D.hold (D.holdAll i (w :: rest)) v := ih (D.hold i w)

theorem forgetAll {m : Machine} (values : List Value) (good : D.good (D.holdAll i values) m) :
    D.good i m := by
  induction values with
  | nil => exact good
  | cons v rest ih =>
      rw [holdAll_cons] at good
      exact ih (D.forget good)

theorem read_meets {s : SlotId} (known : D.known e (.slot s)) :
    D.Meets b i e (fun _ => i) D.Known (Run.inspect (·.read s)) :=
  meets_inspect fun _ inside good =>
    D.closed good (D.known_mono inside known) fun _ => Handle.noConfusion

theorem copiedValues_meets {pending : List Handle} (holds : D.Holds e pending)
    (slots : List SlotId) (known : ∀ s ∈ slots, D.known e (.slot s))
    (back : ∀ m, D.good i m → D.good b m) :
    D.Meets b i e (fun values => D.holdAll i values) (fun e values => ∀ v ∈ values, D.Known e v)
      (copiedValues pending slots) := by
  induction slots generalizing i e pending with
  | nil =>
      rw [copiedValues]
      refine .pureAt rfl fun _ _ => ?_
      simp
  | cons s rest ih =>
      obtain ⟨slotKnown, restKnown⟩ := List.forall_mem_cons.mp known
      rw [copiedValues]
      apply (read_meets slotKnown).bind
      intro e₁ grows₁ v valueKnown
      apply ((copyValue_meets (holds.mono grows₁) valueKnown.source).weaken back).bind
      intro e₂ grows₂ copy copyKnown
      have grows := grows₁.trans grows₂
      apply (ih (copyKnown.holds.append (holds.mono grows)) (fun s member =>
        D.known_mono grows (restKnown s member)) fun m good => back m (D.forget good)).bind
      intro e₃ grows₃ more moreKnown
      refine .pureAt rfl fun e₄ grows₄ => ?_
      exact List.forall_mem_cons.mpr
        ⟨copyKnown.mono (grows₃.trans grows₄), fun v member => (moreKnown v member).mono grows₄⟩

theorem appendAll_meets {a : ArrayId} (known : D.known e (.array a)) (values : List Value)
    (valuesKnown : ∀ v ∈ values, D.Known e v) :
    D.Meets b (D.holdAll i values) e (fun _ => i) Any (appendAll a values) := by
  induction values generalizing e with
  | nil => exact .pure fun _ _ => trivial
  | cons v rest ih =>
      obtain ⟨valueKnown, restKnown⟩ := List.forall_mem_cons.mp valuesKnown
      rw [appendAll, holdAll_cons]
      have appendKnown : D.known e (Spot.append a).handle := known
      apply (put_meets appendKnown valueKnown).bind
      intro e₁ grows₁ _ _
      exact ih (D.known_mono grows₁ known) fun v member => (restKnown v member).mono grows₁

/-- Values that are copied, or hold no arrays, are put together to an array. -/
theorem listOf_meets {values : List Value} (known : ∀ v ∈ values, D.Known e v) :
    D.Meets b (D.holdAll i values) e (fun _ => i) D.Known (listOf values) := by
  rw [listOf]
  apply newArray_meets.bind
  intro e₁ grows₁ a arrayKnown
  refine Meets.strengthen ?_ fun _ => D.forget
  apply (appendAll_meets arrayKnown values fun v member => (known v member).mono grows₁).bind
  intro e₂ grows₂ _ _
  exact array_meets (D.known_mono grows₂ arrayKnown)

/-! Scopes -/

theorem currentScope_meets :
    D.Keeps i e (fun e scope => ∀ entry ∈ scope, D.known e (.slot entry.2)) currentScope := by
  intro m _ good
  obtain ⟨scope, outer, isScope, known⟩ := D.scope good
  rw [currentScope, Run.holds_bind, Run.holds_get, isScope]
  exact ⟨D.seen good, le_refl _, good, known⟩

/-- Declaring names adds bindings to fresh slots, and leaves what all slots hold. -/
theorem define_spec (names : List String) (scope : Scope) (st : Store) :
    ∃ added, (scope.define st names).1 = scope ++ added ∧
      (∀ name ∈ names, name ∈ Assoc.keys (scope ++ added)) ∧
      (∀ entry ∈ added, Store.Fresh st (scope.define st names).2 (.slot entry.2)) ∧
      (∀ may, Store.Adjusts may .null st (scope.define st names).2) ∧
      ∀ s, (scope.define st names).2.read s = st.read s := by
  induction names generalizing scope st with
  | nil => exact ⟨[], by simp [Scope.define], by simp, by simp, fun may => .refl may .null st,
      fun _ => rfl⟩
  | cons name rest ih =>
      rw [Scope.define]
      split
      · next declared =>
          obtain ⟨added, same, listed, fresh, adjusts, still⟩ := ih scope st
          refine ⟨added, same, List.forall_mem_cons.mpr ⟨?_, listed⟩, fresh, adjusts, still⟩
          have there := (Assoc.contains_iff_mem_keys scope name).mp declared
          simp only [Assoc.keys, List.map_append, List.mem_append] at there ⊢
          exact .inl there
      · obtain ⟨added, same, listed, fresh, adjusts, still⟩ :=
          ih (scope ++ [(name, (st.newSlot .null).1)]) (st.newSlot .null).2
        have null : ∀ s, (st.newSlot .null).2.read s = st.read s := by
          intro s
          rw [Store.read_newSlot]
          split
          · next last => simp [Store.read, last]
          · rfl
        refine ⟨(name, (st.newSlot .null).1) :: added, by simpa using same, ?_, ?_, ?_, ?_⟩
        · simp only [List.append_assoc, List.singleton_append] at listed
          exact List.forall_mem_cons.mpr ⟨by simp [Assoc.keys], listed⟩
        · refine List.forall_mem_cons.mpr ⟨?_, fun entry member => ?_⟩
          · exact (Store.fresh_newSlot st .null).grow (adjusts fun _ => True).grows
          · exact (fresh entry member).start (Store.extent_newSlot st .null)
        · exact fun may => (Store.adjusts_newSlot may .null st).trans (adjusts _) still
        · exact fun s => (still s).trans (null s)

/-- What declaring names leaves: a scope in which they are all declared. -/
theorem defineVariables_holds {m : Machine} (names : List String) (good : D.good i m) :
    (defineVariables names).Holds D.moment
      (fun _ m' => m.store.extent ≤ m'.store.extent ∧ D.good (D.declare i names) m' ∧
        ∃ scope outer, m'.scopes = scope :: outer ∧ ∀ name ∈ names, name ∈ Assoc.keys scope)
      (fun _ _ => False) m := by
  obtain ⟨scope, outer, isScope, known⟩ := D.scope good
  obtain ⟨added, same, listed, fresh, adjusts, -⟩ := define_spec names scope m.store
  have stored := D.adjust (D.plain (fun _ => Value.noConfusion) good)
    (by simp [Value.handles]) (adjusts (D.known m.store.extent))
  have declared := D.extend stored isScope
    (fun entry member => D.known_fresh good (fresh entry member)) listed
  rw [defineVariables, Run.holds_bind, currentScope, Run.holds_bind, Run.holds_get, isScope]
  refine ⟨D.seen good, D.seen stored, ?_⟩
  simp only [isScope, same] at declared ⊢
  exact ⟨D.seen (D.undeclare declared), (adjusts fun _ => True).grows, declared, scope ++ added,
    outer, rfl, listed⟩

theorem defineVariables_meets (names : List String) :
    D.Meets b i e (fun _ => D.declare i names) Any (defineVariables names) := by
  intro m _ good
  refine (defineVariables_holds names good).mono ?_ fun _ _ => False.elim
  rintro _ m' ⟨grows, declared, -⟩
  exact ⟨grows, declared, trivial⟩

/-- A variable that was just declared has a slot. -/
theorem defineVariable_meets (name : String) :
    D.Meets b i e (fun _ => D.declare i [name]) (fun e s => D.known e (.slot s))
      (defineVariable name) := by
  intro m _ good
  rw [defineVariable, Run.holds_bind]
  refine (defineVariables_holds [name] good).mono ?_ fun _ _ => False.elim
  rintro _ m' ⟨grows, declared, scope, outer, isScope, listed⟩
  have order := D.undeclare declared
  obtain ⟨scope', outer', isScope', known⟩ := D.scope order
  obtain ⟨rfl, rfl⟩ := List.cons.inj (isScope.symm.trans isScope')
  have contained := (Assoc.contains_iff_mem_keys scope name).mpr (listed name List.mem_cons_self)
  obtain ⟨s, found⟩ := Option.isSome_iff_exists.mp contained
  rw [currentScope, Run.holds_bind, Run.holds_bind, Run.holds_get, isScope]
  refine ⟨D.seen order, ?_⟩
  simp only [Run.holds_pure, found]
  exact ⟨grows, declared, known (name, s) (Assoc.mem_of_get? found)⟩

theorem bindVariable_meets {pending : List Handle} {v : Value} (holds : D.Holds e pending)
    (source : D.Source e v) (name : String) :
    D.Keeps i e Any (bindVariable pending name v) := by
  apply (defineVariable_meets name).bind
  intro e₁ grows₁ s slotKnown
  refine Meets.strengthen ?_ fun _ => D.undeclare
  apply (copyValue_meets (holds.mono grows₁) (source.mono grows₁)).bind
  intro e₂ grows₂ copy copyKnown
  have spotKnown : D.known e₂ (Spot.slot s).handle := D.known_mono grows₂ slotKnown
  exact put_meets spotKnown copyKnown

/-- A new scope goes again, and what is around it is as it was. -/
theorem inNewScope_meets {α : Type} {Q : Extent → α → Prop} {c : Run α}
    (body : ∀ m, D.good i m → D.Keeps (D.inner i m) e Q c) : D.Keeps i e Q (inNewScope c) := by
  intro m inside good
  have pushed := D.push good
  rw [Run.holds_inNewScope]
  refine ⟨D.seen pushed, ((body m good).holds pushed inside).mono ?_ ?_⟩
  · rintro a m' ⟨grows, good', result⟩
    have popped := D.pop good grows good'
    exact ⟨D.seen popped, grows, popped, result⟩
  · rintro f m' ⟨grows, good', other⟩
    have popped := D.pop good grows good'
    exact ⟨D.seen popped, grows, popped, other⟩

/-! Calls and streams -/

/-- A call is counted while it runs, and the loops of its caller go on after it. -/
theorem inCall_meets {α : Type} {Q : Extent → α → Prop} {c : Run α} (loopSlots : Nat)
    (body : ∀ m, D.good i m → D.Keeps (D.callee i m) e Q c) :
    D.Keeps i e Q (inCall loopSlots c) := by
  intro m inside good
  rw [Run.holds_inCall]
  refine ⟨D.seen good, ?_⟩
  split
  · exact ⟨le_refl _, good, by simp⟩
  · next below =>
      obtain ⟨entering, entered⟩ := D.enter loopSlots good (Nat.lt_of_not_le below)
      refine ⟨entering, D.seen entered, ((body m good).holds entered inside).mono ?_ ?_⟩
      · rintro a m' ⟨grows, good', result⟩
        have left := D.leave good grows good'
        exact ⟨D.seen left, grows, left, result⟩
      · rintro f m' ⟨grows, good', other⟩
        have left := D.leave good grows good'
        exact ⟨D.seen left, grows, left, other⟩

theorem write_meets (text : String) : D.Keeps i e Any (Run.write text) := by
  intro m _ good
  rw [Run.write, Run.holds_bind, Run.holds_get]
  refine ⟨D.seen good, ?_⟩
  split
  · next o _ =>
      have final := D.streams m.stdin o good
      exact ⟨D.seen final, le_refl _, final, trivial⟩
  · exact ⟨le_refl _, good, by simp⟩

theorem readLine_meets : D.Keeps i e Any Run.readLine := by
  intro m _ good
  rw [Run.readLine, Run.holds_bind, Run.holds_get]
  refine ⟨D.seen good, ?_⟩
  split
  · exact ⟨le_refl _, good, trivial⟩
  · next rest _ =>
      have final := D.streams rest m.stdout good
      exact ⟨D.seen final, le_refl _, final, trivial⟩

end TreeScript.Discipline
