import TreeScript.Compile.Statement
import TreeScript.Proofs.Defaults.Begin
import TreeScript.Proofs.Discipline.Steps
import TreeScript.Proofs.Store.Filling

set_option autoImplicit false

/- How operands are taken up: a call binds copies of its arguments to its parameters before its
statements begin, and an array literal puts copies of its entries under their keys. -/
namespace TreeScript

open Code (Block Stmt)
open Store (Filling)

/-! Parameters -/

/-- A block whose first part ends normally goes on with the second. -/
theorem ends_append {user : UserCall} {frame : Frame} {first second : Block} {m : Machine}
    {P : Machine → Prop} {Q : Flow → Machine → Prop} {E : Fault → Machine → Prop}
    (before : Run.Ends (fun flow m => flow = .normal ∧ P m) E ((execBlock user frame first).run m))
    (after : ∀ m, P m → Run.Ends Q E ((execBlock user frame second).run m)) :
    Run.Ends Q E ((execBlock user frame (first ++ second)).run m) := by
  induction first generalizing m with
  | nil =>
      rw [execBlock] at before
      exact after m before.2
  | cons s rest ih =>
      rw [execBlock] at before
      rw [List.cons_append, execBlock]
      cases ran : (execStmt user frame s).run m with
      | error f m₁ =>
          rw [Run.run_bind_error ran] at before ⊢
          exact before
      | ok flow m₁ =>
          rw [Run.run_bind ran] at before ⊢
          cases flow with
          | normal => exact ih before
          | returned v => cases before.1

/-- A block of one statement ends as the statement does. -/
theorem run_single (user : UserCall) (frame : Frame) (s : Stmt) (m : Machine) :
    (execBlock user frame [s]).run m = (execStmt user frame s).run m := by
  rw [execBlock]
  cases ran : (execStmt user frame s).run m with
  | error f m' => rw [Run.run_bind_error ran]
  | ok flow m' =>
      rw [Run.run_bind ran]
      cases flow with
      | normal =>
          rw [execBlock]
          rfl
      | returned v => rfl

/-- The current scope is being filled from the store `st₀` on, and shows what is given. -/
def Machine.Entering (outer : List Scope) (st₀ : Store) (shown : List (String × Snapshot))
    (m : Machine) : Prop :=
  ∃ own scope, m.scopes = scope :: outer ∧ Filling own scope 0 st₀ m.store ∧
    m.store.shownIn scope = shown

/-- What is shown under other names than the given one is still shown. -/
def KeepsBut (name : String) (shown shown' : List (String × Snapshot)) : Prop :=
  ∀ other x, other ≠ name → Assoc.get? shown other = some x → Assoc.get? shown' other = some x

theorem get?_shownIn {κ : Type} [BEq κ] (st : Store) (entries : List (κ × SlotId)) (key : κ) :
    Assoc.get? (st.shownIn entries) key =
      (Assoc.get? entries key).map fun s => st.snapshot (st.read s) :=
  Assoc.get?_map entries (fun s => st.snapshot (st.read s)) key

/-- Declared names are added to the scope, and what it shows already it goes on to show. -/
theorem define_filling {st₀ : Store} (names : List String) {own : Handle → Prop} {scope : Scope}
    {st : Store} (filling : Filling own scope 0 st₀ st) :
    ∃ own', Filling own' (scope.define st names).1 0 st₀ (scope.define st names).2 ∧
      ∃ more, (scope.define st names).2.shownIn (scope.define st names).1 =
        st.shownIn scope ++ more := by
  induction names generalizing own scope st with
  | nil => exact ⟨own, filling, [], by simp [Scope.define]⟩
  | cons name rest ih =>
      rw [Scope.define]
      split
      · exact ih filling
      · next absent =>
          have none : Assoc.get? scope name = none := by
            simpa [Assoc.contains] using absent
          have plain : Filling own scope (Store.withArray 0 .null) st₀ st := filling
          obtain ⟨added, shows⟩ := plain.add (v := .null) (by simp [Value.handles]) name
          rw [Assoc.set_of_absent none] at added shows
          obtain ⟨own', final, more, shown⟩ := ih added
          refine ⟨own', final, (name, st.snapshot .null) :: more, ?_⟩
          have notShown : Assoc.get? (st.shownIn scope) name = Option.none := by
            rw [get?_shownIn, none]
            rfl
          rw [shown, shows, Assoc.set_of_absent notShown]
          simp

theorem run_defineVariables {m : Machine} {scope : Scope} {outer : List Scope}
    (isScope : m.scopes = scope :: outer) (names : List String) :
    (defineVariables names).run m = .ok ()
      { m with store := (scope.define m.store names).2
               scopes := (scope.define m.store names).1 :: outer } := by
  have current : currentScope.run m = .ok scope m := by
    rw [currentScope, Run.run_get_bind, isScope]
    rfl
  rw [defineVariables, Run.run_bind current]
  simp only [Run.update, setScope, modifyGet, MonadStateOf.modifyGet, modify, bind, Run.run,
    isScope, List.tail_cons]

theorem Machine.Entering.declare {outer : List Scope} {st₀ : Store}
    {shown : List (String × Snapshot)} {m : Machine} (entering : m.Entering outer st₀ shown)
    (names : List String) :
    ∃ m' more, (defineVariables names).run m = .ok () m' ∧ m'.Entering outer st₀ (shown ++ more) ∧
      ∀ name ∈ names, ∃ scope s, m'.scopes = scope :: outer ∧ Assoc.get? scope name = some s := by
  obtain ⟨own, scope, isScope, filling, shows⟩ := entering
  obtain ⟨own', final, more, shown'⟩ := define_filling names filling
  obtain ⟨added, same, listed, -, -, -⟩ := Discipline.define_spec names scope m.store
  refine ⟨_, more, run_defineVariables isScope names, ⟨own', _, rfl, final, shows ▸ shown'⟩, ?_⟩
  intro name member
  have there := (Assoc.contains_iff_mem_keys _ _).mpr (listed name member)
  obtain ⟨s, found⟩ := Option.isSome_iff_exists.mp there
  exact ⟨_, s, rfl, same ▸ found⟩

section entering

variable {outer : List Scope} {st₀ : Store} {shown : List (String × Snapshot)} {m : Machine}

/-- Binding a variable copies a value into its slot, or does not end. -/
theorem Machine.Entering.bind (entering : m.Entering outer st₀ shown) (closed : st₀.Closed)
    (held : List Handle) (name : String) {v : Value} (old : ∀ h ∈ v.handles, h.Within st₀.extent) :
    Run.Ends (fun _ m' => ∃ shown', m'.Entering outer st₀ shown' ∧
        Assoc.get? shown' name = some (st₀.snapshot v) ∧ KeepsBut name shown shown')
      (fun f _ => f = .endless) ((bindVariable held name v).run m) := by
  obtain ⟨m₁, more, declared, ⟨own, scope, isScope, filling, shows⟩, found⟩ :=
    entering.declare [name]
  obtain ⟨scope', s, isScope', isSlot⟩ := found name List.mem_cons_self
  obtain rfl : scope = scope' := (List.cons.inj (isScope.symm.trans isScope')).1
  have slot : (defineVariable name).run m = .ok s m₁ := by
    have current : currentScope.run m₁ = .ok scope m₁ := by
      rw [currentScope, Run.run_get_bind, isScope]
      rfl
    rw [defineVariable, Run.run_bind declared, Run.run_bind current, isSlot]
    rfl
  rw [bindVariable, Run.run_bind slot]
  cases copied : m₁.store.copy (m₁.roots ++ v.handles ++ held) v with
  | none =>
      rw [Run.run_bind_error (Run.run_copyValue_none copied)]
      rfl
  | some result =>
      obtain ⟨v', st⟩ := result
      rw [Run.run_bind (Run.run_copyValue copied)]
      obtain ⟨filled, known, same, still⟩ := filling.copy closed old copied
      obtain ⟨final, written⟩ := filled.write known isSlot
      refine ⟨_, ⟨own, scope, isScope, final, written⟩, ?_, fun other x different there => ?_⟩
      · rw [Assoc.get?_set_self, same]
      · rw [Assoc.get?_set_of_ne _ _ _ _ different, still, shows]
        exact Assoc.get?_append_of_some there more

/-- The arguments are bound one after the other, each to its parameter. -/
theorem Machine.Entering.bindAll (user : UserCall) {frame : Frame}
    (entering : m.Entering outer st₀ shown) (closed : st₀.Closed)
    (old : ∀ v ∈ frame.arguments, ∀ h ∈ v.handles, h.Within st₀.extent)
    (parameters : List String) (distinct : parameters.Nodup) (offset : Nat) :
    Run.Ends (fun flow m' => flow = .normal ∧ ∃ shown', m'.Entering outer st₀ shown' ∧
        (∀ i name, parameters[i]? = some name → Assoc.get? shown' name =
          some (st₀.snapshot (frame.arguments[offset + i]?.getD .null))) ∧
        ∀ name x, name ∉ parameters → Assoc.get? shown name = some x →
          Assoc.get? shown' name = some x)
      (fun f _ => f = .endless)
      ((execBlock user frame
        (parameters.mapIdx fun i name => .bindArgument name (offset + i))).run m) := by
  induction parameters generalizing m shown offset with
  | nil =>
      rw [List.mapIdx_nil, execBlock]
      exact ⟨rfl, shown, entering, by simp, fun _ _ _ there => there⟩
  | cons name rest ih =>
      obtain ⟨apart, distinctRest⟩ := List.nodup_cons.mp distinct
      have value : ∀ h ∈ (frame.arguments[offset]?.getD .null).handles, h.Within st₀.extent := by
        cases isArgument : frame.arguments[offset]? with
        | none => simp [Value.handles]
        | some v => exact old v (List.mem_of_getElem? isArgument)
      have shifted : (name :: rest).mapIdx (fun i name => Stmt.bindArgument name (offset + i)) =
          [.bindArgument name offset] ++
            rest.mapIdx fun i name => .bindArgument name (offset + 1 + i) := by
        simp only [List.mapIdx_cons, Nat.add_zero, List.singleton_append, Nat.add_assoc,
          Nat.add_comm 1]
      rw [shifted]
      have first : Run.Ends (fun flow m₁ => flow = .normal ∧ ∃ shown₁,
            m₁.Entering outer st₀ shown₁ ∧
            Assoc.get? shown₁ name = some (st₀.snapshot (frame.arguments[offset]?.getD .null)) ∧
            KeepsBut name shown shown₁) (fun f _ => f = .endless)
          ((execBlock user frame [.bindArgument name offset]).run m) := by
        rw [run_single, execStmt]
        exact (entering.bind closed frame.held name value).bind fun _ _ bound => ⟨rfl, bound⟩
      refine ends_append first ?_
      rintro m₁ ⟨shown₁, entering₁, here, kept⟩
      refine (ih entering₁ distinctRest (offset + 1)).mono ?_ fun _ _ failed => failed
      rintro flow m₂ ⟨normal, shown₂, entering₂, each, others⟩
      refine ⟨normal, shown₂, entering₂, fun i parameter listed => ?_, fun other x absent there => ?_⟩
      · cases i with
        | zero =>
            obtain rfl : name = parameter := by simpa using listed
            exact others name _ apart here
        | succ i =>
            have there := each i parameter (by simpa using listed)
            rwa [Nat.add_assoc, Nat.add_comm 1 i] at there
      · obtain ⟨notThis, notRest⟩ := not_or.mp fun either => absent (List.mem_cons.mpr either)
        exact others other x notRest (kept other x notThis there)

end entering

/-- What a call does before its statements: its locals are declared, and the receiver of a method
and the arguments are bound. -/
def Code.prologue (locals parameters : List String) (isMethod : Bool) : Block :=
  Code.declarations locals ++ (if isMethod then [.bindThis] else []) ++
    parameters.mapIdx fun index name => .bindArgument name index

/-- The scope of a call in which the parameters show what the arguments show at its beginning. -/
def Machine.Binds (before : Machine) (parameters : List String) (arguments : List Value)
    (m : Machine) : Prop :=
  ∃ scope, m.scopes = scope :: before.scopes ∧ ∀ (i : Nat) name, parameters[i]? = some name →
    ∃ s, Assoc.get? scope name = some s ∧ m.store.snapshot (m.store.read s) =
      before.store.snapshot (arguments[i]?.getD .null)

/-- The machine on which the body of a function begins. -/
def Machine.called (m : Machine) (loopSlots : Nat) : Machine :=
  { m with callDepth := m.callDepth + 1, loops := List.replicate loopSlots none,
           scopes := [] :: m.scopes }

/-- Unless a copy does not end, a call comes to its statements with every parameter bound. -/
theorem prologue_binds (user : UserCall) {frame : Frame} {m : Machine} (owned : m.store.Owned 0)
    (old : ∀ v ∈ frame.arguments, ∀ h ∈ v.handles, h.Within m.store.extent)
    (oldReceiver : ∀ v ∈ frame.receiver, ∀ h ∈ v.handles, h.Within m.store.extent)
    (locals : List String) {parameters : List String} (distinct : parameters.Nodup)
    (isMethod : Bool) (loopSlots : Nat) :
    Run.Ends (fun flow m' => flow = .normal ∧ m.Binds parameters frame.arguments m')
      (fun f _ => f = .endless)
      ((execBlock user frame (Code.prologue locals parameters isMethod)).run
        (m.called loopSlots)) := by
  have start : (m.called loopSlots).Entering m.scopes m.store [] :=
    ⟨_, [], rfl, .start owned, rfl⟩
  rw [Code.prologue]
  refine ends_append (P := fun m₁ => ∃ shown, m₁.Entering m.scopes m.store shown)
    (ends_append (P := fun m₁ => ∃ shown, m₁.Entering m.scopes m.store shown) ?_ ?_) ?_
  · rw [Code.declarations]
    split
    · rw [execBlock]
      exact ⟨rfl, [], start⟩
    · obtain ⟨m₁, more, ran, entering, -⟩ := start.declare locals
      rw [run_single, execStmt, Run.run_bind ran]
      exact ⟨rfl, _, entering⟩
  · rintro m₁ ⟨shown, entering⟩
    cases isMethod with
    | false =>
        rw [if_neg Bool.false_ne_true, execBlock]
        exact ⟨rfl, shown, entering⟩
    | true =>
        have value : ∀ h ∈ (frame.receiver.getD .null).handles, h.Within m.store.extent := by
          cases isReceiver : frame.receiver with
          | none => simp [Value.handles]
          | some v => exact oldReceiver v isReceiver
        rw [if_pos rfl, run_single, execStmt]
        exact (entering.bind owned.closed frame.held "this" value).bind
          fun _ _ bound => ⟨rfl, bound.imp fun _ found => found.1⟩
  · rintro m₁ ⟨shown, entering⟩
    have bound := entering.bindAll user owned.closed old parameters distinct 0
    simp only [Nat.zero_add] at bound
    refine bound.mono ?_ fun _ _ failed => failed
    rintro flow m₂ ⟨normal, shown₂, ⟨own, scope, isScope, filling, shows⟩, each, -⟩
    refine ⟨normal, scope, isScope, fun i name listed => ?_⟩
    have here := each i name listed
    rw [← shows, get?_shownIn] at here
    exact Option.map_eq_some_iff.mp here

/-- How a call ends whose statements end so. -/
def Machine.returning (m : Machine) :
    EStateM.Result Fault Machine Flow → EStateM.Result Fault Machine Value
  | .ok .normal n => .ok .null (back n)
  | .ok (.returned v) n => .ok v (back n)
  | .error f n => .error f (back n)
where
  back (n : Machine) : Machine :=
    { n with scopes := n.scopes.tail, callDepth := n.callDepth - 1, loops := m.loops }

/-- Where the first part of a block has ended, the second goes on. -/
theorem run_append {user : UserCall} {frame : Frame} {first : Block} {m n : Machine}
    (ended : (execBlock user frame first).run m = .ok .normal n) (second : Block) :
    (execBlock user frame (first ++ second)).run m = (execBlock user frame second).run n := by
  have same : Run.Ends (fun flow m' => (execBlock user frame second).run n = .ok flow m')
      (fun f m' => (execBlock user frame second).run n = .error f m')
      ((execBlock user frame (first ++ second)).run m) := by
    apply ends_append (P := (· = n))
    · rw [ended]
      exact ⟨rfl, rfl⟩
    · rintro m' rfl
      cases (execBlock user frame second).run m' with
      | ok flow m'' => rfl
      | error f m'' => rfl
  cases ran : (execBlock user frame (first ++ second)).run m with
  | ok flow m' =>
      rw [ran] at same
      exact same.symm
  | error f m' =>
      rw [ran] at same
      exact same.symm

/-- A call that is not refused runs what readies the body of the function, then its statements. -/
theorem run_assembled (levels : Nat) {called : Frame} {m : Machine} (name : String)
    (parameters : List String) (isMethod : Bool) (statements : Block) (context : Compile.Context)
    (below : m.callDepth < m.callLimit) :
    (invoke (levels + 1)
        (Compile.assembleFunction name parameters isMethod statements context) called).run m =
      m.returning ((execBlock (invoke levels) called
        (Code.prologue context.locals parameters isMethod ++ statements)).run
          (m.called context.loops)) := by
  have body : (execBlock (invoke levels) called
      [.scoped (Code.prologue context.locals parameters isMethod ++ statements)]).run
        { m with callDepth := m.callDepth + 1, loops := List.replicate context.loops none } =
      Run.after (fun m => { m with scopes := m.scopes.tail })
        ((execBlock (invoke levels) called
          (Code.prologue context.locals parameters isMethod ++ statements)).run
            (m.called context.loops)) := by
    rw [run_single, execStmt, Run.run_inNewScope]
    rfl
  rw [invoke, Run.run_inCall, if_neg (Nat.not_le.mpr below)]
  cases ran : (execBlock (invoke levels) called
      (Code.prologue context.locals parameters isMethod ++ statements)).run
        (m.called context.loops) with
  | error f n =>
      rw [ran] at body
      exact congrArg _ (Run.run_bind_error body)
  | ok flow n =>
      rw [ran] at body
      cases flow with
      | normal => exact congrArg _ (Run.run_bind body)
      | returned v => exact congrArg _ (Run.run_bind body)

/-- Where what readies the body has ended, such a call goes on with the statements. -/
theorem run_invoke {levels : Nat} {called : Frame} {m n : Machine} (name : String)
    (parameters : List String) (isMethod : Bool) (statements : Block) (context : Compile.Context)
    (entered : (execBlock (invoke levels) called
      (Code.prologue context.locals parameters isMethod)).run (m.called context.loops) =
        .ok .normal n) (below : m.callDepth < m.callLimit) :
    (invoke (levels + 1)
        (Compile.assembleFunction name parameters isMethod statements context) called).run m =
      m.returning ((execBlock (invoke levels) called statements).run n) := by
  rw [run_assembled levels name parameters isMethod statements context below,
    run_append entered statements]

/-! Literals -/

/-- The next index of an array that takes up a key. -/
def nextAfter (next : Int64) (key : Key) : Int64 := (ArrayData.trackKey ⟨[], next, 0⟩ key).nextIndex

/-- What a literal shows after more entries: one with a key goes under it, in the place of what is
there, and one without goes under the next index. -/
def literalShown : List (Key × Snapshot) → Int64 → List (Option Key × Snapshot) →
    List (Key × Snapshot)
  | shown, _, [] => shown
  | shown, next, (none, x) :: rest =>
      literalShown (Assoc.set shown (.integer next) x) (nextAfter next (.integer next)) rest
  | shown, next, (some key, x) :: rest =>
      literalShown (Assoc.set shown key x)
        (if Assoc.contains shown key then next else nextAfter next key) rest

/-- A new array is being filled from the store `st₀` on: what it shows, and its next index. -/
def Store.Literal (st₀ : Store) (a : ArrayId) (loose : Multiset ArrayId)
    (shown : List (Key × Snapshot)) (next : Int64) (st : Store) : Prop :=
  ∃ own, own (.array a) ∧ Filling own (st.array a).elements loose st₀ st ∧
    st.shownIn (st.array a).elements = shown ∧ (st.array a).nextIndex = next

theorem nextIndex_bind (data : ArrayData) (key : Key) (s : SlotId) :
    (data.bind key s).nextIndex = nextAfter data.nextIndex key := by
  cases key with
  | integer n =>
      simp only [ArrayData.bind, nextAfter, ArrayData.trackKey]
      split <;> rfl
  | string text => rfl

theorem elements_bind (data : ArrayData) (key : Key) (s : SlotId) :
    (data.bind key s).elements = Assoc.set data.elements key s := rfl

section literal

variable {st₀ st : Store} {a : ArrayId} {loose : Multiset ArrayId} {v : Value}
  {own : Handle → Prop}

/-- A new element. -/
theorem literal_bind (ours : own (.array a))
    (filling : Filling own (st.array a).elements (Store.withArray loose v) st₀ st)
    (known : ∀ h ∈ v.handles, Store.Outside own st h) (key : Key) :
    st₀.Literal a loose (Assoc.set (st.shownIn (st.array a).elements) key (st.snapshot v))
      (nextAfter (st.array a).nextIndex key)
      ((st.newSlot v).2.bindElement a key (st.newSlot v).1) := by
  obtain ⟨added, shows⟩ := filling.add known key
  have inside : a.index < (st.newSlot v).2.arrays.size := filling.inside _ ours
  have bound : (((st.newSlot v).2.bindElement a key (st.newSlot v).1).array a) =
      (st.array a).bind key (st.newSlot v).1 := by
    rw [Store.bindElement, Store.array_setArray_self _ _ _ inside, Store.array_newSlot]
  have taken : ∀ h ∈ ((st.array a).bind key (st.newSlot v).1).handles,
      own h ∨ h = .slot (st.newSlot v).1 := by
    intro h member
    obtain ⟨entry, listed, rfl⟩ := List.mem_map.mp member
    exact added.slots entry listed
  obtain ⟨final, still⟩ := added.setArray (.inl ours) taken (Store.keys_bind _ key _)
  refine ⟨fun h => own h ∨ h = .slot (st.newSlot v).1, .inl ours, ?_, ?_, ?_⟩
  · rw [bound, elements_bind]
    exact final
  · rw [bound, elements_bind, ← shows]
    exact still
  · rw [bound, nextIndex_bind]

/-- An entry that is put where its key leads, or at the end. -/
theorem literal_put (ours : own (.array a))
    (filling : Filling own (st.array a).elements (Store.withArray loose v) st₀ st)
    (known : ∀ h ∈ v.handles, Store.Outside own st h) :
    st₀.Literal a loose
        (Assoc.set (st.shownIn (st.array a).elements) (.integer (st.array a).nextIndex)
          (st.snapshot v))
        (nextAfter (st.array a).nextIndex (.integer (st.array a).nextIndex))
        (st.put (.append a) v) ∧
      ∀ key, st₀.Literal a loose
        (Assoc.set (st.shownIn (st.array a).elements) key (st.snapshot v))
        (if Assoc.contains (st.shownIn (st.array a).elements) key then (st.array a).nextIndex
          else nextAfter (st.array a).nextIndex key)
        (st.put (.element a key) v) := by
  refine ⟨literal_bind ours filling known _, fun key => ?_⟩
  have sameKeys : Assoc.contains (st.shownIn (st.array a).elements) key =
      ((st.array a).slot? key).isSome := by
    rw [Assoc.contains, get?_shownIn, Option.isSome_map, ArrayData.slot?]
  rw [sameKeys, Store.put, Store.insertElement]
  cases found : (st.array a).slot? key with
  | some s =>
      obtain ⟨final, shows⟩ := filling.write known found
      exact ⟨own, ours, final, shows, rfl⟩
  | none => exact literal_bind ours filling known key

end literal

/-- An entry by the key it has, if any, and what it shows. -/
def entryShown (st : Store) (entry : Option Value × Value) : Option Key × Snapshot :=
  (entry.1.bind Key.ofValue, st.snapshot entry.2)

/-- The entries of a literal are put in one after the other, unless a copy does not end or a key is
none. -/
theorem fillArray_shows {st₀ : Store} (closed : st₀.Closed) {a : ArrayId} (held : List Handle)
    (entries : List (Option Value × Value))
    (old : ∀ entry ∈ entries, ∀ h ∈ entry.2.handles, h.Within st₀.extent) {m : Machine}
    {shown : List (Key × Snapshot)} {next : Int64}
    (literal : st₀.Literal a 0 shown next m.store) :
    Run.Ends (fun _ m' => ∃ next', st₀.Literal a 0
        (literalShown shown next (entries.map (entryShown st₀))) next' m'.store)
      (fun f _ => f = .endless ∨ f = .script .illegalOffset) ((fillArray held a entries).run m) := by
  induction entries generalizing m shown next with
  | nil => exact ⟨next, literal⟩
  | cons entry rest ih =>
      obtain ⟨key, v⟩ := entry
      obtain ⟨oldHere, oldRest⟩ := List.forall_mem_cons.mp old
      obtain ⟨own, ours, filling, rfl, rfl⟩ := literal
      rw [fillArray]
      -- the spot is found first, and leaves the machine as it is
      have found : Run.Ends (fun spot m' => m' = m ∧
            (key = none ∧ spot = .append a ∨ ∃ k, key.bind Key.ofValue = some k ∧
              spot = .element a k))
          (fun f _ => f = .endless ∨ f = .script .illegalOffset) ((entrySpot a key).run m) := by
        cases key with
        | none => exact ⟨rfl, .inl ⟨rfl, rfl⟩⟩
        | some k =>
            rw [entrySpot]
            cases isKey : Key.ofValue k with
            | none => exact .inr rfl
            | some k' => exact ⟨rfl, .inr ⟨k', isKey, rfl⟩⟩
      refine found.bind ?_
      rintro spot m' ⟨rfl, isSpot⟩
      refine ((Run.ends_copyValue _ v m').mono (fun _ _ copied => copied)
        fun _ _ endless => .inl endless).bind ?_
      rintro v' _ ⟨roots, st, copied, rfl⟩
      obtain ⟨filled, known, same, still⟩ := filling.copy closed oldHere copied
      have data : st.array a = m'.store.array a :=
        (Store.copy_extends copied).arrays a (filling.inside _ ours)
      rw [← data] at filled still
      obtain ⟨appended, put⟩ := literal_put ours filled known
      rw [still, same, data] at appended put
      refine Run.Ends.bind (Q := fun _ m₁ => m₁.store = st.put spot v') rfl ?_
      intro _ m₁ isPut
      rcases isSpot with ⟨rfl, rfl⟩ | ⟨k, isKey, rfl⟩
      · exact ih oldRest (isPut ▸ appended)
      · have entryKey : entryShown st₀ (key, v) = (some k, st₀.snapshot v) := by
          simp only [entryShown, isKey]
        rw [List.map_cons, entryKey]
        exact ih oldRest (isPut ▸ put k)

/-- A literal shows what its entries show once they are all evaluated. -/
theorem arrayOf_shows {m : Machine} (owned : m.store.Owned 0) (held : List Handle)
    (entries : List (Option Value × Value))
    (old : ∀ entry ∈ entries, ∀ h ∈ entry.2.handles, h.Within m.store.extent) :
    Run.Ends (fun v m' => ∃ a, v = .array a ∧ m'.store.shownIn (m'.store.array a).elements =
        literalShown [] 0 (entries.map (entryShown m.store)))
      (fun f _ => f = .endless ∨ f = .script .illegalOffset) ((arrayOf held entries).run m) := by
  have fresh := Store.fresh_newArray m.store .empty
  have ext := Store.extends_newArray m.store .empty
  have start : m.store.Literal (m.store.newArray .empty).1 0 [] 0
      (m.store.newArray .empty).2 := by
    refine ⟨(· = .array (m.store.newArray .empty).1), rfl, ?_, ?_, ?_⟩
    · rw [Store.array_newArray_self]
      refine ⟨ext, (owned.newArray (by simp [ArrayData.handles, ArrayData.empty])).settled,
        fun h ours => ours ▸ fresh.2, fun h ours => ours ▸ fresh.1, fun g outside h member => ?_,
        by simp [ArrayData.empty], by simp [ArrayData.empty], .nil⟩
      have before : g.Within m.store.extent := by
        by_contra later
        exact outside.2 (Store.Filling.eq_of_fresh_newArray ⟨later, outside.1⟩)
      rw [ext.holds before] at member
      exact fun ours => fresh.1 (ours ▸ owned.closed g before h member)
    · rw [Store.array_newArray_self]
      rfl
    · rw [Store.array_newArray_self]
      rfl
  rw [arrayOf]
  refine Run.Ends.bind (Q := fun a m₁ => a = (m.store.newArray .empty).1 ∧
    m₁.store = (m.store.newArray .empty).2) ⟨rfl, rfl⟩ ?_
  rintro a m₁ ⟨rfl, isStore⟩
  refine (fillArray_shows owned.closed held entries old (isStore ▸ start)).bind ?_
  rintro _ m₂ ⟨next, own, ours, filling, shows, -⟩
  exact ⟨_, rfl, shows⟩

end TreeScript
