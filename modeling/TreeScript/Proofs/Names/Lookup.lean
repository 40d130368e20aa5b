import TreeScript.Proofs.Keys
import TreeScript.Proofs.Names.Declarations

set_option autoImplicit false

/- What a bare word leads to: as the callee of a call the function that the namespace has under the
name, as a method that of the class, and as a property of a new object the default of the class. -/
namespace TreeScript

open Code (Expr Function Stmt)
open Compile (Context CompiledFrom block values valueOf bareWord)
open Node (parameter)

/-! What it is to be found -/

/-- The end of a call is that of the declared body, run with the frame from the machine on: what
readies the body comes first, then its statements. -/
def RunsBody (parameters statements : List Node) (isMethod : Bool) (levels : Nat) (called : Frame)
    (m : Machine) (ended : EStateM.Result Fault Machine Value) : Prop :=
  ∃ body context,
    block statements (.ofParameters (parameters.map parameter)) = .ok (body, context) ∧
      ended = m.returning ((execBlock (invoke levels) called
        (Code.prologue context.locals (parameters.map parameter) isMethod ++ body)).run
          (m.called context.loops))

/-- On the machine, a call of the bare word runs the declared body. -/
def CallRuns (name : String) (parameters statements : List Node) (m : Machine) : Prop :=
  ∀ arguments c e c', valueOf (.functionCall (.string name) arguments) c = .ok (e, c') →
    ∃ passed, values arguments c = .ok (passed, c') ∧
      ∀ levels frame vs m', (evalExprs (invoke (levels + 1)) frame passed).run m = .ok vs m' →
        m'.callDepth < m'.callLimit →
          RunsBody parameters statements false levels (frame.forCall none vs) m'
            ((evalExpr (invoke (levels + 1)) frame e).run m)

/-- On the machine, a call of the bare word as a method of an object of the class runs the declared
body, with the object as its receiver. -/
def MethodRuns (name : String) (parameters statements : List Node) (id : ClassId) (m : Machine) :
    Prop :=
  ∀ object arguments c e c',
    valueOf (.methodCall object [⟨.string name, arguments⟩]) c = .ok (e, c') →
      ∃ receiver c₁ passed, valueOf object c = .ok (receiver, c₁) ∧
        values arguments c₁ = .ok (passed, c') ∧
        ∀ levels frame o vs m₁ m₂,
          (evalExpr (invoke (levels + 1)) frame receiver).run m = .ok (.object o) m₁ →
          m₁.store.kind? o = some id →
          (evalExprs (invoke (levels + 1)) (frame.holding [.object o]) passed).run m₁ = .ok vs m₂ →
          m₂.callDepth < m₂.callLimit →
            RunsBody parameters statements true levels (frame.forCall (some (.object o)) vs) m₂
              ((evalExpr (invoke (levels + 1)) frame e).run m)

/-- On the machine, the bare word reads the value as a property of a new object of the class. -/
def PropertyReads (name : String) (v : Value) (id : ClassId) (m : Machine) : Prop :=
  ∀ className arguments reference c e c',
    valueOf (.objectProperty (.newExpression className arguments) [.string name] reference) c =
        .ok (e, c') →
      ∃ made, valueOf (.newExpression className arguments) c = .ok (made, c') ∧
        ∀ levels frame o m',
          (evalExpr (invoke levels) frame made).run m = .ok (.object o) m' →
          m'.store.kind? o = some id → (evalExpr (invoke levels) frame e).run m = .ok v m'

/-! What leads to it -/

theorem runsBody_function {name : String} {parameters statements : List Node} {f : Function Stmt}
    (compiled : CompiledFrom (.functionStatement name parameters statements) ⟨false, f⟩)
    (levels : Nat) (called : Frame) {m : Machine} (below : m.callDepth < m.callLimit) :
    RunsBody parameters statements false levels called m ((invoke (levels + 1) f called).run m) := by
  cases compiled with
  | @function _ _ body context _ compiled =>
      exact ⟨body, context, compiled, run_assembled levels name _ false body context below⟩

theorem runsBody_method {name : String} {parameters statements : List Node} {f : Function Stmt}
    (compiled : CompiledFrom (.methodDefinition (.string name) parameters statements) ⟨true, f⟩)
    (levels : Nat) (called : Frame) {m : Machine} (below : m.callDepth < m.callLimit) :
    RunsBody parameters statements true levels called m ((invoke (levels + 1) f called).run m) := by
  cases compiled with
  | @method _ _ body context _ compiled =>
      exact ⟨body, context, compiled, run_assembled levels name _ true body context below⟩

theorem valueOf_bareWord {name : String} (notNull : name ≠ "null") :
    valueOf (.string name) = pure (.string name) := by
  have word : bareWord name = .string name := by
    rw [bareWord, beq_false_of_ne notNull]
    rfl
  rw [← word, valueOf, Compile.fragment]
  rfl

section compiled

variable {name : String} {arguments : List Node} {c c' : Context} {e : Expr}

theorem valueOf_call (notNull : name ≠ "null")
    (compiled : valueOf (.functionCall (.string name) arguments) c = .ok (e, c')) :
    ∃ passed, values arguments c = .ok (passed, c') ∧ e = .call (.string name) passed := by
  have word := valueOf_bareWord notNull
  rw [valueOf] at word
  rw [valueOf, Compile.fragment, word] at compiled
  obtain ⟨_, _, inner, compiled⟩ := Compile.bind_eq_ok.mp compiled
  cases compiled
  obtain ⟨_, _, called, inner⟩ := Compile.bind_eq_ok.mp inner
  cases called
  obtain ⟨passed, _, given, inner⟩ := Compile.bind_eq_ok.mp inner
  cases inner
  exact ⟨passed, given, rfl⟩

theorem valueOf_methodCall {object : Node} (notNull : name ≠ "null")
    (compiled : valueOf (.methodCall object [⟨.string name, arguments⟩]) c = .ok (e, c')) :
    ∃ receiver c₁ passed, valueOf object c = .ok (receiver, c₁) ∧
      values arguments c₁ = .ok (passed, c') ∧
      e = .callMethod receiver (.string name) passed := by
  have word := valueOf_bareWord notNull
  rw [valueOf] at word
  rw [valueOf, Compile.fragment] at compiled
  obtain ⟨_, _, inner, compiled⟩ := Compile.bind_eq_ok.mp compiled
  cases compiled
  obtain ⟨receiver, c₁, object, inner⟩ := Compile.bind_eq_ok.mp inner
  rw [Compile.methodCalls, word] at inner
  obtain ⟨_, _, chain, inner⟩ := Compile.bind_eq_ok.mp inner
  cases inner
  obtain ⟨_, _, called, chain⟩ := Compile.bind_eq_ok.mp chain
  cases called
  obtain ⟨passed, _, given, chain⟩ := Compile.bind_eq_ok.mp chain
  cases chain
  exact ⟨receiver, c₁, passed, object, given, rfl⟩

theorem valueOf_property {object : Node} {reference : Bool} (notNull : name ≠ "null")
    (compiled : valueOf (.objectProperty object [.string name] reference) c = .ok (e, c')) :
    ∃ container, valueOf object c = .ok (container, c') ∧
      e = .load (.element (.value container) (some (.string name))) := by
  have key : Compile.asValue (Compile.fragment .location (.string name)) = pure (.string name) := by
    rw [← valueOf_bareWord notNull, valueOf, Compile.fragment, Compile.fragment]
  rw [valueOf, Compile.fragment] at compiled
  obtain ⟨access, _, inner, compiled⟩ := Compile.bind_eq_ok.mp compiled
  cases compiled
  obtain ⟨_, _, supported, inner⟩ := Compile.bind_eq_ok.mp inner
  cases supported
  obtain ⟨base, c₁, object, inner⟩ := Compile.bind_eq_ok.mp inner
  obtain ⟨keys, c₂, keyed, inner⟩ := Compile.bind_eq_ok.mp inner
  rw [Compile.propertyKeys, key] at keyed
  cases keyed
  cases inner
  refine ⟨base.toExpr, ?_, rfl⟩
  exact Compile.bind_eq_ok.mpr ⟨base, _, object, rfl⟩

end compiled

theorem run_findFunction {m : Machine} {name : String} {f : Callable}
    (named : m.names.function? name = some f) : (findFunction name).run m = .ok f m := by
  rw [findFunction, Run.run_get_bind, named]
  rfl

/-- A function that the namespace has under the name is the one that is called. -/
theorem callRuns_of_named {name : String} (notNull : name ≠ "null")
    {parameters statements : List Node} {f : Function Stmt} {m : Machine}
    (compiled : CompiledFrom (.functionStatement name parameters statements) ⟨false, f⟩)
    (named : m.names.function? name = some (.user f)) : CallRuns name parameters statements m := by
  intro arguments c e c' call
  obtain ⟨passed, given, rfl⟩ := valueOf_call notNull call
  refine ⟨passed, given, fun levels frame vs m' evaluated below => ?_⟩
  have called : (evalExpr (invoke (levels + 1)) frame (.call (.string name) passed)).run m =
      (invoke (levels + 1) f (frame.forCall none vs)).run m' := by
    have word : (evalExpr (invoke (levels + 1)) frame (.string name)).run m =
        .ok (.string name) m := by
      rw [evalExpr]
      rfl
    have text : (Run.inspect (·.toText (.string name))).run m = .ok name m := rfl
    rw [evalExpr, Run.run_bind word, Run.run_bind text, Run.run_bind (run_findFunction named),
      Run.run_bind evaluated]
    rfl
  rw [called]
  exact runsBody_function compiled levels _ below

/-- A method that the class has under the name is the one that is called. -/
theorem methodRuns_of_class {name : String} (notNull : name ≠ "null")
    {parameters statements : List Node} {f : Function Stmt} {id : ClassId} {data : ClassData}
    {m : Machine} (scopes : m.scopes ≠ []) (found : m.store.classes[id.index]? = some data)
    (compiled : CompiledFrom (.methodDefinition (.string name) parameters statements) ⟨true, f⟩)
    (named : data.method? name = some (.user f)) :
    MethodRuns name parameters statements id m := by
  intro object arguments c e c' call
  obtain ⟨receiver, c₁, passed, isObject, given, rfl⟩ := valueOf_methodCall notNull call
  refine ⟨receiver, c₁, passed, isObject, given, ?_⟩
  intro levels frame o vs m₁ m₂ received isKind evaluated below
  have later₁ := (Pledge.later_empty scopes).expr (Run.reaches_end received)
  have later₂ : Pledge.empty.Later m₁ m₂ :=
    later₁.here.exprs (Run.reaches_end evaluated)
  have isClass : m₂.store.classData (m₂.store.object o).classId = data := by
    rw [Store.classId_of_kind (later₂.retains.kinds o id isKind)]
    exact Store.classData_of_found
      ((later₁.retains.trans later₂.retains).classes id.index data found)
  have called : (evalExpr (invoke (levels + 1)) frame
      (.callMethod receiver (.string name) passed)).run m =
        (invoke (levels + 1) f (frame.forCall (some (.object o)) vs)).run m₂ := by
    have word : (evalExpr (invoke (levels + 1)) (frame.holding [.object o]) (.string name)).run m₁ =
        .ok (.string name) m₁ := by
      rw [evalExpr]
      rfl
    have text : (Run.inspect (·.toText (.string name))).run m₁ = .ok name m₁ := rfl
    have looked : (Run.inspect fun st => st.classData (st.object o).classId).run m₂ =
        .ok data m₂ := by
      rw [← isClass]
      rfl
    rw [evalExpr, Run.run_bind received]
    simp only [Value.handles]
    rw [Run.run_bind word, Run.run_bind text, Run.run_bind evaluated]
    simp only [callMethod]
    rw [Run.run_bind looked, named]
    rfl
  rw [called]
  exact runsBody_method compiled levels _ below

/-! New objects -/

/-- An object is made by copying the defaults of the class that has the name, and then constructed. -/
theorem instantiate_ok {user : UserCall} {className : String} {arguments : List Value}
    {frame : Frame} {m m' : Machine} {v : Value}
    (made : (instantiate user className arguments frame).run m = .ok v m') :
    ∃ id held properties m₁,
      (newProperties held (m.store.classData id).properties).run m = .ok properties m₁ ∧
      (construct user (m.store.classData id) (.object (m₁.store.newObject ⟨id, properties⟩).1)
        (frame.forCall (some (.object (m₁.store.newObject ⟨id, properties⟩).1)) arguments)).run
          { m₁ with store := (m₁.store.newObject ⟨id, properties⟩).2 } = .ok v m' := by
  rw [instantiate] at made
  obtain ⟨id, m₂, named, later⟩ := Run.of_run_bind made
  have unchanged : m₂ = m := by
    rw [findClass, Run.run_get_bind] at named
    cases isNamed : m.names.class? className with
    | none =>
        rw [isNamed] at named
        cases named
    | some c =>
        rw [isNamed] at named
        cases named
        rfl
  rw [unchanged] at later
  obtain ⟨_, _, looked, later⟩ := Run.of_run_bind later
  cases looked
  obtain ⟨properties, m₁, copied, later⟩ := Run.of_run_bind later
  obtain ⟨_, _, added, later⟩ := Run.of_run_bind later
  cases added
  exact ⟨id, _, properties, m₁, copied, later⟩

/-- The copies of the defaults add to the store, and that of a plain one holds the same value. -/
theorem newProperties_ok {held : List Handle} {defaults : List (String × Value)} {m m' : Machine}
    {properties : List (String × SlotId)}
    (ran : (newProperties held defaults).run m = .ok properties m') :
    Store.Extends m.store m'.store ∧ m'.scopes = m.scopes ∧
      ∀ name v, Assoc.get? defaults name = some v → v.handles = [] →
        ∃ s, Assoc.get? properties name = some s ∧ m'.store.read s = v := by
  induction defaults generalizing held m properties with
  | nil =>
      cases ran
      exact ⟨.refl _, rfl, nofun⟩
  | cons default rest ih =>
      obtain ⟨key, w⟩ := default
      rw [newProperties] at ran
      obtain ⟨copy, m₁, copied, ran⟩ := Run.of_run_bind ran
      obtain ⟨st, done, rfl⟩ := Run.of_run_copyValue copied
      have added : (Run.update (·.newSlot copy)).run { m with store := st } =
          .ok (st.newSlot copy).1 { m with store := (st.newSlot copy).2 } := rfl
      rw [Run.run_bind added] at ran
      obtain ⟨more, m₂, later, ran⟩ := Run.of_run_bind ran
      cases ran
      obtain ⟨ext, scopes, plain⟩ := ih later
      have slot := (Store.fresh_newSlot st copy).2
      refine ⟨(Store.copy_extends done).trans ((Store.extends_newSlot st copy).trans ext), scopes,
        fun name v found bare => ?_⟩
      by_cases same : name = key
      · subst same
        obtain rfl : w = v :=
          Option.some.inj ((Assoc.get?_cons_self rest name w).symm.trans found)
        have notArray : ∀ a, w ≠ .array a := by
          rintro a rfl
          cases bare
        have bareCopy : copy = w := by
          rw [Store.copy_plain notArray] at done
          cases done
          rfl
        refine ⟨(st.newSlot copy).1, Assoc.get?_cons_self _ _ _, ?_⟩
        rw [ext.slots _ slot, ← bareCopy]
        exact Store.read_newSlot_self st copy
      · have inRest : Assoc.get? rest name = some v :=
          (Assoc.get?_cons_of_ne rest w same).symm.trans found
        obtain ⟨s, isSlot, reads⟩ := plain name v inRest bare
        exact ⟨s, (Assoc.get?_cons_of_ne _ _ same).trans isSlot, reads⟩

theorem kind_newObject (st : Store) (data : ObjectData) :
    (st.newObject data).2.kind? (st.newObject data).1 = some data.classId := by
  simp [Store.kind?, Store.newObject]

/-- A constructor hands on the object, and where there is none nothing is run. -/
theorem construct_ok {levels : Nat} {data : ClassData} {object v : Value} {frame : Frame}
    {m m' : Machine} (scopes : m.scopes ≠ [])
    (ran : (construct (invoke levels) data object frame).run m = .ok v m') :
    v = object ∧ Pledge.empty.Later m m' ∧ (data.method? "__construct" = none → m' = m) := by
  have start := Pledge.later_empty scopes
  rw [construct] at ran
  cases isMethod : data.method? "__construct" with
  | none =>
      rw [isMethod] at ran
      cases ran
      exact ⟨rfl, start, fun _ => rfl⟩
  | some constructor =>
      rw [isMethod] at ran
      obtain ⟨_, _, called, ran⟩ := Run.of_run_bind ran
      cases ran
      exact ⟨rfl, start.callWith (Run.reaches_end called), nofun⟩

/-- A new object of a class without constructor holds its plain defaults. -/
theorem property_of_instantiate {levels : Nat} {className : String} {arguments : List Value}
    {frame : Frame} {m m' : Machine} {o : ObjectId} {id : ClassId} {data : ClassData}
    {name : String} {v : Value} (scopes : m.scopes ≠ [])
    (made : (instantiate (invoke levels) className arguments frame).run m = .ok (.object o) m')
    (isKind : m'.store.kind? o = some id) (found : m.store.classes[id.index]? = some data)
    (unconstructed : data.method? "__construct" = none)
    (kept : Assoc.get? data.properties name = some v) (plain : v.handles = []) :
    m'.store.property? o name = some v := by
  obtain ⟨own, held, properties, m₁, copied, made⟩ := instantiate_ok made
  obtain ⟨ext, sameScopes, holds⟩ := newProperties_ok copied
  obtain ⟨isNew, later, unchanged⟩ := construct_ok (sameScopes ▸ scopes) made
  cases isNew
  have ownKind := later.retains.kinds _ _ (kind_newObject m₁.store ⟨own, properties⟩)
  obtain rfl : own = id := Option.some.inj (ownKind.symm.trans isKind)
  rw [Store.classData_of_found found] at holds unchanged
  obtain ⟨s, isSlot, reads⟩ := holds name v kept plain
  rw [unchanged unconstructed]
  simp only [Store.property?, Store.object, Store.newObject, Array.getElem?_push_size,
    Option.getD_some, isSlot, Option.map_some]
  exact congrArg some reads

/-! Reading a property -/

theorem valueOf_new {className : Node} {arguments : List Node} {c c' : Context} {e : Expr}
    (compiled : valueOf (.newExpression className arguments) c = .ok (e, c')) :
    ∃ name passed, e = .instantiate name passed := by
  rw [valueOf, Compile.fragment] at compiled
  obtain ⟨_, _, inner, compiled⟩ := Compile.bind_eq_ok.mp compiled
  cases compiled
  obtain ⟨name, _, _, inner⟩ := Compile.bind_eq_ok.mp inner
  obtain ⟨passed, _, _, inner⟩ := Compile.bind_eq_ok.mp inner
  cases inner
  exact ⟨name, passed, rfl⟩

theorem run_property {user : UserCall} {frame : Frame} {container : Expr} {o : ObjectId}
    {name : String} {v : Value} {m m' : Machine}
    (evaluated : (evalExpr user frame container).run m = .ok (.object o) m')
    (holds : m'.store.property? o name = some v) :
    (evalExpr user frame (.load (.element (.value container) (some (.string name))))).run m =
      .ok v m' := by
  have key : (evalKey user (frame.holding (Value.object o).handles) (some (.string name))).run m' =
      .ok (some (Key.ofText name)) m' := by
    rw [evalKey, evalExpr]
    rfl
  have place : (evalPlace user frame .read
      (.element (.value container) (some (.string name)))).run m =
        .ok (.element (.object o) (some (Key.ofText name))) m' := by
    rw [evalPlace, evalBase, Run.run_bind evaluated, Run.run_bind key]
    rfl
  have looked : (Run.inspect (·.property? o (Key.ofText name).text)).run m' = .ok (some v) m' := by
    rw [Key.text_ofText, ← holds]
    rfl
  rw [evalExpr, Run.run_bind place]
  exact Run.run_bind looked

/-- A plain default that a class without constructor keeps under the name is what is read. -/
theorem propertyReads_of_class {name : String} (notNull : name ≠ "null") {v : Value}
    {id : ClassId} {data : ClassData} {m : Machine} (scopes : m.scopes ≠ [])
    (found : m.store.classes[id.index]? = some data)
    (unconstructed : data.method? "__construct" = none)
    (kept : Assoc.get? data.properties name = some v) (plain : v.handles = []) :
    PropertyReads name v id m := by
  intro className arguments reference c e c' read
  obtain ⟨container, isNew, rfl⟩ := valueOf_property notNull read
  refine ⟨container, isNew, fun levels frame o m' made isKind => run_property made ?_⟩
  obtain ⟨named, passed, rfl⟩ := valueOf_new isNew
  rw [evalExpr] at made
  obtain ⟨w, m₁, evaluated, made⟩ := Run.of_run_bind made
  obtain ⟨_, _, looked, made⟩ := Run.of_run_bind made
  cases looked
  obtain ⟨vs, m₂, given, made⟩ := Run.of_run_bind made
  have later := ((Pledge.later_empty scopes).expr (Run.reaches_end evaluated)).exprs
    (Run.reaches_end given)
  exact property_of_instantiate later.scopes made isKind
    (later.retains.classes id.index data found) unconstructed kept plain

end TreeScript
