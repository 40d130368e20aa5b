import TreeScript.Proofs.Discipline.Execution

set_option autoImplicit false

/- Disciplines of control. What they ask depends on the scopes, the names and the depth of calls,
and on the classes, but on nothing else in the store; so everything may be known. -/
namespace TreeScript

open Code (Function Stmt)

/-- What a discipline of control looks at is the same. -/
structure Machine.Alike (m m' : Machine) : Prop where
  scopes : m'.scopes = m.scopes
  names : m'.names = m.names
  callDepth : m'.callDepth = m.callDepth
  callLimit : m'.callLimit = m.callLimit
  classes : m'.store.classes = m.store.classes
  kinds : ∀ o c, m.store.kind? o = some c → m'.store.kind? o = some c

structure Control where
  Index : Type
  good : Index → Machine → Prop
  moment : Moment → Prop
  writable : Index → String → Prop
  callable : Function Stmt → Prop
  definable : Function Stmt → Prop := callable
  declare : Index → List String → Index
  inner : Index → Machine → Index
  callee : Index → Machine → Index
  alike : ∀ {i : Index} {m m' : Machine}, good i m → m.Alike m' → good i m'
  seen : ∀ {i : Index} {m : Machine}, good i m → moment ⟨none, m⟩
  lookup : ∀ {i : Index} {m : Machine} {use : Use} {name : String}, good i m →
    (use = .write → writable i name) → moment ⟨some (.lookup use name), m⟩
  methods : ∀ {i : Index} {m : Machine} {c : ClassId} {name : String} {f : Function Stmt},
    good i m → (name, Callable.user f) ∈ (m.store.classData c).methods → callable f
  functions : ∀ {i : Index} {m : Machine} {name : String} {f : Function Stmt},
    good i m → (name, Callable.user f) ∈ m.names.functions → callable f
  scope : ∀ {i : Index} {m : Machine}, good i m → ∃ scope outer, m.scopes = scope :: outer
  undeclare : ∀ {i : Index} {m : Machine} {names : List String}, good (declare i names) m →
    good i m
  newClass : ∀ {i : Index} {m : Machine} {data : ClassData}, good i m →
    (∀ name f, (name, Callable.user f) ∈ data.methods → callable f) →
    good i { m with store := (m.store.newClass data).2 }
  rebind : ∀ {i : Index} {m : Machine} {scope : Scope} {outer : List Scope} (name : String)
    (s : SlotId), good i m → m.scopes = scope :: outer →
    good i { m with scopes := Assoc.set scope name s :: outer }
  extend : ∀ {i : Index} {m : Machine} {scope added : Scope} {outer : List Scope}
    {names : List String}, good i m → m.scopes = scope :: outer →
    (∀ name ∈ names, name ∈ Assoc.keys (scope ++ added)) →
    good (declare i names) { m with scopes := (scope ++ added) :: outer }
  defineFunction : ∀ {i : Index} {m : Machine} {f : Function Stmt}, good i m → definable f →
    good i { m with names := m.names.defineFunction f.name (.user f) }
  defineClass : ∀ {i : Index} {m : Machine} (name : String) (c : ClassId), good i m →
    good i { m with names := m.names.defineClass name c }
  push : ∀ {i : Index} {m : Machine}, good i m →
    good (inner i m) { m with scopes := [] :: m.scopes }
  pop : ∀ {i : Index} {m m' : Machine}, good i m → good (inner i m) m' →
    good i { m' with scopes := m'.scopes.tail }
  enter : ∀ {i : Index} {m : Machine}, good i m → m.callDepth < m.callLimit →
    good (callee i m) { m with callDepth := m.callDepth + 1 }
  leave : ∀ {i : Index} {m m' : Machine}, good i m → good (callee i m) m' → good i m'.leaveCall
  body : ∀ {i : Index} {m : Machine} {f : Function Stmt}, good i m → callable f →
    ({ Index, good, moment, known := fun _ _ => True, held := fun _ _ => True,
       source := fun _ _ => True, writable, callable, definable, hold := fun i _ => i, declare,
       inner, callee } : Policy).FitsAll (callee i m) f.body

/-- A discipline of control as a discipline. -/
def Control.discipline (C : Control) : Discipline where
  Index := C.Index
  good := C.good
  moment := C.moment
  known _ _ := True
  held _ _ := True
  source _ _ := True
  writable := C.writable
  callable := C.callable
  definable := C.definable
  hold i _ := i
  declare := C.declare
  inner := C.inner
  callee := C.callee
  known_mono _ _ := trivial
  held_mono _ _ := trivial
  held_of_known _ := trivial
  source_mono _ _ := trivial
  source_of_known _ := trivial
  known_fresh _ _ := trivial
  seen := C.seen
  lookup := C.lookup
  closed _ _ _ _ _ := trivial
  defaults _ _ _ _ := trivial
  methods := C.methods
  functions := C.functions
  classes _ _ := trivial
  scope good := by
    obtain ⟨scope, outer, isScope⟩ := C.scope good
    exact ⟨scope, outer, isScope, fun _ _ => trivial⟩
  loops _ _ := trivial
  hold_comm _ _ _ := rfl
  forget good := good
  plain _ good := good
  undeclare := C.undeclare
  adjust good _ change := C.alike good ⟨rfl, rfl, rfl, rfl, change.classes, change.kinds⟩
  newArray good := C.alike good ⟨rfl, rfl, rfl, rfl, rfl, fun _ _ same => same⟩
  newClass good _ callable := C.newClass good callable
  copy good _ _ done :=
    have ext := Store.copy_extends done
    ⟨C.alike good ⟨rfl, rfl, rfl, rfl, ext.classes, fun _ _ same => by
      rwa [Store.kind?, ext.objects]⟩, fun _ _ => trivial⟩
  rebind name good isScope _ := C.rebind name _ good isScope
  extend good isScope _ listed := C.extend good isScope listed
  setLoop _ _ good _ := C.alike good ⟨rfl, rfl, rfl, rfl, rfl, fun _ _ same => same⟩
  streams _ _ good := C.alike good ⟨rfl, rfl, rfl, rfl, rfl, fun _ _ same => same⟩
  defineFunction := C.defineFunction
  defineClass name good _ := C.defineClass name _ good
  push := C.push
  pop good _ after := C.pop good after
  enter _ good below :=
    have entered := C.enter good below
    ⟨C.seen entered, C.alike entered ⟨rfl, rfl, rfl, rfl, rfl, fun _ _ same => same⟩⟩
  leave good _ after :=
    C.alike (C.leave good after) ⟨rfl, rfl, rfl, rfl, rfl, fun _ _ same => same⟩
  body := C.body

theorem Control.holds_any (C : Control) (e : Extent) (frame : Frame) :
    C.discipline.KnownFrame e frame :=
  ⟨fun _ _ => trivial, fun _ _ _ _ => trivial, fun _ _ _ _ => trivial⟩

end TreeScript
