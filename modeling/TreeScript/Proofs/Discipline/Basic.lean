import TreeScript.Evaluate
import TreeScript.Proofs.Code.Written
import TreeScript.Proofs.Run
import TreeScript.Proofs.Store.Copy

set_option autoImplicit false

/- Disciplines: what evaluation keeps, given what its steps keep. A discipline says which machines
are in good order, which handles code may know, and which it may merely hold or copy; its laws are
about single steps. That evaluation as a whole keeps a discipline is shown once for all of them. -/
namespace TreeScript

open Code (Function Stmt)

/-- The terms of a discipline. Whether a machine is in good order depends on an index: the names
declared so far, the scopes around, or the values that are copied but not stored yet. -/
structure Policy where
  Index : Type
  good : Index → Machine → Prop
  /-- What is to be seen at every moment. -/
  moment : Moment → Prop
  /-- What code may get hold of and change. -/
  known : Extent → Handle → Prop
  /-- What may be held by pending evaluations. -/
  held : Extent → Handle → Prop
  /-- What may be copied. -/
  source : Extent → Handle → Prop
  writable : Index → String → Prop
  callable : Function Stmt → Prop
  /-- What may be defined as a function of its name. -/
  definable : Function Stmt → Prop := callable
  /-- The index while a value is copied but not stored. -/
  hold : Index → Value → Index
  /-- The index after names have been declared. -/
  declare : Index → List String → Index
  /-- The index within a new scope. -/
  inner : Index → Machine → Index
  /-- The index within a call. -/
  callee : Index → Machine → Index

namespace Policy

variable (D : Policy)

def Writes (i : D.Index) (names : List String) : Prop := ∀ name ∈ names, D.writable i name

/-- The index after a statement. -/
def after (i : D.Index) : Stmt → D.Index
  | .defineVariables names => D.declare i names
  | _ => i

mutual
/-- Code that writes only to what it may and defines only what it may. -/
def Fits (i : D.Index) : Stmt → Prop
  | .defineVariables _ | .bindArgument _ _ | .bindThis | .inlineHtml _ => True
  | .echo e | .expression e => D.Writes i e.written
  | .ifElse condition consequent alternate =>
      D.Writes i condition.written ∧ FitsAll i consequent ∧ FitsAll i alternate
  | .foreach _ array key value _ body =>
      D.Writes i array.written ∧ D.Writes i (Code.writtenInPlace? key) ∧
        D.Writes i (value.written .write) ∧ FitsAll i body
  | .ret e => D.Writes i (Code.writtenInKey e)
  | .defineFunction f => D.definable f
  | .defineClass definition =>
      D.Writes i definition.name.written ∧
        D.Writes i (Code.writtenInDefaults definition.properties) ∧
        ∀ method ∈ definition.methods, D.callable method.2
  | .scoped body => ∀ m, D.good i m → FitsAll (D.inner i m) body

def FitsAll (i : D.Index) : List Stmt → Prop
  | [] => True
  | s :: rest => Fits i s ∧ FitsAll (D.after i s) rest
end

mutual
/-- Where nothing is forbidden, all code fits. -/
theorem fits_of_free (writable : ∀ i name, D.writable i name) (callable : ∀ f, D.callable f)
    (definable : ∀ f, D.definable f) : (s : Stmt) → (i : D.Index) → D.Fits i s
  | .defineVariables _, _ | .bindArgument _ _, _ | .bindThis, _ | .inlineHtml _, _ => by
      rw [Fits]
      exact trivial
  | .echo _, i | .expression _, i | .ret _, i => by
      rw [Fits]
      exact fun name _ => writable i name
  | .ifElse _ consequent alternate, i => by
      rw [Fits]
      exact ⟨fun name _ => writable i name, fitsAll_of_free writable callable definable consequent i,
        fitsAll_of_free writable callable definable alternate i⟩
  | .foreach _ _ _ _ _ body, i => by
      rw [Fits]
      exact ⟨fun name _ => writable i name, fun name _ => writable i name,
        fun name _ => writable i name,
        fitsAll_of_free writable callable definable body i⟩
  | .defineFunction f, _ => by
      rw [Fits]
      exact definable f
  | .defineClass _, i => by
      rw [Fits]
      exact ⟨fun name _ => writable i name, fun name _ => writable i name,
        fun method _ => callable method.2⟩
  | .scoped body, i => by
      rw [Fits]
      exact fun m _ => fitsAll_of_free writable callable definable body (D.inner i m)

theorem fitsAll_of_free (writable : ∀ i name, D.writable i name) (callable : ∀ f, D.callable f)
    (definable : ∀ f, D.definable f) :
    (block : List Stmt) → (i : D.Index) → D.FitsAll i block
  | [], _ => by
      rw [FitsAll]
      exact trivial
  | s :: rest, i => by
      rw [FitsAll]
      exact ⟨fits_of_free writable callable definable s i,
        fitsAll_of_free writable callable definable rest (D.after i s)⟩
end

end Policy

/-- The laws of a discipline, one for each kind of step. -/
structure Discipline extends Policy where
  known_mono : ∀ {e e' : Extent} {h : Handle}, e ≤ e' → known e h → known e' h
  held_mono : ∀ {e e' : Extent} {h : Handle}, e ≤ e' → held e h → held e' h
  held_of_known : ∀ {e : Extent} {h : Handle}, known e h → held e h
  source_mono : ∀ {e e' : Extent} {h : Handle}, e ≤ e' → source e h → source e' h
  source_of_known : ∀ {e : Extent} {h : Handle}, known e h → source e h
  known_fresh : ∀ {i : Index} {m : Machine} {st : Store} {h : Handle}, good i m →
    Store.Fresh m.store st h → known st.extent h
  seen : ∀ {i : Index} {m : Machine}, good i m → moment ⟨none, m⟩
  lookup : ∀ {i : Index} {m : Machine} {use : Use} {name : String}, good i m →
    (use = .write → writable i name) → moment ⟨some (.lookup use name), m⟩
  /- What is known leads to what is known. -/
  closed : ∀ {i : Index} {m : Machine} {h : Handle}, good i m → known m.store.extent h →
    (∀ c, h ≠ .classData c) → ∀ g ∈ m.store.holds h, known m.store.extent g
  defaults : ∀ {i : Index} {m : Machine} {c : ClassId}, good i m →
    known m.store.extent (.classData c) →
    ∀ g ∈ m.store.holds (.classData c), source m.store.extent g
  methods : ∀ {i : Index} {m : Machine} {c : ClassId} {name : String} {f : Function Stmt},
    good i m → (name, Callable.user f) ∈ (m.store.classData c).methods → callable f
  functions : ∀ {i : Index} {m : Machine} {name : String} {f : Function Stmt},
    good i m → (name, Callable.user f) ∈ m.names.functions → callable f
  classes : ∀ {i : Index} {m : Machine} {name : String} {c : ClassId},
    good i m → (name, c) ∈ m.names.classes → known m.store.extent (.classData c)
  scope : ∀ {i : Index} {m : Machine}, good i m → ∃ scope outer, m.scopes = scope :: outer ∧
    ∀ entry ∈ scope, known m.store.extent (.slot entry.2)
  loops : ∀ {i : Index} {m : Machine} {loop : Loop}, good i m → some loop ∈ m.loops →
    known m.store.extent (.array loop.array)
  /- Indices. -/
  hold_comm : ∀ (i : Index) (v w : Value), hold (hold i v) w = hold (hold i w) v
  forget : ∀ {i : Index} {m : Machine} {v : Value}, good (hold i v) m → good i m
  plain : ∀ {i : Index} {m : Machine} {v : Value}, (∀ a, v ≠ .array a) → good i m →
    good (hold i v) m
  undeclare : ∀ {i : Index} {m : Machine} {names : List String}, good (declare i names) m →
    good i m
  /- Changes of the store. -/
  adjust : ∀ {i : Index} {m : Machine} {v : Value} {st : Store}, good (hold i v) m →
    (∀ g ∈ v.handles, known m.store.extent g) →
    Store.Adjusts (known m.store.extent) v m.store st → good i { m with store := st }
  newArray : ∀ {i : Index} {m : Machine}, good i m →
    good (hold i (.array (m.store.newArray .empty).1))
      { m with store := (m.store.newArray .empty).2 }
  newClass : ∀ {i : Index} {m : Machine} {data : ClassData}, good i m →
    (∀ g ∈ data.handles, known m.store.extent g) →
    (∀ name f, (name, Callable.user f) ∈ data.methods → callable f) →
    good i { m with store := (m.store.newClass data).2 }
  copy : ∀ {i : Index} {m : Machine} {pending : List Handle} {v v' : Value} {st : Store},
    good i m → (∀ g ∈ pending, held m.store.extent g) →
    (∀ g ∈ v.handles, source m.store.extent g) →
    m.store.copy (m.roots ++ v.handles ++ pending) v = some (v', st) →
    good (hold i v') { m with store := st } ∧ ∀ g ∈ v'.handles, known st.extent g
  /- Changes of everything else. -/
  rebind : ∀ {i : Index} {m : Machine} {scope : Scope} {outer : List Scope} {s : SlotId}
    (name : String), good i m → m.scopes = scope :: outer → known m.store.extent (.slot s) →
    good i { m with scopes := Assoc.set scope name s :: outer }
  extend : ∀ {i : Index} {m : Machine} {scope added : Scope} {outer : List Scope}
    {names : List String}, good i m → m.scopes = scope :: outer →
    (∀ entry ∈ added, known m.store.extent (.slot entry.2)) →
    (∀ name ∈ names, name ∈ Assoc.keys (scope ++ added)) →
    good (declare i names) { m with scopes := (scope ++ added) :: outer }
  setLoop : ∀ {i : Index} {m : Machine} (slot : Nat) {loop : Option Loop}, good i m →
    (∀ l, loop = some l → known m.store.extent (.array l.array)) → good i (m.setLoop slot loop)
  streams : ∀ {i : Index} {m : Machine} (stdin : List String) (stdout : Output), good i m →
    good i { m with stdin, stdout }
  defineFunction : ∀ {i : Index} {m : Machine} {f : Function Stmt}, good i m → definable f →
    good i { m with names := m.names.defineFunction f.name (.user f) }
  defineClass : ∀ {i : Index} {m : Machine} {c : ClassId} (name : String), good i m →
    known m.store.extent (.classData c) → good i { m with names := m.names.defineClass name c }
  /- Scopes and calls: what comes back is in the order it was in. -/
  push : ∀ {i : Index} {m : Machine}, good i m →
    good (inner i m) { m with scopes := [] :: m.scopes }
  pop : ∀ {i : Index} {m m' : Machine}, good i m → m.store.extent ≤ m'.store.extent →
    good (inner i m) m' → good i { m' with scopes := m'.scopes.tail }
  enter : ∀ {i : Index} {m : Machine} (loopSlots : Nat), good i m → m.callDepth < m.callLimit →
    moment ⟨none, { m with callDepth := m.callDepth + 1 }⟩ ∧
      good (callee i m)
        { m with callDepth := m.callDepth + 1, loops := List.replicate loopSlots none }
  leave : ∀ {i : Index} {m m' : Machine}, good i m → m.store.extent ≤ m'.store.extent →
    good (callee i m) m' → good i { m'.leaveCall with loops := m.loops }
  body : ∀ {i : Index} {m : Machine} {f : Function Stmt}, good i m → callable f →
    toPolicy.FitsAll (callee i m) f.body

namespace Discipline

variable (D : Discipline)

def Known (e : Extent) (v : Value) : Prop := ∀ g ∈ v.handles, D.known e g

/-- A value that may be copied. -/
def Source (e : Extent) (v : Value) : Prop := ∀ g ∈ v.handles, D.source e g

def Holds (e : Extent) (pending : List Handle) : Prop := ∀ g ∈ pending, D.held e g

def KnownLocation (e : Extent) (l : Location) : Prop := ∀ g ∈ l.handles, D.known e g

/-- What a frame brings along may be held and copied. -/
structure KnownFrame (e : Extent) (frame : Frame) : Prop where
  held : D.Holds e frame.held
  arguments : ∀ v ∈ frame.arguments, D.Source e v
  receiver : ∀ v ∈ frame.receiver, D.Source e v

/-- A frame of a call made within the discipline: what it passes on is known. -/
structure KnownCall (e : Extent) (frame : Frame) : Prop where
  held : D.Holds e frame.held
  arguments : ∀ v ∈ frame.arguments, D.Known e v
  receiver : ∀ v ∈ frame.receiver, D.Known e v

/-- From a machine in good order at index `i`, with at least the extent `e`, a computation goes
through good moments and ends in good order: at index `j` with a result that satisfies `Q`, or at
index `b` with a fault. Never is a scope missing. -/
def Meets {α : Type} (b i : D.Index) (e : Extent) (j : α → D.Index) (Q : Extent → α → Prop)
    (c : Run α) : Prop :=
  ∀ m, e ≤ m.store.extent → D.good i m →
    c.Holds D.moment
      (fun a m' => m.store.extent ≤ m'.store.extent ∧ D.good (j a) m' ∧ Q m'.store.extent a)
      (fun f m' => m.store.extent ≤ m'.store.extent ∧ D.good b m' ∧ f ≠ .noScope) m

/-- The index stays the same throughout. -/
abbrev Keeps {α : Type} (i : D.Index) (e : Extent) (Q : Extent → α → Prop) (c : Run α) : Prop :=
  D.Meets i i e (fun _ => i) Q c

/-- User functions that may be called keep to the discipline. -/
def Serves (user : UserCall) : Prop :=
  ∀ (i : D.Index) (e : Extent) (f : Function Stmt) (frame : Frame), D.callable f →
    D.KnownFrame e frame → D.Keeps i e D.Known (user f frame)

/-- The condition on results of which nothing is asked. -/
abbrev Any {α : Type} : Extent → α → Prop := fun _ _ => True

variable {D}

section rules

variable {α β : Type} {b i : D.Index} {e : Extent} {Q : Extent → α → Prop} {c : Run α}

theorem Meets.holds {j : α → D.Index} {m : Machine} (meets : D.Meets b i e j Q c)
    (good : D.good i m) (inside : e ≤ m.store.extent) :
    c.Holds D.moment
      (fun a m' => m.store.extent ≤ m'.store.extent ∧ D.good (j a) m' ∧ Q m'.store.extent a)
      (fun f m' => m.store.extent ≤ m'.store.extent ∧ D.good b m' ∧ f ≠ .noScope) m :=
  meets m inside good

theorem Meets.pureAt {j : α → D.Index} {a : α} (here : i = j a)
    (holds : ∀ e', e ≤ e' → Q e' a) : D.Meets b i e j Q (Pure.pure a) :=
  fun _ inside good => ⟨le_refl _, here ▸ good, holds _ inside⟩

theorem Meets.pure {a : α} (holds : ∀ e', e ≤ e' → Q e' a) :
    D.Meets b i e (fun _ => i) Q (Pure.pure a) := .pureAt rfl holds

theorem Meets.fault {j : α → D.Index} {f : Fault} (other : f ≠ .noScope) :
    D.Meets i i e j Q (Run.fault f) := fun _ _ good => ⟨le_refl _, good, other⟩

theorem Meets.fail {j : α → D.Index} (error : ScriptError) : D.Meets i i e j Q (Run.fail error) :=
  .fault (by simp)

theorem Meets.bind {k : α → D.Index} {j : β → D.Index} {Q' : Extent → β → Prop}
    {next : α → Run β} (first : D.Meets b i e k Q c)
    (later : ∀ e', e ≤ e' → ∀ a, Q e' a → D.Meets b (k a) e' j Q' (next a)) :
    D.Meets b i e j Q' (c >>= next) := by
  intro m inside good
  rw [Run.holds_bind]
  refine (first m inside good).mono ?_ fun f m' failed => failed
  rintro a m₁ ⟨grows, good₁, result⟩
  refine (later m₁.store.extent (inside.trans grows) a result m₁ (le_refl _) good₁).mono ?_ ?_
  · rintro b m₂ ⟨grows', good₂, result'⟩
    exact ⟨grows.trans grows', good₂, result'⟩
  · rintro f m₂ ⟨grows', good₂, other⟩
    exact ⟨grows.trans grows', good₂, other⟩

/-- Less is asked of the result. -/
theorem Meets.imp {j : α → D.Index} {Q' : Extent → α → Prop} (meets : D.Meets b i e j Q c)
    (weaker : ∀ {e : Extent} {a : α}, Q e a → Q' e a) : D.Meets b i e j Q' c := by
  intro m inside good
  exact (meets m inside good).mono (fun _ _ ⟨grows, final, result⟩ => ⟨grows, final, weaker result⟩)
    fun _ _ failed => failed

/-- A fault may leave less in order. -/
theorem Meets.weaken {b' : D.Index} {j : α → D.Index} (meets : D.Meets b i e j Q c)
    (back : ∀ m, D.good b m → D.good b' m) : D.Meets b' i e j Q c := by
  intro m inside good
  exact (meets m inside good).mono (fun _ _ ended => ended)
    fun f m' ⟨grows, final, other⟩ => ⟨grows, back m' final, other⟩

/-- The computation runs at a stronger index than it needs. -/
theorem Meets.strengthen {i' : D.Index} {j : α → D.Index} (meets : D.Meets b i e j Q c)
    (strong : ∀ m, D.good i' m → D.good i m) : D.Meets b i' e j Q c :=
  fun m inside good => meets m inside (strong m good)

theorem meets_inspect {f : Store → α}
    (result : ∀ m, e ≤ m.store.extent → D.good i m → Q m.store.extent (f m.store)) :
    D.Meets b i e (fun _ => i) Q (Run.inspect f) :=
  fun m inside good => ⟨D.seen good, le_refl _, good, result m inside good⟩

theorem meets_get {Q : Extent → Machine → Prop}
    (result : ∀ m, e ≤ m.store.extent → D.good i m → Q m.store.extent m) :
    D.Meets b i e (fun _ => i) Q get :=
  fun m inside good => ⟨D.seen good, le_refl _, good, result m inside good⟩

theorem meets_modify {f : Machine → Machine}
    (grows : ∀ m, m.store.extent ≤ (f m).store.extent)
    (keeps : ∀ m, e ≤ m.store.extent → D.good i m → D.good i (f m)) :
    D.Meets b i e (fun _ => i) Any (modify f) :=
  fun m inside good => ⟨D.seen (keeps m inside good), grows m, keeps m inside good, trivial⟩

/-- A change of the store, at an index with the value it stores. -/
theorem meets_update {v : Value} {f : Store → α × Store}
    (known : D.Known e v)
    (adjusts : ∀ m, e ≤ m.store.extent → D.good i m →
      Store.Adjusts (D.known m.store.extent) v m.store (f m.store).2)
    (result : ∀ m, e ≤ m.store.extent → D.good i m →
      Q (f m.store).2.extent (f m.store).1) :
    D.Meets b (D.hold i v) e (fun _ => i) Q (Run.update f) := by
  intro m inside good
  have change := adjusts m inside (D.forget good)
  have final := D.adjust good (fun g member => D.known_mono inside (known g member)) change
  exact ⟨D.seen final, change.grows, final, result m inside (D.forget good)⟩

theorem meets_alter {v : Value} {f : Store → Store} (known : D.Known e v)
    (adjusts : ∀ m, e ≤ m.store.extent → D.good i m →
      Store.Adjusts (D.known m.store.extent) v m.store (f m.store)) :
    D.Meets b (D.hold i v) e (fun _ => i) Any (Run.alter f) :=
  meets_update known adjusts fun _ _ _ => trivial

/-- A value without an array need not be copied before it is stored. -/
theorem Meets.ofPlain {v : Value} {j : α → D.Index} (plain : ∀ a, v ≠ .array a)
    (meets : D.Meets b (D.hold i v) e j Q c) : D.Meets b i e j Q c :=
  meets.strengthen fun _ => D.plain plain

/-- A change that stores nothing needs no value held. -/
theorem Meets.ofNull {j : α → D.Index} (meets : D.Meets b (D.hold i .null) e j Q c) :
    D.Meets b i e j Q c := meets.ofPlain fun _ => Value.noConfusion

end rules

section knowledge

variable {e e' : Extent}

theorem known_plain {v : Value} (plain : v.handles = []) : D.Known e v := by simp [Known, plain]

theorem Known.mono {v : Value} (known : D.Known e v) (grows : e ≤ e') : D.Known e' v :=
  fun g member => D.known_mono grows (known g member)

theorem Known.source {v : Value} (known : D.Known e v) : D.Source e v :=
  fun g member => D.source_of_known (known g member)

theorem Known.holds {v : Value} (known : D.Known e v) : D.Holds e v.handles :=
  fun g member => D.held_of_known (known g member)

theorem Source.mono {v : Value} (source : D.Source e v) (grows : e ≤ e') : D.Source e' v :=
  fun g member => D.source_mono grows (source g member)

theorem Holds.mono {pending : List Handle} (holds : D.Holds e pending) (grows : e ≤ e') :
    D.Holds e' pending := fun g member => D.held_mono grows (holds g member)

theorem Holds.append {first second : List Handle} (holds : D.Holds e first)
    (more : D.Holds e second) : D.Holds e (first ++ second) := by
  intro g member
  exact (List.mem_append.mp member).elim (holds g) (more g)

theorem Holds.cons {h : Handle} {rest : List Handle} (held : D.held e h)
    (holds : D.Holds e rest) : D.Holds e (h :: rest) :=
  List.forall_mem_cons.mpr ⟨held, holds⟩

theorem KnownLocation.mono {l : Location} (known : D.KnownLocation e l) (grows : e ≤ e') :
    D.KnownLocation e' l := fun g member => D.known_mono grows (known g member)

theorem KnownLocation.holds {l : Location} (known : D.KnownLocation e l) :
    D.Holds e l.handles := fun g member => D.held_of_known (known g member)

theorem KnownFrame.mono {frame : Frame} (known : D.KnownFrame e frame) (grows : e ≤ e') :
    D.KnownFrame e' frame where
  held := known.held.mono grows
  arguments v member := (known.arguments v member).mono grows
  receiver v member := (known.receiver v member).mono grows

theorem KnownCall.mono {frame : Frame} (known : D.KnownCall e frame) (grows : e ≤ e') :
    D.KnownCall e' frame where
  held := known.held.mono grows
  arguments v member := (known.arguments v member).mono grows
  receiver v member := (known.receiver v member).mono grows

theorem KnownFrame.holding {frame : Frame} {handles : List Handle}
    (known : D.KnownFrame e frame) (more : D.Holds e handles) :
    D.KnownFrame e (frame.holding handles) where
  held := more.append known.held
  arguments := known.arguments
  receiver := known.receiver

theorem KnownCall.knownFrame {frame : Frame} (known : D.KnownCall e frame) :
    D.KnownFrame e frame where
  held := known.held
  arguments v member := (known.arguments v member).source
  receiver v member := (known.receiver v member).source

theorem KnownFrame.forCall {frame : Frame} {this : Option Value} {arguments : List Value}
    (known : D.KnownFrame e frame) (thisKnown : ∀ v ∈ this, D.Known e v)
    (argumentsKnown : ∀ v ∈ arguments, D.Known e v) :
    D.KnownCall e (frame.forCall this arguments) where
  held := by
    refine Holds.append (Holds.append (fun g member => ?_) fun g member => ?_) known.held
    · cases this with
      | none => simp at member
      | some v => exact (thisKnown v rfl).holds g member
    · obtain ⟨v, passed, held⟩ := List.mem_flatMap.mp member
      exact (argumentsKnown v passed).holds g held
  arguments := argumentsKnown
  receiver := thisKnown

end knowledge

end Discipline
end TreeScript
