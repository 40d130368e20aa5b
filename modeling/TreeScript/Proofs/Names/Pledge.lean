import TreeScript.Proofs.Compile.Routines
import TreeScript.Proofs.Declared
import TreeScript.Proofs.Loops.Table

set_option autoImplicit false

/- What stays while code runs. Classes keep their data and objects their class whatever is run; and
what is promised of the functions by name stays as long as no code there is defines a function that
the promise forbids. -/
namespace TreeScript

open Code (Expr Function Stmt Block Routine routinesOf)

/-! The machines of a run -/

namespace Run

variable {α β : Type} {m m' m₁ : Machine}

/-- The machine is there at the beginning of a computation, or at one of its moments. -/
def Reaches (c : Run α) (m m' : Machine) : Prop :=
  m' = m ∨ ∃ moment ∈ c.trace m, moment.machine = m'

theorem Reaches.start (c : Run α) (m : Machine) : c.Reaches m m := .inl rfl

theorem Reaches.first {c : Run α} (reached : c.Reaches m m') (f : α → Run β) :
    (c >>= f).Reaches m m' := by
  rcases reached with same | ⟨moment, passed, isMachine⟩
  · exact .inl same
  · refine .inr ⟨moment, ?_, isMachine⟩
    cases ran : c.run m with
    | ok a m₁ =>
        rw [trace_bind_ok ran]
        exact List.mem_append_left _ passed
    | error f m₁ => rwa [trace_bind_error ran]

/-- A computation that gives a result reaches the machine that it leaves. -/
theorem reaches_end {c : Run α} {a : α} (ran : c.run m = .ok a m') : c.Reaches m m' := by
  induction c generalizing m m' with
  | done b =>
      cases ran
      exact .inl rfl
  | fault f => cases ran
  | step action =>
      cases ran
      exact .inr ⟨_, List.mem_singleton_self _, rfl⟩
  | note event =>
      cases ran
      exact .inl rfl
  | bind first next ihFirst ihNext =>
      obtain ⟨b, m₁, ranFirst, ranNext⟩ := of_run_bind ran
      rcases ihNext b ranNext with same | ⟨moment, passed, isMachine⟩
      · rw [same]
        exact (ihFirst ranFirst).first next
      · refine .inr ⟨moment, ?_, isMachine⟩
        change moment ∈ (first >>= next).trace m
        rw [trace_bind_ok ranFirst]
        exact List.mem_append_right _ passed
  | ensure body last ih =>
      refine .inr ⟨⟨none, last (left (body.run m))⟩, ?_, ?_⟩
      · rw [trace_ensure]
        exact List.mem_append_right _ (List.mem_singleton_self _)
      · have same := congrArg left ran
        rw [run_ensure, left_after] at same
        exact same

theorem Reaches.next {c : Run α} {f : α → Run β} {a : α} (ran : c.run m = .ok a m₁)
    (reached : (f a).Reaches m₁ m') : (c >>= f).Reaches m m' := by
  rcases reached with same | ⟨moment, passed, isMachine⟩
  · rw [same]
    exact (reaches_end ran).first f
  · refine .inr ⟨moment, ?_, isMachine⟩
    rw [trace_bind_ok ran]
    exact List.mem_append_right _ passed

end Run

/-! Stores -/

namespace Store

/-- Classes keep their data, and objects their class. -/
structure Retains (st st' : Store) : Prop where
  classes : ∀ (i : Nat) data, st.classes[i]? = some data → st'.classes[i]? = some data
  kinds : ∀ o c, st.kind? o = some c → st'.kind? o = some c

theorem Retains.refl (st : Store) : st.Retains st := ⟨fun _ _ same => same, fun _ _ same => same⟩

variable {st st₁ st₂ : Store}

theorem Retains.trans (first : st.Retains st₁) (second : st₁.Retains st₂) : st.Retains st₂ :=
  ⟨fun i data found => second.classes i data (first.classes i data found),
    fun o c isKind => second.kinds o c (first.kinds o c isKind)⟩

theorem retains_newClass (st : Store) (data : ClassData) : st.Retains (st.newClass data).2 := by
  refine ⟨fun i other found => ?_, fun _ _ same => same⟩
  have inside : i < st.classes.size := (Array.getElem?_eq_some_iff.mp found).1
  simpa [newClass, Array.getElem?_push, Nat.ne_of_lt inside] using found

theorem classId_of_kind {o : ObjectId} {c : ClassId} (isKind : st.kind? o = some c) :
    (st.object o).classId = c := by
  obtain ⟨data, found, isClass⟩ := Option.map_eq_some_iff.mp isKind
  rw [object, found]
  exact isClass

theorem classData_of_found {c : ClassId} {data : ClassData}
    (found : st.classes[c.index]? = some data) : st.classData c = data := by
  rw [classData, found]
  rfl

end Store

/-! Pledges -/

/-- Which functions may be defined, and what of the functions by name their definition upholds. -/
structure Pledge where
  allowed : Function Stmt → Prop
  upheld : Namespace → Prop
  define : ∀ {n : Namespace} {f : Function Stmt}, upheld n → allowed f →
    upheld (n.defineFunction f.name (.user f))
  declare : ∀ {n : Namespace} (name : String) (c : ClassId), upheld n →
    upheld (n.defineClass name c)

namespace Pledge

variable (P : Pledge)

/-- Every function that a block defines is allowed, at any depth. -/
def Allows (b : Block) : Prop := ∀ r ∈ routinesOf b, r.isMethod = false → P.allowed r.function

/-- The pledge is upheld, and all code that can be called is bound by it. -/
structure Kept (m : Machine) : Prop where
  upheld : P.upheld m.names
  functions : ∀ name f, (name, Callable.user f) ∈ m.names.functions → P.Allows f.body
  methods : ∀ data ∈ m.store.classes, ∀ name f, (name, Callable.user f) ∈ data.methods →
    P.Allows f.body

/-- A machine with so many scopes that has come from a store while the pledge was kept. -/
structure Stands (st₀ : Store) (depth : Nat) (m : Machine) : Prop extends P.Kept m where
  scopes : m.scopes.length = depth + 1
  retains : st₀.Retains m.store

/-- Promises nothing. -/
def empty : Pledge where
  allowed _ := True
  upheld _ := True
  define _ _ := trivial
  declare _ _ _ := trivial

theorem empty_allows (b : Block) : empty.Allows b := fun _ _ _ => trivial

theorem empty_kept (m : Machine) : empty.Kept m :=
  ⟨trivial, fun _ f _ => empty_allows f.body, fun _ _ _ f _ => empty_allows f.body⟩

variable {P}

theorem Allows.of_append {b b' : Block} (allows : P.Allows (b ++ b')) :
    P.Allows b ∧ P.Allows b' := by
  rw [Allows, Code.routinesOf_append] at allows
  exact ⟨fun r member => allows r (List.mem_append_left _ member),
    fun r member => allows r (List.mem_append_right _ member)⟩

/-! Code that is bound fits -/

section fits

variable {D : Policy}

/-- The policy lets pass all that the pledge does. -/
structure Binds (P : Pledge) (D : Policy) : Prop where
  writable : ∀ i name, D.writable i name
  callable : ∀ f, P.Allows f.body → D.callable f
  definable : ∀ f, P.allowed f → P.Allows f.body → D.definable f

mutual
theorem Binds.fits (binds : P.Binds D) : (s : Stmt) →
    (∀ r ∈ s.routines, r.isMethod = false → P.allowed r.function) → (i : D.Index) → D.Fits i s
  | .defineVariables _, _, _ | .bindArgument _ _, _, _ | .bindThis, _, _
  | .inlineHtml _, _, _ => by
      rw [Policy.Fits]
      exact trivial
  | .echo _, _, i | .expression _, _, i | .ret _, _, i => by
      rw [Policy.Fits]
      exact fun name _ => binds.writable i name
  | .ifElse _ consequent alternate, allowed, i => by
      rw [Stmt.routines] at allowed
      rw [Policy.Fits]
      have first : P.Allows consequent := fun r member =>
        allowed r (List.mem_append_left _ member)
      have second : P.Allows alternate := fun r member =>
        allowed r (List.mem_append_right _ member)
      exact ⟨fun name _ => binds.writable i name, binds.fitsAll consequent first i,
        binds.fitsAll alternate second i⟩
  | .foreach _ _ _ _ _ body, allowed, i => by
      rw [Stmt.routines] at allowed
      rw [Policy.Fits]
      exact ⟨fun name _ => binds.writable i name, fun name _ => binds.writable i name,
        fun name _ => binds.writable i name, binds.fitsAll body allowed i⟩
  | .defineFunction f, allowed, _ => by
      rw [Stmt.routines] at allowed
      rw [Policy.Fits]
      obtain ⟨here, within⟩ := List.forall_mem_cons.mp allowed
      exact binds.definable f (here rfl) within
  | .defineClass definition, allowed, i => by
      rw [Stmt.routines, Code.routinesOfMethods_eq_flatMap] at allowed
      rw [Policy.Fits]
      refine ⟨fun name _ => binds.writable i name, fun name _ => binds.writable i name,
        fun method member => binds.callable method.2 fun r within => allowed r ?_⟩
      exact List.mem_flatMap.mpr ⟨method, member, List.mem_cons_of_mem _ within⟩
  | .scoped body, allowed, i => by
      rw [Stmt.routines] at allowed
      rw [Policy.Fits]
      exact fun m _ => binds.fitsAll body allowed (D.inner i m)

theorem Binds.fitsAll (binds : P.Binds D) :
    (b : Block) → P.Allows b → (i : D.Index) → D.FitsAll i b
  | [], _, _ => by
      rw [Policy.FitsAll]
      exact trivial
  | s :: rest, allows, i => by
      rw [Allows, routinesOf] at allows
      rw [Policy.FitsAll]
      have here : ∀ r ∈ s.routines, r.isMethod = false → P.allowed r.function :=
        fun r member => allows r (List.mem_append_left _ member)
      have later : P.Allows rest := fun r member => allows r (List.mem_append_right _ member)
      exact ⟨binds.fits s here i, binds.fitsAll rest later (D.after i s)⟩
end

end fits

/-! The discipline -/

theorem Kept.alike {m m' : Machine} (kept : P.Kept m) (alike : m.Alike m') : P.Kept m' :=
  ⟨alike.names ▸ kept.upheld, alike.names ▸ kept.functions, alike.classes ▸ kept.methods⟩

theorem Kept.newClass {m : Machine} {data : ClassData} (kept : P.Kept m)
    (bound : ∀ name f, (name, Callable.user f) ∈ data.methods → P.Allows f.body) :
    P.Kept { m with store := (m.store.newClass data).2 } := by
  refine ⟨kept.upheld, kept.functions, fun other member => ?_⟩
  rcases Array.mem_push.mp member with old | rfl
  · exact kept.methods other old
  · exact bound

theorem Kept.define {m : Machine} {f : Function Stmt} (kept : P.Kept m) (allowed : P.allowed f)
    (bound : P.Allows f.body) :
    P.Kept { m with names := m.names.defineFunction f.name (.user f) } := by
  refine ⟨P.define kept.upheld allowed, fun name g member => ?_, kept.methods⟩
  rcases Assoc.mem_set member with old | isNew
  · exact kept.functions name g old
  · exact Callable.user.inj isNew ▸ bound

variable (P) in
def control (st₀ : Store) : Control where
  Index := Nat
  good := P.Stands st₀
  moment moment := ∃ depth, P.Stands st₀ depth moment.machine
  writable _ _ := True
  callable f := P.Allows f.body
  definable f := P.allowed f ∧ P.Allows f.body
  declare i _ := i
  inner i _ := i + 1
  callee i _ := i
  alike stands alike :=
    ⟨stands.toKept.alike alike, alike.scopes ▸ stands.scopes,
      stands.retains.trans ⟨fun _ _ found => alike.classes ▸ found, alike.kinds⟩⟩
  seen stands := ⟨_, stands⟩
  lookup stands _ := ⟨_, stands⟩
  methods stands member := by
    obtain ⟨data, listed, isMethod⟩ := Machine.user_method member
    exact stands.methods data listed _ _ isMethod
  functions stands member := stands.functions _ _ member
  scope stands := List.exists_cons_of_length_eq_add_one stands.scopes
  undeclare stands := stands
  newClass stands bound :=
    ⟨stands.toKept.newClass bound, stands.scopes,
      stands.retains.trans (Store.retains_newClass _ _)⟩
  rebind _ _ stands isScope := ⟨⟨stands.upheld, stands.functions, stands.methods⟩,
    by simpa [isScope] using stands.scopes, stands.retains⟩
  extend stands isScope _ := ⟨⟨stands.upheld, stands.functions, stands.methods⟩,
    by simpa [isScope] using stands.scopes, stands.retains⟩
  defineFunction stands bound :=
    ⟨stands.toKept.define bound.1 bound.2, stands.scopes, stands.retains⟩
  defineClass name c stands :=
    ⟨⟨P.declare name c stands.upheld, stands.functions, stands.methods⟩, stands.scopes,
      stands.retains⟩
  push stands := ⟨⟨stands.upheld, stands.functions, stands.methods⟩,
    congrArg (· + 1) stands.scopes, stands.retains⟩
  pop _ stands := ⟨⟨stands.upheld, stands.functions, stands.methods⟩,
    by simp [stands.scopes], stands.retains⟩
  enter stands _ := ⟨⟨stands.upheld, stands.functions, stands.methods⟩, stands.scopes,
    stands.retains⟩
  leave _ stands := ⟨⟨stands.upheld, stands.functions, stands.methods⟩, stands.scopes,
    stands.retains⟩
  body _ bound := by
    refine Binds.fitsAll ?_ _ bound _
    exact ⟨fun _ _ => trivial, fun _ bound => bound, fun _ allowed bound => ⟨allowed, bound⟩⟩

theorem binds_control (st₀ : Store) : P.Binds (P.control st₀).discipline.toPolicy :=
  ⟨fun _ _ => trivial, fun _ bound => bound, fun _ allowed bound => ⟨allowed, bound⟩⟩

/-! What runs keep -/

/-- The second machine comes after the first, with the pledge kept. -/
structure Later (P : Pledge) (m m' : Machine) : Prop extends P.Kept m' where
  scopes : m'.scopes ≠ []
  retains : m.store.Retains m'.store

variable {m m' m₁ : Machine} {levels : Nat} {frame : Frame}

theorem Later.start (kept : P.Kept m) (scopes : m.scopes ≠ []) : P.Later m m :=
  ⟨kept, scopes, .refl _⟩

/-- Nothing is pledged of any machine. -/
theorem later_empty (scopes : m.scopes ≠ []) : empty.Later m m := .start (empty_kept m) scopes

/-- The later machine is one to begin from. -/
theorem Later.here (later : P.Later m₁ m) : P.Later m m := .start later.toKept later.scopes

theorem Later.trans (first : P.Later m m₁) (second : P.Later m₁ m') : P.Later m m' :=
  ⟨second.toKept, second.scopes, first.retains.trans second.retains⟩

/-- What keeps the discipline reaches later machines only. -/
theorem Later.reach {α : Type} {c : Run α} {Q : Extent → α → Prop} (later : P.Later m₁ m)
    (keeps : ∀ depth : Nat,
      (P.control m.store).discipline.Keeps depth m.store.extent Q c)
    (reached : c.Reaches m m') : P.Later m₁ m' := by
  have start : P.Stands m.store (m.scopes.length - 1) m := by
    have some := List.length_pos_iff.mpr later.scopes
    exact ⟨later.toKept, by omega, .refl _⟩
  rcases reached with rfl | ⟨moment, passed, rfl⟩
  · exact later
  · obtain ⟨depth, stands⟩ := ((keeps _).holds start (le_refl _)).sound.1 moment passed
    have scopes : moment.machine.scopes ≠ [] := by
      intro none
      have length := stands.scopes
      rw [none] at length
      cases length
    exact later.trans ⟨stands.toKept, scopes, stands.retains⟩

theorem Later.block {b : Block} (later : P.Later m₁ m) (allows : P.Allows b)
    (reached : (execBlock (invoke levels) frame b).Reaches m m') : P.Later m₁ m' :=
  later.reach (fun depth => Discipline.execBlock_meets (Discipline.invoke_serves levels) b
    (Control.holds_any _ _ frame) ((binds_control _).fitsAll b allows depth)) reached

theorem Later.expr {e : Expr} (later : P.Later m₁ m)
    (reached : (evalExpr (invoke levels) frame e).Reaches m m') : P.Later m₁ m' :=
  later.reach (fun _ => Discipline.evalExpr_meets (Discipline.invoke_serves levels) e
    (Control.holds_any _ _ frame) fun _ _ => trivial) reached

theorem Later.exprs {es : List Expr} (later : P.Later m₁ m)
    (reached : (evalExprs (invoke levels) frame es).Reaches m m') : P.Later m₁ m' :=
  later.reach (fun _ => Discipline.evalExprs_meets (Discipline.invoke_serves levels) es
    (Control.holds_any _ _ frame) fun _ _ => trivial) reached

/-- Where nothing is pledged, any call may be made. -/
theorem Later.callWith {called : Callable} (later : empty.Later m₁ m)
    (reached : (callWith (invoke levels) called frame).Reaches m m') : empty.Later m₁ m' :=
  later.reach (fun _ => Discipline.callWith_meets (Discipline.invoke_serves levels)
    ⟨fun _ _ => trivial, fun _ _ _ _ => trivial, fun _ _ _ _ => trivial⟩
    fun f _ => empty_allows f.body) reached

end Pledge
end TreeScript
