import TreeScript.Session
import TreeScript.Proofs.Discipline.Execution

set_option autoImplicit false

/- What a session goes through, program after program. A discipline that each program finds and
leaves in order holds at every moment of the history. -/
namespace TreeScript
namespace Session

/-- The moments of a program, its start included. -/
def moments (s : Session) (p : Code.Program) : List Moment :=
  ⟨none, s.withBuiltins.boot p⟩ :: (runBody p.code).trace (s.withBuiltins.boot p)

/-- The moments of a tree, which is run only if it compiles to a program. -/
def momentsOf (s : Session) (tree : Node) : List Moment :=
  match tree with
  | .program _ =>
      match Compile.program tree with
      | .ok p => s.moments p
      | .error _ => []
  | _ => []

/-- The moments of trees that are evaluated one after the other. -/
def history (s : Session) : List Node → List Moment
  | [] => []
  | tree :: rest => s.momentsOf tree ++ (s.evaluate tree).2.history rest

/-- A tree that is not run leaves the session as it is, and causes no fault. -/
theorem evaluate_cases (s : Session) (tree : Node) :
    (s.momentsOf tree = [] ∧ (s.evaluate tree).2 = s ∧
        ∀ f, (s.evaluate tree).1 ≠ .error (.runtime f)) ∨
      ∃ p, Compile.program tree = .ok p ∧ s.momentsOf tree = s.moments p ∧
        s.evaluate tree = s.execute p := by
  cases tree with
  | program statements =>
      cases compiled : Compile.program (.program statements) with
      | ok p => exact .inr ⟨p, rfl, by simp [momentsOf, compiled], by simp [evaluate, compiled]⟩
      | error e => exact .inl ⟨by simp [momentsOf, compiled], by simp [evaluate, compiled]⟩
  | _ => exact .inl ⟨rfl, rfl, by simp [evaluate]⟩

variable {D : Discipline} {i : D.Index}

theorem runBody_keeps {body : Code.Block} (e : Extent) (fits : D.FitsAll i body) :
    D.Keeps i e D.KnownFlow (runBody body) := by
  have looked : D.Meets i i e (fun _ => i) Discipline.Any get :=
    Discipline.meets_get fun _ _ _ => trivial
  apply looked.bind
  intro e₁ _ m _
  refine Discipline.execBlock_meets (Discipline.invoke_serves _) body ?_ fits
  exact ⟨by simp [Discipline.Holds], by simp, by simp⟩

/-- A program that is begun in good order stays in it throughout, and the session goes on with
the machine it leaves. -/
theorem execute_keeps {s : Session} {p : Code.Program} (good : D.good i (s.withBuiltins.boot p))
    (fits : D.FitsAll i p.code) :
    (∀ moment ∈ s.moments p, D.moment moment) ∧
      (s.execute p).1 ≠ .error (.runtime .noScope) ∧
      ∃ m, D.good i m ∧ ((s.execute p).2 = s.withBuiltins.resume m ∨
        ∃ f, (s.execute p).2 = (s.withBuiltins.resume m).report f) := by
  obtain ⟨passed, ended⟩ := ((runBody_keeps _ fits).holds good (le_refl _)).sound
  refine ⟨List.forall_mem_cons.mpr ⟨D.seen good, passed⟩, ?_⟩
  cases ran : (runBody p.code).run (s.withBuiltins.boot p) with
  | ok flow m =>
      rw [ran] at ended
      simp only [execute, ran]
      exact ⟨by simp, m, ended.2.1, .inl rfl⟩
  | error f m =>
      rw [ran] at ended
      simp only [execute, ran]
      exact ⟨by simpa using ended.2.2, m, ended.2.1, .inr ⟨f, rfl⟩⟩

/-! What goes over from one program to the next -/

theorem names_create (config : Config) (builtins : Bool) (stdin : List String)
    (stdout stderr : Output) :
    (create config builtins stdin stdout stderr).names = .empty config.rootPath := by
  simp [names, create, Namespaces.opened, Assoc.get?]

theorem names_resume (s : Session) (m : Machine) : (s.resume m).names = m.names := by
  simp [names, resume, Namespaces.opened]

theorem names_withBuiltins (s : Session) :
    (s.withBuiltins.names = s.names ∧ s.withBuiltins.store = s.store) ∨
      (s.withBuiltins.names = (Builtin.install s.names s.store).1 ∧
        s.withBuiltins.store = (Builtin.install s.names s.store).2) := by
  by_cases awaits : s.awaitsBuiltins
  · right
    simp [withBuiltins, awaits, names, Namespaces.opened]
  · left
    simp only [withBuiltins, awaits, names, Namespaces.opened]
    cases known : Assoc.get? s.namespaces (pathKey s.config.rootPath) with
    | none => simp
    | some n => simp [known]

theorem globals_withBuiltins (s : Session) : s.withBuiltins.globals = s.globals := by
  unfold withBuiltins
  split <;> rfl

/-- What the installation of each builtin keeps, the installation of all keeps. -/
theorem install_keeps {P : Namespace → Store → Prop}
    (function : ∀ {n st} (b : Builtin), P n st → P (n.defineFunction b.name (.builtin b)) st)
    (classes : ∀ {n st data}, data ∈ Builtin.classes → P n st →
      P (n.defineClass data.name (st.newClass data).1) (st.newClass data).2)
    {n : Namespace} {st : Store} (start : P n st) :
    P (Builtin.install n st).1 (Builtin.install n st).2 := by
  have functions : ∀ (all : List Builtin) (n : Namespace), P n st →
      P (Builtin.installFunctions n all) st := by
    intro all
    induction all with
    | nil => exact fun n holds => holds
    | cons b rest ih => exact fun n holds => ih _ (function b holds)
  have further : ∀ (all : List ClassData) (n : Namespace) (st : Store),
      (∀ data ∈ all, data ∈ Builtin.classes) → P n st →
      P (Builtin.installClasses n st all).1 (Builtin.installClasses n st all).2 := by
    intro all
    induction all with
    | nil => exact fun n st _ holds => holds
    | cons data rest ih =>
        intro n st listed holds
        obtain ⟨here, later⟩ := List.forall_mem_cons.mp listed
        exact ih _ _ later (classes here holds)
  rw [Builtin.install]
  exact further _ _ _ (fun _ member => member) (functions _ n start)

theorem report_keeps (s : Session) (f : Fault) :
    (s.report f).globals = s.globals ∧ (s.report f).names = s.names ∧
      (s.report f).store = s.store := by
  cases f <;> exact ⟨rfl, rfl, rfl⟩

/-- What the installation keeps, and each program needs at its start and leaves at its end, is
enough for a discipline to hold while a tree is evaluated, and is there again for the next. -/
theorem evaluate_keeps {P : Scope → Namespace → Store → Prop}
    (install : ∀ {globals n st}, P globals n st →
      P globals (Builtin.install n st).1 (Builtin.install n st).2)
    (begins : ∀ {s : Session} {tree p}, P s.globals s.names s.store →
      Compile.program tree = .ok p → ∃ i, D.good i (s.boot p) ∧ D.FitsAll i p.code ∧
        ∀ m, D.good i m → P (m.scopes.headD []) m.names m.store)
    (tree : Node) {s : Session} (ready : P s.globals s.names s.store) :
    (∀ moment ∈ s.momentsOf tree, D.moment moment) ∧
      P (s.evaluate tree).2.globals (s.evaluate tree).2.names (s.evaluate tree).2.store := by
  rcases s.evaluate_cases tree with ⟨none, same, -⟩ | ⟨p, compiled, isRun, runs⟩
  · rw [none, same]
    exact ⟨by simp, ready⟩
  · have installed : P s.withBuiltins.globals s.withBuiltins.names s.withBuiltins.store := by
      rw [globals_withBuiltins]
      rcases s.names_withBuiltins with ⟨names, store⟩ | ⟨names, store⟩ <;> rw [names, store]
      · exact ready
      · exact install ready
    obtain ⟨i, good, fits, leaves⟩ := begins installed compiled
    obtain ⟨passed, -, m, left, ended⟩ := execute_keeps good fits
    rw [isRun, runs]
    refine ⟨passed, ?_⟩
    rcases ended with same | ⟨f, same⟩ <;> rw [same]
    · rw [names_resume]
      exact leaves m left
    · obtain ⟨globals, names, store⟩ := report_keeps (s.withBuiltins.resume m) f
      rw [globals, names, store, names_resume]
      exact leaves m left

/-- So the discipline holds throughout. -/
theorem history_keeps {P : Scope → Namespace → Store → Prop}
    (install : ∀ {globals n st}, P globals n st →
      P globals (Builtin.install n st).1 (Builtin.install n st).2)
    (begins : ∀ {s : Session} {tree p}, P s.globals s.names s.store →
      Compile.program tree = .ok p → ∃ i, D.good i (s.boot p) ∧ D.FitsAll i p.code ∧
        ∀ m, D.good i m → P (m.scopes.headD []) m.names m.store)
    (trees : List Node) {s : Session} (ready : P s.globals s.names s.store) :
    ∀ moment ∈ s.history trees, D.moment moment := by
  induction trees generalizing s with
  | nil => simp [history]
  | cons tree rest ih =>
      obtain ⟨passed, next⟩ := evaluate_keeps (P := P) install begins tree ready
      rw [history]
      exact List.forall_mem_append.mpr ⟨passed, ih next⟩

end Session
end TreeScript
