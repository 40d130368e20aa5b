import TreeScript.Proofs.Isolation.Outset
import TreeScript.Proofs.Uniform.Evaluation

set_option autoImplicit false

/- What the declaration of a class leaves: the class under its name, with the defaults as evaluated.
Those that are written out as literals are in no slot then. -/
namespace TreeScript

open Code (Expr Stmt ClassDefinition)

/-- Numbers, texts and the like, and arrays with entries of any kind. -/
def Code.Expr.isLiteral : Expr → Bool
  | .null | .boolean _ | .integer _ | .float _ | .string _ | .array _ => true
  | _ => false

namespace Discipline

variable {D : Discipline} {b i : D.Index} {e : Extent} {user : UserCall} {frame : Frame}

theorem plain_loose {v : Value} (plain : v.handles = []) :
    D.Meets b i e (fun v => D.hold i v) D.Known (pure v) := by
  refine Meets.strengthen (.pureAt rfl fun _ _ => known_plain plain) fun _ => D.plain ?_
  rintro a rfl
  simp [Value.handles] at plain

/-- A literal gives a value that nothing holds yet. -/
theorem literal_loose (serves : D.Serves user) {x : Expr} (literal : x.isLiteral = true)
    (known : D.KnownFrame e frame) (writes : D.Writes i x.written) :
    D.Meets i i e (fun v => D.hold i v) D.Known (evalExpr user frame x) := by
  cases x with
  | null | boolean | integer | float | string =>
      rw [evalExpr]
      exact plain_loose rfl
  | array entries =>
      rw [evalExpr]
      exact (evalEntries_meets serves entries known writes).bind fun _ grows values valuesKnown =>
        arrayOf_loose (known.held.mono grows) values valuesKnown
  | _ => cases literal

/-- Defaults that are literals give values that nothing holds when the last of them is evaluated. -/
theorem literals_loose (serves : D.Serves user) (free : ∀ i name, D.writable i name)
    (defaults : List (String × Expr)) (literal : ∀ entry ∈ defaults, entry.2.isLiteral = true)
    (known : D.KnownFrame e frame) (back : ∀ m, D.good i m → D.good b m) :
    D.Meets b i e (fun values => D.holdAll i (values.map (·.2)))
      (fun e values => ∀ entry ∈ values, D.Known e entry.2) (evalDefaults user frame defaults) := by
  induction defaults generalizing i e frame with
  | nil =>
      rw [evalDefaults]
      exact .pureAt rfl fun _ _ => by simp
  | cons entry rest ih =>
      obtain ⟨literalHere, literalRest⟩ := List.forall_mem_cons.mp literal
      rw [evalDefaults]
      apply ((literal_loose serves literalHere known fun name _ => free i name).weaken back).bind
      intro e₁ grows₁ v valueKnown
      apply (ih literalRest (known.beyond grows₁ valueKnown) fun m good =>
        back m (D.forget good)).bind
      intro e₂ grows₂ more moreKnown
      refine .pureAt rfl fun e₃ grows₃ => List.forall_mem_cons.mpr ⟨?_, ?_⟩
      · exact valueKnown.mono (grows₂.trans grows₃)
      · exact fun entry member => (moreKnown entry member).mono grows₃

end Discipline

/-! A declaration that succeeds -/

/-- The class that a definition makes with these defaults. -/
def Code.ClassDefinition.made (definition : ClassDefinition Stmt) (name : String)
    (defaults : List (String × Value)) : ClassData :=
  definition.methods.foldl (fun data (key, f) => data.defineMethod key (.user f))
    ⟨name, defaults, []⟩

theorem Code.ClassDefinition.handles_made (definition : ClassDefinition Stmt) (name : String)
    (defaults : List (String × Value)) :
    (definition.made name defaults).handles = defaults.flatMap (·.2.handles) :=
  (Discipline.defineMethods_spec definition.methods ⟨name, defaults, []⟩).1

/-- A declaration evaluates the name and the defaults, adds a class with these, and names it. -/
theorem defineClass_ok {user : UserCall} {frame : Frame} {definition : ClassDefinition Stmt}
    {m₀ m : Machine} (declared : (defineClass user frame definition) m₀ = .ok () m) :
    ∃ v m₁ defaults m₂, (evalExpr user frame definition.name) m₀ = .ok v m₁ ∧
      (evalDefaults user frame definition.properties) m₁ = .ok defaults m₂ ∧
      m = { m₂ with
        store := (m₂.store.newClass (definition.made (m₁.store.toText v) defaults)).2
        names := m₂.names.defineClass (m₁.store.toText v)
          (m₂.store.newClass (definition.made (m₁.store.toText v) defaults)).1 } := by
  obtain ⟨v, m₁, named, declared⟩ := Run.of_run_bind declared
  obtain ⟨_, _, looked, declared⟩ := Run.of_run_bind declared
  cases looked
  obtain ⟨defaults, m₂, evaluated, declared⟩ := Run.of_run_bind declared
  cases declared
  exact ⟨v, m₁, defaults, m₂, named, evaluated, rfl⟩

/-! What a declaration leaves as it was -/

/-- What goes through no loop of its own leaves the table of loops, calls included. -/
theorem Uniform.loops_kept {α : Type} {p : Recursion → Run α} (uniform : Uniform False p)
    {r : Recursion} (calls : ∀ f frame m, (Run.left ((r.call f frame) m)).loops = m.loops)
    (m : Machine) : (Run.left ((p r) m)).loops = m.loops := by
  induction uniform generalizing m with
  | pure a => rfl
  | fault f => rfl
  | note event => rfl
  | step plain => exact plain.loops m
  | write text =>
      rw [Run.run_write]
      split <;> rfl
  | look see blind withLoops next ih => exact ih _ m
  | @bind _ _ p q first next ihFirst ihNext =>
      cases ran : (p r).run m with
      | ok a m₁ =>
          have kept := ihFirst m
          rw [ran] at kept
          rw [Run.run_bind ran, ihNext a m₁]
          exact kept
      | error f m₁ =>
          have kept := ihFirst m
          rw [ran] at kept
          rw [Run.run_bind_error ran]
          exact kept
  | «scoped» body ih =>
      rw [Run.run_inNewScope, Run.left_after]
      exact ih _
  | call f frame => exact calls f frame m
  | loop loops => exact loops.elim

theorem invoke_loops (levels : Nat) (f : Code.Function Stmt) (frame : Frame) (m : Machine) :
    (Run.left ((invoke levels f frame) m)).loops = m.loops := by
  cases levels with
  | zero => rfl
  | succ levels =>
      rw [invoke, Run.run_inCall]
      split
      · rfl
      · rw [Run.left_after]

/-- A frame and a machine as evaluation has them: what the frame brings along is there and held, and
so are the arrays that loops walk. -/
structure Frame.Suits (frame : Frame) (m : Machine) : Prop where
  sound : m.Sound 0
  scopes : m.scopes ≠ []
  inside : ∀ h ∈ frame.held, h.Within m.store.extent
  arguments : ∀ v ∈ frame.arguments, ∀ h ∈ v.handles, h ∈ frame.held
  receiver : ∀ v ∈ frame.receiver, ∀ h ∈ v.handles, h ∈ frame.held
  loops : ∀ loop, some loop ∈ m.loops → .array loop.array ∈ frame.held

namespace Frame.Suits

variable {frame : Frame} {m₀ m : Machine} {levels : Nat} {definition : ClassDefinition Stmt}

theorem length (suits : frame.Suits m) : m.scopes.length = m.scopes.length - 1 + 1 := by
  have some := List.length_pos_iff.mpr suits.scopes
  omega

theorem good (suits : frame.Suits m) :
    ownership.good ((0 : Multiset ArrayId), m.scopes.length - 1) m := ⟨suits.sound, suits.length⟩

theorem knownFrame (suits : frame.Suits m) : ownership.KnownFrame m.store.extent frame where
  held := suits.inside
  arguments v passed h held := suits.inside h (suits.arguments v passed h held)
  receiver v passed h held := suits.inside h (suits.receiver v passed h held)

/-- After a declaration the frame suits the machine as before. -/
theorem declare (suits : frame.Suits m₀)
    (declared : (defineClass (invoke levels) frame definition) m₀ = .ok () m) : frame.Suits m := by
  have ended := ((Discipline.defineClass_meets (Discipline.invoke_serves levels) suits.knownFrame
    definition (fun _ _ => trivial) (fun _ _ => trivial) fun _ _ => trivial).holds suits.good
    (le_refl _)).sound.2
  rw [declared] at ended
  obtain ⟨grows, ⟨sound, length⟩, -⟩ := ended
  have loops : m.loops = m₀.loops := by
    have kept := (defineClass_uniform frame definition).loops_kept
      (r := .bounded levels) (invoke_loops levels) m₀
    rwa [show (defineClass (Recursion.bounded levels).call frame definition).run m₀ = _ from
      declared] at kept
  refine ⟨sound, ?_, fun h member => (suits.inside h member).mono grows, suits.arguments,
    suits.receiver, loops ▸ suits.loops⟩
  rintro none
  simp [none] at length

end Frame.Suits

/-! The class that is declared -/

section declared

variable {frame : Frame} {m₀ m : Machine} {levels : Nat} {definition : ClassDefinition Stmt}
  {c : ClassId}

theorem Store.eq_of_latest {st : Store} {data : ClassData}
    (latest : (st.newClass data).2.classes.size = c.index + 1) : c = (st.newClass data).1 := by
  obtain ⟨index⟩ := c
  simpa [newClass, eq_comm] using latest

theorem declared_named (declared : (defineClass (invoke levels) frame definition) m₀ = .ok () m)
    (latest : m.store.classes.size = c.index + 1) :
    .classData c ∈ m.namedClasses := by
  obtain ⟨v, m₁, defaults, m₂, -, -, rfl⟩ := defineClass_ok declared
  obtain rfl := Store.eq_of_latest latest
  exact List.mem_map.mpr ⟨_, Assoc.mem_of_get? (Assoc.get?_set_self _ _ _), rfl⟩

theorem mem_holdAll {i : ownership.Index} {values : List Value} {a : ArrayId}
    (member : .array a ∈ values) : a ∈ (ownership.holdAll i values).1 := by
  induction values with
  | nil => cases member
  | cons v rest ih =>
      rw [Discipline.holdAll_cons]
      rcases List.mem_cons.mp member with rfl | later
      · exact Multiset.mem_cons_self a _
      · exact Store.mem_withArray (ih later)

/-- No array of a literal default is in a slot. -/
theorem declared_literals (suits : frame.Suits m₀)
    (declared : (defineClass (invoke levels) frame definition) m₀ = .ok () m)
    (latest : m.store.classes.size = c.index + 1)
    (literal : ∀ entry ∈ definition.properties, entry.2.isLiteral = true) :
    ∀ a, .array a ∈ (m.store.classData c).handles → ∀ s, m.store.read s ≠ .array a := by
  obtain ⟨v, m₁, defaults, m₂, named, evaluated, rfl⟩ := defineClass_ok declared
  obtain rfl := Store.eq_of_latest latest
  have first := ((Discipline.evalExpr_meets (Discipline.invoke_serves levels) definition.name
    suits.knownFrame fun _ _ => trivial).holds suits.good (le_refl _)).sound.2
  rw [named] at first
  obtain ⟨grows, good, -⟩ := first
  have second := ((Discipline.literals_loose (Discipline.invoke_serves levels)
    (fun _ _ => trivial) definition.properties literal (suits.knownFrame.mono grows)
    fun _ good => good).holds good (le_refl _)).sound.2
  rw [evaluated] at second
  obtain ⟨-, ⟨sound, -⟩, -⟩ := second
  intro a member s
  have own : .array a ∈ defaults.flatMap (·.2.handles) := by
    rw [← definition.handles_made]
    simpa [Store.classData, Store.newClass] using member
  obtain ⟨entry, listed, held⟩ := List.mem_flatMap.mp own
  have isArray : .array a = entry.2 := by
    rcases Value.mem_handles held with ⟨b, isArray, same⟩ | ⟨_, _, same⟩
    · cases same
      exact isArray.symm
    · cases same
  exact sound.owned.unheld a (mem_holdAll (List.mem_map.mpr ⟨entry, listed, isArray.symm⟩)) s

end declared

end TreeScript
