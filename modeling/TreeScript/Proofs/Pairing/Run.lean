import TreeScript.Proofs.Declared
import TreeScript.Proofs.Loops.Own
import TreeScript.Proofs.Pairing.Copy

set_option autoImplicit false

/- Machines that are the same but for the numbers of their slots, and for variables that the scopes
of the first have declared ahead: these hold null, and nothing of the second corresponds to them.
Two computations are alike when from such machines they end in the same way, on such machines. -/
namespace TreeScript

variable {ρ ρ₁ : Pairing}

/-! Scopes -/

/-- How far the first of two scopes is ahead of the second one: not at all, or by some variables,
which come after those that both have. -/
inductive Lead where
  | level
  | ahead (both more : List String)

namespace Lead

/-- The variables that only the first scope has. -/
def names : Lead → List String
  | level => []
  | ahead _ more => more

/-- The variables that both scopes have; where they are level, any may be added. -/
def Has : Lead → String → Prop
  | level, _ => True
  | ahead both _, name => name ∈ both

end Lead

variable {X : Lead} {E : List Lead}

/-- The same variables in the same order, and after them those by which the first scope is ahead. -/
inductive Scope.Paired (ρ : Pairing) : Lead → Scope → Scope → Prop
  | level {scope scope' : Scope} (entries : ρ.Entries scope scope') : Paired ρ .level scope scope'
  | ahead {both more : List String} {scope extra scope' : Scope}
      (entries : ρ.Entries scope scope') (isBoth : Assoc.keys scope' = both)
      (isMore : Assoc.keys extra = more) (spare : ∀ entry ∈ extra, ρ.SpareLeft entry.2)
      (distinct : (extra.map (·.2)).Nodup) (apart : ∀ name ∈ more, name ∉ both) :
      Paired ρ (.ahead both more) (scope ++ extra) scope'

namespace Scope

variable {scope scope' extra : Scope} {name : String}

theorem set_append (declared : name ∈ Assoc.keys scope) (s : SlotId) :
    Assoc.set (scope ++ extra) name s = Assoc.set scope name s ++ extra := by
  induction scope with
  | nil => cases declared
  | cons entry rest ih =>
      obtain ⟨other, t⟩ := entry
      by_cases same : name = other
      · simp [Assoc.set, same]
      · have later : name ∈ Assoc.keys rest := List.mem_of_ne_of_mem same declared
        simpa [Assoc.set, same] using ih later

namespace Paired

theorem mono (grows : ρ ≤ ρ₁) : scope.Paired ρ X scope' → scope.Paired ρ₁ X scope'
  | .level entries => .level (entries.mono grows)
  | .ahead entries isBoth isMore spare distinct apart =>
      .ahead (entries.mono grows) isBoth isMore (fun e member => (spare e member).mono grows)
        distinct apart

theorem spare_handles (spare : ∀ entry ∈ extra, ρ.SpareLeft entry.2) :
    ρ.Handles (extra.map fun (_, s) => .slot s) [] := by
  induction extra with
  | nil => exact .nil
  | cons entry rest ih =>
      obtain ⟨first, later⟩ := List.forall_mem_cons.mp spare
      exact .left first (ih later)

theorem handles (paired : scope.Paired ρ X scope') :
    ρ.Handles (scope.map fun (_, s) => .slot s) (scope'.map fun (_, s) => .slot s) := by
  cases paired with
  | level entries => exact .of_entries entries
  | ahead entries _ _ spare _ _ =>
      simpa using (Pairing.Handles.of_entries entries).append (spare_handles spare)

/-- What both scopes have is not ahead. -/
theorem outside (paired : scope.Paired ρ X scope') (has : X.Has name) : name ∉ X.names := by
  cases paired with
  | level => exact List.not_mem_nil
  | ahead _ _ _ _ _ apart => exact fun member => apart name member has

theorem get? (paired : scope.Paired ρ X scope') (outside : name ∉ X.names) :
    Option.Rel ρ.pairs (Assoc.get? scope name) (Assoc.get? scope' name) := by
  cases paired with
  | level entries => exact entries.get? name
  | ahead entries _ isMore _ _ _ =>
      have absent := Assoc.get?_eq_none (isMore.symm ▸ outside)
      rw [Assoc.get?_append, absent, Option.or_none]
      exact entries.get? name

/-- A variable that is ahead has a slot without a partner, and the second scope lacks it. -/
theorem get?_ahead (paired : scope.Paired ρ X scope') (member : name ∈ X.names) :
    (∃ s, Assoc.get? scope name = some s ∧ ρ.SpareLeft s) ∧ name ∉ Assoc.keys scope' := by
  cases paired with
  | level => cases member
  | @ahead _ _ scope extra _ entries isBoth isMore spare _ apart =>
      have absent : name ∉ Assoc.keys scope' := isBoth ▸ apart name member
      have there : Assoc.contains extra name = true :=
        (Assoc.contains_iff_mem_keys _ _).mpr (isMore ▸ member)
      obtain ⟨s, found⟩ := Option.isSome_iff_exists.mp there
      refine ⟨⟨s, ?_, spare _ (Assoc.mem_of_get? found)⟩, absent⟩
      rw [Assoc.get?_append, Assoc.get?_eq_none (entries.keys ▸ absent), Option.none_or, found]

theorem contains (paired : scope.Paired ρ X scope') (outside : name ∉ X.names) :
    Assoc.contains scope name = Assoc.contains scope' name := by
  have found := paired.get? outside
  simp only [Assoc.contains]
  generalize Assoc.get? scope name = here at found ⊢
  generalize Assoc.get? scope' name = there at found ⊢
  cases found with
  | none => rfl
  | some _ => rfl

theorem has (paired : scope.Paired ρ X scope') (declared : Assoc.contains scope' name = true) :
    X.Has name := by
  cases paired with
  | level => trivial
  | ahead _ isBoth _ _ _ _ => exact isBoth ▸ (Assoc.contains_iff_mem_keys _ _).mp declared

theorem set (paired : scope.Paired ρ X scope') (has : X.Has name) {s s' : SlotId}
    (pair : ρ.pairs s s') : Paired ρ X (Assoc.set scope name s) (Assoc.set scope' name s') := by
  cases paired with
  | level entries => exact .level (entries.set name pair)
  | ahead entries isBoth isMore spare distinct apart =>
      have declared : name ∈ Assoc.keys scope' := isBoth ▸ has
      rw [set_append (entries.keys ▸ declared)]
      refine .ahead (entries.set name pair) ?_ isMore spare distinct apart
      rw [Assoc.keys_set, if_pos declared, isBoth]

/-- The same names are declared in scopes that are level. -/
theorem define {st st' : Store} (names : List String) (paired : scope.Paired ρ .level scope')
    (stores : st.Paired ρ st') :
    ρ.Ends (fun ρ scope scope' => scope.Paired ρ .level scope') (scope.define st names)
      (scope'.define st' names) := by
  induction names generalizing ρ scope scope' st st' with
  | nil => exact ⟨ρ, le_refl _, stores, paired⟩
  | cons name rest ih =>
      simp only [Scope.define, paired.contains (List.not_mem_nil : name ∉ Lead.level.names)]
      split
      · exact ih paired stores
      · obtain ⟨ρ₁, grows, stores₁, pair⟩ := stores.newSlot .null
        have paired₁ : Paired ρ₁ .level (scope ++ [(name, (st.newSlot .null).1)])
            (scope' ++ [(name, (st'.newSlot .null).1)]) := by
          cases paired.mono grows with
          | level entries => exact .level (List.rel_append entries (.cons ⟨rfl, pair⟩ .nil))
        obtain ⟨ρ₂, grows', stores₂, paired₂⟩ := ih paired₁ stores₁
        exact ⟨ρ₂, grows.trans grows', stores₂, paired₂⟩

end Paired

/-- Scopes within one another, with how far each is ahead. -/
inductive AllPaired (ρ : Pairing) : List Lead → List Scope → List Scope → Prop
  | nil : AllPaired ρ [] [] []
  | cons {X : Lead} {E : List Lead} {scope scope' : Scope} {outer outer' : List Scope}
      (inner : scope.Paired ρ X scope') (rest : AllPaired ρ E outer outer') :
      AllPaired ρ (X :: E) (scope :: outer) (scope' :: outer')

variable {scopes scopes' : List Scope}

theorem AllPaired.mono (grows : ρ ≤ ρ₁) (paired : AllPaired ρ E scopes scopes') :
    AllPaired ρ₁ E scopes scopes' := by
  induction paired with
  | nil => exact .nil
  | cons inner _ ih => exact .cons (inner.mono grows) ih

theorem AllPaired.handles (paired : AllPaired ρ E scopes scopes') :
    ρ.Handles (scopes.flatMap fun scope => scope.map fun (_, s) => .slot s)
      (scopes'.flatMap fun scope => scope.map fun (_, s) => .slot s) := by
  induction paired with
  | nil => exact .nil
  | cons inner _ ih =>
      rw [List.flatMap_cons, List.flatMap_cons]
      exact inner.handles.append ih

end Scope

/-! Machines -/

/-- The machines are the same but for the numbers of their slots, the variables that are ahead, and
the loops; and all functions there are have locals of their own. -/
structure Machine.Paired (ρ : Pairing) (E : List Lead) (m m' : Machine) : Prop where
  store : m.store.Paired ρ m'.store
  scopes : Scope.AllPaired ρ E m.scopes m'.scopes
  names : m.names = m'.names
  stdin : m.stdin = m'.stdin
  stdout : m.stdout = m'.stdout
  callDepth : m.callDepth = m'.callDepth
  callLimit : m.callLimit = m'.callLimit
  own : Session.LeavesOwn [] m.names m.store

variable {m m' : Machine}

theorem Machine.Paired.roots (paired : m.Paired ρ E m') : ρ.Handles m.roots m'.roots := by
  refine paired.scopes.handles.append ?_
  rw [← paired.names]
  induction m.names.classes with
  | nil => exact .nil
  | cons entry rest ih => exact .cons (.classData entry.2) ih

/-- A variable that is ahead has a slot without a partner. -/
theorem Machine.Paired.ahead {name : String} (paired : m.Paired ρ (X :: E) m')
    (member : name ∈ X.names) :
    ∃ scope outer, m.scopes = scope :: outer ∧
      ∃ s, Assoc.get? scope name = some s ∧ ρ.SpareLeft s := by
  have scopes := paired.scopes
  generalize m.scopes = all, m'.scopes = all' at scopes ⊢
  cases scopes with
  | cons inner _ => exact ⟨_, _, rfl, (inner.get?_ahead member).1⟩

/-- Machines whose stores have changed. -/
theorem Machine.Paired.withStore {st st' : Store} (paired : m.Paired ρ E m') (grows : ρ ≤ ρ₁)
    (stores : st.Paired ρ₁ st') (classes : st.classes = m.store.classes) :
    ({ m with store := st } : Machine).Paired ρ₁ E { m' with store := st' } :=
  { paired with
    store := stores
    scopes := paired.scopes.mono grows
    own := ⟨paired.own.functions, fun data member =>
      paired.own.methods data (classes ▸ member)⟩ }

/-! Computations -/

section computations

variable {α β : Type} {R : Pairing → α → α → Prop} {S : Pairing → β → β → Prop} {c c' : Run α}

/-- Two runs end in the same way, with results that are alike by a pairing that has grown. -/
inductive Pairing.EndAlike (ρ : Pairing) (E : List Lead) (R : Pairing → α → α → Prop) :
    EStateM.Result Fault Machine α → EStateM.Result Fault Machine α → Prop
  | ok {ρ₁ : Pairing} {a a' : α} {m m' : Machine} (grows : ρ ≤ ρ₁) (machines : m.Paired ρ₁ E m')
      (results : R ρ₁ a a') : EndAlike ρ E R (.ok a m) (.ok a' m')
  | error {ρ₁ : Pairing} {m m' : Machine} (f : Fault) (grows : ρ ≤ ρ₁)
      (machines : m.Paired ρ₁ E m') : EndAlike ρ E R (.error f m) (.error f m')

/-- From machines that are paired, two computations end in the same way. -/
def Pairing.Alike (ρ : Pairing) (E : List Lead) (R : Pairing → α → α → Prop)
    (c c' : Run α) : Prop :=
  ∀ m m', m.Paired ρ E m' → ρ.EndAlike E R (c.run m) (c'.run m')

namespace Pairing.Alike

theorem pure {a a' : α} (results : R ρ a a') : ρ.Alike E R (Pure.pure a) (Pure.pure a') :=
  fun _ _ paired => .ok (le_refl _) paired results

theorem fault (f : Fault) : ρ.Alike E R (.fault f) (.fault f) :=
  fun _ _ paired => .error f (le_refl _) paired

theorem fail (e : ScriptError) : ρ.Alike E R (Run.fail e) (Run.fail e) := .fault _

theorem note (event : Event) : ρ.Alike E Same (.note event) (.note event) :=
  fun _ _ paired => .ok (le_refl _) paired rfl

theorem bind {next next' : α → Run β} (first : ρ.Alike E R c c')
    (later : ∀ ρ₁, ρ ≤ ρ₁ → ∀ a a', R ρ₁ a a' → ρ₁.Alike E S (next a) (next' a')) :
    ρ.Alike E S (c >>= next) (c' >>= next') := by
  intro m m' paired
  have ended := first m m' paired
  generalize ran : c.run m = result, ran' : c'.run m' = result' at ended
  cases ended with
  | error f grows machines =>
      rw [Run.run_bind_error ran, Run.run_bind_error ran']
      exact .error f grows machines
  | ok grows machines results =>
      rw [Run.run_bind ran, Run.run_bind ran']
      have ended := later _ grows _ _ results _ _ machines
      generalize (next _).run _ = result, (next' _).run _ = result' at ended
      cases ended with
      | ok grows' machines results => exact .ok (grows.trans grows') machines results
      | error f grows' machines => exact .error f (grows.trans grows') machines

/-- Where results are the same, what follows goes by one of them. -/
theorem bindSame {next next' : α → Run β} (first : ρ.Alike E Same c c')
    (later : ∀ ρ₁, ρ ≤ ρ₁ → ∀ a, ρ₁.Alike E S (next a) (next' a)) :
    ρ.Alike E S (c >>= next) (c' >>= next') :=
  first.bind fun ρ₁ grows a _ same => same ▸ later ρ₁ grows a

/-- The machines are looked at. -/
theorem look {next next' : Machine → Run α}
    (later : ∀ m m', m.Paired ρ E m' → ρ.Alike E R (next m) (next' m')) :
    ρ.Alike E R (get >>= next) (get >>= next') :=
  fun m m' paired => later m m' paired m m' paired

theorem inspect {f f' : Store → α} (results : ∀ {st st'}, st.Paired ρ st' → R ρ (f st) (f' st')) :
    ρ.Alike E R (Run.inspect f) (Run.inspect f') :=
  fun _ _ paired => .ok (le_refl _) paired (results paired.store)

theorem update {f f' : Store → α × Store}
    (ends : ∀ {st st'}, st.Paired ρ st' → ρ.Ends R (f st) (f' st'))
    (classes : ∀ st, (f st).2.classes = st.classes) :
    ρ.Alike E R (Run.update f) (Run.update f') := by
  intro m m' paired
  obtain ⟨ρ₁, grows, stores, results⟩ := ends paired.store
  exact .ok grows (paired.withStore grows stores (classes m.store)) results

theorem alter {f f' : Store → Store}
    (ends : ∀ {st st'}, st.Paired ρ st' → ∃ ρ₁, ρ ≤ ρ₁ ∧ (f st).Paired ρ₁ (f' st'))
    (classes : ∀ st, (f st).classes = st.classes) :
    ρ.Alike E Same (Run.alter f) (Run.alter f') :=
  .update (fun stores =>
    have ⟨ρ₁, grows, ended⟩ := ends stores
    ⟨ρ₁, grows, ended, rfl⟩) classes

theorem change {f f' : Machine → Machine}
    (machines : ∀ {m m'}, m.Paired ρ E m' → (f m).Paired ρ E (f' m')) :
    ρ.Alike E Same (modify f : Run Unit) (modify f') :=
  fun _ _ paired => .ok (le_refl _) (machines paired) rfl

theorem ending (answer : Option α) : ρ.Alike E Same (Run.ending answer) (Run.ending answer) := by
  cases answer with
  | none => exact .fault _
  | some a => exact .pure rfl

/-- The same last step is taken on other machines than the first ones were. -/
theorem ensured {E' : List Lead} {last last' : Machine → Machine} {m m' : Machine}
    (ended : ρ.EndAlike E' R (c.run m) (c'.run m'))
    (machines : ∀ {ρ₁ m m'}, ρ ≤ ρ₁ → m.Paired ρ₁ E' m' → (last m).Paired ρ₁ E (last' m')) :
    ρ.EndAlike E R ((c.ensure last).run m) ((c'.ensure last').run m') := by
  rw [Run.run_ensure, Run.run_ensure]
  generalize c.run m = result, c'.run m' = result' at ended
  cases ended with
  | ok grows paired results => exact .ok grows (machines grows paired) results
  | error f grows paired => exact .error f grows (machines grows paired)

theorem inNewScope (body : ρ.Alike (.level :: E) R c c') :
    ρ.Alike E R (TreeScript.inNewScope c) (TreeScript.inNewScope c') := by
  intro m m' paired
  have inner : ({ m with scopes := [] :: m.scopes } : Machine).Paired ρ (.level :: E)
      { m' with scopes := [] :: m'.scopes } :=
    { paired with scopes := .cons (.level .nil) paired.scopes }
  refine ensured (body _ _ inner) fun {ρ₁ m m'} _ paired => ?_
  have outer : Scope.AllPaired ρ₁ E m.scopes.tail m'.scopes.tail := by
    have scopes := paired.scopes
    generalize m.scopes = all, m'.scopes = all' at scopes ⊢
    cases scopes with
    | cons _ rest => exact rest
  exact { paired with scopes := outer }

theorem enterCall : ρ.Alike E Same TreeScript.enterCall TreeScript.enterCall := by
  refine .look fun m m' paired => ?_
  rw [paired.callLimit, paired.callDepth]
  split
  · exact .fail _
  · exact .change fun paired => { paired with callDepth := congrArg (· + 1) paired.callDepth }

theorem inCall (body : ∀ ρ₁, ρ ≤ ρ₁ → ρ₁.Alike E R c c') :
    ρ.Alike E R (Own.inCall c) (Own.inCall c') := by
  refine enterCall.bindSame fun ρ₁ grows _ m m' paired => ?_
  refine ensured (body ρ₁ grows m m' paired) fun _ paired => ?_
  exact { paired with callDepth := congrArg (· - 1) paired.callDepth }

theorem write (text : String) : ρ.Alike E Same (Run.write text) (Run.write text) := by
  refine .look fun m m' paired => ?_
  rw [paired.stdout]
  split
  · exact .change fun paired => { paired with stdout := rfl }
  · exact .fault _

theorem readLine : ρ.Alike E Same Run.readLine Run.readLine := by
  refine .look fun m m' paired => ?_
  rw [paired.stdin]
  split
  · exact .pure rfl
  · refine .bindSame (.change fun paired => { paired with stdin := rfl }) fun _ _ _ => .pure rfl

end Pairing.Alike
end computations
end TreeScript
