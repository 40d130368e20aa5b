import TreeScript.Proofs.Operands.Taken
import TreeScript.Proofs.Pairing.Execution

set_option autoImplicit false

/- Where the variables of two machines part and meet again: the first machine declares names ahead
of the second one, and later the second one declares them too. -/
namespace TreeScript

variable {ρ : Pairing}

namespace Scope

/-! Declaring names -/

/-- The names that are not known yet, each once. -/
def fresh (known : List String) : List String → List String
  | [] => []
  | name :: rest =>
      if name ∈ known then fresh known rest else name :: fresh (known ++ [name]) rest

theorem fresh_apart {known names : List String} : ∀ name ∈ fresh known names, name ∉ known := by
  induction names generalizing known with
  | nil => simp [fresh]
  | cons name rest ih =>
      rw [fresh]
      split
      · exact ih
      · next new =>
          refine List.forall_mem_cons.mpr ⟨new, fun other member there => ?_⟩
          exact ih other member (List.mem_append_left _ there)

theorem define_append (scope : Scope) (st : Store) (first second : List String) :
    scope.define st (first ++ second) =
      (scope.define st first).1.define (scope.define st first).2 second := by
  induction first generalizing scope st with
  | nil => rfl
  | cons name rest ih =>
      simp only [List.cons_append, define]
      split
      · exact ih _ _
      · exact ih _ _

theorem define_addLocal (scope : Scope) (st : Store) (locals : List String) (name : String) :
    scope.define st (Compile.addLocal locals name) =
      (scope.define st locals).1.define (scope.define st locals).2 [name] := by
  unfold Compile.addLocal
  split
  · next listed =>
      obtain ⟨added, same, declared, -⟩ := Discipline.define_spec locals scope st
      have there : Assoc.contains (scope.define st locals).1 name = true := by
        rw [Assoc.contains_iff_mem_keys, same]
        exact declared name (by simpa using listed)
      simp only [define, there, if_true]
  · exact define_append scope st locals [name]

/-- Names that are added to locals are declared after them. -/
theorem define_addLocals (scope : Scope) (st : Store) (locals added : List String) :
    scope.define st (added.foldl Compile.addLocal locals) =
      (scope.define st locals).1.define (scope.define st locals).2 added := by
  induction added generalizing locals with
  | nil => rfl
  | cons name rest ih =>
      rw [List.foldl_cons, ih, define_addLocal, ← define_append, List.singleton_append]

namespace Paired

variable {scope scope' : Scope} {both more : List String} {st st' : Store}

theorem keys_ahead (paired : scope.Paired ρ (.ahead both more) scope') :
    Assoc.keys scope = both ++ more := by
  cases paired with
  | ahead entries isBoth isMore _ _ _ =>
      rw [← isMore, ← isBoth, ← entries.keys]
      simp [Assoc.keys]

/-- Scopes that are level, with the variables they have now. -/
theorem ahead_of_level (paired : scope.Paired ρ .level scope') :
    scope.Paired ρ (.ahead (Assoc.keys scope') []) scope' := by
  cases paired with
  | level entries =>
      rw [← List.append_nil scope]
      exact .ahead entries rfl rfl (by simp) (by simp) (by simp)

/-- The first scope declares names of which the second one knows nothing. -/
theorem defineLeft (names : List String) (paired : scope.Paired ρ (.ahead both more) scope')
    (stores : st.Paired ρ st') :
    ∃ ρ₁, ρ ≤ ρ₁ ∧ (scope.define st names).2.Paired ρ₁ st' ∧
      (scope.define st names).1.Paired ρ₁ (.ahead both (more ++ fresh (both ++ more) names))
        scope' := by
  induction names generalizing ρ scope st more with
  | nil => exact ⟨ρ, le_refl _, stores, by simpa [fresh, Scope.define] using paired⟩
  | cons name rest ih =>
      have declared := Assoc.contains_iff_mem_keys scope name
      rw [paired.keys_ahead] at declared
      rw [Scope.define, fresh]
      by_cases there : name ∈ both ++ more
      · rw [if_pos (declared.mpr there), if_pos there]
        exact ih paired stores
      · rw [if_neg (mt declared.mp there), if_neg there]
        have new : (st.newSlot .null).1 = ⟨ρ.left⟩ := congrArg SlotId.mk stores.left
        have grows := ρ.grows_widenLeft
        have wider : Paired ρ.widenLeft (.ahead both (more ++ [name]))
            (scope ++ [(name, (st.newSlot .null).1)]) scope' := by
          cases paired with
          | @ahead _ _ own extra _ entries isBoth isMore spare distinct apart =>
              rw [List.append_assoc]
              refine .ahead (entries.mono grows) isBoth (by simp [Assoc.keys, ← isMore]) ?_ ?_ ?_
              · refine List.forall_mem_append.mpr ⟨fun e member => (spare e member).mono grows, ?_⟩
                simpa [new] using ρ.spareLeft_widenLeft
              · rw [List.map_append, List.nodup_append]
                refine ⟨distinct, by simp, fun s member t isNew same => ?_⟩
                obtain ⟨e, listed, rfl⟩ := List.mem_map.mp member
                have last : e.2 = ⟨ρ.left⟩ := by simpa [new, same] using isNew
                exact Nat.lt_irrefl _ (last ▸ (spare e listed).1)
              · refine List.forall_mem_append.mpr ⟨apart, ?_⟩
                simpa using fun inBoth => there (List.mem_append_left _ inBoth)
        obtain ⟨ρ₁, grows', stores₁, paired₁⟩ := ih wider stores.newLeft
        refine ⟨ρ₁, grows.trans grows', stores₁, ?_⟩
        simpa using paired₁

/-- The second scope declares the names by which the first one is ahead. -/
theorem catchUp (names : List String)
    (paired : scope.Paired ρ (.ahead both (fresh both names)) scope') (stores : st.Paired ρ st') :
    ∃ ρ₁, st.Paired ρ₁ (scope'.define st' names).2 ∧
      scope.Paired ρ₁ .level (scope'.define st' names).1 := by
  induction names generalizing ρ scope' st' both with
  | nil =>
      refine ⟨ρ, stores, ?_⟩
      cases paired with
      | ahead entries _ isMore _ _ _ =>
          rw [List.map_eq_nil_iff.mp isMore, List.append_nil]
          exact .level entries
  | cons name rest ih =>
      have declared := Assoc.contains_iff_mem_keys scope' name
      rw [fresh] at paired
      rw [Scope.define]
      generalize isFresh : (if name ∈ both then fresh both rest
        else name :: fresh (both ++ [name]) rest) = more at paired
      cases paired with
      | @ahead _ _ own extra _ entries isBoth isMore spare distinct apart =>
          rw [isBoth] at declared
          by_cases there : name ∈ both
          · rw [if_pos there] at isFresh
            rw [if_pos (declared.mpr there)]
            exact ih (.ahead entries isBoth (isMore.trans isFresh.symm) spare distinct
              (isFresh ▸ apart)) stores
          · rw [if_neg there] at isFresh
            rw [if_neg (mt declared.mp there)]
            obtain ⟨⟨name, s⟩, extra, rfl, rfl, later⟩ :
                ∃ e rest', extra = e :: rest' ∧ e.1 = name ∧
                  Assoc.keys rest' = fresh (both ++ [name]) rest :=
              List.map_eq_cons_iff.mp (isMore.trans isFresh.symm)
            obtain ⟨first, others⟩ := List.forall_mem_cons.mp spare
            obtain ⟨alone, distinct⟩ := List.nodup_cons.mp distinct
            have new : (st'.newSlot .null).1 = ⟨ρ.right⟩ := congrArg SlotId.mk stores.right
            have entries : (ρ.wed s first).Entries own scope' :=
              entries.imp fun _ _ pair => ⟨pair.1, .inl pair.2⟩
            have closer : Paired (ρ.wed s first)
                (.ahead (both ++ [name]) (fresh (both ++ [name]) rest))
                (own ++ [(name, s)] ++ extra) (scope' ++ [(name, (st'.newSlot .null).1)]) := by
              refine .ahead (List.rel_append entries (.cons ⟨rfl, .inr ⟨rfl, new⟩⟩ .nil))
                (by simp [Assoc.keys, ← isBoth]) later (fun e member => ?_) distinct fresh_apart
              refine ⟨(others e member).1, fun t pair => ?_⟩
              rcases pair with old | ⟨same, -⟩
              · exact (others e member).2 t old
              · exact alone (same ▸ List.mem_map.mpr ⟨e, member, rfl⟩)
            rw [List.append_assoc, List.singleton_append] at closer
            exact ih closer (stores.wed first)

end Paired
end Scope

/-! Machines -/

/-- The machine after its current scope has declared names. -/
def Machine.declaring (m : Machine) (names : List String) : Machine :=
  { m with
    store := ((m.scopes.headD []).define m.store names).2
    scopes := ((m.scopes.headD []).define m.store names).1 :: m.scopes.tail }

theorem Machine.declaring_nil {scope : Scope} {outer : List Scope} (m : Machine)
    (isScope : m.scopes = scope :: outer) : m.declaring [] = m := by
  obtain ⟨st, scopes, names, stdin, stdout, depth, limit, loops⟩ := m
  subst isScope
  rfl

namespace Machine.Paired

variable {m m' : Machine} {X : Lead} {both : List String}

theorem scope (paired : m.Paired ρ [X] m') :
    ∃ scope scope', m.scopes = [scope] ∧ m'.scopes = [scope'] ∧ scope.Paired ρ X scope' := by
  have scopes := paired.scopes
  generalize m.scopes = all, m'.scopes = all' at scopes ⊢
  cases scopes with
  | cons inner rest =>
      cases rest
      exact ⟨_, _, rfl, rfl, inner⟩

/-- Both machines have declared names, perhaps different ones. -/
theorem declaring {ρ₁ : Pairing} {X' : Lead} {names names' : List String}
    (paired : m.Paired ρ [X] m')
    (stores : (m.declaring names).store.Paired ρ₁ (m'.declaring names').store)
    (scopes : ((m.scopes.headD []).define m.store names).1.Paired ρ₁ X'
      ((m'.scopes.headD []).define m'.store names').1) :
    (m.declaring names).Paired ρ₁ [X'] (m'.declaring names') := by
  obtain ⟨scope, scope', isScope, isScope', -⟩ := paired.scope
  refine { paired with
    store := stores
    scopes := ?_
    own := ⟨paired.own.functions, fun data member => ?_⟩ }
  · simp only [Machine.declaring, isScope, isScope', List.tail_cons] at scopes ⊢
    exact .cons scopes .nil
  · simp only [Machine.declaring, classes_define] at member
    exact paired.own.methods data member

/-- Both machines declare the locals, and the first one declares more. -/
theorem part (paired : m.Paired ρ [.level] m') (locals added : List String) :
    ∃ ρ₁ both, (∀ name ∈ locals, name ∈ both) ∧
      (m.declaring (added.foldl Compile.addLocal locals)).Paired ρ₁
        [.ahead both (Scope.fresh both added)] (m'.declaring locals) := by
  obtain ⟨scope, scope', isScope, isScope', scopes⟩ := paired.scope
  obtain ⟨ρ₁, grows, stores, scopes⟩ := scopes.define locals paired.store
  obtain ⟨ρ₂, grows', stores, scopes⟩ := scopes.ahead_of_level.defineLeft added stores
  obtain ⟨_, same, listed, -⟩ := Discipline.define_spec locals scope' m'.store
  refine ⟨ρ₂, _, fun name member => same ▸ listed name member, paired.declaring ?_ ?_⟩
  · simp only [Machine.declaring, isScope, isScope', List.headD_cons, Scope.define_addLocals]
    exact stores
  · simp only [isScope, isScope', List.headD_cons, Scope.define_addLocals]
    simpa using scopes

/-- The second machine declares what the first one has declared ahead. -/
theorem meet {added : List String}
    (paired : m.Paired ρ [.ahead both (Scope.fresh both added)] m') :
    ∃ ρ₁, m.Paired ρ₁ [.level] (m'.declaring (added.foldl Compile.addLocal [])) := by
  obtain ⟨scope, scope', isScope, isScope', scopes⟩ := paired.scope
  obtain ⟨ρ₁, stores, scopes⟩ := scopes.catchUp added paired.store
  have unchanged := m.declaring_nil isScope
  refine ⟨ρ₁, unchanged ▸ paired.declaring ?_ ?_⟩
  · rw [unchanged]
    simp only [Machine.declaring, isScope', List.headD_cons, Scope.define_addLocals]
    exact stores
  · simp only [isScope, isScope', List.headD_cons, Scope.define_addLocals]
    exact scopes

end Machine.Paired

/-! Blocks -/

namespace Own

open Code (Stmt Block)

variable {user : UserCall} {frame : Frame} {m n : Machine}

/-- Where the first part of a block has ended, the second goes on. -/
theorem run_append {first : Block} (ended : (execBlock user frame first).run m = .ok .normal n)
    (second : Block) :
    (execBlock user frame (first ++ second)).run m = (execBlock user frame second).run n := by
  induction first generalizing m with
  | nil =>
      rw [execBlock] at ended
      cases ended
      rfl
  | cons s rest ih =>
      rw [execBlock] at ended
      rw [List.cons_append, execBlock]
      cases ran : (execStmt user frame s).run m with
      | error f m₁ =>
          rw [Run.run_bind_error ran] at ended
          cases ended
      | ok flow m₁ =>
          rw [Run.run_bind ran] at ended ⊢
          cases flow with
          | normal => exact ih ended
          | returned v => cases ended

theorem run_declarations {scope : Scope} {outer : List Scope} (isScope : m.scopes = scope :: outer)
    (names : List String) :
    (execBlock user frame (Code.declarations names)).run m = .ok .normal (m.declaring names) := by
  unfold Code.declarations
  split
  · next none =>
      rw [List.isEmpty_iff.mp none, execBlock, m.declaring_nil isScope]
      rfl
  · have declared : (execStmt user frame (.defineVariables names)).run m =
        .ok .normal (m.declaring names) := by
      rw [execStmt_flat user frame rfl, TreeScript.execStmt,
        Run.run_bind (run_defineVariables isScope names), Machine.declaring, isScope]
      rfl
    rw [execBlock, Run.run_bind declared, execBlock]
    rfl

end Own
end TreeScript
