import TreeScript.Compile.Statement
import TreeScript.Proofs.Code.Written

set_option autoImplicit false

/- What compiled code writes to is among the locals of the body it is compiled for. The compiler
never takes a local back, so what holds of a part goes on to hold of the whole body. -/
namespace TreeScript.Compile

open Code (Expr Place Base Entry Stmt Block Function)

/-- In a body with at least the locals `names`, a part of the compiler takes back no local, and
gives a result that satisfies `Q` with the locals there are then. -/
def Covers {α : Type} (names : List String) (Q : List String → α → Prop) (m : CompileM α) : Prop :=
  ∀ c a c', names ⊆ c.locals → m c = .ok (a, c') → c.locals ⊆ c'.locals ∧ Q c'.locals a

section rules

variable {α β : Type} {names : List String} {Q : List String → α → Prop} {m : CompileM α}

theorem Covers.pure {a : α} (holds : ∀ names', names ⊆ names' → Q names' a) :
    Covers names Q (Pure.pure a) := by
  rintro c _ _ inside ⟨⟩
  exact ⟨List.Subset.refl _, holds c.locals inside⟩

theorem Covers.throw (e : CompileError) : Covers names Q (throw e) := by
  rintro c a c' _ ⟨⟩

theorem Covers.bind {Q' : List String → β → Prop} {next : α → CompileM β}
    (first : Covers names Q m)
    (later : ∀ names' a, names ⊆ names' → Q names' a → Covers names' Q' (next a)) :
    Covers names Q' (m >>= next) := by
  intro c b c'' inside done
  have steps : (m >>= next) c = (m c >>= fun (a, c') => next a c') := rfl
  rw [steps] at done
  cases ran : m c with
  | error e =>
      rw [ran] at done
      cases done
  | ok result =>
      obtain ⟨a, c'⟩ := result
      rw [ran] at done
      obtain ⟨grows, holds⟩ := first c a c' inside ran
      obtain ⟨grows', holds'⟩ := later c'.locals a (List.Subset.trans inside grows) holds c' b c''
        (List.Subset.refl _) done
      exact ⟨List.Subset.trans grows grows', holds'⟩

theorem Covers.weaken {Q' : List String → α → Prop} (covers : Covers names Q m)
    (implies : ∀ names' a, names ⊆ names' → Q names' a → Q' names' a) : Covers names Q' m := by
  intro c a c' inside done
  obtain ⟨grows, holds⟩ := covers c a c' inside done
  exact ⟨grows, implies _ a (List.Subset.trans inside grows) holds⟩

theorem covers_unsupported (kind : Kind) (position : Position) :
    Covers names Q (unsupported kind position) := .throw _

theorem covers_require (supported : Bool) (kind : Kind) (position : Position) :
    Covers names (fun _ _ => True) (require supported kind position) := by
  unfold require
  split
  · exact .pure fun _ _ => trivial
  · exact covers_unsupported kind position

theorem mem_addLocal (locals : List String) (name : String) :
    locals ⊆ addLocal locals name ∧ name ∈ addLocal locals name := by
  unfold addLocal
  split
  · next there => exact ⟨List.Subset.refl _, by simpa using there⟩
  · exact ⟨List.subset_append_left _ _, by simp⟩

end rules

/-! Expressions -/

/-- What a node is wanted for decides what its variables are looked up for. -/
def Mode.use : Mode → Use
  | .target => .write
  | .value | .location => .read

def Fragment.written (use : Use) : Fragment → List String
  | .value e => e.written
  | .place p => p.written use

theorem Fragment.written_read (f : Fragment) (use : Use) : f.written use ⊆ f.written .write := by
  cases f with
  | value e => exact List.Subset.refl _
  | place p => exact p.written_subset use

theorem Fragment.written_toExpr (f : Fragment) : f.toExpr.written = f.written .read := by
  cases f with
  | value e => rfl
  | place p => simp [Fragment.toExpr, Expr.written, Fragment.written]

theorem Fragment.written_toBase (f : Fragment) : f.toBase.written = f.written .write := by
  cases f <;> simp [Fragment.toBase, Base.written, Fragment.written]

variable {names : List String}

theorem covers_declareFor (mode : Mode) (name : String) :
    Covers names (fun names _ => (Place.variable name).written mode.use ⊆ names)
      (declareFor mode name) := by
  cases mode with
  | target =>
      rintro c _ _ _ ⟨⟩
      obtain ⟨kept, added⟩ := mem_addLocal c.locals name
      exact ⟨kept, by simpa [Mode.use, Place.written] using added⟩
  | value | location => exact .pure fun _ _ => by simp [Mode.use, Place.written]

theorem covers_asValue {mode : Mode} {m : CompileM Fragment} (reads : mode.use = .read)
    (covers : Covers names (fun names f => f.written mode.use ⊆ names) m) :
    Covers names (fun names e => e.written ⊆ names) (asValue m) := by
  apply covers.bind
  intro names' f _ written
  apply Covers.pure
  intro _ grows
  rw [f.written_toExpr, ← reads]
  exact List.Subset.trans written grows

theorem covers_asPlace {mode : Mode} {m : CompileM Fragment} (kind : Kind)
    (covers : Covers names (fun names f => f.written mode.use ⊆ names) m) :
    Covers names (fun names p => p.written mode.use ⊆ names) (asPlace kind m) := by
  apply covers.bind
  intro names' f _ written
  cases f with
  | value e => exact .throw _
  | place p => exact .pure fun _ grows => List.Subset.trans written grows

theorem targetPlace_written {base : Base} {keys : List (Option Expr)} {p : Place}
    (isPlace : targetPlace base keys = some p) (baseWritten : base.written ⊆ names)
    (keysWritten : ∀ key ∈ keys, Code.writtenInKey key ⊆ names) : p.written .write ⊆ names := by
  induction keys generalizing base with
  | nil => simp [targetPlace] at isPlace
  | cons key rest ih =>
      obtain ⟨keyWritten, restWritten⟩ := List.forall_mem_cons.mp keysWritten
      have element : (Place.element base key).written .write ⊆ names := by
        simpa [Place.written] using ⟨baseWritten, keyWritten⟩
      cases rest with
      | nil =>
          obtain rfl : Place.element base key = p := by simpa [targetPlace] using isPlace
          exact element
      | cons next others =>
          exact ih isPlace (by simpa [Base.written] using element) restWritten

theorem readPlace_written {container : Expr} {keys : List (Option Expr)} {p : Place}
    (isPlace : readPlace container keys = some p) (containerWritten : container.written ⊆ names)
    (keysWritten : ∀ key ∈ keys, Code.writtenInKey key ⊆ names) : p.written .read ⊆ names := by
  induction keys generalizing container with
  | nil => simp [readPlace] at isPlace
  | cons key rest ih =>
      obtain ⟨keyWritten, restWritten⟩ := List.forall_mem_cons.mp keysWritten
      have element : (Place.element (.value container) key).written .read ⊆ names := by
        simpa [Place.written, Base.written] using ⟨containerWritten, keyWritten⟩
      cases rest with
      | nil =>
          obtain rfl : Place.element (.value container) key = p := by
            simpa [readPlace] using isPlace
          exact element
      | cons next others =>
          exact ih isPlace (by simpa [Expr.written] using element) restWritten

theorem ofPlace_written (mode : Mode) (p : Place) :
    (Fragment.ofPlace mode p).written mode.use = p.written mode.use := by
  cases mode <;> simp [Fragment.ofPlace, Fragment.written, Mode.use, Expr.written]

theorem covers_access {mode : Mode} {base : Fragment} {keys : List (Option Expr)} (kind : Kind)
    (baseWritten : base.written (baseMode mode).use ⊆ names)
    (keysWritten : ∀ key ∈ keys, Code.writtenInKey key ⊆ names) :
    Covers names (fun names f => f.written mode.use ⊆ names)
      (accessFragment mode kind base keys) := by
  have read : ∀ {p}, mode.use = .read → readPlace base.toExpr keys = some p →
      base.written .read ⊆ names → p.written mode.use ⊆ names := by
    intro p reads isPlace written
    rw [reads]
    exact readPlace_written isPlace (base.written_toExpr ▸ written) keysWritten
  unfold accessFragment
  simp only
  split
  · next p isPlace =>
      refine .pure fun _ grows => ?_
      rw [ofPlace_written]
      refine List.Subset.trans ?_ grows
      cases mode with
      | target =>
          exact targetPlace_written isPlace (base.written_toBase ▸ baseWritten) keysWritten
      | value => exact read rfl isPlace baseWritten
      | location => exact read rfl isPlace baseWritten
  · exact covers_unsupported kind .expression

/-- The condition on a value, for use in the chains below. -/
abbrev ValueIn (names : List String) (e : Expr) : Prop := e.written ⊆ names

abbrev KeysIn (names : List String) (keys : List (Option Expr)) : Prop :=
  ∀ key ∈ keys, Code.writtenInKey key ⊆ names

mutual
/-- What a fragment writes to is among the locals. -/
theorem fragment_covers {names : List String} (mode : Mode) :
    (n : Node) → Covers names (fun names f => f.written mode.use ⊆ names) (fragment mode n)
  | .variable name _ => by
      rw [fragment]
      apply (covers_declareFor mode _).bind
      intro _ _ _ written
      apply Covers.pure
      intro _ grows
      rw [ofPlace_written]
      exact List.Subset.trans written grows
  | .arrayIndex array indices _ => by
      rw [fragment]
      apply (covers_require _ _ _).bind
      intro names₁ _ _ _
      apply (fragment_covers (baseMode mode) array).bind
      intro names₂ base _ baseWritten
      apply (indexKeys_covers mode indices).bind
      intro names₃ keys grows keysWritten
      exact covers_access .arrayIndex (List.Subset.trans baseWritten grows) keysWritten
  | .objectProperty object properties _ => by
      rw [fragment]
      apply (covers_require _ _ _).bind
      intro names₁ _ _ _
      apply (fragment_covers (baseMode mode) object).bind
      intro names₂ base _ baseWritten
      apply (propertyKeys_covers properties).bind
      intro names₃ keys grows keysWritten
      exact covers_access .objectProperty (List.Subset.trans baseWritten grows) keysWritten
  | .expression left [] => by
      rw [fragment]
      exact fragment_covers mode left
  | .expression left (⟨operator, operand⟩ :: rest) => by
      rw [fragment]
      split
      · apply (covers_asPlace left.kind (fragment_covers .target left)).bind
        intro names₁ p _ written
        exact (operations_covers true (.place p) (⟨operator, operand⟩ :: rest) written).weaken
          fun _ f _ within => List.Subset.trans (f.written_read mode.use) within
      · apply (covers_asValue rfl (fragment_covers .value left)).bind
        intro names₁ e _ written
        exact (operations_covers false (.value e) (⟨operator, operand⟩ :: rest) written).weaken
          fun _ f _ within => List.Subset.trans (f.written_read mode.use) within
  | .unaryExpression token operand leading => by
      rw [fragment]
      split
      · exact .throw _
      · split
        · refine (covers_asPlace operand.kind (fragment_covers .target operand)).bind
            fun _ p _ written => .pure fun _ grows => ?_
          simpa [Fragment.written, Expr.written, Code.Operand.written, Mode.use] using
            List.Subset.trans written grows
        · refine (covers_asValue rfl (fragment_covers .value operand)).bind
            fun _ e _ written => .pure fun _ grows => ?_
          simpa [Fragment.written, Expr.written, Code.Operand.written] using
            List.Subset.trans written grows
  | .functionCall function arguments => by
      rw [fragment]
      apply (covers_asValue rfl (fragment_covers .value function)).bind
      intro _ f _ written
      apply (values_covers arguments).bind
      intro _ es grows₁ passed
      apply Covers.pure
      intro _ grows₂
      have grows := List.Subset.trans grows₁ grows₂
      simpa [Fragment.written, Expr.written] using
        ⟨List.Subset.trans written grows, List.Subset.trans passed grows₂⟩
  | .methodCall object calls => by
      rw [fragment]
      apply (covers_asValue rfl (fragment_covers .value object)).bind
      intro _ e _ written
      exact (methodCalls_covers e calls written).bind fun _ _ _ within =>
        .pure fun _ grows => List.Subset.trans within grows
  | .newExpression className arguments => by
      rw [fragment]
      apply (covers_asValue rfl (fragment_covers .value className)).bind
      intro _ c _ written
      apply (values_covers arguments).bind
      intro _ es grows₁ passed
      apply Covers.pure
      intro _ grows₂
      have grows := List.Subset.trans grows₁ grows₂
      simpa [Fragment.written, Expr.written] using
        ⟨List.Subset.trans written grows, List.Subset.trans passed grows₂⟩
  | .ternary condition options => by
      rw [fragment]
      apply (covers_asValue rfl (fragment_covers .value condition)).bind
      intro _ e _ written
      exact (choices_covers e options written).bind fun _ _ _ within =>
        .pure fun _ grows => List.Subset.trans within grows
  | .arrayLiteral elements => by
      rw [fragment]
      apply (entries_covers elements).bind
      intro _ entries _ within
      apply Covers.pure
      intro _ grows
      simpa [Fragment.written, Expr.written] using List.Subset.trans within grows
  | .list elements => by
      rw [fragment]
      apply (covers_require _ _ _).bind
      intro _ _ _ _
      apply (places_covers mode elements).bind
      intro _ ps _ within
      apply Covers.pure
      intro _ grows
      simpa [Fragment.written, Place.written] using List.Subset.trans within grows
  | .string text => by
      rw [fragment]
      refine .pure fun _ _ => ?_
      unfold bareWord
      split <;> simp [Fragment.written, Expr.written]
  | .integer _ | .float _ | .boolean _ | .stringLiteral _ => by
      rw [fragment]
      exact .pure fun _ _ => by simp [Fragment.written, Expr.written]
  | .void => by
      rw [fragment]
      exact .pure fun _ _ => by simp [Fragment.written, Place.written]
  | .keyValuePair .. | .program .. | .classStatement .. | .echoStatement ..
  | .expressionStatement .. | .foreachStatement .. | .functionStatement .. | .ifStatement ..
  | .inlineHtmlStatement .. | .returnStatement .. | .methodDefinition ..
  | .propertyDefinition .. => by
      rw [fragment]
      exact covers_unsupported _ _

theorem values_covers {names : List String} :
    (nodes : List Node) → Covers names (fun names es => Code.writtenInAll es ⊆ names) (values nodes)
  | [] => by
      rw [values]
      exact .pure fun _ _ => by simp [Code.writtenInAll]
  | n :: rest => by
      rw [values]
      apply (covers_asValue rfl (fragment_covers .value n)).bind
      intro _ e _ written
      apply (values_covers rest).bind
      intro _ es grows₁ within
      apply Covers.pure
      intro _ grows₂
      have grows := List.Subset.trans grows₁ grows₂
      simpa [Code.writtenInAll] using
        ⟨List.Subset.trans written grows, List.Subset.trans within grows₂⟩

theorem places_covers {names : List String} (mode : Mode) :
    (nodes : List Node) →
      Covers names (fun names ps => Code.writtenInPlaces mode.use ps ⊆ names) (places mode nodes)
  | [] => by
      rw [places]
      exact .pure fun _ _ => by simp [Code.writtenInPlaces]
  | n :: rest => by
      rw [places]
      apply (covers_asPlace n.kind (fragment_covers mode n)).bind
      intro _ p _ written
      apply (places_covers mode rest).bind
      intro _ ps grows₁ within
      apply Covers.pure
      intro _ grows₂
      have grows := List.Subset.trans grows₁ grows₂
      simpa [Code.writtenInPlaces] using
        ⟨List.Subset.trans written grows, List.Subset.trans within grows₂⟩

theorem entries_covers {names : List String} :
    (nodes : List Node) →
      Covers names (fun names es => Code.writtenInEntries es ⊆ names) (entries nodes)
  | [] => by
      rw [entries]
      exact .pure fun _ _ => by simp [Code.writtenInEntries]
  | n :: rest => by
      cases n with
      | keyValuePair key value =>
          rw [entries]
          apply (covers_asValue rfl (fragment_covers .value key)).bind
          intro _ k _ keyWritten
          apply (covers_asValue rfl (fragment_covers .value value)).bind
          intro _ e grows₁ written
          apply (entries_covers rest).bind
          intro _ es grows₂ within
          apply Covers.pure
          intro _ grows₃
          have grows := List.Subset.trans grows₂ grows₃
          simpa [Code.writtenInEntries] using
            ⟨List.Subset.trans keyWritten (List.Subset.trans grows₁ grows),
              List.Subset.trans written grows, List.Subset.trans within grows₃⟩
      | _ =>
          rw [entries]
          · apply (covers_asValue rfl (fragment_covers .value _)).bind
            intro _ e _ written
            apply (entries_covers rest).bind
            intro _ es grows₁ within
            apply Covers.pure
            intro _ grows₂
            have grows := List.Subset.trans grows₁ grows₂
            simpa [Code.writtenInEntries] using
              ⟨List.Subset.trans written grows, List.Subset.trans within grows₂⟩
          · exact fun _ _ => Node.noConfusion

theorem indexKeys_covers {names : List String} (mode : Mode) :
    (indices : List (Option Node)) → Covers names KeysIn (indexKeys mode indices)
  | [] => by
      rw [indexKeys]
      exact .pure fun _ _ => by simp [KeysIn]
  | none :: rest => by
      rw [indexKeys]
      apply (covers_require _ _ _).bind
      intro _ _ _ _
      apply (indexKeys_covers mode rest).bind
      intro _ keys _ within
      apply Covers.pure
      intro _ grows
      refine List.forall_mem_cons.mpr
        ⟨?_, fun key member => List.Subset.trans (within key member) grows⟩
      simp [Code.writtenInKey]
  | some key :: rest => by
      rw [indexKeys]
      apply (covers_asValue rfl (fragment_covers .location key)).bind
      intro _ e _ written
      apply (indexKeys_covers mode rest).bind
      intro _ keys grows₁ within
      apply Covers.pure
      intro _ grows₂
      refine List.forall_mem_cons.mpr
        ⟨?_, fun key member => List.Subset.trans (within key member) grows₂⟩
      have grows := List.Subset.trans grows₁ grows₂
      simpa [Code.writtenInKey] using List.Subset.trans written grows

theorem propertyKeys_covers {names : List String} :
    (properties : List Node) → Covers names KeysIn (propertyKeys properties)
  | [] => by
      rw [propertyKeys]
      exact .pure fun _ _ => by simp [KeysIn]
  | key :: rest => by
      rw [propertyKeys]
      apply (covers_asValue rfl (fragment_covers .location key)).bind
      intro _ e _ written
      apply (propertyKeys_covers rest).bind
      intro _ keys grows₁ within
      apply Covers.pure
      intro _ grows₂
      refine List.forall_mem_cons.mpr
        ⟨?_, fun key member => List.Subset.trans (within key member) grows₂⟩
      have grows := List.Subset.trans grows₁ grows₂
      simpa [Code.writtenInKey] using List.Subset.trans written grows

theorem operations_covers {names : List String} (assigns : Bool) (result : Fragment) :
    (rest : List (Operation Node)) → result.written .write ⊆ names →
      Covers names (fun names f => f.written .write ⊆ names) (operations assigns result rest)
  | [], written => by
      rw [operations]
      exact .pure fun _ grows => List.Subset.trans written grows
  | ⟨token, operand⟩ :: rest, written => by
      unfold operations
      split
      · exact .throw _
      · next o _ =>
          apply (covers_asValue rfl (fragment_covers .value operand)).bind
          intro _ right grows within
          apply operations_covers assigns _ rest
          have left : result.written .read ⊆ _ :=
            List.Subset.trans (result.written_read .read) (List.Subset.trans written grows)
          simpa [Fragment.written, Expr.written, result.written_toExpr] using ⟨left, within⟩
      · split
        · exact .throw _
        · next target =>
            split
            · apply (covers_asPlace operand.kind (fragment_covers .target operand)).bind
              intro _ p grows within
              apply operations_covers assigns _ rest
              simpa [Fragment.written, Expr.written, Code.Source.written] using
                ⟨List.Subset.trans written grows, within⟩
            · apply (covers_asValue rfl (fragment_covers .value operand)).bind
              intro _ e grows within
              apply operations_covers assigns _ rest
              simpa [Fragment.written, Expr.written, Code.Source.written] using
                ⟨List.Subset.trans written grows, within⟩

theorem methodCalls_covers {names : List String} (object : Expr) :
    (calls : List (Call Node)) → ValueIn names object →
      Covers names ValueIn (methodCalls object calls)
  | [], written => by
      rw [methodCalls]
      exact .pure fun _ grows => List.Subset.trans written grows
  | ⟨method, arguments⟩ :: rest, written => by
      rw [methodCalls]
      apply (covers_asValue rfl (fragment_covers .value method)).bind
      intro _ e grows₁ named
      apply (values_covers arguments).bind
      intro _ es grows₂ passed
      apply methodCalls_covers _ rest
      have grows := List.Subset.trans grows₁ grows₂
      simpa [ValueIn, Expr.written] using
        ⟨List.Subset.trans written grows, List.Subset.trans named grows₂, passed⟩

theorem choices_covers {names : List String} (condition : Expr) :
    (options : List (Choice Node)) → ValueIn names condition →
      Covers names ValueIn (choices condition options)
  | [], written => by
      rw [choices]
      exact .pure fun _ grows => List.Subset.trans written grows
  | ⟨consequent, alternate⟩ :: rest, written => by
      rw [choices]
      apply (covers_asValue rfl (fragment_covers .value consequent)).bind
      intro _ e grows₁ first
      apply (covers_asValue rfl (fragment_covers .value alternate)).bind
      intro _ f grows₂ second
      apply choices_covers _ rest
      have grows := List.Subset.trans grows₁ grows₂
      simpa [ValueIn, Expr.written] using
        ⟨List.Subset.trans written grows, List.Subset.trans first grows₂, second⟩
end

theorem valueOf_covers (n : Node) : Covers names ValueIn (valueOf n) :=
  covers_asValue rfl (fragment_covers .value n)

theorem targetOf_covers (n : Node) :
    Covers names (fun names p => p.written .write ⊆ names) (targetOf n) :=
  covers_asPlace n.kind (fragment_covers .target n)

end TreeScript.Compile
