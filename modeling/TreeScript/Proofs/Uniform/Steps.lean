import TreeScript.Proofs.Uniform.Basic

set_option autoImplicit false

/- The computations that evaluation is made of are uniform: those on the machine, on locations and
on values, and the builtins. None of them calls a user function. -/
namespace TreeScript

variable {looping : Prop}

/-! The machine -/

theorem readLine_uniform : Uniform looping fun _ => Run.readLine := by
  let next (stdin : List String) : Run (Option String) :=
    stdin.casesOn (pure none) fun line rest =>
      modify ({ · with stdin := rest }) >>= fun _ => pure (some line)
  have isCases : Run.readLine = get >>= fun m => next m.stdin :=
    congrArg (get >>= ·) (funext fun m => by cases m.stdin <;> rfl)
  rw [isCases]
  refine .look (k := fun stdin _ => next stdin) (·.stdin) (fun _ _ _ => rfl) (fun _ _ => rfl)
    fun stdin => ?_
  cases stdin with
  | nil => exact .pure none
  | cons line rest =>
      exact .bind (.change (fun _ _ _ => rfl) (fun _ => rfl) fun _ _ => rfl) fun _ => .pure _

theorem copyValue_uniform (held : List Handle) (v : Value) :
    Uniform looping fun _ => copyValue held v := by
  refine .bind (.step ⟨fun m limit stdout => ?_, fun m => ?_, fun m loops => ?_⟩) fun copy =>
    .ending copy
  · have same : (m.under limit stdout).store.copy
        ((m.under limit stdout).roots ++ v.handles ++ held) v =
        m.store.copy (m.roots ++ v.handles ++ held) v := rfl
    rw [same]
    split <;> rfl
  · split <;> rfl
  · have same : (m.withLoops loops).store.copy
        ((m.withLoops loops).roots ++ v.handles ++ held) v =
        m.store.copy (m.roots ++ v.handles ++ held) v := rfl
    rw [same]
    split <;> rfl

theorem entrySpot_uniform (a : ArrayId) (key : Option Value) :
    Uniform looping fun _ => entrySpot a key := by
  cases key with
  | none => exact .pure _
  | some key =>
      simp only [entrySpot]
      split
      · exact .fail _
      · exact .pure _

theorem fillArray_uniform (held : List Handle) (a : ArrayId)
    (entries : List (Option Value × Value)) :
    Uniform looping fun _ => fillArray held a entries := by
  induction entries with
  | nil => exact .pure _
  | cons entry rest ih =>
      exact .bind (entrySpot_uniform a _) fun spot => .bind (copyValue_uniform _ _) fun copy =>
        .bind (.alter _) fun _ => ih

theorem arrayOf_uniform (held : List Handle) (entries : List (Option Value × Value)) :
    Uniform looping fun _ => arrayOf held entries :=
  .bind (.update _) fun a => .bind (fillArray_uniform held a entries) fun _ => .pure _

theorem copiedValues_uniform (held : List Handle) (slots : List SlotId) :
    Uniform looping fun _ => copiedValues held slots := by
  induction slots generalizing held with
  | nil => exact .pure _
  | cons s rest ih =>
      exact .bind (.inspect _) fun v => .bind (copyValue_uniform held v) fun copy =>
        .bind (ih _) fun more => .pure _

theorem appendAll_uniform (a : ArrayId) (values : List Value) :
    Uniform looping fun _ => appendAll a values := by
  induction values with
  | nil => exact .pure _
  | cons v rest ih => exact .bind (.alter _) fun _ => ih

theorem listOf_uniform (values : List Value) : Uniform looping fun _ => listOf values :=
  .bind (.update _) fun a => .bind (appendAll_uniform a values) fun _ => .pure _

theorem currentScope_uniform : Uniform looping fun _ => currentScope := by
  have isElim : currentScope = get >>= fun m => m.scopes.head?.elim (.fault .noScope) pure :=
    congrArg (get >>= ·) (funext fun m => by cases m.scopes <;> rfl)
  rw [isElim]
  refine .look (k := fun scope _ => scope.elim (.fault .noScope) pure) (·.scopes.head?)
    (fun _ _ _ => rfl) (fun _ _ => rfl) fun scope => ?_
  cases scope with
  | none => exact .fault _
  | some scope => exact .pure scope

theorem setScope_uniform (scope : Scope) : Uniform looping fun _ => setScope scope :=
  .change (fun _ _ _ => rfl) (fun _ => rfl) fun _ _ => rfl

theorem defineVariables_uniform (names : List String) :
    Uniform looping fun _ => defineVariables names :=
  .bind currentScope_uniform fun _ => .bind (.update _) fun scope => setScope_uniform scope

theorem defineVariable_uniform (name : String) : Uniform looping fun _ => defineVariable name := by
  refine .bind (defineVariables_uniform [name]) fun _ => .bind currentScope_uniform fun scope => ?_
  split
  · exact .pure _
  · exact .fault _

theorem bindVariable_uniform (held : List Handle) (name : String) (v : Value) :
    Uniform looping fun _ => bindVariable held name v :=
  .bind (defineVariable_uniform name) fun _ => .bind (copyValue_uniform held v) fun _ => .alter _

/-! Locations -/

theorem variableSlot_uniform (name : String) :
    Uniform looping fun _ => Location.variableSlot name := by
  refine .bind currentScope_uniform fun scope => ?_
  split
  · exact .pure _
  · exact .update _

theorem ofVariable_uniform (name : String) : Uniform looping fun _ => Location.ofVariable name := by
  refine .bind currentScope_uniform fun scope => ?_
  split
  · exact .pure _
  · exact .bind (.update _) fun _ => .pure _

theorem textOffset_uniform (text : String) (key : Key) :
    Uniform looping fun _ => Location.textOffset text key := by
  cases key with
  | string name => exact .fail _
  | integer offset =>
      simp only [Location.textOffset]
      (repeat' split) <;> exact .pure _

theorem readElement_uniform (container : Value) (key : Key) :
    Uniform looping fun _ => Location.readElement container key := by
  cases container with
  | array a => exact .bind (.inspect _) fun _ => .pure _
  | object o => exact .bind (.inspect _) fun _ => .pure _
  | string text => exact textOffset_uniform text key
  | null | boolean b | integer n | float x => exact .pure _

theorem spotOf_uniform (container : Value) (key : Option Key) :
    Uniform looping fun _ => Location.spotOf container key := by
  unfold Location.spotOf
  split
  · exact .pure _
  · exact .pure _
  · exact .pure _
  · exact .fail _
  · exact .fail _

theorem presentElement_uniform (container : Value) (key : Option Key) :
    Uniform looping fun _ => Location.presentElement container key := by
  cases key with
  | none => exact .pure _
  | some key =>
      simp only [Location.presentElement]
      split
      · exact .inspect _
      · exact .inspect _
      · exact .pure _

theorem implyIn_uniform (s : SlotId) : Uniform looping fun _ => Location.implyIn s := by
  refine .bind (.inspect _) fun v => ?_
  split
  · exact .bind (.update _) fun a => .bind (.alter _) fun _ => .pure _
  · exact .pure _

theorem get_uniform (l : Location) : Uniform looping fun _ => l.get := by
  cases l with
  | «variable» name => exact .bind (variableSlot_uniform name) fun s => .inspect _
  | detached s =>
      simp only [Location.get]
      exact .inspect _
  | element container key =>
      cases key with
      | none => exact .fail _
      | some key => exact readElement_uniform container key
  | list elements => exact .fail _

theorem slot_uniform (l : Location) : Uniform looping fun _ => l.slot := by
  cases l with
  | «variable» name => exact variableSlot_uniform name
  | detached s => exact .pure s
  | element container key => exact .bind (spotOf_uniform container key) fun spot => .update _
  | list elements => exact .fail _

theorem rebind_uniform (s : SlotId) (l : Location) : Uniform looping fun _ => l.rebind s := by
  cases l with
  | «variable» name => exact .bind currentScope_uniform fun scope => setScope_uniform _
  | detached t => exact .pure _
  | element container key => exact .bind (spotOf_uniform container key) fun spot => .alter _
  | list elements => exact .fail _

theorem bind_uniform (l : Location) (s : SlotId) : Uniform looping fun _ => l.bind s :=
  .bind (.inspect _) fun _ => .bind (rebind_uniform s l) fun _ => .pure _

theorem imply_uniform (l : Location) : Uniform looping fun _ => l.imply := by
  cases l with
  | «variable» name => exact .bind (variableSlot_uniform name) fun s => implyIn_uniform s
  | detached s => exact implyIn_uniform s
  | element container key =>
      refine .bind (presentElement_uniform container key) fun present => ?_
      split
      · exact .bind (spotOf_uniform container key) fun spot => .bind (.update _) fun s =>
          implyIn_uniform s
      · exact .bind (spotOf_uniform container key) fun spot => .bind (.update _) fun s =>
          implyIn_uniform s
      · exact .pure _
  | list elements => exact .fail _

theorem itemAt_uniform (v : Value) (position : Nat) :
    Uniform looping fun _ => Location.itemAt v position := by
  cases v with
  | array a => exact .bind (.inspect _) fun _ => .pure _
  | null | boolean b | integer n | float x | string text | object o => exact .pure _

mutual
theorem set_uniform (held : List Handle) :
    (l : Location) → (v : Value) → Uniform looping fun _ => l.set held v
  | .variable name, v => by
      simp only [Location.set]
      exact .bind (copyValue_uniform _ v) fun _ => .bind (variableSlot_uniform name) fun _ =>
        .bind (.alter _) fun _ => .pure _
  | .detached s, v => by
      simp only [Location.set]
      exact .bind (copyValue_uniform _ v) fun _ => .bind (.alter _) fun _ => .pure _
  | .element container key, v => by
      simp only [Location.set]
      exact .bind (copyValue_uniform _ v) fun _ => .bind (spotOf_uniform container key) fun _ =>
        .bind (.alter _) fun _ => .pure _
  | .list elements, v => by
      simp only [Location.set]
      exact .bind (setAll_uniform _ v 0 elements) fun _ => .pure _

theorem setAll_uniform (held : List Handle) (v : Value) (position : Nat) :
    (elements : List Location) → Uniform looping fun _ => Location.setAll held v position elements
  | [] => by
      simp only [Location.setAll]
      exact .pure _
  | l :: rest => by
      simp only [Location.setAll]
      exact .bind (itemAt_uniform v position) fun item => .bind (set_uniform held l item) fun _ =>
        setAll_uniform held v (position + 1) rest
end

/-! Operators -/

theorem requireScalars_uniform (operator : BinaryOperator) (v w : Value) :
    Uniform looping fun _ => requireScalars operator v w := by
  unfold requireScalars
  split
  · exact .fail _
  · exact .pure _

theorem addIfMissing_uniform (held : List Handle) (union : ArrayId) (key : Key) (s : SlotId) :
    Uniform looping fun _ => addIfMissing held union key s := by
  refine .bind (.inspect _) fun data => ?_
  split
  · exact .bind (.inspect _) fun v => .bind (copyValue_uniform _ v) fun _ => .alter _
  · exact .pure _

theorem addMissing_uniform (held : List Handle) (union : ArrayId)
    (entries : List (Key × SlotId)) : Uniform looping fun _ => addMissing held union entries := by
  induction entries with
  | nil => exact .pure _
  | cons entry rest ih => exact .bind (addIfMissing_uniform held union _ _) fun _ => ih

theorem uniteArrays_uniform (held : List Handle) (a b : ArrayId) :
    Uniform looping fun _ => uniteArrays held a b := by
  refine .bind (copyValue_uniform _ _) fun copy => ?_
  split
  · exact .bind (.inspect _) fun _ => .bind (addMissing_uniform _ _ _) fun _ => .pure _
  · exact .pure _

theorem arithmetic_uniform (operator : BinaryOperator) (f : Number → Number → Option Number)
    (v w : Value) : Uniform looping fun _ => arithmetic operator f v w := by
  refine .bind (requireScalars_uniform operator v w) fun _ => .bind (.inspect _) fun st => ?_
  split
  · exact .pure _
  · exact .fail _

theorem shift_uniform (operator : BinaryOperator) (f : Int64 → Nat → Int64) (v w : Value) :
    Uniform looping fun _ => shift operator f v w := by
  refine .bind (requireScalars_uniform operator v w) fun _ => .bind (.inspect _) fun st => ?_
  dsimp only
  split
  · exact .fail _
  · exact .pure _

/-- What is asked of the store, may have no answer, and decides a result. -/
theorem asked_uniform {α β : Type} (f : Store → Option α) (g : α → β) :
    Uniform looping fun _ => (do pure (g (← Run.ending (← Run.inspect f))) : Run β) :=
  .bind (.inspect f) fun answer => .bind (.ending answer) fun a => .pure (g a)

theorem applyBinary_uniform (held : List Handle) (operator : BinaryOperator) (v w : Value) :
    Uniform looping fun _ => applyBinary held operator v w := by
  cases operator with
  | add =>
      simp only [applyBinary]
      split
      · exact uniteArrays_uniform held _ _
      · exact arithmetic_uniform _ _ _ _
  | subtract | multiply | divide =>
      simp only [applyBinary]
      exact arithmetic_uniform _ _ v w
  | modulo =>
      refine .bind (requireScalars_uniform _ v w) fun _ => .bind (.inspect _) fun st => ?_
      split
      · exact .fail _
      · exact .pure _
  | concat => exact .bind (.inspect _) fun _ => .pure _
  | shiftLeft | shiftRight => exact shift_uniform _ _ v w
  | equal | notEqual | identical | notIdentical => exact asked_uniform _ _
  | less | lessOrEqual | greater | greaterOrEqual => exact asked_uniform _ _

theorem applyUnary_uniform (operator : UnaryOperator) (v : Value) :
    Uniform looping fun _ => applyUnary operator v := by
  cases operator with
  | plus | minus =>
      simp only [applyUnary]
      exact arithmetic_uniform _ _ v _
  | complement =>
      simp only [applyUnary]
      split
      · exact .pure _
      · exact .pure _
      · exact .fail _
  | not => exact .bind (.inspect _) fun _ => .pure _
  | preIncrement | postIncrement | preDecrement | postDecrement => exact .pure _

theorem applyUnaryAt_uniform (held : List Handle) (operator : UnaryOperator) (l : Location) :
    Uniform looping fun _ => l.applyUnary held operator := by
  refine .bind (get_uniform l) fun old => .bind (applyUnary_uniform operator old) fun stored => ?_
  split
  · exact .bind (set_uniform _ l stored) fun _ => .pure _
  · exact .bind (set_uniform _ l stored) fun _ => .pure _
  · exact .bind (set_uniform _ l stored) fun _ => .pure _
  · exact .bind (set_uniform _ l stored) fun _ => .pure _
  · exact .pure _

/-! Builtins -/

namespace Builtin

theorem textArgument_uniform (arguments : List Value) (index : Nat) :
    Uniform looping fun _ => textArgument arguments index := .inspect _

theorem arrayArgument_uniform (function : String) (arguments : List Value) (index : Nat) :
    Uniform looping fun _ => arrayArgument function arguments index := by
  unfold arrayArgument
  split
  · exact .pure _
  · exact .fail _

theorem receiver_uniform (method : String) (this : Option Value) :
    Uniform looping fun _ => receiver method this := by
  unfold receiver
  split
  · exact .pure _
  · exact .fail _

theorem valuesOf_uniform (held : List Handle) (a : ArrayId) :
    Uniform looping fun _ => valuesOf held a :=
  .bind (.inspect _) fun _ => copiedValues_uniform held _

theorem strRepeat_uniform (arguments : List Value) :
    Uniform looping fun _ => strRepeatBody arguments := by
  refine .bind (textArgument_uniform arguments 0) fun text => .bind (.inspect _) fun count => ?_
  dsimp only
  split
  · exact .fail _
  · split
    · exact .pure _
    · exact .pure _

theorem isAmong_uniform (strict : Bool) (needle : Value) (values : List Value) :
    Uniform looping fun _ => isAmong strict needle values := by
  induction values with
  | nil => exact .pure _
  | cons v rest ih =>
      refine .bind (.inspect _) fun st => .bind (.ending _) fun found => ?_
      split
      · exact .pure _
      · exact ih

theorem inArray_uniform (held : List Handle) (arguments : List Value) :
    Uniform looping fun _ => inArrayBody held arguments :=
  .bind (arrayArgument_uniform _ arguments 1) fun _ => .bind (.inspect _) fun strict =>
    .bind (valuesOf_uniform held _) fun values =>
      .bind (isAmong_uniform strict _ values) fun _ => .pure _

theorem glueAndPieces_uniform (arguments : List Value) :
    Uniform looping fun _ => glueAndPieces arguments := by
  unfold glueAndPieces
  split
  · exact .pure _
  · exact .bind (.inspect _) fun _ => .pure _
  · exact .bind (.inspect _) fun _ => .bind (arrayArgument_uniform _ arguments 1) fun _ => .pure _

theorem implode_uniform (held : List Handle) (arguments : List Value) :
    Uniform looping fun _ => implodeBody held arguments :=
  .bind (glueAndPieces_uniform arguments) fun _ => .bind (valuesOf_uniform held _) fun _ =>
    .bind (.inspect _) fun _ => .pure _

theorem readline_uniform (arguments : List Value) :
    Uniform looping fun _ => readlineBody arguments := by
  refine .bind (textArgument_uniform arguments 0) fun prompt => .bind ?_ fun _ =>
    .bind readLine_uniform fun line => ?_
  · unfold writePrompt
    split
    · exact .pure _
    · exact .write prompt
  · split
    · exact .pure _
    · exact .pure _

theorem exceptionConstruct_uniform (this : Option Value) (arguments : List Value) :
    Uniform looping fun _ => exceptionConstructBody this arguments :=
  .bind (receiver_uniform _ this) fun _ => .bind (textArgument_uniform arguments 0) fun _ =>
    .bind (.alter _) fun _ => .pure _

theorem exceptionGetMessage_uniform (this : Option Value) :
    Uniform looping fun _ => exceptionGetMessageBody this :=
  .bind (receiver_uniform _ this) fun _ => .bind (.inspect _) fun _ => .pure _

end Builtin

theorem builtin_uniform (held : List Handle) (b : Builtin) (this : Option Value)
    (arguments : List Value) : Uniform looping fun _ => b.call held this arguments := by
  cases b with
  | strlen | strtoupper | strtolower | strrev | strval | count | intval =>
      exact .bind (.inspect _) fun _ => .pure _
  | gettype | isArray | isInt | isString | isNull => exact .pure _
  | strRepeat => exact Builtin.strRepeat_uniform arguments
  | arrayKeys =>
      exact .bind (Builtin.arrayArgument_uniform _ arguments 0) fun _ =>
        .bind (.inspect _) fun _ => listOf_uniform _
  | arrayValues =>
      exact .bind (Builtin.arrayArgument_uniform _ arguments 0) fun _ =>
        .bind (Builtin.valuesOf_uniform held _) fun values => listOf_uniform values
  | inArray => exact Builtin.inArray_uniform held arguments
  | implode => exact Builtin.implode_uniform held arguments
  | print => exact .bind (.inspect _) fun text => .bind (.write text) fun _ => .pure _
  | varDump => exact .bind (.inspect _) fun _ => .bind (.write _) fun _ => .pure _
  | readline => exact Builtin.readline_uniform arguments
  | exceptionConstruct => exact Builtin.exceptionConstruct_uniform this arguments
  | exceptionGetMessage => exact Builtin.exceptionGetMessage_uniform this

end TreeScript
