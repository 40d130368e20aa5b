import TreeScript.Proofs.Pairing.Steps

set_option autoImplicit false

/- Operators and builtins are alike on paired machines. -/
namespace TreeScript

variable {ρ : Pairing} {X : Lead} {E : List Lead} {H H' : List Handle}

/-! Operators -/

theorem requireScalars_alike (operator : BinaryOperator) (v w : Value) :
    ρ.Alike E Same (requireScalars operator v w) (requireScalars operator v w) := by
  unfold requireScalars
  split
  · exact .fail _
  · exact .pure rfl

theorem addIfMissing_alike (held : ρ.Handles H H') (union : ArrayId) (key : Key) {s s' : SlotId}
    (pair : ρ.pairs s s') :
    ρ.Alike E Same (addIfMissing H union key s) (addIfMissing H' union key s') := by
  refine .bind (array_alike union) fun ρ₁ grows data data' paired => ?_
  have found : (data.slot? key).isNone = (data'.slot? key).isNone := by
    have slots := paired.elements.get? key
    simp only [ArrayData.slot?]
    generalize Assoc.get? data.elements key = here at slots ⊢
    generalize Assoc.get? data'.elements key = there at slots ⊢
    cases slots with
    | none => rfl
    | some _ => rfl
  rw [found]
  split
  · exact .bindSame (read_alike (grows.kept pair)) fun ρ₂ grows' v =>
      .bindSame (copyValue_alike ((Pairing.Handles.cons (.array union) held).mono
        (grows.trans grows')) v) fun _ _ copy => put_alike (.element union key) copy
  · exact .pure rfl

theorem addMissing_alike (held : ρ.Handles H H') (union : ArrayId) (l : List (Key × SlotId))
    {l' : List (Key × SlotId)} (entries : ρ.Entries l l') :
    ρ.Alike E Same (addMissing H union l) (addMissing H' union l') := by
  induction l generalizing ρ l' with
  | nil =>
      cases entries
      exact .pure rfl
  | cons entry rest ih =>
      cases entries with
      | @cons _ entry' _ rest' first later =>
          obtain ⟨key, s⟩ := entry
          obtain ⟨key', s'⟩ := entry'
          obtain ⟨rfl, pair⟩ := first
          exact .bindSame (addIfMissing_alike held union key pair) fun _ grows _ =>
            ih (held.mono grows) (Pairing.Entries.mono grows later)

theorem uniteArrays_alike (held : ρ.Handles H H') (a b : ArrayId) :
    ρ.Alike E Same (uniteArrays H a b) (uniteArrays H' a b) := by
  have held' := Pairing.Handles.cons (.array a) (Pairing.Handles.cons (.array b) held)
  refine .bindSame (copyValue_alike held' _) fun ρ₁ grows copy => ?_
  cases copy with
  | array union =>
      exact .bind (array_alike b) fun ρ₂ grows' _ _ paired =>
        .bindSame (addMissing_alike (held'.mono (grows.trans grows')) union _ paired.elements)
          fun _ _ _ => .pure rfl
  | null | boolean x | integer n | float x | string text | object o => exact .pure rfl

theorem arithmetic_alike (operator : BinaryOperator) (f : Number → Number → Option Number)
    (v w : Value) : ρ.Alike E Same (arithmetic operator f v w) (arithmetic operator f v w) := by
  refine .bindSame (requireScalars_alike operator v w) fun ρ₁ _ _ =>
    .bind store_alike fun ρ₂ _ st st' stores => ?_
  rw [stores.toNumber, stores.toNumber]
  split
  · exact .pure rfl
  · exact .fail _

theorem shift_alike (operator : BinaryOperator) (f : Int64 → Nat → Int64) (v w : Value) :
    ρ.Alike E Same (shift operator f v w) (shift operator f v w) := by
  refine .bindSame (requireScalars_alike operator v w) fun ρ₁ _ _ =>
    .bind store_alike fun ρ₂ _ st st' stores => ?_
  simp only [stores.toInteger]
  split
  · exact .fail _
  · exact .pure rfl

theorem ordered_alike (test : Ordering → Bool) (v w : Value) :
    ρ.Alike E Same (ordered test v w) (ordered test v w) :=
  .bindSame (.inspect fun stores => stores.compare v w) fun _ _ order =>
    .bindSame (.ending order) fun _ _ _ => .pure rfl

/-- What a comparison that may not end gives. -/
theorem decided_alike {compare : Store → Option Bool} (result : Bool → Value)
    (same : ∀ {ρ : Pairing} {st st' : Store}, st.Paired ρ st' → compare st = compare st') :
    ρ.Alike E Same (do pure (result (← Run.ending (← Run.inspect compare))))
      (do pure (result (← Run.ending (← Run.inspect compare)))) :=
  .bindSame (.inspect same) fun _ _ answer => .bindSame (.ending answer) fun _ _ _ => .pure rfl

theorem applyBinary_alike (held : ρ.Handles H H') (operator : BinaryOperator) (v w : Value) :
    ρ.Alike E Same (applyBinary H operator v w) (applyBinary H' operator v w) := by
  have sum := arithmetic_alike (ρ := ρ) (E := E) .add (fun m n => some (m.add n)) v w
  cases operator with
  | add =>
      cases v with
      | array a =>
          cases w with
          | array b => exact uniteArrays_alike held a b
          | null | boolean x | integer n | float x | string text | object o => exact sum
      | null | boolean x | integer n | float x | string text | object o => exact sum
  | subtract => exact arithmetic_alike .subtract (fun m n => some (m.subtract n)) v w
  | multiply => exact arithmetic_alike .multiply (fun m n => some (m.multiply n)) v w
  | divide => exact arithmetic_alike .divide Number.divide v w
  | modulo =>
      refine .bindSame (requireScalars_alike .modulo v w) fun ρ₁ _ _ =>
        .bind store_alike fun ρ₂ _ st st' stores => ?_
      simp only [stores.toInteger]
      split
      · exact .fail _
      · exact .pure rfl
  | concat =>
      refine .bind store_alike fun ρ₁ _ st st' stores => ?_
      rw [stores.toText, stores.toText]
      exact .pure rfl
  | shiftLeft | shiftRight => exact shift_alike _ _ v w
  | equal => exact decided_alike _ fun stores => stores.looselyEqual v w
  | notEqual => exact decided_alike (fun b => .boolean !b) fun stores => stores.looselyEqual v w
  | identical => exact decided_alike _ fun stores => stores.identical v w
  | notIdentical => exact decided_alike (fun b => .boolean !b) fun stores => stores.identical v w
  | less | lessOrEqual | greater | greaterOrEqual => exact ordered_alike _ v w

theorem applyUnary_alike (operator : UnaryOperator) (v : Value) :
    ρ.Alike E Same (applyUnary operator v) (applyUnary operator v) := by
  cases operator with
  | plus => exact arithmetic_alike .multiply (fun m n => some (m.multiply n)) v (.integer 1)
  | minus => exact arithmetic_alike .multiply (fun m n => some (m.multiply n)) v (.integer (-1))
  | complement =>
      cases v with
      | integer n | float x => exact .pure rfl
      | null | boolean b | string text | array a | object o => exact .fail _
  | not =>
      exact .bindSame (.inspect fun stores => stores.toBoolean v) fun _ _ _ => .pure rfl
  | preIncrement | preDecrement | postIncrement | postDecrement => exact .pure rfl

theorem applyUnaryAt_alike {l l' : Location} (held : ρ.Handles H H') (operator : UnaryOperator)
    (paired : l.Paired ρ X .write l') :
    ρ.Alike (X :: E) Same (l.applyUnary H operator) (l'.applyUnary H' operator) := by
  refine .bindSame (Location.get_alike paired) fun ρ₁ grows old =>
    .bindSame (applyUnary_alike operator old) fun ρ₂ grows' stored => ?_
  have grown := grows.trans grows'
  have written : ∀ result : Value, ρ₂.Alike (X :: E) Same
      (do let _ ← l.set (old.handles ++ H) stored; pure result)
      (do let _ ← l'.set (old.handles ++ H') stored; pure result) := fun result =>
    .bindSame (Location.set_alike ((Pairing.Handles.of_value old).append (held.mono grown)) stored
      (paired.mono grown)) fun _ _ _ => .pure rfl
  cases operator with
  | preIncrement | preDecrement => exact written stored
  | postIncrement | postDecrement => exact written old
  | plus | minus | complement | not => exact .pure rfl

/-! Builtins -/

namespace Builtin

theorem textArgument_alike (arguments : List Value) (index : Nat) :
    ρ.Alike E Same (textArgument arguments index) (textArgument arguments index) :=
  .inspect fun stores => stores.toText _

theorem refuse_alike {α : Type} (function : String) (index : Nat) (expected : String)
    (given : Value) {R : Pairing → α → α → Prop} :
    ρ.Alike E R (refuse function index expected given) (refuse function index expected given) :=
  .fail _

theorem arrayArgument_alike (function : String) (arguments : List Value) (index : Nat) :
    ρ.Alike E Same (arrayArgument function arguments index)
      (arrayArgument function arguments index) := by
  unfold arrayArgument
  split
  · exact .pure rfl
  · exact refuse_alike _ _ _ _

theorem receiver_alike (method : String) (this : Option Value) :
    ρ.Alike E Same (receiver method this) (receiver method this) := by
  unfold receiver
  split
  · exact .pure rfl
  · exact .fail _

theorem valuesOf_alike (held : ρ.Handles H H') (a : ArrayId) :
    ρ.Alike E Same (valuesOf H a) (valuesOf H' a) := by
  refine .bind (array_alike a) fun ρ₁ grows data data' paired =>
    copiedValues_alike (held.mono grows) _ ?_
  rw [List.forall₂_map_left_iff, List.forall₂_map_right_iff]
  exact paired.elements.imp fun _ _ pair => pair.2

theorem strRepeatBody_alike (arguments : List Value) :
    ρ.Alike E Same (strRepeatBody arguments) (strRepeatBody arguments) := by
  refine .bindSame (textArgument_alike arguments 0) fun ρ₁ _ text =>
    .bindSame (.inspect fun stores => stores.toInteger _) fun ρ₂ _ count => ?_
  dsimp only
  split
  · exact refuse_alike _ _ _ _
  · split
    · exact .pure rfl
    · exact .pure rfl

theorem countBody_eq {st st' : Store} (stores : st.Paired ρ st') (v : Value) :
    countBody st v = countBody st' v := by
  cases v with
  | array a => simp only [countBody, (stores.array a).size]
  | null | boolean b | integer n | float x | string text | object o => rfl

theorem isAmong_alike (strict : Bool) (needle : Value) (values : List Value) :
    ρ.Alike E Same (isAmong strict needle values) (isAmong strict needle values) := by
  induction values generalizing ρ with
  | nil => exact .pure rfl
  | cons v rest ih =>
      refine .bind store_alike fun ρ₁ _ st st' stores => ?_
      rw [stores.identical, stores.looselyEqual]
      refine .bindSame (.ending _) fun ρ₂ _ found => ?_
      split
      · exact .pure rfl
      · exact ih

theorem inArrayBody_alike (held : ρ.Handles H H') (arguments : List Value) :
    ρ.Alike E Same (inArrayBody H arguments) (inArrayBody H' arguments) :=
  .bindSame (arrayArgument_alike "in_array" arguments 1) fun _ grows haystack =>
    .bindSame (.inspect fun stores => stores.toBoolean _) fun _ grows' strict =>
      .bindSame (valuesOf_alike (held.mono (grows.trans grows')) haystack) fun _ _ values =>
        .bindSame (isAmong_alike strict _ values) fun _ _ _ => .pure rfl

theorem glueAndPieces_alike (arguments : List Value) :
    ρ.Alike E Same (glueAndPieces arguments) (glueAndPieces arguments) := by
  unfold glueAndPieces
  split
  · exact .pure rfl
  · exact .bindSame (.inspect fun stores => stores.toText _) fun _ _ _ => .pure rfl
  · exact .bindSame (.inspect fun stores => stores.toText _) fun _ _ _ =>
      .bindSame (arrayArgument_alike "implode" arguments 1) fun _ _ _ => .pure rfl

theorem implodeBody_alike (held : ρ.Handles H H') (arguments : List Value) :
    ρ.Alike E Same (implodeBody H arguments) (implodeBody H' arguments) := by
  refine .bindSame (glueAndPieces_alike arguments) fun ρ₁ grows found =>
    .bindSame (valuesOf_alike (held.mono grows) found.2) fun ρ₂ _ values =>
      .bind store_alike fun ρ₃ _ st st' stores => ?_
  have texts : st.toText = st'.toText := funext stores.toText
  rw [texts]
  exact .pure rfl

theorem writePrompt_alike (prompt : String) :
    ρ.Alike E Same (writePrompt prompt) (writePrompt prompt) := by
  unfold writePrompt
  split
  · exact .pure rfl
  · exact .write prompt

theorem readlineBody_alike (arguments : List Value) :
    ρ.Alike E Same (readlineBody arguments) (readlineBody arguments) := by
  refine .bindSame (textArgument_alike arguments 0) fun _ _ prompt =>
    .bindSame (writePrompt_alike prompt) fun _ _ _ => .bindSame .readLine fun _ _ line => ?_
  cases line with
  | none => exact .pure rfl
  | some line => exact .pure rfl

theorem exceptionConstructBody_alike (this : Option Value) (arguments : List Value) :
    ρ.Alike E Same (exceptionConstructBody this arguments)
      (exceptionConstructBody this arguments) :=
  .bindSame (receiver_alike "__construct" this) fun _ _ o =>
    .bindSame (textArgument_alike arguments 0) fun _ _ _ =>
      .bindSame (put_alike (.property o "message") _) fun _ _ _ => .pure rfl

theorem exceptionGetMessageBody_alike (this : Option Value) :
    ρ.Alike E Same (exceptionGetMessageBody this) (exceptionGetMessageBody this) :=
  .bindSame (receiver_alike "getMessage" this) fun _ _ o =>
    .bindSame (Location.property?_alike o "message") fun _ _ _ => .pure rfl

theorem call_alike (held : ρ.Handles H H') (b : Builtin) (this : Option Value)
    (arguments : List Value) :
    ρ.Alike E Same (b.call H this arguments) (b.call H' this arguments) := by
  have text : ∀ result : String → Value, ρ.Alike E Same
      (do pure (result (← textArgument arguments 0)))
      (do pure (result (← textArgument arguments 0))) := fun _ =>
    .bindSame (textArgument_alike arguments 0) fun _ _ _ => .pure rfl
  cases b with
  | strlen => exact text fun s => .integer (Int64.ofNat s.utf8ByteSize)
  | strtoupper => exact text fun s => .string (s.map Char.toUpper)
  | strtolower => exact text fun s => .string (s.map Char.toLower)
  | strrev => exact text fun s => .string (String.ofList s.toList.reverse)
  | strval => exact text .string
  | strRepeat => exact strRepeatBody_alike arguments
  | count =>
      refine .bind store_alike fun ρ₁ _ st st' stores => ?_
      rw [countBody_eq stores]
      exact .pure rfl
  | arrayKeys =>
      refine .bindSame (arrayArgument_alike "array_keys" arguments 0) fun _ _ a =>
        .bind (array_alike a) fun _ _ data data' paired => ?_
      rw [paired.elements.keys]
      exact listOf_alike _
  | arrayValues =>
      exact .bindSame (arrayArgument_alike "array_values" arguments 0) fun _ grows a =>
        .bindSame (valuesOf_alike (held.mono grows) a) fun _ _ values => listOf_alike values
  | inArray => exact inArrayBody_alike held arguments
  | implode => exact implodeBody_alike held arguments
  | gettype | isArray | isInt | isString | isNull => exact .pure rfl
  | intval => exact .bindSame (.inspect fun stores => stores.toInteger _) fun _ _ _ => .pure rfl
  | print =>
      exact .bindSame (textArgument_alike arguments 0) fun _ _ text =>
        .bindSame (.write text) fun _ _ _ => .pure rfl
  | varDump =>
      refine .bind store_alike fun ρ₁ _ st st' stores => ?_
      have dumps : st.dump 0 = st'.dump 0 := funext (stores.dump 0)
      rw [dumps]
      exact .bindSame (.write _) fun _ _ _ => .pure rfl
  | readline => exact readlineBody_alike arguments
  | exceptionConstruct => exact exceptionConstructBody_alike this arguments
  | exceptionGetMessage => exact exceptionGetMessageBody_alike this

end Builtin
end TreeScript
