import TreeScript.Location

set_option autoImplicit false

/- Operators applied to values and to locations. -/
namespace TreeScript

/-- Arrays and objects take part in no arithmetic but the union of arrays. -/
def requireScalars (operator : BinaryOperator) (v w : Value) : Run Unit :=
  if v.isCompound || w.isCompound then
    Run.fail (.unsupportedOperands v.typeTag operator.symbol w.typeTag)
  else pure ()

/-- Adds a copy of an element whose key is missing in `union`. -/
def addIfMissing (held : List Handle) (union : ArrayId) (key : Key) (s : SlotId) : Run Unit := do
  if ((← Run.inspect (·.array union)).slot? key).isNone then
    let v ← copyValue (.array union :: held) (← Run.inspect (·.read s))
    Run.alter (·.put (.element union key) v)
  else pure ()

def addMissing (held : List Handle) (union : ArrayId) : List (Key × SlotId) → Run Unit
  | [] => pure ()
  | (key, s) :: rest => do
      addIfMissing held union key s
      addMissing held union rest

/-- The elements of the left array, then those of the right one under other keys. -/
def uniteArrays (held : List Handle) (a b : ArrayId) : Run Value := do
  let held := Handle.array a :: .array b :: held
  match ← copyValue held (.array a) with
  | .array union => do
      addMissing held union (← Run.inspect (·.array b)).elements
      pure (.array union)
  | v => pure v

def arithmetic (operator : BinaryOperator) (f : Number → Number → Option Number)
    (v w : Value) : Run Value := do
  requireScalars operator v w
  let st ← Run.inspect id
  match f (st.toNumber v) (st.toNumber w) with
  | some n => pure n.toValue
  | none => Run.fail .divisionByZero

def shift (operator : BinaryOperator) (f : Int64 → Nat → Int64) (v w : Value) : Run Value := do
  requireScalars operator v w
  let st ← Run.inspect id
  let amount := (st.toInteger w).toInt
  if amount < 0 then Run.fail .negativeShift
  else pure (.integer (f (st.toInteger v) amount.toNat))

/-- Tests the order of two values. -/
def ordered (test : Ordering → Bool) (v w : Value) : Run Value := do
  let order ← Run.ending (← Run.inspect (·.compare v w))
  pure (.boolean (order.any test))

def applyBinary (held : List Handle) (operator : BinaryOperator) (v w : Value) : Run Value := do
  match operator with
  | .add =>
      match v, w with
      | .array a, .array b => uniteArrays held a b
      | _, _ => arithmetic .add (fun m n => some (m.add n)) v w
  | .subtract => arithmetic .subtract (fun m n => some (m.subtract n)) v w
  | .multiply => arithmetic .multiply (fun m n => some (m.multiply n)) v w
  | .divide => arithmetic .divide Number.divide v w
  | .modulo => do
      requireScalars .modulo v w
      let st ← Run.inspect id
      if st.toInteger w == 0 then Run.fail .moduloByZero
      else pure (.integer (remainder (st.toInteger v) (st.toInteger w)))
  | .concat => do
      let st ← Run.inspect id
      pure (.string (st.toText v ++ st.toText w))
  | .shiftLeft => shift .shiftLeft TreeScript.shiftLeft v w
  | .shiftRight => shift .shiftRight TreeScript.shiftRight v w
  | .equal => do pure (.boolean (← Run.ending (← Run.inspect (·.looselyEqual v w))))
  | .notEqual => do pure (.boolean !(← Run.ending (← Run.inspect (·.looselyEqual v w))))
  | .identical => do pure (.boolean (← Run.ending (← Run.inspect (·.identical v w))))
  | .notIdentical => do pure (.boolean !(← Run.ending (← Run.inspect (·.identical v w))))
  | .less => ordered (· == .lt) v w
  | .lessOrEqual => ordered (· != .gt) v w
  | .greater => ordered (· == .gt) v w
  | .greaterOrEqual => ordered (· != .lt) v w

def applyUnary (operator : UnaryOperator) (v : Value) : Run Value :=
  match operator with
  | .plus => arithmetic .multiply (fun m n => some (m.multiply n)) v (.integer 1)
  | .minus => arithmetic .multiply (fun m n => some (m.multiply n)) v (.integer (-1))
  | .complement =>
      match v with
      | .integer n => pure (.integer (~~~n))
      | .float x => pure (.integer (~~~(floatToInteger x)))
      | other => Run.fail (.unsupportedOperands "" "~" other.typeTag)
  | .not => do pure (.boolean !(← Run.inspect (·.toBoolean v)))
  | .preIncrement | .postIncrement => pure v.increment
  | .preDecrement | .postDecrement => pure v.decrement

/-- Applies an operator at a location. Increments and decrements write back: before the operand
they give the new value, after it the old one. -/
def Location.applyUnary (held : List Handle) (operator : UnaryOperator) (l : Location) :
    Run Value := do
  let old ← l.get
  let stored ← TreeScript.applyUnary operator old
  match operator with
  | .preIncrement | .preDecrement =>
      let _ ← l.set (old.handles ++ held) stored
      pure stored
  | .postIncrement | .postDecrement =>
      let _ ← l.set (old.handles ++ held) stored
      pure old
  | _ => pure stored

end TreeScript
