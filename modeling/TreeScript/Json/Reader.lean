import TreeScript.Json.Number

set_option autoImplicit false

/- Strict JSON texts: no comments, no trailing commas, no raw control characters, no unpaired
surrogates, a bound on the nesting, and nothing but blanks after the value. -/
namespace TreeScript.Json

abbrev Parser (α : Type) := List Char → Option (α × List Char)

def isSpace (c : Char) : Bool := c = ' ' || c = '\t' || c = '\n' || c = '\r'

def skipSpace (cs : List Char) : List Char := cs.dropWhile isSpace

def hexDigit (c : Char) : Option Nat :=
  if c.isDigit then some (c.toNat - '0'.toNat)
  else if 'a' ≤ c ∧ c ≤ 'f' then some (c.toNat - 'a'.toNat + 10)
  else if 'A' ≤ c ∧ c ≤ 'F' then some (c.toNat - 'A'.toNat + 10)
  else none

def hexUnit (a b c d : Char) : Option Nat := do
  some ((((← hexDigit a) * 16 + (← hexDigit b)) * 16 + (← hexDigit c)) * 16 + (← hexDigit d))

/-- The character of one code unit that is no surrogate. -/
def plainUnit (unit : Nat) : Option Char :=
  if 0xD800 ≤ unit ∧ unit ≤ 0xDFFF then none else some (Char.ofNat unit)

/-- The character of a leading and a trailing surrogate. -/
def pairedUnits (leading trailing : Nat) : Option Char :=
  if 0xD800 ≤ leading ∧ leading ≤ 0xDBFF ∧ 0xDC00 ≤ trailing ∧ trailing ≤ 0xDFFF then
    some (Char.ofNat (0x10000 + (leading - 0xD800) * 0x400 + (trailing - 0xDC00)))
  else none

def simpleEscape (c : Char) : Option Char :=
  if c = '"' ∨ c = '\\' ∨ c = '/' then some c
  else if c = 'b' then some '\x08'
  else if c = 'f' then some '\x0c'
  else if c = 'n' then some '\n'
  else if c = 'r' then some '\r'
  else if c = 't' then some '\t'
  else none

/-- One character inside quotes, or `none` in place of a character at the closing quote. -/
def stringItem : Parser (Option Char)
  | '"' :: rest => some (none, rest)
  | '\\' :: 'u' :: a :: b :: c :: d :: rest => do
      let unit ← hexUnit a b c d
      match plainUnit unit, rest with
      | some c, _ => some (some c, rest)
      | none, '\\' :: 'u' :: e :: f :: g :: h :: rest' =>
          let trailing ← hexUnit e f g h
          let c ← pairedUnits unit trailing
          some (some c, rest')
      | none, _ => none
  | '\\' :: e :: rest => do
      let c ← simpleEscape e
      some (some c, rest)
  | c :: rest => if c.toNat < 0x20 ∨ c = '\\' then none else some (some c, rest)
  | [] => none

/-- The rest of a string after its opening quote. -/
def stringBody : Nat → Parser (List Char)
  | 0, _ => none
  | n + 1, cs => do
      match ← stringItem cs with
      | (none, rest) => some ([], rest)
      | (some c, rest) =>
          let (more, rest) ← stringBody n rest
          some (c :: more, rest)

def quoted : Parser String
  | '"' :: cs => (stringBody cs.length cs).map fun (s, rest) => (String.ofList s, rest)
  | _ => none

/-- A fixed word at the front of a text. -/
def word (w : List Char) (j : Json) (cs : List Char) : Option (Json × List Char) :=
  if w.isPrefixOf cs then some (j, cs.drop w.length) else none

def scalar (cs : List Char) : Option (Json × List Char) :=
  match cs with
  | 'n' :: _ => word "null".toList .null cs
  | 't' :: _ => word "true".toList (.bool true) cs
  | 'f' :: _ => word "false".toList (.bool false) cs
  | '"' :: _ => (quoted cs).map fun (s, rest) => (.string s, rest)
  | _ => (JsonNumber.read cs).map fun (n, rest) => (.number n, rest)

/-- One or more items between commas, up to the closing bracket. -/
def separated {α : Type} (close : Char) (item : Parser α) : Nat → Parser (List α)
  | 0, _ => none
  | n + 1, cs => do
      let (a, rest) ← item cs
      match skipSpace rest with
      | [] => none
      | c :: rest =>
          if c = close then some ([a], rest)
          else if c = ',' then do
            let (more, rest) ← separated close item n rest
            some (a :: more, rest)
          else none

/-- The items of an array or object after its opening bracket. -/
def enclosed {α : Type} (close : Char) (item : Parser α) (cs : List Char) :
    Option (List α × List Char) :=
  match skipSpace cs with
  | [] => none
  | c :: rest => if c = close then some ([], rest) else separated close item cs.length (c :: rest)

/-- A name, a colon and a value. -/
def member (value : Parser Json) (cs : List Char) : Option ((String × Json) × List Char) := do
  let (name, rest) ← quoted (skipSpace cs)
  match skipSpace rest with
  | ':' :: rest =>
      let (j, rest) ← value rest
      some ((name, j), rest)
  | _ => none

/-- A value with at most so many arrays and objects within one another. -/
def value : Nat → Parser Json
  | 0, cs => scalar (skipSpace cs)
  | depth + 1, cs =>
      match skipSpace cs with
      | '[' :: rest =>
          (enclosed ']' (value depth) rest).map fun (items, rest) => (.array items, rest)
      | '\x7b' :: rest =>
          (enclosed '\x7d' (member (value depth)) rest).map fun (fields, rest) =>
            (.object fields, rest)
      | cs => scalar cs

/-- Reads a whole text whose value nests at most `depth` deep. -/
def read (depth : Nat) (text : String) : Option Json :=
  match value depth text.toList with
  | some (j, rest) => if (skipSpace rest).isEmpty then some j else none
  | none => none

end TreeScript.Json
