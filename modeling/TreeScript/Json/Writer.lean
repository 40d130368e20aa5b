import TreeScript.Decimal.Layout
import TreeScript.Json.Basic

set_option autoImplicit false

/- JSON texts without blanks. -/
namespace TreeScript.Json

/-- Doubles are positional from `1e-5` up to but not including `1e16`, and of two equally near
forms the one with an even last digit is taken; what is not finite has no number in JSON. -/
def floatLayout : Decimal.Layout := ⟨.toEven, -5, 15, "+", "null", "null", "null"⟩

def writeNumber : JsonNumber → String
  | .natural n => toString n.toNat
  | .negative n => toString n.toInt
  | .real x => floatLayout.write x

def hexPair (n : Nat) : List Char := [Nat.digitChar (n / 16), Nat.digitChar (n % 16)]

def escapeChar (c : Char) : List Char :=
  if c = '"' then ['\\', '"']
  else if c = '\\' then ['\\', '\\']
  else if c = '\x08' then ['\\', 'b']
  else if c = '\x0c' then ['\\', 'f']
  else if c = '\n' then ['\\', 'n']
  else if c = '\r' then ['\\', 'r']
  else if c = '\t' then ['\\', 't']
  else if c.toNat < 0x20 then ['\\', 'u', '0', '0'] ++ hexPair c.toNat
  else [c]

def writeString (s : String) : String :=
  String.ofList ('"' :: s.toList.flatMap escapeChar ++ ['"'])

/-- Puts the parts between commas and brackets. -/
def bracketed (opening closing : String) (parts : List String) : String :=
  opening ++ ",".intercalate parts ++ closing

def write : Json → String
  | .null => "null"
  | .bool b => if b then "true" else "false"
  | .number n => writeNumber n
  | .string s => writeString s
  | .array items => bracketed "[" "]" (writeItems items)
  | .object fields => bracketed "\x7b" "\x7d" (writeFields fields)
where
  writeItems : List Json → List String
    | [] => []
    | j :: rest => write j :: writeItems rest
  writeFields : List (String × Json) → List String
    | [] => []
    | (name, j) :: rest => (writeString name ++ ":" ++ write j) :: writeFields rest

end TreeScript.Json
