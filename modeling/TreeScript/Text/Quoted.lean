import TreeScript.Text.Printable

set_option autoImplicit false

/- Texts between double quotes, as code listings show them. -/
namespace TreeScript.Text

/-- The six characters with a short escape. -/
def shortEscape (c : Char) : Option Char :=
  if c = '\x00' then some '0'
  else if c = '\t' then some 't'
  else if c = '\r' then some 'r'
  else if c = '\n' then some 'n'
  else if c = '\\' then some '\\'
  else if c = '"' then some '"'
  else none

/-- A character inside quotes; what is not printable is written by its code point. -/
def quoteChar (c : Char) : List Char :=
  match shortEscape c with
  | some e => ['\\', e]
  | none =>
      if isPrintable c then [c]
      else ['\\', 'u', '\x7b'] ++ Nat.toDigits 16 c.toNat ++ ['\x7d']

def quote (s : String) : String :=
  String.ofList ('"' :: s.toList.flatMap quoteChar ++ ['"'])

end TreeScript.Text
