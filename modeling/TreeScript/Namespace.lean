import TreeScript.Store.Basic
import TreeScript.Text.Lowercase

set_option autoImplicit false

/- Functions and classes by name, without regard to case or to leading backslashes. -/
namespace TreeScript

/-- The form under which a name is kept. -/
def normalName (name : String) : String :=
  Text.lowercase (String.ofList (name.toList.dropWhile (· == '\\')))

/-- `path` is the spelling under which the namespace was first opened. -/
structure Namespace where
  path : String
  functions : List (String × Callable)
  classes : List (String × ClassId)

namespace Namespace

def empty (path : String) : Namespace := ⟨path, [], []⟩

def function? (n : Namespace) (name : String) : Option Callable :=
  Assoc.get? n.functions (normalName name)

def class? (n : Namespace) (name : String) : Option ClassId :=
  Assoc.get? n.classes (normalName name)

/-- A later definition takes the place of an earlier one of the same name. -/
def defineFunction (n : Namespace) (name : String) (f : Callable) : Namespace :=
  { n with functions := Assoc.set n.functions (normalName name) f }

def defineClass (n : Namespace) (name : String) (c : ClassId) : Namespace :=
  { n with classes := Assoc.set n.classes (normalName name) c }

end Namespace

def ClassData.method? (c : ClassData) (name : String) : Option Callable :=
  Assoc.get? c.methods (Text.lowercase name)

/-- Methods of one name, without regard to case, replace each other. -/
def ClassData.defineMethod (c : ClassData) (name : String) (m : Callable) : ClassData :=
  { c with methods := Assoc.set c.methods (Text.lowercase name) m }

/-- The path of the outermost namespace. -/
def rootPath : String := "\\"

/-- The key under which a path is kept: without backslashes at either end, in lower case. -/
def pathKey (path : String) : String :=
  let inner := ((path.toList.dropWhile (· == '\\')).reverse.dropWhile (· == '\\')).reverse
  if inner.isEmpty then rootPath else Text.lowercase (String.ofList inner)

/-- All namespaces opened so far, in order. -/
abbrev Namespaces := List (String × Namespace)

/-- The namespace of a path, opened on first use. -/
def Namespaces.opened (all : Namespaces) (path : String) : Namespace × Namespaces :=
  match Assoc.get? all (pathKey path) with
  | some n => (n, all)
  | none => (.empty path, Assoc.set all (pathKey path) (.empty path))

end TreeScript
