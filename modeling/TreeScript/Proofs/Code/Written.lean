import TreeScript.Code.Basic
import TreeScript.Machine.Run

set_option autoImplicit false

/- The variables that code writes to: targets of assignments, sources and targets of bindings,
operands that are written back, and what their elements lie in. -/
namespace TreeScript.Code

mutual
def Expr.written : Expr → List String
  | .null | .boolean _ | .integer _ | .float _ | .string _ => []
  | .array entries => writtenInEntries entries
  | .load place => place.written .read
  | .binary left _ right => left.written ++ right.written
  | .assign target source => target.written .write ++ source.written
  | .unary _ operand => operand.written
  | .call function arguments => function.written ++ writtenInAll arguments
  | .callMethod object method arguments =>
      object.written ++ method.written ++ writtenInAll arguments
  | .instantiate className arguments => className.written ++ writtenInAll arguments
  | .conditional condition consequent alternate =>
      condition.written ++ consequent.written ++ alternate.written

def writtenInAll : List Expr → List String
  | [] => []
  | e :: rest => e.written ++ writtenInAll rest

def writtenInEntries : List Entry → List String
  | [] => []
  | .value e :: rest => e.written ++ writtenInEntries rest
  | .pair key e :: rest => key.written ++ e.written ++ writtenInEntries rest

def Source.written : Source → List String
  | .value e => e.written
  | .reference p => p.written .write

def Operand.written : Operand → List String
  | .value e => e.written
  | .place p => p.written .write

/-- A variable is written to when its place is resolved for that. -/
def Place.written (use : Use) : Place → List String
  | .variable name => if use = .write then [name] else []
  | .element base key => base.written ++ writtenInKey key
  | .nullReference => []
  | .list places => writtenInPlaces use places

/-- A place that is implied is written to, whatever the element in it is wanted for. -/
def Base.written : Base → List String
  | .value e => e.written
  | .implied p => p.written .write

def writtenInKey : Option Expr → List String
  | none => []
  | some e => e.written

def writtenInPlaces (use : Use) : List Place → List String
  | [] => []
  | p :: rest => p.written use ++ writtenInPlaces use rest
end

def writtenInPlace? : Option Place → List String
  | none => []
  | some p => p.written .write

def writtenInDefaults : List (String × Expr) → List String
  | [] => []
  | (_, e) :: rest => e.written ++ writtenInDefaults rest

/-! A place that is only read writes to less -/

mutual
theorem Place.written_read : (p : Place) → p.written .read ⊆ p.written .write
  | .variable name => by simp [Place.written]
  | .element base key => by
      simp only [Place.written]
      exact List.Subset.refl _
  | .nullReference => by simp [Place.written]
  | .list places => by
      simp only [Place.written]
      exact writtenInPlaces_read places

theorem writtenInPlaces_read :
    (places : List Place) → writtenInPlaces .read places ⊆ writtenInPlaces .write places
  | [] => by simp [writtenInPlaces]
  | p :: rest => by
      simp only [writtenInPlaces]
      exact List.append_subset.mpr ⟨List.subset_append_of_subset_left _ (Place.written_read p),
        List.subset_append_of_subset_right _ (writtenInPlaces_read rest)⟩
end

theorem Place.written_subset (p : Place) (use : Use) : p.written use ⊆ p.written .write := by
  cases use with
  | read => exact p.written_read
  | write => exact List.Subset.refl _

end TreeScript.Code
