set_option autoImplicit false

/- Sets of code points given as tables of inclusive ranges. -/
namespace TreeScript.Text

def inRanges (table : Array (Nat × Nat)) (c : Char) : Bool :=
  table.any fun (lo, hi) => lo ≤ c.toNat && c.toNat ≤ hi

end TreeScript.Text
