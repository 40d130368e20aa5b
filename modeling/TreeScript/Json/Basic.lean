set_option autoImplicit false

/- JSON values. Objects keep their fields in order, repeated names included. -/
namespace TreeScript

/-- A number as read: whole numbers stay exact where a 64-bit word holds them. -/
inductive JsonNumber where
  | natural (n : UInt64)
  | negative (n : Int64)
  | real (x : Float)

inductive Json where
  | null
  | bool (b : Bool)
  | number (n : JsonNumber)
  | string (s : String)
  | array (items : List Json)
  | object (fields : List (String × Json))

namespace Json

instance : Inhabited Json := ⟨.null⟩

/-- How many arrays and objects lie within one another. -/
def depth : Json → Nat
  | .null | .bool _ | .number _ | .string _ => 0
  | .array items => depthItems items + 1
  | .object fields => depthFields fields + 1
where
  depthItems : List Json → Nat
    | [] => 0
    | j :: rest => max (depth j) (depthItems rest)
  depthFields : List (String × Json) → Nat
    | [] => 0
    | (_, j) :: rest => max (depth j) (depthFields rest)

/-- A signed word as a JSON number. -/
def ofInt64 (n : Int64) : Json :=
  if n < 0 then .number (.negative n) else .number (.natural n.toUInt64)

end Json
end TreeScript
