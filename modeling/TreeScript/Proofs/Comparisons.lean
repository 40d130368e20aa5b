import TreeScript.Operator.Apply
import TreeScript.Proofs.Arrays
import TreeScript.Proofs.Store.Comparing

set_option autoImplicit false

/- The operators of comparison agree with one another, in both directions and on values of all
types. -/
namespace TreeScript

open Relation (ReflTransGen)

variable {m : Machine} {v w : Value} {order : Option Ordering}

/-- What an operator gives for two values on a machine, which it leaves as it was. -/
def Machine.Decides (m : Machine) (operator : BinaryOperator) (v w : Value) (b : Bool) : Prop :=
  ∀ held, (applyBinary held operator v w).run m = .ok (.boolean b) m

theorem run_ordered (test : Ordering → Bool) (decided : m.store.compare v w = some order) :
    (ordered test v w).run m = .ok (.boolean (order.any test)) m := by
  have looked : (Run.inspect (·.compare v w)).run m = .ok (some order) m :=
    congrArg (EStateM.Result.ok · m) decided
  rw [ordered, Run.run_bind looked]
  rfl

theorem decides_ordered {operator : BinaryOperator} {test : Ordering → Bool} {b : Bool}
    (tests : ∀ held, applyBinary held operator v w = ordered test v w)
    (decided : m.store.compare v w = some order) (value : order.any test = b) :
    m.Decides operator v w b := by
  intro held
  rw [tests, run_ordered test decided, value]

theorem decides_equal {b : Bool} (ends : m.store.looselyEqual v w = some b) :
    m.Decides .equal v w b := by
  intro held
  have looked : (Run.inspect (·.looselyEqual v w)).run m = .ok (some b) m :=
    congrArg (EStateM.Result.ok · m) ends
  rw [applyBinary, Run.run_bind looked]
  rfl

/-- What the operators make of an order and of the order reversed. -/
theorem tests_mirrored (order : Option Ordering) :
    let less := order == some .lt
    let equal := order == some .eq
    let greater := order == some .gt
    let back := order.map Ordering.swap
    (order.any (· == .lt) = less ∧ back.any (· == .gt) = less) ∧
    (order.any (· == .gt) = greater ∧ back.any (· == .lt) = greater) ∧
    (back == some .eq) = equal ∧
    (order.any (· != .gt) = (less || equal) ∧ back.any (· != .lt) = (less || equal)) ∧
    (order.any (· != .lt) = (greater || equal) ∧ back.any (· != .gt) = (greater || equal)) ∧
    (less && equal) = false ∧ (less && greater) = false ∧ (equal && greater) = false := by
  cases order with
  | none => decide
  | some order => cases order <;> decide

/-- Where values can be compared in both directions, their order is reversed when they change
places, and they are equal when the order says so. So `<` and `>`, `<=` and `>=` mirror each other, `==` is
the same both ways, `<=` is `<` or `==`, and no two of `<`, `==` and `>` hold. -/
theorem comparisons_coherent (m : Machine) (keyed : m.store.Keyed) (v w : Value)
    {order order' : Option Ordering} (forth : m.store.compare v w = some order)
    (back : m.store.compare w v = some order') :
    order' = order.map Ordering.swap ∧
    (m.store.looselyEqual v w = some true ↔ order = some .eq) ∧
    (m.store.looselyEqual v w = some false ↔ order ≠ some .eq) ∧
    ∃ less equal greater : Bool,
      (m.Decides .less v w less ∧ m.Decides .greater w v less) ∧
      (m.Decides .greater v w greater ∧ m.Decides .less w v greater) ∧
      (m.Decides .equal v w equal ∧ m.Decides .equal w v equal) ∧
      (m.Decides .lessOrEqual v w (less || equal) ∧
        m.Decides .greaterOrEqual w v (less || equal)) ∧
      (m.Decides .greaterOrEqual v w (greater || equal) ∧
        m.Decides .lessOrEqual w v (greater || equal)) ∧
      (less && equal) = false ∧ (less && greater) = false ∧ (equal && greater) = false := by
  have equalForth := Store.looselyEqual_of_compare forth
  have equalBack := Store.looselyEqual_of_compare back
  obtain rfl := Store.compare_symm keyed forth back
  obtain ⟨⟨less, less'⟩, ⟨greater, greater'⟩, equal, ⟨atMost, atMost'⟩, ⟨atLeast, atLeast'⟩,
    apart⟩ := tests_mirrored order
  have equalsBack : m.Decides .equal w v (order == some .eq) := decides_equal (equal ▸ equalBack)
  exact ⟨rfl, by simp [equalForth], by simp [equalForth], order == some .lt, order == some .eq,
    order == some .gt,
    ⟨decides_ordered (fun _ => rfl) forth less, decides_ordered (fun _ => rfl) back less'⟩,
    ⟨decides_ordered (fun _ => rfl) forth greater, decides_ordered (fun _ => rfl) back greater'⟩,
    ⟨decides_equal equalForth, equalsBack⟩,
    ⟨decides_ordered (fun _ => rfl) forth atMost, decides_ordered (fun _ => rfl) back atMost'⟩,
    ⟨decides_ordered (fun _ => rfl) forth atLeast, decides_ordered (fun _ => rfl) back atLeast'⟩,
    apart⟩

/-- Arrays `["x" => [10], "y" => null]` and `["y" => "", "x" => [" 10"]]`. -/
def crossed : Store :=
  let arrays := ((((Store.empty.newArray .empty).2.newArray .empty).2.newArray .empty).2.newArray
    .empty).2
  let first := ((arrays.push ⟨1⟩ (.integer 10)).2.insertElement ⟨0⟩ (.ofText "x")
    (.array ⟨1⟩)).insertElement ⟨0⟩ (.ofText "y") .null
  ((first.insertElement ⟨2⟩ (.ofText "y") (.string "")).push ⟨3⟩ (.string " 10")).2.insertElement ⟨2⟩
    (.ofText "x") (.array ⟨3⟩)

theorem crossed_keyed : crossed.Keyed := by
  have made (text : String) : (Key.ofText text).Made := .inr ⟨text, rfl⟩
  have arrays := (((ReflTransGen.single (Store.Operation.new .empty)).tail (.new _)).tail
    (.new _)).tail (.new _)
  have first := ((arrays.tail (.push _ ⟨1⟩ (.integer 10))).tail
    (.insert _ ⟨0⟩ (made "x") (.array ⟨1⟩))).tail (.insert _ ⟨0⟩ (made "y") .null)
  have built : Store.Operations .empty crossed :=
    ((first.tail (.insert _ ⟨2⟩ (made "y") (.string ""))).tail
      (.push _ ⟨3⟩ (.string " 10"))).tail (.insert _ ⟨2⟩ (made "x") (.array ⟨3⟩))
  exact (Store.wellFormed_of_operations built).keyed

/-- They are equal in both directions. -/
theorem comparisons_coherent_nested :
    let m : Machine := { (Session.create .default false [] .unlimited .unlimited).boot ⟨[], [], 0⟩ with
      store := crossed }
    m.store.looselyEqual (.array ⟨0⟩) (.array ⟨2⟩) = some true ∧
    m.store.looselyEqual (.array ⟨2⟩) (.array ⟨0⟩) = some true := by
  intro m
  have forth : crossed.compare (.array ⟨0⟩) (.array ⟨2⟩) = some (some .eq) := by decide +kernel
  have back : crossed.compare (.array ⟨2⟩) (.array ⟨0⟩) = some (some .eq) := by decide +kernel
  have one := comparisons_coherent m crossed_keyed (.array ⟨0⟩) (.array ⟨2⟩) forth back
  have other := comparisons_coherent m crossed_keyed (.array ⟨2⟩) (.array ⟨0⟩) back forth
  exact ⟨one.2.1.mpr rfl, other.2.1.mpr rfl⟩

end TreeScript
