import TreeScript.Proofs.Pairing.Operators

set_option autoImplicit false

/- Code is evaluated alike on paired machines, as long as it writes to no variable that is ahead. -/
namespace TreeScript

open Code (Expr Place Base Entry Source Operand Stmt Block Function ClassDefinition)
open Compile (OwnLocals Covered)

variable {ρ ρ₁ : Pairing} {X : Lead} {E : List Lead}

/-! Frames and calls -/

/-- The frames are the same but for the numbers of the slots they hold. -/
structure Frame.Paired (ρ : Pairing) (frame frame' : Frame) : Prop where
  arguments : frame.arguments = frame'.arguments
  receiver : frame.receiver = frame'.receiver
  held : ρ.Handles frame.held frame'.held

namespace Frame.Paired

variable {frame frame' : Frame}

theorem mono (grows : ρ ≤ ρ₁) (paired : frame.Paired ρ frame') : frame.Paired ρ₁ frame' :=
  ⟨paired.arguments, paired.receiver, paired.held.mono grows⟩

theorem holding {H H' : List Handle} (paired : frame.Paired ρ frame') (handles : ρ.Handles H H') :
    (frame.holding H).Paired ρ (frame'.holding H') :=
  ⟨paired.arguments, paired.receiver, handles.append paired.held⟩

theorem holdingValue (paired : frame.Paired ρ frame') (v : Value) :
    (frame.holding v.handles).Paired ρ (frame'.holding v.handles) := paired.holding (.of_value v)

theorem forCall (paired : frame.Paired ρ frame') (receiver : Option Value)
    (arguments : List Value) :
    (frame.forCall receiver arguments).Paired ρ (frame'.forCall receiver arguments) := by
  have received : ρ.Handles ((receiver.map Value.handles).getD [])
      ((receiver.map Value.handles).getD []) := by
    cases receiver with
    | none => exact .nil
    | some v => exact .of_value v
  exact ⟨rfl, rfl, (received.append (.of_values _ _ .of_value)).append paired.held⟩

end Frame.Paired

/-- Functions with locals of their own run alike. -/
def CallsAlike (user : UserCall) : Prop :=
  ∀ {ρ : Pairing} {E : List Lead} {frame frame' : Frame} (f : Function Stmt),
    OwnLocals f → frame.Paired ρ frame' → ρ.Alike E Same (user f frame) (user f frame')

/-- The same function or method, and it has locals of its own. -/
def SameCallable (_ : Pairing) (c c' : Callable) : Prop :=
  c = c' ∧ ∀ f, c = .user f → OwnLocals f

/-- The same class, and its methods have locals of their own. -/
def SameClass (_ : Pairing) (data data' : ClassData) : Prop :=
  data = data' ∧ ∀ name f, (name, Callable.user f) ∈ data.methods → OwnLocals f

variable {user : UserCall} {frame frame' : Frame}

theorem callWith_alike (calls : CallsAlike user) (paired : frame.Paired ρ frame') (c : Callable)
    (own : ∀ f, c = .user f → OwnLocals f) :
    ρ.Alike E Same (callWith user c frame) (callWith user c frame') := by
  cases c with
  | user f => exact calls f (own f rfl) paired
  | builtin b =>
      simp only [callWith, paired.receiver, paired.arguments]
      exact Builtin.call_alike paired.held b _ _

theorem findFunction_alike (name : String) :
    ρ.Alike E SameCallable (findFunction name) (findFunction name) := by
  refine .look fun m m' paired => ?_
  rw [← paired.names]
  cases found : m.names.function? name with
  | none => exact .fail _
  | some c =>
      refine .pure ⟨rfl, fun f isUser => ?_⟩
      subst isUser
      exact paired.own.functions _ f (Assoc.mem_of_get? found)

theorem findClass_alike (name : String) : ρ.Alike E Same (findClass name) (findClass name) := by
  refine .look fun m m' paired => ?_
  rw [← paired.names]
  split
  · exact .pure rfl
  · exact .fail _

theorem classData_alike {class_ : Store → ClassId}
    (same : ∀ {ρ : Pairing} {st st' : Store}, st.Paired ρ st' → class_ st = class_ st') :
    ρ.Alike E SameClass (Run.inspect fun st => st.classData (class_ st))
      (Run.inspect fun st => st.classData (class_ st)) := by
  refine fun m m' paired => .ok (le_refl _) paired ⟨?_, fun name f member => ?_⟩
  · dsimp only
    rw [same paired.store]
    exact paired.store.classData _
  · obtain ⟨data, listed, isMethod⟩ := Machine.user_method member
    exact paired.own.methods data listed name f isMethod

theorem own_of_method? {data : ClassData} {name : String} {c : Callable}
    (own : ∀ name f, (name, Callable.user f) ∈ data.methods → OwnLocals f)
    (found : data.method? name = some c) (f : Function Stmt) (isUser : c = .user f) :
    OwnLocals f := own _ f (isUser ▸ Assoc.mem_of_get? found)

theorem callMethod_alike (calls : CallsAlike user) (paired : frame.Paired ρ frame')
    (object : Value) (method : String) :
    ρ.Alike E Same (callMethod user object method frame)
      (callMethod user object method frame') := by
  cases object with
  | object o =>
      refine .bind (classData_alike fun stores => (stores.object o).classId)
        fun ρ₁ grows data data' same => ?_
      obtain ⟨rfl, own⟩ := same
      cases found : data.method? method with
      | none => exact .fail _
      | some m => exact callWith_alike calls (paired.mono grows) m (own_of_method? own found)
  | null | boolean b | integer n | float x | string text | array a => exact .fail _

theorem newProperties_alike {H H' : List Handle} (held : ρ.Handles H H')
    (defaults : List (String × Value)) :
    ρ.Alike E (fun ρ l l' => Pairing.Entries ρ l l') (newProperties H defaults)
      (newProperties H' defaults) := by
  induction defaults generalizing ρ H H' with
  | nil => exact .pure .nil
  | cons default rest ih =>
      refine .bindSame (copyValue_alike held default.2) fun ρ₁ grows v =>
        .bind (newSlot_alike v) fun ρ₂ grows' s s' pair => ?_
      refine .bind (ih (.cons (.slot pair) (held.mono (grows.trans grows'))))
        fun ρ₃ grows'' more more' entries => ?_
      exact .pure (.cons ⟨rfl, grows''.kept pair⟩ entries)

theorem newObject_alike (c : ClassId) {l l' : List (String × SlotId)} (entries : ρ.Entries l l') :
    ρ.Alike E Same (Run.update (·.newObject ⟨c, l⟩)) (Run.update (·.newObject ⟨c, l'⟩)) := by
  have made : ObjectData.Paired ρ ⟨c, l⟩ ⟨c, l'⟩ := ⟨rfl, entries⟩
  refine .update (fun stores => ?_) fun _ => rfl
  obtain ⟨same, ended⟩ := stores.newObject made
  exact ⟨ρ, le_refl _, ended, same⟩

theorem instantiate_alike (calls : CallsAlike user) (paired : frame.Paired ρ frame')
    (className : String) (arguments : List Value) :
    ρ.Alike E Same (instantiate user className arguments frame)
      (instantiate user className arguments frame') := by
  refine .bindSame (findClass_alike className) fun ρ₁ grows c =>
    .bind (classData_alike fun _ => rfl) fun ρ₂ grows' data data' same => ?_
  obtain ⟨rfl, own⟩ := same
  have paired := paired.mono (grows.trans grows')
  have held := Pairing.Handles.cons (.classData c) (paired.forCall none arguments).held
  refine .bind (newProperties_alike held data.properties) fun ρ₃ grows l l' entries =>
    .bindSame (newObject_alike c entries) fun ρ₄ grows' o => ?_
  have paired := (paired.mono (grows.trans grows')).forCall (some (.object o)) arguments
  dsimp only
  cases found : data.method? "__construct" with
  | none => exact .pure rfl
  | some m =>
      exact .bindSame (callWith_alike calls paired m (own_of_method? own found))
        fun _ _ _ => .pure rfl

/-! Expressions -/

/-- None of the names is ahead. -/
def Apart (X : Lead) (names : List String) : Prop := ∀ name ∈ names, name ∉ X.names

theorem apart_append {first second : List String} :
    Apart X (first ++ second) ↔ Apart X first ∧ Apart X second := List.forall_mem_append

mutual
theorem evalExpr_alike (calls : CallsAlike user) {ρ : Pairing} {frame frame' : Frame} :
    (e : Expr) → frame.Paired ρ frame' → Apart X e.written →
      ρ.Alike (X :: E) Same (evalExpr user frame e) (evalExpr user frame' e)
  | .null, _, _ | .boolean _, _, _ | .integer _, _, _ | .float _, _, _ | .string _, _, _ => by
      simp only [evalExpr]
      exact .pure rfl
  | .array entries, paired, apart => by
      simp only [evalExpr, Expr.written] at apart ⊢
      exact .bindSame (evalEntries_alike calls entries paired apart) fun _ grows values =>
        arrayOf_alike (paired.mono grows).held values
  | .load place, paired, apart => by
      simp only [evalExpr, Expr.written] at apart ⊢
      exact .bind (evalPlace_alike calls .read .read place paired apart) fun _ _ _ _ locations =>
        Location.get_alike locations
  | .binary left operator right, paired, apart => by
      simp only [evalExpr, Expr.written, apart_append] at apart ⊢
      refine .bindSame (evalExpr_alike calls left paired apart.1) fun ρ₁ grows v => ?_
      have paired := paired.mono grows
      refine .bindSame (evalExpr_alike calls right (paired.holdingValue v) apart.2)
        fun ρ₂ grows' w => ?_
      have values : ρ₂.Handles (v.handles ++ w.handles) (v.handles ++ w.handles) :=
        (Pairing.Handles.of_value v).append (.of_value w)
      exact applyBinary_alike (values.append (paired.mono grows').held) operator v w
  | .assign target source, paired, apart => by
      simp only [evalExpr, Expr.written, apart_append] at apart ⊢
      exact .bind (evalPlace_alike calls .write .write target paired apart.1)
        fun _ grows _ _ locations => assignFrom_alike calls source
          ((paired.mono grows).holding locations.handles) locations apart.2
  | .unary operator operand, paired, apart => by
      simp only [evalExpr, Expr.written] at apart ⊢
      exact evalOperand_alike calls operator operand paired apart
  | .call function arguments, paired, apart => by
      simp only [evalExpr, Expr.written, apart_append] at apart ⊢
      refine .bindSame (evalExpr_alike calls function paired apart.1) fun ρ₁ grows name =>
        .bindSame (.inspect fun stores => stores.toText name) fun ρ₂ grows' name =>
          .bind (findFunction_alike name) fun ρ₃ grows'' f f' same => ?_
      obtain ⟨rfl, own⟩ := same
      have paired := paired.mono ((grows.trans grows').trans grows'')
      exact .bindSame (evalExprs_alike calls arguments paired apart.2) fun _ grows values =>
        callWith_alike calls ((paired.mono grows).forCall none values) f own
  | .callMethod object method arguments, paired, apart => by
      simp only [evalExpr, Expr.written, apart_append] at apart ⊢
      refine .bindSame (evalExpr_alike calls object paired apart.1.1) fun ρ₁ grows object => ?_
      have paired := paired.mono grows
      refine .bindSame (evalExpr_alike calls method (paired.holdingValue object) apart.1.2)
        fun ρ₂ grows method => .bindSame (.inspect fun stores => stores.toText method)
          fun ρ₃ grows' method => ?_
      have paired := paired.mono (grows.trans grows')
      exact .bindSame (evalExprs_alike calls arguments (paired.holdingValue object) apart.2)
        fun _ grows values => callMethod_alike calls
          ((paired.mono grows).forCall (some object) values) object method
  | .instantiate className arguments, paired, apart => by
      simp only [evalExpr, Expr.written, apart_append] at apart ⊢
      refine .bindSame (evalExpr_alike calls className paired apart.1) fun ρ₁ grows name =>
        .bindSame (.inspect fun stores => stores.toText name) fun ρ₂ grows' name => ?_
      have paired := paired.mono (grows.trans grows')
      exact .bindSame (evalExprs_alike calls arguments paired apart.2) fun _ grows values =>
        instantiate_alike calls (paired.mono grows) name values
  | .conditional condition consequent alternate, paired, apart => by
      simp only [evalExpr, Expr.written, apart_append] at apart ⊢
      refine .bindSame (evalExpr_alike calls condition paired apart.1.1) fun ρ₁ grows v =>
        .bindSame (.inspect fun stores => stores.toBoolean v) fun ρ₂ grows' chosen => ?_
      have paired := paired.mono (grows.trans grows')
      cases chosen with
      | true => exact evalExpr_alike calls consequent paired apart.1.2
      | false => exact evalExpr_alike calls alternate paired apart.2

theorem evalExprs_alike (calls : CallsAlike user) {ρ : Pairing} {frame frame' : Frame} :
    (es : List Expr) → frame.Paired ρ frame' → Apart X (Code.writtenInAll es) →
      ρ.Alike (X :: E) Same (evalExprs user frame es) (evalExprs user frame' es)
  | [], _, _ => by
      simp only [evalExprs]
      exact .pure rfl
  | e :: rest, paired, apart => by
      simp only [evalExprs, Code.writtenInAll, apart_append] at apart ⊢
      exact .bindSame (evalExpr_alike calls e paired apart.1) fun _ grows v =>
        .bindSame (evalExprs_alike calls rest ((paired.mono grows).holdingValue v) apart.2)
          fun _ _ _ => .pure rfl

theorem evalEntries_alike (calls : CallsAlike user) {ρ : Pairing} {frame frame' : Frame} :
    (entries : List Entry) → frame.Paired ρ frame' → Apart X (Code.writtenInEntries entries) →
      ρ.Alike (X :: E) Same (evalEntries user frame entries) (evalEntries user frame' entries)
  | [], _, _ => by
      simp only [evalEntries]
      exact .pure rfl
  | .value e :: rest, paired, apart => by
      simp only [evalEntries, Code.writtenInEntries, apart_append] at apart ⊢
      exact .bindSame (evalExpr_alike calls e paired apart.1) fun _ grows v =>
        .bindSame (evalEntries_alike calls rest ((paired.mono grows).holdingValue v) apart.2)
          fun _ _ _ => .pure rfl
  | .pair key e :: rest, paired, apart => by
      simp only [evalEntries, Code.writtenInEntries, apart_append] at apart ⊢
      refine .bindSame (evalExpr_alike calls key paired apart.1.1) fun ρ₁ grows k => ?_
      have paired := paired.mono grows
      refine .bindSame (evalExpr_alike calls e (paired.holdingValue k) apart.1.2)
        fun ρ₂ grows v => ?_
      have values : ρ₂.Handles (k.handles ++ v.handles) (k.handles ++ v.handles) :=
        (Pairing.Handles.of_value k).append (.of_value v)
      exact .bindSame (evalEntries_alike calls rest ((paired.mono grows).holding values) apart.2)
        fun _ _ _ => .pure rfl

theorem assignFrom_alike (calls : CallsAlike user) {ρ : Pairing} {frame frame' : Frame}
    {l l' : Location} : (source : Source) → frame.Paired ρ frame' → l.Paired ρ X .write l' →
      Apart X source.written →
      ρ.Alike (X :: E) Same (assignFrom user frame l source) (assignFrom user frame' l' source)
  | .value e, paired, locations, apart => by
      simp only [assignFrom, Source.written] at apart ⊢
      exact .bindSame (evalExpr_alike calls e paired apart) fun _ grows v =>
        Location.set_alike (paired.mono grows).held v (locations.mono grows)
  | .reference p, paired, locations, apart => by
      simp only [assignFrom, Source.written] at apart ⊢
      exact .bind (evalPlace_alike calls .write .write p paired apart) fun _ grows _ _ sources =>
        .bind (Location.slot_alike sources) fun _ grows' _ _ pair =>
          Location.bind_alike (locations.mono (grows.trans grows')) pair

theorem evalOperand_alike (calls : CallsAlike user) {ρ : Pairing} {frame frame' : Frame}
    (operator : UnaryOperator) : (operand : Operand) → frame.Paired ρ frame' →
      Apart X operand.written →
      ρ.Alike (X :: E) Same (evalOperand user frame operator operand)
        (evalOperand user frame' operator operand)
  | .value e, paired, apart => by
      simp only [evalOperand, Operand.written] at apart ⊢
      exact .bindSame (evalExpr_alike calls e paired apart) fun _ _ v => applyUnary_alike operator v
  | .place p, paired, apart => by
      simp only [evalOperand, Operand.written] at apart ⊢
      exact .bind (evalPlace_alike calls .write .write p paired apart) fun _ grows _ _ locations =>
        applyUnaryAt_alike (paired.mono grows).held operator locations

theorem evalPlace_alike (calls : CallsAlike user) {ρ : Pairing} {frame frame' : Frame}
    (use wanted : Use) : (place : Place) → frame.Paired ρ frame' → Apart X (place.written wanted) →
      ρ.Alike (X :: E) (fun ρ l l' => Location.Paired ρ X wanted l l')
        (evalPlace user frame use place) (evalPlace user frame' use place)
  | .variable name, _, apart => by
      simp only [evalPlace, Place.written] at apart ⊢
      refine .bindSame (.note _) fun _ _ _ => Location.ofVariable_alike fun writes => ?_
      exact apart name (by simp [writes])
  | .element base key, paired, apart => by
      simp only [evalPlace, Place.written, apart_append] at apart ⊢
      exact .bindSame (evalBase_alike calls use base paired apart.1) fun _ grows container =>
        .bindSame (evalKey_alike calls key ((paired.mono grows).holdingValue container) apart.2)
          fun _ _ key => .pure (.element container key)
  | .nullReference, _, _ => by
      simp only [evalPlace]
      exact .bind (newSlot_alike .null) fun _ _ _ _ pair => .pure (.detached pair)
  | .list places, paired, apart => by
      simp only [evalPlace, Place.written] at apart ⊢
      exact .bind (evalPlaces_alike calls use wanted places paired apart) fun _ _ _ _ each =>
        .pure (.list each)

theorem evalBase_alike (calls : CallsAlike user) {ρ : Pairing} {frame frame' : Frame}
    (use : Use) : (base : Base) → frame.Paired ρ frame' → Apart X base.written →
      ρ.Alike (X :: E) Same (evalBase user frame use base) (evalBase user frame' use base)
  | .value e, paired, apart => by
      simp only [evalBase, Base.written] at apart ⊢
      exact evalExpr_alike calls e paired apart
  | .implied p, paired, apart => by
      simp only [evalBase, Base.written] at apart ⊢
      exact .bind (evalPlace_alike calls use .write p paired apart) fun _ _ _ _ locations =>
        Location.imply_alike locations

theorem evalKey_alike (calls : CallsAlike user) {ρ : Pairing} {frame frame' : Frame} :
    (key : Option Expr) → frame.Paired ρ frame' → Apart X (Code.writtenInKey key) →
      ρ.Alike (X :: E) Same (evalKey user frame key) (evalKey user frame' key)
  | none, _, _ => by
      simp only [evalKey]
      exact .pure rfl
  | some e, paired, apart => by
      simp only [evalKey, Code.writtenInKey] at apart ⊢
      refine .bindSame (evalExpr_alike calls e paired apart) fun _ _ v => ?_
      split
      · exact .pure rfl
      · exact .fail _

theorem evalPlaces_alike (calls : CallsAlike user) {ρ : Pairing} {frame frame' : Frame}
    (use wanted : Use) : (places : List Place) → frame.Paired ρ frame' →
      Apart X (Code.writtenInPlaces wanted places) →
      ρ.Alike (X :: E) (fun ρ l l' => Location.AllPaired ρ X wanted l l')
        (evalPlaces user frame use places) (evalPlaces user frame' use places)
  | [], _, _ => by
      simp only [evalPlaces]
      exact .pure .nil
  | p :: rest, paired, apart => by
      simp only [evalPlaces, Code.writtenInPlaces, apart_append] at apart ⊢
      exact .bind (evalPlace_alike calls use wanted p paired apart.1) fun _ grows _ _ first =>
        .bind (evalPlaces_alike calls use wanted rest
          ((paired.mono grows).holding first.handles) apart.2)
          fun _ grows' _ _ later => .pure (.cons (first.mono grows') later)
end

end TreeScript
