import TreeScript.Proofs.Compile.Accepted
import TreeScript.Proofs.Compile.Blocks

set_option autoImplicit false

/- Chains associate to the left. A chain of steps compiles as the chain of its later steps does over
the chain of its earlier ones: to the same fragment, with the same locals, or with the same error.
The steps go through one function each, which takes a list of steps part by part; what is left is
that the two parts agree on what may stand between them. -/
namespace TreeScript.Compile

open Code (Expr Place Base)

/-- What follows a part of the compiler matters only on the results that the part can have. -/
theorem Grants.bind_congr {α β : Type} {Q : α → Prop} {m : CompileM α} {next next' : α → CompileM β}
    (grants : Grants Q m) (same : ∀ a, Q a → next a = next' a) : m >>= next = m >>= next' := by
  funext c
  have steps : ∀ next : α → CompileM β, (m >>= next) c = (m c >>= fun (a, c') => next a c') :=
    fun _ => rfl
  rw [steps, steps]
  cases ran : m c with
  | error e => rfl
  | ok result =>
      obtain ⟨a, c'⟩ := result
      exact congrFun (same a (grants.holds ran)) c'

/-! Indices and properties -/

/-- The container in which the later keys are looked up is what the earlier keys lead to. -/
theorem targetPlace_append (base : Base) {first second : List (Option Expr)} (some₁ : first ≠ [])
    (some₂ : second ≠ []) :
    targetPlace base (first ++ second) =
      (targetPlace base first).bind fun p => targetPlace (.implied p) second := by
  fun_induction targetPlace base first with
  | case1 => exact absurd rfl some₁
  | case2 base key =>
      cases second with
      | nil => exact absurd rfl some₂
      | cons next others => rfl
  | case3 base key rest more ih =>
      cases rest with
      | nil => exact absurd rfl more
      | cons next others => exact ih (List.cons_ne_nil _ _)

theorem readPlace_append (container : Expr) {first second : List (Option Expr)}
    (some₁ : first ≠ []) (some₂ : second ≠ []) :
    readPlace container (first ++ second) =
      (readPlace container first).bind fun p => readPlace (.load p) second := by
  fun_induction readPlace container first with
  | case1 => exact absurd rfl some₁
  | case2 container key =>
      cases second with
      | nil => exact absurd rfl some₂
      | cons next others => rfl
  | case3 container key rest more ih =>
      cases rest with
      | nil => exact absurd rfl more
      | cons next others => exact ih (List.cons_ne_nil _ _)

theorem accessFragment_target {base : Fragment} {keys : List (Option Expr)} {p : Place}
    (kind : Kind) (found : targetPlace base.toBase keys = some p) :
    accessFragment .target kind base keys = pure (.place p) := by
  simp only [accessFragment, found, Fragment.ofPlace]

theorem accessFragment_read {mode : Mode} {base : Fragment} {keys : List (Option Expr)} {p : Place}
    (kind : Kind) (reads : mode ≠ .target) (found : readPlace base.toExpr keys = some p) :
    accessFragment mode kind base keys = pure (.ofPlace mode p) := by
  cases mode with
  | target => exact absurd rfl reads
  | value | location => simp only [accessFragment, found]

/-- With a key there is no error that would tell the kind of the access. -/
theorem accessFragment_kind (mode : Mode) (kind kind' : Kind) (base : Fragment)
    {keys : List (Option Expr)} (some₁ : keys ≠ []) :
    accessFragment mode kind base keys = accessFragment mode kind' base keys := by
  cases mode with
  | target =>
      obtain ⟨p, found⟩ := Option.isSome_iff_exists.mp (targetPlace_isSome base.toBase some₁)
      rw [accessFragment_target kind found, accessFragment_target kind' found]
  | value | location =>
      obtain ⟨p, found⟩ := Option.isSome_iff_exists.mp (readPlace_isSome base.toExpr some₁)
      rw [accessFragment_read kind Mode.noConfusion found,
        accessFragment_read kind' Mode.noConfusion found]

/-- The access by some keys has a fragment, and that is the base of the access by further keys. -/
theorem accessFragment_append (mode : Mode) (kind kind' : Kind) (base : Fragment)
    {first : List (Option Expr)} (some₁ : first ≠ []) :
    ∃ inner, accessFragment (baseMode mode) kind' base first = pure inner ∧
      ∀ second, second ≠ [] →
        accessFragment mode kind base (first ++ second) =
          accessFragment mode kind inner second := by
  cases mode with
  | target =>
      obtain ⟨p, found⟩ := Option.isSome_iff_exists.mp (targetPlace_isSome base.toBase some₁)
      refine ⟨.place p, accessFragment_target kind' found, fun second some₂ => ?_⟩
      have whole := targetPlace_append base.toBase some₁ some₂
      rw [found, Option.bind_some] at whole
      simp only [accessFragment, whole]
      rfl
  | value | location =>
      obtain ⟨p, found⟩ := Option.isSome_iff_exists.mp (readPlace_isSome base.toExpr some₁)
      refine ⟨_, accessFragment_read kind' Mode.noConfusion found, fun second some₂ => ?_⟩
      have whole := readPlace_append base.toExpr some₁ some₂
      rw [found, Option.bind_some] at whole
      simp only [accessFragment, whole]
      rfl

/-- Before later steps an empty step is as legal as at the end of a base. -/
theorem allowsEmptyKey_append {α β : Type} (mode : Mode) (rest : List α) {second : List α}
    (some₂ : second ≠ []) (rest' : List β) :
    allowsEmptyKey mode (rest ++ second) = allowsEmptyKey (baseMode mode) rest' := by
  cases mode with
  | target => rfl
  | value => rfl
  | location => simp [allowsEmptyKey, baseMode, some₂]

theorem indexKeys_append (mode : Mode) (first : List (Option Node)) {second : List (Option Node)}
    (some₂ : second ≠ []) :
    indexKeys mode (first ++ second) = (do
      let keys ← indexKeys (baseMode mode) first
      let more ← indexKeys mode second
      pure (keys ++ more)) := by
  induction first with
  | nil => simp [indexKeys]
  | cons index rest ih =>
      cases index with
      | none =>
          simp only [List.cons_append, indexKeys, ih, allowsEmptyKey_append mode rest some₂ rest,
            bind_assoc, pure_bind]
      | some key => simp only [List.cons_append, indexKeys, ih, bind_assoc, pure_bind]

theorem propertyKeys_append (first second : List Node) :
    propertyKeys (first ++ second) = (do
      let keys ← propertyKeys first
      let more ← propertyKeys second
      pure (keys ++ more)) := by
  induction first with
  | nil => simp [propertyKeys]
  | cons key rest ih => simp only [List.cons_append, propertyKeys, ih, bind_assoc, pure_bind]

/-- The names of properties are compiled as the keys of indices are. -/
theorem indexKeys_map_some (mode : Mode) (properties : List Node) :
    indexKeys mode (properties.map some) = propertyKeys properties := by
  induction properties with
  | nil => rfl
  | cons key rest ih => simp only [List.map_cons, indexKeys, propertyKeys, ih]

theorem indexKeys_ne_nil (mode : Mode) {indices : List (Option Node)} (some₁ : indices ≠ []) :
    Grants (· ≠ []) (indexKeys mode indices) := by
  cases indices with
  | nil => exact absurd rfl some₁
  | cons index rest =>
      have more : ∀ key : Option Expr, Grants (· ≠ []) (do
          let keys ← indexKeys mode rest
          pure (key :: keys)) :=
        fun key => (anything_granted _).bind fun _ _ => .pure (List.cons_ne_nil _ _)
      cases index with
      | none =>
          rw [indexKeys]
          exact (anything_granted _).bind fun _ _ => more none
      | some key =>
          rw [indexKeys]
          exact (anything_granted _).bind fun e _ => more (some e)

theorem propertyKeys_ne_nil {properties : List Node} (some₁ : properties ≠ []) :
    Grants (· ≠ []) (propertyKeys properties) := by
  rw [← indexKeys_map_some .value]
  exact indexKeys_ne_nil .value (by simpa using some₁)

/-- The later keys do not wait for the access by the earlier ones, which is complete by then. -/
theorem access_in_turn (mode : Mode) (kind kind' : Kind) (base : Fragment)
    {keys keys' : CompileM (List (Option Expr))} (some₁ : Grants (· ≠ []) keys)
    (some₂ : Grants (· ≠ []) keys') :
    (do
      let first ← keys
      let inner ← accessFragment (baseMode mode) kind' base first
      let second ← keys'
      accessFragment mode kind inner second) = (do
        let first ← keys
        let second ← keys'
        accessFragment mode kind base (first ++ second)) := by
  refine some₁.bind_congr fun first here => ?_
  obtain ⟨inner, isInner, whole⟩ := accessFragment_append mode kind kind' base here
  rw [isInner, pure_bind]
  refine some₂.bind_congr fun second there => ?_
  exact (whole second there).symm

theorem baseMode_baseMode (mode : Mode) : baseMode (baseMode mode) = baseMode mode := by
  cases mode <;> rfl

/-- An access with its keys compiled by `keys`, whether they are indices or properties. -/
def accessBy (mode : Mode) (kind : Kind) (base : Node) (keys : CompileM (List (Option Expr))) :
    CompileM Fragment := do
  let base ← fragment (baseMode mode) base
  let keys ← keys
  accessFragment mode kind base keys

theorem fragment_arrayIndex (mode : Mode) (base : Node) {indices : List (Option Node)}
    (some₁ : indices ≠ []) (reference : Bool) :
    fragment mode (.arrayIndex base indices reference) =
      accessBy mode .arrayIndex base (indexKeys mode indices) := by
  cases indices with
  | nil => exact absurd rfl some₁
  | cons index rest =>
      rw [fragment]
      exact pure_bind _ _

theorem fragment_objectProperty (mode : Mode) (base : Node) {properties : List Node}
    (some₁ : properties ≠ []) (reference : Bool) :
    fragment mode (.objectProperty base properties reference) =
      accessBy mode .objectProperty base (propertyKeys properties) := by
  cases properties with
  | nil => exact absurd rfl some₁
  | cons key rest =>
      rw [fragment]
      exact pure_bind _ _

/-- Where the base of an access is an access itself, it is one access by the keys of both. -/
theorem accessBy_access {mode : Mode} {kind kind' : Kind} {base inner : Node}
    {keys keys' : CompileM (List (Option Expr))} (some₁ : Grants (· ≠ []) keys)
    (some₂ : Grants (· ≠ []) keys')
    (isInner : fragment (baseMode mode) inner = accessBy (baseMode mode) kind' base keys) :
    accessBy mode kind inner keys' = accessBy mode kind base (do
      let first ← keys
      let second ← keys'
      pure (first ++ second)) := by
  simp only [accessBy, isInner, baseMode_baseMode, bind_assoc, pure_bind]
  refine bind_congr fun base => ?_
  exact access_in_turn mode kind kind' base some₁ some₂

theorem accessBy_kind {mode : Mode} {base : Node} {keys : CompileM (List (Option Expr))}
    (kind kind' : Kind) (some₁ : Grants (· ≠ []) keys) :
    accessBy mode kind base keys = accessBy mode kind' base keys := by
  refine bind_congr fun base => ?_
  exact some₁.bind_congr fun keys here => accessFragment_kind mode kind kind' base here

/-- Two nodes compile alike in every context, whatever they are wanted for: to the same fragment,
with the same locals, or with the same error. -/
def CompileAlike (n n' : Node) : Prop := ∀ mode, fragment mode n = fragment mode n'

theorem arrayIndex_append (base : Node) {first second : List (Option Node)} (some₁ : first ≠ [])
    (some₂ : second ≠ []) (whole inner outer : Bool) :
    CompileAlike (.arrayIndex base (first ++ second) whole)
      (.arrayIndex (.arrayIndex base first inner) second outer) := by
  intro mode
  have keyed₁ : Grants (· ≠ []) (indexKeys (baseMode mode) first) := indexKeys_ne_nil _ some₁
  have keyed₂ : Grants (· ≠ []) (indexKeys mode second) := indexKeys_ne_nil _ some₂
  rw [fragment_arrayIndex mode base (List.append_ne_nil_of_right_ne_nil first some₂) whole,
    fragment_arrayIndex mode _ some₂ outer, indexKeys_append mode first some₂]
  exact (accessBy_access keyed₁ keyed₂ (fragment_arrayIndex _ base some₁ inner)).symm

theorem objectProperty_append (base : Node) {first second : List Node} (some₁ : first ≠ [])
    (some₂ : second ≠ []) (whole inner outer : Bool) :
    CompileAlike (.objectProperty base (first ++ second) whole)
      (.objectProperty (.objectProperty base first inner) second outer) := by
  intro mode
  rw [fragment_objectProperty mode base (List.append_ne_nil_of_right_ne_nil first some₂) whole,
    fragment_objectProperty mode _ some₂ outer, propertyKeys_append]
  exact (accessBy_access (propertyKeys_ne_nil some₁) (propertyKeys_ne_nil some₂)
    (fragment_objectProperty _ base some₁ inner)).symm

/-- Indices and the properties after them are the keys of one chain. -/
theorem arrayIndex_objectProperty (base : Node) {indices : List (Option Node)}
    {properties : List Node} (some₁ : indices ≠ []) (some₂ : properties ≠ [])
    (whole inner outer : Bool) :
    CompileAlike (.arrayIndex base (indices ++ properties.map some) whole)
      (.objectProperty (.arrayIndex base indices inner) properties outer) := by
  intro mode
  have mapped : properties.map some ≠ [] := by simpa using some₂
  have keyed₁ : Grants (· ≠ []) (indexKeys (baseMode mode) indices) := indexKeys_ne_nil _ some₁
  have keyed₂ : Grants (· ≠ []) (propertyKeys properties) := propertyKeys_ne_nil some₂
  rw [fragment_objectProperty mode _ some₂ outer, accessBy_kind .objectProperty .arrayIndex keyed₂,
    accessBy_access keyed₁ keyed₂ (fragment_arrayIndex _ base some₁ inner),
    fragment_arrayIndex mode base (List.append_ne_nil_of_right_ne_nil indices mapped) whole,
    indexKeys_append mode indices mapped, indexKeys_map_some]

/-! Method calls and choices -/

theorem methodCalls_append (object : Expr) (first second : List (Call Node)) :
    methodCalls object (first ++ second) =
      methodCalls object first >>= fun object => methodCalls object second := by
  induction first generalizing object with
  | nil => simp only [List.nil_append, methodCalls, pure_bind]
  | cons call rest ih => simp only [List.cons_append, methodCalls, ih, bind_assoc]

theorem choices_append (condition : Expr) (first second : List (Choice Node)) :
    choices condition (first ++ second) =
      choices condition first >>= fun condition => choices condition second := by
  induction first generalizing condition with
  | nil => simp only [List.nil_append, choices, pure_bind]
  | cons option rest ih => simp only [List.cons_append, choices, ih, bind_assoc]

theorem methodCall_append (object : Node) (first second : List (Call Node)) :
    CompileAlike (.methodCall object (first ++ second))
      (.methodCall (.methodCall object first) second) := by
  intro mode
  simp only [fragment, methodCalls_append, asValue, bind_assoc, pure_bind, Fragment.toExpr]

theorem ternary_append (condition : Node) (first second : List (Choice Node)) :
    CompileAlike (.ternary condition (first ++ second))
      (.ternary (.ternary condition first) second) := by
  intro mode
  simp only [fragment, choices_append, asValue, bind_assoc, pure_bind, Fragment.toExpr]

/-! Operators -/

/-- A chain applies its first operation and goes on with the result. -/
theorem operations_cons (assigns : Bool) (result : Fragment) (op : Operation Node)
    (rest : List (Operation Node)) :
    operations assigns result (op :: rest) =
      operations assigns result [op] >>= fun result => operations assigns result rest := by
  obtain ⟨token, operand⟩ := op
  rw [operations.eq_def assigns result (_ :: rest), operations.eq_def assigns result [_]]
  simp only [operations.eq_def assigns _ []]
  cases BinaryToken.ofSymbol token with
  | none => rfl
  | some token =>
      cases token with
      | operator o => simp only [bind_assoc, pure_bind]
      | assign =>
          cases result with
          | value e => rfl
          | place target =>
              simp only
              split <;> simp only [bind_assoc, pure_bind]

theorem operations_append (assigns : Bool) (result : Fragment)
    (first second : List (Operation Node)) :
    operations assigns result (first ++ second) =
      operations assigns result first >>= fun result => operations assigns result second := by
  induction first generalizing result with
  | nil => simp only [List.nil_append, operations, pure_bind]
  | cons op rest ih =>
      rw [List.cons_append, operations_cons, operations_cons assigns result op rest]
      simp only [ih, bind_assoc]

/-- Once the result is a value an assignment fails, so that it no longer matters whether the chain
opened with one. -/
theorem operations_value (assigns assigns' : Bool) (e : Expr) (ops : List (Operation Node)) :
    operations assigns (.value e) ops = operations assigns' (.value e) ops := by
  induction ops generalizing e with
  | nil => simp only [operations]
  | cons op rest ih =>
      unfold operations
      cases BinaryToken.ofSymbol op.operator with
      | none => rfl
      | some token =>
          cases token with
          | operator o => simp only [ih]
          | assign => rfl

/-- Every operation leaves a value. -/
theorem operations_isValue (assigns : Bool) (result : Fragment) {ops : List (Operation Node)}
    (some₁ : ops ≠ []) : Grants (fun f => ∃ e, f = .value e) (operations assigns result ops) := by
  have later : ∀ (e : Expr) (ops : List (Operation Node)),
      Grants (fun f => ∃ e, f = .value e) (operations assigns (.value e) ops) :=
    fun e ops => (operations_yields assigns e ops).toGrants.imp fun _ => And.left
  cases ops with
  | nil => exact absurd rfl some₁
  | cons op rest =>
      unfold operations
      split
      · exact .throw _
      · exact (anything_granted _).bind fun _ _ => later _ rest
      · split
        · exact .throw _
        · split
          · exact (anything_granted _).bind fun _ _ => later _ rest
          · exact (anything_granted _).bind fun _ _ => later _ rest

theorem fragment_expression_isValue (mode : Mode) (left : Node) {ops : List (Operation Node)}
    (some₁ : ops ≠ []) :
    Grants (fun f => ∃ e, f = .value e) (fragment mode (.expression left ops)) := by
  cases ops with
  | nil => exact absurd rfl some₁
  | cons op rest =>
      rw [fragment]
      split
      · exact (anything_granted _).bind fun _ _ => operations_isValue _ _ some₁
      · exact (anything_granted _).bind fun _ _ => operations_isValue _ _ some₁

/-- The operations of a chain in two parts; the second part finds a value. -/
theorem fragment_expression_append (mode mode' : Mode) (left : Node)
    {first : List (Operation Node)} (some₁ : first ≠ []) (second : List (Operation Node)) :
    fragment mode (.expression left (first ++ second)) =
      fragment mode' (.expression left first) >>= fun result => operations false result second := by
  have later : ∀ (assigns : Bool) (result : Fragment),
      (operations assigns result first >>= fun result => operations assigns result second) =
        operations assigns result first >>= fun result => operations false result second := by
    intro assigns result
    refine (operations_isValue assigns result some₁).bind_congr ?_
    rintro _ ⟨e, rfl⟩
    exact operations_value assigns false e second
  cases first with
  | nil => exact absurd rfl some₁
  | cons op rest =>
      rw [List.cons_append, fragment, fragment, ← List.cons_append]
      split
      · simp only [operations_append, later, bind_assoc]
      · simp only [operations_append, later, bind_assoc]

/-- An assignment to a chain of operations fails as one after them does. -/
theorem expression_append (left : Node) {first second : List (Operation Node)}
    (some₁ : first ≠ []) (some₂ : second ≠ []) :
    CompileAlike (.expression left (first ++ second))
      (.expression (.expression left first) second) := by
  intro mode
  cases second with
  | nil => exact absurd rfl some₂
  | cons op rest =>
      rw [fragment.eq_def mode (.expression (.expression left first) _)]
      simp only
      split
      · next assigns =>
          rw [fragment_expression_append mode .target left some₁, asPlace, bind_assoc]
          refine (fragment_expression_isValue .target left some₁).bind_congr ?_
          rintro _ ⟨e, rfl⟩
          obtain ⟨operator, operand⟩ := op
          obtain rfl : operator = "=" := by simpa using assigns
          unfold operations
          simp only [ofSymbol_eq_assign.mpr rfl]
          rfl
      · rw [fragment_expression_append mode .value left some₁, asValue, bind_assoc]
        refine (fragment_expression_isValue .value left some₁).bind_congr ?_
        rintro _ ⟨e, rfl⟩
        rw [pure_bind]
        rfl

/-- Chains of indices, of properties, of method calls, of choices and of operators may be cut
between any two steps: they compile, in every context and whatever they are wanted for, as the chain
of the later steps over the chain of the earlier ones. Indices followed by properties compile as one
chain of all these keys. -/
theorem chains_left_associative :
    (∀ (base : Node) (first second : List (Option Node)) (whole inner outer : Bool),
      first ≠ [] → second ≠ [] → CompileAlike (.arrayIndex base (first ++ second) whole)
        (.arrayIndex (.arrayIndex base first inner) second outer)) ∧
    (∀ (base : Node) (first second : List Node) (whole inner outer : Bool),
      first ≠ [] → second ≠ [] → CompileAlike (.objectProperty base (first ++ second) whole)
        (.objectProperty (.objectProperty base first inner) second outer)) ∧
    (∀ (object : Node) (first second : List (Call Node)),
      CompileAlike (.methodCall object (first ++ second))
        (.methodCall (.methodCall object first) second)) ∧
    (∀ (condition : Node) (first second : List (Choice Node)),
      CompileAlike (.ternary condition (first ++ second))
        (.ternary (.ternary condition first) second)) ∧
    (∀ (left : Node) (first second : List (Operation Node)),
      first ≠ [] → second ≠ [] → CompileAlike (.expression left (first ++ second))
        (.expression (.expression left first) second)) ∧
    ∀ (base : Node) (indices : List (Option Node)) (properties : List Node)
      (whole inner outer : Bool), indices ≠ [] → properties ≠ [] →
      CompileAlike (.arrayIndex base (indices ++ properties.map some) whole)
        (.objectProperty (.arrayIndex base indices inner) properties outer) :=
  ⟨fun base _ _ whole inner outer some₁ some₂ =>
      arrayIndex_append base some₁ some₂ whole inner outer,
    fun base _ _ whole inner outer some₁ some₂ =>
      objectProperty_append base some₁ some₂ whole inner outer,
    methodCall_append, ternary_append,
    fun left _ _ some₁ some₂ => expression_append left some₁ some₂,
    fun base _ _ whole inner outer some₁ some₂ =>
      arrayIndex_objectProperty base some₁ some₂ whole inner outer⟩

/-- `$a[][f()]->p = &$b + 1`, whose target and whose operations are cut in two. -/
theorem chains_left_associative_assignment :
    let call : Node := .functionCall (.string "f") []
    let target : Node := .arrayIndex (.variable "a" false) [none, some call] false
    let steps : List (Operation Node) := [⟨"=", .variable "b" true⟩]
    let rest : List (Operation Node) := [⟨"+", .integer 1⟩]
    let whole : Node := .arrayIndex (.variable "a" false) ([none, some call] ++ [.string "p"].map some)
      false
    CompileAlike whole (.objectProperty target [.string "p"] false) ∧
      CompileAlike (.expression whole (steps ++ rest)) (.expression (.expression whole steps) rest) ∧
      ∃ e, valueOf (.expression whole (steps ++ rest)) ⟨[], 0⟩ = .ok (e, ⟨["a", "b"], 0⟩) := by
  intro call target steps rest whole
  obtain ⟨-, -, -, -, operators, mixed⟩ := chains_left_associative
  have cut := mixed (.variable "a" false) [none, some call] [.string "p"] false false false
    (by simp) (by simp)
  exact ⟨cut, operators whole steps rest (by simp [steps]) (by simp [rest]), _, rfl⟩

end TreeScript.Compile
