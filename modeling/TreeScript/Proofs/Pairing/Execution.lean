import TreeScript.Proofs.Loops.Simulation
import TreeScript.Proofs.Pairing.Evaluation

set_option autoImplicit false

/- Statements, blocks and calls run alike on paired machines. Loops keep their state to themselves
here, so that nothing depends on their numbers. -/
namespace TreeScript

open Code (Expr Place Stmt Block Function ClassDefinition)
open Compile (OwnLocals Covered AllCovered)

variable {ρ ρ₁ : Pairing} {X : Lead} {E : List Lead} {H H' : List Handle}
variable {user : UserCall} {frame frame' : Frame}

/-! Declarations -/

theorem evalDefaults_alike (calls : CallsAlike user) (paired : frame.Paired ρ frame')
    (properties : List (String × Expr)) (apart : Apart X (Code.writtenInDefaults properties)) :
    ρ.Alike (X :: E) Same (evalDefaults user frame properties)
      (evalDefaults user frame' properties) := by
  induction properties generalizing ρ frame frame' with
  | nil => exact .pure rfl
  | cons property rest ih =>
      simp only [Code.writtenInDefaults, apart_append] at apart
      exact .bindSame (evalExpr_alike calls property.2 paired apart.1) fun _ grows v =>
        .bindSame (ih ((paired.mono grows).holdingValue v) apart.2) fun _ _ _ => .pure rfl

theorem newClass_alike {data : ClassData}
    (own : ∀ name f, (name, Callable.user f) ∈ data.methods → OwnLocals f) :
    ρ.Alike E Same (Run.update (·.newClass data)) (Run.update (·.newClass data)) := by
  intro m m' paired
  obtain ⟨same, stores⟩ := paired.store.newClass data
  have owned : Session.LeavesOwn [] m.names (m.store.newClass data).2 := by
    refine ⟨paired.own.functions, fun other member => ?_⟩
    rcases Array.mem_push.mp member with old | rfl
    · exact paired.own.methods other old
    · exact own
  exact .ok (le_refl _) { paired with store := stores, own := owned } same

theorem defineClass_alike (calls : CallsAlike user) (paired : frame.Paired ρ frame')
    (definition : ClassDefinition Stmt) (named : Apart X definition.name.written)
    (defaults : Apart X (Code.writtenInDefaults definition.properties))
    (methods : ∀ method ∈ definition.methods, OwnLocals method.2) :
    ρ.Alike (X :: E) Same (defineClass user frame definition)
      (defineClass user frame' definition) := by
  refine .bindSame (evalExpr_alike calls definition.name paired named) fun ρ₁ grows name =>
    .bindSame (.inspect fun stores => stores.toText name) fun ρ₂ grows' name =>
      .bindSame (evalDefaults_alike calls (paired.mono (grows.trans grows')) _ defaults)
        fun ρ₃ _ values => .bindSame (newClass_alike fun key f member => ?_) fun ρ₄ _ c => ?_
  · rcases (Discipline.defineMethods_spec definition.methods ⟨name, values, []⟩).2 _ member with
      none | ⟨method, there, isMethod⟩
    · exact absurd none List.not_mem_nil
    · exact Callable.user.inj isMethod ▸ methods method there
  · exact .change fun paired => { paired with
      names := congrArg (·.defineClass name c) paired.names
      own := ⟨paired.own.functions, paired.own.methods⟩ }

theorem defineFunction_alike (f : Function Stmt) (own : OwnLocals f) :
    ρ.Alike E Same
      (modify fun m => { m with names := m.names.defineFunction f.name (.user f) } : Run Unit)
      (modify fun m => { m with names := m.names.defineFunction f.name (.user f) }) := by
  refine .change fun {m m'} paired => { paired with
    names := congrArg (·.defineFunction f.name (.user f)) paired.names
    own := ⟨fun key g member => ?_, paired.own.methods⟩ }
  rcases Assoc.mem_set member with old | isNew
  · exact paired.own.functions key g old
  · exact Callable.user.inj isNew ▸ own

/-! Loops -/

theorem assignKey_alike (calls : CallsAlike user) (paired : frame.Paired ρ frame') (key : Key)
    (place : Option Place) (apart : Apart X (Code.writtenInPlace? place)) :
    ρ.Alike (X :: E) Same (assignKey user frame key place) (assignKey user frame' key place) := by
  cases place with
  | none => exact .pure rfl
  | some place =>
      exact .bind (evalPlace_alike calls .write .write place paired apart)
        fun _ grows _ _ locations => .bindSame
          (Location.set_alike (paired.mono grows).held key.toValue locations) fun _ _ _ => .pure rfl

theorem walkedArray_alike (held : ρ.Handles H H') (byReference : Bool) (source : ArrayId) :
    ρ.Alike E Same (walkedArray H byReference source) (walkedArray H' byReference source) := by
  cases byReference with
  | true => exact .pure rfl
  | false => exact copyValue_alike held _

theorem takeElement_alike (held : ρ.Handles H H') (byReference : Bool) {l l' : Location}
    (locations : l.Paired ρ X .write l') {s s' : SlotId} (pair : ρ.pairs s s') :
    ρ.Alike (X :: E) Same (takeElement H byReference l s) (takeElement H' byReference l' s') := by
  cases byReference with
  | true => exact Location.bind_alike locations pair
  | false =>
      exact .bindSame (read_alike pair) fun _ grows v =>
        Location.set_alike (held.mono grows) v (locations.mono grows)

/-- The same key, with slots that correspond. -/
def SameEntry (ρ : Pairing) (entry entry' : Key × SlotId) : Prop :=
  entry.1 = entry'.1 ∧ ρ.pairs entry.2 entry'.2

theorem element_alike (loop : Loop) :
    ρ.Alike E (fun ρ => Option.Rel (SameEntry ρ)) (Own.element loop) (Own.element loop) := by
  refine .bind (array_alike loop.array) fun ρ₁ _ data data' paired => ?_
  have found := paired.elements.getElem? loop.position
  simp only [ArrayData.entryAt?]
  generalize data.elements[loop.position]? = here at found ⊢
  generalize data'.elements[loop.position]? = there at found ⊢
  cases found with
  | none => exact .pure .none
  | some same =>
      have advanced : ρ₁.Alike E Same (Run.alter (·.setArray loop.array data.advance))
          (Run.alter (·.setArray loop.array data'.advance)) :=
        .alter (fun stores => ⟨ρ₁, le_refl _, stores.setArray _ paired.advance⟩) fun _ => rfl
      exact .bindSame advanced fun _ grows _ => .pure (.some ⟨same.1, grows.kept same.2⟩)

/-- The rounds that are left of a loop, of which each is alike. -/
theorem walk_alike {body body' : Key → SlotId → Run Flow}
    (each : ∀ {ρ₁ key s s'}, ρ ≤ ρ₁ → ρ₁.pairs s s' →
      ρ₁.Alike E Same (body key s) (body' key s'))
    (loop : Loop) : ρ.Alike E Same (Own.walk body loop) (Own.walk body' loop) := by
  induction left : loop.length - loop.position generalizing ρ loop with
  | zero =>
      rw [Own.walk.eq_def body, Own.walk.eq_def body', if_pos (by omega), if_pos (by omega)]
      exact .pure rfl
  | succ rounds ih =>
      rw [Own.walk.eq_def body, Own.walk.eq_def body', if_neg (by omega), if_neg (by omega)]
      refine .bind (element_alike loop) fun ρ₁ grows entry entry' same => ?_
      cases same with
      | none => exact .pure rfl
      | @some entry entry' same =>
          obtain ⟨key, s⟩ := entry
          obtain ⟨key', s'⟩ := entry'
          obtain ⟨rfl, pair⟩ := same
          refine .bindSame (each grows pair) fun ρ₂ grows' flow => ?_
          cases flow with
          | returned v => exact .pure rfl
          | normal =>
              exact ih (fun later => each ((grows.trans grows').trans later)) loop.next
                (by simp only [Loop.next]; omega)

/-! Statements -/

/-- A block runs alike where each of its statements does. -/
theorem execBlock_alike {block : Block} (paired : frame.Paired ρ frame')
    (each : ∀ s ∈ block, ∀ {ρ₁ : Pairing}, frame.Paired ρ₁ frame' →
      ρ₁.Alike E Same (Own.execStmt user frame s) (Own.execStmt user frame' s)) :
    ρ.Alike E Same (Own.execBlock user frame block) (Own.execBlock user frame' block) := by
  induction block generalizing ρ with
  | nil =>
      rw [Own.execBlock, Own.execBlock]
      exact .pure rfl
  | cons s rest ih =>
      obtain ⟨first, later⟩ := List.forall_mem_cons.mp each
      rw [Own.execBlock, Own.execBlock]
      refine .bindSame (first paired) fun ρ₁ grows flow => ?_
      cases flow with
      | normal => exact ih (paired.mono grows) later
      | returned v => exact .pure rfl

theorem apart_of_subset {names written : List String} (apart : Apart X names)
    (inside : written ⊆ names) : Apart X written := fun name member => apart name (inside member)

theorem echo_alike (calls : CallsAlike user) (paired : frame.Paired ρ frame') (e : Expr)
    (apart : Apart X e.written) :
    ρ.Alike (X :: E) Same (execStmt user frame (.echo e)) (execStmt user frame' (.echo e)) := by
  simp only [execStmt]
  exact .bindSame (evalExpr_alike calls e paired apart) fun _ _ v =>
    .bindSame (.inspect fun stores => stores.toText v) fun _ _ text =>
      .bindSame (.write text) fun _ _ _ => .pure rfl

theorem ret_alike (calls : CallsAlike user) (paired : frame.Paired ρ frame') (e : Option Expr)
    (apart : Apart X (Code.writtenInKey e)) :
    ρ.Alike (X :: E) Same (execStmt user frame (.ret e)) (execStmt user frame' (.ret e)) := by
  have given : ρ.Alike (X :: E) Same (returnValue user frame e) (returnValue user frame' e) := by
    cases e with
    | none => exact .pure rfl
    | some e => exact evalExpr_alike calls e paired apart
  simp only [execStmt]
  exact .bindSame given fun _ grows v =>
    .bindSame (copyValue_alike (paired.mono grows).held v) fun _ _ _ => .pure rfl

/-- One round of a loop, given its body. -/
theorem round_alike (calls : CallsAlike user) (paired : frame.Paired ρ frame') {body : Block}
    {place : Option Place} {value : Place} (byReference : Bool)
    (keyed : Apart X (Code.writtenInPlace? place)) (valued : Apart X (value.written .write))
    (runs : ∀ {ρ₁ : Pairing} {frame frame' : Frame}, frame.Paired ρ₁ frame' →
      ρ₁.Alike (X :: E) Same (Own.execBlock user frame body) (Own.execBlock user frame' body))
    (key : Key) {s s' : SlotId} (pair : ρ.pairs s s') :
    ρ.Alike (X :: E) Same
      (do
        assignKey user (frame.holding [.slot s]) key place
        let l ← evalPlace user (frame.holding [.slot s]) .write value
        let _ ← takeElement (frame.holding [.slot s]).held byReference l s
        Own.execBlock user
          ((if byReference then frame else frame.holding [.slot s]).holding l.handles) body)
      (do
        assignKey user (frame'.holding [.slot s']) key place
        let l ← evalPlace user (frame'.holding [.slot s']) .write value
        let _ ← takeElement (frame'.holding [.slot s']).held byReference l s'
        Own.execBlock user
          ((if byReference then frame' else frame'.holding [.slot s']).holding l.handles) body) := by
  have inside := paired.holding (.cons (.slot pair) .nil)
  refine .bindSame (assignKey_alike calls inside key place keyed) fun ρ₁ grows _ =>
    .bind (evalPlace_alike calls .write .write value (inside.mono grows) valued)
      fun ρ₂ grows' l l' locations => ?_
  have grown := grows.trans grows'
  refine .bindSame (takeElement_alike (inside.mono grown).held byReference locations
    (grown.kept pair)) fun ρ₃ grows'' _ => runs ?_
  have held := (locations.mono grows'').handles
  cases byReference with
  | true => exact ((paired.mono grown).mono grows'').holding held
  | false => exact ((inside.mono grown).mono grows'').holding held

theorem foreach_alike (calls : CallsAlike user) (paired : frame.Paired ρ frame') (slot : Nat)
    {array : Expr} {place : Option Place} {value : Place} (byReference : Bool) {body : Block}
    (walked : Apart X array.written) (keyed : Apart X (Code.writtenInPlace? place))
    (valued : Apart X (value.written .write))
    (runs : ∀ {ρ₁ : Pairing} {frame frame' : Frame}, frame.Paired ρ₁ frame' →
      ρ₁.Alike (X :: E) Same (Own.execBlock user frame body) (Own.execBlock user frame' body)) :
    ρ.Alike (X :: E) Same
      (Own.execStmt user frame (.foreach slot array place value byReference body))
      (Own.execStmt user frame' (.foreach slot array place value byReference body)) := by
  rw [Own.execStmt, Own.execStmt]
  refine .bindSame (evalExpr_alike calls array paired walked) fun ρ₁ grows v => ?_
  cases v with
  | array source =>
      have reset : ρ₁.Alike (X :: E) Same
          (Run.alter fun st => st.setArray source (st.array source).reset)
          (Run.alter fun st => st.setArray source (st.array source).reset) :=
        .alter (fun stores => ⟨ρ₁, le_refl _, stores.setArray _ (stores.array _).reset⟩)
          fun _ => rfl
      refine .bindSame reset fun ρ₂ grows' _ => ?_
      have paired := paired.mono (grows.trans grows')
      refine .bindSame (walkedArray_alike paired.held byReference source) fun ρ₃ grows v => ?_
      cases v with
      | array a =>
          refine .bind (array_alike a) fun ρ₄ grows' data data' same => ?_
          rw [same.size]
          refine walk_alike (fun {ρ₅ key s s'} grows'' pair => ?_) _
          have paired := paired.mono ((grows.trans grows').trans grows'')
          exact round_alike calls (paired.holding (.cons (.array source) (.cons (.array a) .nil)))
            byReference keyed valued runs key pair
      | null | boolean b | integer n | float x | string text | object o => exact .pure rfl
  | null | boolean b | integer n | float x | string text | object o => exact .pure rfl

/-- Statements that write only to names which are not ahead. -/
theorem execStmt_alike (calls : CallsAlike user) {names : List String} (apart : Apart X names)
    {ρ : Pairing} {frame frame' : Frame} (paired : frame.Paired ρ frame') {s : Stmt} :
    Covered names s →
      ρ.Alike (X :: E) Same (Own.execStmt user frame s) (Own.execStmt user frame' s)
  | .echo written => by
      rw [Own.execStmt_flat user frame rfl, Own.execStmt_flat user frame' rfl]
      exact echo_alike calls paired _ (apart_of_subset apart written)
  | .inlineHtml html => by
      rw [Own.execStmt_flat user frame rfl, Own.execStmt_flat user frame' rfl]
      simp only [execStmt]
      exact .bindSame (.write html) fun _ _ _ => .pure rfl
  | .expression written => by
      rw [Own.execStmt_flat user frame rfl, Own.execStmt_flat user frame' rfl]
      simp only [execStmt]
      exact .bindSame (evalExpr_alike calls _ paired (apart_of_subset apart written))
        fun _ _ _ => .pure rfl
  | .ifElse written first second => by
      rw [Own.execStmt, Own.execStmt]
      refine .bindSame (evalExpr_alike calls _ paired (apart_of_subset apart written))
        fun ρ₁ grows v => .bindSame (.inspect fun stores => stores.toBoolean v)
          fun ρ₂ grows' chosen => ?_
      have paired := paired.mono (grows.trans grows')
      cases chosen with
      | true => exact execBlock_alike paired fun s member {_} paired =>
          execStmt_alike calls apart paired (first s member)
      | false => exact execBlock_alike paired fun s member {_} paired =>
          execStmt_alike calls apart paired (second s member)
  | .foreach slot byReference walked keyed valued each =>
      foreach_alike calls paired slot byReference (apart_of_subset apart walked)
        (apart_of_subset apart keyed) (apart_of_subset apart valued) fun {_ _ _} paired =>
          execBlock_alike paired fun s member {_} paired =>
            execStmt_alike calls apart paired (each s member)
  | .ret written => by
      rw [Own.execStmt_flat user frame rfl, Own.execStmt_flat user frame' rfl]
      exact ret_alike calls paired _ (apart_of_subset apart written)
  | .defineFunction own => by
      rw [Own.execStmt_flat user frame rfl, Own.execStmt_flat user frame' rfl]
      simp only [execStmt]
      exact .bindSame (defineFunction_alike _ own) fun _ _ _ => .pure rfl
  | .defineClass named defaults methods => by
      rw [Own.execStmt_flat user frame rfl, Own.execStmt_flat user frame' rfl]
      simp only [execStmt]
      exact .bindSame (defineClass_alike calls paired _ (apart_of_subset apart named)
        (apart_of_subset apart defaults) methods) fun _ _ _ => .pure rfl

/-! Calls -/

theorem prologue_alike (paired : frame.Paired ρ frame') {s : Stmt} (isPrologue : s.isPrologue) :
    ρ.Alike (.level :: E) Same (Own.execStmt user frame s) (Own.execStmt user frame' s) := by
  cases s with
  | defineVariables names =>
      rw [Own.execStmt_flat user frame rfl, Own.execStmt_flat user frame' rfl]
      simp only [execStmt]
      exact .bindSame (defineVariables_alike names) fun _ _ _ => .pure rfl
  | bindArgument name index =>
      rw [Own.execStmt_flat user frame rfl, Own.execStmt_flat user frame' rfl]
      simp only [execStmt, paired.arguments]
      exact .bindSame (bindVariable_alike paired.held name _) fun _ _ _ => .pure rfl
  | bindThis =>
      rw [Own.execStmt_flat user frame rfl, Own.execStmt_flat user frame' rfl]
      simp only [execStmt, paired.receiver]
      exact .bindSame (bindVariable_alike paired.held "this" _) fun _ _ _ => .pure rfl
  | echo _ | inlineHtml _ | expression _ | ifElse _ _ _ | «foreach» _ _ _ _ _ _ | ret _
  | defineFunction _ | defineClass _ | «scoped» _ => cases isPrologue

theorem body_alike (calls : CallsAlike user) (paired : frame.Paired ρ frame') {f : Function Stmt}
    (own : OwnLocals f) :
    ρ.Alike E Same (Own.execBlock user frame f.body) (Own.execBlock user frame' f.body) := by
  obtain @⟨statements, context, name, parameters, isMethod, covered⟩ := own
  obtain ⟨prologue, isBody, readies⟩ :=
    Compile.assembleFunction_body name parameters isMethod statements context
  rw [isBody]
  refine execBlock_alike paired fun s member {ρ₁} paired => ?_
  obtain rfl := List.mem_singleton.mp member
  rw [Own.execStmt, Own.execStmt]
  refine .inNewScope (execBlock_alike paired fun s member {ρ₂} paired => ?_)
  rcases List.mem_append.mp member with early | late
  · exact prologue_alike paired (readies s early)
  · exact execStmt_alike calls (fun _ _ => List.not_mem_nil) paired (covered s late)

theorem invoke_alike (levels : Nat) : CallsAlike (Own.invoke levels) := by
  induction levels with
  | zero =>
      intro ρ E frame frame' f _ _
      rw [Own.invoke, Own.invoke]
      refine .look fun m m' paired => ?_
      rw [paired.callLimit]
      exact .fail _
  | succ levels ih =>
      intro ρ E frame frame' f own paired
      rw [Own.invoke, Own.invoke]
      refine .inCall fun ρ₁ grows => .bindSame (body_alike ih (paired.mono grows) own)
        fun ρ₂ _ flow => ?_
      cases flow with
      | normal => exact .pure rfl
      | returned v => exact .pure rfl

end TreeScript
