import TreeScript.Proofs.Discipline.Operators

set_option autoImplicit false

/- Evaluation keeps every discipline, by induction on the code: expressions and places, then
statements and blocks, then calls by induction on the levels they may still nest. -/
namespace TreeScript.Discipline

open Code (Expr Place Base Entry Operand Stmt Function ClassDefinition)

variable {D : Discipline} {b i : D.Index} {e : Extent} {user : UserCall}

/-! Calls -/

theorem callWith_meets {c : Callable} {frame : Frame} (serves : D.Serves user)
    (known : D.KnownCall e frame) (callable : ∀ f, c = .user f → D.callable f) :
    D.Keeps i e D.Known (callWith user c frame) := by
  cases c with
  | user f => exact serves i e f frame (callable f rfl) known.knownFrame
  | builtin b => exact builtin_meets known.held known.receiver known.arguments b

theorem findFunction_meets (name : String) :
    D.Keeps i e (fun _ c => ∀ f, c = Callable.user f → D.callable f) (findFunction name) := by
  have found : D.Meets i i e (fun _ => i)
      (fun _ m => ∀ key f, (key, Callable.user f) ∈ m.names.functions → D.callable f) get :=
    meets_get fun m _ good _ _ member => D.functions good member
  apply found.bind
  intro _ _ m callable
  split
  · next c isNamed =>
      refine .pure fun _ _ f isUser => ?_
      subst isUser
      exact callable _ f (Assoc.mem_of_get? isNamed)
  · exact .fail _

theorem findClass_meets (name : String) :
    D.Keeps i e (fun e c => D.known e (.classData c)) (findClass name) := by
  have found : D.Meets i i e (fun _ => i)
      (fun e m => ∀ key c, (key, c) ∈ m.names.classes → D.known e (.classData c)) get :=
    meets_get fun m _ good _ _ member => D.classes good member
  apply found.bind
  intro _ _ m known
  split
  · next c isNamed =>
      have listed := known _ c (Assoc.mem_of_get? isNamed)
      exact .pure fun _ grows => D.known_mono grows listed
  · exact .fail _

/-- The methods of a class may be called. -/
def Callables (D : Discipline) (data : ClassData) : Prop :=
  ∀ name f, (name, Callable.user f) ∈ data.methods → D.callable f

theorem Callables.method {data : ClassData} {name : String} {c : Callable}
    (callables : D.Callables data) (found : data.method? name = some c) :
    ∀ f, c = .user f → D.callable f := by
  rintro f rfl
  exact callables _ f (Assoc.mem_of_get? found)

theorem callMethod_meets {object : Value} {frame : Frame} (serves : D.Serves user)
    (known : D.KnownCall e frame) (method : String) :
    D.Keeps i e D.Known (callMethod user object method frame) := by
  unfold callMethod
  split
  · next o =>
      have looked : D.Meets i i e (fun _ => i) (fun _ data => D.Callables data)
          (Run.inspect fun st => st.classData (st.object o).classId) :=
        meets_inspect fun _ _ good _ _ member => D.methods good member
      apply looked.bind
      intro e₁ grows data callables
      split
      · next found =>
          exact callWith_meets serves (known.mono grows) (callables.method found)
      · exact .fail _
  · exact .fail _

theorem newProperties_meets {pending : List Handle} (holds : D.Holds e pending)
    (defaults : List (String × Value)) (sources : ∀ entry ∈ defaults, D.Source e entry.2) :
    D.Keeps i e (fun e properties => ∀ entry ∈ properties, D.known e (.slot entry.2))
      (newProperties pending defaults) := by
  induction defaults generalizing e pending with
  | nil => exact .pure (by simp)
  | cons entry rest ih =>
      obtain ⟨source, restSources⟩ := List.forall_mem_cons.mp sources
      apply (copyValue_meets holds source).bind
      intro e₁ grows₁ v known
      apply (newSlot_meets known).bind
      intro e₂ grows₂ s slotKnown
      have grows := grows₁.trans grows₂
      apply (ih ((holds.mono grows).cons (D.held_of_known slotKnown)) fun entry member =>
        (restSources entry member).mono grows).bind
      intro e₃ grows₃ more moreKnown
      exact .pure fun e₄ grows₄ => List.forall_mem_cons.mpr
        ⟨D.known_mono (grows₃.trans grows₄) slotKnown, fun entry member =>
          D.known_mono grows₄ (moreKnown entry member)⟩

/-- What is needed of a class to make objects of it. -/
theorem classData_meets {c : ClassId} (known : D.known e (.classData c)) :
    D.Meets b i e (fun _ => i)
      (fun e data => D.Callables data ∧ ∀ entry ∈ data.properties, D.Source e entry.2)
      (Run.inspect (·.classData c)) := by
  refine meets_inspect fun m inside good => ⟨fun _ _ member => D.methods good member, ?_⟩
  intro entry member g held
  exact D.defaults good (D.known_mono inside known) g (List.mem_flatMap.mpr ⟨entry, member, held⟩)

theorem newObject_meets {c : ClassId} {properties : List (String × SlotId)}
    (classKnown : D.known e (.classData c))
    (known : ∀ entry ∈ properties, D.known e (.slot entry.2)) :
    D.Meets b i e (fun _ => i) (fun e o => D.known e (.object o))
      (Run.update (·.newObject ⟨c, properties⟩)) := by
  refine (meets_update (known_plain rfl) (fun m inside _ => ?_) fun m inside good => ?_).ofNull
  · refine Store.adjusts_newObject m.store .null (List.forall_mem_cons.mpr ⟨?_, fun g member => ?_⟩)
    · exact D.known_mono inside classKnown
    · obtain ⟨entry, there, rfl⟩ := List.mem_map.mp member
      exact D.known_mono inside (known entry there)
  · exact D.known_fresh good (Store.fresh_newObject m.store _)

theorem instantiate_meets {arguments : List Value} {frame : Frame} (serves : D.Serves user)
    (frameKnown : D.KnownFrame e frame) (known : ∀ v ∈ arguments, D.Known e v)
    (className : String) :
    D.Keeps i e D.Known (instantiate user className arguments frame) := by
  have passed : ∀ v ∈ (none : Option Value), D.Known e v := by simp
  apply (findClass_meets className).bind
  intro e₁ grows₁ c classKnown
  refine (classData_meets classKnown).bind fun e₂ grows₂ data ⟨callables, sources⟩ => ?_
  have grows := grows₁.trans grows₂
  have classKnown := D.known_mono grows₂ classKnown
  apply (newProperties_meets (((frameKnown.forCall passed known).held.mono grows).cons
    (D.held_of_known classKnown)) data.properties sources).bind
  intro e₃ grows₃ properties slotsKnown
  apply (newObject_meets (D.known_mono grows₃ classKnown) slotsKnown).bind
  intro e₄ grows₄ o objectKnown
  have known' : D.Known e₄ (.object o) := fun g member => List.mem_singleton.mp member ▸ objectKnown
  have grows := (grows.trans grows₃).trans grows₄
  split
  · next m found =>
      have called : D.KnownCall e₄ (frame.forCall (some (.object o)) arguments) :=
        (frameKnown.mono grows).forCall (by simpa using known') fun v member =>
          (known v member).mono grows
      apply (callWith_meets serves called (callables.method found)).bind
      intro _ grows₅ _ _
      exact .pure fun _ grows₆ => known'.mono (grows₅.trans grows₆)
  · exact .pure fun _ grows₅ => known'.mono grows₅

/-! Expressions and places -/

theorem lookup_meets {use : Use} {name : String}
    (writes : D.Writes i ((Place.variable name).written use)) :
    D.Meets b i e (fun _ => i) Any (Run.note (.lookup use name)) := by
  intro m _ good
  refine ⟨D.lookup good fun isWrite => ?_, le_refl _, good, trivial⟩
  exact writes name (by simp [Place.written, isWrite])

theorem KnownFrame.beyond {frame : Frame} {e' : Extent} {v : Value}
    (known : D.KnownFrame e frame) (grows : e ≤ e') (valueKnown : D.Known e' v) :
    D.KnownFrame e' (frame.holding v.handles) := (known.mono grows).holding valueKnown.holds

mutual
theorem evalExpr_meets {i : D.Index} {e : Extent} {frame : Frame}
    (serves : D.Serves user) :
    (x : Expr) → D.KnownFrame e frame → D.Writes i x.written →
      D.Keeps i e D.Known (evalExpr user frame x)
  | .null, _, _ | .boolean _, _, _ | .integer _, _, _ | .float _, _, _ | .string _, _, _ => by
      rw [evalExpr]
      exact plain_meets rfl
  | .array entries, known, writes => by
      rw [evalExpr]
      exact (evalEntries_meets serves entries known writes).bind fun _ grows values valuesKnown =>
        arrayOf_meets (known.held.mono grows) values valuesKnown
  | .load place, known, writes => by
      rw [evalExpr]
      exact (evalPlace_meets serves .read place known writes).bind fun _ _ _ locationKnown =>
        get_meets locationKnown
  | .binary left operator right, known, writes => by
      obtain ⟨writesLeft, writesRight⟩ := List.forall_mem_append.mp writes
      rw [evalExpr]
      apply (evalExpr_meets serves left known writesLeft).bind
      intro e₁ grows₁ v leftKnown
      apply (evalExpr_meets serves right (known.beyond grows₁ leftKnown) writesRight).bind
      intro e₂ grows₂ w rightKnown
      have leftKnown := leftKnown.mono grows₂
      exact applyBinary_meets ((leftKnown.holds.append rightKnown.holds).append
        (known.held.mono (grows₁.trans grows₂))) leftKnown rightKnown operator
  | .assign target source, known, writes => by
      obtain ⟨writesTarget, writesSource⟩ := List.forall_mem_append.mp writes
      rw [evalExpr]
      apply (evalPlace_meets serves .write target known writesTarget).bind
      intro e₁ grows₁ l locationKnown
      exact assignFrom_meets serves source ((known.mono grows₁).holding locationKnown.holds)
        locationKnown writesSource
  | .unary operator operand, known, writes => by
      rw [evalExpr]
      exact evalOperand_meets serves operator operand known writes
  | .call function arguments, known, writes => by
      obtain ⟨writesFunction, writesArguments⟩ := List.forall_mem_append.mp writes
      rw [evalExpr]
      apply (evalExpr_meets serves function known writesFunction).bind
      intro e₁ grows₁ name _
      apply (look_meets _).bind
      intro e₂ grows₂ text _
      apply (findFunction_meets text).bind
      intro e₃ grows₃ c callable
      have grows := (grows₁.trans grows₂).trans grows₃
      apply (evalExprs_meets serves arguments (known.mono grows) writesArguments).bind
      intro e₄ grows₄ values valuesKnown
      exact callWith_meets serves ((known.mono (grows.trans grows₄)).forCall (by simp) valuesKnown)
        callable
  | .callMethod object method arguments, known, writes => by
      obtain ⟨writesBoth, writesArguments⟩ := List.forall_mem_append.mp writes
      obtain ⟨writesObject, writesMethod⟩ := List.forall_mem_append.mp writesBoth
      rw [evalExpr]
      apply (evalExpr_meets serves object known writesObject).bind
      intro e₁ grows₁ v objectKnown
      have inside := known.beyond grows₁ objectKnown
      apply (evalExpr_meets serves method inside writesMethod).bind
      intro e₂ grows₂ name _
      apply (look_meets _).bind
      intro e₃ grows₃ text _
      have grows := grows₂.trans grows₃
      apply (evalExprs_meets serves arguments (inside.mono grows) writesArguments).bind
      intro e₄ grows₄ values valuesKnown
      have grows := grows.trans grows₄
      refine callMethod_meets serves ((known.mono (grows₁.trans grows)).forCall ?_ valuesKnown) text
      simpa using objectKnown.mono grows
  | .instantiate className arguments, known, writes => by
      obtain ⟨writesName, writesArguments⟩ := List.forall_mem_append.mp writes
      rw [evalExpr]
      apply (evalExpr_meets serves className known writesName).bind
      intro e₁ grows₁ name _
      apply (look_meets _).bind
      intro e₂ grows₂ text _
      have grows := grows₁.trans grows₂
      apply (evalExprs_meets serves arguments (known.mono grows) writesArguments).bind
      intro e₃ grows₃ values valuesKnown
      exact instantiate_meets serves (known.mono (grows.trans grows₃)) valuesKnown text
  | .conditional condition consequent alternate, known, writes => by
      obtain ⟨writesBoth, writesAlternate⟩ := List.forall_mem_append.mp writes
      obtain ⟨writesCondition, writesConsequent⟩ := List.forall_mem_append.mp writesBoth
      rw [evalExpr]
      apply (evalExpr_meets serves condition known writesCondition).bind
      intro e₁ grows₁ v _
      apply (look_meets _).bind
      intro e₂ grows₂ isTrue _
      have known := known.mono (grows₁.trans grows₂)
      split
      · exact evalExpr_meets serves consequent known writesConsequent
      · exact evalExpr_meets serves alternate known writesAlternate

theorem evalExprs_meets {i : D.Index} {e : Extent} {frame : Frame}
    (serves : D.Serves user) :
    (xs : List Expr) → D.KnownFrame e frame → D.Writes i (Code.writtenInAll xs) →
      D.Keeps i e (fun e values => ∀ v ∈ values, D.Known e v) (evalExprs user frame xs)
  | [], _, _ => by
      rw [evalExprs]
      exact .pure (by simp)
  | x :: rest, known, writes => by
      obtain ⟨writesHere, writesRest⟩ := List.forall_mem_append.mp writes
      rw [evalExprs]
      apply (evalExpr_meets serves x known writesHere).bind
      intro e₁ grows₁ v valueKnown
      apply (evalExprs_meets serves rest (known.beyond grows₁ valueKnown) writesRest).bind
      intro e₂ grows₂ more moreKnown
      exact .pure fun e₃ grows₃ => List.forall_mem_cons.mpr
        ⟨valueKnown.mono (grows₂.trans grows₃), fun v member => (moreKnown v member).mono grows₃⟩

theorem evalEntries_meets {i : D.Index} {e : Extent} {frame : Frame}
    (serves : D.Serves user) :
    (entries : List Entry) → D.KnownFrame e frame → D.Writes i (Code.writtenInEntries entries) →
      D.Keeps i e
        (fun e values => ∀ entry ∈ values, (∀ k ∈ entry.1, D.Known e k) ∧ D.Known e entry.2)
        (evalEntries user frame entries)
  | [], _, _ => by
      rw [evalEntries]
      exact .pure (by simp)
  | .value x :: rest, known, writes => by
      obtain ⟨writesHere, writesRest⟩ := List.forall_mem_append.mp writes
      rw [evalEntries]
      apply (evalExpr_meets serves x known writesHere).bind
      intro e₁ grows₁ v valueKnown
      apply (evalEntries_meets serves rest (known.beyond grows₁ valueKnown) writesRest).bind
      intro e₂ grows₂ more moreKnown
      refine .pure fun e₃ grows₃ => List.forall_mem_cons.mpr ⟨⟨by simp, ?_⟩, fun entry member => ?_⟩
      · exact valueKnown.mono (grows₂.trans grows₃)
      · obtain ⟨keyKnown, known⟩ := moreKnown entry member
        exact ⟨fun k isKey => (keyKnown k isKey).mono grows₃, known.mono grows₃⟩
  | .pair key x :: rest, known, writes => by
      obtain ⟨writesBoth, writesRest⟩ := List.forall_mem_append.mp writes
      obtain ⟨writesKey, writesHere⟩ := List.forall_mem_append.mp writesBoth
      rw [evalEntries]
      apply (evalExpr_meets serves key known writesKey).bind
      intro e₁ grows₁ k keyKnown
      apply (evalExpr_meets serves x (known.beyond grows₁ keyKnown) writesHere).bind
      intro e₂ grows₂ v valueKnown
      have keyKnown := keyKnown.mono grows₂
      apply (evalEntries_meets serves rest ((known.mono (grows₁.trans grows₂)).holding
        (keyKnown.holds.append valueKnown.holds)) writesRest).bind
      intro e₃ grows₃ more moreKnown
      refine .pure fun e₄ grows₄ => List.forall_mem_cons.mpr ⟨⟨?_, ?_⟩, fun entry member => ?_⟩
      · simpa using keyKnown.mono (grows₃.trans grows₄)
      · exact valueKnown.mono (grows₃.trans grows₄)
      · obtain ⟨keyKnown, known⟩ := moreKnown entry member
        exact ⟨fun k isKey => (keyKnown k isKey).mono grows₄, known.mono grows₄⟩

theorem assignFrom_meets {i : D.Index} {e : Extent} {frame : Frame}
    (serves : D.Serves user) {l : Location} :
    (source : Code.Source) → D.KnownFrame e frame → D.KnownLocation e l →
      D.Writes i source.written →
      D.Keeps i e D.Known (assignFrom user frame l source)
  | .value x, known, locationKnown, writes => by
      rw [assignFrom]
      exact (evalExpr_meets serves x known writes).bind fun _ grows _ valueKnown =>
        set_meets l (known.held.mono grows) (locationKnown.mono grows) valueKnown
  | .reference p, known, locationKnown, writes => by
      rw [assignFrom]
      apply (evalPlace_meets serves .write p known writes).bind
      intro _ grows₁ _ sourceKnown
      exact (slot_meets sourceKnown).bind fun _ grows₂ _ slotKnown =>
        bind_meets (locationKnown.mono (grows₁.trans grows₂)) slotKnown

theorem evalOperand_meets {i : D.Index} {e : Extent} {frame : Frame}
    (serves : D.Serves user) (operator : UnaryOperator) :
    (operand : Operand) → D.KnownFrame e frame → D.Writes i operand.written →
      D.Keeps i e D.Known (evalOperand user frame operator operand)
  | .value x, known, writes => by
      rw [evalOperand]
      exact (evalExpr_meets serves x known writes).bind fun _ _ _ valueKnown =>
        applyUnary_meets valueKnown operator
  | .place p, known, writes => by
      rw [evalOperand]
      exact (evalPlace_meets serves .write p known writes).bind fun _ grows _ locationKnown =>
        applyUnaryAt_meets (known.held.mono grows) locationKnown operator

theorem evalPlace_meets {i : D.Index} {e : Extent} {frame : Frame}
    (serves : D.Serves user) (use : Use) :
    (place : Place) → D.KnownFrame e frame → D.Writes i (place.written use) →
      D.Keeps i e D.KnownLocation (evalPlace user frame use place)
  | .variable name, _, writes => by
      rw [evalPlace]
      exact (lookup_meets writes).bind fun _ _ _ _ => ofVariable_meets name
  | .element base key, known, writes => by
      obtain ⟨writesBase, writesKey⟩ := List.forall_mem_append.mp writes
      rw [evalPlace]
      apply (evalBase_meets serves use base known writesBase).bind
      intro e₁ grows₁ container containerKnown
      apply (evalKey_meets serves key (known.beyond grows₁ containerKnown) writesKey).bind
      intro e₂ grows₂ _ _
      exact .pure fun _ grows₃ => containerKnown.mono (grows₂.trans grows₃)
  | .nullReference, _, _ => by
      rw [evalPlace]
      apply newNull_meets.bind
      intro _ _ s slotKnown
      apply Meets.pure
      intro _ grows g member
      exact List.mem_singleton.mp member ▸ D.known_mono grows slotKnown
  | .list places, known, writes => by
      rw [evalPlace]
      exact (evalPlaces_meets serves use places known writes).bind fun _ _ _ locationsKnown =>
        .pure fun _ grows => locationsKnown.mono grows

theorem evalBase_meets {i : D.Index} {e : Extent} {frame : Frame}
    (serves : D.Serves user) (use : Use) :
    (base : Base) → D.KnownFrame e frame → D.Writes i base.written →
      D.Keeps i e D.Known (evalBase user frame use base)
  | .value x, known, writes => by
      rw [evalBase]
      exact evalExpr_meets serves x known writes
  | .implied p, known, writes => by
      rw [evalBase]
      have writesPlace : D.Writes i (p.written use) := fun name member =>
        writes name (p.written_subset use member)
      exact (evalPlace_meets serves use p known writesPlace).bind fun _ _ _ locationKnown =>
        imply_meets locationKnown

theorem evalKey_meets {i : D.Index} {e : Extent} {frame : Frame}
    (serves : D.Serves user) :
    (key : Option Expr) → D.KnownFrame e frame → D.Writes i (Code.writtenInKey key) →
      D.Keeps i e Any (evalKey user frame key)
  | none, _, _ => by
      rw [evalKey]
      exact .pure fun _ _ => trivial
  | some x, known, writes => by
      rw [evalKey]
      apply (evalExpr_meets serves x known writes).bind
      intro _ _ v _
      split
      · exact .pure fun _ _ => trivial
      · exact .fail _

theorem evalPlaces_meets {i : D.Index} {e : Extent} {frame : Frame}
    (serves : D.Serves user) (use : Use) :
    (places : List Place) → D.KnownFrame e frame → D.Writes i (Code.writtenInPlaces use places) →
      D.Keeps i e (fun e locations => D.KnownLocation e (.list locations))
        (evalPlaces user frame use places)
  | [], _, _ => by
      rw [evalPlaces]
      exact .pure fun _ _ _ member => absurd member List.not_mem_nil
  | p :: rest, known, writes => by
      obtain ⟨writesHere, writesRest⟩ := List.forall_mem_append.mp writes
      rw [evalPlaces]
      apply (evalPlace_meets serves use p known writesHere).bind
      intro e₁ grows₁ l locationKnown
      apply (evalPlaces_meets serves use rest ((known.mono grows₁).holding locationKnown.holds)
        writesRest).bind
      intro e₂ grows₂ more moreKnown
      refine .pure fun e₃ grows₃ g member => ?_
      rcases List.mem_append.mp member with here | later
      · exact locationKnown.mono (grows₂.trans grows₃) g here
      · exact moreKnown.mono grows₃ g later
end

end TreeScript.Discipline
