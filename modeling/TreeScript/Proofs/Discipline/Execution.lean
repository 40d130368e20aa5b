import TreeScript.Proofs.Discipline.Evaluation

set_option autoImplicit false

/- Statements and calls keep every discipline: loops by induction on the elements left, blocks by
induction on the code, and calls by induction on the levels they may still nest. -/
namespace TreeScript.Discipline

open Code (Expr Place Stmt Function ClassDefinition)

variable {D : Discipline} {b i : D.Index} {e : Extent} {user : UserCall} {frame : Frame}

/-- What a statement returns is known. -/
def KnownFlow (D : Discipline) (e : Extent) : Flow → Prop
  | .normal => True
  | .returned v => D.Known e v

theorem KnownFlow.mono {e' : Extent} {flow : Flow} (known : D.KnownFlow e flow) (grows : e ≤ e') :
    D.KnownFlow e' flow := by
  cases flow with
  | normal => exact trivial
  | returned v => exact Known.mono known grows

theorem normal_meets : D.Meets b i e (fun _ => i) D.KnownFlow (pure .normal) :=
  .pure fun _ _ => trivial

/-! Classes -/

theorem evalDefaults_meets (serves : D.Serves user) (known : D.KnownFrame e frame)
    (defaults : List (String × Expr)) (writes : D.Writes i (Code.writtenInDefaults defaults)) :
    D.Keeps i e (fun e values => ∀ entry ∈ values, D.Known e entry.2)
      (evalDefaults user frame defaults) := by
  induction defaults generalizing e frame with
  | nil => exact .pure (by simp)
  | cons entry rest ih =>
      obtain ⟨writesHere, writesRest⟩ := List.forall_mem_append.mp writes
      apply (evalExpr_meets serves entry.2 known writesHere).bind
      intro e₁ grows₁ v valueKnown
      apply (ih (known.beyond grows₁ valueKnown) writesRest).bind
      intro e₂ grows₂ more moreKnown
      exact .pure fun e₃ grows₃ => List.forall_mem_cons.mpr
        ⟨valueKnown.mono (grows₂.trans grows₃), fun entry member =>
          (moreKnown entry member).mono grows₃⟩

/-- A class with methods added has the properties it had, and methods from the list besides. -/
theorem defineMethods_spec (methods : List (String × Function Stmt)) (data : ClassData) :
    (methods.foldl (fun data (key, f) => ClassData.defineMethod data key (.user f)) data).handles =
      data.handles ∧
    ∀ entry ∈ (methods.foldl
        (fun data (key, f) => ClassData.defineMethod data key (.user f)) data).methods,
      entry ∈ data.methods ∨ ∃ method ∈ methods, entry.2 = .user method.2 := by
  induction methods generalizing data with
  | nil => exact ⟨rfl, fun entry member => .inl member⟩
  | cons method rest ih =>
      obtain ⟨same, known⟩ := ih (data.defineMethod method.1 (.user method.2))
      refine ⟨same, fun entry member => ?_⟩
      rcases known entry member with before | ⟨other, later, isOther⟩
      · rcases Assoc.mem_set before with before | isNew
        · exact .inl before
        · exact .inr ⟨method, List.mem_cons_self, isNew⟩
      · exact .inr ⟨other, List.mem_cons_of_mem _ later, isOther⟩

theorem newClass_meets {data : ClassData} (known : ∀ g ∈ data.handles, D.known e g)
    (callables : D.Callables data) :
    D.Meets b i e (fun _ => i) (fun e c => D.known e (.classData c))
      (Run.update (·.newClass data)) := by
  intro m inside good
  have final := D.newClass good (fun g member => D.known_mono inside (known g member)) callables
  exact ⟨D.seen final, Store.extent_newClass m.store data, final,
    D.known_fresh good (Store.fresh_newClass m.store data)⟩

theorem defineClass_meets (serves : D.Serves user) (known : D.KnownFrame e frame)
    (definition : ClassDefinition Stmt) (writesName : D.Writes i definition.name.written)
    (writesDefaults : D.Writes i (Code.writtenInDefaults definition.properties))
    (callable : ∀ method ∈ definition.methods, D.callable method.2) :
    D.Keeps i e Any (TreeScript.defineClass user frame definition) := by
  apply (evalExpr_meets serves definition.name known writesName).bind
  intro e₁ grows₁ _ _
  apply (look_meets _).bind
  intro e₂ grows₂ name _
  apply (evalDefaults_meets serves (known.mono (grows₁.trans grows₂)) definition.properties
    writesDefaults).bind
  intro e₃ grows₃ defaults defaultsKnown
  obtain ⟨handles, methods⟩ := defineMethods_spec definition.methods ⟨name, defaults, []⟩
  refine (newClass_meets (fun g member => ?_) fun key f member => ?_).bind
    fun e₄ _ c classKnown => ?_
  · rw [handles] at member
    obtain ⟨entry, there, held⟩ := List.mem_flatMap.mp member
    exact defaultsKnown entry there g held
  · rcases methods _ member with none | ⟨method, there, isMethod⟩
    · exact absurd none List.not_mem_nil
    · exact Callable.user.inj isMethod ▸ callable method there
  · exact meets_modify (fun _ => le_refl _) fun m inside good =>
      D.defineClass name good (D.known_mono inside classKnown)

/-! Loops -/

theorem setLoop_meets {loop : Option Loop} (slot : Nat)
    (known : ∀ l, loop = some l → D.known e (.array l.array)) :
    D.Meets b i e (fun _ => i) Any (modify (·.setLoop slot loop)) :=
  meets_modify (fun _ => le_refl _) fun _ inside good =>
    D.setLoop slot good fun l isLoop => D.known_mono inside (known l isLoop)

/-- The pointer of an array is moved, and its elements stay. -/
theorem pointer_meets {a : ArrayId} (known : D.known e (.array a)) (move : ArrayData → ArrayData)
    (same : ∀ data, (move data).elements = data.elements) :
    D.Meets b i e (fun _ => i) Any (Run.alter fun st => st.setArray a (move (st.array a))) := by
  refine (meets_alter (known_plain rfl) fun m inside good => ?_).ofNull
  refine Store.adjusts_setArray m.store .null (D.known_mono inside known) (fun h member => ?_) ?_
  · rw [ArrayData.handles, same] at member
    exact .inl member
  · simp only [same, List.prefix_rfl]

theorem elements_advance (data : ArrayData) : data.advance.elements = data.elements := by
  unfold ArrayData.advance
  split <;> rfl

/-- The element of an array at a position is looked up, and the pointer moved where there is one. -/
theorem entryAt_meets {a : ArrayId} (known : D.known e (.array a)) (position : Nat) :
    D.Keeps i e (fun e next => ∀ entry ∈ next, D.known e (.slot entry.2)) (do
      let data ← Run.inspect (·.array a)
      match data.entryAt? position with
      | none => pure none
      | some entry =>
          Run.alter (·.setArray a data.advance)
          pure (some entry)) := by
  intro m inside good
  have moved := pointer_meets (b := i) (i := i) known ArrayData.advance elements_advance m inside good
  have slots := known_slots good (D.known_mono inside known)
  rw [Run.holds_bind, Run.inspect, Run.holds_bind, Run.holds_get]
  refine ⟨D.seen good, ?_⟩
  rw [Run.holds_pure]
  split
  · exact ⟨le_refl _, good, by simp⟩
  · next entry found =>
      obtain ⟨seen, grows, final, -⟩ := moved
      refine ⟨seen, grows, final, ?_⟩
      rintro _ ⟨rfl⟩
      exact D.known_mono grows (slots entry (List.mem_of_getElem? found))

theorem mem_loops {m : Machine} {slot : Nat} {loop : Loop}
    (running : m.loops[slot]?.join = some loop) : some loop ∈ m.loops :=
  List.mem_of_getElem? (Option.join_eq_some_iff.mp running)

/-- The loops of a call that begins are blank. -/
theorem not_mem_blank {loop : Loop} {loopSlots : Nat} :
    some loop ∉ List.replicate loopSlots (none : Option Loop) := by
  intro member
  cases List.eq_of_mem_replicate member

/-- A loop that is under way after one is set was under way before, or is the one set. -/
theorem mem_setLoop {m : Machine} {slot : Nat} {loop : Option Loop} {l : Loop}
    (member : some l ∈ (m.setLoop slot loop).loops) : some l ∈ m.loops ∨ loop = some l := by
  rcases List.mem_or_eq_of_mem_set member with before | isNew
  · rcases List.mem_append.mp before with old | blank
    · exact .inl old
    · exact absurd blank not_mem_blank
  · exact .inr isNew.symm

theorem nextElement_meets (slot : Nat) :
    D.Keeps i e (fun e next => ∀ entry ∈ next, D.known e (.slot entry.2)) (nextElement slot) := by
  have looked : D.Meets i i e (fun _ => i)
      (fun e m => ∀ loop, some loop ∈ m.loops → D.known e (.array loop.array)) get :=
    meets_get fun m _ good _ member => D.loops good member
  apply looked.bind
  intro e₁ _ m known
  split
  · exact .pure (by simp)
  · next loop running =>
      have arrayKnown := known loop (mem_loops running)
      split
      · exact .pure (by simp)
      · refine (setLoop_meets slot fun l isLoop => ?_).bind fun e₂ grows₂ _ _ => ?_
        · cases isLoop
          exact arrayKnown
        exact entryAt_meets (D.known_mono grows₂ arrayKnown) loop.position

theorem walk_meets {body : Key → SlotId → Run Flow} (slot n : Nat)
    (each : ∀ e', e ≤ e' → ∀ key s, D.known e' (.slot s) → D.Keeps i e' D.KnownFlow (body key s)) :
    D.Keeps i e D.KnownFlow (walk slot body n) := by
  induction n generalizing e with
  | zero => exact normal_meets
  | succ n ih =>
      apply (nextElement_meets slot).bind
      intro e₁ grows₁ next known
      split
      · exact normal_meets
      · next key s =>
          apply (each e₁ grows₁ key s (known (key, s) rfl)).bind
          intro e₂ grows₂ flow flowKnown
          split
          · exact ih fun e' grows => each e' ((grows₁.trans grows₂).trans grows)
          · exact .pure fun _ grows => flowKnown.mono grows

theorem inLoop_meets {loop : Loop} {body : Run Flow} (slot : Nat)
    (known : D.known e (.array loop.array)) (keeps : D.Keeps i e D.KnownFlow body) :
    D.Keeps i e D.KnownFlow (inLoop slot loop body) := by
  refine (setLoop_meets slot fun l isLoop => ?_).bind fun e₁ grows₁ _ _ => ?_
  · cases isLoop
    exact known
  · intro m inside good
    rw [Run.holds_ensure]
    refine (keeps.holds good (grows₁.trans inside)).mono ?_ ?_
    · rintro flow m' ⟨grows, good', flowKnown⟩
      have final : D.good i (m'.setLoop slot none) := D.setLoop slot good' (by simp)
      exact ⟨D.seen final, grows, final, flowKnown⟩
    · rintro f m' ⟨grows, good', other⟩
      have final : D.good i (m'.setLoop slot none) := D.setLoop slot good' (by simp)
      exact ⟨D.seen final, grows, final, other⟩

theorem walkedArray_meets {pending : List Handle} {source : ArrayId} (holds : D.Holds e pending)
    (known : D.known e (.array source)) (byReference : Bool) :
    D.Keeps i e D.Known (walkedArray pending byReference source) := by
  unfold walkedArray
  split
  · exact array_meets known
  · have copied : D.Meets i i e (fun v => D.hold i v) D.Known (copyValue pending (.array source)) :=
      copyValue_meets holds fun g member => List.mem_singleton.mp member ▸ D.source_of_known known
    intro m inside good
    refine (copied m inside good).mono ?_ fun _ _ failed => failed
    rintro v m' ⟨grows, held, valueKnown⟩
    exact ⟨grows, D.forget held, valueKnown⟩

theorem takeElement_meets {pending : List Handle} {l : Location} {s : SlotId}
    (holds : D.Holds e pending) (known : D.KnownLocation e l) (slotKnown : D.known e (.slot s))
    (byReference : Bool) : D.Keeps i e D.Known (takeElement pending byReference l s) := by
  unfold takeElement
  split
  · exact bind_meets known slotKnown
  · exact (read_meets slotKnown).bind fun _ grows _ valueKnown =>
      set_meets l (holds.mono grows) (known.mono grows) valueKnown

theorem handles_toValue_key (key : Key) : key.toValue.handles = [] := by cases key <;> rfl

theorem assignKey_meets (serves : D.Serves user) (known : D.KnownFrame e frame) (key : Key)
    (place : Option Place) (writes : D.Writes i (Code.writtenInPlace? place)) :
    D.Keeps i e Any (assignKey user frame key place) := by
  cases place with
  | none => exact .pure fun _ _ => trivial
  | some place =>
      apply (evalPlace_meets serves .write place known writes).bind
      intro e₁ grows l known'
      have keyKnown : D.Known e₁ key.toValue := known_plain (handles_toValue_key key)
      apply (set_meets l (known.held.mono grows) known' keyKnown).bind
      intro _ _ _ _
      exact .pure fun _ _ => trivial

theorem holds_pair {g h : Handle} (first : D.held e g) (second : D.held e h) :
    D.Holds e [g, h] := Holds.cons first (Holds.cons second (by simp [Holds]))

/-- One element of a loop: the key and the value are taken up, and what is run on them knows
what it is given. -/
theorem loopBody_meets {key : Option Place} {value : Place} {s : SlotId} {body : Frame → Run Flow}
    (serves : D.Serves user) (known : D.KnownFrame e frame) (slotKnown : D.known e (.slot s))
    (k : Key) (byReference : Bool) (writesKey : D.Writes i (Code.writtenInPlace? key))
    (writesValue : D.Writes i (value.written .write))
    (keeps : ∀ e' frame', e ≤ e' → D.KnownFrame e' frame' →
      D.Keeps i e' D.KnownFlow (body frame')) :
    D.Keeps i e D.KnownFlow (do
      assignKey user (frame.holding [.slot s]) k key
      let l ← evalPlace user (frame.holding [.slot s]) .write value
      let _ ← takeElement (frame.holding [.slot s]).held byReference l s
      body ((if byReference then frame else frame.holding [.slot s]).holding l.handles)) := by
  have within : D.KnownFrame e (frame.holding [.slot s]) :=
    known.holding (Holds.cons (D.held_of_known slotKnown) (by simp [Holds]))
  apply (assignKey_meets serves within k key writesKey).bind
  intro e₁ grows₁ _ _
  apply (evalPlace_meets serves .write value (within.mono grows₁) writesValue).bind
  intro e₂ grows₂ l locationKnown
  have grows := grows₁.trans grows₂
  apply (takeElement_meets (within.mono grows).held locationKnown (D.known_mono grows slotKnown)
    byReference).bind
  intro e₃ grows₃ _ _
  have grows := grows.trans grows₃
  refine keeps e₃ _ grows (KnownFrame.holding ?_ (locationKnown.mono grows₃).holds)
  split
  · exact known.mono grows
  · exact within.mono grows

/-! Statements -/

/-- What was declared is put aside again. -/
theorem good_of_after {m : Machine} (s : Stmt) (good : D.good (D.after i s) m) : D.good i m := by
  cases s with
  | defineVariables names => exact D.undeclare good
  | bindArgument _ _ | bindThis | echo _ | inlineHtml _ | expression _ | ifElse _ _ _
  | foreach _ _ _ _ _ _ | ret _ | defineFunction _ | defineClass _ | «scoped» _ => exact good

theorem returnValue_meets (serves : D.Serves user) (known : D.KnownFrame e frame)
    (x : Option Expr) (writes : D.Writes i (Code.writtenInKey x)) :
    D.Keeps i e D.Known (returnValue user frame x) := by
  cases x with
  | none => exact plain_meets rfl
  | some x => exact evalExpr_meets serves x known writes

theorem source_getD {v : Option Value} (source : ∀ w ∈ v, D.Source e w) :
    D.Source e (v.getD .null) := by
  cases v with
  | none => exact (known_plain rfl).source
  | some w => exact source w rfl

mutual
theorem execStmt_meets {i : D.Index} {e : Extent} {frame : Frame} (serves : D.Serves user) :
    (s : Stmt) → D.KnownFrame e frame → D.Fits i s →
      D.Meets i i e (fun _ => D.after i s) D.KnownFlow (execStmt user frame s)
  | .defineVariables names, _, _ => by
      rw [execStmt]
      exact (defineVariables_meets names).bind fun _ _ _ _ => normal_meets
  | .bindArgument name index, known, _ => by
      rw [execStmt]
      have source : D.Source e (frame.arguments[index]?.getD .null) :=
        source_getD fun v found => known.arguments v (List.mem_of_getElem? found)
      exact (bindVariable_meets known.held source name).bind fun _ _ _ _ => normal_meets
  | .bindThis, known, _ => by
      rw [execStmt]
      exact (bindVariable_meets known.held (source_getD known.receiver) "this").bind
        fun _ _ _ _ => normal_meets
  | .echo x, known, writes => by
      rw [execStmt]
      apply (evalExpr_meets serves x known (by simpa [Policy.Fits] using writes)).bind
      intro _ _ _ _
      exact (look_meets _).bind fun _ _ _ _ => (write_meets _).bind fun _ _ _ _ => normal_meets
  | .inlineHtml html, _, _ => by
      rw [execStmt]
      exact (write_meets html).bind fun _ _ _ _ => normal_meets
  | .expression x, known, writes => by
      rw [execStmt]
      exact (evalExpr_meets serves x known (by simpa [Policy.Fits] using writes)).bind
        fun _ _ _ _ => normal_meets
  | .ifElse condition consequent alternate, known, fits => by
      rw [Policy.Fits] at fits
      obtain ⟨writes, fitsConsequent, fitsAlternate⟩ := fits
      rw [execStmt]
      apply (evalExpr_meets serves condition known writes).bind
      intro e₁ grows₁ _ _
      apply (look_meets _).bind
      intro e₂ grows₂ isTrue _
      have known := known.mono (grows₁.trans grows₂)
      split
      · exact execBlock_meets serves consequent known fitsConsequent
      · exact execBlock_meets serves alternate known fitsAlternate
  | .foreach slot array key value byReference body, known, fits => by
      rw [Policy.Fits] at fits
      obtain ⟨writesArray, writesKey, writesValue, fitsBody⟩ := fits
      rw [execStmt]
      apply (evalExpr_meets serves array known writesArray).bind
      intro e₁ grows₁ v arrayKnown
      split
      · next source =>
          have sourceKnown := arrayKnown.array
          apply (pointer_meets sourceKnown ArrayData.reset fun _ => rfl).bind
          intro e₂ grows₂ _ _
          have known := known.mono (grows₁.trans grows₂)
          have sourceKnown := D.known_mono grows₂ sourceKnown
          apply (walkedArray_meets known.held sourceKnown byReference).bind
          intro e₃ grows₃ walked walkedKnown
          split
          · next a =>
              apply (look_meets _).bind
              intro e₄ grows₄ data _
              have grows := grows₃.trans grows₄
              have walkedKnown := D.known_mono grows₄ walkedKnown.array
              have inside : D.KnownFrame e₄ (frame.holding [.array source, .array a]) :=
                (known.mono grows).holding (holds_pair
                  (D.held_of_known (D.known_mono grows sourceKnown))
                  (D.held_of_known walkedKnown))
              refine inLoop_meets slot walkedKnown (walk_meets slot _ ?_)
              intro e₅ grows₅ k s slotKnown
              exact loopBody_meets serves (inside.mono grows₅) slotKnown k byReference writesKey
                writesValue fun _ _ _ known => execBlock_meets serves body known fitsBody
          · exact normal_meets
      · exact normal_meets
  | .ret x, known, writes => by
      rw [Policy.Fits] at writes
      rw [execStmt]
      apply (returnValue_meets serves known x writes).bind
      intro e₁ grows v valueKnown
      apply (copyValue_meets (known.held.mono grows) valueKnown.source).bind
      intro e₂ _ copy copyKnown
      refine Meets.strengthen ?_ fun _ => D.forget
      exact .pure fun _ grows => copyKnown.mono grows
  | .defineFunction f, _, definable => by
      rw [Policy.Fits] at definable
      rw [execStmt]
      have defined : D.Meets i i e (fun _ => i) Any (modify fun m =>
          { m with names := m.names.defineFunction f.name (.user f) }) :=
        meets_modify (fun _ => le_refl _) fun m _ good => D.defineFunction good definable
      exact defined.bind fun _ _ _ _ => normal_meets
  | .defineClass definition, known, fits => by
      rw [Policy.Fits] at fits
      obtain ⟨writesName, writesDefaults, callable⟩ := fits
      rw [execStmt]
      exact (defineClass_meets serves known definition writesName writesDefaults callable).bind
        fun _ _ _ _ => normal_meets
  | .scoped body, known, fits => by
      rw [Policy.Fits] at fits
      rw [execStmt]
      exact inNewScope_meets fun m good => execBlock_meets serves body known (fits m good)

theorem execBlock_meets {i : D.Index} {e : Extent} {frame : Frame} (serves : D.Serves user) :
    (block : List Stmt) → D.KnownFrame e frame → D.FitsAll i block →
      D.Keeps i e D.KnownFlow (execBlock user frame block)
  | [], _, _ => by
      rw [execBlock]
      exact normal_meets
  | s :: rest, known, fits => by
      rw [Policy.FitsAll] at fits
      rw [execBlock]
      apply (execStmt_meets serves s known fits.1).bind
      intro e₁ grows flow flowKnown
      split
      · intro m inside good
        refine (execBlock_meets serves rest (known.mono grows) fits.2 m inside good).mono ?_ ?_
        · rintro flow m' ⟨grows, good', flowKnown⟩
          exact ⟨grows, good_of_after s good', flowKnown⟩
        · rintro f m' ⟨grows, good', other⟩
          exact ⟨grows, good_of_after s good', other⟩
      · refine Meets.strengthen ?_ fun _ => good_of_after s
        exact .pure fun _ grows => flowKnown.mono grows
end

/-! Calls -/

/-- The body of a call, and what it gives. -/
theorem callBody_meets {f : Function Stmt} (serves : D.Serves user) (known : D.KnownFrame e frame)
    (fits : D.FitsAll i f.body) :
    D.Keeps i e D.Known (do
      match ← execBlock user frame f.body with
      | .normal => pure .null
      | .returned v => pure v) := by
  apply (execBlock_meets serves f.body known fits).bind
  intro _ _ flow flowKnown
  split
  · exact plain_meets rfl
  · exact .pure fun _ grows => flowKnown.mono grows

/-- However many levels are left, calls of user functions keep to the discipline. -/
theorem invoke_serves (levels : Nat) : D.Serves (invoke levels) := by
  induction levels with
  | zero =>
      intro i e f frame _ _
      have looked : D.Meets i i e (fun _ => i) Any get := meets_get fun _ _ _ => trivial
      exact looked.bind fun _ _ _ _ => .fail _
  | succ levels ih =>
      intro i e f frame callable known
      exact inCall_meets f.loopSlots fun m good => callBody_meets ih known (D.body good callable)

/-- A block that starts in good order stays in it throughout and leaves it so. -/
theorem execBlock_keeps {m : Machine} (levels : Nat) {block : List Stmt}
    (known : D.KnownFrame m.store.extent frame) (fits : D.FitsAll i block) (good : D.good i m) :
    (∀ moment ∈ (execBlock (invoke levels) frame block).trace m, D.moment moment) ∧
      D.good i (Run.left ((execBlock (invoke levels) frame block) m)) := by
  have holds := (execBlock_meets (invoke_serves levels) block known fits).holds good (le_refl _)
  refine ⟨holds.sound.1, ?_⟩
  exact (holds.mono (fun _ _ ended => ended.2.1) fun _ _ ended => ended.2.1).left

end TreeScript.Discipline
