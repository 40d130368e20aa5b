import TreeScript.Proofs.Discipline.Locations

set_option autoImplicit false

/- Operators and builtins keep every discipline. Most of them only look at the store and give a
plain value; the union of arrays and the builtins that list an array copy what they take. -/
namespace TreeScript.Discipline

variable {D : Discipline} {b i : D.Index} {e : Extent}

/-! Operators -/

/-- A computation whose result is no handle. -/
theorem plain_meets {v : Value} (plain : v.handles = []) :
    D.Meets b i e (fun _ => i) D.Known (pure v) := .pure fun _ _ => known_plain plain

theorem look_meets {α : Type} (f : Store → α) :
    D.Meets b i e (fun _ => i) Any (Run.inspect f) := meets_inspect fun _ _ _ => trivial

theorem requireScalars_meets (operator : BinaryOperator) (v w : Value) :
    D.Keeps i e Any (requireScalars operator v w) := by
  unfold requireScalars
  split
  · exact .fail _
  · exact .pure fun _ _ => trivial

theorem handles_toValue (n : Number) : n.toValue.handles = [] := by cases n <;> rfl

theorem arithmetic_meets (operator : BinaryOperator) (f : Number → Number → Option Number)
    (v w : Value) : D.Keeps i e D.Known (arithmetic operator f v w) := by
  apply (requireScalars_meets operator v w).bind
  intro _ _ _ _
  apply (look_meets id).bind
  intro _ _ st _
  split
  · exact plain_meets (handles_toValue _)
  · exact .fail _

theorem shift_meets (operator : BinaryOperator) (f : Int64 → Nat → Int64) (v w : Value) :
    D.Keeps i e D.Known (shift operator f v w) := by
  apply (requireScalars_meets operator v w).bind
  intro _ _ _ _
  apply (look_meets id).bind
  intro _ _ st _
  simp only
  split
  · exact .fail _
  · exact plain_meets rfl

/-- A test that may not end, and what is made of its answer. -/
theorem test_meets {α : Type} (test : Store → Option α) {answer : α → Value}
    (plain : ∀ a, (answer a).handles = []) :
    D.Keeps i e D.Known (do pure (answer (← Run.ending (← Run.inspect test)))) :=
  (look_meets test).bind fun _ _ found _ => (ending_meets found).bind fun _ _ a _ =>
    plain_meets (plain a)

theorem addIfMissing_meets {pending : List Handle} {union : ArrayId} {s : SlotId}
    (holds : D.Holds e pending) (unionKnown : D.known e (.array union))
    (slotKnown : D.known e (.slot s)) (key : Key) :
    D.Keeps i e Any (addIfMissing pending union key s) := by
  apply (look_meets _).bind
  intro e₁ grows₁ data _
  split
  · apply (read_meets (D.known_mono grows₁ slotKnown)).bind
    intro e₂ grows₂ v known
    have grows := grows₁.trans grows₂
    apply (copyValue_meets ((holds.cons (D.held_of_known unionKnown)).mono grows)
      known.source).bind
    intro e₃ grows₃ copy copyKnown
    have spotKnown : D.known e₃ (Spot.element union key).handle :=
      D.known_mono (grows.trans grows₃) unionKnown
    exact put_meets spotKnown copyKnown
  · exact .pure fun _ _ => trivial

theorem addMissing_meets {pending : List Handle} {union : ArrayId} (holds : D.Holds e pending)
    (unionKnown : D.known e (.array union)) (elements : List (Key × SlotId))
    (known : ∀ entry ∈ elements, D.known e (.slot entry.2)) :
    D.Keeps i e Any (addMissing pending union elements) := by
  induction elements generalizing e with
  | nil => exact .pure fun _ _ => trivial
  | cons entry rest ih =>
      obtain ⟨entryKnown, restKnown⟩ := List.forall_mem_cons.mp known
      apply (addIfMissing_meets holds unionKnown entryKnown entry.1).bind
      intro e₁ grows _ _
      exact ih (holds.mono grows) (D.known_mono grows unionKnown) fun entry member =>
        D.known_mono grows (restKnown entry member)

theorem elements_meets {a : ArrayId} (known : D.known e (.array a)) :
    D.Meets b i e (fun _ => i)
      (fun e data => ∀ entry ∈ data.elements, D.known e (.slot entry.2))
      (Run.inspect (·.array a)) :=
  meets_inspect fun _ inside good => known_slots good (D.known_mono inside known)

/-- The copy of the left array is filled up before anything else can see it. -/
theorem uniteArrays_meets {pending : List Handle} {l r : ArrayId} (holds : D.Holds e pending)
    (left : D.known e (.array l)) (right : D.known e (.array r)) :
    D.Keeps i e D.Known (uniteArrays pending l r) := by
  have holds' := (holds.cons (D.held_of_known right)).cons (D.held_of_known left)
  have source : D.Source e (.array l) := fun g member =>
    List.mem_singleton.mp member ▸ D.source_of_known left
  rw [uniteArrays]
  apply (copyValue_meets holds' source).bind
  intro e₁ grows₁ copy copyKnown
  refine Meets.strengthen ?_ fun _ => D.forget
  split
  · next union =>
      apply (elements_meets (D.known_mono grows₁ right)).bind
      intro e₂ grows₂ data slotsKnown
      apply (addMissing_meets (holds'.mono (grows₁.trans grows₂))
        (D.known_mono grows₂ copyKnown.array) data.elements slotsKnown).bind
      intro e₃ grows₃ _ _
      exact array_meets (D.known_mono (grows₂.trans grows₃) copyKnown.array)
  · exact .pure fun _ grows => copyKnown.mono grows

theorem applyBinary_meets {pending : List Handle} {v w : Value} (holds : D.Holds e pending)
    (left : D.Known e v) (right : D.Known e w) (operator : BinaryOperator) :
    D.Keeps i e D.Known (applyBinary pending operator v w) := by
  cases operator with
  | add =>
      simp only [applyBinary]
      split
      · exact uniteArrays_meets holds left.array right.array
      · exact arithmetic_meets _ _ _ _
  | subtract => exact arithmetic_meets .subtract (fun m n => some (m.subtract n)) v w
  | multiply => exact arithmetic_meets .multiply (fun m n => some (m.multiply n)) v w
  | divide => exact arithmetic_meets .divide Number.divide v w
  | modulo =>
      apply (requireScalars_meets _ v w).bind
      intro _ _ _ _
      apply (look_meets id).bind
      intro _ _ st _
      split
      · exact .fail _
      · exact plain_meets rfl
  | concat => exact (look_meets id).bind fun _ _ st _ => plain_meets rfl
  | shiftLeft => exact shift_meets .shiftLeft TreeScript.shiftLeft v w
  | shiftRight => exact shift_meets .shiftRight TreeScript.shiftRight v w
  | equal | notEqual | identical | notIdentical => exact test_meets _ fun _ => rfl
  | less | lessOrEqual | greater | greaterOrEqual => exact test_meets _ fun _ => rfl

theorem handles_increment (v : Value) : v.increment.handles = v.handles := by
  cases v with
  | string s =>
      simp only [Value.increment]
      split
      · rfl
      · split
        · exact handles_toValue _
        · rfl
  | integer n =>
      simp only [Value.increment]
      split <;> rfl
  | null | boolean _ | float _ | array _ | object _ => rfl

theorem handles_decrement (v : Value) : v.decrement.handles = v.handles := by
  cases v with
  | string s =>
      simp only [Value.decrement]
      split
      · rfl
      · split
        · exact handles_toValue _
        · rfl
  | integer n =>
      simp only [Value.decrement]
      split <;> rfl
  | null | boolean _ | float _ | array _ | object _ => rfl

theorem Known.ofHandles {v w : Value} (known : D.Known e v) (same : w.handles = v.handles) :
    D.Known e w := fun g member => known g (same ▸ member)

theorem applyUnary_meets {v : Value} (known : D.Known e v) (operator : UnaryOperator) :
    D.Keeps i e D.Known (applyUnary operator v) := by
  cases operator with
  | plus => exact arithmetic_meets .multiply (fun m n => some (m.multiply n)) v (.integer 1)
  | minus => exact arithmetic_meets .multiply (fun m n => some (m.multiply n)) v (.integer (-1))
  | complement =>
      simp only [applyUnary]
      split
      · exact plain_meets rfl
      · exact plain_meets rfl
      · exact .fail _
  | not => exact (look_meets _).bind fun _ _ _ _ => plain_meets rfl
  | preIncrement | postIncrement =>
      exact .pure fun _ grows => (known.ofHandles (handles_increment v)).mono grows
  | preDecrement | postDecrement =>
      exact .pure fun _ grows => (known.ofHandles (handles_decrement v)).mono grows

theorem applyUnaryAt_meets {pending : List Handle} {l : Location} (holds : D.Holds e pending)
    (known : D.KnownLocation e l) (operator : UnaryOperator) :
    D.Keeps i e D.Known (l.applyUnary pending operator) := by
  apply (get_meets known).bind
  intro e₁ grows₁ old oldKnown
  apply (applyUnary_meets oldKnown operator).bind
  intro e₂ grows₂ stored storedKnown
  have grows := grows₁.trans grows₂
  have oldKnown := oldKnown.mono grows₂
  have written := set_meets (i := i) l (oldKnown.holds.append (holds.mono grows))
    (known.mono grows) storedKnown
  cases operator with
  | preIncrement | preDecrement =>
      exact written.bind fun _ grows₃ _ _ => .pure fun _ grows₄ =>
        storedKnown.mono (grows₃.trans grows₄)
  | postIncrement | postDecrement =>
      exact written.bind fun _ grows₃ _ _ => .pure fun _ grows₄ =>
        oldKnown.mono (grows₃.trans grows₄)
  | plus | minus | complement | not => exact .pure fun _ grows₃ => storedKnown.mono grows₃

/-! Builtins -/

theorem known_argument {arguments : List Value} (known : ∀ v ∈ arguments, D.Known e v)
    (index : Nat) : D.Known e (Builtin.argument arguments index) :=
  known_getD fun v found => known v (List.mem_of_getElem? found)

theorem arrayArgument_meets {arguments : List Value} (known : ∀ v ∈ arguments, D.Known e v)
    (function : String) (index : Nat) :
    D.Keeps i e (fun e a => D.known e (.array a))
      (Builtin.arrayArgument function arguments index) := by
  have valueKnown := known_argument known index
  unfold Builtin.arrayArgument
  split
  · next isArray =>
      rw [isArray] at valueKnown
      exact .pure fun _ grows => D.known_mono grows valueKnown.array
  · exact .fail _

theorem receiver_meets {this : Option Value} (known : ∀ v ∈ this, D.Known e v)
    (method : String) :
    D.Keeps i e (fun e o => D.known e (.object o)) (Builtin.receiver method this) := by
  unfold Builtin.receiver
  split
  · exact .pure fun _ grows => D.known_mono grows (known _ rfl).object
  · exact .fail _

theorem valuesOf_meets {pending : List Handle} {a : ArrayId} (holds : D.Holds e pending)
    (known : D.known e (.array a)) :
    D.Meets i i e (fun values => D.holdAll i values) (fun e values => ∀ v ∈ values, D.Known e v)
      (Builtin.valuesOf pending a) := by
  apply (elements_meets known).bind
  intro e₁ grows data slotsKnown
  refine copiedValues_meets (holds.mono grows) _ (fun s member => ?_) fun _ good => good
  obtain ⟨entry, inside, rfl⟩ := List.mem_map.mp member
  exact slotsKnown entry inside

theorem holdAll_plain {m : Machine} (values : List Value) (good : D.good i m)
    (plain : ∀ v ∈ values, ∀ a, v ≠ .array a) : D.good (D.holdAll i values) m := by
  induction values generalizing i with
  | nil => exact good
  | cons v rest ih =>
      obtain ⟨here, later⟩ := List.forall_mem_cons.mp plain
      exact ih (D.plain here good) later

theorem keys_plain (keys : List Key) :
    ∀ v ∈ keys.map Key.toValue, (∀ a, v ≠ .array a) ∧ v.handles = [] := by
  intro v member
  obtain ⟨key, -, rfl⟩ := List.mem_map.mp member
  cases key <;> exact ⟨fun _ => Value.noConfusion, rfl⟩

theorem isAmong_meets (strict : Bool) (needle : Value) (values : List Value) :
    D.Keeps i e Any (Builtin.isAmong strict needle values) := by
  induction values generalizing e with
  | nil => exact .pure fun _ _ => trivial
  | cons v rest ih =>
      apply (look_meets id).bind
      intro _ _ st _
      apply (ending_meets _).bind
      intro _ _ found _
      split
      · exact .pure fun _ _ => trivial
      · exact ih

theorem textArgument_meets (arguments : List Value) (index : Nat) :
    D.Meets b i e (fun _ => i) Any (Builtin.textArgument arguments index) := look_meets _

theorem strRepeat_meets (arguments : List Value) :
    D.Keeps i e D.Known (Builtin.strRepeatBody arguments) := by
  apply (textArgument_meets arguments 0).bind
  intro _ _ text _
  apply (look_meets _).bind
  intro _ _ count _
  simp only
  split
  · exact .fail _
  · split <;> exact plain_meets rfl

theorem inArray_meets {pending : List Handle} {arguments : List Value}
    (holds : D.Holds e pending) (known : ∀ v ∈ arguments, D.Known e v) :
    D.Keeps i e D.Known (Builtin.inArrayBody pending arguments) := by
  apply (arrayArgument_meets known "in_array" 1).bind
  intro e₁ grows₁ haystack arrayKnown
  apply (look_meets _).bind
  intro e₂ grows₂ strict _
  apply (valuesOf_meets (holds.mono (grows₁.trans grows₂))
    (D.known_mono grows₂ arrayKnown)).bind
  intro e₃ grows₃ values _
  refine Meets.strengthen ?_ fun _ => forgetAll values
  exact (isAmong_meets strict _ values).bind fun _ _ _ _ => plain_meets rfl

theorem glueAndPieces_meets {arguments : List Value} (known : ∀ v ∈ arguments, D.Known e v) :
    D.Keeps i e (fun e parts => D.known e (.array parts.2)) (Builtin.glueAndPieces arguments) := by
  have valueKnown := known_argument known 0
  unfold Builtin.glueAndPieces
  split
  · next isArray _ =>
      rw [isArray] at valueKnown
      exact .pure fun _ grows => D.known_mono grows valueKnown.array
  · next isArray _ =>
      rw [isArray] at valueKnown
      exact (look_meets _).bind fun _ grows₁ _ _ => .pure fun _ grows₂ =>
        D.known_mono (grows₁.trans grows₂) valueKnown.array
  · apply (look_meets _).bind
    intro _ grows₁ _ _
    apply (arrayArgument_meets (fun v member => (known v member).mono grows₁) "implode" 1).bind
    intro _ _ _ arrayKnown
    exact .pure fun _ grows₂ => D.known_mono grows₂ arrayKnown

theorem implode_meets {pending : List Handle} {arguments : List Value}
    (holds : D.Holds e pending) (known : ∀ v ∈ arguments, D.Known e v) :
    D.Keeps i e D.Known (Builtin.implodeBody pending arguments) := by
  apply (glueAndPieces_meets known).bind
  intro e₁ grows₁ parts arrayKnown
  apply (valuesOf_meets (holds.mono grows₁) arrayKnown).bind
  intro e₂ _ values _
  refine Meets.strengthen ?_ fun _ => forgetAll values
  exact (look_meets id).bind fun _ _ _ _ => plain_meets rfl

theorem readline_meets (arguments : List Value) :
    D.Keeps i e D.Known (Builtin.readlineBody arguments) := by
  apply (textArgument_meets arguments 0).bind
  intro _ _ prompt _
  have prompted : ∀ {e}, D.Keeps i e Any (Builtin.writePrompt prompt) := by
    intro e
    unfold Builtin.writePrompt
    split
    · exact .pure fun _ _ => trivial
    · exact write_meets _
  apply prompted.bind
  intro _ _ _ _
  apply readLine_meets.bind
  intro _ _ line _
  split <;> exact plain_meets rfl

theorem exceptionConstruct_meets {this : Option Value} (known : ∀ v ∈ this, D.Known e v)
    (arguments : List Value) :
    D.Keeps i e D.Known (Builtin.exceptionConstructBody this arguments) := by
  apply (receiver_meets known "__construct").bind
  intro e₁ _ o objectKnown
  apply (textArgument_meets arguments 0).bind
  intro e₂ grows message _
  have spotKnown : D.known e₂ (Spot.property o "message").handle := D.known_mono grows objectKnown
  refine ((put_meets spotKnown (known_plain rfl)).ofPlain fun _ => Value.noConfusion).bind
    fun _ _ _ _ => plain_meets rfl

theorem exceptionGetMessage_meets {this : Option Value} (known : ∀ v ∈ this, D.Known e v) :
    D.Keeps i e D.Known (Builtin.exceptionGetMessageBody this) := by
  apply (receiver_meets known "getMessage").bind
  intro e₁ _ o objectKnown
  exact (property_meets objectKnown "message").bind fun _ _ v there =>
    .pure fun _ grows => (known_getD there).mono grows

theorem builtin_meets {pending : List Handle} {this : Option Value} {arguments : List Value}
    (holds : D.Holds e pending) (thisKnown : ∀ v ∈ this, D.Known e v)
    (known : ∀ v ∈ arguments, D.Known e v) (b : Builtin) :
    D.Keeps i e D.Known (b.call pending this arguments) := by
  cases b with
  | strRepeat => exact strRepeat_meets arguments
  | inArray => exact inArray_meets holds known
  | implode => exact implode_meets holds known
  | readline => exact readline_meets arguments
  | exceptionConstruct => exact exceptionConstruct_meets thisKnown arguments
  | exceptionGetMessage => exact exceptionGetMessage_meets thisKnown
  | arrayKeys =>
      apply (arrayArgument_meets known "array_keys" 0).bind
      intro _ _ a _
      apply (look_meets _).bind
      intro _ _ data _
      have plain := keys_plain (Assoc.keys data.elements)
      refine (listOf_meets fun v member => known_plain (plain v member).2).strengthen
        fun m good => holdAll_plain _ good fun v member => (plain v member).1
  | arrayValues =>
      apply (arrayArgument_meets known "array_values" 0).bind
      intro _ grows a arrayKnown
      exact (valuesOf_meets (holds.mono grows) arrayKnown).bind fun _ _ _ valuesKnown =>
        listOf_meets valuesKnown
  | print =>
      exact (textArgument_meets arguments 0).bind fun _ _ _ _ =>
        (write_meets _).bind fun _ _ _ _ => plain_meets rfl
  | varDump =>
      exact (look_meets id).bind fun _ _ _ _ => (write_meets _).bind fun _ _ _ _ => plain_meets rfl
  | gettype | isArray | isInt | isString | isNull => exact plain_meets rfl
  | strlen | strtoupper | strtolower | strrev | count | intval | strval =>
      exact (look_meets _).bind fun _ _ _ _ => plain_meets rfl

end TreeScript.Discipline
