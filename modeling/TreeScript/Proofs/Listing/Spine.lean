import TreeScript.Proofs.Listing.Tokens

set_option autoImplicit false

/- The left spine of a listed expression. The text of an expression or a place is that of a head, on
which nothing is called yet, followed by the texts of steps, each a call of a method on what stands
before it. The item is built again from its head and its steps. -/
namespace TreeScript.Code

/-! Texts, form by form -/

section texts

variable {e e' : Expr} {p : Place} {es : List Expr}

@[simp] theorem text_array {entries : List Entry} :
    (Expr.array entries).text = "[" ++ commaSeparated (entryTexts entries) ++ "]" := rfl

@[simp] theorem text_load : (Expr.load p).text = p.text ++ ".getValue()" := rfl

@[simp] theorem text_binary {o : BinaryOperator} :
    (Expr.binary e o e').text = e.text ++ "." ++ o.name ++ "(" ++ e'.text ++ ")" := rfl

@[simp] theorem text_assign : (Expr.assign p (.value e)).text = p.text ++ (".setValue(" ++ e.text ++ ")") :=
  rfl

@[simp] theorem text_assign_reference {q : Place} :
    (Expr.assign p (.reference q)).text =
      p.text ++ (".setReference(" ++ q.text ++ ".getReference())") := rfl

@[simp] theorem text_unary {o : UnaryOperator} :
    (Expr.unary o (.value e)).text = e.text ++ "." ++ o.name ++ "()" := rfl

@[simp] theorem text_unary_place {o : UnaryOperator} :
    (Expr.unary o (.place p)).text = p.text ++ "." ++ o.name ++ "()" := rfl

@[simp] theorem text_call : (Expr.call e es).text =
    "namespace.getFunction(" ++ e.text ++ ")(" ++ commaSeparated (exprTexts es) ++ ")" := rfl

@[simp] theorem text_callMethod : (Expr.callMethod e e' es).text =
    e.text ++ ".callMethod(" ++ e'.text ++ ", [" ++ commaSeparated (exprTexts es) ++ "])" := rfl

@[simp] theorem text_instantiate : (Expr.instantiate e es).text =
    "createInstance(" ++ e.text ++ ", [" ++ commaSeparated (exprTexts es) ++ "])" := rfl

@[simp] theorem text_conditional {c : Expr} : (Expr.conditional c e e').text =
    "(" ++ c.text ++ ".coerceToBoolean() ? " ++ e.text ++ " : " ++ e'.text ++ ")" := rfl

@[simp] theorem text_value : (Entry.value e).text = e.text := rfl

@[simp] theorem text_pair : (Entry.pair e e').text = e.text ++ " => " ++ e'.text := rfl

@[simp] theorem text_variable {name : String} : (Place.variable name).text = "$" ++ name := rfl

@[simp] theorem text_push : (Place.element (.value e) none).text = e.text ++ ".pushElement()" := rfl

@[simp] theorem text_implied_push :
    (Place.element (.implied p) none).text = (Base.implied p).text ++ ".pushElement()" := rfl

@[simp] theorem text_element : (Place.element (.value e) (some e')).text =
    e.text ++ ".getElementByKey(" ++ e'.text ++ ")" := rfl

@[simp] theorem text_implied_element : (Place.element (.implied p) (some e)).text =
    (Base.implied p).text ++ ".getElementByKey(" ++ e.text ++ ")" := rfl

@[simp] theorem text_list {places : List Place} :
    (Place.list places).text = "list(" ++ commaSeparated (placeTexts places) ++ ")" := rfl

@[simp] theorem text_implied : (Base.implied p).text = "implyArray(" ++ p.text ++ ")" := rfl

end texts

/-! Variables -/

mutual
/-- The names of the variables in an expression, at any depth. -/
def Expr.names : Expr → List String
  | .null | .boolean _ | .integer _ | .float _ | .string _ => []
  | .array entries => namesInEntries entries
  | .load place => place.names
  | .binary left _ right => left.names ++ right.names
  | .assign target source => target.names ++ source.names
  | .unary _ operand => operand.names
  | .call function arguments => function.names ++ namesInAll arguments
  | .callMethod object method arguments =>
      object.names ++ (method.names ++ namesInAll arguments)
  | .instantiate className arguments => className.names ++ namesInAll arguments
  | .conditional condition consequent alternate =>
      condition.names ++ (consequent.names ++ alternate.names)

def namesInAll : List Expr → List String
  | [] => []
  | e :: rest => e.names ++ namesInAll rest

def Entry.names : Entry → List String
  | .value e => e.names
  | .pair key e => key.names ++ e.names

def namesInEntries : List Entry → List String
  | [] => []
  | entry :: rest => entry.names ++ namesInEntries rest

def Source.names : Source → List String
  | .value e => e.names
  | .reference p => p.names

def Operand.names : Operand → List String
  | .value e => e.names
  | .place p => p.names

def Place.names : Place → List String
  | .variable name => [name]
  | .nullReference => []
  | .element base none => base.names
  | .element base (some key) => base.names ++ key.names
  | .list places => namesInPlaces places

def Base.names : Base → List String
  | .value e => e.names
  | .implied p => p.names

def namesInPlaces : List Place → List String
  | [] => []
  | p :: rest => p.names ++ namesInPlaces rest
end

/-! Items -/

/-- What a step can be applied to: an expression, a place, or a place whose null is replaced. -/
inductive Item where
  | expr (e : Expr)
  | place (p : Place)
  | implied (p : Place)

namespace Item

def chars : Item → List Char
  | .expr e => e.text.toList
  | .place p => p.text.toList
  | .implied p => (Base.implied p).text.toList

def names : Item → List String
  | .expr e => e.names
  | .place p | .implied p => p.names

end Item

/-! Steps -/

/-- The methods that a listing shows to be called. -/
inductive Verb where
  | getValue | setValue | setReference | callMethod | getElementByKey | pushElement
  | binary (o : BinaryOperator)
  | unary (o : UnaryOperator)

namespace Verb

def name : Verb → String
  | .getValue => "getValue"
  | .setValue => "setValue"
  | .setReference => "setReference"
  | .callMethod => "callMethod"
  | .getElementByKey => "getElementByKey"
  | .pushElement => "pushElement"
  | .binary o => o.name
  | .unary o => o.name

def all : List Verb :=
  [.getValue, .setValue, .setReference, .callMethod, .getElementByKey, .pushElement,
    .unary .plus, .unary .minus, .unary .complement, .unary .not, .unary .preIncrement,
    .unary .preDecrement, .unary .postIncrement, .unary .postDecrement] ++
    BinaryOperator.all.map .binary

def ofName (name : String) : Option Verb := all.find? (·.name == name)

theorem ofName_name (v : Verb) : ofName v.name = some v := by
  cases v with
  | binary o => cases o <;> rfl
  | unary o => cases o <;> rfl
  | _ => rfl

theorem name_injective {v v' : Verb} (same : v.name = v'.name) : v = v' := by
  have found := ofName_name v
  rw [same, ofName_name] at found
  exact (Option.some.inj found).symm

theorem name_letters (v : Verb) :
    '(' ∉ v.name.toList ∧ '\n' ∉ v.name.toList ∧
      ∃ c rest, v.name.toList = c :: rest ∧ c.isDigit = false := by
  cases v with
  | binary o => cases o <;> exact ⟨by decide, by decide, _, _, rfl, by decide⟩
  | unary o => cases o <;> exact ⟨by decide, by decide, _, _, rfl, by decide⟩
  | _ => exact ⟨by decide, by decide, _, _, rfl, by decide⟩

end Verb

def listed (parts : List String) : List Char := (commaSeparated parts).toList

/-- A method called on what stands before it. -/
inductive Step where
  | load
  | assignValue (e : Expr)
  | assignReference (p : Place)
  | callMethod (method : Expr) (arguments : List Expr)
  | element (key : Expr)
  | push
  | binary (o : BinaryOperator) (right : Expr)
  | unary (o : UnaryOperator)

namespace Step

/-- The item that a step makes of one. A step that does not apply leaves the item. -/
def apply : Item → Step → Item
  | .place p, .load => .expr (.load p)
  | .place p, .assignValue e => .expr (.assign p (.value e))
  | .place p, .assignReference q => .expr (.assign p (.reference q))
  | .expr e, .callMethod method arguments => .expr (.callMethod e method arguments)
  | .expr e, .element key => .place (.element (.value e) (some key))
  | .implied p, .element key => .place (.element (.implied p) (some key))
  | .expr e, .push => .place (.element (.value e) none)
  | .implied p, .push => .place (.element (.implied p) none)
  | .expr e, .binary o right => .expr (.binary e o right)
  | .expr e, .unary o => .expr (.unary o (.value e))
  | .place p, .unary o => .expr (.unary o (.place p))
  | item, _ => item

/-- What a step applies to: places can be loaded from and written to, expressions and implied places
have elements, and the rest is for expressions, or for both. -/
inductive Fits : Item → Step → Prop
  | load {p : Place} : Fits (.place p) .load
  | assignValue {p : Place} {e : Expr} : Fits (.place p) (.assignValue e)
  | assignReference {p q : Place} : Fits (.place p) (.assignReference q)
  | callMethod {e method : Expr} {arguments : List Expr} : Fits (.expr e) (.callMethod method arguments)
  | element {e key : Expr} : Fits (.expr e) (.element key)
  | impliedElement {p : Place} {key : Expr} : Fits (.implied p) (.element key)
  | push {e : Expr} : Fits (.expr e) .push
  | impliedPush {p : Place} : Fits (.implied p) .push
  | binary {e right : Expr} {o : BinaryOperator} : Fits (.expr e) (.binary o right)
  | unary {e : Expr} {o : UnaryOperator} : Fits (.expr e) (.unary o)
  | unaryPlace {p : Place} {o : UnaryOperator} : Fits (.place p) (.unary o)

def verb : Step → Verb
  | .load => .getValue
  | .assignValue _ => .setValue
  | .assignReference _ => .setReference
  | .callMethod _ _ => .callMethod
  | .element _ => .getElementByKey
  | .push => .pushElement
  | .binary o _ => .binary o
  | .unary o => .unary o

/-- What stands between the parentheses of a step. -/
def inside : Step → List Char
  | .load | .push | .unary _ => []
  | .assignValue e | .element e | .binary _ e => e.text.toList
  | .assignReference p => p.text.toList ++ ".getReference()".toList
  | .callMethod method arguments =>
      method.text.toList ++ ", [".toList ++ listed (exprTexts arguments) ++ "]".toList

def chars (s : Step) : List Char := '.' :: (s.verb.name.toList ++ '(' :: (s.inside ++ [')']))

/-- The items that stand between the parentheses of a step. -/
def parts : Step → List Item
  | .load | .push | .unary _ => []
  | .assignValue e | .element e | .binary _ e => [.expr e]
  | .assignReference p => [.place p]
  | .callMethod method arguments => .expr method :: arguments.map .expr

end Step

/-! Heads -/

/-- What a chain of steps begins with. -/
inductive Head where
  | null
  | boolean (b : Bool)
  | integer (n : Int64)
  | float (x : Float)
  | string (s : String)
  | array (entries : List Entry)
  | call (function : Expr) (arguments : List Expr)
  | instantiate (className : Expr) (arguments : List Expr)
  | conditional (condition consequent alternate : Expr)
  | variable (name : String)
  | nullReference
  | list (places : List Place)
  | implied (p : Place)

def Entry.parts : Entry → List Item
  | .value e => [.expr e]
  | .pair key e => [.expr key, .expr e]

namespace Head

def item : Head → Item
  | .null => .expr .null
  | .boolean b => .expr (.boolean b)
  | .integer n => .expr (.integer n)
  | .float x => .expr (.float x)
  | .string s => .expr (.string s)
  | .array entries => .expr (.array entries)
  | .call function arguments => .expr (.call function arguments)
  | .instantiate className arguments => .expr (.instantiate className arguments)
  | .conditional condition consequent alternate =>
      .expr (.conditional condition consequent alternate)
  | .variable name => .place (.variable name)
  | .nullReference => .place .nullReference
  | .list places => .place (.list places)
  | .implied p => .implied p

/-- The items inside a head. -/
def parts : Head → List Item
  | .null | .boolean _ | .integer _ | .float _ | .string _ | .variable _ | .nullReference => []
  | .array entries => entries.flatMap Entry.parts
  | .call function arguments => .expr function :: arguments.map .expr
  | .instantiate className arguments => .expr className :: arguments.map .expr
  | .conditional condition consequent alternate =>
      [.expr condition, .expr consequent, .expr alternate]
  | .list places => places.map .place
  | .implied p => [.place p]

end Head

/-! Lists -/

@[simp] theorem exprTexts_eq (es : List Expr) : exprTexts es = es.map Expr.text := by
  induction es with
  | nil => rfl
  | cons e rest ih => rw [exprTexts, ih, List.map_cons]

@[simp] theorem placeTexts_eq (ps : List Place) : placeTexts ps = ps.map Place.text := by
  induction ps with
  | nil => rfl
  | cons p rest ih => rw [placeTexts, ih, List.map_cons]

@[simp] theorem entryTexts_eq (entries : List Entry) :
    entryTexts entries = entries.map Entry.text := by
  induction entries with
  | nil => rfl
  | cons entry rest ih => rw [entryTexts, ih, List.map_cons]

theorem namesInAll_eq (es : List Expr) :
    namesInAll es = (es.map Item.expr).flatMap Item.names := by
  induction es with
  | nil => rfl
  | cons e rest ih =>
      rw [namesInAll, ih]
      rfl

theorem namesInPlaces_eq (ps : List Place) :
    namesInPlaces ps = (ps.map Item.place).flatMap Item.names := by
  induction ps with
  | nil => rfl
  | cons p rest ih =>
      rw [namesInPlaces, ih]
      rfl

theorem names_entry (entry : Entry) :
    entry.names = entry.parts.flatMap Item.names := by
  cases entry <;> simp [Entry.names, Entry.parts, Item.names]

theorem namesInEntries_eq (entries : List Entry) :
    namesInEntries entries = (entries.flatMap Entry.parts).flatMap Item.names := by
  induction entries with
  | nil => rfl
  | cons entry rest ih =>
      rw [namesInEntries, ih, names_entry, List.flatMap_cons, List.flatMap_append]

/-- The variables of a head are those of the items inside it, and the one it is. -/
theorem Head.names_item (h : Head) :
    h.parts.flatMap Item.names ⊆ h.item.names := by
  cases h <;>
    simp [Head.parts, Head.item, Item.names, Expr.names, Place.names,
      namesInEntries_eq, namesInAll_eq, namesInPlaces_eq]

/-! Spines -/

/-- An item as a head and its steps. -/
structure Spine (i : Item) (h : Head) (steps : List Step) : Prop where
  built : steps.foldl Step.apply h.item = i
  text : i.chars = h.item.chars ++ steps.flatMap Step.chars
  names : i.names =
    h.item.names ++ (steps.flatMap Step.parts).flatMap Item.names

section steps

variable {i : Item} {s : Step}

theorem chars_apply (fits : Step.Fits i s) : (s.apply i).chars = i.chars ++ s.chars := by
  cases fits <;>
    simp [Step.apply, Item.chars, Step.chars, Step.inside, Step.verb, Verb.name, listed]

theorem names_apply (fits : Step.Fits i s) :
    (s.apply i).names = i.names ++ s.parts.flatMap Item.names := by
  cases fits <;>
    simp [Step.apply, Item.names, Step.parts, Expr.names, Place.names, Base.names, Source.names,
      Operand.names, namesInAll_eq]

end steps

theorem Spine.head (h : Head) : Spine h.item h [] := ⟨rfl, by simp, by simp⟩

theorem Spine.step {i : Item} {h : Head} {steps : List Step} {s : Step} (spine : Spine i h steps)
    (fits : Step.Fits i s) : Spine (s.apply i) h (steps ++ [s]) where
  built := by simp [spine.built]
  text := by simp [chars_apply fits, spine.text]
  names := by simp [names_apply fits, spine.names]

/-! Induction over spines -/

/-- The item has a spine, and all items inside its head and its steps satisfy `P`. -/
inductive Spined (P : Item → Prop) (i : Item) : Prop
  | mk (h : Head) (steps : List Step) (spine : Spine i h steps) (inHead : ∀ part ∈ h.parts, P part)
      (inSteps : ∀ s ∈ steps, ∀ part ∈ s.parts, P part)

section induction

variable {P : Item → Prop}

theorem Spined.head (h : Head) (inHead : ∀ part ∈ h.parts, P part) : Spined P h.item :=
  .mk h [] (.head h) inHead (by simp)

theorem Spined.implied {p : Place} (holds : P (.place p)) : Spined P (.implied p) :=
  .head (.implied p) (List.forall_mem_singleton.mpr holds)

theorem Spined.step {i : Item} (spined : Spined P i) (s : Step) (fits : Step.Fits i s)
    (inStep : ∀ part ∈ s.parts, P part) : Spined P (s.apply i) := by
  obtain ⟨h, steps, spine, inHead, inSteps⟩ := spined
  refine .mk h (steps ++ [s]) (spine.step fits) inHead ?_
  intro t member
  rcases List.mem_append.mp member with early | last
  · exact inSteps t early
  · rw [List.mem_singleton.mp last]
    exact inStep

variable (whole : ∀ i, Spined P i → P i)

include whole

mutual
theorem Expr.spined : (e : Expr) → Spined P (.expr e)
  | .null => .head .null nofun
  | .boolean b => .head (.boolean b) nofun
  | .integer n => .head (.integer n) nofun
  | .float x => .head (.float x) nofun
  | .string s => .head (.string s) nofun
  | .array entries => .head (.array entries) (entries_spined entries)
  | .load p => (Place.spined p).step .load .load nofun
  | .binary left o right =>
      (Expr.spined left).step (.binary o right) .binary
        (List.forall_mem_singleton.mpr (whole _ (Expr.spined right)))
  | .assign target (.value e) =>
      (Place.spined target).step (.assignValue e) .assignValue
        (List.forall_mem_singleton.mpr (whole _ (Expr.spined e)))
  | .assign target (.reference p) =>
      (Place.spined target).step (.assignReference p) .assignReference
        (List.forall_mem_singleton.mpr (whole _ (Place.spined p)))
  | .unary o (.value e) => (Expr.spined e).step (.unary o) .unary nofun
  | .unary o (.place p) => (Place.spined p).step (.unary o) .unaryPlace nofun
  | .call function arguments =>
      .head (.call function arguments)
        (List.forall_mem_cons.mpr ⟨whole _ (Expr.spined function), exprs_spined arguments⟩)
  | .callMethod object method arguments =>
      (Expr.spined object).step (.callMethod method arguments) .callMethod
        (List.forall_mem_cons.mpr ⟨whole _ (Expr.spined method), exprs_spined arguments⟩)
  | .instantiate className arguments =>
      .head (.instantiate className arguments)
        (List.forall_mem_cons.mpr ⟨whole _ (Expr.spined className), exprs_spined arguments⟩)
  | .conditional condition consequent alternate =>
      .head (.conditional condition consequent alternate)
        (List.forall_mem_cons.mpr ⟨whole _ (Expr.spined condition),
          List.forall_mem_cons.mpr ⟨whole _ (Expr.spined consequent),
            List.forall_mem_singleton.mpr (whole _ (Expr.spined alternate))⟩⟩)

theorem Place.spined : (p : Place) → Spined P (.place p)
  | .variable name => .head (.variable name) nofun
  | .nullReference => .head .nullReference nofun
  | .list places => .head (.list places) (places_spined places)
  | .element (.value e) none => (Expr.spined e).step .push .push nofun
  | .element (.value e) (some key) =>
      (Expr.spined e).step (.element key) .element
        (List.forall_mem_singleton.mpr (whole _ (Expr.spined key)))
  | .element (.implied p) none => (Spined.implied (whole _ (Place.spined p))).step .push .impliedPush nofun
  | .element (.implied p) (some key) =>
      (Spined.implied (whole _ (Place.spined p))).step (.element key) .impliedElement
        (List.forall_mem_singleton.mpr (whole _ (Expr.spined key)))

theorem exprs_spined : (es : List Expr) → ∀ part ∈ es.map Item.expr, P part
  | [] => nofun
  | e :: rest => List.forall_mem_cons.mpr ⟨whole _ (Expr.spined e), exprs_spined rest⟩

theorem places_spined : (ps : List Place) → ∀ part ∈ ps.map Item.place, P part
  | [] => nofun
  | p :: rest => List.forall_mem_cons.mpr ⟨whole _ (Place.spined p), places_spined rest⟩

theorem entries_spined : (entries : List Entry) → ∀ part ∈ entries.flatMap Entry.parts, P part
  | [] => nofun
  | .value e :: rest =>
      List.forall_mem_cons.mpr ⟨whole _ (Expr.spined e), entries_spined rest⟩
  | .pair key e :: rest =>
      List.forall_mem_cons.mpr ⟨whole _ (Expr.spined key),
        List.forall_mem_cons.mpr ⟨whole _ (Expr.spined e), entries_spined rest⟩⟩
end

theorem Item.spined : (i : Item) → Spined P i
  | .expr e => Expr.spined whole e
  | .place p => Place.spined whole p
  | .implied p => .implied (whole _ (Place.spined whole p))

/-- A property of items holds if every item has it whose parts do. -/
theorem Item.induction (i : Item) : P i := whole i (Item.spined whole i)

end induction

end TreeScript.Code
