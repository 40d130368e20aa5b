import TreeScript.Proofs.Listing.Items

set_option autoImplicit false

/- Lines of a listing. No line holds a line feed, so a listing determines its lines; and a line that
is not indented ends the lines of a block. -/
namespace TreeScript.Code

/-! Items stand on one line -/

theorem listed_oneLine {texts : List String} (each : ∀ text ∈ texts, '\n' ∉ text.toList) :
    '\n' ∉ listed texts := by
  induction texts with
  | nil => exact List.not_mem_nil
  | cons text rest ih =>
      obtain ⟨here, later⟩ := List.forall_mem_cons.mp each
      cases rest with
      | nil => simpa [listed, commaSeparated] using here
      | cons next others =>
          rw [listed_cons_cons]
          simpa [here] using ih later

theorem exprs_oneLine {es : List Expr} (inside : ∀ part ∈ es.map Item.expr, '\n' ∉ part.chars) :
    '\n' ∉ listed (exprTexts es) := by
  rw [exprTexts_eq]
  refine listed_oneLine fun text member => ?_
  obtain ⟨e, isElement, rfl⟩ := List.mem_map.mp member
  exact inside _ (List.mem_map_of_mem isElement)

theorem places_oneLine {ps : List Place} (inside : ∀ part ∈ ps.map Item.place, '\n' ∉ part.chars) :
    '\n' ∉ listed (placeTexts ps) := by
  rw [placeTexts_eq]
  refine listed_oneLine fun text member => ?_
  obtain ⟨p, isElement, rfl⟩ := List.mem_map.mp member
  exact inside _ (List.mem_map_of_mem isElement)

theorem entries_oneLine {entries : List Entry}
    (inside : ∀ part ∈ entries.flatMap Entry.parts, '\n' ∉ part.chars) :
    '\n' ∉ listed (entryTexts entries) := by
  rw [entryTexts_eq]
  refine listed_oneLine fun text member => ?_
  obtain ⟨entry, isElement, rfl⟩ := List.mem_map.mp member
  have inEntry : ∀ part ∈ entry.parts, '\n' ∉ part.chars := fun part isPart =>
    inside part (List.mem_flatMap.mpr ⟨entry, isElement, isPart⟩)
  cases entry with
  | value e => exact inEntry _ List.mem_cons_self
  | pair key e =>
      have inKey : '\n' ∉ key.text.toList := inEntry (.expr key) List.mem_cons_self
      have inValue : '\n' ∉ e.text.toList :=
        inEntry (.expr e) (List.mem_cons_of_mem _ List.mem_cons_self)
      simp [inKey, inValue]

theorem head_oneLine {h : Head} (named : Identifiers h.item.names)
    (inside : ∀ part ∈ h.parts, '\n' ∉ part.chars) : '\n' ∉ h.item.chars := by
  cases h with
  | null | nullReference => decide
  | boolean b => cases b <;> decide
  | integer n => exact (token_integer n.toInt).oneLine
  | float x => exact (token_float x).oneLine
  | string s => exact Text.newline_notMem_quote s
  | «variable» name =>
      have letters : '\n' ∉ name.toList := (token_name (named name List.mem_cons_self)).oneLine
      simpa [Head.item, Item.chars] using letters
  | implied p =>
      have inPlace : '\n' ∉ p.text.toList := inside _ List.mem_cons_self
      simpa [Head.item, Item.chars] using inPlace
  | array entries =>
      have inEntries := entries_oneLine inside
      simpa [Head.item, Item.chars, listed] using inEntries
  | list places =>
      have inPlaces := places_oneLine inside
      simpa [Head.item, Item.chars, listed] using inPlaces
  | call function arguments =>
      obtain ⟨inFunction, others⟩ := List.forall_mem_cons.mp inside
      have inFunction : '\n' ∉ function.text.toList := inFunction
      have inArguments := exprs_oneLine others
      simpa [Head.item, Item.chars, listed, inFunction] using inArguments
  | instantiate className arguments =>
      obtain ⟨inName, others⟩ := List.forall_mem_cons.mp inside
      have inName : '\n' ∉ className.text.toList := inName
      have inArguments := exprs_oneLine others
      simpa [Head.item, Item.chars, listed, inName] using inArguments
  | conditional condition consequent alternate =>
      obtain ⟨inCondition, others⟩ := List.forall_mem_cons.mp inside
      obtain ⟨inConsequent, others⟩ := List.forall_mem_cons.mp others
      have inCondition : '\n' ∉ condition.text.toList := inCondition
      have inConsequent : '\n' ∉ consequent.text.toList := inConsequent
      have inAlternate : '\n' ∉ alternate.text.toList := others _ List.mem_cons_self
      simp [Head.item, Item.chars, inCondition, inConsequent, inAlternate]

theorem step_oneLine {s : Step} (inside : ∀ part ∈ s.parts, '\n' ∉ part.chars) :
    '\n' ∉ s.chars := by
  have inVerb : '\n' ∉ s.verb.name.toList := s.verb.name_letters.2.1
  suffices within : '\n' ∉ s.inside by simpa [Step.chars, inVerb] using within
  cases s with
  | load | push | unary o => exact List.not_mem_nil
  | assignValue e | element e | binary o e => exact inside _ List.mem_cons_self
  | assignReference p =>
      have inPlace : '\n' ∉ p.text.toList := inside _ List.mem_cons_self
      simpa [Step.inside] using inPlace
  | callMethod method arguments =>
      obtain ⟨inMethod, others⟩ := List.forall_mem_cons.mp inside
      have inMethod : '\n' ∉ method.text.toList := inMethod
      have inArguments := exprs_oneLine others
      rw [exprTexts_eq] at inArguments
      simpa [Step.inside, inMethod] using inArguments

theorem item_oneLine (i : Item) : Identifiers i.names → '\n' ∉ i.chars := by
  refine Item.induction (P := fun i => Identifiers i.names → '\n' ∉ i.chars) ?_ i
  intro i spined named
  obtain ⟨h, steps, spine, inHead, inSteps⟩ := spined
  rw [spine.names] at named
  obtain ⟨namedHead, namedSteps⟩ := List.forall_mem_append.mp named
  rw [spine.text, List.mem_append, not_or]
  constructor
  · refine head_oneLine namedHead fun part member => inHead part member fun name mention => ?_
    exact namedHead name (h.names_item (List.mem_flatMap.mpr ⟨part, member, mention⟩))
  · intro member
    obtain ⟨s, isStep, there⟩ := List.mem_flatMap.mp member
    refine step_oneLine (fun part isPart => ?_) there
    refine inSteps s isStep part isPart fun name mention => namedSteps name ?_
    exact List.mem_flatMap.mpr ⟨part, List.mem_flatMap.mpr ⟨s, isStep, isPart⟩, mention⟩

/-! A listing and its lines -/

/-- No line feed is inside a line. -/
def OnOneLine (lines : List String) : Prop := ∀ line ∈ lines, '\n' ∉ line.toList

@[simp] theorem oneLine_nil : OnOneLine [] := nofun

@[simp] theorem oneLine_cons {line : String} {lines : List String} :
    OnOneLine (line :: lines) ↔ '\n' ∉ line.toList ∧ OnOneLine lines := List.forall_mem_cons

@[simp] theorem oneLine_append {lines lines' : List String} :
    OnOneLine (lines ++ lines') ↔ OnOneLine lines ∧ OnOneLine lines' := List.forall_mem_append

theorem toList_foldl_lines (lines : List String) (text : String) :
    (lines.foldl (fun text line => text ++ line ++ "\n") text).toList =
      text.toList ++ lines.flatMap fun line => line.toList ++ ['\n'] := by
  induction lines generalizing text with
  | nil => simp
  | cons line rest ih =>
      rw [List.foldl_cons, ih]
      simp

theorem lines_inj {lines lines' : List String} (single : OnOneLine lines)
    (single' : OnOneLine lines')
    (same : (lines.flatMap fun line => line.toList ++ ['\n']) =
      lines'.flatMap fun line => line.toList ++ ['\n']) : lines = lines' := by
  induction lines generalizing lines' with
  | nil =>
      cases lines' with
      | nil => rfl
      | cons line' rest' => simp at same
  | cons line rest ih =>
      cases lines' with
      | nil => simp at same
      | cons line' rest' =>
          obtain ⟨here, later⟩ := oneLine_cons.mp single
          obtain ⟨here', later'⟩ := oneLine_cons.mp single'
          simp only [List.flatMap_cons, List.append_assoc, List.singleton_append] at same
          obtain ⟨texts, others⟩ := Text.run_inj here here' same
          rw [String.toList_inj.mp texts, ih later later' others]

/-- A listing determines its lines. -/
theorem listing_lines {b b' : Block} (single : OnOneLine (blockLines b))
    (single' : OnOneLine (blockLines b')) (same : listing b = listing b') :
    blockLines b = blockLines b' := by
  have texts := congrArg String.toList same
  rw [listing, listing, toList_foldl_lines, toList_foldl_lines] at texts
  exact lines_inj single single' texts

/-! Indentation -/

/-- The line is at the outermost level of the lines it stands among. -/
def Outermost (line : String) : Prop := line.toList.head? ≠ some ' '

@[simp] theorem oneLine_indented {lines : List String} :
    OnOneLine (indented lines) ↔ OnOneLine lines := by
  simp [OnOneLine, indented]

theorem indented_append (first second : List String) :
    indented (first ++ second) = indented first ++ indented second := List.map_append

/-- What is indented ends with the first line that is not. -/
theorem indented_append_inj {first first' rest rest' : List String} {line line' : String}
    (outermost : Outermost line) (outermost' : Outermost line')
    (same : indented first ++ line :: rest = indented first' ++ line' :: rest') :
    first = first' ∧ line = line' ∧ rest = rest' := by
  have apart {line : String} (outermost : Outermost line) (inner : String) :
      line ≠ "    " ++ inner := by
    rintro rfl
    exact outermost (by simp)
  induction first generalizing first' with
  | nil =>
      cases first' with
      | nil => exact ⟨rfl, (List.cons.inj same).1, (List.cons.inj same).2⟩
      | cons inner' others' => exact absurd (List.cons.inj same).1 (apart outermost inner')
  | cons inner others ih =>
      cases first' with
      | nil => exact absurd (List.cons.inj same).1.symm (apart outermost' inner)
      | cons inner' others' =>
          obtain ⟨here, later⟩ := List.cons.inj same
          obtain ⟨rfl, lines, ends⟩ := ih later
          have texts : inner = inner' := by
            have chars := congrArg String.toList here
            rw [String.toList_append, String.toList_append] at chars
            exact String.toList_inj.mp (List.append_cancel_left chars)
          exact ⟨by rw [texts], lines, ends⟩

end TreeScript.Code
