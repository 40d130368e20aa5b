set_option autoImplicit false

/- Association lists that keep the order in which their keys first came. -/
namespace TreeScript.Assoc

variable {α β γ : Type} [BEq α]

def keys (entries : List (α × β)) : List α := entries.map (·.1)

def get? (entries : List (α × β)) (key : α) : Option β := entries.lookup key

def contains (entries : List (α × β)) (key : α) : Bool := (get? entries key).isSome

/-- Replaces the value of a key where it stands, or adds the key at the end. -/
def set : List (α × β) → α → β → List (α × β)
  | [], key, value => [(key, value)]
  | (k, v) :: rest, key, value =>
      if key == k then (k, value) :: rest else (k, v) :: set rest key value

theorem get?_cons_self [LawfulBEq α] (entries : List (α × β)) (key : α) (value : β) :
    get? ((key, value) :: entries) key = some value := by
  simp [get?]

theorem get?_cons_of_ne [LawfulBEq α] (entries : List (α × β)) {key other : α} (value : β)
    (different : other ≠ key) : get? ((key, value) :: entries) other = get? entries other := by
  simp [get?, List.lookup_cons, beq_false_of_ne different]

@[simp] theorem get?_set_self [LawfulBEq α] (entries : List (α × β)) (key : α) (value : β) :
    get? (set entries key value) key = some value := by
  induction entries with
  | nil => simp [set, get?]
  | cons entry rest ih =>
      obtain ⟨k, v⟩ := entry
      simp only [get?] at ih
      by_cases found : key == k
      · simp [set, get?, found, List.lookup_cons]
      · simp [set, get?, found, List.lookup_cons, ih]

theorem get?_set_of_ne [LawfulBEq α] (entries : List (α × β)) (key : α) (value : β)
    (other : α) (different : other ≠ key) :
    get? (set entries key value) other = get? entries other := by
  induction entries with
  | nil => simp [set, get?, List.lookup_cons, beq_false_of_ne different]
  | cons entry rest ih =>
      obtain ⟨k, v⟩ := entry
      simp only [get?] at ih
      by_cases found : key = k
      · have apart : (other == k) = false := beq_false_of_ne (found ▸ different)
        simp [set, get?, found, List.lookup_cons, apart]
      · simp [set, get?, found, List.lookup_cons, ih]

/-- A known key stays where it is, and a new one comes last. -/
theorem keys_set [LawfulBEq α] (entries : List (α × β)) (key : α) (value : β) :
    keys (set entries key value) =
      if key ∈ keys entries then keys entries else keys entries ++ [key] := by
  induction entries with
  | nil => simp [set, keys]
  | cons entry rest ih =>
      obtain ⟨k, v⟩ := entry
      simp only [keys] at ih
      by_cases found : key = k
      · simp [set, keys, found]
      · by_cases later : key ∈ rest.map (·.1) <;> simp [set, keys, found, later, ih]

theorem mem_of_get? [LawfulBEq α] {entries : List (α × β)} {key : α} {value : β}
    (found : get? entries key = some value) : (key, value) ∈ entries := by
  induction entries with
  | nil => simp [get?] at found
  | cons entry rest ih =>
      obtain ⟨k, v⟩ := entry
      simp only [get?, List.lookup_cons] at found ih
      by_cases same : key = k
      · simp_all
      · simp only [beq_false_of_ne same] at found
        exact List.mem_cons_of_mem _ (ih found)

theorem mem_set {entries : List (α × β)} {key : α} {value : β} {entry : α × β}
    (member : entry ∈ set entries key value) : entry ∈ entries ∨ entry.2 = value := by
  induction entries with
  | nil => simp_all [set]
  | cons first rest ih =>
      obtain ⟨k, v⟩ := first
      simp only [set] at member
      split at member
      · rcases List.mem_cons.mp member with rfl | later
        · exact Or.inr rfl
        · exact Or.inl (List.mem_cons_of_mem _ later)
      · rcases List.mem_cons.mp member with rfl | later
        · exact Or.inl List.mem_cons_self
        · exact (ih later).imp_left (List.mem_cons_of_mem _)

theorem eq_of_mem_set [LawfulBEq α] {entries : List (α × β)} {key : α} {value : β} {entry : α × β}
    (member : entry ∈ set entries key value) : entry ∈ entries ∨ entry = (key, value) := by
  induction entries with
  | nil => simp_all [set]
  | cons first rest ih =>
      obtain ⟨k, v⟩ := first
      simp only [set] at member
      split at member
      · next same =>
          obtain rfl : key = k := beq_iff_eq.mp same
          rcases List.mem_cons.mp member with rfl | later
          · exact Or.inr rfl
          · exact Or.inl (List.mem_cons_of_mem _ later)
      · rcases List.mem_cons.mp member with rfl | later
        · exact Or.inl List.mem_cons_self
        · exact (ih later).imp_left (List.mem_cons_of_mem _)

theorem contains_iff_mem_keys [LawfulBEq α] (entries : List (α × β)) (key : α) :
    contains entries key = true ↔ key ∈ keys entries := by
  induction entries with
  | nil => simp [contains, get?, keys]
  | cons entry rest ih =>
      obtain ⟨k, v⟩ := entry
      simp only [contains, get?, keys, List.lookup_cons, List.map_cons, List.mem_cons] at ih ⊢
      by_cases same : key = k
      · simp [same]
      · simp [same, beq_false_of_ne same, ih]

theorem set_of_absent [LawfulBEq α] {entries : List (α × β)} {key : α}
    (absent : get? entries key = none) (b : β) : set entries key b = entries ++ [(key, b)] := by
  induction entries with
  | nil => rfl
  | cons entry rest ih =>
      obtain ⟨k, b'⟩ := entry
      simp only [get?, List.lookup_cons] at absent ih
      by_cases same : key = k
      · simp [same] at absent
      · simp only [beq_false_of_ne same] at absent
        simp [set, same, ih absent]

theorem get?_eq_none [LawfulBEq α] {entries : List (α × β)} {key : α}
    (absent : key ∉ keys entries) : get? entries key = none := by
  rw [← contains_iff_mem_keys, contains, Bool.not_eq_true] at absent
  exact Option.isNone_iff_eq_none.mp (by simpa using absent)

theorem get?_append (entries more : List (α × β)) (key : α) :
    get? (entries ++ more) key = (get? entries key).or (get? more key) := List.lookup_append

theorem get?_append_of_some {entries : List (α × β)} {key : α} {b : β}
    (found : get? entries key = some b) (more : List (α × β)) :
    get? (entries ++ more) key = some b := by
  rw [get?_append, found, Option.some_or]

/-! Other values under the same keys -/

theorem map_set (entries : List (α × β)) (key : α) (b : β) (f : β → γ) :
    (set entries key b).map (fun entry => (entry.1, f entry.2)) =
      set (entries.map fun entry => (entry.1, f entry.2)) key (f b) := by
  induction entries with
  | nil => rfl
  | cons entry rest ih =>
      simp only [set, List.map_cons]
      split
      · rfl
      · simp only [List.map_cons, ih]

theorem get?_map (entries : List (α × β)) (f : β → γ) (key : α) :
    get? (entries.map fun entry => (entry.1, f entry.2)) key = (get? entries key).map f := by
  induction entries with
  | nil => rfl
  | cons entry rest ih =>
      obtain ⟨k, b⟩ := entry
      simp only [get?, List.map_cons, List.lookup_cons] at ih ⊢
      cases key == k with
      | true => rfl
      | false => exact ih

end TreeScript.Assoc
