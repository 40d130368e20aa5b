import TreeScript.Proofs.Routes

set_option autoImplicit false

/- Destructuring. A list assigns to its locations one after the other, and what goes to each of them
is taken from the source when its turn comes. So it is what the source had when the assignment began
as long as no location before it is a part of the source. -/
namespace TreeScript

open Store (Closed Extends Private)

/-- What a list takes from a value at a position. -/
def Store.item (st : Store) (v : Value) (position : Nat) : Value :=
  match v with
  | .array a => (st.element? a (.integer (Int64.ofNat position))).getD .null
  | _ => .null

/-- What nested lists take from a value, by their positions. -/
def Store.itemAlong (st : Store) (v : Value) (path : List Nat) : Value := path.foldl st.item v

/-- The locations in nested lists that are no lists themselves, in order, each with its
positions. -/
def Location.leaves (path : List Nat) : Location → List (List Nat × Location)
  | .list elements => leavesOf path 0 elements
  | l => [(path, l)]
where
  leavesOf (path : List Nat) (position : Nat) : List Location → List (List Nat × Location)
    | [] => []
    | l :: rest => leaves (path ++ [position]) l ++ leavesOf path (position + 1) rest

/-- One assignment of a destructuring: the location and its positions, the value it is assigned and
what that was taken from, and the machine before and after. -/
structure Assignment where
  path : List Nat
  location : Location
  held : List Handle
  source : Value
  value : Value
  result : Value
  before : Machine
  after : Machine

/-- What is taken from a value at nested positions, as assignments follow each other. A position of
a list takes the item that the source of the list has when its turn comes, which is before the first
assignment to what stands there. -/
inductive TakenAt (log : List Assignment) (v : Value) : List Nat → Value → Prop
  | whole : TakenAt log v [] v
  | item {path : List Nat} {position : Nat} {source : Value} {first : Assignment}
      (outer : TakenAt log v path source)
      (turn : log.find? (fun a => (path ++ [position]).isPrefixOf a.path) = some first) :
      TakenAt log v (path ++ [position]) (first.before.store.item source position)

/-- The value is assigned, and it is what the source has at the position at that time. The source is
the whole value, or for a location in a nested list what the position of that list took from it. -/
structure Assignment.Due (log : List Assignment) (v : Value) (a : Assignment) : Prop where
  done : (a.location.set a.held a.value).run a.before = .ok a.result a.after
  taken : ∃ path position, a.path = path ++ [position] ∧ TakenAt log v path a.source ∧
    a.value = a.before.store.item a.source position

/-- Assignments that follow each other, from one machine to another. -/
inductive Linked : Machine → List Assignment → Machine → Prop
  | nil (m : Machine) : Linked m [] m
  | cons {a : Assignment} {rest : List Assignment} {m m' : Machine} (start : a.before = m)
      (later : Linked a.after rest m') : Linked m (a :: rest) m'

/-- What an assignment to a location may change of what is there: its slot, and the array or object
that it is in. -/
def Location.Touches (m : Machine) : Location → Handle → Prop
  | .variable name, h => ∃ scope ∈ m.scopes.head?, ∃ s, Assoc.get? scope name = some s ∧ h = .slot s
  | .detached s, h => h = .slot s
  | .element container key, h =>
      h ∈ container.handles ∨ ∃ k ∈ key, ∃ s, m.store.slotIn? container k = some s ∧ h = .slot s
  | .list _, _ => False

namespace Store

/-- The arrays of a value and their slots are in the second store as they are in the first. -/
structure Intact (st st' : Store) (v : Value) : Prop where
  slots : ∀ s, Private (fun _ => false) st v (.slot s) → st'.read s = st.read s
  arrays : ∀ a, Private (fun _ => false) st v (.array a) → st'.array a = st.array a

variable {st st' : Store} {v w : Value}

/-- What is taken from a value that is intact is what was there to take, and is a part of it. -/
theorem Intact.item (intact : Intact st st' v) (position : Nat)
    (part : ∀ a, w = .array a → Private (fun _ => false) st v (.array a)) :
    st'.item w position = st.item w position ∧
      ∀ a, st.item w position = .array a → Private (fun _ => false) st v (.array a) := by
  cases w with
  | array a =>
      have owner := part a rfl
      simp only [Store.item, element?, intact.arrays a owner]
      cases found : (st.array a).slot? (.integer (Int64.ofNat position)) with
      | none => exact ⟨rfl, fun _ => Value.noConfusion⟩
      | some s =>
          have holder : Private (fun _ => false) st v (.slot s) :=
            .slot owner (mem_handles_of_slot? found) rfl
          exact ⟨intact.slots s holder, fun b reads => .inner holder reads⟩
  | _ => exact ⟨rfl, fun _ => Value.noConfusion⟩

/-! What a put leaves -/

theorem read_put_of_ne {spot : Spot} {t : SlotId} (inside : (Handle.slot t).Within st.extent)
    (other : st.slotAt? spot ≠ some t) (v : Value) : (st.put spot v).read t = st.read t := by
  have ofSlot : ∀ s, st.slotAt? spot = some s → (st.write s v).read t = st.read t := by
    intro s found
    apply read_write_of_ne
    rintro rfl
    exact other found
  cases spot with
  | slot s => exact ofSlot s rfl
  | element a key =>
      simp only [put, insertElement]
      split
      · next s found => exact ofSlot s found
      · exact read_newSlot_of_lt st v t inside
  | append a => exact read_newSlot_of_lt st v t inside
  | property o name =>
      simp only [put, setProperty]
      split
      · next s found => exact ofSlot s found
      · exact read_newSlot_of_lt st v t inside

theorem array_put_of_ne {spot : Spot} {a : ArrayId} (other : spot.handle ≠ .array a) (v : Value) :
    (st.put spot v).array a = st.array a := by
  cases spot with
  | slot s => rfl
  | element b key =>
      simp only [put, insertElement]
      split
      · rfl
      · exact array_setArray_of_ne _ b a _ fun same => other (congrArg Handle.array same.symm)
  | append b =>
      exact array_setArray_of_ne _ b a _ fun same => other (congrArg Handle.array same.symm)
  | property o name =>
      simp only [put, setProperty]
      split <;> rfl

end Store

/-! One assignment -/

section assigned

variable {l : Location} {held : List Handle} {v w : Value} {m m' : Machine}

/-- An assignment to a location that is no list adds to the store and then puts a value, at a spot
that it touches. -/
theorem put_of_set (plain : ∀ elements, l ≠ .list elements)
    (known : ∀ h ∈ l.handles, h.Within m.store.extent)
    (assigned : (l.set held v).run m = .ok w m') :
    ∃ st spot, Extends m.store st ∧ m' = { m with store := st.put spot w } ∧
      (∀ t, (Handle.slot t).Within m.store.extent → st.slotAt? spot = some t →
        l.Touches m (.slot t)) ∧
      ∀ a, spot.handle = .array a → l.Touches m (.array a) := by
  cases l with
  | list elements => exact absurd rfl (plain elements)
  | detached s =>
      obtain ⟨st, copied, rfl⟩ := Location.of_run_set (.detached s) assigned
      refine ⟨st, .slot s, Store.copy_extends copied, rfl, fun t _ found => ?_, fun _ isArray => ?_⟩
      · exact congrArg Handle.slot (Option.some.inj found).symm
      · cases isArray
  | element container key =>
      cases key with
      | some k =>
          obtain ⟨spot, isSpot⟩ := Location.spot?_of_set assigned
          obtain ⟨st, copied, rfl⟩ := Location.of_run_set (.element isSpot) assigned
          have handles : container.handles = [spot.handle] := Value.handles_of_spot? isSpot
          have here : spot.handle.Within m.store.extent := by
            refine known _ ?_
            rw [Location.handles, handles]
            exact List.mem_cons_self
          have ext := Store.copy_extends copied
          refine ⟨st, spot, ext, rfl, fun t _ found => ?_, fun a isArray => .inl ?_⟩
          · rw [ext.slotAt? here, ← Store.slotIn?_of_spot? isSpot] at found
            exact .inr ⟨k, rfl, t, found, rfl⟩
          · rw [handles, isArray]
            exact List.mem_cons_self
      | none =>
          rw [Location.set] at assigned
          obtain ⟨copy, m₁, copied, assigned⟩ := Run.of_run_bind assigned
          obtain ⟨st, done, rfl⟩ := Run.of_run_copyValue copied
          cases container with
          | array a =>
              cases assigned
              refine ⟨st, .append a, Store.copy_extends done, rfl, fun t _ found => ?_,
                fun b isArray => .inl ?_⟩
              · cases found
              · cases isArray
                exact List.mem_cons_self
          | _ => cases assigned
  | «variable» name =>
      by_cases empty : m.scopes = []
      · rw [Location.set] at assigned
        obtain ⟨copy, m₁, copied, assigned⟩ := Run.of_run_bind assigned
        obtain ⟨st, done, rfl⟩ := Run.of_run_copyValue copied
        obtain ⟨s, m₂, isSlot, -⟩ := Run.of_run_bind assigned
        obtain ⟨scope, m₃, isScope, -⟩ := Run.of_run_bind isSlot
        rw [currentScope, Run.run_get_bind] at isScope
        simp only [empty] at isScope
        cases isScope
      obtain ⟨scope, outer, isScope⟩ := List.exists_cons_of_ne_nil empty
      cases bound : Assoc.get? scope name with
      | some s =>
          obtain ⟨st, copied, rfl⟩ := Location.of_run_set (.named isScope bound) assigned
          refine ⟨st, .slot s, Store.copy_extends copied, rfl, fun t _ found => ?_,
            fun _ isArray => ?_⟩
          · refine ⟨scope, ?_, s, bound, congrArg Handle.slot (Option.some.inj found).symm⟩
            rw [isScope]
            rfl
          · cases isArray
      | none =>
          rw [Location.set] at assigned
          obtain ⟨copy, m₁, copied, assigned⟩ := Run.of_run_bind assigned
          obtain ⟨st, done, rfl⟩ := Run.of_run_copyValue copied
          have inScope := Location.run_currentScope (m := { m with store := st }) isScope
          have unbound : (Location.variableSlot name).run { m with store := st } =
              .ok (st.newSlot .null).1 { m with store := (st.newSlot .null).2 } := by
            rw [Location.variableSlot, Run.run_bind inScope, bound]
            rfl
          rw [Run.run_bind unbound] at assigned
          cases assigned
          have ext := Store.copy_extends done
          refine ⟨(st.newSlot .null).2, .slot (st.newSlot .null).1,
            ext.trans (Store.extends_newSlot st .null), rfl, fun t inside found => ?_,
            fun _ isArray => ?_⟩
          · cases found
            exact absurd (inside.mono ext.grows) (Store.fresh_newSlot st .null).1
          · cases isArray

theorem extent_put (st : Store) (spot : Spot) (v : Value) :
    st.extent ≤ (st.put spot v).extent := by
  have change : Store.Adjusts (fun _ => True) v st (st.put spot v) :=
    Store.adjusts_put st spot v trivial fun _ _ => trivial
  exact change.grows

end assigned

/-! Turns -/

mutual
theorem prefix_of_mem_leaves : (l : Location) → ∀ {path : List Nat} {leaf : List Nat × Location},
    leaf ∈ l.leaves path → path <+: leaf.1
  | .list elements, path, leaf, member => by
      rw [Location.leaves] at member
      obtain ⟨k, -, below⟩ := prefix_of_mem_leavesOf elements member
      exact (List.prefix_append path [k]).trans below
  | .variable _, path, leaf, member | .detached _, path, leaf, member
  | .element _ _, path, leaf, member => by
      obtain rfl := List.mem_singleton.mp member
      exact List.prefix_rfl

theorem prefix_of_mem_leavesOf : (elements : List Location) → ∀ {path : List Nat} {position : Nat}
    {leaf : List Nat × Location}, leaf ∈ Location.leaves.leavesOf path position elements →
      ∃ k, position ≤ k ∧ path ++ [k] <+: leaf.1
  | [], path, position, leaf, member => by
      rw [Location.leaves.leavesOf] at member
      cases member
  | l :: rest, path, position, leaf, member => by
      rw [Location.leaves.leavesOf] at member
      rcases List.mem_append.mp member with here | later
      · exact ⟨position, le_refl _, prefix_of_mem_leaves l here⟩
      · obtain ⟨k, after, below⟩ := prefix_of_mem_leavesOf rest later
        exact ⟨k, Nat.le_of_succ_le after, below⟩
end

/-- No assignment is to what stands in the list at the path from the position on. -/
def Unreached (log : List Assignment) (path : List Nat) (position : Nat) : Prop :=
  ∀ a ∈ log, ∀ k, position ≤ k → ¬ path ++ [k] <+: a.path

section turns

variable {path : List Nat} {position : Nat} {early first : List Assignment}

theorem Unreached.inner (unreached : Unreached early path position) :
    Unreached early (path ++ [position]) 0 := fun a member k _ below =>
  unreached a member position (le_refl _) ((List.prefix_append _ [k]).trans below)

theorem Unreached.next (unreached : Unreached early path position)
    (here : ∀ a ∈ first, path ++ [position] <+: a.path) :
    Unreached (early ++ first) path (position + 1) := by
  intro a member k after below
  rcases List.mem_append.mp member with before | inside
  · exact unreached a before k (Nat.le_of_succ_le after) below
  · have same : path ++ [k] = path ++ [position] :=
      (List.prefix_of_prefix_length_le below (here a inside) (by simp)).eq_of_length (by simp)
    have : k = position := List.singleton_inj.mp (List.append_cancel_left same)
    omega

/-- The turn of a position comes with the first assignment to what stands there. -/
theorem TakenAt.inner {v source : Value} {a : Assignment} {late : List Assignment}
    (outer : TakenAt (early ++ a :: late) v path source)
    (unreached : Unreached early path position) (below : path ++ [position] <+: a.path) :
    TakenAt (early ++ a :: late) v (path ++ [position]) (a.before.store.item source position) := by
  refine .item outer ?_
  have none : early.find? (fun b => (path ++ [position]).isPrefixOf b.path) = none :=
    List.find?_eq_none.mpr fun b member isPrefix =>
      unreached b member position (le_refl _) (List.isPrefixOf_iff_prefix.mp isPrefix)
  rw [List.find?_append, none, Option.none_or]
  exact List.find?_cons_of_pos (List.isPrefixOf_iff_prefix.mpr below)

end turns

/-! All assignments -/

/-- Whatever assignments stand before and after these: if none before is to what stands in the list
from the position on, and the source was taken for the list, then each of these is due. -/
def DueFrom (v : Value) (path : List Nat) (position : Nat) (source : Value)
    (log : List Assignment) : Prop :=
  ∀ early late, Unreached early path position → TakenAt (early ++ (log ++ late)) v path source →
    ∀ a ∈ log, a.Due (early ++ (log ++ late)) v

/-- The location is no part of the value: an assignment to it changes nothing the value consists
of. -/
def Assignment.Clear (a : Assignment) (st : Store) (v : Value) : Prop :=
  ∀ h, a.location.Touches a.before h → ¬ Private (fun _ => false) st v h

/-- Each assignment up to the first that is not clear takes what the value had there in the store,
and the value is as it was then. -/
def Faithful (st : Store) (v : Value) : List Assignment → Prop
  | [] => True
  | a :: rest => (a.value = st.itemAlong v a.path ∧ Store.Intact st a.before.store v) ∧
      (a.Clear st v → Faithful st v rest)

theorem Faithful.append {st : Store} {v : Value} {first rest : List Assignment}
    (early : Faithful st v first)
    (late : (∀ a ∈ first, a.Clear st v) → Faithful st v rest) : Faithful st v (first ++ rest) := by
  induction first with
  | nil => exact late (by simp)
  | cons a first ih =>
      refine ⟨early.1, fun clear => ih (early.2 clear) fun others => ?_⟩
      exact late (List.forall_mem_cons.mpr ⟨clear, others⟩)

theorem Faithful.at {st : Store} {v : Value} {before after : List Assignment} {a : Assignment}
    (faithful : Faithful st v (before ++ a :: after)) (clear : ∀ b ∈ before, b.Clear st v) :
    a.value = st.itemAlong v a.path ∧ Store.Intact st a.before.store v := by
  induction before with
  | nil => exact faithful.1
  | cons b before ih =>
      obtain ⟨here, others⟩ := List.forall_mem_cons.mp clear
      exact ih (faithful.2 here) others

theorem Linked.append {m m₁ m' : Machine} {first rest : List Assignment}
    (early : Linked m first m₁) (late : Linked m₁ rest m') : Linked m (first ++ rest) m' := by
  induction early with
  | nil m => exact late
  | cons start later ih => exact .cons start (ih late)

/-- What is known of the assignments to the leaves of a location, from one machine to another. -/
structure Assigned (st : Store) (v : Value) (leaves : List (List Nat × Location)) (m : Machine)
    (log : List Assignment) (m' : Machine) : Prop where
  linked : Linked m log m'
  leaves : log.map (fun a => (a.path, a.location)) = leaves
  grows : m.store.extent ≤ m'.store.extent
  kept : Store.Intact st m.store v → (∀ a ∈ log, a.Clear st v) → Store.Intact st m'.store v

section log

variable {st : Store} {v : Value}

theorem Store.Intact.put {st₁ : Store} {m : Machine} {l : Location} {spot : Spot} {w : Value}
    (closed : st.Closed) (inside : ∀ h ∈ v.handles, h.Within st.extent)
    (grows : st.extent ≤ m.store.extent) (intact : Store.Intact st m.store v)
    (clear : ∀ h, l.Touches m h → ¬ Private (fun _ => false) st v h) (ext : Extends m.store st₁)
    (slots : ∀ t, (Handle.slot t).Within m.store.extent → st₁.slotAt? spot = some t →
      l.Touches m (.slot t))
    (arrays : ∀ a, spot.handle = .array a → l.Touches m (.array a)) :
    Store.Intact st (st₁.put spot w) v where
  slots s own := by
    have here := (own.among inside closed).mono grows
    rw [Store.read_put_of_ne (here.mono ext.grows) fun found => clear _ (slots s here found) own,
      ext.slots s here]
    exact intact.slots s own
  arrays a own := by
    have here := (own.among inside closed).mono grows
    rw [Store.array_put_of_ne fun isArray => clear _ (arrays a isArray) own, ext.arrays a here]
    exact intact.arrays a own

/-- A location that is no list has one assignment to it. -/
theorem assigned_of_set {l : Location} {path : List Nat} {position : Nat} {held : List Handle}
    {source w : Value} {m m' : Machine} (closed : st.Closed)
    (inside : ∀ h ∈ v.handles, h.Within st.extent) (grows : st.extent ≤ m.store.extent)
    (plain : ∀ elements, l ≠ .list elements) (known : ∀ h ∈ l.handles, h.Within m.store.extent)
    (ran : (l.set held (m.store.item source position)).run m = .ok w m') :
    Assigned st v [(path ++ [position], l)] m [⟨path ++ [position], l, held, source,
      m.store.item source position, w, m, m'⟩] m' := by
  obtain ⟨st₁, spot, ext, rfl, slots, arrays⟩ := put_of_set plain known ran
  refine ⟨.cons rfl (.nil _), rfl, ext.grows.trans (extent_put st₁ spot w), fun intact clear => ?_⟩
  exact intact.put closed inside grows (List.forall_mem_singleton.mp clear) ext slots arrays

theorem Assigned.append {leaves leaves' : List (List Nat × Location)} {m m₁ m' : Machine}
    {first rest : List Assignment} (early : Assigned st v leaves m first m₁)
    (late : Assigned st v leaves' m₁ rest m') :
    Assigned st v (leaves ++ leaves') m (first ++ rest) m' where
  linked := early.linked.append late.linked
  leaves := by rw [List.map_append, early.leaves, late.leaves]
  grows := early.grows.trans late.grows
  kept intact clear := by
    obtain ⟨clear, clear'⟩ := List.forall_mem_append.mp clear
    exact late.kept (early.kept intact clear) clear'

theorem run_itemAt (v : Value) (position : Nat) (m : Machine) :
    (Location.itemAt v position).run m = .ok (m.store.item v position) m := by
  cases v <;> rfl

theorem Assigned.below {l : Location} {path : List Nat} {m m' : Machine} {log : List Assignment}
    (assigned : Assigned st v (l.leaves path) m log m') : ∀ a ∈ log, path <+: a.path := by
  intro a member
  have isLeaf : (a.path, a.location) ∈ l.leaves path :=
    assigned.leaves ▸ List.mem_map_of_mem (f := fun a => (a.path, a.location)) member
  exact prefix_of_mem_leaves l isLeaf

theorem DueFrom.append {path : List Nat} {position : Nat} {source : Value}
    {first rest : List Assignment} (here : ∀ a ∈ first, path ++ [position] <+: a.path)
    (due : DueFrom v path position source first)
    (due' : DueFrom v path (position + 1) source rest) :
    DueFrom v path position source (first ++ rest) := by
  intro early late unreached taken
  refine List.forall_mem_append.mpr ⟨?_, ?_⟩
  · have isDue := due early (rest ++ late) unreached
    rw [← List.append_assoc first] at isDue
    exact isDue taken
  · have isDue := due' (early ++ first) late (unreached.next here)
    rw [List.append_assoc early, ← List.append_assoc first] at isDue
    exact isDue taken

theorem DueFrom.one {l : Location} {held : List Handle} {path : List Nat} {position : Nat}
    {source w : Value} {m m' : Machine}
    (ran : (l.set held (m.store.item source position)).run m = .ok w m') :
    DueFrom v path position source [⟨path ++ [position], l, held, source,
      m.store.item source position, w, m, m'⟩] := fun _ _ _ taken =>
  List.forall_mem_singleton.mpr ⟨ran, path, position, rfl, taken, rfl⟩

/-- The assignments of a nested list are due once the item that it destructures is taken. -/
theorem DueFrom.nested {leaves : List (List Nat × Location)} {path : List Nat} {position : Nat}
    {source : Value} {m m' : Machine} {log : List Assignment}
    (assigned : Assigned st v leaves m log m') (below : ∀ a ∈ log, path ++ [position] <+: a.path)
    (due : DueFrom v (path ++ [position]) 0 (m.store.item source position) log) :
    DueFrom v path position source log := by
  intro early late unreached taken a member
  refine due early late unreached.inner ?_ a member
  cases assigned.linked with
  | nil => cases member
  | cons start later =>
      rw [← start]
      exact taken.inner unreached (below _ List.mem_cons_self)

/-- The source is what the value had at the path, and a part of it. -/
structure Part (st : Store) (v : Value) (path : List Nat) (source : Value) : Prop where
  isItem : source = st.itemAlong v path
  arrays : ∀ a, source = .array a → Private (fun _ => false) st v (.array a)

theorem Part.item {path : List Nat} {source : Value} {m : Machine} (part : Part st v path source)
    (intact : Store.Intact st m.store v) (position : Nat) :
    Part st v (path ++ [position]) (m.store.item source position) := by
  obtain ⟨same, inner⟩ := intact.item position part.arrays
  refine ⟨?_, fun a isArray => inner a (same ▸ isArray)⟩
  rw [same, part.isItem, Store.itemAlong, Store.itemAlong, List.foldl_append]
  rfl

mutual
/-- What goes to the leaves of a location that takes the item at a position of a source. -/
theorem log_of_set (closed : st.Closed) (inside : ∀ h ∈ v.handles, h.Within st.extent) :
    (l : Location) → ∀ (path : List Nat) {position : Nat} {held : List Handle} {source w : Value}
      {m m' : Machine}, st.extent ≤ m.store.extent → (∀ h ∈ l.handles, h.Within m.store.extent) →
      (l.set held (m.store.item source position)).run m = .ok w m' →
      ∃ log, Assigned st v (l.leaves (path ++ [position])) m log m' ∧
        DueFrom v path position source log ∧
        (Store.Intact st m.store v → Part st v path source → Faithful st v log)
  | .list elements, path, position, held, source, w, m, m', grows, known, ran => by
      rw [Location.set] at ran
      obtain ⟨_, m₁, all, ran⟩ := Run.of_run_bind ran
      cases ran
      obtain ⟨log, assigned, due, faithful⟩ :=
        log_of_setAll closed inside elements (path ++ [position]) grows known all
      exact ⟨log, assigned, .nested assigned (Assigned.below (l := .list elements) assigned) due,
        fun intact part => faithful intact (part.item intact position)⟩
  | .variable _, path, position, held, source, w, m, m', grows, known, ran
  | .detached _, path, position, held, source, w, m, m', grows, known, ran
  | .element _ _, path, position, held, source, w, m, m', grows, known, ran =>
      ⟨_, assigned_of_set closed inside grows (fun _ => Location.noConfusion) known ran, .one ran,
        fun intact part => ⟨⟨(part.item intact position).isItem, intact⟩, fun _ => trivial⟩⟩

/-- What goes to the leaves of locations that take the items of a source from a position on. -/
theorem log_of_setAll (closed : st.Closed) (inside : ∀ h ∈ v.handles, h.Within st.extent) :
    (elements : List Location) → ∀ (path : List Nat) {position : Nat} {held : List Handle}
      {source : Value} {m m' : Machine}, st.extent ≤ m.store.extent →
      (∀ h ∈ Location.handles.handlesOfAll elements, h.Within m.store.extent) →
      (Location.setAll held source position elements).run m = .ok () m' →
      ∃ log, Assigned st v (Location.leaves.leavesOf path position elements) m log m' ∧
        DueFrom v path position source log ∧
        (Store.Intact st m.store v → Part st v path source → Faithful st v log)
  | [], path, position, held, source, m, m', grows, known, ran => by
      rw [Location.setAll] at ran
      cases ran
      have due : DueFrom v path position source [] := fun _ _ _ _ _ none =>
        absurd none List.not_mem_nil
      exact ⟨[], ⟨.nil m, rfl, le_refl _, fun intact _ => intact⟩, due, fun _ _ => trivial⟩
  | l :: rest, path, position, held, source, m, m', grows, known, ran => by
      obtain ⟨here, later⟩ := List.forall_mem_append.mp known
      rw [Location.setAll, Run.run_bind (run_itemAt source position m)] at ran
      obtain ⟨w, m₁, first, ran⟩ := Run.of_run_bind ran
      obtain ⟨log, early, due, faithful⟩ := log_of_set closed inside l path grows here first
      obtain ⟨log', late, due', faithful'⟩ :=
        log_of_setAll closed inside rest path (grows.trans early.grows)
          (fun h member => (later h member).mono early.grows) ran
      exact ⟨log ++ log', early.append late, due.append early.below due', fun intact part =>
        (faithful intact part).append fun clear => faithful' (early.kept intact clear) part⟩
end

end log

/-- A list assigns to its locations and to those of the lists in it one after the other, and to each
of them what its source has at its position then; the source of a list in it is what that list's own
position had when its turn came. What is assigned is what the value had there when the assignment
began, and that is as it was, if no location before it is a part of the value. -/
theorem destructured_in_turn (elements : List Location) (held : List Handle) (v w : Value)
    (m m' : Machine) (closed : m.store.Closed) (inside : ∀ h ∈ v.handles, h.Within m.store.extent)
    (known : ∀ h ∈ (Location.list elements).handles, h.Within m.store.extent)
    (ran : ((Location.list elements).set held v).run m = .ok w m') :
    w = v ∧ ∃ log, Linked m log m' ∧
      log.map (fun a => (a.path, a.location)) = (Location.list elements).leaves [] ∧
      (∀ a ∈ log, a.Due log v) ∧
      ∀ before a after, log = before ++ a :: after → (∀ b ∈ before, b.Clear m.store v) →
        a.value = m.store.itemAlong v a.path ∧ Store.Intact m.store a.before.store v := by
  rw [Location.set] at ran
  obtain ⟨_, m₁, all, ran⟩ := Run.of_run_bind ran
  cases ran
  obtain ⟨log, assigned, due, faithful⟩ :=
    log_of_setAll closed inside elements [] (le_refl _) known all
  have isDue := due [] [] fun _ none => absurd none List.not_mem_nil
  rw [List.nil_append, List.append_nil] at isDue
  refine ⟨rfl, log, assigned.linked, assigned.leaves, isDue .whole, ?_⟩
  rintro before a after rfl clear
  have intact : Store.Intact m.store m.store v := ⟨fun _ _ => rfl, fun _ _ => rfl⟩
  have part : Part m.store v [] v := ⟨rfl, fun a isArray => .array isArray⟩
  exact (faithful intact part).at clear

/-- A machine with the array `[[5], 6, 7]`, the variables `x` and `y`, and a slot of its own. -/
def beforeNestedList : Machine where
  store :=
    { slots := #[.array ⟨1⟩, .integer 5, .integer 6, .integer 7, .null, .null, .null]
      arrays := #[⟨[(.integer 0, ⟨0⟩), (.integer 1, ⟨2⟩), (.integer 2, ⟨3⟩)], 3, 0⟩,
        ⟨[(.integer 0, ⟨1⟩)], 1, 0⟩]
      objects := #[]
      classes := #[] }
  scopes := [[("x", ⟨4⟩), ("y", ⟨5⟩)]]
  names := .empty rootPath
  stdin := []
  stdout := .unlimited
  callDepth := 0
  callLimit := 1
  loops := []

/-- `list(list($x), , $y)` takes the 5 and the 7: the variables are no parts of the array. -/
theorem destructured_in_turn_nested :
    ∃ m' a b c, Linked beforeNestedList [a, b, c] m' ∧
      a.location = .variable "x" ∧ a.value = .integer 5 ∧
      c.location = .variable "y" ∧ c.value = .integer 7 := by
  have closed : beforeNestedList.store.Closed := Store.closed_of_contents (by decide +kernel)
  have own : ∀ h, Private (fun _ => false) beforeNestedList.store (.array ⟨0⟩) h →
      h ∈ [.array ⟨0⟩, .array ⟨1⟩, .slot ⟨0⟩, .slot ⟨1⟩, .slot ⟨2⟩, .slot ⟨3⟩] := fun h own =>
    own.among (P := (· ∈ [.array ⟨0⟩, .array ⟨1⟩, .slot ⟨0⟩, .slot ⟨1⟩, .slot ⟨2⟩, .slot ⟨3⟩]))
      (by decide +kernel) (by decide +kernel)
  have listed : ∀ h ∈ [Handle.array ⟨0⟩, .slot ⟨6⟩], h ∈ beforeNestedList.store.contents := by
    decide +kernel
  have known : ∀ h ∈ [Handle.array ⟨0⟩, .slot ⟨6⟩], h.Within beforeNestedList.store.extent :=
    fun h member => Store.mem_contents.mp (listed h member)
  obtain ⟨-, log, linked, leaves, -, taken⟩ :=
    destructured_in_turn [.list [.variable "x"], .detached ⟨6⟩, .variable "y"] [] (.array ⟨0⟩) _
      beforeNestedList _ closed
      (fun h member => known h (List.mem_cons.mpr (.inl (List.mem_singleton.mp member))))
      (fun h member => known h (List.mem_cons_of_mem _ member)) rfl
  obtain ⟨a, rest, rfl, isFirst, others⟩ := List.map_eq_cons_iff.mp leaves
  obtain ⟨b, rest, rfl, isSecond, others⟩ := List.map_eq_cons_iff.mp others
  obtain ⟨c, rest, rfl, isThird, others⟩ := List.map_eq_cons_iff.mp others
  obtain rfl := List.map_eq_nil_iff.mp others
  obtain ⟨path, location⟩ := Prod.mk.inj isFirst
  obtain ⟨-, location'⟩ := Prod.mk.inj isSecond
  obtain ⟨path'', location''⟩ := Prod.mk.inj isThird
  have clear : a.Clear beforeNestedList.store (.array ⟨0⟩) := by
    intro h touches inside
    cases linked with
    | cons start later =>
        rw [location, start] at touches
        obtain ⟨scope, isScope, s, isSlot, rfl⟩ := touches
        cases isScope
        cases isSlot
        exact absurd (own _ inside) (by decide)
  have clear' : b.Clear beforeNestedList.store (.array ⟨0⟩) := by
    intro h touches inside
    rw [location'] at touches
    obtain rfl : h = .slot ⟨6⟩ := touches
    exact absurd (own _ inside) (by decide)
  refine ⟨_, a, b, c, linked, location, ?_, location'', ?_⟩
  · rw [(taken [] a [b, c] rfl (by simp)).1, path]
    rfl
  · rw [(taken [a, b] c [] rfl (by simp [clear, clear'])).1, path'']
    rfl

/-- `list($a[1], $a[0]) = $a` for the array `[1, 2]`. -/
def overItself : Machine where
  store :=
    { slots := #[.array ⟨0⟩, .integer 1, .integer 2]
      arrays := #[⟨[(.integer 0, ⟨1⟩), (.integer 1, ⟨2⟩)], 2, 0⟩]
      objects := #[]
      classes := #[] }
  scopes := [[("a", ⟨0⟩)]]
  names := .empty rootPath
  stdin := []
  stdout := .unlimited
  callDepth := 0
  callLimit := 1
  loops := []

/-- The second location, the element 0, gets the 1 that the first has just put in the element 1, not
the 2 that was there when the assignment began. -/
theorem destructured_over_itself :
    ∃ m', ((Location.list [.element (.array ⟨0⟩) (some (.integer 1)),
        .element (.array ⟨0⟩) (some (.integer 0))]).set [] (.array ⟨0⟩)).run overItself =
          .ok (.array ⟨0⟩) m' ∧
      overItself.store.item (.array ⟨0⟩) 1 = .integer 2 ∧
      m'.store.element? ⟨0⟩ (.integer 0) = some (.integer 1) :=
  ⟨_, rfl, rfl, rfl⟩

end TreeScript
