import TreeScript.Proofs.Copying
import TreeScript.Proofs.Store.Gathering

set_option autoImplicit false

/- The sum of two arrays: a copy of the left one, to which copies of those elements of the right one
are added whose keys it does not have. Arrays under this sum are a monoid, in which each is its own
double. -/
namespace TreeScript

namespace Assoc

variable {α β γ : Type} [BEq α]

/-- The first entries, and after them the second under other keys. -/
def union (first second : List (α × β)) : List (α × β) :=
  first ++ second.filter fun entry => !contains first entry.1

theorem union_nil (entries : List (α × β)) : union entries [] = entries := by
  simp [union]

theorem nil_union (entries : List (α × β)) : union [] entries = entries := by
  have all : entries.filter (fun entry => !contains ([] : List (α × β)) entry.1) = entries :=
    List.filter_eq_self.mpr fun _ _ => rfl
  rw [union, all, List.nil_append]

theorem keys_union (first second : List (α × β)) :
    keys (union first second) =
      keys first ++ (keys second).filter fun key => !contains first key := by
  simp only [union, keys, List.map_append, List.filter_map, Function.comp_def]

theorem contains_map (entries : List (α × β)) (f : β → γ) (key : α) :
    contains (entries.map fun entry => (entry.1, f entry.2)) key = contains entries key := by
  rw [contains, get?_map, Option.isSome_map, contains]

theorem map_union (first second : List (α × β)) (f : β → γ) :
    (union first second).map (fun entry => (entry.1, f entry.2)) =
      union (first.map fun entry => (entry.1, f entry.2))
        (second.map fun entry => (entry.1, f entry.2)) := by
  simp only [union, List.map_append, List.filter_map, Function.comp_def, contains_map]

variable [LawfulBEq α]

theorem union_self (entries : List (α × β)) : union entries entries = entries := by
  have none : entries.filter (fun entry => !contains entries entry.1) = [] := by
    refine List.filter_eq_nil_iff.mpr fun entry member => ?_
    have known : contains entries entry.1 = true :=
      (contains_iff_mem_keys entries entry.1).mpr (List.mem_map.mpr ⟨entry, member, rfl⟩)
    simp [known]
  rw [union, none, List.append_nil]

theorem get?_filter (entries : List (α × β)) (test : α → Bool) (key : α) :
    get? (entries.filter fun entry => test entry.1) key =
      if test key then get? entries key else none := by
  induction entries with
  | nil => simp [get?]
  | cons entry rest ih =>
      obtain ⟨k, b⟩ := entry
      by_cases same : key = k
      · subst same
        cases passes : test key with
        | true => simp [passes, get?_cons_self]
        | false => simpa [passes] using ih
      · rw [get?_cons_of_ne rest b same, ← ih]
        cases passes : test k with
        | true =>
            rw [List.filter_cons_of_pos (by exact passes), get?_cons_of_ne _ b same]
        | false => rw [List.filter_cons_of_neg (by simp [passes])]

/-- What the first have under a key comes before what the second have there. -/
theorem get?_union (first second : List (α × β)) (key : α) :
    get? (union first second) key = (get? first key).or (get? second key) := by
  rw [union, get?_append, get?_filter second fun key => !contains first key]
  cases found : get? first key with
  | some b => rfl
  | none => simp [contains, found]

theorem contains_union (first second : List (α × β)) (key : α) :
    contains (union first second) key = (contains first key || contains second key) := by
  rw [contains, get?_union, Option.isSome_or, contains, contains]

/-- The third are left out under the keys of the first and under those of the second, whichever are
put together earlier. -/
theorem union_assoc (first second third : List (α × β)) :
    union (union first second) third = union first (union second third) := by
  have later : third.filter (fun entry => !contains (union first second) entry.1) =
      (third.filter fun entry => !contains second entry.1).filter
        (fun entry => !contains first entry.1) := by
    rw [List.filter_filter]
    congr 1
    funext entry
    rw [contains_union, Bool.not_or]
  calc union (union first second) third
      = union first second ++ third.filter fun entry => !contains (union first second) entry.1 :=
        rfl
    _ = first ++ (second ++ third.filter fun entry => !contains second entry.1).filter
          fun entry => !contains first entry.1 := by
        rw [later, List.filter_append, ← List.append_assoc, union]
    _ = union first (union second third) := rfl

theorem union_cons_of_mem {first rest : List (α × β)} {entry : α × β}
    (there : entry.1 ∈ keys first) : union first (entry :: rest) = union first rest := by
  have known := (contains_iff_mem_keys first entry.1).mpr there
  simp [union, known]

/-- An entry under a new key comes after the first, as long as none of the rest has this key. -/
theorem union_cons_of_absent {first rest : List (α × β)} {entry : α × β}
    (absent : entry.1 ∉ keys first) (once : entry.1 ∉ keys rest) :
    union first (entry :: rest) = union (first ++ [entry]) rest := by
  have unknown : contains first entry.1 = false := by
    rwa [← Bool.not_eq_true, contains_iff_mem_keys]
  have others : rest.filter (fun other => !contains (first ++ [entry]) other.1) =
      rest.filter fun other => !contains first other.1 := by
    refine List.filter_congr fun other member => ?_
    have apart : other.1 ≠ entry.1 := fun same =>
      once (same ▸ List.mem_map.mpr ⟨other, member, rfl⟩)
    have missing : get? [entry] other.1 = none := get?_cons_of_ne [] entry.2 apart
    rw [contains, get?_append, missing, Option.or_none, contains]
  rw [union, union, List.filter_cons_of_pos (by simp [unknown]), others, List.append_assoc,
    List.singleton_append]

end Assoc

namespace Store

/-- An array that can be copied, and with it what its shared slots hold: a copy keeps these slots,
but a sum copies every value that it takes from its right operand. -/
structure Summand (st : Store) (roots : List Handle) (a : ArrayId) : Prop where
  inside : (Handle.array a).Within st.extent
  wellFormed : (st.array a).WellFormed
  copied : (st.copy roots (.array a)).isSome = true
  shared : ∀ element ∈ (st.array a).elements, st.isShared roots element.2 = true →
    (st.copy roots (st.read element.2)).isSome = true

/-- A new array of a later store, with the elements of one array and after them those of another
under other keys. All that was there is as it was. -/
structure IsSum (st st' : Store) (a b u : ArrayId) : Prop where
  unchanged : Extends st st'
  new : Fresh st st' (.array u)
  keys : (st'.array u).keys =
    (st.array a).keys ++ (st.array b).keys.filter fun key => key ∉ (st.array a).keys
  elements : ∀ key, (st'.element? u key).map st'.face =
    ((st.element? a key).or (st.element? b key)).map st.face

/-- Two arrays with the same keys in the same order, the same key for the next element that is
appended, and the same snapshots. -/
structure ShowAlike (st : Store) (a b : ArrayId) : Prop where
  keys : (st.array a).keys = (st.array b).keys
  nextIndex : (st.array a).nextIndex = (st.array b).nextIndex
  snapshots : ∀ depth, st.snapshotWithin depth (.array a) = st.snapshotWithin depth (.array b)

/-- The sum of two arrays as further sums need it. -/
structure Summed (roots : List Handle) (st st' : Store) (a b u : ArrayId) : Prop where
  unchanged : Extends st st'
  closed : st'.Closed
  new : Fresh st st' (.array u)
  summand : st'.Summand roots u
  faces : st'.faces u = Assoc.union (st.faces a) (st.faces b)

variable {roots : List Handle} {st st' : Store} {a b u : ArrayId}

/-! Faces of arrays -/

theorem keys_faces (st : Store) (a : ArrayId) : Assoc.keys (st.faces a) = (st.array a).keys := by
  simp [Assoc.keys, faces, entries, ArrayData.keys]

theorem get?_faces (st : Store) (a : ArrayId) (key : Key) :
    Assoc.get? (st.faces a) key = (st.element? a key).map st.face := by
  rw [faces, Assoc.get?_map, entries, Assoc.get?_map]
  rfl

theorem showAlike_of_faces (good : (st.array a).WellFormed) (good' : (st.array b).WellFormed)
    (same : st.faces a = st.faces b) : st.ShowAlike a b := by
  have keys : (st.array a).keys = (st.array b).keys := by rw [← keys_faces, same, keys_faces]
  have shown : ∀ (c : ArrayId) (depth : Nat), st.snapshotWithin (depth + 1) (.array c) =
      .array ((st.faces c).map fun entry => (entry.1, entry.2.snapshots depth)) := by
    intro c depth
    simp only [snapshotWithin, faces, entries, List.map_map, Function.comp_def, face]
  refine ⟨keys, Int64.toInt_inj.mp ?_, fun depth => ?_⟩
  · rw [good.next, good'.next, keys]
  · cases depth with
    | zero => rfl
    | succ depth => rw [shown, shown, same]

/-! Summands -/

theorem Closed.entries (closed : st.Closed) (inside : (Handle.array a).Within st.extent) :
    ∀ entry ∈ st.entries a, ∀ h ∈ entry.2.handles, h.Within st.extent := by
  intro entry member
  obtain ⟨element, listed, rfl⟩ := List.mem_map.mp member
  exact closed.read (closed.element inside listed)

theorem Summand.copyable (summand : st.Summand roots a) (closed : st.Closed) :
    ∀ entry ∈ st.entries a, Copyable (st.isShared roots) st entry.2 := by
  intro entry member
  have inside := closed.entries summand.inside entry member
  obtain ⟨⟨key, s⟩, listed, rfl⟩ := List.mem_map.mp member
  have held : Handle.slot s ∈ (st.array a).handles := List.mem_map.mpr ⟨(key, s), listed, rfl⟩
  cases isShared : st.isShared roots s with
  | true => exact (copy_isSome_iff_copyable closed inside).mp (summand.shared _ listed isShared)
  | false =>
      have whole := (copy_isSome_iff_copyable (v := .array a) closed
        (by simpa [Value.handles] using summand.inside)).mp summand.copied
      cases whole with
      | plain plain => exact absurd rfl (plain a)
      | array elements => exact elements s held isShared

theorem summand_of_copyable (closed : st.Closed) (inside : (Handle.array a).Within st.extent)
    (wellFormed : (st.array a).WellFormed)
    (copyable : ∀ entry ∈ st.entries a, Copyable (st.isShared roots) st entry.2) :
    st.Summand roots a := by
  have each : ∀ s, Handle.slot s ∈ (st.array a).handles →
      Copyable (st.isShared roots) st (st.read s) := by
    intro s held
    obtain ⟨element, listed, isSlot⟩ := List.mem_map.mp held
    obtain rfl := Handle.slot.inj isSlot
    exact copyable _ (List.mem_map.mpr ⟨element, listed, rfl⟩)
  refine ⟨inside, wellFormed, ?_, fun element listed _ => ?_⟩
  · refine (copy_isSome_iff_copyable closed ?_).mpr (.array fun s held _ => each s held)
    simpa [Value.handles] using inside
  · have slot := closed.element inside listed
    exact (copy_isSome_iff_copyable closed (closed.read slot)).mpr
      (copyable _ (List.mem_map.mpr ⟨element, listed, rfl⟩))

theorem Extends.entries (ext : Extends st st') (closed : st.Closed)
    (inside : (Handle.array a).Within st.extent) : st'.entries a = st.entries a := by
  rw [Store.entries, ext.arrays a inside]
  refine List.map_congr_left fun element listed => ?_
  rw [ext.slots _ (closed.element inside listed)]

theorem Extends.faces (ext : Extends st st') (closed : st.Closed)
    (inside : (Handle.array a).Within st.extent) : st'.faces a = st.faces a := by
  rw [Store.faces, ext.entries closed inside]
  refine List.map_congr_left fun entry listed => ?_
  rw [ext.face closed (closed.entries inside entry listed)]

theorem Summand.later (summand : st.Summand roots a) (closed : st.Closed) (ext : Extends st st')
    (closed' : st'.Closed) : st'.Summand roots a := by
  refine summand_of_copyable closed' (summand.inside.mono ext.grows)
    (ext.arrays a summand.inside ▸ summand.wellFormed) fun entry member => ?_
  rw [ext.entries closed summand.inside] at member
  exact (summand.copyable closed entry member).later closed
    (closed.entries summand.inside entry member) ext (.refl roots)

/-- What has gathered the entries of two summands is their sum, and a summand itself. -/
theorem Gathers.summed
    (gathers : Gathers roots st st' u (Assoc.union (st.entries a) (st.entries b)))
    (closed : st.Closed) (left : st.Summand roots a) (right : st.Summand roots b) :
    Summed roots st st' a b u := by
  have among : ∀ entry ∈ Assoc.union (st.entries a) (st.entries b),
      entry ∈ st.entries a ∨ entry ∈ st.entries b := fun entry member =>
    (List.mem_append.mp member).imp_right List.mem_of_mem_filter
  have inside : ∀ entry ∈ Assoc.union (st.entries a) (st.entries b),
      ∀ h ∈ entry.2.handles, h.Within st.extent := fun entry member =>
    (among entry member).elim (closed.entries left.inside entry)
      (closed.entries right.inside entry)
  have copyable : ∀ entry ∈ Assoc.union (st.entries a) (st.entries b),
      Copyable (st.isShared roots) st entry.2 := fun entry member =>
    (among entry member).elim (left.copyable closed entry) (right.copyable closed entry)
  refine ⟨gathers.ext, gathers.closed, gathers.new, ?_, ?_⟩
  · exact summand_of_copyable gathers.closed gathers.new.2 gathers.wellFormed
      (gathers.copyable closed inside copyable)
  · rw [gathers.faces closed inside, Assoc.map_union, Store.faces, Store.faces]

theorem Summed.isSum (summed : Summed roots st st' a b u) : IsSum st st' a b u where
  unchanged := summed.unchanged
  new := summed.new
  keys := by
    rw [← keys_faces, summed.faces, Assoc.keys_union, keys_faces, keys_faces]
    congr 2
    funext key
    have known : Assoc.contains (st.faces a) key = true ↔ key ∈ (st.array a).keys := by
      rw [Assoc.contains_iff_mem_keys, keys_faces]
    rw [Bool.eq_iff_iff, Bool.not_eq_true', ← Bool.not_eq_true, known, decide_eq_true_iff]
  elements key := by
    rw [← get?_faces, summed.faces, Assoc.get?_union, get?_faces, get?_faces, Option.map_or]

/-- A sum that shows what a summand of the store shows is like it. -/
theorem Summed.showAlike {c : ArrayId} (summed : Summed roots st st' a b u) (closed : st.Closed)
    (summand : st.Summand roots c)
    (same : Assoc.union (st.faces a) (st.faces b) = st.faces c) : st'.ShowAlike u c := by
  refine showAlike_of_faces summed.summand.wellFormed ?_ ?_
  · rw [summed.unchanged.arrays c summand.inside]
    exact summand.wellFormed
  · rw [summed.faces, same, summed.unchanged.faces closed summand.inside]

end Store

/-! The run of a sum -/

section runs

variable {m : Machine} {held pending : List Handle} {a b u : ArrayId}
  {taken : List (Key × Value)}

theorem run_addIfMissing (key : Key) (s : SlotId) :
    (addIfMissing pending u key s).run m =
      (if ((m.store.array u).slot? key).isNone then do
        let v ← copyValue (.array u :: pending) (← Run.inspect (·.read s))
        Run.alter (·.put (.element u key) v)
      else pure ()).run m := Run.run_bind rfl

theorem run_addIfMissing_of_mem {key : Key} (there : key ∈ (m.store.array u).keys) (s : SlotId) :
    (addIfMissing pending u key s).run m = .ok () m := by
  have found : ((m.store.array u).slot? key).isNone = false := by
    rw [← Option.not_isSome, ((m.store.array u).slot?_isSome key).mpr there]
    rfl
  rw [run_addIfMissing, found]
  rfl

theorem run_addIfMissing_of_absent {key : Key} {s : SlotId} {v : Value} {st : Store}
    (absent : key ∉ (m.store.array u).keys)
    (copied : m.store.copy (m.roots ++ (m.store.read s).handles ++ .array u :: pending)
      (m.store.read s) = some (v, st)) :
    (addIfMissing pending u key s).run m =
      .ok () { m with store := st.put (.element u key) v } := by
  have missing : ((m.store.array u).slot? key).isNone = true := by
    rw [← Option.not_isSome, Bool.not_eq_true', ← Bool.not_eq_true,
      (m.store.array u).slot?_isSome key]
    exact absent
  have reads : (Run.inspect (·.read s)).run m = .ok (m.store.read s) m := rfl
  rw [run_addIfMissing, missing]
  exact (Run.run_bind reads).trans ((Run.run_bind (Run.run_copyValue copied)).trans rfl)

/-- More may be held between the roots and what else is held. -/
theorem sublist_roots (m : Machine) (more : List Handle) (kept : held.Sublist pending) :
    (m.roots ++ held).Sublist (m.roots ++ more ++ pending) :=
  (List.sublist_append_left m.roots more).append kept

/-- The entries whose keys are missing are gathered one after the other. -/
theorem run_addMissing {st : Store} (closed : st.Closed) (rest : List (Key × SlotId))
    (gathers : Store.Gathers (m.roots ++ held) st m.store u taken) (kept : held.Sublist pending)
    (inside : ∀ element ∈ rest, (Handle.slot element.2).Within st.extent)
    (distinct : (Assoc.keys rest).Nodup) (canonical : ∀ key ∈ Assoc.keys rest, key.Canonical)
    (copyable : ∀ element ∈ rest,
      Store.Copyable (st.isShared (m.roots ++ held)) st (st.read element.2)) :
    ∃ st', (addMissing pending u rest).run m = .ok () { m with store := st' } ∧
      Store.Gathers (m.roots ++ held) st st' u
        (Assoc.union taken (rest.map fun element => (element.1, st.read element.2))) := by
  induction rest generalizing m taken with
  | nil => exact ⟨m.store, rfl, by simpa [Assoc.union_nil] using gathers⟩
  | cons element rest ih =>
      obtain ⟨key, s⟩ := element
      obtain ⟨slot, slots⟩ := List.forall_mem_cons.mp inside
      obtain ⟨once, distinct⟩ := List.nodup_cons.mp distinct
      obtain ⟨good, canonical⟩ := List.forall_mem_cons.mp canonical
      obtain ⟨ends, copyable⟩ := List.forall_mem_cons.mp copyable
      by_cases there : key ∈ Assoc.keys taken
      · have step : (addIfMissing pending u key s).run m = .ok () m :=
          run_addIfMissing_of_mem (gathers.keys ▸ there) s
        obtain ⟨st', run, later⟩ := ih gathers slots distinct canonical copyable
        refine ⟨st', (Run.run_bind step).trans run, ?_⟩
        rwa [List.map_cons, Assoc.union_cons_of_mem there]
      · have within := closed.read slot
        have reads : m.store.read s = st.read s := gathers.ext.slots s slot
        have more := sublist_roots m (m.store.read s).handles (kept.cons (.array u))
        obtain ⟨⟨v, st₁⟩, copied⟩ := Option.isSome_iff_exists.mp
          ((Store.copy_isSome_iff_copyable gathers.closed
            fun h member => (within h member).mono gathers.ext.grows).mpr
            (ends.later closed within gathers.ext more))
        have added := gathers.add closed within there good more copied
        have step : (addIfMissing pending u key s).run m =
            .ok () { m with store := st₁.put (.element u key) v } := by
          rw [← reads] at copied
          exact run_addIfMissing_of_absent (gathers.keys ▸ there) copied
        obtain ⟨st', run, later⟩ :=
          ih (m := { m with store := st₁.put (.element u key) v }) added slots distinct canonical
            copyable
        refine ⟨st', (Run.run_bind step).trans run, ?_⟩
        have absent : key ∉
            Assoc.keys (rest.map fun element => (element.1, st.read element.2)) := by
          simpa [Assoc.keys] using once
        rwa [List.map_cons, Assoc.union_cons_of_absent there absent]

theorem run_uniteArrays (closed : m.store.Closed) (left : m.store.Summand (m.roots ++ held) a)
    (right : m.store.Summand (m.roots ++ held) b) (kept : held.Sublist pending) :
    ∃ u st, (uniteArrays pending a b).run m = .ok (.array u) { m with store := st } ∧
      Store.Gathers (m.roots ++ held) m.store st u
        (Assoc.union (m.store.entries a) (m.store.entries b)) := by
  have kept' : held.Sublist (.array a :: .array b :: pending) := (kept.cons _).cons _
  have within : ∀ h ∈ (Value.array a).handles, h.Within m.store.extent := by
    simpa [Value.handles] using left.inside
  have more := sublist_roots m (Value.array a).handles kept'
  have ends : Store.Copyable (m.store.isShared (m.roots ++ held)) m.store (.array a) :=
    (Store.copy_isSome_iff_copyable closed within).mp left.copied
  obtain ⟨⟨v, st⟩, copied⟩ := Option.isSome_iff_exists.mp
    ((Store.copy_isSome_iff_copyable closed within).mpr
      (ends.later closed within (.refl _) more))
  obtain ⟨u, rfl, gathers⟩ :=
    Store.gathers_copy closed left.inside left.wellFormed more copied
  have elements : (st.array b).elements = (m.store.array b).elements := by
    rw [gathers.ext.arrays b right.inside]
  obtain ⟨st', run, gathered⟩ := run_addMissing (m := { m with store := st }) closed
    (m.store.array b).elements gathers kept' (fun _ listed => closed.element right.inside listed)
    right.wellFormed.distinct right.wellFormed.canonical
    (fun _ listed => right.copyable closed _ (List.mem_map.mpr ⟨_, listed, rfl⟩))
  refine ⟨u, st', ?_, gathered⟩
  have adds : (addMissing (.array a :: .array b :: pending) u (st.array b).elements).run
      { m with store := st } = .ok () { m with store := st' } := elements ▸ run
  have read : (Run.inspect (·.array b)).run { m with store := st } =
      .ok (st.array b) { m with store := st } := rfl
  rw [uniteArrays, Run.run_bind (Run.run_copyValue copied)]
  simp only
  rw [Run.run_bind read, Run.run_bind adds]
  rfl

end runs

/-! The laws of sums -/

/-- Two arrays are added while at least `held` is held: that gives an array and changes nothing but
the store, and `next` holds of the array on the machine that is left. -/
def Machine.Sums (m : Machine) (held : List Handle) (a b : ArrayId)
    (next : ArrayId → Machine → Prop) : Prop :=
  ∀ pending, held.Sublist pending → ∃ u st,
    (applyBinary pending .add (.array a) (.array b)).run m =
      .ok (.array u) { m with store := st } ∧ next u { m with store := st }

/-- In a running session every array that can be copied is a summand. -/
theorem Machine.Sound.summand {m : Machine} {loose : Multiset ArrayId} {held : List Handle}
    {a : ArrayId} (sound : m.Sound loose) (rooted : .array a ∈ held)
    (inside : ∀ h ∈ held, h.Within m.store.extent) (wellFormed : (m.store.array a).WellFormed)
    (copied : (m.store.copy (m.roots ++ held) (.array a)).isSome = true) :
    m.store.Summand (m.roots ++ held) a where
  inside := inside _ rooted
  wellFormed := wellFormed
  copied := copied
  shared element listed := sound.copy_shared_isSome
    (.held (.root (List.mem_append_right m.roots rooted))
      (List.mem_map.mpr ⟨element, listed, rfl⟩)) inside

section laws

variable {m : Machine} {held : List Handle} {a b c : ArrayId}

theorem sums_of_summands {next : ArrayId → Machine → Prop} (closed : m.store.Closed)
    (left : m.store.Summand (m.roots ++ held) a) (right : m.store.Summand (m.roots ++ held) b)
    (later : ∀ u st, Store.Summed (m.roots ++ held) m.store st a b u →
      next u { m with store := st }) : m.Sums held a b next := by
  intro pending kept
  obtain ⟨u, st, run, gathers⟩ := run_uniteArrays closed left right kept
  exact ⟨u, st, run, later u st (gathers.summed closed left right)⟩

theorem sums_alike (closed : m.store.Closed) (left : m.store.Summand (m.roots ++ held) a)
    (right : m.store.Summand (m.roots ++ held) b) (like : m.store.Summand (m.roots ++ held) c)
    (same : Assoc.union (m.store.faces a) (m.store.faces b) = m.store.faces c) :
    m.Sums held a b fun u m' => m'.store.ShowAlike u c :=
  sums_of_summands closed left right fun _ _ summed => summed.showAlike closed like same

/-- The sums show the unions of what the arrays show, and these are the same. -/
theorem sums_assoc (closed : m.store.Closed) (first : m.store.Summand (m.roots ++ held) a)
    (second : m.store.Summand (m.roots ++ held) b)
    (third : m.store.Summand (m.roots ++ held) c) :
    m.Sums held a b fun ab m₁ => m₁.Sums held ab c fun left m₂ =>
      m₂.Sums held b c fun bc m₃ => m₃.Sums held a bc fun right m₄ =>
        m₄.store.ShowAlike left right := by
  refine sums_of_summands closed first second fun ab st₁ sumAB => ?_
  have third₁ := third.later closed sumAB.unchanged sumAB.closed
  refine sums_of_summands sumAB.closed sumAB.summand third₁ fun left st₂ sumLeft => ?_
  have ext₂ : Store.Extends m.store st₂ := sumAB.unchanged.trans sumLeft.unchanged
  have second₂ := second.later closed ext₂ sumLeft.closed
  have third₂ := third.later closed ext₂ sumLeft.closed
  refine sums_of_summands sumLeft.closed second₂ third₂ fun bc st₃ sumBC => ?_
  have ext₃ : Store.Extends m.store st₃ := ext₂.trans sumBC.unchanged
  have first₃ := first.later closed ext₃ sumBC.closed
  refine sums_of_summands sumBC.closed first₃ sumBC.summand fun right st₄ sumRight => ?_
  have leftLater : Store.Extends st₂ st₄ := sumBC.unchanged.trans sumRight.unchanged
  have shownLeft : st₄.faces left = Assoc.union
      (Assoc.union (m.store.faces a) (m.store.faces b)) (m.store.faces c) := by
    rw [leftLater.faces sumLeft.closed sumLeft.summand.inside, sumLeft.faces, sumAB.faces,
      sumAB.unchanged.faces closed third.inside]
  have shownRight : st₄.faces right = Assoc.union (m.store.faces a)
      (Assoc.union (m.store.faces b) (m.store.faces c)) := by
    rw [sumRight.faces, sumBC.faces, ext₃.faces closed first.inside,
      ext₂.faces closed second.inside, ext₂.faces closed third.inside]
  refine Store.showAlike_of_faces ?_ sumRight.summand.wellFormed ?_
  · rw [leftLater.arrays left sumLeft.summand.inside]
    exact sumLeft.summand.wellFormed
  · rw [shownLeft, shownRight, Assoc.union_assoc]

end laws

/-- The sum of two arrays that can be copied has the elements of the left one, and after them those
of the right one under other keys, and it leaves both as they were. Whichever two of three arrays
are added first, the sums are alike; and an array is alike to its sums with an empty one, on either
side, and with itself. -/
theorem array_sums (m : Machine) (held : List Handle) (a b c e : ArrayId)
    (closed : m.store.Closed)
    (summands : ∀ x ∈ [a, b, c, e], m.store.Summand (m.roots ++ held) x)
    (empty : (m.store.array e).keys = []) :
    (m.Sums held a b fun u m' => m.store.IsSum m'.store a b u) ∧
    (m.Sums held a b fun ab m₁ => m₁.Sums held ab c fun left m₂ =>
      m₂.Sums held b c fun bc m₃ => m₃.Sums held a bc fun right m₄ =>
        m₄.store.ShowAlike left right) ∧
    (m.Sums held a e fun u m' => m'.store.ShowAlike u a) ∧
    (m.Sums held e a fun u m' => m'.store.ShowAlike u a) ∧
    (m.Sums held a a fun u m' => m'.store.ShowAlike u a) := by
  have summandA : m.store.Summand (m.roots ++ held) a := summands a (by simp)
  have summandB : m.store.Summand (m.roots ++ held) b := summands b (by simp)
  have summandC : m.store.Summand (m.roots ++ held) c := summands c (by simp)
  have summandE : m.store.Summand (m.roots ++ held) e := summands e (by simp)
  have none : m.store.faces e = [] := by
    have keys := m.store.keys_faces e
    rw [empty] at keys
    simpa [Assoc.keys] using keys
  refine ⟨?_, ?_, ?_, ?_, ?_⟩
  · exact sums_of_summands closed summandA summandB fun _ _ summed => summed.isSum
  · exact sums_assoc closed summandA summandB summandC
  · exact sums_alike closed summandA summandE summandA (by rw [none, Assoc.union_nil])
  · exact sums_alike closed summandE summandA summandA (by rw [none, Assoc.nil_union])
  · exact sums_alike closed summandA summandA summandA (Assoc.union_self _)

/-- Three arrays and an empty one. The first holds an array of its own, and a slot that the second
holds too. -/
def overlapping : Store :=
  { slots := #[.integer 1, .array ⟨1⟩, .integer 5, .string "deep", .integer 9, .boolean true, .null]
    arrays := #[⟨[(.integer 0, ⟨0⟩), (.string "k", ⟨1⟩), (.integer 1, ⟨2⟩)], 2, 1⟩,
      ⟨[(.integer 4, ⟨3⟩)], 5, 0⟩,
      ⟨[(.integer 1, ⟨4⟩), (.integer 7, ⟨2⟩)], 8, 0⟩,
      ⟨[(.string "k", ⟨5⟩), (.integer (-3), ⟨6⟩)], 0, 2⟩,
      .empty]
    objects := #[]
    classes := #[] }

/-- The keys of the sum of the first two, and the sums of all three. -/
theorem array_sums_overlapping :
    let m : Machine :=
      { (Session.create .default false [] .unlimited .unlimited).boot ⟨[], [], 0⟩ with
        store := overlapping }
    let held : List Handle := [.array ⟨0⟩, .array ⟨2⟩, .array ⟨3⟩]
    overlapping.isShared held ⟨2⟩ = true ∧
    (m.Sums held ⟨0⟩ ⟨2⟩ fun u m' =>
      (m'.store.array u).keys = [.integer 0, .string "k", .integer 1, .integer 7]) ∧
    (m.Sums held ⟨0⟩ ⟨2⟩ fun ab m₁ => m₁.Sums held ab ⟨3⟩ fun left m₂ =>
      m₂.Sums held ⟨2⟩ ⟨3⟩ fun bc m₃ => m₃.Sums held ⟨0⟩ bc fun right m₄ =>
        m₄.store.ShowAlike left right) := by
  intro m held
  have summand : ∀ x ∈ [(⟨0⟩ : ArrayId), ⟨2⟩, ⟨3⟩, ⟨4⟩],
      m.store.Summand (m.roots ++ held) x := by
    intro x member
    have read : ∀ x ∈ [(⟨0⟩ : ArrayId), ⟨2⟩, ⟨3⟩, ⟨4⟩], ∀ key ∈ (m.store.array x).keys,
        Key.ofText key.text = key := by decide +kernel
    have checked : ∀ x ∈ [(⟨0⟩ : ArrayId), ⟨2⟩, ⟨3⟩, ⟨4⟩],
        x.index < m.store.arrays.size ∧ (m.store.array x).keys.Nodup ∧
        (m.store.array x).nextIndex.toInt =
          min Int64.maxValue.toInt (indexAfter (m.store.array x).keys) ∧
        (m.store.array x).pointer ≤ (m.store.array x).size ∧
        (m.store.copy (m.roots ++ held) (.array x)).isSome = true ∧
        ∀ element ∈ (m.store.array x).elements,
          m.store.isShared (m.roots ++ held) element.2 = true →
            (m.store.copy (m.roots ++ held) (m.store.read element.2)).isSome = true := by
      decide +kernel
    obtain ⟨inside, distinct, next, pointer, copied, shared⟩ := checked x member
    refine ⟨inside, ⟨distinct, fun key listed => ?_, next, pointer⟩, copied, shared⟩
    exact read x member key listed ▸ Key.canonical_ofText key.text
  obtain ⟨sum, assoc, -⟩ := array_sums m held ⟨0⟩ ⟨2⟩ ⟨3⟩ ⟨4⟩
    (Store.closed_of_contents (by decide +kernel)) summand rfl
  refine ⟨by decide +kernel, fun pending kept => ?_, assoc⟩
  obtain ⟨u, st, run, isSum⟩ := sum pending kept
  exact ⟨u, st, run, isSum.keys.trans (by decide)⟩

end TreeScript
