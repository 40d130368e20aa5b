import TreeScript.Evaluate
import TreeScript.Proofs.Run
import TreeScript.Proofs.Store.Guard
import TreeScript.Proofs.Store.Likeness

set_option autoImplicit false

/- How an object begins: an instantiation copies the defaults of its class into new slots, and these
show what the defaults show. -/
namespace TreeScript

open Store (Extends Guards)

/-- What the defaults of a class show. -/
def Store.defaultsShown (st : Store) (c : ClassId) : List (String × Snapshot) :=
  (st.classData c).properties.map fun entry => (entry.1, st.snapshot entry.2)

/-- What the properties of an object show. -/
def Store.propertiesShown (st : Store) (o : ObjectId) : List (String × Snapshot) :=
  (st.object o).properties.map fun entry => (entry.1, st.snapshot (st.read entry.2))

/-- What is left of an instantiation once the object is there: its constructor, if it has one. -/
def construct (user : UserCall) (data : ClassData) (object : Value) (frame : Frame) : Run Value :=
  match data.method? "__construct" with
  | some m => do
      let _ ← callWith user m frame
      pure object
  | none => pure object

/-- An instantiation by the name, if that is still the name of the class, comes to the constructor
with a new object of the class whose properties show what is given. -/
def Machine.Begins (m : Machine) (name : String) (c : ClassId)
    (shown : List (String × Snapshot)) : Prop :=
  m.names.class? name = some c →
    ∀ (user : UserCall) (arguments : List Value) (frame : Frame), ∃ (o : ObjectId) (st : Store),
      (instantiate user name arguments frame) m =
          (construct user (m.store.classData c) (.object o)
            (frame.forCall (some (.object o)) arguments)) { m with store := st } ∧
        Store.Fresh m.store st (.object o) ∧ (st.object o).classId = c ∧
        st.propertiesShown o = shown

/-- Where the copies of all defaults end, new slots show what the defaults show. -/
theorem newProperties_shows {st₀ : Store} (closed : st₀.Closed) (held : List Handle)
    (defaults : List (String × Value))
    (inside : ∀ entry ∈ defaults, ∀ h ∈ entry.2.handles, h.Within st₀.extent)
    (ends : ∀ entry ∈ defaults, ∀ st, Extends st₀ st → ∀ roots,
      (st.copy roots entry.2).isSome = true)
    {m : Machine} (ext : Extends st₀ m.store) (owned : m.store.Owned 0) :
    ∃ slots st, (newProperties held defaults).run m = .ok slots { m with store := st } ∧
      Extends m.store st ∧ st.Owned 0 ∧
      (∀ entry ∈ slots, (Handle.slot entry.2).Within st.extent) ∧
      slots.map (fun entry => (entry.1, st.snapshot (st.read entry.2))) =
        defaults.map fun entry => (entry.1, st₀.snapshot entry.2) := by
  induction defaults generalizing held m with
  | nil => exact ⟨[], m.store, rfl, .refl _, owned, by simp, rfl⟩
  | cons default rest ih =>
      obtain ⟨name, v⟩ := default
      obtain ⟨inside, insideRest⟩ := List.forall_mem_cons.mp inside
      obtain ⟨endsHere, endsRest⟩ := List.forall_mem_cons.mp ends
      obtain ⟨⟨v', st₁⟩, done⟩ := Option.isSome_iff_exists.mp
        (endsHere m.store ext (m.roots ++ v.handles ++ held))
      have here : ∀ h ∈ v.handles, h.Within m.store.extent :=
        fun h member => (inside h member).mono ext.grows
      obtain ⟨owned₁, known⟩ := owned.copy here done
      have ext₁ := Store.copy_extends done
      have ext₂ := Store.extends_newSlot st₁ v'
      have owned₂ := owned₁.newSlot known
      obtain ⟨more, st, ran, ext₃, owned₃, within, shows⟩ :=
        ih (.slot (st₁.newSlot v').1 :: held) insideRest endsRest
          (m := { m with store := (st₁.newSlot v').2 }) ((ext.trans ext₁).trans ext₂) owned₂
      have slot := (Store.fresh_newSlot st₁ v').2
      have reads : st.read (st₁.newSlot v').1 = v' := by
        rw [ext₃.slots _ slot, Store.read_newSlot_self]
      have same : st.snapshot v' = st₀.snapshot v :=
        calc st.snapshot v'
            = st₁.snapshot v' := (ext₂.trans ext₃).snapshotWithin owned₁.closed _ _ known
          _ = m.store.snapshot v :=
              (Store.copy_copied owned.closed here done).snapshotWithin ext₁ owned.closed here _
          _ = st₀.snapshot v := ext.snapshotWithin closed _ _ inside
      refine ⟨(name, (st₁.newSlot v').1) :: more, st, ?_, (ext₁.trans ext₂).trans ext₃, owned₃,
        List.forall_mem_cons.mpr ⟨slot.mono ext₃.grows, within⟩, ?_⟩
      · rw [newProperties, Run.run_bind (Run.run_copyValue done)]
        have made : (Run.update (·.newSlot v')).run { m with store := st₁ } =
            .ok (st₁.newSlot v').1 { m with store := (st₁.newSlot v').2 } := rfl
        rw [Run.run_bind made, Run.run_bind ran]
        rfl
      · simp only [List.map_cons, reads, same, shows]

theorem Store.guards_newObject (st : Store) (data : ObjectData) :
    Guards (·.Within st.extent) st (st.newObject data).2 where
  grows := by simp [Extent.le_def, extent, newObject]
  slots _ _ := rfl
  arrays _ _ := rfl
  objects o inside := by
    have earlier : o.index ≠ st.objects.size := Nat.ne_of_lt inside
    simp [newObject, Array.getElem?_push, earlier]
  classes _ _ := rfl

theorem run_findClass {m : Machine} {name : String} {c : ClassId}
    (named : m.names.class? name = some c) : (findClass name).run m = .ok c m := by
  rw [findClass, Run.run_get_bind, named]
  rfl

/-- Where the copies of all defaults end, an object begins with what they show. -/
theorem begins_of_copies {m : Machine} {c : ClassId} (name : String) (owned : m.store.Owned 0)
    (inside : (Handle.classData c).Within m.store.extent)
    (ends : ∀ entry ∈ (m.store.classData c).properties, ∀ st, Extends m.store st → ∀ roots,
      (st.copy roots entry.2).isSome = true) :
    m.Begins name c (m.store.defaultsShown c) := by
  intro named user arguments frame
  have values : ∀ entry ∈ (m.store.classData c).properties, ∀ h ∈ entry.2.handles,
      h.Within m.store.extent := fun entry member h held =>
    owned.closed _ inside h (List.mem_flatMap.mpr ⟨entry, member, held⟩)
  obtain ⟨slots, st, ran, ext, owned, within, shows⟩ := newProperties_shows owned.closed
    (.classData c :: (frame.forCall none arguments).held) _ values ends (.refl _) owned
  have looked : (Run.inspect (·.classData c)).run m = .ok (m.store.classData c) m := rfl
  have made : (Run.update (·.newObject ⟨c, slots⟩)).run { m with store := st } =
      .ok (st.newObject ⟨c, slots⟩).1 { m with store := (st.newObject ⟨c, slots⟩).2 } := rfl
  have object : (st.newObject ⟨c, slots⟩).2.object (st.newObject ⟨c, slots⟩).1 = ⟨c, slots⟩ := by
    simp [Store.object, Store.newObject]
  refine ⟨(st.newObject ⟨c, slots⟩).1, (st.newObject ⟨c, slots⟩).2, ?_,
    (Store.fresh_newObject st ⟨c, slots⟩).start ext.grows, ?_, ?_⟩
  · rw [instantiate, Run.run_bind (run_findClass named), Run.run_bind looked, Run.run_bind ran,
      Run.run_bind made]
    rfl
  · rw [object]
  · rw [Store.propertiesShown, object, Store.defaultsShown, ← shows]
    apply List.map_congr_left
    intro entry member
    have same := (st.guards_newObject ⟨c, slots⟩).snapshotWithin owned.closed (fun _ here => here)
      Store.snapshotLevels (st.read entry.2) (owned.closed _ (within entry member))
    exact congrArg (Prod.mk entry.1) same

end TreeScript
