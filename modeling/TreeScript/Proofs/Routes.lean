import TreeScript.Location
import TreeScript.Proofs.Run
import TreeScript.Proofs.Store.Route

set_option autoImplicit false

/- Nested elements as they are written and as they are read. Resolving one for a write follows the
keys and puts an empty array wherever it finds nothing or null; reading one follows the keys and
changes nothing. Both go the same way. -/
namespace TreeScript

open Store (Leads Gains Puts Closed Extends Fresh Copied Private)

namespace Location

/-- The element at the end of the keys, where everything on the way has become an array if it was
null or absent. -/
def resolve : Location → List Key → Run Location
  | l, [] => pure l
  | l, key :: keys => do
      let container ← l.imply
      (Location.element container (some key)).resolve keys

/-- The value at the end of the keys, as it is read. -/
def readAt : Location → List Key → Run Value
  | l, [] => l.get
  | l, key :: keys => do
      let container ← l.get
      (Location.element container (some key)).readAt keys

/-- The spot of a location: that of a variable or detached slot is the slot. -/
inductive At (m : Machine) : Location → Spot → Prop
  | named {name : String} {s : SlotId} {scope : Scope} {outer : List Scope}
      (isScope : m.scopes = scope :: outer) (bound : Assoc.get? scope name = some s) :
      At m (.variable name) (.slot s)
  | detached (s : SlotId) : At m (.detached s) (.slot s)
  | element {container : Value} {key : Key} {spot : Spot}
      (isSpot : container.spot? key = some spot) : At m (.element container (some key)) spot

variable {l target : Location} {m m' m₁ m₂ : Machine} {spot : Spot} {s : SlotId} {v w : Value}

theorem At.keyed (found : l.At m spot) (a : ArrayId) : spot ≠ .append a := by
  cases found with
  | named isScope bound => exact Spot.noConfusion
  | detached s => exact Spot.noConfusion
  | element isSpot => exact Value.spot?_ne_append isSpot a

/-- The store has no say in where a location is. -/
theorem At.store (found : l.At m spot) (st : Store) : l.At { m with store := st } spot := by
  cases found with
  | named isScope bound => exact .named isScope bound
  | detached s => exact .detached s
  | element isSpot => exact .element isSpot

theorem At.inside (found : l.At m (.slot s))
    (bound : ∀ scope ∈ m.scopes, ∀ entry ∈ scope, (Handle.slot entry.2).Within m.store.extent)
    (inside : ∀ h ∈ l.handles, h.Within m.store.extent) : (Handle.slot s).Within m.store.extent := by
  cases found with
  | named isScope isBound =>
      exact bound _ (isScope ▸ List.mem_cons_self) _ (Assoc.mem_of_get? isBound)
  | detached s => exact inside _ List.mem_cons_self
  | @element container key _ isSpot => cases container <;> cases isSpot

/-! What is done at a spot -/

theorem run_currentScope {scope : Scope} {outer : List Scope} (isScope : m.scopes = scope :: outer) :
    currentScope.run m = .ok scope m := by
  rw [currentScope, Run.run_get_bind, isScope]
  rfl

theorem run_variableSlot {name : String} {scope : Scope} {outer : List Scope}
    (isScope : m.scopes = scope :: outer) (bound : Assoc.get? scope name = some s) :
    (variableSlot name).run m = .ok s m := by
  rw [variableSlot, Run.run_bind (run_currentScope isScope), bound]
  rfl

theorem run_get (found : l.At m spot) (isSlot : m.store.slotAt? spot = some s) :
    l.get.run m = .ok (m.store.read s) m := by
  cases found with
  | named isScope bound =>
      cases isSlot
      rw [get, Run.run_bind (run_variableSlot isScope bound)]
      rfl
  | detached s =>
      cases isSlot
      rfl
  | @element container key _ isSpot =>
      cases container with
      | array a =>
          cases isSpot
          have reads : m.store.element? a key = some (m.store.read s) :=
            Option.map_eq_some_iff.mpr ⟨s, isSlot, rfl⟩
          change EStateM.Result.ok ((m.store.element? a key).getD .null) m = _
          rw [reads, Option.getD_some]
      | object o =>
          cases isSpot
          have reads : m.store.property? o key.text = some (m.store.read s) :=
            Option.map_eq_some_iff.mpr ⟨s, isSlot, rfl⟩
          change EStateM.Result.ok ((m.store.property? o key.text).getD .null) m = _
          rw [reads, Option.getD_some]
      | _ => cases isSpot

theorem run_implyIn_null (null : m.store.read s = .null) :
    (implyIn s).run m = .ok (.array (m.store.newArray .empty).1)
      { m with store := m.store.imply s } := by
  have reads : (Run.inspect (·.read s)).run m = .ok .null m := null ▸ rfl
  rw [implyIn, Run.run_bind reads]
  rfl

theorem run_implyIn_filled (filled : m.store.read s ≠ .null) :
    (implyIn s).run m = .ok (m.store.read s) m := by
  have reads : (Run.inspect (·.read s)).run m = .ok (m.store.read s) m := rfl
  rw [implyIn, Run.run_bind reads]
  generalize m.store.read s = v at filled
  cases v with
  | null => exact absurd rfl filled
  | _ => rfl

theorem run_presentElement {container : Value} {key : Key} (isSpot : container.spot? key = some spot) :
    (presentElement container (some key)).run m =
      .ok ((m.store.slotAt? spot).map m.store.read) m := by
  cases container with
  | array a =>
      cases isSpot
      rfl
  | object o =>
      cases isSpot
      rfl
  | _ => cases isSpot

theorem run_spotOf {container : Value} {key : Key} (isSpot : container.spot? key = some spot) :
    (spotOf container (some key)).run m = .ok spot m := by
  cases container with
  | array a =>
      cases isSpot
      rfl
  | object o =>
      cases isSpot
      rfl
  | _ => cases isSpot

/-- What is there and not null is taken as it is. -/
theorem run_imply_filled (found : l.At m spot) (isSlot : m.store.slotAt? spot = some s)
    (filled : m.store.read s ≠ .null) : l.imply.run m = .ok (m.store.read s) m := by
  cases found with
  | named isScope bound =>
      cases isSlot
      rw [imply, Run.run_bind (run_variableSlot isScope bound)]
      exact run_implyIn_filled filled
  | detached s =>
      cases isSlot
      exact run_implyIn_filled filled
  | element isSpot =>
      rw [imply, Run.run_bind (run_presentElement isSpot), isSlot, Option.map_some]
      generalize m.store.read s = v at filled
      cases v with
      | null => exact absurd rfl filled
      | _ => rfl

/-- Where there is nothing or null, an empty array is put. -/
theorem run_imply_empty (found : l.At m spot)
    (empty : ∀ s, m.store.slotAt? spot = some s → m.store.read s = .null)
    (null : (m.store.slotAt spot).2.read (m.store.slotAt spot).1 = .null) :
    l.imply.run m = .ok (.array ((m.store.slotAt spot).2.newArray .empty).1)
      { m with store := (m.store.slotAt spot).2.imply (m.store.slotAt spot).1 } := by
  cases found with
  | named isScope bound =>
      rw [imply, Run.run_bind (run_variableSlot isScope bound)]
      exact run_implyIn_null null
  | detached s => exact run_implyIn_null null
  | @element container key _ isSpot =>
      rw [imply, Run.run_bind (run_presentElement isSpot)]
      have added : (do
          let spot ← spotOf container (some key)
          implyIn (← Run.update (·.slotAt spot))).run m = .ok (.array
            ((m.store.slotAt spot).2.newArray .empty).1)
            { m with store := (m.store.slotAt spot).2.imply (m.store.slotAt spot).1 } := by
        have slot : (Run.update (·.slotAt spot)).run m = .ok (m.store.slotAt spot).1
            { m with store := (m.store.slotAt spot).2 } := rfl
        rw [Run.run_bind (run_spotOf isSpot), Run.run_bind slot]
        exact run_implyIn_null (m := { m with store := (m.store.slotAt spot).2 }) null
      cases isSlot : m.store.slotAt? spot with
      | none => exact added
      | some s =>
          rw [Option.map_some, empty s isSlot]
          exact added

/-- An element that can be resolved further is in an array or object. -/
theorem spot?_of_resolve {container : Value} {key last : Key} (keys : List Key)
    (resolved : ((Location.element container (some key)).resolve (keys ++ [last])).run m =
      .ok target m') : ∃ spot, container.spot? key = some spot := by
  have implied : ∃ v m₁, (Location.element container (some key)).imply.run m = .ok v m₁ := by
    cases keys with
    | nil =>
        obtain ⟨v, m₁, implied, -⟩ := Run.of_run_bind resolved
        exact ⟨v, m₁, implied⟩
    | cons key' keys =>
        obtain ⟨v, m₁, implied, -⟩ := Run.of_run_bind resolved
        exact ⟨v, m₁, implied⟩
  obtain ⟨v, m₁, implied⟩ := implied
  cases container with
  | array a => exact ⟨_, rfl⟩
  | object o => exact ⟨_, rfl⟩
  | _ => cases implied

theorem spot?_of_set {container : Value} {key : Key} {held : List Handle}
    (assigned : ((Location.element container (some key)).set held v).run m = .ok w m') :
    ∃ spot, container.spot? key = some spot := by
  rw [set] at assigned
  obtain ⟨copy, m₁, -, assigned⟩ := Run.of_run_bind assigned
  cases container with
  | array a => exact ⟨_, rfl⟩
  | object o => exact ⟨_, rfl⟩
  | _ => cases assigned

/-- An assignment puts a copy at the spot. -/
theorem of_run_set (found : l.At m spot) {held : List Handle}
    (assigned : (l.set held v).run m = .ok w m') :
    ∃ st, m.store.copy (m.roots ++ v.handles ++ (l.handles ++ held)) v = some (w, st) ∧
      m' = { m with store := st.put spot w } := by
  cases found with
  | named isScope bound =>
      rw [set] at assigned
      obtain ⟨copy, m₁, copied, assigned⟩ := Run.of_run_bind assigned
      obtain ⟨st, done, rfl⟩ := Run.of_run_copyValue copied
      have slot := run_variableSlot (m := { m with store := st }) isScope bound
      rw [Run.run_bind slot] at assigned
      cases assigned
      exact ⟨st, done, rfl⟩
  | detached s =>
      rw [set] at assigned
      obtain ⟨copy, m₁, copied, assigned⟩ := Run.of_run_bind assigned
      obtain ⟨st, done, rfl⟩ := Run.of_run_copyValue copied
      cases assigned
      exact ⟨st, done, rfl⟩
  | element isSpot =>
      rw [set] at assigned
      obtain ⟨copy, m₁, copied, assigned⟩ := Run.of_run_bind assigned
      obtain ⟨st, done, rfl⟩ := Run.of_run_copyValue copied
      rw [Run.run_bind (run_spotOf isSpot)] at assigned
      cases assigned
      exact ⟨st, done, rfl⟩

/-! The way of a read and the way of a write -/

theorem run_readAt {keys : List Key} {passed : List SlotId} {u : SlotId} (found : l.At m spot)
    (isSlot : m.store.slotAt? spot = some s) (leads : Leads m.store s keys passed u) :
    (l.readAt keys).run m = .ok (m.store.read u) m := by
  induction leads generalizing l spot with
  | here s => exact run_get found isSlot
  | step first rest ih =>
      obtain ⟨next, isSpot, isSlot'⟩ := Option.bind_eq_some_iff.mp first
      rw [readAt, Run.run_bind (run_get found isSlot)]
      exact ih (.element isSpot) isSlot'

/-- Either there is something that is not null, and nothing changes, or a new and empty array is
put. -/
theorem imply_cases (found : l.At m spot) (closed : m.store.Closed)
    (here : spot.handle.Within m.store.extent) (implied : l.imply.run m = .ok v m') :
    (∃ s, m.store.slotAt? spot = some s ∧ m.store.read s = v ∧ v ≠ .null ∧ m' = m) ∨
      (∀ t, m.store.slotAt? spot = some t → m.store.read t = .null) ∧
        ∃ s a st, v = .array a ∧ m' = { m with store := st } ∧ Puts spot s (.array a) m.store st ∧
          Fresh m.store st (.array a) ∧ st.array a = .empty ∧ st.Closed := by
  by_cases empty : ∀ t, m.store.slotAt? spot = some t → m.store.read t = .null
  · obtain ⟨null, a, isNew, puts, fresh, noElement, closed'⟩ :=
      Store.puts_imply closed here found.keyed empty
    rw [run_imply_empty found empty null, ← isNew] at implied
    cases implied
    exact .inr ⟨empty, _, a, _, rfl, rfl, puts, fresh, noElement, closed'⟩
  · obtain ⟨s, isSlot, filled⟩ : ∃ s, m.store.slotAt? spot = some s ∧ m.store.read s ≠ .null := by
      simpa using empty
    rw [run_imply_filled found isSlot filled] at implied
    cases implied
    exact .inl ⟨s, isSlot, rfl, filled, rfl⟩

/-- What resolving from a spot along keys leaves: a way through what was passed to the last slot,
which holds a container. Only what was passed and held null is different, and at most one array or
object has gained an element; if so, the container is new. -/
structure Resolution (spot : Spot) (keys : List Key) (st st' : Store) (passed : List SlotId)
    (u : SlotId) : Prop where
  closed : st'.Closed
  grows : st.extent ≤ st'.extent
  classes : st'.classes = st.classes
  route : ∃ s, st'.slotAt? spot = some s ∧ Leads st' s keys passed u
  container : st'.read u ≠ .null
  filled : ∀ t, st.read t ≠ .null → st'.read t = st.read t
  others : ∀ t, (Handle.slot t).Within st.extent → t ∉ passed ++ [u] → st'.read t = st.read t
  slots : ∀ other t, st.slotAt? other = some t → st'.slotAt? other = some t
  gained : st' = st ∨
    (∃ sp, (sp = spot ∨ ∃ pair ∈ passed.zip keys, (st'.read pair.1).spot? pair.2 = some sp) ∧
        Gains sp st st') ∧
      ∀ h ∈ (st'.read u).handles, ¬ h.Within st.extent
  empty : (∀ t, st.slotAt? spot = some t → st.read t = .null) →
    Gains spot st st' ∧ ∀ h ∈ (st'.read u).handles, ¬ h.Within st.extent

section resolution

variable {st st₁ st' : Store} {keys : List Key} {key : Key} {passed : List SlotId} {u : SlotId}
  {a : ArrayId} {next : Spot}

theorem Resolution.ofFilled (closed : st.Closed) (isSlot : st.slotAt? spot = some s)
    (filled : st.read s ≠ .null) : Resolution spot [] st st [] s where
  closed
  grows := le_refl _
  classes := rfl
  route := ⟨s, isSlot, .here s⟩
  container := filled
  filled _ _ := rfl
  others _ _ _ := rfl
  slots _ _ there := there
  gained := .inl rfl
  empty empty := absurd (empty s isSlot) filled

/-- A slot that was there keeps what it held unless that was null. -/
theorem filled_of_puts (puts : Puts spot s v st st')
    (empty : ∀ t, st.slotAt? spot = some t → st.read t = .null) (t : SlotId)
    (filled : st.read t ≠ .null) : st'.read t = st.read t := by
  refine puts.others t (Store.inside_of_reads filled) ?_
  rintro rfl
  rcases puts.before with found | ⟨-, fresh⟩
  · exact filled (empty t found)
  · exact fresh.1 (Store.inside_of_reads filled)

theorem Resolution.ofEmpty (closed : st'.Closed)
    (empty : ∀ t, st.slotAt? spot = some t → st.read t = .null)
    (puts : Puts spot s (.array a) st st') (fresh : Fresh st st' (.array a)) :
    Resolution spot [] st st' [] s := by
  have new : ∀ h ∈ (st'.read s).handles, ¬ h.Within st.extent := by
    intro h member
    rw [puts.value] at member
    exact List.mem_singleton.mp member ▸ fresh.1
  exact {
    closed
    grows := puts.grows
    classes := puts.classes
    route := ⟨s, puts.slot, .here s⟩
    container := by
      rw [puts.value]
      exact Value.noConfusion
    filled := filled_of_puts puts empty
    others := fun t inside other => puts.others t inside (by simpa using other)
    slots := fun _ _ => puts.toGains.slotAt?
    gained := .inr ⟨⟨spot, .inl rfl, puts.toGains⟩, new⟩
    empty := fun _ => ⟨puts.toGains, new⟩ }

/-- One level that is there, and then the rest. -/
theorem Resolution.consFilled (isSlot : st.slotAt? spot = some s) (filled : st.read s ≠ .null)
    (isSpot : (st.read s).spot? key = some next) (rest : Resolution next keys st st' passed u) :
    Resolution spot (key :: keys) st st' (s :: passed) u := by
  have reads := rest.filled s filled
  obtain ⟨t, found, leads⟩ := rest.route
  exact {
    closed := rest.closed
    grows := rest.grows
    classes := rest.classes
    route := by
      refine ⟨s, rest.slots _ _ isSlot, .step ?_ leads⟩
      rw [reads, Store.slotIn?_of_spot? isSpot, found]
    container := rest.container
    filled := rest.filled
    others := fun t inside other =>
      rest.others t inside fun member => other (List.mem_cons_of_mem _ member)
    slots := rest.slots
    gained := by
      refine rest.gained.imp_right ?_
      rintro ⟨⟨sp, onWay, gains⟩, new⟩
      refine ⟨⟨sp, .inr ?_, gains⟩, new⟩
      rcases onWay with rfl | ⟨pair, member, onWay⟩
      · exact ⟨(s, key), List.mem_cons_self, by rw [reads, isSpot]⟩
      · exact ⟨pair, List.mem_cons_of_mem _ member, onWay⟩
    empty := fun empty => absurd (empty s isSlot) filled }

/-- One level that is put, and then the rest, all of it in what is new. -/
theorem Resolution.consEmpty (empty : ∀ t, st.slotAt? spot = some t → st.read t = .null)
    (puts : Puts spot s (.array a) st st₁) (fresh : Fresh st st₁ (.array a))
    (noElement : st₁.array a = .empty) (rest : Resolution (.element a key) keys st₁ st' passed u) :
    Resolution spot (key :: keys) st st' (s :: passed) u := by
  have filled : st₁.read s ≠ .null := by
    rw [puts.value]
    exact Value.noConfusion
  have reads := (rest.filled s filled).trans puts.value
  obtain ⟨t, found, leads⟩ := rest.route
  obtain ⟨gains, new⟩ := rest.empty (by simp [Store.slotAt?, noElement, ArrayData.slot?,
    ArrayData.empty, Assoc.get?])
  have gained := puts.toGains.before gains puts.grows rest.grows fresh.1
  have outside : ∀ h ∈ (st'.read u).handles, ¬ h.Within st.extent :=
    fun h member inside => new h member (inside.mono puts.grows)
  exact {
    closed := rest.closed
    grows := puts.grows.trans rest.grows
    classes := rest.classes.trans puts.classes
    route := by
      refine ⟨s, rest.slots _ _ puts.slot, .step ?_ leads⟩
      rw [reads]
      exact found
    container := rest.container
    filled := fun t was => by
      have kept := filled_of_puts puts empty t was
      rw [rest.filled t (kept ▸ was), kept]
    others := fun t inside other => by
      simp only [List.cons_append, List.mem_cons, not_or] at other
      rw [rest.others t (inside.mono puts.grows) other.2, puts.others t inside other.1]
    slots := fun _ _ there => rest.slots _ _ (puts.toGains.slotAt? there)
    gained := .inr ⟨⟨spot, .inl rfl, gained⟩, outside⟩
    empty := fun _ => ⟨gained, outside⟩ }

end resolution

/-- Resolving leaves the rest of the machine, and gives an element of the container it leads to. -/
theorem resolution_of_resolve (front : List Key) (last : Key) (found : l.At m spot)
    (closed : m.store.Closed) (here : spot.handle.Within m.store.extent)
    (resolved : (l.resolve (front ++ [last])).run m = .ok target m₁) :
    ∃ passed u, target = .element (m₁.store.read u) (some last) ∧
      m₁ = { m with store := m₁.store } ∧
      Resolution spot front m.store m₁.store passed u := by
  induction front generalizing l spot m with
  | nil =>
      obtain ⟨container, m', implied, rest⟩ := Run.of_run_bind resolved
      cases rest
      rcases imply_cases found closed here implied with
        ⟨s, isSlot, rfl, filled, rfl⟩ | ⟨empty, s, a, st, rfl, rfl, puts, fresh, -, closed'⟩
      · exact ⟨[], s, rfl, rfl, .ofFilled closed isSlot filled⟩
      · exact ⟨[], s, by rw [puts.value], rfl, .ofEmpty closed' empty puts fresh⟩
  | cons key keys ih =>
      obtain ⟨container, m', implied, rest⟩ := Run.of_run_bind resolved
      obtain ⟨next, isSpot⟩ := spot?_of_resolve keys rest
      have handles := Value.handles_of_spot? isSpot
      rcases imply_cases found closed here implied with
        ⟨s, isSlot, rfl, filled, rfl⟩ | ⟨empty, s, a, st, rfl, rfl, puts, fresh, none, closed'⟩
      · have inside : next.handle.Within m'.store.extent := by
          refine closed.read (closed.slotAt? here isSlot) _ ?_
          rw [handles]
          exact List.mem_cons_self
        obtain ⟨passed, u, isTarget, others, rest⟩ := ih (.element isSpot) closed inside rest
        exact ⟨s :: passed, u, isTarget, others, .consFilled isSlot filled isSpot rest⟩
      · cases isSpot
        obtain ⟨passed, u, isTarget, others, rest⟩ := ih (.element rfl) closed' fresh.2 rest
        exact ⟨s :: passed, u, isTarget, others, .consEmpty empty puts fresh none rest⟩

/-- Without an element that is gained, any spot will do. -/
theorem gains_of_slot {st st' : Store} (gains : Gains (.slot s) st st') (other : Spot) :
    Gains other st st' where
  arrays a inside := by
    refine .inl ((gains.arrays a inside).resolve_right ?_)
    rintro ⟨key, isSpot, -⟩
    cases isSpot
  objects o inside := by
    refine .inl ((gains.objects o inside).resolve_right ?_)
    rintro ⟨name, isSpot, -⟩
    cases isSpot

/-- The value assigned to an element is read back the way the element is reached, unless the slot
it goes to is one on the way. -/
theorem run_readAt_assigned {held : List Handle} {front : List Key} {last : Key} {u : SlotId}
    {passed : List SlotId} (start : l.At m (.slot s)) (closed : m.store.Closed)
    (leads : Leads m.store s front passed u)
    (assigned : ((Location.element (m.store.read u) (some last)).set held v).run m = .ok w m') :
    ∃ st final spot,
      m.store.copy (m.roots ++ v.handles ++ ((m.store.read u).handles ++ held)) v = some (w, st) ∧
      m' = { m with store := st.put spot w } ∧
      (m.store.read u).spot? last = some spot ∧
      Puts spot final w st (st.put spot w) ∧
      (final ∉ passed ++ [u] → Leads m'.store s (front ++ [last]) (passed ++ [u]) final ∧
        (l.readAt (front ++ [last])).run m' = .ok w m') := by
  obtain ⟨spot, isSpot⟩ := spot?_of_set assigned
  obtain ⟨st, copied, rfl⟩ := of_run_set (.element isSpot) assigned
  have ext := Store.copy_extends copied
  have here := closed.spot? isSpot
  have container : m.store.read u ≠ .null := by
    intro null
    rw [null] at isSpot
    cases isSpot
  obtain ⟨final, puts⟩ := Store.puts_put (here.mono ext.grows) (Value.spot?_ne_append isSpot)
    (fun s found => (closed.slotAt? here (ext.slotAt? here ▸ found)).mono ext.grows) w
  refine ⟨st, final, spot, copied, rfl, isSpot, puts, fun apart => ?_⟩
  have reads : ∀ t ∈ passed ++ [u], m.store.read t ≠ .null →
      (st.put spot w).read t = m.store.read t := by
    intro t member filled
    have old := Store.inside_of_reads filled
    rw [puts.others t (old.mono ext.grows) (fun same => apart (same ▸ member)), ext.slots t old]
  have route : Leads (st.put spot w) s (front ++ [last]) (passed ++ [u]) final := by
    refine (leads.mono (puts.toGains.after ext) fun t member =>
      reads t (List.mem_append_left _ member)).snoc ?_
    rw [reads u (by simp) container, Store.slotIn?_of_spot? isSpot]
    exact puts.slot
  have read := run_readAt (start.store (st.put spot w)) rfl route
  rw [puts.value] at read
  exact ⟨route, read⟩

/-- Resolving a nested element and assigning to it leads where reading the same keys leads. Unless
the slot that is assigned is one of those on the way, the value is read there as it was when it was
assigned. Every slot that was there holds what it held, except for the one that is assigned and for
those on the way that held null; and of the arrays and objects that were there at most one, on the
way, has gained the element that was missing. -/
theorem written_is_read (l target : Location) (m m₁ m₂ : Machine) (s : SlotId) (front : List Key)
    (last : Key) (held : List Handle) (v w : Value) (start : l.At m (.slot s))
    (closed : m.store.Closed) (there : (Handle.slot s).Within m.store.extent)
    (resolved : (l.resolve (front ++ [last])).run m = .ok target m₁)
    (known : ∀ h ∈ v.handles, h.Within m₁.store.extent)
    (alone : ∀ t, Private (fun _ => false) m₁.store v (.slot t) →
      m₁.store.isShared (m₁.roots ++ v.handles ++ (target.handles ++ held)) t = false)
    (assigned : (target.set held v).run m₁ = .ok w m₂) :
    ∃ passed u final,
      Leads m₁.store s front passed u ∧ target = .element (m₁.store.read u) (some last) ∧
      m₂.store.slotIn? (m₁.store.read u) last = some final ∧
      (final ∉ passed ++ [u] → Leads m₂.store s (front ++ [last]) (passed ++ [u]) final ∧
        (l.readAt (front ++ [last])).run m₂ = .ok w m₂) ∧
      Copied (fun _ => false) m₁.store m₂.store v w ∧
      (∀ t, (Handle.slot t).Within m.store.extent → t ≠ final →
        (t ∈ passed ++ [u] → m.store.read t ≠ .null) → m₂.store.read t = m.store.read t) ∧
      (∃ pair ∈ (passed ++ [u]).zip (front ++ [last]), ∃ spot,
        (m₁.store.read pair.1).spot? pair.2 = some spot ∧ Gains spot m.store m₂.store) ∧
      m₂ = { m with store := m₂.store } ∧ m₂.store.classes = m.store.classes := by
  obtain ⟨passed, u, rfl, others, resolution⟩ :=
    resolution_of_resolve front last start closed there resolved
  obtain ⟨t, found, leads⟩ := resolution.route
  cases found
  have start₁ : l.At m₁ (.slot s) := by
    rw [others]
    exact start.store _
  obtain ⟨st, final, spot, copied, rfl, isSpot, puts, reads⟩ :=
    run_readAt_assigned start₁ resolution.closed leads assigned
  have ext := Store.copy_extends copied
  have here := resolution.closed.spot? isSpot
  have levels : (passed ++ [u]).zip (front ++ [last]) = passed.zip front ++ [(u, last)] :=
    List.zip_append leads.length
  refine ⟨passed, u, final, leads, rfl, ?_, reads, ?_, ?_, ?_, ?_, ?_⟩
  · rw [Store.slotIn?_of_spot? isSpot]
    exact puts.slot
  · refine (Store.copy_copied resolution.closed known copied |>.unshared alone).carry puts.grows
      (fun t new => puts.others t new.2 ?_) fun a new => ?_
    · rintro rfl
      rcases puts.before with found | ⟨-, newer⟩
      · exact new.1 (resolution.closed.slotAt? here (ext.slotAt? here ▸ found))
      · exact newer.1 new.2
    · refine (puts.arrays a new.2).resolve_right ?_
      rintro ⟨key, rfl, -⟩
      exact new.1 here
  · intro t inside other filled
    rw [puts.others t ((inside.mono resolution.grows).mono ext.grows) other,
      ext.slots t (inside.mono resolution.grows)]
    by_cases onWay : t ∈ passed ++ [u]
    · exact resolution.filled t (filled onWay)
    · exact resolution.others t inside onWay
  · have more := puts.toGains.after ext
    rw [levels]
    rcases resolution.gained with same | ⟨⟨sp, onWay, gains⟩, new⟩
    · rw [same] at more isSpot ⊢
      exact ⟨(u, last), by simp, spot, isSpot, more⟩
    · have outside : ¬ spot.handle.Within m.store.extent := by
        refine new _ ?_
        rw [Value.handles_of_spot? isSpot]
        exact List.mem_cons_self
      have gained := gains.before more resolution.grows (ext.grows.trans puts.grows) outside
      rcases onWay with rfl | ⟨pair, member, onWay⟩
      · exact ⟨(u, last), by simp, spot, isSpot, gains_of_slot gained spot⟩
      · exact ⟨pair, List.mem_append_left _ member, sp, onWay, gained⟩
  · rw [others]
  · exact puts.classes.trans (ext.classes.trans resolution.classes)

/-- A machine with one variable, whose array has a null under its only key, and an array with a
number beside it. -/
def beforeNested : Machine where
  store :=
    { slots := #[.array ⟨0⟩, .null, .integer 7]
      arrays := #[⟨[(.string "a", ⟨1⟩)], 0, 0⟩, ⟨[(.integer 0, ⟨2⟩)], 1, 0⟩]
      objects := #[]
      classes := #[] }
  scopes := [[("x", ⟨0⟩)]]
  names := .empty rootPath
  stdin := []
  stdout := .unlimited
  callDepth := 0
  callLimit := 1
  loops := []

/-- The machine where `$x['a']['b']` has been resolved. -/
def amidNested : Machine :=
  Run.left (((Location.variable "x").resolve [.string "a", .string "b"]).run beforeNested)

/-- The second array assigned to the key `b` of what is under `a`: the null has become an array, and
a copy of the second array is read there. -/
theorem written_is_read_nested :
    ∃ m₂ w,
      ((Location.variable "x").resolve [.string "a", .string "b"]).run beforeNested =
        .ok (.element (.array ⟨2⟩) (some (.string "b"))) amidNested ∧
      ((Location.element (.array ⟨2⟩) (some (.string "b"))).set [] (.array ⟨1⟩)).run amidNested =
        .ok w m₂ ∧
      ((Location.variable "x").readAt [.string "a", .string "b"]).run m₂ = .ok w m₂ ∧
      Copied (fun _ => false) amidNested.store m₂.store (.array ⟨1⟩) w ∧
      m₂.store.read ⟨1⟩ = .array ⟨2⟩ := by
  have closed : beforeNested.store.Closed := Store.closed_of_contents (by decide +kernel)
  have known : ∀ h ∈ (Value.array ⟨1⟩).handles, h.Within amidNested.store.extent := by
    intro h member
    rw [List.mem_singleton.mp member]
    exact (by decide : 1 < amidNested.store.arrays.size)
  have own : ∀ h, Private (fun _ => false) amidNested.store (.array ⟨1⟩) h →
      h ∈ [.array ⟨1⟩, .slot ⟨2⟩] := fun h own =>
    own.among (P := (· ∈ [.array ⟨1⟩, .slot ⟨2⟩])) (by decide +kernel) (by decide +kernel)
  have alone : amidNested.store.isShared (amidNested.roots ++ [.array ⟨1⟩] ++ [.array ⟨2⟩]) ⟨2⟩ =
      false := by decide +kernel
  have ends : Run.Ends (fun _ m₂ => m₂.store.slotIn? (.array ⟨2⟩) (.string "b") = some ⟨4⟩ ∧
        (m₂.store.read ⟨1⟩).handles = [.array ⟨2⟩]) (fun _ _ => False)
      (((Location.element (.array ⟨2⟩) (some (.string "b"))).set [] (.array ⟨1⟩)).run
        amidNested) := by decide +kernel
  cases assigned : ((Location.element (.array ⟨2⟩) (some (.string "b"))).set []
      (.array ⟨1⟩)).run amidNested with
  | error f m₂ =>
      rw [assigned] at ends
      exact ends.elim
  | ok w m₂ =>
      rw [assigned] at ends
      obtain ⟨slot, reads₁⟩ := ends
      obtain ⟨passed, u, final, leads, -, isFinal, reads, copied, others, -⟩ :=
        written_is_read (.variable "x") _ beforeNested amidNested m₂ ⟨0⟩ [.string "a"]
          (.string "b") [] (.array ⟨1⟩) w (.named rfl rfl) closed (Nat.zero_lt_succ 2) rfl known
          (fun t private' => by
            obtain rfl : t = ⟨2⟩ := by simpa using own _ private'
            exact alone) assigned
      have found : amidNested.store.slotIn? (amidNested.store.read ⟨0⟩) (.string "a") =
          some ⟨1⟩ := rfl
      cases leads with
      | step first rest =>
          cases rest
          obtain rfl := Option.some.inj (found.symm.trans first)
          obtain rfl := Option.some.inj (slot.symm.trans isFinal)
          exact ⟨m₂, w, rfl, rfl, (reads (by decide)).2, copied, Value.eq_of_handles reads₁⟩

end Location
end TreeScript
