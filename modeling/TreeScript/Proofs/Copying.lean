import TreeScript.Proofs.Isolation.Outset
import TreeScript.Proofs.Store.Nesting

set_option autoImplicit false

/- When copies end in a running session. A copy of what a variable leads to ends. A copy of an array
that an evaluation still has, while no variable leads to it any longer, may come back to that array
and never end. -/
namespace TreeScript

open Relation (ReflTransGen TransGen)

namespace Machine.Sound

variable {loose : Multiset ArrayId} {m : Machine}

/-- A copy ends unless it comes back to the array it began with. -/
theorem copy_isSome_iff_of_reachable (sound : m.Sound loose) {held : List Handle} {a : ArrayId}
    (reachable : m.store.Reachable (m.roots ++ held) (.array a))
    (inside : ∀ h ∈ held, h.Within m.store.extent) :
    (m.store.copy (m.roots ++ held) (.array a)).isSome = true ↔
      ¬ TransGen (m.store.Nests (m.store.isShared (m.roots ++ held))) a a := by
  have all : ∀ h ∈ m.roots ++ held, h.Within m.store.extent := fun h member =>
    (List.mem_append.mp member).elim (sound.roots_within h) (inside h)
  have there : (Handle.array a).Within m.store.extent :=
    (reachable.alive all sound.owned.closed).1
  rw [Store.copy_isSome_iff sound.owned.closed there]
  constructor
  · exact fun ends => ends a .refl
  · exact fun apart b path cycle => apart (sound.owned.nests_back
      (fun h reachable => reachable.alive all sound.owned.closed) reachable path cycle)

theorem copy_isSome_iff (sound : m.Sound loose) {held : List Handle} {a : ArrayId}
    (rooted : .array a ∈ held) (inside : ∀ h ∈ held, h.Within m.store.extent) :
    (m.store.copy (m.roots ++ held) (.array a)).isSome = true ↔
      ¬ TransGen (m.store.Nests (m.store.isShared (m.roots ++ held))) a a :=
  sound.copy_isSome_iff_of_reachable (.root (List.mem_append_right _ rooted)) inside

/-- What is in a shared slot can be copied: an array that nests in itself is in an unshared one. -/
theorem copy_shared_isSome (sound : m.Sound loose) {held : List Handle} {s : SlotId}
    (reachable : m.store.Reachable (m.roots ++ held) (.slot s))
    (inside : ∀ h ∈ held, h.Within m.store.extent)
    (shared : m.store.isShared (m.roots ++ held) s = true) :
    (m.store.copy (m.roots ++ held) (m.store.read s)).isSome = true := by
  rcases (m.store.read s).array_or_plain with ⟨a, reads⟩ | plain
  · have leads : m.store.Reachable (m.roots ++ held) (.array a) :=
      .held reachable (by simp [Store.holds, reads, Value.handles])
    rw [reads, sound.copy_isSome_iff_of_reachable leads inside]
    intro cycle
    obtain ⟨b, -, t, -, unshared, reads'⟩ := TransGen.tail'_iff.mp cycle
    obtain rfl := sound.owned.single s t a reads reads'
    simp [shared] at unshared
  · rw [Store.copy_plain plain]
    rfl

/-- What the variables lead to comes back to itself by no array. -/
theorem led_off_cycle (sound : m.Sound loose) {held : List Handle} {a : ArrayId}
    (inside : ∀ h ∈ held, h.Within m.store.extent) (led : m.store.Led m.variables (.array a)) :
    ¬ TransGen (m.store.Nests (m.store.isShared (m.roots ++ held))) a a := by
  have all : ∀ h ∈ m.variables ++ (m.namedClasses ++ held), h.Within m.store.extent := by
    rw [← List.append_assoc, ← m.roots_eq]
    exact fun h member => (List.mem_append.mp member).elim (sound.roots_within h) (inside h)
  have slots : ∀ g ∈ m.variables, ∃ s, g = .slot s := by
    intro g member
    obtain ⟨_, _, entry, _, rfl⟩ := mem_variablesOf.mp member
    exact ⟨_, rfl⟩
  have apart := (sound.owned.led_off_cycle all led slots).2 a rfl
  rwa [← List.append_assoc, ← m.roots_eq] at apart

end Machine.Sound

namespace Session

/-- At every moment of every session, whatever evaluations under way hold: a copy ends exactly if
its array does not nest in itself by unshared slots, and the copy of what variables lead to, other
than by the defaults of a class, ends. -/
theorem copy_ends_iff (config : Config) (builtins : Bool) (stdin : List String)
    (stdout stderr : Output) (trees : List Node) (moment : Moment)
    (passed : moment ∈ (create config builtins stdin stdout stderr).history trees)
    (held : List Handle) (v : Value)
    (inside : ∀ h ∈ v.handles ++ held, h.Within moment.machine.store.extent) :
    ((moment.machine.store.copy (moment.machine.roots ++ v.handles ++ held) v).isSome = true ↔
      ∀ a, v = .array a → ¬ TransGen (moment.machine.store.Nests (moment.machine.store.isShared
        (moment.machine.roots ++ v.handles ++ held))) a a) ∧
    ((∀ h ∈ v.handles, moment.machine.store.Led moment.machine.variables h) →
      (moment.machine.store.copy (moment.machine.roots ++ v.handles ++ held) v).isSome = true) := by
  have sound := history_sound config builtins stdin stdout stderr trees moment passed
  rcases v.array_or_plain with ⟨a, rfl⟩ | plain
  · rw [List.append_assoc]
    have rooted : Handle.array a ∈ (Value.array a).handles ++ held :=
      List.mem_append_left _ List.mem_cons_self
    have ends := sound.copy_isSome_iff rooted inside
    refine ⟨?_, fun led => ends.mpr (sound.led_off_cycle inside (led _ List.mem_cons_self))⟩
    rw [ends]
    simp
  · have done : ∀ roots, (moment.machine.store.copy roots v).isSome = true := by
      cases v with
      | array a => exact absurd rfl (plain a)
      | _ => exact fun _ => rfl
    exact ⟨iff_of_true (done _) fun a isArray => absurd isArray (plain a), fun _ => done _⟩

/-- `$a[] = &$a; [$a, $a = &$b];` -/
def leftBehind : Node := .program [
  .expressionStatement (.expression (.arrayIndex (.variable "a" false) [none] false)
    [⟨"=", .variable "a" true⟩]),
  .expressionStatement (.arrayLiteral [.variable "a" false,
    .expression (.variable "a" false) [⟨"=", .variable "b" true⟩]])]

/-- An array that holds the variable it is in can be copied as long as it is in the variable. Once
the variable is bound elsewhere, it nests in itself. -/
theorem copy_ends_iff_left_behind :
    (∃ moment ∈ (create .default false [] .unlimited .unlimited).history [leftBehind],
      moment.machine.scopes.map (·.map (·.2)) = [[⟨0⟩, ⟨1⟩]] ∧
      (moment.machine.store.array ⟨0⟩).handles = [.slot ⟨0⟩] ∧
      (moment.machine.store.copy (moment.machine.roots ++ [.array ⟨0⟩] ++ []) (.array ⟨0⟩)).isSome =
        true) ∧
    ∃ moment ∈ (create .default false [] .unlimited .unlimited).history [leftBehind],
      moment.machine.scopes.map (·.map (·.2)) = [[⟨1⟩, ⟨1⟩]] ∧
      TransGen (moment.machine.store.Nests (moment.machine.store.isShared
        (moment.machine.roots ++ [.array ⟨0⟩] ++ []))) ⟨0⟩ ⟨0⟩ := by
  have before : ((create .default false [] .unlimited .unlimited).history [leftBehind]).any
      (fun moment => moment.machine.scopes.map (·.map (·.2)) = [[⟨0⟩, ⟨1⟩]] ∧
        .slot ⟨0⟩ ∈ moment.machine.variables ∧
        (moment.machine.store.read ⟨0⟩).handles = [.array ⟨0⟩] ∧
        (moment.machine.store.array ⟨0⟩).handles = [.slot ⟨0⟩] ∧
        0 < moment.machine.store.arrays.size) = true := by decide +kernel
  have after : ((create .default false [] .unlimited .unlimited).history [leftBehind]).any
      (fun moment => moment.machine.scopes.map (·.map (·.2)) = [[⟨1⟩, ⟨1⟩]] ∧
        0 < moment.machine.store.arrays.size ∧
        (moment.machine.store.copy (moment.machine.roots ++ [.array ⟨0⟩] ++ [])
          (.array ⟨0⟩)).isSome = false) = true := by decide +kernel
  obtain ⟨early, passed, state⟩ := List.any_eq_true.mp before
  obtain ⟨scopes, bound, reads, holds, there⟩ := of_decide_eq_true state
  obtain ⟨late, passed', state'⟩ := List.any_eq_true.mp after
  obtain ⟨scopes', there', endless⟩ := of_decide_eq_true state'
  refine ⟨⟨early, passed, scopes, holds, ?_⟩, late, passed', scopes', ?_⟩
  · apply (copy_ends_iff _ _ _ _ _ _ early passed [] (.array ⟨0⟩) ?_).2
    · intro h member
      have leads : h ∈ early.machine.store.holds (.slot ⟨0⟩) := by
        rw [Store.holds, reads]
        exact member
      exact .held (.root bound) (fun _ => Handle.noConfusion) leads
    · exact fun h member => List.mem_singleton.mp member ▸ there
  · by_contra apart
    have ends := (copy_ends_iff _ _ _ _ _ _ late passed' [] (.array ⟨0⟩)
      (fun h member => List.mem_singleton.mp member ▸ there')).1.mpr
      (fun a isArray => Value.array.inj isArray ▸ apart)
    exact absurd ends (by simpa [Value.handles] using endless)

/-- The literal copies its first entry after the second has taken the variable away. -/
theorem left_behind_endless :
    ∃ s, (create .default false [] .unlimited .unlimited).evaluate leftBehind =
      (.error (.runtime .endless), s) := by
  have stopped : ((create .default false [] .unlimited .unlimited).evaluate leftBehind).1.map
      (fun _ => ()) = .error (.runtime .endless) := by decide +kernel
  generalize (create .default false [] .unlimited .unlimited).evaluate leftBehind = ended at stopped
  obtain ⟨result, s⟩ := ended
  refine ⟨s, ?_⟩
  cases result with
  | ok o => cases stopped
  | error e =>
      cases stopped
      rfl

end Session
end TreeScript
