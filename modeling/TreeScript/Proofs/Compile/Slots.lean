import TreeScript.Proofs.Compile.Blocks

set_option autoImplicit false

/- How loops are numbered. The compiler takes up the loops of a body in the order in which they
stand in its code, so that each body has the numbers from 0 on, each once. -/
namespace TreeScript

namespace Code

mutual
/-- The numbers of the loops in a statement, in the order they begin in the code. Functions that it
defines have loops of their own, which are not among them. -/
def Stmt.slots : Stmt → List Nat
  | .ifElse _ consequent alternate => slotsOf consequent ++ slotsOf alternate
  | .foreach slot _ _ _ _ body => slot :: slotsOf body
  | .scoped body => slotsOf body
  | _ => []

def slotsOf : Block → List Nat
  | [] => []
  | s :: rest => s.slots ++ slotsOf rest
end

theorem slotsOf_append (b b' : Block) : slotsOf (b ++ b') = slotsOf b ++ slotsOf b' := by
  induction b with
  | nil => rfl
  | cons s rest ih => rw [List.cons_append, slotsOf, slotsOf, ih, List.append_assoc]

theorem slotsOf_eq_nil {b : Block} (none : ∀ s ∈ b, s.slots = []) : slotsOf b = [] := by
  induction b with
  | nil => rfl
  | cons s rest ih =>
      obtain ⟨here, later⟩ := List.forall_mem_cons.mp none
      rw [slotsOf, here, ih later, List.nil_append]

theorem Stmt.slots_of_isPrologue {s : Stmt} (isPrologue : s.isPrologue = true) : s.slots = [] := by
  cases s with
  | defineVariables names => rw [Stmt.slots] <;> intros <;> contradiction
  | bindArgument name index => rw [Stmt.slots] <;> intros <;> contradiction
  | bindThis => rw [Stmt.slots] <;> intros <;> contradiction
  | _ => cases isPrologue

end Code

namespace Compile

open Code (Stmt Block Function Defines BlockOf slotsOf slotsOf_append slotsOf_eq_nil)

/-- Between two states of a body these loops are taken up: the next ones, in order. -/
def Takes (c : Context) (slots : List Nat) (c' : Context) : Prop :=
  ∃ n, c'.loops = c.loops + n ∧ slots = List.range' c.loops n

theorem Takes.none {c c' : Context} (same : c'.loops = c.loops) : Takes c [] c' :=
  ⟨0, same, rfl⟩

theorem Takes.trans {c c' c'' : Context} {first second : List Nat} (earlier : Takes c first c')
    (later : Takes c' second c'') : Takes c (first ++ second) c'' := by
  obtain ⟨n, loops, rfl⟩ := earlier
  obtain ⟨n', loops', rfl⟩ := later
  refine ⟨n + n', by omega, ?_⟩
  rw [loops, List.range'_append_1]

theorem Takes.after {c c' c'' : Context} {slots : List Nat} (same : c'.loops = c.loops)
    (later : Takes c' slots c'') : Takes c slots c'' := (Takes.none same).trans later

theorem Takes.next {c c' : Context} {slots : List Nat}
    (later : Takes { c with loops := c.loops + 1 } slots c') : Takes c (c.loops :: slots) c' := by
  have one : Takes c [c.loops] { c with loops := c.loops + 1 } := ⟨1, rfl, rfl⟩
  exact one.trans later

theorem classMembers_loops {members : List Node} {found found' : Members} {c c' : Context}
    (done : classMembers found members c = .ok (found', c')) : c'.loops = c.loops := by
  induction members generalizing found c with
  | nil =>
      cases done
      rfl
  | cons n rest ih =>
      cases n with
      | propertyDefinition target value =>
          cases target with
          | «variable» name reference =>
              rw [classMembers] at done
              obtain ⟨_, c₁, ran, done⟩ := bind_eq_ok.mp done
              exact (ih done).trans ((optionalValue_yields value).loops ran)
          | _ =>
              rw [classMembers] at done
              · cases done
              · intros; contradiction
      | methodDefinition name parameters statements =>
          cases name with
          | string name =>
              rw [classMembers] at done
              obtain ⟨_, c₁, ran, done⟩ := bind_eq_ok.mp done
              obtain ⟨_, c₂, ran', done⟩ := bind_eq_ok.mp done
              rw [ih done, inBody_context ran']
              exact (parameterNames_yields parameters).loops ran
          | _ =>
              rw [classMembers] at done
              · cases done
              · intros; contradiction
      | _ =>
          rw [classMembers] at done
          · cases done
          all_goals intros; contradiction

theorem joined_takes {first second : CompileM Block}
    (hoisted : ∀ {c b c'}, first c = .ok (b, c') → Takes c (slotsOf b) c')
    (others : ∀ {c b c'}, second c = .ok (b, c') → Takes c (slotsOf b) c')
    {c c' : Context} {b : Block} (done : joined first second c = .ok (b, c')) :
    Takes c (slotsOf b) c' := by
  obtain ⟨_, c₁, ran, done⟩ := bind_eq_ok.mp done
  obtain ⟨_, c₂, ran', done⟩ := bind_eq_ok.mp done
  cases done
  rw [slotsOf_append]
  exact (hoisted ran).trans (others ran')

mutual
/-- A statement takes up the loops that stand in it. -/
theorem statement_takes : (n : Node) → ∀ {c s c'}, statement n c = .ok (s, c') → Takes c s.slots c'
  | .echoStatement e, c, s, c', done | .expressionStatement e, c, s, c', done => by
      rw [statement] at done
      obtain ⟨_, c₁, ran, done⟩ := bind_eq_ok.mp done
      cases done
      rw [Stmt.slots]
      · exact .none ((valueOf_yields e).loops ran)
      all_goals intros; contradiction
  | .inlineHtmlStatement html, c, s, c', done => by
      rw [statement] at done
      cases done
      rw [Stmt.slots]
      · exact .none rfl
      all_goals intros; contradiction
  | .returnStatement e, c, s, c', done => by
      rw [statement] at done
      obtain ⟨_, c₁, ran, done⟩ := bind_eq_ok.mp done
      cases done
      rw [Stmt.slots]
      · exact .none ((optionalValue_yields e).loops ran)
      all_goals intros; contradiction
  | .ifStatement condition consequent alternate, c, s, c', done => by
      rw [statement] at done
      obtain ⟨_, c₁, ran, done⟩ := bind_eq_ok.mp done
      obtain ⟨_, c₂, ran', done⟩ := bind_eq_ok.mp done
      obtain ⟨_, c₃, ran'', done⟩ := bind_eq_ok.mp done
      cases done
      rw [Stmt.slots]
      have first := joined_takes (selected_takes true consequent) (selected_takes false consequent)
        ran'
      have second := joined_takes (selected_takes true alternate) (selected_takes false alternate)
        ran''
      exact .after ((valueOf_yields condition).loops ran) (first.trans second)
  | .foreachStatement array key value statements, c, s, c', done => by
      rw [statement] at done
      obtain ⟨_, c₁, walked, done⟩ := bind_eq_ok.mp done
      obtain ⟨_, c₂, keyed, done⟩ := bind_eq_ok.mp done
      obtain ⟨_, c₃, valued, done⟩ := bind_eq_ok.mp done
      obtain ⟨slot, c₄, next, done⟩ := bind_eq_ok.mp done
      obtain ⟨_, c₅, ran, done⟩ := bind_eq_ok.mp done
      cases done
      cases next
      rw [Stmt.slots]
      have body := joined_takes (selected_takes true statements) (selected_takes false statements)
        ran
      refine .after ?_ body.next
      rw [(targetOf_yields value).loops valued, (optionalTarget_yields key).loops keyed,
        (valueOf_yields array).loops walked]
  | .functionStatement name parameters statements, c, s, c', done => by
      rw [statement] at done
      obtain ⟨_, c₁, ran, done⟩ := bind_eq_ok.mp done
      obtain ⟨_, c₂, ran', done⟩ := bind_eq_ok.mp done
      cases done
      rw [Stmt.slots]
      · rw [inBody_context ran']
        exact .none ((parameterNames_yields parameters).loops ran)
      all_goals intros; contradiction
  | .classStatement className members, c, s, c', done => by
      rw [statement] at done
      obtain ⟨_, c₁, ran, done⟩ := bind_eq_ok.mp done
      obtain ⟨_, c₂, ran', done⟩ := bind_eq_ok.mp done
      cases done
      rw [Stmt.slots]
      · exact .none ((classMembers_loops ran').trans ((valueOf_yields className).loops ran))
      all_goals intros; contradiction
  | .program .., _, _, _, done | .methodDefinition .., _, _, _, done
  | .propertyDefinition .., _, _, _, done | .arrayIndex .., _, _, _, done
  | .arrayLiteral .., _, _, _, done | .boolean .., _, _, _, done | .expression .., _, _, _, done
  | .float .., _, _, _, done | .functionCall .., _, _, _, done | .integer .., _, _, _, done
  | .keyValuePair .., _, _, _, done | .list .., _, _, _, done | .methodCall .., _, _, _, done
  | .newExpression .., _, _, _, done | .objectProperty .., _, _, _, done
  | .string .., _, _, _, done | .stringLiteral .., _, _, _, done | .ternary .., _, _, _, done
  | .unaryExpression .., _, _, _, done | .variable .., _, _, _, done | .void, _, _, _, done => by
      rw [statement] at done
      · cases done
      all_goals intros; contradiction

theorem selected_takes (declarations : Bool) :
    (nodes : List Node) → ∀ {c b c'}, selected declarations nodes c = .ok (b, c') →
      Takes c (slotsOf b) c'
  | [], c, b, c', done => by
      rw [selected] at done
      cases done
      exact .none rfl
  | n :: rest, c, b, c', done => by
      rw [selected] at done
      split at done
      · obtain ⟨_, c₁, ran, done⟩ := bind_eq_ok.mp done
        obtain ⟨_, c₂, ran', done⟩ := bind_eq_ok.mp done
        cases done
        rw [slotsOf]
        exact (statement_takes n ran).trans (selected_takes declarations rest ran')
      · exact selected_takes declarations rest done
end

theorem block_takes {statements : List Node} {c c' : Context} {b : Block}
    (done : block statements c = .ok (b, c')) : Takes c (slotsOf b) c' :=
  joined_takes (selected_takes true statements) (selected_takes false statements) done

/-- From the start of a body on, its loops are numbered from 0. -/
theorem slotsOf_block {statements : List Node} {c c' : Context} {b : Block}
    (done : block statements c = .ok (b, c')) (start : c.loops = 0) :
    slotsOf b = List.range c'.loops := by
  obtain ⟨n, loops, slots⟩ := block_takes done
  rw [slots, start, List.range_eq_range']
  congr 1
  omega

theorem slotsOf_function {f : Function Stmt} (compiled : CompiledFunction f) :
    slotsOf f.body = List.range f.loopSlots := by
  obtain ⟨prologue, statements, _, body, context, isScope, loops, readies, done⟩ := compiled.body
  have none : slotsOf prologue = [] :=
    slotsOf_eq_nil fun s member => Stmt.slots_of_isPrologue (readies s member)
  rw [isScope, loops, slotsOf, Stmt.slots, slotsOf_append, none, slotsOf_block done rfl]
  simp [slotsOf]

/-- In a compiled program, and in every function that stands anywhere in it, the loops are numbered
from 0 in the order of the code. -/
theorem slots_numbered {t : Node} {p : Code.Program} (compiled : program t = .ok p) :
    slotsOf p.body = List.range p.loopSlots ∧
      ∀ b s f, BlockOf p.body b → s ∈ b → Defines s f →
        slotsOf f.body = List.range f.loopSlots := by
  obtain ⟨statements, -, done⟩ := program_compiled compiled
  refine ⟨slotsOf_block done rfl, fun b s f inside member defined => ?_⟩
  have origin := origin_of_blockOf ⟨statements, _, _, done⟩ inside
  exact slotsOf_function (origin.defines member defined)

end Compile
end TreeScript
