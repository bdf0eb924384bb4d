import FaiVerif.Core.Eval
import Mathlib.Data.Set.Insert

/-!
# Scopes of Core

Which locals an expression sees from outside. What an expression computes depends on those alone,
so binding any other local around it changes nothing.
-/

namespace Fai

namespace CExpr

mutual

/-- Every use of a local is of one that is visible or bound around the use. -/
def Sees : CExpr → Set LocalId → Prop
  | lit _ _, _ | global _ _, _ | error _, _ => True
  | loc slot _, visible => slot ∈ visible
  | prim _ args _, visible | foreign _ args _ _, visible | spread args _, visible
  | recur args _, visible => SeesAll args visible
  | app func args reuse _ _, visible =>
    func.Sees visible ∧ SeesAll args visible ∧ ∀ token ∈ reuse, ∀ slot ∈ token, slot ∈ visible
  | ite cond yes no _, visible => cond.Sees visible ∧ yes.Sees visible ∧ no.Sees visible
  | letIn slot value body _, visible => value.Sees visible ∧ body.Sees (insert slot visible)
  | letMany slots value body _, visible =>
    value.Sees visible ∧ body.Sees (visible ∪ {slot | slot ∈ slots})
  | makeClosure _ captures _ _, visible => ∀ slot ∈ captures, slot ∈ visible
  | makeData _ args reuse _ _ _, visible =>
    SeesAll args visible ∧ ∀ slot ∈ reuse, slot ∈ visible
  | dataTag base _ _, visible => base.Sees visible
  | dataField base index _ _ _, visible =>
    base.Sees visible ∧ ∀ base evidence, index = .dyn base evidence → evidence ∈ visible
  | reset value token body _, visible => value.Sees visible ∧ body.Sees (insert token visible)
  | freeReuse token body _, visible => token ∈ visible ∧ body.Sees visible
  | dup slot body _, visible | drop slot body _, visible => slot ∈ visible ∧ body.Sees visible
  | join params body _, visible =>
    (∀ slot ∈ params, slot ∈ visible) ∧ body.Sees visible
  | holeStart hole body _, visible => body.Sees (insert hole visible)
  | holeFill hole cell _ _, visible => hole ∈ visible ∧ cell.Sees visible
  | holeClose hole base _, visible => hole ∈ visible ∧ base.Sees visible

/-- Every use of a local in operands is of one that is visible or bound around the use. -/
def SeesAll : List CExpr → Set LocalId → Prop
  | [], _ => True
  | e :: rest, visible => e.Sees visible ∧ SeesAll rest visible

end

/-- Operands see what each of them sees. -/
theorem seesAll_iff {es : List CExpr} {visible : Set LocalId} :
    SeesAll es visible ↔ ∀ e ∈ es, e.Sees visible := by
  induction es with
  | nil => simp [SeesAll]
  | cons e es hypothesis => simp [SeesAll, hypothesis]

end CExpr

namespace Eval

open Slots

variable {m : Type → Type} {V : Type}

/-- Two environments hold the same in the visible locals. -/
def Agree (visible : Set LocalId) (first second : Locals V) : Prop :=
  ∀ slot ∈ visible, first slot = second slot

/-- Environments that agree still do once both bind a local. -/
theorem Agree.set {visible : Set LocalId} {first second : Locals V}
    (agree : Agree visible first second) (slot : LocalId) (value : V) :
    Agree (insert slot visible) (first.set slot value) (second.set slot value) := by
  intro other member
  by_cases same : other = slot
  · rw [Locals.set, Locals.set, if_pos same, if_pos same]
  · rw [Locals.set, Locals.set, if_neg same, if_neg same]
    exact agree other (member.resolve_left same)

/-- Environments that agree still do once both bind several locals. -/
theorem Agree.setAll (missing : V) (slots : List LocalId) :
    ∀ {visible : Set LocalId} {first second : Locals V}, Agree visible first second →
      ∀ values : List V, Agree (visible ∪ {slot | slot ∈ slots})
        (first.setAll missing slots values) (second.setAll missing slots values) := by
  induction slots with
  | nil =>
    intro visible first second agree values
    have same : visible ∪ {slot | slot ∈ ([] : List LocalId)} = visible := by simp
    rw [same]
    exact agree
  | cons slot slots hypothesis =>
    intro visible first second agree values
    have same : visible ∪ {other | other ∈ slot :: slots} =
        insert slot visible ∪ {other | other ∈ slots} := by
      ext other
      simp only [Set.mem_union, Set.mem_ofPred_eq, List.mem_cons, Set.mem_insert_iff]
      tauto
    rw [same]
    exact hypothesis (agree.set slot (values.headD missing)) values.tail

/-- Fewer locals are held alike as well. -/
theorem Agree.mono {small large : Set LocalId} {first second : Locals V}
    (agree : Agree large first second) (subset : small ⊆ large) : Agree small first second :=
  fun slot member => agree slot (subset member)

variable [Monad m]

mutual

/-- What an expression computes depends on the locals it sees. -/
theorem eval_agree (M : Machine m V) : ∀ (e : CExpr) {visible : Set LocalId}
    {first second : Locals V} (back : List V → m V), e.Sees visible →
      Agree visible first second → eval M e back first = eval M e back second
  | .lit _ _, _, _, _, _, _, _ | .global _ _, _, _, _, _, _, _ | .error _, _, _, _, _, _, _ => rfl
  | .loc slot _, _, _, _, _, sees, agree => by
    simp only [eval, agree slot sees]
  | .prim _ args _, _, _, _, back, sees, agree
  | .foreign _ args _ _, _, _, _, back, sees, agree
  | .spread args _, _, _, _, back, sees, agree
  | .recur args _, _, _, _, back, sees, agree => by
    simp only [eval, evalList_agree M args back sees agree]
  | .app func args reuse _ _, _, first, second, back, sees, agree => by
    have tokens : reuse.map (Option.map first) = reuse.map (Option.map second) := by
      refine List.map_congr_left fun token member => ?_
      cases token with
      | none => rfl
      | some slot => rw [Option.map_some, Option.map_some, agree slot (sees.2.2 _ member slot rfl)]
    simp only [eval, eval_agree M func back sees.1 agree, tokens,
      evalList_agree M args back sees.2.1 agree]
  | .ite cond yes no _, _, _, _, back, sees, agree => by
    simp only [eval, eval_agree M cond back sees.1 agree, eval_agree M yes back sees.2.1 agree,
      eval_agree M no back sees.2.2 agree]
  | .letIn slot value body _, _, first, second, back, sees, agree => by
    have inner (held : V) := eval_agree M body back sees.2 (agree.set slot held)
    simp only [eval, eval_agree M value back sees.1 agree, inner]
  | .letMany slots value body _, _, _, _, back, sees, agree => by
    have inner (parts : List V) :=
      eval_agree M body back sees.2 (agree.setAll (M.lit .unit) slots parts)
    simp only [eval, eval_agree M value back sees.1 agree, inner]
  | .makeClosure _ captures _ _, _, first, second, _, sees, agree => by
    have held : captures.map first = captures.map second :=
      List.map_congr_left fun slot member => agree slot (sees slot member)
    simp only [eval, held]
  | .makeData _ args reuse _ _ _, _, first, second, back, sees, agree => by
    have token : reuse.map first = reuse.map second := by
      cases reuse with
      | none => rfl
      | some slot => rw [Option.map_some, Option.map_some, agree slot (sees.2 slot rfl)]
    simp only [eval, evalList_agree M args back sees.1 agree, token]
  | .dataTag base _ _, _, _, _, back, sees, agree => by
    simp only [eval, eval_agree M base back sees agree]
  | .dataField base index _ _ _, _, first, second, back, sees, agree => by
    have spot : place first index = place second index := by
      cases index with
      | const slot => rfl
      | dyn offset evidence => rw [place, place, agree evidence (sees.2 offset evidence rfl)]
    simp only [eval, eval_agree M base back sees.1 agree, spot]
  | .reset value token body _, _, _, _, back, sees, agree => by
    have inner (memory : V) := eval_agree M body back sees.2 (agree.set token memory)
    simp only [eval, eval_agree M value back sees.1 agree, inner]
  | .freeReuse token body _, _, _, _, back, sees, agree => by
    simp only [eval, agree token sees.1, eval_agree M body back sees.2 agree]
  | .dup slot body _, _, _, _, back, sees, agree
  | .drop slot body _, _, _, _, back, sees, agree => by
    simp only [eval, agree slot sees.1, eval_agree M body back sees.2 agree]
  | .join params body _, visible, first, second, _, sees, agree => by
    have held : params.map first = params.map second :=
      List.map_congr_left fun slot member => agree slot (sees.1 slot member)
    have inner (again : List V → m V) (values : List V) :=
      eval_agree M body again sees.2
        ((agree.setAll (M.lit .unit) params values).mono Set.subset_union_left)
    simp only [eval, held, inner]
  | .holeStart hole body _, _, _, _, back, sees, agree => by
    have inner (destination : V) := eval_agree M body back sees (agree.set hole destination)
    simp only [eval, inner]
  | .holeFill hole cell _ _, _, _, _, back, sees, agree => by
    simp only [eval, agree hole sees.1, eval_agree M cell back sees.2 agree]
  | .holeClose hole base _, _, _, _, back, sees, agree => by
    simp only [eval, agree hole sees.1, eval_agree M base back sees.2 agree]

/-- What operands compute depends on the locals they see. -/
theorem evalList_agree (M : Machine m V) : ∀ (es : List CExpr) {visible : Set LocalId}
    {first second : Locals V} (back : List V → m V), CExpr.SeesAll es visible →
      Agree visible first second → evalList M es back first = evalList M es back second
  | [], _, _, _, _, _, _ => by simp only [evalList]
  | e :: rest, _, _, _, back, sees, agree => by
    simp only [evalList, eval_agree M e back sees.1 agree, evalList_agree M rest back sees.2 agree]

end

end Eval

end Fai
