import FaiVerif.Core.Scoping
import FaiVerif.Core.Folds
import Mathlib.Data.List.Forall2

/-!
# Children of Core and what is bound around them

Each child of an expression with the slots its parent binds around it, and the slots the parent
names itself. A pass that leaves a node as it is and rewrites its children is right at the node when
it is right at the children, under whatever is bound around them.
-/

namespace Fai

namespace CExpr

/-- The children of an expression with the slots bound around them. -/
def scopes : CExpr → List (CExpr × List LocalId)
  | .letIn slot value body _ | .reset value slot body _ => [(value, []), (body, [slot])]
  | .letMany slots value body _ => [(value, []), (body, slots)]
  | .join params body _ => [(body, params)]
  | .holeStart hole body _ => [(body, [hole])]
  | e => e.children.map fun child => (child, [])

/-- The slots an expression names itself. -/
def ownSlots : CExpr → List LocalId
  | .loc slot _ | .freeReuse slot _ _ | .dup slot _ _ | .drop slot _ _ | .holeFill slot _ _ _
  | .holeClose slot _ _ => [slot]
  | .app _ _ reuse _ _ => reuse.flatMap Option.toList
  | .makeData _ _ reuse _ _ _ => reuse.toList
  | .makeClosure _ captures _ _ => captures
  | .dataField _ (.dyn _ evidence) _ _ _ => [evidence]
  | .join params _ _ => params
  | _ => []

/-- The children with the slots bound around them are the children. -/
theorem scopes_fst (e : CExpr) : e.scopes.map Prod.fst = e.children := by
  cases e with
  | letIn | reset | letMany | join | holeStart => rfl
  | _ => exact (List.map_map ..).trans (List.map_id _)

/-- Every child has slots bound around it. -/
theorem mem_children_of_scopes {e child : CExpr} {slots : List LocalId}
    (member : (child, slots) ∈ e.scopes) : child ∈ e.children := by
  rw [← scopes_fst]
  exact List.mem_map_of_mem member

/-- Nothing is bound around the value of a binding. -/
theorem value_mem_scopes (slot : LocalId) (value body : CExpr) (ty : Ty) :
    (value, []) ∈ (CExpr.letIn slot value body ty).scopes := List.mem_cons_self

/-- The slot of a binding is bound around its body. -/
theorem body_mem_scopes (slot : LocalId) (value body : CExpr) (ty : Ty) :
    (body, [slot]) ∈ (CExpr.letIn slot value body ty).scopes :=
  List.mem_cons_of_mem _ List.mem_cons_self

/-- No slots add nothing to a set. -/
theorem union_none (visible : Set LocalId) :
    visible ∪ {slot | slot ∈ ([] : List LocalId)} = visible := by simp

/-- One slot is added to a set. -/
theorem union_one (visible : Set LocalId) (slot : LocalId) :
    visible ∪ {other | other ∈ [slot]} = insert slot visible := by
  ext other
  simp only [Set.mem_union, Set.mem_ofPred_eq, List.mem_singleton, Set.mem_insert_iff, or_comm]

/-- A child sees what its parent does and what is bound around it. -/
theorem Sees.child {e child : CExpr} {slots : List LocalId} {visible : Set LocalId}
    (sees : e.Sees visible) (member : (child, slots) ∈ e.scopes) :
    child.Sees (visible ∪ {slot | slot ∈ slots}) := by
  have list {args : List CExpr} (all : SeesAll args visible)
      (among : (child, slots) ∈ args.map fun child => (child, ([] : List LocalId))) :
      child.Sees (visible ∪ {slot | slot ∈ slots}) := by
    obtain ⟨arg, here, same⟩ := List.mem_map.mp among
    injection same with same same'
    subst same same'
    rw [union_none]
    exact seesAll_iff.mp all arg here
  cases e with
  | lit | loc | global | makeClosure | error => exact absurd member List.not_mem_nil
  | prim | foreign | spread | recur => exact list sees member
  | makeData => exact list sees.1 member
  | app func args =>
    rcases List.mem_cons.mp member with same | among
    · injection same with same same'
      subst same same'
      rw [union_none]
      exact sees.1
    · exact list sees.2.1 among
  | ite cond yes no =>
    simp only [scopes, children, List.map_cons, List.map_nil, List.mem_cons, List.not_mem_nil,
      or_false, Prod.mk.injEq] at member
    rcases member with ⟨rfl, rfl⟩ | ⟨rfl, rfl⟩ | ⟨rfl, rfl⟩ <;> rw [union_none]
    · exact sees.1
    · exact sees.2.1
    · exact sees.2.2
  | letIn | reset =>
    simp only [scopes, List.mem_cons, List.not_mem_nil, or_false, Prod.mk.injEq] at member
    rcases member with ⟨rfl, rfl⟩ | ⟨rfl, rfl⟩
    · rw [union_none]
      exact sees.1
    · rw [union_one]
      exact sees.2
  | letMany =>
    simp only [scopes, List.mem_cons, List.not_mem_nil, or_false, Prod.mk.injEq] at member
    rcases member with ⟨rfl, rfl⟩ | ⟨rfl, rfl⟩
    · rw [union_none]
      exact sees.1
    · exact sees.2
  | join params body =>
    simp only [scopes, List.mem_singleton, Prod.mk.injEq] at member
    obtain ⟨rfl, rfl⟩ := member
    have same : visible ∪ {slot | slot ∈ slots} = visible :=
      Set.union_eq_self_of_subset_right fun slot here => sees.1 slot here
    rw [same]
    exact sees.2
  | holeStart =>
    simp only [scopes, List.mem_singleton, Prod.mk.injEq] at member
    obtain ⟨rfl, rfl⟩ := member
    rw [union_one]
    exact sees
  | dataTag =>
    simp only [scopes, children, List.map_cons, List.map_nil, List.mem_singleton,
      Prod.mk.injEq] at member
    obtain ⟨rfl, rfl⟩ := member
    rw [union_none]
    exact sees
  | dataField =>
    simp only [scopes, children, List.map_cons, List.map_nil, List.mem_singleton,
      Prod.mk.injEq] at member
    obtain ⟨rfl, rfl⟩ := member
    rw [union_none]
    exact sees.1
  | freeReuse | dup | drop | holeFill | holeClose =>
    simp only [scopes, children, List.map_cons, List.map_nil, List.mem_singleton,
      Prod.mk.injEq] at member
    obtain ⟨rfl, rfl⟩ := member
    rw [union_none]
    exact sees.2

end CExpr

namespace Eval

open CExpr Slots

variable {m : Type → Type} {V : Type}

/-- A local that is not bound holds what it held. -/
theorem Locals.setAll_other (missing : V) {slots : List LocalId} {slot : LocalId} :
    ∀ (env : Locals V) (values : List V), slot ∉ slots →
      env.setAll missing slots values slot = env slot := by
  induction slots with
  | nil => exact fun env values _ => rfl
  | cons first rest hypothesis =>
    intro env values absent
    rw [Locals.setAll, hypothesis _ _ fun member => absent (List.mem_cons_of_mem _ member)]
    exact if_neg fun same : slot = first => absent (same ▸ List.mem_cons_self)

/-- A local that is bound holds what is bound to it. -/
theorem Locals.setAll_same (missing : V) {slots : List LocalId} {slot : LocalId} :
    ∀ (first second : Locals V) (values : List V), slot ∈ slots →
      first.setAll missing slots values slot = second.setAll missing slots values slot := by
  induction slots with
  | nil => exact fun _ _ _ member => absurd member List.not_mem_nil
  | cons head rest hypothesis =>
    intro first second values member
    by_cases later : slot ∈ rest
    · exact hypothesis _ _ _ later
    · have same : slot = head := (List.mem_cons.mp member).resolve_right later
      rw [Locals.setAll, Locals.setAll, setAll_other missing _ _ later,
        setAll_other missing _ _ later, Locals.set, Locals.set, if_pos same, if_pos same]

variable [Monad m]

/-- A binding runs its value and then its body. -/
theorem eval_letIn (M : Machine m V) (slot : LocalId) (value body : CExpr) (ty : Ty)
    (back : List V → m V) (env : Locals V) :
    eval M (.letIn slot value body ty) back env = (do
      let held ← eval M value back env
      eval M body back (env.set slot held)) := by
  simp only [eval]

/-- One expression runs in some locals, whatever is bound around it, as another does in others. -/
def Matches (M : Machine m V) (env env' : Locals V) (e' : CExpr) (child : CExpr × List LocalId) :
    Prop :=
  ∀ (back : List V → m V) (values : List V),
    eval M e' back (env'.setAll (M.lit .unit) child.2 values) =
      eval M child.1 back (env.setAll (M.lit .unit) child.2 values)

/-- Operands that match run alike. -/
theorem evalList_matches {M : Machine m V} {env env' : Locals V} {es args : List CExpr}
    (all : List.Forall₂ (Matches M env env') es (args.map fun child => (child, [])))
    (back : List V → m V) : evalList M es back env' = evalList M args back env := by
  induction args generalizing es with
  | nil =>
    rw [List.forall₂_nil_right_iff.mp all]
    simp only [evalList]
  | cons arg args hypothesis =>
    obtain ⟨e, rest, here, later, rfl⟩ := List.forall₂_cons_right_iff.mp all
    have first := here back []
    simp only [Locals.setAll] at first
    simp only [evalList, first, hypothesis later]

/-- A node over other children runs as before in other locals, where the locals it names itself are
held alike and each child matches the one it replaces. -/
theorem eval_withChildren (M : Machine m V) {es : List CExpr} (e : CExpr) (back : List V → m V)
    {env env' : Locals V} (own : ∀ slot ∈ e.ownSlots, env' slot = env slot)
    (each : List.Forall₂ (Matches M env env') es e.scopes) :
    eval M (e.withChildren es) back env' = eval M e back env := by
  cases e with
  | lit | global | error => rfl
  | loc slot =>
    have same := own slot List.mem_cons_self
    simp only [withChildren, head, Head.build, eval, same]
  | makeClosure func captures =>
    have same : captures.map env' = captures.map env := List.map_congr_left own
    simp only [withChildren, head, Head.build, eval, same]
  | prim | foreign | spread | recur =>
    have operands := evalList_matches each back
    simp only [children] at operands
    simp only [withChildren, head, Head.build, eval, operands]
  | makeData tag args reuse =>
    have token : reuse.map env' = reuse.map env := by
      cases reuse with
      | none => rfl
      | some slot => exact congrArg some (own slot List.mem_cons_self)
    have operands := evalList_matches each back
    simp only [children] at operands
    simp only [withChildren, head, Head.build, eval, operands, token]
  | app func args reuse =>
    have tokens : reuse.map (Option.map env') = reuse.map (Option.map env) := by
      refine List.map_congr_left fun token member => ?_
      cases token with
      | none => rfl
      | some slot =>
        exact congrArg some (own slot (List.mem_flatMap.mpr ⟨some slot, member, by simp⟩))
    simp only [scopes, children, List.map_cons, List.forall₂_cons_right_iff] at each
    obtain ⟨func', args', here, later, rfl⟩ := each
    have callee := here back []
    have operands := evalList_matches later back
    simp only [Locals.setAll] at callee
    simp only [withChildren, head, Head.build, eval, callee, tokens, operands]
  | ite cond yes no =>
    simp only [scopes, children, List.map_cons, List.map_nil, List.forall₂_cons_right_iff,
      List.forall₂_nil_right_iff] at each
    obtain ⟨cond', _, first, ⟨yes', _, second, ⟨no', _, third, rfl, rfl⟩, rfl⟩, rfl⟩ := each
    have first := first back []
    have second := second back []
    have third := third back []
    simp only [Locals.setAll] at first second third
    simp only [withChildren, head, Head.build, eval, first, second, third]
  | letIn slot | reset _ slot =>
    simp only [scopes, List.forall₂_cons_right_iff, List.forall₂_nil_right_iff] at each
    obtain ⟨value', _, first, ⟨body', _, second, rfl, rfl⟩, rfl⟩ := each
    have first := first back []
    have second (held : V) := second back [held]
    simp only [Locals.setAll, List.headD_cons] at first second
    simp only [withChildren, head, Head.build, eval, first, second]
  | letMany slots =>
    simp only [scopes, List.forall₂_cons_right_iff, List.forall₂_nil_right_iff] at each
    obtain ⟨value', _, first, ⟨body', _, second, rfl, rfl⟩, rfl⟩ := each
    have first := first back []
    have second (parts : List V) := second back parts
    simp only [Locals.setAll] at first
    simp only at second
    simp only [withChildren, head, Head.build, eval, first, second]
  | join params =>
    simp only [scopes, List.forall₂_cons_right_iff, List.forall₂_nil_right_iff] at each
    obtain ⟨body', _, first, rfl, rfl⟩ := each
    have start : params.map env' = params.map env := List.map_congr_left own
    have turn (again : List V → m V) (values : List V) := first again values
    simp only at turn
    simp only [withChildren, head, Head.build, eval, start, turn]
  | holeStart hole =>
    simp only [scopes, List.forall₂_cons_right_iff, List.forall₂_nil_right_iff] at each
    obtain ⟨body', _, first, rfl, rfl⟩ := each
    have first (destination : V) := first back [destination]
    simp only [Locals.setAll, List.headD_cons] at first
    simp only [withChildren, head, Head.build, eval, first]
  | dataTag =>
    simp only [scopes, children, List.map_cons, List.map_nil, List.forall₂_cons_right_iff,
      List.forall₂_nil_right_iff] at each
    obtain ⟨base', _, first, rfl, rfl⟩ := each
    have first := first back []
    simp only [Locals.setAll] at first
    simp only [withChildren, head, Head.build, eval, first]
  | dataField _ index =>
    simp only [scopes, children, List.map_cons, List.map_nil, List.forall₂_cons_right_iff,
      List.forall₂_nil_right_iff] at each
    obtain ⟨base', _, first, rfl, rfl⟩ := each
    have first := first back []
    have spot : place env' index = place env index := by
      cases index with
      | const => rfl
      | dyn offset evidence => rw [place, place, own evidence List.mem_cons_self]
    simp only [Locals.setAll] at first
    simp only [withChildren, head, Head.build, eval, first, spot]
  | freeReuse slot | dup slot | drop slot | holeFill slot | holeClose slot =>
    simp only [scopes, children, List.map_cons, List.map_nil, List.forall₂_cons_right_iff,
      List.forall₂_nil_right_iff] at each
    obtain ⟨body', _, first, rfl, rfl⟩ := each
    have first := first back []
    have same := own slot List.mem_cons_self
    simp only [Locals.setAll] at first
    simp only [withChildren, head, Head.build, eval, first, same]

end Eval

end Fai
