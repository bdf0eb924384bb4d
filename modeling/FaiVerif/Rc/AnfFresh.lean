import FaiVerif.Rc.AnfTrail

/-!
# The temporaries of A-normal form

Normalization binds what the source binds and new slots from the next free one on, which no binder,
parameter or capture of the definition is. Together with what it does to a run this settles what
A-normal form keeps of a body.
-/

namespace Fai

namespace CExpr

mutual

/-- The slots an expression binds, each as often as it is bound. -/
def binders : CExpr → List LocalId
  | lit _ _ | loc _ _ | global _ _ | makeClosure _ _ _ _ | error _ => []
  | prim _ args _ | foreign _ args _ _ | spread args _ | makeData _ args _ _ _ _
  | recur args _ => bindersList args
  | app func args _ _ _ => func.binders ++ bindersList args
  | ite cond yes no _ => cond.binders ++ (yes.binders ++ no.binders)
  | letIn slot value body _ | reset value slot body _ => slot :: (value.binders ++ body.binders)
  | letMany slots value body _ => slots ++ (value.binders ++ body.binders)
  | dataTag base _ _ | dataField base _ _ _ _ | holeClose _ base _ => base.binders
  | freeReuse _ body _ | dup _ body _ | drop _ body _ | join _ body _ => body.binders
  | holeStart hole body _ => hole :: body.binders
  | holeFill _ cell _ _ => cell.binders

/-- The slots operands bind. -/
def bindersList : List CExpr → List LocalId
  | [] => []
  | e :: rest => e.binders ++ bindersList rest

end

/-- `bump`: the first slot after those seen so far and one more. -/
def bump (max : Nat) (slot : LocalId) : Nat := Nat.max max (slot + 1)

mutual

/-- `max_local`: the first slot after those seen so far and those of an expression. -/
def maxLocal : CExpr → Nat → Nat
  | loc slot _, max => bump max slot
  | lit _ _, max | global _ _, max | error _, max => max
  | prim _ args _, max | foreign _ args _ _, max | makeData _ args _ _ _ _, max
  | spread args _, max | recur args _, max => maxLocals args max
  | app func args reuse _ _, max =>
    (reuse.flatMap Option.toList).foldl bump (maxLocals args (func.maxLocal max))
  | ite cond yes no _, max => no.maxLocal (yes.maxLocal (cond.maxLocal max))
  | letIn slot value body _, max | reset value slot body _, max =>
    body.maxLocal (value.maxLocal (bump max slot))
  | makeClosure _ captures _ _, max => captures.foldl bump max
  | letMany slots value body _, max => body.maxLocal (value.maxLocal (slots.foldl bump max))
  | dataTag base _ _, max => base.maxLocal max
  | dataField base index _ _ _, max => index.slots.foldl bump (base.maxLocal max)
  | freeReuse slot body _, max | dup slot body _, max | drop slot body _, max
  | holeStart slot body _, max | holeFill slot body _ _, max | holeClose slot body _, max =>
    body.maxLocal (bump max slot)
  | join params body _, max => body.maxLocal (params.foldl bump max)

/-- The first slot after those seen so far and those of operands. -/
def maxLocals : List CExpr → Nat → Nat
  | [], max => max
  | e :: rest, max => maxLocals rest (e.maxLocal max)

end

/-- Bumping over slots comes after what was seen and after the slots. -/
theorem le_foldl_bump (slots : List LocalId) : ∀ max, max ≤ slots.foldl bump max ∧
    ∀ slot ∈ slots, slot < slots.foldl bump max := by
  induction slots with
  | nil => exact fun max => ⟨Nat.le_refl max, fun slot member => absurd member List.not_mem_nil⟩
  | cons first rest hypothesis =>
    intro max
    obtain ⟨ordered, later⟩ := hypothesis (bump max first)
    have seen : max ≤ bump max first := Nat.le_max_left ..
    have next : first < bump max first := Nat.le_max_right ..
    rw [List.foldl_cons]
    exact ⟨Nat.le_trans seen ordered,
      List.forall_mem_cons.mpr ⟨Nat.lt_of_lt_of_le next ordered, later⟩⟩

/-- The slots up to some bound, and the slots of a list below it. -/
def Past (max last : Nat) (slots : List LocalId) : Prop := max ≤ last ∧ ∀ slot ∈ slots, slot < last

/-- One more step past some slots. -/
theorem Past.trans {max middle last : Nat} {first second : List LocalId}
    (past : Past max middle first) (past' : Past middle last second) :
    Past max last (first ++ second) := by
  refine ⟨Nat.le_trans past.1 past'.1, fun slot member => ?_⟩
  rcases List.mem_append.mp member with early | late
  · exact Nat.lt_of_lt_of_le (past.2 slot early) past'.1
  · exact past'.2 slot late

/-- Bumping a slot comes past it. -/
theorem past_bump (max : Nat) (slot : LocalId) : Past max (bump max slot) [slot] :=
  ⟨Nat.le_max_left .., by
    rw [List.forall_mem_singleton]
    exact Nat.le_max_right max (slot + 1)⟩

/-- A later end is past fewer slots as well. -/
theorem Past.later {max middle last : Nat} {slots : List LocalId} (past : Past max middle slots)
    (ordered : middle ≤ last) : Past max last slots :=
  ⟨Nat.le_trans past.1 ordered, fun slot member => Nat.lt_of_lt_of_le (past.2 slot member) ordered⟩

mutual

/-- `max_local` comes past the binders of an expression. -/
theorem past_maxLocal : ∀ (e : CExpr) (max : Nat), Past max (e.maxLocal max) e.binders
  | .lit _ _, max | .global _ _, max | .error _, max =>
    ⟨Nat.le_refl max, fun _ member => absurd member List.not_mem_nil⟩
  | .loc slot _, max => ⟨(past_bump max slot).1, fun _ member => absurd member List.not_mem_nil⟩
  | .makeClosure _ captures _ _, max =>
    ⟨(le_foldl_bump captures max).1, fun _ member => absurd member List.not_mem_nil⟩
  | .prim _ args _, max | .foreign _ args _ _, max | .makeData _ args _ _ _ _, max
  | .spread args _, max | .recur args _, max => past_maxLocals args max
  | .app func args reuse _ _, max =>
    ((past_maxLocal func max).trans (past_maxLocals args _)).later
      (le_foldl_bump (reuse.flatMap Option.toList) _).1
  | .ite cond yes no _, max =>
    (past_maxLocal cond max).trans ((past_maxLocal yes _).trans (past_maxLocal no _))
  | .letIn slot value body _, max | .reset value slot body _, max =>
    (past_bump max slot).trans ((past_maxLocal value _).trans (past_maxLocal body _))
  | .letMany slots value body _, max =>
    Past.trans (le_foldl_bump slots max) ((past_maxLocal value _).trans (past_maxLocal body _))
  | .dataTag base _ _, max => past_maxLocal base max
  | .dataField base index _ _ _, max =>
    (past_maxLocal base max).later (le_foldl_bump index.slots _).1
  | .holeStart slot body _, max => (past_bump max slot).trans (past_maxLocal body _)
  | .freeReuse slot body _, max | .dup slot body _, max | .drop slot body _, max
  | .holeFill slot body _ _, max | .holeClose slot body _, max =>
    ⟨Nat.le_trans (past_bump max slot).1 (past_maxLocal body _).1, (past_maxLocal body _).2⟩
  | .join params body _, max =>
    ⟨Nat.le_trans (le_foldl_bump params max).1 (past_maxLocal body _).1, (past_maxLocal body _).2⟩

/-- `max_local` over operands comes past their binders. -/
theorem past_maxLocals : ∀ (es : List CExpr) (max : Nat), Past max (maxLocals es max)
    (bindersList es)
  | [], max => ⟨Nat.le_refl max, fun _ member => absurd member List.not_mem_nil⟩
  | e :: rest, max => (past_maxLocal e max).trans (past_maxLocals rest _)

end

end CExpr

namespace CoreFn

/-- The slots a function binds: its parameters, its captures and the binders of its body. -/
def binders (f : CoreFn) : List LocalId := f.params ++ (f.captures ++ f.body.binders)

/-- The slots a function's body starts with. -/
def entry (f : CoreFn) : Finset LocalId := (f.params ++ f.captures).toFinset

/-- The first slot after those seen so far and those of a function. -/
def maxLocal (max : Nat) (f : CoreFn) : Nat :=
  f.body.maxLocal (f.captures.foldl CExpr.bump (f.params.foldl CExpr.bump max))

/-- A function's slots are passed. -/
theorem past_maxLocal (f : CoreFn) (max : Nat) : CExpr.Past max (f.maxLocal max) f.binders :=
  CExpr.Past.trans (CExpr.le_foldl_bump f.params max)
    (CExpr.Past.trans (CExpr.le_foldl_bump f.captures _) (CExpr.past_maxLocal f.body _))

end CoreFn

/-- `next_free_local`: the first slot after those of a definition. -/
def nextFreeLocal (fns : List CoreFn) : Nat := fns.foldl CoreFn.maxLocal 0

/-- Every slot a definition binds is below its next free one. -/
theorem lt_nextFreeLocal {fns : List CoreFn} {f : CoreFn} (member : f ∈ fns) :
    ∀ slot ∈ f.binders, slot < nextFreeLocal fns := by
  have past (fns : List CoreFn) : ∀ max, max ≤ fns.foldl CoreFn.maxLocal max ∧
      ∀ f ∈ fns, ∀ slot ∈ f.binders, slot < fns.foldl CoreFn.maxLocal max := by
    induction fns with
    | nil => exact fun max => ⟨Nat.le_refl max, fun f member => absurd member List.not_mem_nil⟩
    | cons first rest hypothesis =>
      intro max
      obtain ⟨seen, below⟩ := first.past_maxLocal max
      obtain ⟨ordered, later⟩ := hypothesis (first.maxLocal max)
      rw [List.foldl_cons]
      exact ⟨Nat.le_trans seen ordered, List.forall_mem_cons.mpr
        ⟨fun slot bound => Nat.lt_of_lt_of_le (below slot bound) ordered, later⟩⟩
  exact (past fns 0).2 f member

namespace Anf

open CExpr

/-- The slots bindings bind. -/
def bindersOf (binds : List (LocalId × CExpr)) : List LocalId :=
  binds.flatMap fun binding => binding.1 :: binding.2.binders

/-- The binders of an expression under bindings. -/
theorem binders_wrapBinds (binds : List (LocalId × CExpr)) (inner : CExpr) :
    (wrapBinds binds inner).binders = bindersOf binds ++ inner.binders := by
  induction binds with
  | nil => rfl
  | cons binding rest hypothesis =>
    rw [wrapBinds, List.foldr_cons, CExpr.binders, bindersOf, List.flatMap_cons]
    rw [wrapBinds, bindersOf] at hypothesis
    simp only [hypothesis, List.cons_append, List.append_assoc]

/-- How often a slot is among the new ones from one on up to another. -/
def between (first last slot : Nat) : Nat := if first ≤ slot ∧ slot < last then 1 else 0

/-- New slots up to one and from there on. -/
theorem between_add {first middle last : Nat} (ordered : first ≤ middle) (ordered' : middle ≤ last)
    (slot : Nat) : between first middle slot + between middle last slot =
      between first last slot := by
  unfold between
  split_ifs <;> omega

/-- No slot is new before the first one is. -/
theorem between_self (next slot : Nat) : between next next slot = 0 := if_neg (by omega)

/-- One new slot. -/
theorem between_succ (next slot : Nat) : between next (next + 1) slot = [next].count slot := by
  rw [between, List.count_singleton]
  by_cases same : next = slot
  · rw [if_pos (by omega), if_pos (beq_iff_eq.mpr same)]
  · rw [if_neg (by omega), if_neg (fun equal => same (beq_iff_eq.mp equal))]

/-- What a normalization binds is what its source binds and each new slot once. -/
def BindsNew {γ : Type} (next : Nat) (source before : List LocalId) (target : γ → List LocalId)
    (normalized : Option (γ × Seq)) : Prop :=
  ∀ result binds last, normalized = some (result, ⟨binds, last⟩) → next ≤ last ∧
    ∀ slot, (bindersOf binds).count slot + (target result).count slot =
      before.count slot + source.count slot + between next last slot

/-- An operand that is bound where it is compound binds one more new slot. -/
theorem bindsNew_bind (test : CExpr → Bool) {next : Nat} {source before : List LocalId}
    {normalized : Option (CExpr × Seq)} {named : CExpr × Seq → CExpr × Seq}
    (cases : ∀ op seq, named (op, seq) = if test op then (op, seq) else Anf.bind op seq)
    (new : BindsNew next source before CExpr.binders normalized) :
    BindsNew next source before CExpr.binders (normalized.map named) := by
  intro result binds last found
  rw [Option.map_eq_some_iff] at found
  obtain ⟨⟨op, seq⟩, here, found⟩ := found
  rw [cases] at found
  obtain ⟨ordered, counts⟩ := new op seq.binds seq.next here
  by_cases direct : test op = true
  · rw [if_pos direct, Prod.mk.injEq] at found
    obtain ⟨rfl, rfl⟩ := found
    exact ⟨ordered, counts⟩
  · rw [if_neg direct, Anf.bind, Prod.mk.injEq, Seq.mk.injEq] at found
    obtain ⟨rfl, rfl, rfl⟩ := found
    refine ⟨Nat.le_succ_of_le ordered, fun slot => ?_⟩
    have counted := counts slot
    have whole := between_add ordered (Nat.le_add_right seq.next 1) slot
    rw [between_succ] at whole
    simp only [bindersOf, List.flatMap_append, List.flatMap_cons, List.flatMap_nil,
      List.append_nil, List.count_append, List.count_cons, List.count_nil, CExpr.binders]
      at counted whole ⊢
    omega

/-- An atom operand binds what normalization adds. -/
theorem bindsNew_atomize {next : Nat} {source before : List LocalId}
    {normalized : Option (CExpr × Seq)}
    (new : BindsNew next source before CExpr.binders normalized) :
    BindsNew next source before CExpr.binders (normalized.map atomize) :=
  bindsNew_bind isAtom (fun _ _ => rfl) new

/-- A projection base binds what normalization adds. -/
theorem bindsNew_toLocal {next : Nat} {source before : List LocalId}
    {normalized : Option (CExpr × Seq)}
    (new : BindsNew next source before CExpr.binders normalized) :
    BindsNew next source before CExpr.binders (normalized.map toLocal) :=
  bindsNew_bind (fun op => op.asLocal.isSome) (fun _ _ => rfl) new

/-- A body with a scope of its own binds what normalization adds. -/
theorem bindsNew_wrapped {next : Nat} {source : List LocalId} {normalized : Option (CExpr × Seq)}
    (new : BindsNew next source [] CExpr.binders normalized) {body : CExpr} {last : Nat}
    (found : normalized.map wrapped = some (body, last)) :
    next ≤ last ∧ ∀ slot, body.binders.count slot = source.count slot + between next last slot := by
  rw [Option.map_eq_some_iff] at found
  obtain ⟨⟨op, seq⟩, here, found⟩ := found
  rw [wrapped, Prod.mk.injEq] at found
  obtain ⟨rfl, rfl⟩ := found
  obtain ⟨ordered, counts⟩ := new op seq.binds seq.next here
  refine ⟨ordered, fun slot => ?_⟩
  have counted := counts slot
  rw [List.count_nil] at counted
  simp only [binders_wrapBinds, List.count_append]
  omega

/-- New slots after others. -/
theorem BindsNew.next {δ : Type} {next middle : Nat} {source source' before : List LocalId}
    {binds : List (LocalId × CExpr)} {first : List LocalId} {target : δ → List LocalId}
    {normalized : Option (δ × Seq)} (ordered : next ≤ middle)
    (counts : ∀ slot, (bindersOf binds).count slot + first.count slot =
      before.count slot + source.count slot + between next middle slot)
    (new : BindsNew middle source' (bindersOf binds) target normalized) :
    BindsNew next (source ++ source') before (fun result => first ++ target result) normalized := by
  intro result binds' last found
  obtain ⟨ordered', counts'⟩ := new result binds' last found
  refine ⟨Nat.le_trans ordered ordered', fun slot => ?_⟩
  have one := counts slot
  have two := counts' slot
  have whole := between_add ordered ordered' slot
  simp only [List.count_append]
  omega

mutual

/-- A normalization binds what its source binds and each new slot once. -/
theorem bindsNew_anfOp : ∀ (e : CExpr) (binds : List (LocalId × CExpr)) (next : Nat),
    BindsNew next e.binders (bindersOf binds) CExpr.binders (anfOp e ⟨binds, next⟩)
  | .lit _ _, binds, next | .loc _ _, binds, next | .global _ _, binds, next
  | .error _, binds, next | .makeClosure _ _ _ _, binds, next => by
    intro result binds' last found
    simp only [anfOp, Option.some.injEq, Prod.mk.injEq, Seq.mk.injEq] at found
    obtain ⟨rfl, rfl, rfl⟩ := found
    exact ⟨Nat.le_refl _, fun slot => by rw [between_self, CExpr.binders, Nat.add_zero]⟩
  | .prim _ args _, binds, next | .foreign _ args _ _, binds, next
  | .makeData _ args _ _ _ _, binds, next | .spread args _, binds, next => by
    intro result binds' last found
    simp only [anfOp, Option.bind_eq_bind, Option.bind_eq_some_iff, Option.pure_def,
      Option.some.injEq, Prod.mk.injEq] at found
    obtain ⟨⟨atoms, seq⟩, here, rfl, rfl⟩ := found
    exact bindsNew_atomizeList args binds next atoms _ _ here
  | .app func args _ _ _, binds, next => by
    intro result binds' last found
    simp only [anfOp, Option.bind_eq_bind, Option.bind_eq_some_iff, Option.pure_def,
      Option.some.injEq, Prod.mk.injEq] at found
    obtain ⟨⟨atom, seq⟩, here, ⟨atoms, seq'⟩, here', rfl, rfl⟩ := found
    obtain ⟨ordered, counts⟩ := bindsNew_atomize (bindsNew_anfOp func binds next) _ _ _ here
    exact BindsNew.next ordered counts (bindsNew_atomizeList args seq.binds seq.next) _ _ _ here'
  | .dataTag base _ _, binds, next | .dataField base _ _ _ _, binds, next => by
    intro result binds' last found
    simp only [anfOp, Option.bind_eq_bind, Option.bind_eq_some_iff, Option.pure_def,
      Option.some.injEq, Prod.mk.injEq] at found
    obtain ⟨⟨atom, seq⟩, here, rfl, rfl⟩ := found
    exact bindsNew_toLocal (bindsNew_anfOp base binds next) atom _ _ here
  | .ite cond yes no _, binds, next => by
    intro result binds' last found
    simp only [anfOp, Option.bind_eq_bind, Option.bind_eq_some_iff, Option.pure_def,
      Option.some.injEq, Prod.mk.injEq, Seq.mk.injEq] at found
    obtain ⟨⟨atom, seq⟩, here, ⟨yes', middle⟩, here', ⟨no', last'⟩, here'', rfl, rfl, rfl⟩ := found
    obtain ⟨ordered, counts⟩ := bindsNew_atomize (bindsNew_anfOp cond binds next) _ _ _ here
    obtain ⟨ordered', counts'⟩ := bindsNew_wrapped (bindsNew_anfOp yes [] seq.next) here'
    obtain ⟨ordered'', counts''⟩ := bindsNew_wrapped (bindsNew_anfOp no [] middle) here''
    refine ⟨by omega, fun slot => ?_⟩
    have one := counts slot
    have two := counts' slot
    have three := counts'' slot
    have early := between_add ordered ordered' slot
    have late := between_add (Nat.le_trans ordered ordered') ordered'' slot
    simp only [CExpr.binders, List.count_append]
    omega
  | .letIn slot value body _, binds, next => by
    intro result binds' last found
    simp only [anfOp, Option.bind_eq_bind, Option.bind_eq_some_iff] at found
    obtain ⟨⟨held, seq⟩, here, found⟩ := found
    obtain ⟨ordered, counts⟩ := bindsNew_anfOp value binds next _ _ _ here
    obtain ⟨ordered', counts'⟩ := bindsNew_anfOp body (seq.binds ++ [(slot, held)]) seq.next
      _ _ _ found
    refine ⟨Nat.le_trans ordered ordered', fun other => ?_⟩
    have one := counts other
    have two := counts' other
    have whole := between_add ordered ordered' other
    simp only [bindersOf, List.flatMap_append, List.flatMap_cons, List.flatMap_nil,
      List.append_nil, List.count_append, List.count_cons, CExpr.binders] at one two ⊢
    omega
  | .letMany slots value body _, binds, next => by
    intro result binds' last found
    simp only [anfOp, Option.bind_eq_bind, Option.bind_eq_some_iff, Option.pure_def,
      Option.some.injEq, Prod.mk.injEq, Seq.mk.injEq] at found
    obtain ⟨⟨value', middle⟩, here, ⟨body', last'⟩, here', rfl, rfl, rfl⟩ := found
    obtain ⟨ordered, counts⟩ := bindsNew_wrapped (bindsNew_anfOp value [] next) here
    obtain ⟨ordered', counts'⟩ := bindsNew_wrapped (bindsNew_anfOp body [] middle) here'
    refine ⟨Nat.le_trans ordered ordered', fun slot => ?_⟩
    have one := counts slot
    have two := counts' slot
    have whole := between_add ordered ordered' slot
    simp only [CExpr.binders, List.count_append]
    omega
  | .reset value token body _, binds, next => by
    intro result binds' last found
    simp only [anfOp, Option.bind_eq_bind, Option.bind_eq_some_iff, Option.pure_def,
      Option.some.injEq, Prod.mk.injEq, Seq.mk.injEq] at found
    obtain ⟨⟨value', middle⟩, here, ⟨body', last'⟩, here', rfl, rfl, rfl⟩ := found
    obtain ⟨ordered, counts⟩ := bindsNew_wrapped (bindsNew_anfOp value [] next) here
    obtain ⟨ordered', counts'⟩ := bindsNew_wrapped (bindsNew_anfOp body [] middle) here'
    refine ⟨Nat.le_trans ordered ordered', fun slot => ?_⟩
    have one := counts slot
    have two := counts' slot
    have whole := between_add ordered ordered' slot
    simp only [CExpr.binders, List.count_append, List.count_cons]
    omega
  | .freeReuse _ body _, binds, next | .dup _ body _, binds, next
  | .drop _ body _, binds, next => by
    intro result binds' last found
    simp only [anfOp, Option.bind_eq_bind, Option.bind_eq_some_iff, Option.pure_def,
      Option.some.injEq, Prod.mk.injEq, Seq.mk.injEq] at found
    obtain ⟨⟨body', last'⟩, here, rfl, rfl, rfl⟩ := found
    obtain ⟨ordered, counts⟩ := bindsNew_wrapped (bindsNew_anfOp body [] next) here
    refine ⟨ordered, fun slot => ?_⟩
    have one := counts slot
    simp only [CExpr.binders]
    omega
  | .join _ _ _, _, _ | .recur _ _, _, _ | .holeStart _ _ _, _, _ | .holeFill _ _ _ _, _, _
  | .holeClose _ _ _, _, _ => by
    intro result binds' last found
    simp [anfOp] at found

/-- Operands bind what their sources bind and each new slot once. -/
theorem bindsNew_atomizeList : ∀ (es : List CExpr) (binds : List (LocalId × CExpr)) (next : Nat),
    BindsNew next (bindersList es) (bindersOf binds) bindersList (atomizeList es ⟨binds, next⟩)
  | [], binds, next => by
    intro result binds' last found
    simp only [atomizeList, Option.some.injEq, Prod.mk.injEq, Seq.mk.injEq] at found
    obtain ⟨rfl, rfl, rfl⟩ := found
    exact ⟨Nat.le_refl _, fun slot => by rw [between_self, Nat.add_zero]⟩
  | head :: rest, binds, next => by
    intro result binds' last found
    simp only [atomizeList, Option.bind_eq_bind, Option.bind_eq_some_iff, Option.pure_def,
      Option.some.injEq, Prod.mk.injEq] at found
    obtain ⟨⟨atom, seq⟩, here, ⟨atoms, seq'⟩, here', rfl, rfl⟩ := found
    obtain ⟨ordered, counts⟩ := bindsNew_atomize (bindsNew_anfOp head binds next) _ _ _ here
    exact BindsNew.next ordered counts (bindsNew_atomizeList rest seq.binds seq.next) _ _ _ here'

end

open Eval in
/-- A body of a definition in scope has an A-normal form in the same scope, which binds what the
body binds and each new slot once, none of them bound anywhere in the definition. It runs like the
body in every machine, whichever definitions are of zero arity, if and only if no operand that
reads one of these comes before one that hoists something that runs. -/
theorem anf_keeps_meaning {fns : List CoreFn} {f : CoreFn} (member : f ∈ fns) {next : Nat}
    (free : nextFreeLocal fns ≤ next) (sees : f.body.Sees (f.entry : Set LocalId))
    (inScope : (f.body.scope next f.entry).isSome = true) :
    ∃ body last, anf f.body next = some (body, last) ∧ body.Normal last f.entry ∧
      (∀ slot, body.binders.count slot = f.body.binders.count slot + between next last slot) ∧
      (∀ slot, next ≤ slot → ∀ g ∈ fns, slot ∉ g.binders) ∧
      ∀ nullary : DefId → Bool,
        (∀ (m : Type → Type) [Monad m] [LawfulMonad m] (V : Type) (M : Machine m V),
          StaticClosures nullary M → Alike M body f.body) ↔ ReadsInPlace nullary f.body := by
  have early : ∀ slot ∈ f.entry, slot < next := by
    intro slot bound
    refine Nat.lt_of_lt_of_le (lt_nextFreeLocal member slot ?_) free
    rw [CoreFn.binders, ← List.append_assoc]
    exact List.mem_append_left _ (List.mem_toFinset.mp bound)
  obtain ⟨out, inBody⟩ := Option.isSome_iff_exists.mp inScope
  have covers : Covers next next f.entry f.entry :=
    ⟨early, fun _ here => here, fun _ here => .inl here⟩
  have opens := opens_anfOp f.body f.entry out inBody f.entry [] next (Nat.le_refl next) covers
  obtain ⟨body, last, found, _, normal, _⟩ := wrapped_normal opens
  obtain ⟨_, counts⟩ := bindsNew_wrapped (bindsNew_anfOp f.body [] next) found
  have ready : Ready next next f.entry f.entry (f.entry : Set LocalId) :=
    ⟨Set.Subset.refl _, Nat.le_refl next, covers⟩
  -- the A-normal form runs what the body hoists and leaves
  have same {m : Type → Type} [Monad m] [LawfulMonad m] {V : Type} (M : Machine m V)
      (back : List V → m V) (env : Locals V) :
      whole (hoist M f.body back env) = eval M body back env :=
    hoists_wrapped opens (hoists_anfOp f.body f.entry out _ f.entry [] next inBody sees ready) found
      fun _ _ => rfl
  refine ⟨body, last, found, normal, counts, fun slot new g present bound => ?_,
    fun nullary => ⟨fun alike => ?_, fun reads m _ _ V M statics back env => ?_⟩⟩
  · have seen := Nat.lt_of_lt_of_le (lt_nextFreeLocal present slot bound) free
    exact absurd seen (Nat.not_lt.mpr new)
  · have run (env : Locals Nat) : whole (hoist (trailing nullary) f.body (fun _ => pure 0) env) =
        eval (trailing nullary) f.body (fun _ => pure 0) env :=
      (same _ _ env).trans (alike _ _ _ (trailing_statics nullary) _ env)
    exact readsInPlace_of_alike (lowered_of_scope inBody) run
  · rw [← same]
    exact whole_hoist statics reads env

/-- `f (x * x) + g` with a parameter `x`, a function `f` and a definition `g`. -/
def squarePlus : CoreFn where
  params := [0]
  captures := []
  body := .prim .intAdd [.app (.global ⟨0, 1⟩ (.con .int))
      [.prim .intMul [.loc 0 (.con .int), .loc 0 (.con .int)] (.con .int)] [] .heap (.con .int),
    .global ⟨0, 0⟩ (.con .int)] (.con .int)

/-- The read of `g` comes last, and that of `f` runs nothing. -/
theorem readsInPlace_squarePlus :
    ReadsInPlace (fun target => target == ⟨0, 0⟩) squarePlus.body := by
  have leaf {e : CExpr} (alone : e.children = []) (none : e.operands = []) :
      ReadsInPlace (fun target => target == ⟨0, 0⟩) e :=
    .node (by rw [none]; trivial) fun child member => by
      rw [alone] at member
      exact absurd member List.not_mem_nil
  have square : ReadsInPlace (fun target => target == ⟨0, 0⟩)
      (.prim .intMul [.loc 0 (.con .int), .loc 0 (.con .int)] (.con .int)) := by
    refine .node ⟨fun forces => (by cases forces), fun forces => (by cases forces), trivial⟩
      fun child member => ?_
    simp only [children, List.mem_cons, List.not_mem_nil, or_false, or_self] at member
    rw [member]
    exact leaf rfl rfl
  refine .node ⟨fun forces => (by cases forces), fun _ later member => ?_, trivial⟩
    fun child member => ?_
  · exact absurd member List.not_mem_nil
  · rcases List.mem_cons.mp member with rfl | member
    · refine .node ⟨fun forces => (by cases forces), fun forces => (by cases forces), trivial⟩
        fun child member => ?_
      simp only [children, List.mem_cons, List.not_mem_nil, or_false] at member
      rcases member with rfl | rfl
      · exact leaf rfl rfl
      · exact square
    · rw [List.mem_singleton.mp member]
      exact leaf rfl rfl

/-- The square and the call are bound to the next slots, and the sum runs as before. -/
theorem anf_keeps_meaning_squarePlus : ∃ body last, anf squarePlus.body 1 = some (body, last) ∧
    body.Normal last squarePlus.entry ∧ ∀ (m : Type → Type) [Monad m] [LawfulMonad m] (V : Type)
      (M : Eval.Machine m V), StaticClosures (fun target => target == ⟨0, 0⟩) M →
        Eval.Alike M body squarePlus.body := by
  have member : squarePlus ∈ [squarePlus] := List.mem_cons_self
  obtain ⟨body, last, found, normal, _, _, alike⟩ := anf_keeps_meaning member
    (show nextFreeLocal [squarePlus] ≤ 1 by decide)
    (by simp [squarePlus, Sees, SeesAll, CoreFn.entry]) (by decide)
  exact ⟨body, last, found, normal, (alike _).mpr readsInPlace_squarePlus⟩

/-- `g + 1 / 0` for a zero-arity definition `g`. -/
def readPlusQuotient : CoreFn where
  params := []
  captures := []
  body := .prim .intAdd [.global ⟨0, 0⟩ (.con .int),
    .prim .intDiv [.lit (.int 1) (.con .int), .lit (.int 0) (.con .int)] (.con .int)] (.con .int)

/-- A machine in which reading the first definition aborts, as does every operation. -/
def aborting : Eval.Machine (Except (DefId ⊕ Option Prim)) Unit where
  lit _ := ()
  global target := if target == ⟨0, 0⟩ then .error (.inl target) else .ok ()
  prim op _ := .error (.inr op)
  foreign _ _ := .error (.inr none)
  apply _ _ _ := .error (.inr none)
  test _ := .error (.inr none)
  closure _ _ _ := .error (.inr none)
  data _ _ _ _ _ := .error (.inr none)
  tag _ _ := .error (.inr none)
  field _ _ _ _ := .error (.inr none)
  spread _ := .error (.inr none)
  components _ := .error (.inr none)
  dup _ := .error (.inr none)
  drop _ := .error (.inr none)
  reset _ := .error (.inr none)
  freeReuse _ := .error (.inr none)
  loop _ _ := .error (.inr none)
  holeStart := .error (.inr none)
  holeFill _ _ _ := .error (.inr none)
  holeClose _ _ := .error (.inr none)
  trap := .error (.inr none)

open Eval in
/-- `g + 1 / 0` aborts in `g`, and its A-normal form in the division. -/
theorem anf_moves_read : (readPlusQuotient.body.scope (nextFreeLocal [readPlusQuotient])
      readPlusQuotient.entry).isSome = true ∧
    ∃ body last, anf readPlusQuotient.body (nextFreeLocal [readPlusQuotient]) = some (body, last) ∧
      eval aborting readPlusQuotient.body (fun _ => pure ()) (fun _ => ()) =
        .error (.inl ⟨0, 0⟩) ∧
      eval aborting body (fun _ => pure ()) (fun _ => ()) = .error (.inr Prim.intDiv) ∧
      StaticClosures (fun target => target == ⟨0, 0⟩) aborting ∧
      ¬ Alike aborting body readPlusQuotient.body := by
  refine ⟨by decide, _, _, rfl, rfl, rfl, fun target other => ⟨(), ?_⟩, fun alike => ?_⟩
  · exact if_neg (Bool.eq_false_iff.mp other)
  have same := alike (fun _ => pure ()) (fun _ => ())
  cases same

end Anf

end Fai
