import FaiVerif.Core.Scopes
import FaiVerif.Rc.Aliases

/-!
# What coalescing knows of aliases

One table serves the whole body, so an entry outlives the scope it was made in. The table is right
as long as no binding that stays binds a slot with an entry, and no loop carries a slot with an
entry or a local that another slot is called by.
-/

namespace Fai

namespace CExpr

/-- The local that the value of an expression is, where it is one under bindings. -/
def named : CExpr → Option LocalId
  | loc slot _ => some slot
  | letIn slot value body _ =>
    body.named.bind fun last => if last = slot then value.named else some last
  | _ => none

mutual

/-- No slot is bound again while it is bound. -/
def ShadowFree : CExpr → Set LocalId → Prop
  | .lit _ _, _ | .loc _ _, _ | .global _ _, _ | .makeClosure _ _ _ _, _ | .error _, _ => True
  | .prim _ args _, bound | .foreign _ args _ _, bound | .makeData _ args _ _ _ _, bound
  | .recur args _, bound | .spread args _, bound => ShadowFreeAll args bound
  | .app func args _ _ _, bound => func.ShadowFree bound ∧ ShadowFreeAll args bound
  | .ite cond yes no _, bound => cond.ShadowFree bound ∧ yes.ShadowFree bound ∧ no.ShadowFree bound
  | .letIn slot value body _, bound =>
    slot ∉ bound ∧ value.ShadowFree (insert slot bound) ∧ body.ShadowFree (insert slot bound)
  | .letMany slots value body _, bound =>
    (∀ slot ∈ slots, slot ∉ bound) ∧ value.ShadowFree bound ∧
      body.ShadowFree (bound ∪ {slot | slot ∈ slots})
  | .reset value token body _, bound =>
    token ∉ bound ∧ value.ShadowFree bound ∧ body.ShadowFree (insert token bound)
  | .holeStart hole body _, bound => hole ∉ bound ∧ body.ShadowFree (insert hole bound)
  | .freeReuse _ body _, bound | .dup _ body _, bound | .drop _ body _, bound
  | .join _ body _, bound | .dataTag body _ _, bound | .dataField body _ _ _ _, bound
  | .holeClose _ body _, bound | .holeFill _ body _ _, bound => body.ShadowFree bound

/-- Operands in which no slot is bound again while it is bound. -/
def ShadowFreeAll : List CExpr → Set LocalId → Prop
  | [], _ => True
  | e :: rest, bound => e.ShadowFree bound ∧ ShadowFreeAll rest bound

end

end CExpr

namespace Aliases

open CExpr

section Rewriting

variable (decls : TypeDecls) (types : Types)

mutual

/-- While an expression is rewritten, a binding that stays binds slots without an entry, and a loop
carries slots that have none and that no other visible local is called by. -/
def Steady : CExpr → Aliases → Set LocalId → Prop
  | .lit _ _, _, _ | .loc _ _, _, _ | .global _ _, _, _ | .makeClosure _ _ _ _, _, _
  | .error _, _, _ => True
  | .prim _ args _, s, visible | .foreign _ args _ _, s, visible
  | .makeData _ args _ _ _ _, s, visible | .recur args _, s, visible
  | .spread args _, s, visible => SteadyAll args s visible
  | .app func args _ _ _, s, visible =>
    Steady func s visible ∧ SteadyAll args (rewrite decls types func s).2 visible
  | .ite cond yes no _, s, visible =>
    let first := rewrite decls types cond s
    Steady cond s visible ∧ Steady yes first.2 visible ∧
      Steady no (rewrite decls types yes first.2).2 visible
  | .letIn slot value body _, s, visible =>
    let held := rewrite decls types value s
    Steady value s visible ∧
      match replacement decls types slot held.1 with
      | some original =>
        Steady body (held.2.insert slot (held.2.target original) held.1.ty)
          (Insert.insert slot visible)
      | none => held.2.locals slot = none ∧ Steady body held.2 (Insert.insert slot visible)
  | .letMany slots value body _, s, visible =>
    let held := rewrite decls types value s
    Steady value s visible ∧ (∀ slot ∈ slots, held.2.locals slot = none) ∧
      Steady body held.2 (visible ∪ {slot | slot ∈ slots})
  | .reset value token body _, s, visible =>
    let held := rewrite decls types value s
    Steady value s visible ∧ held.2.locals token = none ∧
      Steady body held.2 (Insert.insert token visible)
  | .holeStart hole body _, s, visible =>
    s.locals hole = none ∧ Steady body s (Insert.insert hole visible)
  | .join params body _, s, visible =>
    ((∀ slot ∈ params, s.locals slot = none) ∧
      ∀ slot ∈ visible, slot ∉ params → s.target slot ∉ params) ∧ Steady body s visible
  | .freeReuse _ body _, s, visible | .dup _ body _, s, visible | .drop _ body _, s, visible
  | .dataTag body _ _, s, visible | .dataField body _ _ _ _, s, visible
  | .holeClose _ body _, s, visible | .holeFill _ body _ _, s, visible => Steady body s visible

/-- Operands in which bindings and loops are so. -/
def SteadyAll : List CExpr → Aliases → Set LocalId → Prop
  | [], _, _ => True
  | e :: rest, s, visible =>
    Steady e s visible ∧ SteadyAll rest (rewrite decls types e s).2 visible

end

variable {decls types}

/-- A later table: it says the same of the bound locals and forgets nothing. -/
structure Later (bound : Set LocalId) (s s' : Aliases) : Prop where
  /-- The bound locals are called the same. -/
  kept : ∀ slot ∈ bound, s'.locals slot = s.locals slot
  /-- Removed locals stay removed. -/
  grown : ∀ slot, (s.locals slot).isSome = true → (s'.locals slot).isSome = true
  /-- Locals that were given a type still are. -/
  typed : ∀ slot, (s.retainedTypes slot).isSome = true → (s'.retainedTypes slot).isSome = true

/-- A table is later than itself. -/
theorem Later.refl (bound : Set LocalId) (s : Aliases) : Later bound s s :=
  ⟨fun _ _ => rfl, fun _ some => some, fun _ some => some⟩

/-- Later than a later table. -/
theorem Later.trans {bound : Set LocalId} {s s' s'' : Aliases} (first : Later bound s s')
    (second : Later bound s' s'') : Later bound s s'' :=
  ⟨fun slot member => (second.kept slot member).trans (first.kept slot member),
    fun slot some => second.grown slot (first.grown slot some),
    fun slot some => second.typed slot (first.typed slot some)⟩

/-- Fewer bound locals are called the same as well. -/
theorem Later.anti {small large : Set LocalId} {s s' : Aliases} (later : Later large s s')
    (subset : small ⊆ large) : Later small s s' :=
  ⟨fun slot member => later.kept slot (subset member), later.grown, later.typed⟩

/-- A bound local is called the same later. -/
theorem Later.target {bound : Set LocalId} {s s' : Aliases} (later : Later bound s s')
    {slot : LocalId} (member : slot ∈ bound) : s'.target slot = s.target slot := by
  rw [Aliases.target, Aliases.target, later.kept slot member]

/-- An entry for a slot that is not bound makes a later table. -/
theorem later_insert {bound : Set LocalId} {slot : LocalId} (fresh : slot ∉ bound) (s : Aliases)
    (original : LocalId) (ty : Ty) : Later bound s (s.insert slot original ty) := by
  refine ⟨fun other member => if_neg fun same : other = slot => fresh (same ▸ member),
    fun other some => ?_, fun other some => ?_⟩
  · by_cases same : other = slot
    · exact (congrArg Option.isSome (if_pos same)).trans rfl
    · exact (congrArg Option.isSome (if_neg same)).trans some
  · by_cases same : other = original
    · exact (congrArg Option.isSome (if_pos same)).trans rfl
    · exact (congrArg Option.isSome (if_neg same)).trans some

/-- A binding that is removed is rewritten to its body under the new entry. -/
theorem rewrite_removed {slot original : LocalId} {value body : CExpr} {ty : Ty} {s : Aliases}
    (found : replacement decls types slot (rewrite decls types value s).1 = some original) :
    rewrite decls types (.letIn slot value body ty) s =
      rewrite decls types body ((rewrite decls types value s).2.insert slot
        ((rewrite decls types value s).2.target original) (rewrite decls types value s).1.ty) := by
  rw [rewrite]
  simp only [found]

/-- A binding that stays binds the rewritten value. -/
theorem rewrite_kept {slot : LocalId} {value body : CExpr} {ty : Ty} {s : Aliases}
    (found : replacement decls types slot (rewrite decls types value s).1 = none) :
    rewrite decls types (.letIn slot value body ty) s =
      (.letIn slot (rewrite decls types value s).1
        (rewrite decls types body (rewrite decls types value s).2).1 ty,
        (rewrite decls types body (rewrite decls types value s).2).2) := by
  rw [rewrite]
  simp only [found]

mutual

/-- Rewriting an expression makes a later table. -/
theorem rewrite_later : ∀ (e : CExpr) {s : Aliases} {bound : Set LocalId}, e.ShadowFree bound →
    Later bound s (rewrite decls types e s).2
  | .lit _ _, _, _, _ | .loc _ _, _, _, _ | .global _ _, _, _, _ | .error _, _, _, _
  | .makeClosure _ _ _ _, _, _, _ => by
    rw [rewrite]
    exact .refl _ _
  | .prim _ args _, _, _, free | .foreign _ args _ _, _, _, free
  | .makeData _ args _ _ _ _, _, _, free | .spread args _, _, _, free
  | .recur args _, _, _, free => by
    rw [rewrite]
    exact rewriteAll_later args free
  | .app func args _ _ _, _, _, free => by
    rw [rewrite]
    exact (rewrite_later func free.1).trans (rewriteAll_later args free.2)
  | .ite cond yes no _, _, _, free => by
    rw [rewrite]
    exact ((rewrite_later cond free.1).trans (rewrite_later yes free.2.1)).trans
      (rewrite_later no free.2.2)
  | .letIn slot value body _, s, bound, free => by
    have wider := Set.subset_insert slot bound
    have first : Later bound s (rewrite decls types value s).2 :=
      (rewrite_later value free.2.1).anti wider
    cases found : replacement decls types slot (rewrite decls types value s).1 with
    | none =>
      rw [rewrite_kept found]
      exact first.trans ((rewrite_later body free.2.2).anti wider)
    | some original =>
      rw [rewrite_removed found]
      have next := later_insert free.1 (rewrite decls types value s).2
        ((rewrite decls types value s).2.target original) (rewrite decls types value s).1.ty
      exact (first.trans next).trans ((rewrite_later body free.2.2).anti wider)
  | .letMany _ value body _, _, _, free => by
    rw [rewrite]
    exact (rewrite_later value free.2.1).trans
      ((rewrite_later body free.2.2).anti Set.subset_union_left)
  | .reset value token body _, _, bound, free => by
    rw [rewrite]
    exact (rewrite_later value free.2.1).trans
      ((rewrite_later body free.2.2).anti (Set.subset_insert token bound))
  | .holeStart hole body _, _, bound, free => by
    rw [rewrite]
    exact (rewrite_later body free.2).anti (Set.subset_insert hole bound)
  | .freeReuse _ body _, _, _, free | .dup _ body _, _, _, free | .drop _ body _, _, _, free
  | .join _ body _, _, _, free | .dataTag body _ _, _, _, free
  | .dataField body _ _ _ _, _, _, free | .holeClose _ body _, _, _, free
  | .holeFill _ body _ _, _, _, free => by
    rw [rewrite]
    exact rewrite_later body free

/-- Rewriting operands makes a later table. -/
theorem rewriteAll_later : ∀ (es : List CExpr) {s : Aliases} {bound : Set LocalId},
    ShadowFreeAll es bound → Later bound s (rewriteAll decls types es s).2
  | [], _, _, _ => by
    rw [rewriteAll]
    exact .refl _ _
  | e :: rest, _, _, free => by
    rw [rewriteAll]
    exact (rewrite_later e free.1).trans (rewriteAll_later rest free.2)

end

/-- The visible locals are called by visible locals that are called by themselves. -/
def Tracks (s : Aliases) (visible : Set LocalId) : Prop :=
  ∀ slot ∈ visible, s.target slot ∈ visible ∧ s.target (s.target slot) = s.target slot

/-- A table tracks the visible locals later. -/
theorem Tracks.later {bound visible : Set LocalId} {s s' : Aliases} (later : Later bound s s')
    (inside : visible ⊆ bound) (tracks : Tracks s visible) : Tracks s' visible := by
  intro slot member
  obtain ⟨seen, fixed⟩ := tracks slot member
  have same := later.target (inside member)
  have same' := later.target (inside seen)
  rw [same, same', fixed]
  exact ⟨seen, rfl⟩

/-- A slot that is not removed is called by itself. -/
theorem target_of_none {s : Aliases} {slot : LocalId} (none : s.locals slot = none) :
    s.target slot = slot := by
  rw [Aliases.target, none]
  rfl

/-- A slot that is not removed is tracked once it is visible. -/
theorem Tracks.insert {s : Aliases} {visible : Set LocalId} (tracks : Tracks s visible)
    {slot : LocalId} (none : s.locals slot = none) : Tracks s (Insert.insert slot visible) := by
  intro other member
  rcases member with rfl | member
  · have same := target_of_none none
    rw [same, same]
    exact ⟨Set.mem_insert _ _, rfl⟩
  · obtain ⟨seen, fixed⟩ := tracks other member
    exact ⟨Set.mem_insert_of_mem _ seen, fixed⟩

/-- Slots that are not removed are tracked once they are visible. -/
theorem Tracks.union {s : Aliases} {visible : Set LocalId} (tracks : Tracks s visible)
    {slots : List LocalId} (none : ∀ slot ∈ slots, s.locals slot = none) :
    Tracks s (visible ∪ {slot | slot ∈ slots}) := by
  intro other member
  rcases member with member | member
  · obtain ⟨seen, fixed⟩ := tracks other member
    exact ⟨.inl seen, fixed⟩
  · have same := target_of_none (none other member)
    rw [same, same]
    exact ⟨.inr member, rfl⟩

/-- A removed binding is of a local of one type with its slot. -/
theorem loc_of_replacement {slot original : LocalId} {value : CExpr}
    (found : replacement decls types slot value = some original) : ∃ ty, value = .loc original ty ∧
      removes decls types slot original ty = true := by
  rw [replacement, Option.filter_eq_some_iff] at found
  cases value with
  | loc other ty =>
    obtain ⟨same, removed⟩ := found
    rw [asLocal, Option.some.injEq] at same
    subst same
    exact ⟨ty, rfl, removed⟩
  | _ => cases found.1

/-- A slot is tracked once its binding to a visible local is removed. -/
theorem Tracks.removed {s : Aliases} {visible : Set LocalId} {slot original : LocalId}
    (tracks : Tracks s visible) (fresh : slot ∉ visible) (seen : original ∈ visible)
    (fixed : s.target original = original) (ty : Ty) :
    Tracks (s.insert slot original ty) (Insert.insert slot visible) := by
  have same {other : LocalId} (member : other ∈ visible) :
      (s.insert slot original ty).target other = s.target other :=
    (later_insert fresh s original ty).target member
  intro other member
  rcases member with rfl | member
  · have here : (s.insert other original ty).target other = original := by
      simp only [Aliases.target, Aliases.insert, if_true, Option.getD_some]
    rw [here, same seen]
    exact ⟨Set.mem_insert_of_mem _ seen, fixed⟩
  · obtain ⟨seen', fixed'⟩ := tracks other member
    rw [same member, same seen']
    exact ⟨Set.mem_insert_of_mem _ seen', fixed'⟩

/-- What is known before the body of a binding is rewritten: a kept one binds a slot without an
entry, and a removed one names a visible local that is called by itself. -/
theorem before_body {s : Aliases} {visible bound : Set LocalId} {slot : LocalId}
    {value body : CExpr} {ty : Ty} (inside : visible ⊆ bound)
    (free : (CExpr.letIn slot value body ty).ShadowFree bound)
    (steady : Steady decls types (.letIn slot value body ty) s visible) (tracks : Tracks s visible)
    (locates : ∀ original ty', (rewrite decls types value s).1 = .loc original ty' →
      ∃ last, value.named = some last ∧ last ∈ visible ∧ original = s.target last) :
    (replacement decls types slot (rewrite decls types value s).1 = none →
      (rewrite decls types value s).2.locals slot = none ∧
      Tracks (rewrite decls types value s).2 (Insert.insert slot visible) ∧
      Steady decls types body (rewrite decls types value s).2 (Insert.insert slot visible)) ∧
    ∀ original, replacement decls types slot (rewrite decls types value s).1 = some original →
      ∃ ty', (rewrite decls types value s).1 = .loc original ty' ∧ original ∈ visible ∧
      (rewrite decls types value s).2.target original = original ∧
      Tracks ((rewrite decls types value s).2.insert slot original ty')
        (Insert.insert slot visible) ∧
      Steady decls types body ((rewrite decls types value s).2.insert slot original ty')
        (Insert.insert slot visible) := by
  have later : Later bound s (rewrite decls types value s).2 :=
    (rewrite_later value free.2.1).anti (Set.subset_insert slot bound)
  have tracks' := tracks.later later inside
  constructor
  · intro kept
    have rest := steady.2
    simp only [kept] at rest
    exact ⟨rest.1, tracks'.insert rest.1, rest.2⟩
  · intro original removed
    obtain ⟨ty', same, _⟩ := loc_of_replacement removed
    obtain ⟨last, _, seen, rfl⟩ := locates original ty' same
    obtain ⟨seen', fixed⟩ := tracks last seen
    have called := (later.target (inside seen')).trans fixed
    have rest := steady.2
    simp only [removed, called] at rest
    rw [same, CExpr.ty] at rest
    refine ⟨ty', same, seen', called, ?_, rest⟩
    exact tracks'.removed (fun member => free.1 (inside member)) seen' called ty'

/-- The local a binding's value is under it. -/
theorem named_letIn {slot last : LocalId} {value body : CExpr} {ty : Ty}
    (named : (CExpr.letIn slot value body ty).named = some last) :
    ∃ inner, body.named = some inner ∧
      ((inner = slot ∧ value.named = some last) ∨ (inner ≠ slot ∧ inner = last)) := by
  rw [CExpr.named, Option.bind_eq_some_iff] at named
  obtain ⟨inner, found, named⟩ := named
  refine ⟨inner, found, ?_⟩
  by_cases same : inner = slot
  · rw [if_pos same] at named
    exact .inl ⟨same, named⟩
  · rw [if_neg same, Option.some.injEq] at named
    exact .inr ⟨same, named⟩

/-- An expression that is rewritten to a local is a visible one, under removed bindings. -/
theorem rewrite_locates : ∀ (e : CExpr) {s : Aliases} {visible bound : Set LocalId},
    e.Sees visible → e.ShadowFree bound → visible ⊆ bound → Steady decls types e s visible →
    Tracks s visible → ∀ original ty, (rewrite decls types e s).1 = .loc original ty →
      ∃ last, e.named = some last ∧ last ∈ visible ∧ original = s.target last
  | .loc slot _, _, _, _, sees, _, _, _, _ => by
    intro original ty same
    rw [rewrite] at same
    injection same with same _
    exact ⟨slot, rfl, sees, same.symm⟩
  | .letIn slot value body _, s, visible, bound, sees, free, inside, steady, tracks => by
    intro original ty same
    have wider := Set.subset_insert slot bound
    have locates := rewrite_locates value sees.1 free.2.1 (inside.trans wider) steady.1 tracks
    obtain ⟨_, removed⟩ := before_body inside free steady tracks locates
    cases found : replacement decls types slot (rewrite decls types value s).1 with
    | none =>
      rw [rewrite_kept found] at same
      cases same
    | some first =>
      obtain ⟨ty', here, seen, called, tracks', steady'⟩ := removed first found
      rw [rewrite_removed found, called, here, CExpr.ty] at same
      obtain ⟨inner, named, among, rfl⟩ := rewrite_locates body sees.2 free.2.2
        (Set.insert_subset_insert inside) steady' tracks' original ty same
      rcases among with rfl | among
      · obtain ⟨last, named', seen', rfl⟩ := locates first ty' here
        refine ⟨last, ?_, seen', ?_⟩
        · rw [CExpr.named, named, Option.bind_some, if_pos rfl, named']
        · simp only [Aliases.target, Aliases.insert, if_true, Option.getD_some]
      · have other : inner ≠ slot := fun same => free.1 (same ▸ inside among)
        have later : Later bound s ((rewrite decls types value s).2.insert slot first ty') :=
          ((rewrite_later value free.2.1).anti wider).trans (later_insert free.1 _ _ _)
        refine ⟨inner, ?_, among, later.target (inside among)⟩
        rw [CExpr.named, named, Option.bind_some, if_neg other]
  | .lit _ _, _, _, _, _, _, _, _, _ | .global _ _, _, _, _, _, _, _, _, _
  | .error _, _, _, _, _, _, _, _, _ | .makeClosure _ _ _ _, _, _, _, _, _, _, _, _
  | .prim _ _ _, _, _, _, _, _, _, _, _ | .foreign _ _ _ _, _, _, _, _, _, _, _, _
  | .makeData _ _ _ _ _ _, _, _, _, _, _, _, _, _ | .spread _ _, _, _, _, _, _, _, _, _
  | .recur _ _, _, _, _, _, _, _, _, _ | .app _ _ _ _ _, _, _, _, _, _, _, _, _
  | .ite _ _ _ _, _, _, _, _, _, _, _, _ | .letMany _ _ _ _, _, _, _, _, _, _, _, _
  | .reset _ _ _ _, _, _, _, _, _, _, _, _ | .holeStart _ _ _, _, _, _, _, _, _, _, _
  | .freeReuse _ _ _, _, _, _, _, _, _, _, _ | .dup _ _ _, _, _, _, _, _, _, _, _
  | .drop _ _ _, _, _, _, _, _, _, _, _ | .join _ _ _, _, _, _, _, _, _, _, _
  | .dataTag _ _ _, _, _, _, _, _, _, _, _ | .dataField _ _ _ _ _, _, _, _, _, _, _, _, _
  | .holeClose _ _ _, _, _, _, _, _, _, _, _ | .holeFill _ _ _ _, _, _, _, _, _, _, _, _ => by
    intro original ty same
    rw [rewrite] at same
    cases same

end Rewriting

end Aliases

end Fai
