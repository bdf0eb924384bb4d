import FaiVerif.Core.Scoping
import FaiVerif.Rc.Anf

/-!
# What A-normal form does to a run

Normalization splits the run of an expression in two. It hoists what the operands of the expression
compute, in their order, into bindings in front of it, and leaves the operation on atoms. An operand
that is an atom already is not hoisted: it is run with the operation, after all that later operands
hoist. Running a scoped body that way is running its A-normal form, in every machine.
-/

namespace Fai

namespace CExpr

/-- What an expression is under its bindings. -/
def residue : CExpr → CExpr
  | letIn _ _ body _ => body.residue
  | e => e

/-- The operands of an operation. -/
def operands : CExpr → List CExpr
  | prim _ args _ | foreign _ args _ _ | spread args _ | makeData _ args _ _ _ _ => args
  | app func args _ _ _ => func :: args
  | _ => []

end CExpr

namespace Anf

open CExpr Eval Slots

section Hoist

variable {m : Type → Type} {V : Type} [Monad m]

/-- Runs what an operand hoists; what it leaves is run too, unless it stays where it is. -/
def settle (stays : Bool) (run : m (m V)) : m (m V) :=
  if stays then run else do
    let rest ← run
    let value ← rest
    pure (pure value)

/-- Runs what an expression hoists and then what it leaves. -/
def whole (run : m (m V)) : m V := run >>= id

mutual

/-- Runs what normalization hoists out of an expression, and returns what it leaves to be run. -/
def hoist (M : Machine m V) : CExpr → (List V → m V) → Locals V → m (m V)
  | .lit value _, _ => fun _ => pure (pure (M.lit value))
  | .loc slot _, _ => fun env => pure (pure (env slot))
  | .global target _, _ => fun _ => pure (M.global target)
  | .prim op args _, back => fun env => do
    let rests ← hoistList M args back env
    pure (inOrder rests >>= M.prim op)
  | .foreign symbol args _ _, back => fun env => do
    let rests ← hoistList M args back env
    pure (inOrder rests >>= M.foreign symbol)
  | .app func args reuse _ _, back => fun env => do
    let rest ← settle func.residue.isAtom (hoist M func back env)
    let rests ← hoistList M args back env
    pure do
      let callee ← rest
      let values ← inOrder rests
      M.apply callee values (reuse.map (Option.map env))
  | .ite cond yes no _, back => fun env => do
    let rest ← settle cond.residue.isAtom (hoist M cond back env)
    pure do
      let value ← rest
      let first ← M.test value
      if first then whole (hoist M yes back env) else whole (hoist M no back env)
  | .letIn slot value body _, back => fun env => do
    let held ← whole (hoist M value back env)
    hoist M body back (env.set slot held)
  | .spread components _, back => fun env => do
    let rests ← hoistList M components back env
    pure (inOrder rests >>= M.spread)
  | .letMany slots value body _, back => fun env => pure do
    let held ← whole (hoist M value back env)
    let parts ← M.components held
    whole (hoist M body back (env.setAll (M.lit .unit) slots parts))
  | .makeClosure func captures alloc _, _ => fun env =>
    pure (M.closure func (captures.map env) alloc)
  | .makeData tag args reuse scalars niche _, back => fun env => do
    let rests ← hoistList M args back env
    pure do
      let values ← inOrder rests
      M.data tag niche scalars values (reuse.map env)
  | .dataTag base niche _, back => fun env => do
    let rest ← settle base.residue.asLocal.isSome (hoist M base back env)
    pure do
      let value ← rest
      M.tag niche value
  | .dataField base index scalar niche _, back => fun env => do
    let rest ← settle base.residue.asLocal.isSome (hoist M base back env)
    pure do
      let value ← rest
      M.field niche scalar value (place env index)
  | .error _, _ => fun _ => pure M.trap
  -- the nodes of later passes are not in a lowered body
  | .reset value token body ty, back => fun env =>
    pure (eval M (.reset value token body ty) back env)
  | .freeReuse token body ty, back => fun env => pure (eval M (.freeReuse token body ty) back env)
  | .dup slot body ty, back => fun env => pure (eval M (.dup slot body ty) back env)
  | .drop slot body ty, back => fun env => pure (eval M (.drop slot body ty) back env)
  | .join params body ty, back => fun env => pure (eval M (.join params body ty) back env)
  | .recur args ty, back => fun env => pure (eval M (.recur args ty) back env)
  | .holeStart hole body ty, back => fun env => pure (eval M (.holeStart hole body ty) back env)
  | .holeFill hole cell field ty, back => fun env =>
    pure (eval M (.holeFill hole cell field ty) back env)
  | .holeClose hole base ty, back => fun env => pure (eval M (.holeClose hole base ty) back env)

/-- Runs what operands hoist, and returns what is left of each. -/
def hoistList (M : Machine m V) : List CExpr → (List V → m V) → Locals V → m (List (m V))
  | [], _ => fun _ => pure []
  | e :: rest, back => fun env => do
    let first ← settle e.residue.isAtom (hoist M e back env)
    let rests ← hoistList M rest back env
    pure (first :: rests)

end

end Hoist

section Binds

variable {m : Type → Type} {V : Type} [Monad m]

/-- Runs bindings, outermost first. -/
def runBinds (M : Machine m V) (back : List V → m V) :
    List (LocalId × CExpr) → Locals V → m (Locals V)
  | [], env => pure env
  | (slot, value) :: rest, env => do
    let held ← eval M value back env
    runBinds M back rest (env.set slot held)

variable [LawfulMonad m]

/-- An expression under bindings runs after them. -/
theorem eval_wrapBinds (M : Machine m V) (back : List V → m V) (inner : CExpr)
    (binds : List (LocalId × CExpr)) : ∀ env,
      eval M (wrapBinds binds inner) back env =
        runBinds M back binds env >>= fun env => eval M inner back env := by
  induction binds with
  | nil => intro env; simp [wrapBinds, runBinds]
  | cons binding rest hypothesis =>
    intro env
    simp only [wrapBinds, List.foldr_cons] at hypothesis ⊢
    simp only [eval, hypothesis, runBinds, bind_assoc]

/-- Bindings run one list after the other. -/
theorem runBinds_append (M : Machine m V) (back : List V → m V)
    (first second : List (LocalId × CExpr)) : ∀ env,
      runBinds M back (first ++ second) env =
        runBinds M back first env >>= runBinds M back second := by
  induction first with
  | nil => intro env; simp [runBinds]
  | cons binding rest hypothesis =>
    intro env
    simp only [List.cons_append, runBinds, hypothesis, bind_assoc]

/-- What follows new bindings matters where the locals in scope are kept. -/
theorem runBinds_congr {β : Type} (M : Machine m V) (back : List V → m V) {limit : Nat}
    (binds : List (LocalId × CExpr)) : ∀ {scope : Finset LocalId} (env : Locals V)
      {first second : Locals V → m β}, NormalBinds limit scope binds →
      (∀ env', Agree (scope : Set LocalId) env env' → first env' = second env') →
      runBinds M back binds env >>= first = runBinds M back binds env >>= second := by
  induction binds with
  | nil =>
    intro scope env first second _ alike
    simp only [runBinds, pure_bind]
    exact alike env fun slot _ => rfl
  | cons binding rest hypothesis =>
    intro scope env first second normal alike
    obtain ⟨_, fresh, _, later⟩ := normal
    simp only [runBinds, bind_assoc]
    apply bind_congr
    intro held
    refine hypothesis (env.set binding.1 held) later fun env' agree => alike env' ?_
    intro slot member
    have other : slot ≠ binding.1 := fun same => fresh (same ▸ member)
    have here := agree slot (Finset.mem_coe.mpr (Finset.mem_insert_of_mem member))
    rwa [Locals.set, if_neg other] at here

end Binds

/-- A normalization has one result. -/
theorem found_unique {β : Type} {normalized : Option (β × Seq)} {binds first second :
    List (LocalId × CExpr)} {left right : β} {last last' : Nat}
    (one : normalized = some (left, ⟨binds ++ first, last⟩))
    (other : normalized = some (right, ⟨binds ++ second, last'⟩)) :
    left = right ∧ first = second ∧ last = last' := by
  rw [one, Option.some.injEq, Prod.mk.injEq, Seq.mk.injEq] at other
  exact ⟨other.1, List.append_cancel_left other.2.1, other.2.2⟩

/-- Normalization keeps what an expression is under its bindings, as far as it is an atom. -/
theorem inner_of_anfOp (e : CExpr) : ∀ (seq seq' : Seq) (op : CExpr),
    anfOp e seq = some (op, seq') →
      op.isAtom = e.residue.isAtom ∧ op.asLocal = e.residue.asLocal := by
  induction e using CExpr.induct with
  | letIn slot value body ty _ body_hypothesis =>
    intro seq seq' op found
    simp only [anfOp, Option.bind_eq_bind, Option.bind_eq_some_iff] at found
    obtain ⟨held, _, found⟩ := found
    exact body_hypothesis _ _ _ found
  | lit | loc | global | error | makeClosure =>
    intro seq seq' op found
    simp only [anfOp, Option.some.injEq, Prod.mk.injEq] at found
    obtain ⟨rfl, _⟩ := found
    exact ⟨rfl, rfl⟩
  | join | recur | holeStart | holeFill | holeClose =>
    intro seq seq' op found
    simp [anfOp] at found
  | prim | foreign | makeData | spread | dataTag | dataField | freeReuse | dup | drop =>
    intro seq seq' op found
    simp only [anfOp, Option.bind_eq_bind, Option.bind_eq_some_iff, Option.pure_def,
      Option.some.injEq, Prod.mk.injEq] at found
    obtain ⟨_, _, rfl, _⟩ := found
    exact ⟨rfl, rfl⟩
  | app | letMany | reset =>
    intro seq seq' op found
    simp only [anfOp, Option.bind_eq_bind, Option.bind_eq_some_iff, Option.pure_def,
      Option.some.injEq, Prod.mk.injEq] at found
    obtain ⟨_, _, _, _, rfl, _⟩ := found
    exact ⟨rfl, rfl⟩
  | ite =>
    intro seq seq' op found
    simp only [anfOp, Option.bind_eq_bind, Option.bind_eq_some_iff, Option.pure_def,
      Option.some.injEq, Prod.mk.injEq] at found
    obtain ⟨_, _, _, _, _, _, rfl, _⟩ := found
    exact ⟨rfl, rfl⟩

mutual

/-- Scopes only grow along a straight line. -/
theorem subset_of_scope {limit : Nat} : ∀ (e : CExpr) (bound out : Finset LocalId),
    e.scope limit bound = some out → bound ⊆ out
  | .lit _ _, bound, out, inScope | .global _ _, bound, out, inScope
  | .error _, bound, out, inScope => by
    cases inScope
    exact Finset.Subset.refl bound
  | .loc slot _, bound, out, inScope => by
    simp only [scope, Option.ite_none_right_eq_some, Option.some.injEq] at inScope
    rw [inScope.2]
  | .prim op args _, bound, out, inScope => by
    simp only [scope, Option.ite_none_left_eq_some] at inScope
    exact subset_of_scopeList args bound out inScope.2
  | .foreign _ args _ _, bound, out, inScope | .spread args _, bound, out, inScope =>
    subset_of_scopeList args bound out inScope
  | .makeData _ args reuse _ _ _, bound, out, inScope => by
    simp only [scope, Option.ite_none_left_eq_some] at inScope
    exact subset_of_scopeList args bound out inScope.2
  | .app func args reuse _ _, bound, out, inScope => by
    simp only [scope, Option.ite_none_right_eq_some, Option.bind_eq_some_iff] at inScope
    obtain ⟨_, middle, first, rest⟩ := inScope
    exact (subset_of_scope func bound middle first).trans
      (subset_of_scopeList args middle out rest)
  | .ite cond yes no _, bound, out, inScope => by
    simp only [scope, Option.bind_eq_some_iff, Option.ite_none_right_eq_some,
      Option.some.injEq] at inScope
    obtain ⟨middle, first, _, rfl⟩ := inScope
    exact subset_of_scope cond bound middle first
  | .letIn slot value body _, bound, out, inScope => by
    simp only [scope, Option.bind_eq_some_iff, Option.ite_none_right_eq_some] at inScope
    obtain ⟨middle, first, _, rest⟩ := inScope
    exact (subset_of_scope value bound middle first).trans
      ((Finset.subset_insert slot middle).trans (subset_of_scope body _ out rest))
  | .letMany slots value body _, bound, out, inScope => by
    simp only [scope, Option.ite_none_right_eq_some, Option.some.injEq] at inScope
    rw [inScope.2]
  | .makeClosure _ captures _ _, bound, out, inScope => by
    simp only [scope, Option.ite_none_right_eq_some, Option.some.injEq] at inScope
    rw [inScope.2]
  | .dataTag base _ _, bound, out, inScope => subset_of_scope base bound out inScope
  | .dataField base index _ _ _, bound, out, inScope => by
    simp only [scope, Option.bind_eq_some_iff, Option.ite_none_right_eq_some,
      Option.some.injEq] at inScope
    obtain ⟨middle, first, _, rfl⟩ := inScope
    exact subset_of_scope base bound middle first
  | .reset _ _ _ _, _, _, inScope | .freeReuse _ _ _, _, _, inScope | .dup _ _ _, _, _, inScope
  | .drop _ _ _, _, _, inScope | .join _ _ _, _, _, inScope | .recur _ _, _, _, inScope
  | .holeStart _ _ _, _, _, inScope | .holeFill _ _ _ _, _, _, inScope
  | .holeClose _ _ _, _, _, inScope => by cases inScope

/-- Scopes only grow along operands. -/
theorem subset_of_scopeList {limit : Nat} : ∀ (es : List CExpr) (bound out : Finset LocalId),
    scopeList limit es bound = some out → bound ⊆ out
  | [], bound, out, inScope => by
    cases inScope
    exact Finset.Subset.refl bound
  | head :: rest, bound, out, inScope => by
    simp only [scopeList, Option.bind_eq_some_iff] at inScope
    obtain ⟨middle, first, others⟩ := inScope
    exact (subset_of_scope head bound middle first).trans
      (subset_of_scopeList rest middle out others)

end

/-- What normalization is ready for: the visible locals are bound, and the scope of the flattened
body covers the source's. -/
structure Ready (limit next : Nat) (bound actual : Finset LocalId) (visible : Set LocalId) :
    Prop where
  /-- The visible locals are bound. -/
  inside : visible ⊆ (bound : Set LocalId)
  /-- The next slot is above the source's. -/
  above : limit ≤ next
  /-- The flattened body's scope covers the source's. -/
  covers : Covers limit next bound actual

/-- The visible locals are in the scope of the flattened body. -/
theorem Ready.visible_subset {limit next : Nat} {bound actual : Finset LocalId}
    (ready : Ready limit next bound actual visible) : visible ⊆ (actual : Set LocalId) :=
  fun _ member => Finset.mem_coe.mpr (ready.covers.subset (Finset.mem_coe.mp (ready.inside member)))

section Hoists

variable {m : Type → Type} {V : Type} [Monad m] [LawfulMonad m]

/-- What a normalization says of runs: what the source hoists is run by the bindings it adds, and
what the source leaves is what it makes of it, wherever the locals the source sees are the same. -/
def Hoists {γ α : Type} (M : Machine m V) (back : List V → m V) (visible : Set LocalId)
    (source : Locals V → m α) (target : γ → Locals V → α) (binds : List (LocalId × CExpr))
    (normalized : Option (γ × Seq)) : Prop :=
  ∀ result added last, normalized = some (result, ⟨binds ++ added, last⟩) →
    ∀ envS envA : Locals V, Agree visible envS envA →
      source envS = runBinds M back added envA >>= fun env => pure (target result env)

variable {M : Machine m V} {back : List V → m V} {visible : Set LocalId}
  {binds : List (LocalId × CExpr)} {source : Locals V → m (m V)} {normalized : Option (CExpr × Seq)}

/-- An operand that is bound unless it stays runs as the source does. -/
theorem hoists_settle {named : CExpr × Seq → CExpr × Seq} {limit next : Nat}
    {out actual : Finset LocalId} {e : CExpr} {stays : Bool}
    (opens : Opens limit next binds out actual (fun last scope op => op.Normal last scope)
      (KeepsHead e) normalized)
    (cases : ∀ op seq, normalized = some (op, seq) →
      named (op, seq) = if stays then (op, seq) else Anf.bind op seq)
    (hoists : Hoists M back visible source (fun op env => eval M op back env) binds normalized) :
    Hoists M back visible (fun env => settle stays (source env))
      (fun op env => eval M op back env) binds (normalized.map named) := by
  obtain ⟨op, first, last, found, -⟩ := opens
  intro result added last' found' envS envA agree
  have held := hoists op first last found envS envA agree
  rw [found, Option.map_some, cases op _ found] at found'
  cases stays with
  | true => exact hoists result added last' (found.trans found') envS envA agree
  | false =>
    rw [if_neg Bool.false_ne_true, Anf.bind, List.append_assoc] at found'
    obtain ⟨rfl, rfl, _⟩ := found_unique found' rfl
    simp only [settle, if_neg Bool.false_ne_true]
    rw [held, runBinds_append, bind_assoc, bind_assoc]
    apply bind_congr
    intro env
    simp only [runBinds, eval, bind_assoc, pure_bind, Locals.set, if_true]

/-- An operand made an atom runs as the source does. -/
theorem hoists_atomize {limit next : Nat} {out actual : Finset LocalId} {e : CExpr} {seq : Seq}
    (opens : Opens limit next binds out actual (fun last scope op => op.Normal last scope)
      (KeepsHead e) (anfOp e seq))
    (hoists : Hoists M back visible source (fun op env => eval M op back env) binds (anfOp e seq)) :
    Hoists M back visible (fun env => settle e.residue.isAtom (source env))
      (fun op env => eval M op back env) binds ((anfOp e seq).map atomize) :=
  hoists_settle opens (fun op seq' found => by
    rw [atomize, (inner_of_anfOp e _ _ _ found).1]) hoists

/-- A projection base made a local runs as the source does. -/
theorem hoists_toLocal {limit next : Nat} {out actual : Finset LocalId} {e : CExpr} {seq : Seq}
    (opens : Opens limit next binds out actual (fun last scope op => op.Normal last scope)
      (KeepsHead e) (anfOp e seq))
    (hoists : Hoists M back visible source (fun op env => eval M op back env) binds (anfOp e seq)) :
    Hoists M back visible (fun env => settle e.residue.asLocal.isSome (source env))
      (fun op env => eval M op back env) binds ((anfOp e seq).map toLocal) :=
  hoists_settle opens (fun op seq' found => by
    rw [toLocal, (inner_of_anfOp e _ _ _ found).2]) hoists

/-- A body with a scope of its own runs as the source under its bindings. -/
theorem hoists_wrapped {limit next : Nat} {out actual : Finset LocalId} {e : CExpr}
    (opens : Opens limit next [] out actual (fun last scope op => op.Normal last scope)
      (KeepsHead e) normalized)
    (hoists : Hoists M back visible source (fun op env => eval M op back env) [] normalized)
    {body : CExpr} {last : Nat} (found : normalized.map wrapped = some (body, last))
    {envS envA : Locals V} (agree : Agree visible envS envA) :
    whole (source envS) = eval M body back envA := by
  obtain ⟨op, added, last', here, -⟩ := opens
  rw [here, Option.map_some, Option.some.injEq, wrapped, Prod.mk.injEq] at found
  rw [← found.1, List.nil_append, eval_wrapBinds, whole,
    hoists op added last' here envS envA agree, bind_assoc]
  simp only [pure_bind, id]

omit [LawfulMonad m] in
/-- An atom in scope reads the same after new bindings. -/
theorem eval_atom_later (M : Machine m V) (back : List V → m V) {scope : Finset LocalId}
    {atom : CExpr} (inScope : atom.AtomIn scope) {env env' : Locals V}
    (agree : Agree (scope : Set LocalId) env env') :
    eval M atom back env = eval M atom back env' := by
  cases atom with
  | lit | global | error => simp only [eval]
  | loc slot ty => simp only [eval, agree slot (Finset.mem_coe.mpr inScope)]
  | _ => cases inScope

/-- An operand and those after it: what the operand leaves is run after what the later ones hoist.
-/
theorem hoists_cons {β : Type} {limit next last : Nat} {actual out : Finset LocalId}
    {head atom : CExpr} {stays : Bool} {rest : List CExpr} {first : List (LocalId × CExpr)}
    {normalized' : Option (List CExpr × Seq)} (K : m V → List (m V) → β)
    (inside : visible ⊆ (actual : Set LocalId)) (normal : NormalBinds last actual first)
    (inScope : atom.AtomIn (opened actual first))
    (headHoists : ∀ envS envA, Agree visible envS envA → settle stays (hoist M head back envS) =
      runBinds M back first envA >>= fun env => pure (eval M atom back env))
    (opens : Opens limit next (binds ++ first) out (opened actual first)
      (fun _ scope atoms => ∀ a ∈ atoms, a.AtomIn scope) (fun _ => True) normalized')
    (restHoists : Hoists M back visible (hoistList M rest back)
      (fun atoms env => evalList M atoms back env) (binds ++ first) normalized')
    {atoms : List CExpr} {second : List (LocalId × CExpr)} {last' : Nat}
    (found : normalized' = some (atoms, ⟨binds ++ first ++ second, last'⟩))
    {envS envA : Locals V} (agree : Agree visible envS envA) :
    (settle stays (hoist M head back envS) >>= fun left =>
        hoistList M rest back envS >>= fun lefts => pure (K left lefts)) =
      runBinds M back (first ++ second) envA >>= fun env =>
        pure (K (eval M atom back env) (evalList M atoms back env)) := by
  rw [headHoists envS envA agree, runBinds_append, bind_assoc, bind_assoc]
  apply runBinds_congr M back first envA normal
  intro env kept
  have agree' : Agree visible envS env := fun slot member =>
    (agree slot member).trans (kept slot (inside member))
  rw [pure_bind, restHoists atoms second last' found envS env agree', bind_assoc]
  obtain ⟨_, added, _, found', _, normal', -⟩ := opens
  obtain ⟨rfl, rfl, rfl⟩ := found_unique found found'
  apply runBinds_congr M back second env normal'
  intro env' kept'
  rw [pure_bind, eval_atom_later M back inScope kept']

/-- An operation on operands runs as the bindings they add and then the operation on the atoms. -/
theorem hoists_operation {es atoms : List CExpr} {first : List (LocalId × CExpr)} {last : Nat}
    {normalized' : Option (List CExpr × Seq)} (op : CExpr) (K : List V → m V)
    (operands : Hoists M back visible (hoistList M es back)
      (fun atoms env => evalList M atoms back env) binds normalized')
    (found : normalized' = some (atoms, ⟨binds ++ first, last⟩))
    (here : normalized = some (op, ⟨binds ++ first, last⟩))
    (before : ∀ env, source env = hoistList M es back env >>= fun rests =>
      pure (inOrder rests >>= K))
    (after : ∀ env, eval M op back env = inOrder (evalList M atoms back env) >>= K) :
    Hoists M back visible source (fun op env => eval M op back env) binds normalized := by
  intro result added last' found' envS envA agree
  obtain ⟨rfl, rfl, rfl⟩ := found_unique found' here
  rw [before, operands atoms added last' found envS envA agree, bind_assoc]
  simp only [pure_bind, after]

mutual

/-- What a scoped body hoists is run by the bindings that normalization adds, and what it leaves is
the normalized operation. -/
theorem hoists_anfOp {limit : Nat} : ∀ (e : CExpr) (bound out : Finset LocalId)
    (visible : Set LocalId) (actual : Finset LocalId) (binds : List (LocalId × CExpr))
    (next : Nat), e.scope limit bound = some out → e.Sees visible →
      Ready limit next bound actual visible →
      Hoists M back visible (hoist M e back) (fun op env => eval M op back env) binds
        (anfOp e ⟨binds, next⟩)
  | .lit _ _, _, _, _, _, binds, next, _, _, _
  | .global _ _, _, _, _, _, binds, next, _, _, _
  | .error _, _, _, _, _, binds, next, _, _, _ => by
    intro result added last found envS envA agree
    obtain ⟨rfl, rfl, rfl⟩ := found_unique found (by rw [anfOp, List.append_nil])
    simp only [runBinds, pure_bind, eval, hoist]
  | .loc slot _, _, _, _, _, binds, next, _, sees, _ => by
    intro result added last found envS envA agree
    obtain ⟨rfl, rfl, rfl⟩ := found_unique found (by rw [anfOp, List.append_nil])
    simp only [runBinds, pure_bind, eval, hoist, agree slot sees]
  | .prim op args ty, bound, out, visible, actual, binds, next, inScope, sees, ready => by
    simp only [scope, Option.ite_none_left_eq_some] at inScope
    obtain ⟨atoms, first, last, found, -⟩ :=
      opens_atomizeList args bound out inScope.2 actual binds next ready.above ready.covers
    refine hoists_operation (.prim op atoms ty) (M.prim op) (hoists_atomizeList args bound out
      visible actual binds next inScope.2 sees ready) found ?_ ?_ ?_
    · simp only [anfOp, found, Option.bind_eq_bind, Option.bind_some, Option.pure_def]
    · exact fun env => by simp only [hoist]
    · exact fun env => by simp only [eval]
  | .foreign symbol args marshalled ty, bound, out, visible, actual, binds, next, inScope, sees,
      ready => by
    obtain ⟨atoms, first, last, found, -⟩ :=
      opens_atomizeList args bound out inScope actual binds next ready.above ready.covers
    refine hoists_operation (.foreign symbol atoms marshalled ty) (M.foreign symbol)
      (hoists_atomizeList args bound out visible actual binds next inScope sees ready) found
      ?_ ?_ ?_
    · simp only [anfOp, found, Option.bind_eq_bind, Option.bind_some, Option.pure_def]
    · exact fun env => by simp only [hoist]
    · exact fun env => by simp only [eval]
  | .spread args ty, bound, out, visible, actual, binds, next, inScope, sees, ready => by
    obtain ⟨atoms, first, last, found, -⟩ :=
      opens_atomizeList args bound out inScope actual binds next ready.above ready.covers
    refine hoists_operation (.spread atoms ty) M.spread
      (hoists_atomizeList args bound out visible actual binds next inScope sees ready) found
      ?_ ?_ ?_
    · simp only [anfOp, found, Option.bind_eq_bind, Option.bind_some, Option.pure_def]
    · exact fun env => by simp only [hoist]
    · exact fun env => by simp only [eval]
  | .makeData tag args reuse scalars niche ty, bound, out, visible, actual, binds, next, inScope,
      sees, ready => by
    simp only [scope, Option.ite_none_left_eq_some] at inScope
    have noToken : reuse = none := by simpa using inScope.1
    subst noToken
    obtain ⟨atoms, first, last, found, -⟩ :=
      opens_atomizeList args bound out inScope.2 actual binds next ready.above ready.covers
    refine hoists_operation (.makeData tag atoms none scalars niche ty)
      (fun values => M.data tag niche scalars values none)
      (hoists_atomizeList args bound out visible actual binds next inScope.2 sees.1 ready) found
      ?_ ?_ ?_
    · simp only [anfOp, found, Option.bind_eq_bind, Option.bind_some, Option.pure_def]
    · exact fun env => by simp only [hoist, Option.map_none]
    · exact fun env => by simp only [eval, Option.map_none]
  | .app func args reuse alloc ty, bound, out, visible, actual, binds, next, inScope, sees,
      ready => by
    intro result added last found envS envA agree
    simp only [scope, Option.ite_none_right_eq_some, Option.bind_eq_some_iff] at inScope
    obtain ⟨empty, middle, first, others⟩ := inScope
    have noTokens : reuse = [] := List.isEmpty_iff.mp empty
    subst noTokens
    have opensHead := opens_anfOp func bound middle first actual binds next ready.above ready.covers
    have headHoists := hoists_atomize opensHead
      (hoists_anfOp func bound middle visible actual binds next first sees.1 ready)
    obtain ⟨atom, added1, last1, found1, ordered1, normal1, atomIn, covers1, -⟩ :=
      opens_atomize ready.above opensHead
    have ready' : Ready limit last1 middle (opened actual added1) visible :=
      ⟨ready.inside.trans (Finset.coe_subset.mpr (subset_of_scope func bound middle first)),
        Nat.le_trans ready.above ordered1, covers1⟩
    have opensRest := opens_atomizeList args middle out others (opened actual added1)
      (binds ++ added1) last1 ready'.above covers1
    have restHoists := hoists_atomizeList args middle out visible (opened actual added1)
      (binds ++ added1) last1 others sees.2.1 ready'
    have ⟨atoms, added2, last2, found2, _⟩ := opensRest
    have here : anfOp (.app func args [] alloc ty) ⟨binds, next⟩ =
        some (.app atom atoms [] alloc ty, ⟨binds ++ (added1 ++ added2), last2⟩) := by
      simp only [anfOp, found1, found2, Option.bind_eq_bind, Option.bind_some, Option.pure_def]
      rw [List.append_assoc]
    obtain ⟨rfl, rfl, rfl⟩ := found_unique found here
    have both := hoists_cons (fun left lefts => left >>= fun callee =>
        inOrder lefts >>= fun values => M.apply callee values []) ready.visible_subset normal1
      atomIn (headHoists atom added1 last1 found1) opensRest restHoists found2 agree
    simp only [hoist, eval, List.map_nil]
    exact both
  | .ite cond yes no ty, bound, out, visible, actual, binds, next, inScope, sees, ready => by
    intro result added last found envS envA agree
    simp only [scope, Option.bind_eq_some_iff, Option.ite_none_right_eq_some, Option.some.injEq,
      Bool.and_eq_true, Option.isSome_iff_exists] at inScope
    obtain ⟨middle, first, ⟨⟨yesOut, yesScope⟩, ⟨noOut, noScope⟩⟩, rfl⟩ := inScope
    have opensCond := opens_anfOp cond bound middle first actual binds next ready.above ready.covers
    have condHoists := hoists_atomize opensCond
      (hoists_anfOp cond bound middle visible actual binds next first sees.1 ready)
    obtain ⟨atom, added1, last1, found1, ordered1, normal1, _, covers1, -⟩ :=
      opens_atomize ready.above opensCond
    have inside' := ready.inside.trans
      (Finset.coe_subset.mpr (subset_of_scope cond bound middle first))
    have readyYes : Ready limit last1 middle (opened actual added1) visible :=
      ⟨inside', Nat.le_trans ready.above ordered1, covers1⟩
    have opensYes := opens_anfOp yes middle yesOut yesScope (opened actual added1) [] last1
      readyYes.above covers1
    have yesHoists := hoists_anfOp yes middle yesOut visible (opened actual added1) [] last1
      yesScope sees.2.1 readyYes
    obtain ⟨yes', last2, found2, ordered2, -⟩ := wrapped_normal opensYes
    have readyNo : Ready limit last2 middle (opened actual added1) visible :=
      ⟨inside', Nat.le_trans readyYes.above ordered2, covers1.later ordered2⟩
    have opensNo := opens_anfOp no middle noOut noScope (opened actual added1) [] last2
      readyNo.above readyNo.covers
    have noHoists := hoists_anfOp no middle noOut visible (opened actual added1) [] last2 noScope
      sees.2.2 readyNo
    obtain ⟨no', last3, found3, -⟩ := wrapped_normal opensNo
    have here : anfOp (.ite cond yes no ty) ⟨binds, next⟩ =
        some (.ite atom yes' no' ty, ⟨binds ++ added1, last3⟩) := by
      simp only [anfOp, found1, found2, found3, Option.bind_eq_bind, Option.bind_some,
        Option.pure_def]
    obtain ⟨rfl, rfl, rfl⟩ := found_unique found here
    have held := condHoists atom added last1 found1 envS envA agree
    simp only at held
    simp only [hoist, eval]
    rw [held, bind_assoc]
    apply runBinds_congr M back added envA normal1
    intro env kept
    have agree' : Agree visible envS env := fun slot member =>
      (agree slot member).trans (kept slot (ready.visible_subset member))
    have yesSame := hoists_wrapped opensYes yesHoists found2 agree'
    have noSame := hoists_wrapped opensNo noHoists found3 agree'
    rw [pure_bind]
    simp only [yesSame, noSame]
  | .letIn slot value body ty, bound, out, visible, actual, binds, next, inScope, sees, ready => by
    intro result added last found envS envA agree
    simp only [scope, Option.bind_eq_some_iff, Option.ite_none_right_eq_some] at inScope
    obtain ⟨middle, first, ⟨_, small⟩, rest⟩ := inScope
    have valueHoists := hoists_anfOp value bound middle visible actual binds next first sees.1 ready
    obtain ⟨held, added1, last1, found1, ordered1, normal1, _, covers1, -⟩ :=
      opens_anfOp value bound middle first actual binds next ready.above ready.covers
    have inside' : insert slot visible ⊆ (insert slot middle : Finset LocalId) := by
      rw [Finset.coe_insert]
      exact Set.insert_subset_insert (ready.inside.trans
        (Finset.coe_subset.mpr (subset_of_scope value bound middle first)))
    have ready' : Ready limit last1 (insert slot middle) (insert slot (opened actual added1))
        (insert slot visible) :=
      ⟨inside', Nat.le_trans ready.above ordered1, covers1.insert small⟩
    have bodyHoists := hoists_anfOp body (insert slot middle) out (insert slot visible)
      (insert slot (opened actual added1)) (binds ++ added1 ++ [(slot, held)]) last1 rest sees.2
      ready'
    obtain ⟨op, added2, last2, found2, -⟩ := opens_anfOp body (insert slot middle) out rest
      (insert slot (opened actual added1)) (binds ++ added1 ++ [(slot, held)]) last1 ready'.above
      ready'.covers
    have here : anfOp (.letIn slot value body ty) ⟨binds, next⟩ =
        some (op, ⟨binds ++ (added1 ++ (slot, held) :: added2), last2⟩) := by
      simp only [anfOp, found1, found2, Option.bind_eq_bind, Option.bind_some]
      simp only [List.append_assoc, List.singleton_append]
    obtain ⟨rfl, rfl, rfl⟩ := found_unique found here
    simp only [hoist, whole]
    rw [valueHoists held added1 last1 found1 envS envA agree, runBinds_append, bind_assoc,
      bind_assoc, bind_assoc]
    apply runBinds_congr M back added1 envA normal1
    intro env kept
    simp only [runBinds, bind_assoc, pure_bind, id]
    apply bind_congr
    intro bound
    have agree' : Agree visible envS env := fun slot member =>
      (agree slot member).trans (kept slot (ready.visible_subset member))
    exact bodyHoists result added2 last found2 _ _ (agree'.set slot bound)
  | .letMany slots value body ty, bound, out, visible, actual, binds, next, inScope, sees,
      ready => by
    intro result added last found envS envA agree
    simp only [scope, Option.ite_none_right_eq_some, Option.some.injEq, Bool.and_eq_true,
      decide_eq_true_eq, Option.isSome_iff_exists] at inScope
    obtain ⟨⟨⟨⟨_, ⟨valueOut, valueScope⟩⟩, _, fresh⟩, ⟨bodyOut, bodyScope⟩⟩, rfl⟩ := inScope
    have opensValue := opens_anfOp value bound valueOut valueScope actual [] next ready.above
      ready.covers
    have valueHoists := hoists_anfOp value bound valueOut visible actual [] next valueScope sees.1
      ready
    obtain ⟨value', last1, found1, ordered1, -⟩ := wrapped_normal opensValue
    have inside' : visible ∪ {slot | slot ∈ slots} ⊆ (bound ∪ slots.toFinset : Finset LocalId) := by
      rw [Finset.coe_union, List.coe_toFinset]
      exact Set.union_subset_union_left _ ready.inside
    have ready' : Ready limit last1 (bound ∪ slots.toFinset) (actual ∪ slots.toFinset)
        (visible ∪ {slot | slot ∈ slots}) :=
      ⟨inside', Nat.le_trans ready.above ordered1,
        (ready.covers.later ordered1).union fun slot member => (fresh slot member).2⟩
    have opensBody := opens_anfOp body (bound ∪ slots.toFinset) bodyOut bodyScope
      (actual ∪ slots.toFinset) [] last1 ready'.above ready'.covers
    have bodyHoists := hoists_anfOp body (bound ∪ slots.toFinset) bodyOut _
      (actual ∪ slots.toFinset) [] last1 bodyScope sees.2 ready'
    obtain ⟨body', last2, found2, -⟩ := wrapped_normal opensBody
    have here : anfOp (.letMany slots value body ty) ⟨binds, next⟩ =
        some (.letMany slots value' body' ty, ⟨binds ++ [], last2⟩) := by
      simp only [anfOp, found1, found2, Option.bind_eq_bind, Option.bind_some, Option.pure_def,
        List.append_nil]
    obtain ⟨rfl, rfl, rfl⟩ := found_unique found here
    have below (parts : List V) := hoists_wrapped opensBody bodyHoists found2
      (agree.setAll (M.lit .unit) slots parts)
    simp only [runBinds, pure_bind, hoist, eval, hoists_wrapped opensValue valueHoists found1 agree,
      below]
  | .makeClosure func captures alloc ty, _, _, _, _, binds, next, _, sees, _ => by
    intro result added last found envS envA agree
    obtain ⟨rfl, rfl, rfl⟩ := found_unique found (by rw [anfOp, List.append_nil])
    have held : captures.map envS = captures.map envA :=
      List.map_congr_left fun slot member => agree slot (sees slot member)
    simp only [runBinds, pure_bind, hoist, eval, held]
  | .dataTag base niche ty, bound, out, visible, actual, binds, next, inScope, sees, ready => by
    intro result added last found envS envA agree
    have opensBase := opens_anfOp base bound out inScope actual binds next ready.above ready.covers
    have baseHoists := hoists_toLocal opensBase
      (hoists_anfOp base bound out visible actual binds next inScope sees ready)
    obtain ⟨atom, added1, last1, found1, -⟩ := opens_toLocal ready.above opensBase
    have here : anfOp (.dataTag base niche ty) ⟨binds, next⟩ =
        some (.dataTag atom niche ty, ⟨binds ++ added1, last1⟩) := by
      simp only [anfOp, found1, Option.bind_eq_bind, Option.bind_some, Option.pure_def]
    obtain ⟨rfl, rfl, rfl⟩ := found_unique found here
    have held := baseHoists atom added last found1 envS envA agree
    simp only at held
    simp only [hoist, eval]
    rw [held, bind_assoc]
    simp only [pure_bind]
  | .dataField base index scalar niche ty, bound, out, visible, actual, binds, next, inScope, sees,
      ready => by
    intro result added last found envS envA agree
    simp only [scope, Option.bind_eq_some_iff, Option.ite_none_right_eq_some,
      Option.some.injEq] at inScope
    obtain ⟨middle, first, _, rfl⟩ := inScope
    have opensBase :=
      opens_anfOp base bound middle first actual binds next ready.above ready.covers
    have baseHoists := hoists_toLocal opensBase
      (hoists_anfOp base bound middle visible actual binds next first sees.1 ready)
    obtain ⟨atom, added1, last1, found1, _, normal1, -⟩ := opens_toLocal ready.above opensBase
    have here : anfOp (.dataField base index scalar niche ty) ⟨binds, next⟩ =
        some (.dataField atom index scalar niche ty, ⟨binds ++ added1, last1⟩) := by
      simp only [anfOp, found1, Option.bind_eq_bind, Option.bind_some, Option.pure_def]
    obtain ⟨rfl, rfl, rfl⟩ := found_unique found here
    have held := baseHoists atom added last found1 envS envA agree
    simp only at held
    simp only [hoist, eval]
    rw [held, bind_assoc]
    apply runBinds_congr M back added envA normal1
    intro env kept
    have spot : place envS index = place env index := by
      cases index with
      | const slot => rfl
      | dyn offset evidence =>
        have member := sees.2 offset evidence rfl
        rw [place, place, agree evidence member, kept evidence (ready.visible_subset member)]
    simp only [pure_bind, spot]
  | .reset _ _ _ _, _, _, _, _, _, _, inScope, _, _
  | .freeReuse _ _ _, _, _, _, _, _, _, inScope, _, _
  | .dup _ _ _, _, _, _, _, _, _, inScope, _, _
  | .drop _ _ _, _, _, _, _, _, _, inScope, _, _
  | .join _ _ _, _, _, _, _, _, _, inScope, _, _
  | .recur _ _, _, _, _, _, _, _, inScope, _, _
  | .holeStart _ _ _, _, _, _, _, _, _, inScope, _, _
  | .holeFill _ _ _ _, _, _, _, _, _, _, inScope, _, _
  | .holeClose _ _ _, _, _, _, _, _, _, inScope, _, _ => by cases inScope

/-- What operands hoist is run by the bindings that normalization adds, and what they leave are
their atoms. -/
theorem hoists_atomizeList {limit : Nat} : ∀ (es : List CExpr) (bound out : Finset LocalId)
    (visible : Set LocalId) (actual : Finset LocalId) (binds : List (LocalId × CExpr))
    (next : Nat), scopeList limit es bound = some out → SeesAll es visible →
      Ready limit next bound actual visible →
      Hoists M back visible (hoistList M es back) (fun atoms env => evalList M atoms back env) binds
        (atomizeList es ⟨binds, next⟩)
  | [], _, _, _, _, binds, next, _, _, _ => by
    intro result added last found envS envA agree
    obtain ⟨rfl, rfl, rfl⟩ := found_unique found (by rw [atomizeList, List.append_nil])
    simp only [runBinds, pure_bind, evalList, hoistList]
  | head :: rest, bound, out, visible, actual, binds, next, inScope, sees, ready => by
    intro result added last found envS envA agree
    simp only [scopeList, Option.bind_eq_some_iff] at inScope
    obtain ⟨middle, first, others⟩ := inScope
    have opensHead := opens_anfOp head bound middle first actual binds next ready.above ready.covers
    have headHoists := hoists_atomize opensHead
      (hoists_anfOp head bound middle visible actual binds next first sees.1 ready)
    obtain ⟨atom, added1, last1, found1, ordered1, normal1, atomIn, covers1, -⟩ :=
      opens_atomize ready.above opensHead
    have ready' : Ready limit last1 middle (opened actual added1) visible :=
      ⟨ready.inside.trans (Finset.coe_subset.mpr (subset_of_scope head bound middle first)),
        Nat.le_trans ready.above ordered1, covers1⟩
    have opensRest := opens_atomizeList rest middle out others (opened actual added1)
      (binds ++ added1) last1 ready'.above covers1
    have restHoists := hoists_atomizeList rest middle out visible (opened actual added1)
      (binds ++ added1) last1 others sees.2 ready'
    have ⟨atoms, added2, last2, found2, _⟩ := opensRest
    obtain ⟨rfl, rfl, rfl⟩ := found_unique found (by
      simp only [atomizeList, found1, found2, Option.bind_eq_bind, Option.bind_some,
        Option.pure_def]
      rw [List.append_assoc])
    simp only [evalList, hoistList]
    exact hoists_cons List.cons ready.visible_subset normal1 atomIn
      (headHoists atom added1 last1 found1) opensRest restHoists found2 agree

end

end Hoists

end Anf

end Fai
