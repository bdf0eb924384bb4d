import FaiVerif.Machine.Runs
import Mathlib.Data.Finset.Sort

/-!
# A-normal form

`anf` of `fai-rc`'s `lib.rs`: every operand of an operation becomes an atom and every binding of a
straight line is flattened into one sequence, while branches keep scopes of their own. A body that
uses only bound slots, binds none twice along a path and holds none of the nodes of later passes
becomes a body whose operations have atoms of its scope as operands.
-/

namespace Fai

namespace Anf

/-- The bindings collected so far and the next free slot. -/
structure Seq where
  /-- The bindings, outermost first. -/
  binds : List (LocalId × CExpr)
  /-- The next free slot. -/
  next : Nat

/-- `bind`: bind a result to a fresh local and return the local. -/
def bind (result : CExpr) (seq : Seq) : CExpr × Seq :=
  (.loc seq.next result.ty, ⟨seq.binds ++ [(seq.next, result)], seq.next + 1⟩)

/-- The end of `atomize`: bind a normalized result unless it is an atom. -/
def atomize (normalized : CExpr × Seq) : CExpr × Seq :=
  if normalized.1.isAtom then normalized else bind normalized.1 normalized.2

/-- The end of `to_local`: bind a normalized result unless it is a local. -/
def toLocal (normalized : CExpr × Seq) : CExpr × Seq :=
  if normalized.1.asLocal.isSome then normalized else bind normalized.1 normalized.2

/-- `wrap_binds`: wrap an expression in bindings, outermost first. -/
def wrapBinds (binds : List (LocalId × CExpr)) (inner : CExpr) : CExpr :=
  binds.foldr (fun binding e => .letIn binding.1 binding.2 e e.ty) inner

/-- The end of `anf`: a normalized operation under its own bindings. -/
def wrapped (normalized : CExpr × Seq) : CExpr × Nat :=
  (wrapBinds normalized.2.binds normalized.1, normalized.2.next)

mutual

/-- `anf_op`: an operation or atom on atoms, with every binding pushed to the sequence; the nodes
of the tail-call transform never get here. -/
def anfOp : CExpr → Seq → Option (CExpr × Seq)
  | .lit value ty, seq => some (.lit value ty, seq)
  | .loc slot ty, seq => some (.loc slot ty, seq)
  | .global target ty, seq => some (.global target ty, seq)
  | .error ty, seq => some (.error ty, seq)
  | .prim op args ty, seq => do
    let (args, seq) ← atomizeList args seq
    return (.prim op args ty, seq)
  | .foreign symbol args marshalled ty, seq => do
    let (args, seq) ← atomizeList args seq
    return (.foreign symbol args marshalled ty, seq)
  | .makeData tag args reuse scalars niche ty, seq => do
    let (args, seq) ← atomizeList args seq
    return (.makeData tag args reuse scalars niche ty, seq)
  | .app func args reuse alloc ty, seq => do
    let (func, seq) ← (anfOp func seq).map atomize
    let (args, seq) ← atomizeList args seq
    return (.app func args reuse alloc ty, seq)
  | .spread components ty, seq => do
    let (components, seq) ← atomizeList components seq
    return (.spread components ty, seq)
  | .letMany slots value body ty, seq => do
    let (value, next) ← (anfOp value ⟨[], seq.next⟩).map wrapped
    let (body, next) ← (anfOp body ⟨[], next⟩).map wrapped
    return (.letMany slots value body ty, ⟨seq.binds, next⟩)
  | .dataTag base niche ty, seq => do
    let (base, seq) ← (anfOp base seq).map toLocal
    return (.dataTag base niche ty, seq)
  | .dataField base index scalar niche ty, seq => do
    let (base, seq) ← (anfOp base seq).map toLocal
    return (.dataField base index scalar niche ty, seq)
  | .ite cond yes no ty, seq => do
    let (cond, seq) ← (anfOp cond seq).map atomize
    let (yes, next) ← (anfOp yes ⟨[], seq.next⟩).map wrapped
    let (no, next) ← (anfOp no ⟨[], next⟩).map wrapped
    return (.ite cond yes no ty, ⟨seq.binds, next⟩)
  | .letIn slot value body _, seq => do
    let (value, seq) ← anfOp value seq
    anfOp body ⟨seq.binds ++ [(slot, value)], seq.next⟩
  | .makeClosure func captures alloc ty, seq => some (.makeClosure func captures alloc ty, seq)
  | .reset value token body ty, seq => do
    let (value, next) ← (anfOp value ⟨[], seq.next⟩).map wrapped
    let (body, next) ← (anfOp body ⟨[], next⟩).map wrapped
    return (.reset value token body ty, ⟨seq.binds, next⟩)
  | .freeReuse token body ty, seq => do
    let (body, next) ← (anfOp body ⟨[], seq.next⟩).map wrapped
    return (.freeReuse token body ty, ⟨seq.binds, next⟩)
  | .dup slot body ty, seq => do
    let (body, next) ← (anfOp body ⟨[], seq.next⟩).map wrapped
    return (.dup slot body ty, ⟨seq.binds, next⟩)
  | .drop slot body ty, seq => do
    let (body, next) ← (anfOp body ⟨[], seq.next⟩).map wrapped
    return (.drop slot body ty, ⟨seq.binds, next⟩)
  | .join _ _ _, _ | .recur _ _, _ | .holeStart _ _ _, _ | .holeFill _ _ _ _, _
  | .holeClose _ _ _, _ => none

/-- Operands as atoms, in order. -/
def atomizeList : List CExpr → Seq → Option (List CExpr × Seq)
  | [], seq => some ([], seq)
  | head :: rest, seq => do
    let (head, seq) ← (anfOp head seq).map atomize
    let (rest, seq) ← atomizeList rest seq
    return (head :: rest, seq)

end

/-- `anf`: the A-normal form of a body and the next free slot after it. -/
def anf (e : CExpr) (next : Nat) : Option (CExpr × Nat) := (anfOp e ⟨[], next⟩).map wrapped

end Anf

namespace CExpr

/-- Whether the expression is not the application of a local: a multi-result call is direct. -/
def directCall : CExpr → Bool
  | app (loc _ _) _ _ _ _ => false
  | _ => true

mutual

/-- The slots bound after a lowered body along its straight line: every use is of a bound slot, no
slot is bound again while it is bound, slots are below the limit, and there is no node that
reference counting or a later pass inserts. -/
def scope (limit : Nat) : CExpr → Finset LocalId → Option (Finset LocalId)
  | lit _ _, bound | global _ _, bound | error _, bound => some bound
  | loc slot _, bound => if slot ∈ bound then some bound else none
  | prim op args _, bound => if op.isPeek then none else scopeList limit args bound
  | foreign _ args _ _, bound | spread args _, bound => scopeList limit args bound
  | makeData _ args reuse _ _ _, bound =>
    if reuse.isSome then none else scopeList limit args bound
  | app func args reuse _ _, bound =>
    if reuse.isEmpty then (func.scope limit bound).bind (scopeList limit args) else none
  | ite cond yes no _, bound =>
    (cond.scope limit bound).bind fun bound =>
      if (yes.scope limit bound).isSome && (no.scope limit bound).isSome then some bound else none
  | letIn slot value body _, bound =>
    (value.scope limit bound).bind fun bound =>
      if slot ∉ bound ∧ slot < limit then body.scope limit (insert slot bound) else none
  | letMany slots value body _, bound =>
    if value.directCall && (value.scope limit bound).isSome &&
        decide (slots.Nodup ∧ ∀ slot ∈ slots, slot ∉ bound ∧ slot < limit) &&
        (body.scope limit (bound ∪ slots.toFinset)).isSome then some bound
    else none
  | makeClosure _ captures _ _, bound =>
    if ∀ slot ∈ captures, slot ∈ bound then some bound else none
  | dataTag base _ _, bound => base.scope limit bound
  | dataField base index _ _ _, bound =>
    (base.scope limit bound).bind fun bound =>
      if ∀ slot ∈ index.slots, slot ∈ bound then some bound else none
  | reset _ _ _ _, _ | freeReuse _ _ _, _ | dup _ _ _, _ | drop _ _ _, _ | join _ _ _, _
  | recur _ _, _ | holeStart _ _ _, _ | holeFill _ _ _ _, _ | holeClose _ _ _, _ => none

/-- The slots bound after operands. -/
def scopeList (limit : Nat) : List CExpr → Finset LocalId → Option (Finset LocalId)
  | [], bound => some bound
  | head :: rest, bound => (head.scope limit bound).bind (scopeList limit rest)

end

/-- An atom whose slot, if it is a local, is bound. -/
def AtomIn (bound : Finset LocalId) : CExpr → Prop
  | loc slot _ => slot ∈ bound
  | lit _ _ | global _ _ | error _ => True
  | _ => False

/-- A local that is bound. -/
def LocalIn (bound : Finset LocalId) : CExpr → Prop
  | loc slot _ => slot ∈ bound
  | _ => False

/-- A body in A-normal form, lexically scoped without shadowing: operands are atoms of the scope,
projections read locals, and binders are new. -/
def Normal (limit : Nat) : CExpr → Finset LocalId → Prop
  | lit _ _, _ | global _ _, _ | error _, _ => True
  | loc slot _, bound => slot ∈ bound
  | prim op args _, bound => op.isPeek = false ∧ ∀ a ∈ args, a.AtomIn bound
  | foreign _ args _ _, bound | spread args _, bound => ∀ a ∈ args, a.AtomIn bound
  | makeData _ args reuse _ _ _, bound => reuse = none ∧ ∀ a ∈ args, a.AtomIn bound
  | app func args reuse _ _, bound =>
    reuse = [] ∧ func.AtomIn bound ∧ ∀ a ∈ args, a.AtomIn bound
  | ite cond yes no _, bound =>
    cond.AtomIn bound ∧ yes.Normal limit bound ∧ no.Normal limit bound
  | letIn slot value body _, bound =>
    value.Normal limit bound ∧ slot ∉ bound ∧ slot < limit ∧
      body.Normal limit (insert slot bound)
  | letMany slots value body _, bound =>
    value.directCall = true ∧ value.Normal limit bound ∧
      (slots.Nodup ∧ ∀ slot ∈ slots, slot ∉ bound ∧ slot < limit) ∧
      body.Normal limit (bound ∪ slots.toFinset)
  | makeClosure _ captures _ _, bound => ∀ slot ∈ captures, slot ∈ bound
  | dataTag base _ _, bound => base.LocalIn bound
  | dataField base index _ _ _, bound => base.LocalIn bound ∧ ∀ slot ∈ index.slots, slot ∈ bound
  | _, _ => False

/-- A larger scope has the atoms of a smaller one. -/
theorem AtomIn.mono {small large : Finset LocalId} (subset : small ⊆ large) {e : CExpr}
    (atom : e.AtomIn small) : e.AtomIn large := by
  cases e <;> simp only [AtomIn] at atom ⊢
  exact subset atom

/-- A later limit bounds the binders as well. -/
theorem Normal.mono {low high : Nat} (ordered : low ≤ high) {e : CExpr} {bound : Finset LocalId}
    (normal : e.Normal low bound) : e.Normal high bound := by
  induction e using CExpr.induct generalizing bound with
  | ite cond yes no ty _ yesHypothesis noHypothesis =>
    exact ⟨normal.1, yesHypothesis normal.2.1, noHypothesis normal.2.2⟩
  | letIn slot value body ty valueHypothesis bodyHypothesis =>
    exact ⟨valueHypothesis normal.1, normal.2.1, Nat.lt_of_lt_of_le normal.2.2.1 ordered,
      bodyHypothesis normal.2.2.2⟩
  | letMany slots value body ty valueHypothesis bodyHypothesis =>
    obtain ⟨direct, valueNormal, ⟨distinct, fresh⟩, bodyNormal⟩ := normal
    refine ⟨direct, valueHypothesis valueNormal, ⟨distinct, fun slot member => ?_⟩,
      bodyHypothesis bodyNormal⟩
    exact ⟨(fresh slot member).1, Nat.lt_of_lt_of_le (fresh slot member).2 ordered⟩
  | _ => exact normal

end CExpr

namespace Anf

open CExpr

/-- The scope after bindings. -/
def opened (bound : Finset LocalId) (binds : List (LocalId × CExpr)) : Finset LocalId :=
  binds.foldl (fun bound binding => insert binding.1 bound) bound

/-- Bindings of normal values to new slots. -/
def NormalBinds (limit : Nat) (bound : Finset LocalId) : List (LocalId × CExpr) → Prop
  | [] => True
  | (slot, value) :: rest =>
    value.Normal limit bound ∧ slot ∉ bound ∧ slot < limit ∧
      NormalBinds limit (insert slot bound) rest

/-- The scope of a flattened body is that of the source, below the limit, with temporaries from
the limit on. -/
structure Covers (limit next : Nat) (source actual : Finset LocalId) : Prop where
  /-- The source's slots are below the limit. -/
  below : ∀ slot ∈ source, slot < limit
  /-- The source's slots are in scope. -/
  subset : source ⊆ actual
  /-- Every other slot is a temporary. -/
  others : ∀ slot ∈ actual, slot ∈ source ∨ (limit ≤ slot ∧ slot < next)

/-- Scopes of concatenated bindings. -/
theorem opened_append (bound : Finset LocalId) (first second : List (LocalId × CExpr)) :
    opened bound (first ++ second) = opened (opened bound first) second :=
  List.foldl_append ..

/-- Bindings only open the scope. -/
theorem subset_opened (bound : Finset LocalId) (binds : List (LocalId × CExpr)) :
    bound ⊆ opened bound binds := by
  induction binds generalizing bound with
  | nil => exact fun _ member => member
  | cons binding rest inductionHypothesis =>
    exact fun _ member => inductionHypothesis _ (Finset.mem_insert_of_mem member)

/-- Normal bindings one after the other. -/
theorem normalBinds_append {limit : Nat} {bound : Finset LocalId}
    {first second : List (LocalId × CExpr)} :
    NormalBinds limit bound (first ++ second) ↔
      NormalBinds limit bound first ∧ NormalBinds limit (opened bound first) second := by
  induction first generalizing bound with
  | nil => simp [NormalBinds, opened]
  | cons binding rest inductionHypothesis =>
    simp only [List.cons_append, NormalBinds, inductionHypothesis, and_assoc]
    rfl

/-- A later limit bounds the binders of bindings as well. -/
theorem normalBinds_mono {low high : Nat} (ordered : low ≤ high) {bound : Finset LocalId}
    {binds : List (LocalId × CExpr)} (normal : NormalBinds low bound binds) :
    NormalBinds high bound binds := by
  induction binds generalizing bound with
  | nil => trivial
  | cons binding rest inductionHypothesis =>
    exact ⟨normal.1.mono ordered, normal.2.1, Nat.lt_of_lt_of_le normal.2.2.1 ordered,
      inductionHypothesis normal.2.2.2⟩

/-- An expression under normal bindings is normal when it is normal in their scope. -/
theorem normal_wrapBinds {limit : Nat} {bound : Finset LocalId} {binds : List (LocalId × CExpr)}
    {inner : CExpr} (normal : NormalBinds limit bound binds)
    (innerNormal : inner.Normal limit (opened bound binds)) :
    (wrapBinds binds inner).Normal limit bound := by
  induction binds generalizing bound with
  | nil => exact innerNormal
  | cons binding rest inductionHypothesis =>
    exact ⟨normal.1, normal.2.1, normal.2.2.1, inductionHypothesis normal.2.2.2 innerNormal⟩

/-- A normalization succeeds with bindings and a result that are normal in the source's scope and
its own temporaries; without bindings, the result keeps what `head` says. -/
def Opens {β : Type} (limit next : Nat) (binds : List (LocalId × CExpr))
    (out actual : Finset LocalId) (shape : Nat → Finset LocalId → β → Prop) (head : β → Prop)
    (normalized : Option (β × Seq)) : Prop :=
  ∃ result added last, normalized = some (result, ⟨binds ++ added, last⟩) ∧ next ≤ last ∧
    NormalBinds last actual added ∧ shape last (opened actual added) result ∧
    Covers limit last out (opened actual added) ∧ (added = [] → head result)

/-- What survives normalization without bindings: a compound expression stays compound and a
direct call direct. -/
def KeepsHead (e op : CExpr) : Prop :=
  (op.isAtom = true → op = e) ∧ (e.directCall = true → op.directCall = true)

section

variable {β δ : Type} {limit next : Nat} {binds : List (LocalId × CExpr)}
  {out middle actual : Finset LocalId} {shape : Nat → Finset LocalId → β → Prop}
  {shape' : Nat → Finset LocalId → δ → Prop} {head : β → Prop} {head' : δ → Prop}

/-- A result without bindings. -/
theorem opens_pure {result : β} (covers : Covers limit next out actual)
    (normal : shape next actual result) (keeps : head result) :
    Opens limit next binds out actual shape head (some (result, ⟨binds, next⟩)) :=
  ⟨result, [], next, by rw [List.append_nil], Nat.le_refl _, trivial, normal, covers,
    fun _ => keeps⟩

/-- One normalization after another. -/
theorem opens_bind {normalized : Option (β × Seq)} {rest : β × Seq → Option (δ × Seq)}
    (first : Opens limit next binds middle actual shape head normalized)
    (others : ∀ result last scope binds', next ≤ last → actual ⊆ scope →
      Covers limit last middle scope → shape last scope result →
      Opens limit last binds' out scope shape' (fun final => head result → head' final)
        (rest (result, ⟨binds', last⟩))) :
    Opens limit next binds out actual shape' head' (normalized >>= rest) := by
  obtain ⟨result, added, last, rfl, ordered, normal, shaped, covers, keeps⟩ := first
  obtain ⟨final, more, end', found, ordered', normal', shaped', covers', keeps'⟩ :=
    others result last _ (binds ++ added) ordered (subset_opened _ _) covers shaped
  refine ⟨final, added ++ more, end', ?_, Nat.le_trans ordered ordered', ?_, ?_, ?_, ?_⟩
  · rw [← List.append_assoc]
    exact found
  · exact normalBinds_append.mpr ⟨normalBinds_mono ordered' normal, normal'⟩
  · rw [opened_append]
    exact shaped'
  · rw [opened_append]
    exact covers'
  · intro empty
    obtain ⟨none, noMore⟩ := List.append_eq_nil_iff.mp empty
    exact keeps' noMore (keeps none)

/-- A fresh slot is new and the scope with it is covered. -/
theorem opens_fresh {op : CExpr} {added : List (LocalId × CExpr)} {last : Nat}
    (above : limit ≤ last) (normal : NormalBinds last actual added)
    (opNormal : op.Normal last (opened actual added))
    (covers : Covers limit last out (opened actual added)) :
    NormalBinds (last + 1) actual (added ++ [(last, op)]) ∧
      last ∈ opened actual (added ++ [(last, op)]) ∧
      Covers limit (last + 1) out (opened actual (added ++ [(last, op)])) := by
  have later : last ≤ last + 1 := Nat.le_succ last
  have new : last ∉ opened actual added := by
    intro member
    rcases covers.others last member with inOut | ⟨_, below⟩
    · exact absurd (covers.below last inOut) (Nat.not_lt.mpr above)
    · exact Nat.lt_irrefl _ below
  have scopeAfter : opened actual (added ++ [(last, op)]) = insert last (opened actual added) :=
    opened_append _ _ _
  refine ⟨normalBinds_append.mpr ⟨normalBinds_mono later normal, opNormal.mono later, new,
    Nat.lt_succ_self last, trivial⟩, ?_, covers.below, ?_, ?_⟩
  · rw [scopeAfter]
    exact Finset.mem_insert_self _ _
  · rw [scopeAfter]
    exact fun slot member => Finset.mem_insert_of_mem (covers.subset member)
  · intro slot member
    rw [scopeAfter] at member
    rcases Finset.mem_insert.mp member with rfl | earlier
    · exact .inr ⟨above, Nat.lt_succ_self _⟩
    · rcases covers.others slot earlier with inOut | ⟨low, high⟩
      · exact .inl inOut
      · exact .inr ⟨low, Nat.lt_succ_of_lt high⟩

/-- A normal atom is an atom of the scope. -/
theorem atomIn_of_normal {e : CExpr} {bound : Finset LocalId} {last : Nat}
    (atom : e.isAtom = true) (normal : e.Normal last bound) : e.AtomIn bound := by
  cases e <;> simp_all [isAtom, AtomIn, CExpr.Normal]

/-- A normal local is a local of the scope. -/
theorem localIn_of_normal {e : CExpr} {bound : Finset LocalId} {last : Nat}
    (named : e.asLocal.isSome = true) (normal : e.Normal last bound) : e.LocalIn bound := by
  cases e <;> simp_all [asLocal, LocalIn, CExpr.Normal]

/-- An operand becomes an atom; without bindings it was one. -/
theorem opens_atomize {e : CExpr} {normalized : Option (CExpr × Seq)} (above : limit ≤ next)
    (opens : Opens limit next binds out actual (fun last scope op => op.Normal last scope)
      (KeepsHead e) normalized) :
    Opens limit next binds out actual (fun _ scope op => op.AtomIn scope) (fun op => op = e)
      (normalized.map atomize) := by
  obtain ⟨op, added, last, rfl, ordered, normal, shaped, covers, keeps⟩ := opens
  rw [Option.map_some]
  unfold atomize
  by_cases atom : op.isAtom = true
  · rw [if_pos atom]
    exact ⟨op, added, last, rfl, ordered, normal, atomIn_of_normal atom shaped, covers,
      fun empty => (keeps empty).1 atom⟩
  · rw [if_neg atom]
    obtain ⟨binds', member, covers'⟩ :=
      opens_fresh (Nat.le_trans above ordered) normal shaped covers
    refine ⟨.loc last op.ty, added ++ [(last, op)], last + 1, ?_, Nat.le_succ_of_le ordered,
      binds', member, covers', ?_⟩
    · simp [bind]
    · intro empty
      simp at empty

/-- A projection base becomes a local. -/
theorem opens_toLocal {e : CExpr} {normalized : Option (CExpr × Seq)} (above : limit ≤ next)
    (opens : Opens limit next binds out actual (fun last scope op => op.Normal last scope)
      (KeepsHead e) normalized) :
    Opens limit next binds out actual (fun _ scope op => op.LocalIn scope) (fun _ => True)
      (normalized.map toLocal) := by
  obtain ⟨op, added, last, rfl, ordered, normal, shaped, covers, _⟩ := opens
  rw [Option.map_some]
  unfold toLocal
  by_cases named : op.asLocal.isSome = true
  · rw [if_pos named]
    exact ⟨op, added, last, rfl, ordered, normal, localIn_of_normal named shaped, covers,
      fun _ => trivial⟩
  · rw [if_neg named]
    obtain ⟨binds', member, covers'⟩ :=
      opens_fresh (Nat.le_trans above ordered) normal shaped covers
    refine ⟨.loc last op.ty, added ++ [(last, op)], last + 1, ?_, Nat.le_succ_of_le ordered,
      binds', member, covers', fun _ => trivial⟩
    simp [bind]

/-- A body with a scope of its own is normal under its bindings. -/
theorem wrapped_normal {e : CExpr} {normalized : Option (CExpr × Seq)}
    (opens : Opens limit next [] out actual (fun last scope op => op.Normal last scope)
      (KeepsHead e) normalized) :
    ∃ body last, normalized.map wrapped = some (body, last) ∧ next ≤ last ∧
      body.Normal last actual ∧ (e.directCall = true → body.directCall = true) := by
  obtain ⟨op, added, last, rfl, ordered, normal, shaped, _, keeps⟩ := opens
  refine ⟨wrapBinds added op, last, rfl, ordered, normal_wrapBinds normal shaped, ?_⟩
  intro direct
  cases added with
  | nil => exact (keeps rfl).2 direct
  | cons binding rest => rfl

end

/-- A covered scope is covered from any later slot. -/
theorem Covers.later {limit next last : Nat} {source actual : Finset LocalId}
    (covers : Covers limit next source actual) (ordered : next ≤ last) :
    Covers limit last source actual := by
  refine ⟨covers.below, covers.subset, fun slot member => ?_⟩
  rcases covers.others slot member with inSource | ⟨low, high⟩
  · exact .inl inSource
  · exact .inr ⟨low, Nat.lt_of_lt_of_le high ordered⟩

/-- A covered scope is covered once both bind a slot of the source. -/
theorem Covers.insert {limit next : Nat} {source actual : Finset LocalId} {slot : LocalId}
    (covers : Covers limit next source actual) (small : slot < limit) :
    Covers limit next (insert slot source) (insert slot actual) := by
  refine ⟨fun name member => ?_, Finset.insert_subset_insert _ covers.subset,
    fun name member => ?_⟩
  · rcases Finset.mem_insert.mp member with rfl | earlier
    · exact small
    · exact covers.below name earlier
  · rcases Finset.mem_insert.mp member with rfl | earlier
    · exact .inl (Finset.mem_insert_self _ _)
    · rcases covers.others name earlier with inSource | temporary
      · exact .inl (Finset.mem_insert_of_mem inSource)
      · exact .inr temporary

/-- A covered scope is covered once both bind several slots of the source. -/
theorem Covers.union {limit next : Nat} {source actual : Finset LocalId} {slots : List LocalId}
    (covers : Covers limit next source actual) (small : ∀ slot ∈ slots, slot < limit) :
    Covers limit next (source ∪ slots.toFinset) (actual ∪ slots.toFinset) := by
  refine ⟨fun name member => ?_, Finset.union_subset_union_left covers.subset,
    fun name member => ?_⟩
  · rcases Finset.mem_union.mp member with earlier | bindsNow
    · exact covers.below name earlier
    · exact small name (List.mem_toFinset.mp bindsNow)
  · rcases Finset.mem_union.mp member with earlier | bindsNow
    · rcases covers.others name earlier with inSource | temporary
      · exact .inl (Finset.mem_union_left _ inSource)
      · exact .inr temporary
    · exact .inl (Finset.mem_union_right _ bindsNow)

/-- A node that is neither an atom nor an application keeps its head. -/
theorem keepsHead_of {e op : CExpr} (compound : op.isAtom = false)
    (direct : op.directCall = true) : KeepsHead e op :=
  ⟨fun atom => absurd atom (by simp [compound]), fun _ => direct⟩

/-- A binding of a normalized value and what follows it. -/
theorem opens_letIn {limit next : Nat} {binds : List (LocalId × CExpr)} {slot : LocalId}
    {e : CExpr} {middle out actual : Finset LocalId} {head : CExpr → Prop}
    {normalized : Option (CExpr × Seq)} {rest : Seq → Option (CExpr × Seq)}
    (first : Opens limit next binds middle actual (fun last scope op => op.Normal last scope) head
      normalized)
    (new : slot ∉ middle) (small : slot < limit) (above : limit ≤ next)
    (others : ∀ last scope binds', next ≤ last → Covers limit last (insert slot middle) scope →
      Opens limit last binds' out scope (fun last scope op => op.Normal last scope)
        (fun _ => True) (rest ⟨binds', last⟩)) :
    Opens limit next binds out actual (fun last scope op => op.Normal last scope) (KeepsHead e)
      (normalized >>= fun (value, seq) => rest ⟨seq.binds ++ [(slot, value)], seq.next⟩) := by
  obtain ⟨value, added, last, rfl, ordered, normal, shaped, covers, _⟩ := first
  have fresh : slot ∉ opened actual added := by
    intro member
    rcases covers.others slot member with inMiddle | ⟨low, _⟩
    · exact new inMiddle
    · exact absurd small (Nat.not_lt.mpr low)
  have covers' := covers.insert small
  obtain ⟨final, more, end', found, ordered', normal', shaped', coversEnd, _⟩ :=
    others last _ (binds ++ added ++ [(slot, value)]) ordered covers'
  have scopeAfter : opened actual (added ++ (slot, value) :: more) =
      opened (insert slot (opened actual added)) more := opened_append _ _ _
  refine ⟨final, added ++ (slot, value) :: more, end', ?_, Nat.le_trans ordered ordered', ?_, ?_,
    ?_, ?_⟩
  · have assoc : binds ++ (added ++ (slot, value) :: more) =
        binds ++ added ++ [(slot, value)] ++ more := by simp
    rw [assoc]
    exact found
  · exact normalBinds_append.mpr ⟨normalBinds_mono ordered' normal, shaped.mono ordered', fresh,
      Nat.lt_of_lt_of_le small (Nat.le_trans above (Nat.le_trans ordered ordered')), normal'⟩
  · rw [scopeAfter]
    exact shaped'
  · rw [scopeAfter]
    exact coversEnd
  · intro empty
    simp at empty

mutual

/-- Normalizing a scoped body succeeds with normal bindings and a normal operation. -/
theorem opens_anfOp {limit : Nat} : ∀ (e : CExpr) (bound out : Finset LocalId),
    e.scope limit bound = some out → ∀ (actual : Finset LocalId)
      (binds : List (LocalId × CExpr)) (next : Nat), limit ≤ next →
      Covers limit next bound actual →
      Opens limit next binds out actual (fun last scope op => op.Normal last scope) (KeepsHead e)
        (anfOp e ⟨binds, next⟩)
  | lit _ _, bound, out, inScope, actual, binds, next, above, covers
  | global _ _, bound, out, inScope, actual, binds, next, above, covers
  | error _, bound, out, inScope, actual, binds, next, above, covers => by
    cases inScope
    exact opens_pure covers trivial ⟨fun _ => rfl, fun _ => rfl⟩
  | loc slot _, bound, out, inScope, actual, binds, next, above, covers => by
    simp only [scope, Option.ite_none_right_eq_some, Option.some.injEq] at inScope
    obtain ⟨member, rfl⟩ := inScope
    exact opens_pure covers (covers.subset member) ⟨fun _ => rfl, fun _ => rfl⟩
  | prim op args _, bound, out, inScope, actual, binds, next, above, covers => by
    simp only [scope, Option.ite_none_left_eq_some] at inScope
    have notPeek : op.isPeek = false := by simpa using inScope.1
    refine opens_bind (opens_atomizeList args bound out inScope.2 actual binds next above covers)
      fun args' last scope binds' _ _ covers' atoms => ?_
    exact opens_pure covers' ⟨notPeek, atoms⟩ fun _ => keepsHead_of rfl rfl
  | foreign _ args _ _, bound, out, inScope, actual, binds, next, above, covers => by
    refine opens_bind (opens_atomizeList args bound out inScope actual binds next above covers)
      fun args' last scope binds' _ _ covers' atoms => ?_
    exact opens_pure covers' atoms fun _ => keepsHead_of rfl rfl
  | spread args _, bound, out, inScope, actual, binds, next, above, covers => by
    refine opens_bind (opens_atomizeList args bound out inScope actual binds next above covers)
      fun args' last scope binds' _ _ covers' atoms => ?_
    exact opens_pure covers' atoms fun _ => keepsHead_of rfl rfl
  | makeData _ args reuse _ _ _, bound, out, inScope, actual, binds, next, above, covers => by
    simp only [scope, Option.ite_none_left_eq_some] at inScope
    have noToken : reuse = none := by simpa using inScope.1
    refine opens_bind (opens_atomizeList args bound out inScope.2 actual binds next above covers)
      fun args' last scope binds' _ _ covers' atoms => ?_
    exact opens_pure covers' ⟨noToken, atoms⟩ fun _ => keepsHead_of rfl rfl
  | app func args reuse _ _, bound, out, inScope, actual, binds, next, above, covers => by
    simp only [scope, Option.ite_none_right_eq_some, Option.bind_eq_some_iff] at inScope
    obtain ⟨empty, middle, first, rest⟩ := inScope
    have noTokens : reuse = [] := List.isEmpty_iff.mp empty
    refine opens_bind (opens_atomize above
      (opens_anfOp func bound middle first actual binds next above covers))
      fun func' last scope binds' ordered _ covers' atom => ?_
    refine opens_bind (opens_atomizeList args middle out rest scope binds' last
      (Nat.le_trans above ordered) covers') fun args' last' scope' binds'' _ subset
        covers'' atoms => ?_
    refine opens_pure covers'' ⟨noTokens, atom.mono subset, atoms⟩ fun _ same => ?_
    subst same
    refine ⟨fun compound => (by cases compound), fun direct => ?_⟩
    cases func' <;> first | rfl | cases direct
  | CExpr.ite cond yes no _, bound, out, inScope, actual, binds, next, above, covers => by
    simp only [scope, Option.bind_eq_some_iff, Option.ite_none_right_eq_some, Option.some.injEq,
      Bool.and_eq_true, Option.isSome_iff_exists] at inScope
    obtain ⟨middle, first, ⟨⟨yesOut, yesScope⟩, ⟨noOut, noScope⟩⟩, rfl⟩ := inScope
    refine opens_bind (opens_atomize above
      (opens_anfOp cond bound middle first actual binds next above covers))
      fun cond' last scope binds' ordered _ covers' atom => ?_
    obtain ⟨yes', yesLast, yesFound, yesOrdered, yesNormal, _⟩ := wrapped_normal
      (opens_anfOp yes middle yesOut yesScope scope [] last (Nat.le_trans above ordered) covers')
    obtain ⟨no', noLast, noFound, noOrdered, noNormal, _⟩ := wrapped_normal
      (opens_anfOp no middle noOut noScope scope [] yesLast
        (Nat.le_trans above (Nat.le_trans ordered yesOrdered)) (covers'.later yesOrdered))
    simp only [yesFound, noFound, Option.bind_eq_bind, Option.bind_some]
    refine ⟨_, [], noLast, by rw [List.append_nil]; rfl, Nat.le_trans yesOrdered noOrdered, trivial,
      ?_, covers'.later (Nat.le_trans yesOrdered noOrdered), fun _ _ => keepsHead_of rfl rfl⟩
    exact ⟨atom, yesNormal.mono noOrdered, noNormal⟩
  | letIn slot value body _, bound, out, inScope, actual, binds, next, above, covers => by
    simp only [scope, Option.bind_eq_some_iff, Option.ite_none_right_eq_some] at inScope
    obtain ⟨middle, first, ⟨new, small⟩, rest⟩ := inScope
    refine opens_letIn (opens_anfOp value bound middle first actual binds next above covers) new
      small above fun last scope binds' ordered covers' => ?_
    obtain ⟨op, added, end', found, ordered', normal, shaped, coversEnd, _⟩ :=
      opens_anfOp body (insert slot middle) out rest scope binds' last (Nat.le_trans above ordered)
        covers'
    exact ⟨op, added, end', found, ordered', normal, shaped, coversEnd, fun _ => trivial⟩
  | letMany slots value body _, bound, out, inScope, actual, binds, next, above, covers => by
    simp only [scope, Option.ite_none_right_eq_some, Option.some.injEq, Bool.and_eq_true,
      decide_eq_true_eq, Option.isSome_iff_exists] at inScope
    obtain ⟨⟨⟨⟨direct, ⟨valueOut, valueScope⟩⟩, distinct, fresh⟩, ⟨bodyOut, bodyScope⟩⟩, rfl⟩ :=
      inScope
    obtain ⟨value', valueLast, valueFound, valueOrdered, valueNormal, valueDirect⟩ :=
      wrapped_normal (opens_anfOp value bound valueOut valueScope actual [] next above covers)
    have coversBody := (covers.later valueOrdered).union fun slot member => (fresh slot member).2
    obtain ⟨body', bodyLast, bodyFound, bodyOrdered, bodyNormal, _⟩ := wrapped_normal
      (opens_anfOp body _ bodyOut bodyScope _ [] valueLast (Nat.le_trans above valueOrdered)
        coversBody)
    have ordered : next ≤ bodyLast := Nat.le_trans valueOrdered bodyOrdered
    simp only [anfOp, valueFound, bodyFound, Option.bind_eq_bind, Option.bind_some]
    refine ⟨_, [], bodyLast, by rw [List.append_nil]; rfl, ordered, trivial, ?_,
      covers.later ordered, fun _ => keepsHead_of rfl rfl⟩
    refine ⟨valueDirect direct, valueNormal.mono bodyOrdered, ⟨distinct, fun slot member => ?_⟩,
      bodyNormal⟩
    refine ⟨fun inScope => ?_, Nat.lt_of_lt_of_le (fresh slot member).2
      (Nat.le_trans above ordered)⟩
    rcases covers.others slot inScope with inBound | ⟨low, _⟩
    · exact (fresh slot member).1 inBound
    · exact absurd (fresh slot member).2 (Nat.not_lt.mpr low)
  | makeClosure _ captures _ _, bound, out, inScope, actual, binds, next, above, covers => by
    simp only [scope, Option.ite_none_right_eq_some, Option.some.injEq] at inScope
    obtain ⟨members, rfl⟩ := inScope
    exact opens_pure covers (fun slot member => covers.subset (members slot member))
      (keepsHead_of rfl rfl)
  | dataTag base _ _, bound, out, inScope, actual, binds, next, above, covers => by
    refine opens_bind (opens_toLocal above
      (opens_anfOp base bound out inScope actual binds next above covers))
      fun base' last scope binds' _ _ covers' named => ?_
    exact opens_pure covers' named fun _ => keepsHead_of rfl rfl
  | dataField base index _ _ _, bound, out, inScope, actual, binds, next, above, covers => by
    simp only [scope, Option.bind_eq_some_iff, Option.ite_none_right_eq_some,
      Option.some.injEq] at inScope
    obtain ⟨middle, first, evidence, rfl⟩ := inScope
    refine opens_bind (opens_toLocal above
      (opens_anfOp base bound middle first actual binds next above covers))
      fun base' last scope binds' _ _ covers' named => ?_
    exact opens_pure covers' ⟨named, fun slot member => covers'.subset (evidence slot member)⟩
      fun _ => keepsHead_of rfl rfl
  | reset _ _ _ _, _, _, inScope, _, _, _, _, _ | freeReuse _ _ _, _, _, inScope, _, _, _, _, _
  | dup _ _ _, _, _, inScope, _, _, _, _, _ | drop _ _ _, _, _, inScope, _, _, _, _, _
  | join _ _ _, _, _, inScope, _, _, _, _, _ | recur _ _, _, _, inScope, _, _, _, _, _
  | holeStart _ _ _, _, _, inScope, _, _, _, _, _ | holeFill _ _ _ _, _, _, inScope, _, _, _, _, _
  | holeClose _ _ _, _, _, inScope, _, _, _, _, _ => by cases inScope

/-- Operands of a scoped body become atoms. -/
theorem opens_atomizeList {limit : Nat} : ∀ (es : List CExpr) (bound out : Finset LocalId),
    scopeList limit es bound = some out → ∀ (actual : Finset LocalId)
      (binds : List (LocalId × CExpr)) (next : Nat), limit ≤ next →
      Covers limit next bound actual →
      Opens limit next binds out actual (fun _ scope atoms => ∀ a ∈ atoms, a.AtomIn scope)
        (fun _ => True) (atomizeList es ⟨binds, next⟩)
  | [], bound, out, inScope, actual, binds, next, above, covers => by
    cases inScope
    exact opens_pure covers (by simp) trivial
  | head :: rest, bound, out, inScope, actual, binds, next, above, covers => by
    simp only [scopeList, Option.bind_eq_some_iff] at inScope
    obtain ⟨middle, first, others⟩ := inScope
    refine opens_bind (opens_atomize above
      (opens_anfOp head bound middle first actual binds next above covers))
      fun head' last scope binds' ordered _ covers' atom => ?_
    refine opens_bind (opens_atomizeList rest middle out others scope binds' last
      (Nat.le_trans above ordered) covers') fun rest' last' scope' binds'' _ subset
        covers'' atoms => ?_
    refine opens_pure covers'' (List.forall_mem_cons.mpr ⟨atom.mono subset, atoms⟩) ?_
    exact fun _ _ => trivial

end

/-- A scoped body below the next free slot has an A-normal form in the same scope. -/
theorem normal_anf {e : CExpr} {next : Nat} {bound : Finset LocalId}
    (inScope : (e.scope next bound).isSome = true) (below : ∀ slot ∈ bound, slot < next) :
    ∃ body last, anf e next = some (body, last) ∧ next ≤ last ∧ body.Normal last bound := by
  obtain ⟨out, scopeEq⟩ := Option.isSome_iff_exists.mp inScope
  have covers : Covers next next bound bound :=
    ⟨below, fun _ member => member, fun _ member => .inl member⟩
  obtain ⟨body, last, found, ordered, normal, _⟩ :=
    wrapped_normal (opens_anfOp e bound out scopeEq bound [] next (Nat.le_refl _) covers)
  exact ⟨body, last, found, ordered, normal⟩

end Anf

end Fai
