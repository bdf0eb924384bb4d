import FaiVerif.Rc.Owned

/-!
# Reference counting is balanced

Counted code starts with one reference of every owned slot it uses or that is live after it, and
ends with one reference of every live slot. It does so on every control path exactly when no
operation lends a slot whose last reference it takes.
-/

namespace Fai

namespace Owned

open Ledger CExpr

/-! ## Free owned locals -/

section Free

variable {captures : Finset LocalId}

/-- Noted slots. -/
theorem mem_note {slots : List LocalId} {bound : Finset LocalId} {slot : LocalId} :
    slot ∈ note captures slots bound ↔ slot ∈ slots ∧ slot ∉ captures ∧ slot ∉ bound := by
  simp [note]

mutual

/-- The free owned locals under bound slots are the free owned locals that are not bound. -/
theorem mem_collectFv : ∀ (e : CExpr) (bound : Finset LocalId) (slot : LocalId),
    slot ∈ collectFv captures e bound ↔ slot ∈ collectFv captures e ∅ ∧ slot ∉ bound
  | .loc _ _, bound, slot => by simp [collectFv, mem_note, and_assoc]
  | .lit _ _, bound, slot | .global _ _, bound, slot | .error _, bound, slot => by
    simp [collectFv]
  | .prim _ args _, bound, slot | .foreign _ args _ _, bound, slot
  | .makeData _ args _ _ _ _, bound, slot | .spread args _, bound, slot
  | .recur args _, bound, slot => mem_collectFvList args bound slot
  | .app func args _ _ _, bound, slot => by
    simp only [collectFv, Finset.mem_union]
    rw [mem_collectFv func, mem_collectFvList args, ← or_and_right]
  | .ite cond yes no _, bound, slot => by
    simp only [collectFv, Finset.mem_union]
    rw [mem_collectFv cond, mem_collectFv yes, mem_collectFv no, ← or_and_right, ← or_and_right]
  | .letIn name value body _, bound, slot | .reset value name body _, bound, slot => by
    simp only [collectFv, Finset.mem_union]
    rw [mem_collectFv value, mem_collectFv body, mem_collectFv body (insert name ∅)]
    simp only [Finset.mem_insert, Finset.notMem_empty, or_false]
    tauto
  | .letMany names value body _, bound, slot => by
    simp only [collectFv, Finset.mem_union]
    rw [mem_collectFv value, mem_collectFv body, mem_collectFv body (∅ ∪ names.toFinset)]
    simp only [Finset.mem_union, Finset.notMem_empty, false_or]
    tauto
  | .makeClosure _ _ _ _, bound, slot => by simp [collectFv, mem_note, and_assoc]
  | .dataTag base _ _, bound, slot => mem_collectFv base bound slot
  | .dataField base _ _ _ _, bound, slot => by
    simp only [collectFv, Finset.mem_union, mem_note]
    rw [mem_collectFv base]
    simp only [Finset.notMem_empty, not_false_eq_true, and_true]
    tauto
  | .freeReuse _ body _, bound, slot | .dup _ body _, bound, slot | .drop _ body _, bound, slot
  | .holeFill _ body _ _, bound, slot | .holeClose _ body _, bound, slot => by
    simp only [collectFv, Finset.mem_union, mem_note]
    rw [mem_collectFv body]
    simp only [Finset.notMem_empty, not_false_eq_true, and_true]
    tauto
  | .join names body _, bound, slot => by
    simp only [collectFv]
    rw [mem_collectFv body, mem_collectFv body (∅ ∪ names.toFinset)]
    simp only [Finset.mem_union, Finset.notMem_empty, false_or]
    tauto
  | .holeStart name body _, bound, slot => by
    simp only [collectFv]
    rw [mem_collectFv body, mem_collectFv body (insert name ∅)]
    simp only [Finset.mem_insert, Finset.notMem_empty, or_false]
    tauto

/-- The free owned locals of operands under bound slots. -/
theorem mem_collectFvList : ∀ (es : List CExpr) (bound : Finset LocalId) (slot : LocalId),
    slot ∈ collectFvList captures es bound ↔
      slot ∈ collectFvList captures es ∅ ∧ slot ∉ bound
  | [], bound, slot => by simp [collectFvList]
  | head :: rest, bound, slot => by
    simp only [collectFvList, Finset.mem_union]
    rw [mem_collectFv head, mem_collectFvList rest, ← or_and_right]

end

/-- The free owned locals of a binding. -/
theorem fvOwned_letIn (slot : LocalId) (value body : CExpr) (ty : Ty) :
    fvOwned captures (.letIn slot value body ty) =
      fvOwned captures value ∪ (fvOwned captures body).erase slot := by
  ext name
  simp only [fvOwned, collectFv, Finset.mem_union, Finset.mem_erase]
  rw [mem_collectFv body]
  simp [and_comm]

/-- The free owned locals of a multi-result binding. -/
theorem fvOwned_letMany (slots : List LocalId) (value body : CExpr) (ty : Ty) :
    fvOwned captures (.letMany slots value body ty) =
      fvOwned captures value ∪ (fvOwned captures body \ slots.toFinset) := by
  ext name
  simp only [fvOwned, collectFv, Finset.mem_union, Finset.mem_sdiff]
  rw [mem_collectFv body]
  simp

/-- The free owned locals of atoms are their owned locals, lent or consumed. -/
theorem mem_collectFvList_atoms {bound : Finset LocalId} (slot : LocalId) :
    ∀ (flags : List Bool) (atoms : List CExpr), (∀ a ∈ atoms, a.AtomIn bound) →
      (slot ∈ collectFvList captures atoms ∅ ↔
        slot ∉ captures ∧ (slot ∈ consumedLocals flags atoms ∨ slot ∈ lent flags atoms))
  | flags, [], _ => by simp [collectFvList, consumedLocals, lent]
  | flags, head :: rest, atoms => by
    have others := mem_collectFvList_atoms slot flags.tail rest fun a member =>
      atoms a (List.mem_cons_of_mem _ member)
    have first := atoms head List.mem_cons_self
    cases head with
    | loc name _ =>
      simp only [collectFvList, collectFv, Finset.mem_union, mem_note, List.mem_singleton,
        Finset.notMem_empty, not_false_eq_true, and_true, others, consumedLocals, lent]
      cases flags.headD false <;>
        simp only [Bool.false_eq_true, ↓reduceIte, List.mem_cons] <;> tauto
    | lit _ _ | global _ _ | error _ =>
      simpa only [collectFvList, collectFv, Finset.empty_union, consumedLocals, lent] using others
    | _ => exact absurd first (by simp [AtomIn])

/-- Atoms have the locals of the scope. -/
theorem consumedLocals_subset {bound : Finset LocalId} (slot : LocalId) :
    ∀ (flags : List Bool) (atoms : List CExpr), (∀ a ∈ atoms, a.AtomIn bound) →
      slot ∈ consumedLocals flags atoms ∨ slot ∈ lent flags atoms → slot ∈ bound
  | _, [], _, member => by simp [consumedLocals, lent] at member
  | flags, head :: rest, atoms, member => by
    have others := consumedLocals_subset slot flags.tail rest fun a member =>
      atoms a (List.mem_cons_of_mem _ member)
    have first := atoms head List.mem_cons_self
    cases head with
    | loc name _ =>
      simp only [consumedLocals, lent] at member
      cases flag : flags.headD false <;>
        simp only [flag, Bool.false_eq_true, ↓reduceIte, List.mem_cons] at member
      · rcases member with (rfl | consumed) | lentLater
        · exact first
        · exact others (.inl consumed)
        · exact others (.inr lentLater)
      · rcases member with consumed | (rfl | lentLater)
        · exact others (.inl consumed)
        · exact first
        · exact others (.inr lentLater)
    | lit _ _ | global _ _ | error _ => exact others member
    | _ => exact absurd first (by simp [AtomIn])

/-- Operations take the references of the locals they consume. -/
theorem taken_eq_consumedLocals {bound : Finset LocalId} :
    ∀ (flags : List Bool) (atoms : List CExpr), (∀ a ∈ atoms, a.AtomIn bound) →
      taken flags atoms = consumedLocals flags atoms
  | _, [], _ => rfl
  | flags, head :: rest, atoms => by
    have others := taken_eq_consumedLocals flags.tail rest fun a member =>
      atoms a (List.mem_cons_of_mem _ member)
    have first := atoms head List.mem_cons_self
    cases head with
    | loc name _ => simp only [taken, consumedLocals, others]
    | lit _ _ | global _ _ | error _ =>
      simp only [taken, consumedLocals, others, slots, List.nil_append]
    | _ => exact absurd first (by simp [AtomIn])

/-- The free owned locals of atoms are owned slots of the scope. -/
theorem collectFvList_subset {args : List CExpr} {bound : Finset LocalId} {slot : LocalId}
    (atoms : ∀ a ∈ args, a.AtomIn bound) (free : slot ∈ collectFvList captures args ∅) :
    slot ∈ bound ∧ slot ∉ captures := by
  have found := (mem_collectFvList_atoms slot [] args atoms).mp free
  exact ⟨consumedLocals_subset slot [] args atoms found.2, found.1⟩

/-- The free owned local of an atom is an owned slot of the scope. -/
theorem collectFv_subset {atom : CExpr} {bound : Finset LocalId} {slot : LocalId}
    (inBound : atom.AtomIn bound) (free : slot ∈ collectFv captures atom ∅) :
    slot ∈ bound ∧ slot ∉ captures := by
  have atoms : ∀ a ∈ [atom], a.AtomIn bound := by simpa using inBound
  exact collectFvList_subset atoms (by simpa [collectFvList] using free)

/-- A local is an atom. -/
theorem LocalIn.atomIn {base : CExpr} {bound : Finset LocalId} (named : base.LocalIn bound) :
    base.AtomIn bound := by
  cases base <;> simp only [LocalIn] at named
  exact named

/-- The free owned locals of a normal body are owned slots of its scope. -/
theorem fvOwned_subset {limit : Nat} {e : CExpr} {bound : Finset LocalId}
    (normal : e.Normal limit bound) {slot : LocalId} (member : slot ∈ fvOwned captures e) :
    slot ∈ bound ∧ slot ∉ captures := by
  induction e using CExpr.induct generalizing bound with
  | lit _ _ | global _ _ | error _ => simp [fvOwned, collectFv] at member
  | loc name ty =>
    have atom : (CExpr.loc name ty).AtomIn bound := normal
    exact collectFv_subset atom member
  | prim op args ty => exact collectFvList_subset normal.2 member
  | foreign symbol args marshalled ty => exact collectFvList_subset normal member
  | spread args ty => exact collectFvList_subset normal member
  | makeData tag args reuse scalars niche ty => exact collectFvList_subset normal.2 member
  | app func args reuse alloc ty =>
    rcases Finset.mem_union.mp member with inFunc | inArgs
    · exact collectFv_subset normal.2.1 inFunc
    · exact collectFvList_subset normal.2.2 inArgs
  | ite cond yes no ty _ yesHypothesis noHypothesis =>
    simp only [fvOwned, collectFv, Finset.mem_union] at member
    rcases member with (inCond | inYes) | inNo
    · exact collectFv_subset normal.1 inCond
    · exact yesHypothesis normal.2.1 inYes
    · exact noHypothesis normal.2.2 inNo
  | letIn name value body ty valueHypothesis bodyHypothesis =>
    rw [fvOwned_letIn, Finset.mem_union, Finset.mem_erase] at member
    rcases member with inValue | ⟨other, inBody⟩
    · exact valueHypothesis normal.1 inValue
    · have found := bodyHypothesis normal.2.2.2 inBody
      exact ⟨(Finset.mem_insert.mp found.1).resolve_left other, found.2⟩
  | letMany names value body ty valueHypothesis bodyHypothesis =>
    rw [fvOwned_letMany, Finset.mem_union, Finset.mem_sdiff] at member
    rcases member with inValue | ⟨inBody, other⟩
    · exact valueHypothesis normal.2.1 inValue
    · have found := bodyHypothesis normal.2.2.2 inBody
      exact ⟨(Finset.mem_union.mp found.1).resolve_right other, found.2⟩
  | makeClosure func closed alloc ty =>
    obtain ⟨used, owned, _⟩ := mem_note.mp member
    exact ⟨normal slot used, owned⟩
  | dataTag base niche ty => exact collectFv_subset (LocalIn.atomIn normal) member
  | dataField base index scalar niche ty =>
    rcases Finset.mem_union.mp member with inBase | inIndex
    · exact collectFv_subset (LocalIn.atomIn normal.1) inBase
    · obtain ⟨used, owned, _⟩ := mem_note.mp inIndex
      exact ⟨normal.2 slot used, owned⟩
  | _ => exact normal.elim

end Free

/-! ## Ledgers of counted code -/

section Steps

variable {calls : CallBorrows} {loans : List LocalId} {loop : List LocalId}
  {post back : Book LocalId → Prop}

/-- How often a slot is duplicated: once for every consuming use that is not the last. -/
theorem count_extras (keep : LocalId → Bool) (consumed : List LocalId) (slot : LocalId) :
    (extras keep consumed).count slot =
      if keep slot then consumed.count slot else consumed.count slot - 1 := by
  induction consumed with
  | nil => simp [extras]
  | cons head rest inductionHypothesis =>
    by_cases same : head = slot
    · subst same
      by_cases later : head ∈ rest
      · have positive : 0 < rest.count head := List.count_pos_iff.mpr later
        cases kept : keep head <;> simp only [kept] at inductionHypothesis <;>
          simp only [extras, kept, later, decide_true, Bool.or_true, ↓reduceIte,
            List.count_cons_self, inductionHypothesis, Bool.false_eq_true]
        omega
      · have none : rest.count head = 0 := List.count_eq_zero.mpr later
        cases kept : keep head <;> simp only [kept] at inductionHypothesis <;>
          simp [extras, kept, later, inductionHypothesis, none]
    · by_cases again : (keep head || decide (head ∈ rest)) = true
      · simp only [extras, again, ↓reduceIte, List.count_cons_of_ne same, inductionHypothesis]
      · simp only [extras, again, List.count_cons_of_ne same]
        exact inductionHypothesis

/-- Duplicated slots are consumed ones. -/
theorem mem_extras {keep : LocalId → Bool} {consumed : List LocalId} {slot : LocalId}
    (member : slot ∈ extras keep consumed) : slot ∈ consumed := by
  induction consumed with
  | nil => simp [extras] at member
  | cons head rest inductionHypothesis =>
    unfold extras at member
    split at member
    · rcases List.mem_cons.mp member with rfl | later
      · exact List.mem_cons_self
      · exact List.mem_cons_of_mem _ (inductionHypothesis later)
    · exact List.mem_cons_of_mem _ (inductionHypothesis member)

/-- One reference of every slot of a set. -/
theorem count_val (slots : Finset LocalId) (slot : LocalId) :
    slots.val.count slot = if slot ∈ slots then 1 else 0 :=
  Multiset.count_eq_of_nodup slots.nodup

/-- Kept slots are on loan or live. -/
theorem kept_iff {captures live : Finset LocalId} {slot : LocalId} :
    kept captures live slot = true ↔ slot ∈ captures ∨ slot ∈ live := by
  simp [kept]

/-- Dead lent slots are lent, owned, dead and not consumed. -/
theorem mem_deadLent {captures live : Finset LocalId} {consumed lent : List LocalId}
    {slot : LocalId} : slot ∈ deadLent captures live consumed lent ↔
      slot ∈ lent ∧ (slot ∉ captures ∧ slot ∉ live) ∧ slot ∉ consumed := by
  simp [deadLent, kept]

/-- An operation lends a slot whose last reference it takes. -/
theorem clash_iff {captures live : Finset LocalId} {lent consumed : List LocalId} :
    clash captures live lent consumed = false ↔
      ∀ slot ∈ lent, slot ∈ consumed → slot ∈ captures ∨ slot ∈ live := by
  simp [clash, kept, or_iff_not_imp_left]

/-- The step of an operation on counted operands: from one reference of every owned slot it uses
or that is live, and its duplicates, to one reference of every dead loan and live slot; it faults
exactly when it lends a slot whose last reference it takes. -/
theorem step_operation {free live : Finset LocalId} {consumed lent : List LocalId}
    (uses : ∀ slot, slot ∈ free ↔ slot ∉ loans ∧ (slot ∈ consumed ∨ slot ∈ lent)) :
    step loans (.use lent consumed)
      (plain ((extras (kept loans.toFinset live) consumed : Multiset LocalId)
        + (free ∪ live).val)) =
      if clash loans.toFinset live lent consumed then none
      else some (plain (deadLent loans.toFinset live consumed lent ∪ live).val) := by
  have counted : ∀ slot, ((extras (kept loans.toFinset live) consumed : Multiset LocalId)
      + (free ∪ live).val).count slot =
      consumed.count slot + (deadLent loans.toFinset live consumed lent ∪ live).val.count slot := by
    intro slot
    rw [Multiset.count_add, Multiset.coe_count, count_extras, count_val, count_val]
    simp only [kept_iff, Finset.mem_union, mem_deadLent, uses, List.mem_toFinset]
    have appears : slot ∈ consumed ↔ 0 < consumed.count slot := List.count_pos_iff.symm
    by_cases lives : slot ∈ live
    · simp [lives]
    · by_cases loaned : slot ∈ loans
      · simp [lives, loaned]
      · by_cases used : slot ∈ consumed
        · have positive := appears.mp used
          simp only [lives, loaned, used, or_self, or_false, not_false_eq_true, and_self, true_or,
            not_true_eq_false, and_false, ↓reduceIte]
          omega
        · have zero : consumed.count slot = 0 := by
            have notPositive := mt appears.mpr used
            omega
          simp [lives, loaned, used, zero]
  have whole : (extras (kept loans.toFinset live) consumed : Multiset LocalId)
      + (free ∪ live).val =
      (consumed : Multiset LocalId) + (deadLent loans.toFinset live consumed lent ∪ live).val := by
    apply Multiset.ext.mpr
    intro slot
    rw [counted, Multiset.count_add, Multiset.coe_count]
  rw [whole, step_use]
  have rest : (consumed : Multiset LocalId)
      + (deadLent loans.toFinset live consumed lent ∪ live).val - (consumed : Multiset LocalId) =
      (deadLent loans.toFinset live consumed lent ∪ live).val :=
    add_tsub_cancel_left _ _
  rw [rest]
  have readable : (∀ slot ∈ lent, slot ∈ (deadLent loans.toFinset live consumed lent ∪ live).val
      ∨ slot ∈ loans) ↔ clash loans.toFinset live lent consumed = false := by
    rw [clash_iff]
    simp only [Finset.mem_val, Finset.mem_union, mem_deadLent, List.mem_toFinset]
    constructor
    · intro reads slot member used
      rcases reads slot member with (⟨_, _, unused⟩ | lives) | loaned
      · exact absurd used unused
      · exact .inr lives
      · exact .inl loaned
    · intro keeps slot member
      by_cases used : slot ∈ consumed
      · rcases keeps slot member used with loaned | lives
        · exact .inr loaned
        · exact .inl (.inr lives)
      · by_cases loaned : slot ∈ loans
        · exact .inr loaned
        · by_cases lives : slot ∈ live
          · exact .inl (.inr lives)
          · exact .inl (.inl ⟨member, ⟨loaned, lives⟩, used⟩)
  simp only [readable, Multiset.le_add_right, true_and]
  cases clash loans.toFinset live lent consumed <;> rfl

/-- Duplicating readable slots. -/
theorem safe_dupAll {e : CExpr} : ∀ (slots : List LocalId) (held : Multiset LocalId),
    (∀ slot ∈ slots, slot ∈ held ∨ slot ∈ loans) →
      (Safe calls loans loop (dupAll slots e) (plain held) post back ↔
        Safe calls loans loop e (plain ((slots : Multiset LocalId) + held)) post back)
  | [], held, _ => by
    rw [Multiset.coe_nil, Multiset.zero_add]
    rfl
  | slot :: rest, held, readable => by
    have first := step_dup (readable slot List.mem_cons_self)
    have later : ∀ name ∈ rest, name ∈ slot ::ₘ held ∨ name ∈ loans := by
      intro name member
      rcases readable name (List.mem_cons_of_mem _ member) with present | loaned
      · exact .inl (Multiset.mem_cons_of_mem present)
      · exact .inr loaned
    have flow : (dupAll (slot :: rest) e).shape calls = .before [.dup slot] (dupAll rest e) := rfl
    rw [safe_before flow, run_singleton, first]
    simp only [Option.some.injEq, exists_eq_left']
    rw [safe_dupAll rest _ later, Multiset.add_cons, ← Multiset.cons_add, Multiset.cons_coe]

/-- Releasing held slots. -/
theorem safe_dropAll {e : CExpr} (held : Multiset LocalId) : ∀ slots : List LocalId,
    (Safe calls loans loop (slots.foldr dropBefore e) (plain ((slots : Multiset LocalId) + held))
        post back ↔ Safe calls loans loop e (plain held) post back)
  | [] => by
    rw [Multiset.coe_nil, Multiset.zero_add]
    rfl
  | slot :: rest => by
    have flow : ((slot :: rest).foldr dropBefore e).shape calls =
      .before [.drop slot] (rest.foldr dropBefore e) := rfl
    have present : slot ∈ ((slot :: rest : List LocalId) : Multiset LocalId) + held := by simp
    have left : (((slot :: rest : List LocalId) : Multiset LocalId) + held).erase slot =
        (rest : Multiset LocalId) + held := by
      rw [← Multiset.cons_coe, Multiset.cons_add, Multiset.erase_cons_head]
    rw [safe_before flow, run_singleton, step_drop present, left]
    simp only [Option.some.injEq, exists_eq_left']
    exact safe_dropAll held rest

/-- Releasing a set of held slots. -/
theorem safe_dropify {e : CExpr} (drops : Finset LocalId) (held : Multiset LocalId) :
    Safe calls loans loop (dropify drops e) (plain (drops.val + held)) post back ↔
      Safe calls loans loop e (plain held) post back := by
  have sorted : (drops.sort : Multiset LocalId) = drops.val := Finset.sort_eq drops _
  rw [← sorted]
  exact safe_dropAll held drops.sort

/-- A disjoint union holds the references of both. -/
theorem union_val {left right : Finset LocalId} (apart : ∀ slot ∈ left, slot ∉ right) :
    (left ∪ right).val = left.val + right.val := by
  apply Multiset.ext.mpr
  intro slot
  rw [Multiset.count_add, count_val, count_val, count_val]
  simp only [Finset.mem_union]
  by_cases inLeft : slot ∈ left
  · simp [inLeft, apart slot inLeft]
  · simp [inLeft]

/-- A binding of a fresh reference to a new slot. -/
theorem safe_letIn {slot : LocalId} {value body : CExpr} {ty : Ty} {book : Book LocalId}
    (binds : value.binder slot = .bind slot) :
    Safe calls loans loop (.letIn slot value body ty) book post back ↔
      Safe calls loans loop value book (fun middle => ∃ next,
        step loans (.bind slot) middle = some next ∧
          Safe calls loans loop body next post back) back := by
  have flow : (CExpr.letIn slot value body ty).shape calls =
      .seq value [.bind slot] body := by rw [shape, binds]
  rw [safe_seq flow]
  simp only [run_singleton]

/-- The result temporary of an operation is consumed. -/
theorem safe_loc {slot : LocalId} {ty : Ty} {held : Multiset LocalId} :
    Safe calls loans loop (.loc slot ty) (plain (slot ::ₘ held)) post back ↔
      post (plain held) := by
  have taken : step loans (.use [] [slot]) (plain (slot ::ₘ held)) = some (plain held) := by
    rw [step_use, Multiset.coe_singleton]
    simp
  have flow : (CExpr.loc slot ty).shape calls = .op (.use [] [slot]) := rfl
  rw [safe_op flow, taken]
  simp

/-- An operation with its dead loans released after it. -/
theorem safe_releaseAfter {op : CExpr} {action : Step LocalId} {dead live : Finset LocalId}
    {fault : Bool} {next : Nat} {book : Book LocalId} (flow : op.shape calls = .op action)
    (binds : op.binder next = .bind next)
    (acts : step loans action book = if fault then none else some (plain (dead ∪ live).val))
    (apart : ∀ slot ∈ dead, slot ∉ live) (fresh : next ∉ dead ∪ live) (own : next ∉ loans) :
    Safe calls loans loop (releaseAfter dead op next).1 book post back ↔
      fault = false ∧ post (plain live.val) := by
  unfold releaseAfter
  by_cases none : dead = ∅
  · rw [if_pos none, safe_op flow, acts]
    subst none
    cases fault <;> simp
  · rw [if_neg none, safe_letIn binds, safe_op flow, acts]
    cases fault with
    | true => simp
    | false =>
      have bound : step loans (.bind next) (plain (dead ∪ live).val) =
          some (plain (next ::ₘ (dead ∪ live).val)) := step_bind (by simpa using fresh) own
      simp only [Bool.false_eq_true, ↓reduceIte, Option.some.injEq, exists_eq_left', bound,
        true_and]
      rw [union_val apart, ← Multiset.add_cons, safe_dropify, safe_loc]

/-- Binding constants to new slots. -/
theorem safe_wrapBinds {e : CExpr} : ∀ (binds : List (LocalId × CExpr)) (held : Multiset LocalId),
    (∀ binding ∈ binds, binding.1 ∉ held ∧ binding.1 ∉ loans ∧ binding.2.isAtom = true ∧
      binding.2.asLocal = none) → (binds.map Prod.fst).Nodup →
      (Safe calls loans loop (Anf.wrapBinds binds e) (plain held) post back ↔
        Safe calls loans loop e
          (plain (((binds.map Prod.fst : List LocalId) : Multiset LocalId) + held)) post back)
  | [], held, _, _ => by
    rw [List.map_nil, Multiset.coe_nil, Multiset.zero_add]
    rfl
  | (slot, value) :: rest, held, constants, distinct => by
    obtain ⟨absent, own, atom, notLocal⟩ := constants (slot, value) List.mem_cons_self
    have flow : value.shape calls = .op (.use [] []) := by
      cases value <;> simp_all [isAtom, asLocal, shape]
    have binds : value.binder slot = .bind slot := by
      cases value <;> simp_all [isAtom, binder]
    have nothing : step loans (.use [] []) (plain held) = some (plain held) := by
      rw [step_use]
      simp [show 0 ≤ held from Multiset.zero_le held]
    rw [List.map_cons, List.nodup_cons] at distinct
    have later : ∀ binding ∈ rest, binding.1 ∉ slot ::ₘ held ∧ binding.1 ∉ loans ∧
        binding.2.isAtom = true ∧ binding.2.asLocal = none := by
      intro binding member
      obtain ⟨notHeld, others⟩ := constants binding (List.mem_cons_of_mem _ member)
      refine ⟨fun inCons => ?_, others⟩
      rcases Multiset.mem_cons.mp inCons with same | inHeld
      · have again : binding.1 ∈ rest.map Prod.fst := List.mem_map_of_mem member
        rw [same] at again
        exact distinct.1 again
      · exact notHeld inHeld
    have inner := safe_wrapBinds (e := e) rest (slot ::ₘ held) later distinct.2
    show Safe calls loans loop (.letIn slot value (Anf.wrapBinds rest e) _) _ _ _ ↔ _
    rw [safe_letIn binds, safe_op flow, nothing]
    simp only [Option.some.injEq, exists_eq_left', step_bind absent own]
    rw [inner, Multiset.add_cons, ← Multiset.cons_add, Multiset.cons_coe]
    rfl

/-- What binding the lent constants of an operation does. -/
structure PreBound (flags : List Bool) (operands : List CExpr) (next : Nat)
    (result : List (LocalId × CExpr) × List CExpr × Nat) : Prop where
  /-- The operation consumes the same locals. -/
  consumed : consumedLocals flags result.2.1 = consumedLocals flags operands
  /-- The operation takes exactly these. -/
  takes : taken flags result.2.1 = consumedLocals flags operands
  /-- It also lends the temporaries. -/
  lends : ∀ slot, slot ∈ lent flags result.2.1 ↔
    slot ∈ lent flags operands ∨ slot ∈ result.1.map Prod.fst
  /-- The operands' types are kept. -/
  types : result.2.1.map CExpr.ty = operands.map CExpr.ty
  /-- Slots only grow. -/
  ordered : next ≤ result.2.2
  /-- Temporaries are fresh and hold constants. -/
  constants : ∀ binding ∈ result.1, (next ≤ binding.1 ∧ binding.1 < result.2.2) ∧
    binding.2.isAtom = true ∧ binding.2.asLocal = none
  /-- Temporaries are distinct. -/
  distinct : (result.1.map Prod.fst).Nodup

/-- `operands_rc` binds exactly the lent constants. -/
theorem preBound_preBind {bound : Finset LocalId} :
    ∀ (flags : List Bool) (operands : List CExpr) (next : Nat),
      (∀ a ∈ operands, a.AtomIn bound) →
        PreBound flags operands next (preBind flags operands next)
  | _, [], next, _ => by
    constructor <;> simp [preBind, consumedLocals, taken, lent]
  | flags, head :: rest, next, atoms => by
    have later : ∀ a ∈ rest, a.AtomIn bound := fun a member =>
      atoms a (List.mem_cons_of_mem _ member)
    have first := atoms head List.mem_cons_self
    have constant : head.isAtom = true → head.asLocal = none →
        PreBound flags (head :: rest) next (preBind flags (head :: rest) next) := by
      intro atom notLocal
      have noSlots : head.slots = [] := by cases head <;> simp_all [asLocal, isAtom, slots]
      have skipConsumed : ∀ others, consumedLocals flags (head :: others) =
          consumedLocals flags.tail others := by
        cases head <;> simp_all [asLocal, isAtom, consumedLocals]
      have skipLent : ∀ others, lent flags (head :: others) = lent flags.tail others := by
        cases head <;> simp_all [asLocal, isAtom, lent]
      have skipTaken : ∀ others, taken flags (head :: others) = taken flags.tail others := by
        cases head <;> simp_all [asLocal, isAtom, taken]
      by_cases flag : flags.headD false = true
      · have others := preBound_preBind flags.tail rest (next + 1) later
        have unfolds : preBind flags (head :: rest) next =
            ((next, head) :: (preBind flags.tail rest (next + 1)).1,
              .loc next head.ty :: (preBind flags.tail rest (next + 1)).2.1,
              (preBind flags.tail rest (next + 1)).2.2) := by
          cases head <;> simp_all [asLocal, preBind]
        rw [unfolds]
        constructor
        · simp only [consumedLocals, flag, ↓reduceIte, others.consumed, skipConsumed]
        · simp only [taken, flag, ↓reduceIte, others.takes, skipConsumed]
        · intro slot
          simp only [lent, flag, ↓reduceIte, List.mem_cons, others.lends, skipLent, List.map_cons]
          tauto
        · simp only [List.map_cons, others.types, CExpr.ty]
        · exact Nat.le_trans (Nat.le_succ next) others.ordered
        · intro binding member
          rcases List.mem_cons.mp member with rfl | earlier
          · exact ⟨⟨Nat.le_refl _, Nat.lt_of_lt_of_le (Nat.lt_succ_self _) others.ordered⟩, atom,
              notLocal⟩
          · obtain ⟨⟨low, high⟩, constants⟩ := others.constants binding earlier
            exact ⟨⟨Nat.le_trans (Nat.le_succ next) low, high⟩, constants⟩
        · rw [List.map_cons, List.nodup_cons]
          refine ⟨fun member => ?_, others.distinct⟩
          obtain ⟨binding, earlier, same⟩ := List.mem_map.mp member
          have low := (others.constants binding earlier).1.1
          rw [same] at low
          exact absurd low (Nat.not_le.mpr (Nat.lt_succ_self next))
      · have others := preBound_preBind flags.tail rest next later
        have unfolds : preBind flags (head :: rest) next =
            ((preBind flags.tail rest next).1, head :: (preBind flags.tail rest next).2.1,
              (preBind flags.tail rest next).2.2) := by
          cases head <;> simp_all [asLocal, preBind]
        rw [unfolds]
        constructor
        · simp only [skipConsumed, others.consumed]
        · simp only [skipConsumed, skipTaken, others.takes]
        · intro slot
          simp only [skipLent, others.lends]
        · simp only [List.map_cons, others.types]
        · exact others.ordered
        · exact others.constants
        · exact others.distinct
    cases head with
    | loc name ty =>
      have others := preBound_preBind flags.tail rest next later
      have unfolds : preBind flags (.loc name ty :: rest) next =
          ((preBind flags.tail rest next).1,
            .loc name ty :: (preBind flags.tail rest next).2.1,
            (preBind flags.tail rest next).2.2) := rfl
      rw [unfolds]
      constructor
      · simp only [consumedLocals, others.consumed]
      · simp only [taken, consumedLocals, others.takes]
      · intro slot
        cases flag : flags.headD false <;>
          simp only [lent, flag, Bool.false_eq_true, ↓reduceIte, List.mem_cons, others.lends]
        tauto
      · simp only [List.map_cons, others.types]
      · exact others.ordered
      · exact others.constants
      · exact others.distinct
    | lit _ _ | global _ _ | error _ => exact constant rfl rfl
    | _ => exact absurd first (by simp [AtomIn])

/-- An operation on atoms, counted: it is safe exactly when it lends no slot whose last reference
it takes, and then leaves one reference of every live slot. -/
theorem safe_operandsRc {operands : List CExpr} {flags : List Bool} {live bound : Finset LocalId}
    {rebuild : List CExpr → CExpr} {next : Nat} (atoms : ∀ a ∈ operands, a.AtomIn bound)
    (inBound : live ⊆ bound) (below : ∀ slot ∈ bound, slot < next) (loansBound : ∀ slot ∈ loans,
      slot ∈ bound)
    (flow : (rebuild (preBind flags operands next).2.1).shape calls =
      .op (.use (lent flags (preBind flags operands next).2.1)
        (taken flags (preBind flags operands next).2.1)))
    (binds : ∀ slot, (rebuild (preBind flags operands next).2.1).binder slot = .bind slot) :
    Safe calls loans loop (operandsRc loans.toFinset operands flags live rebuild next).1
        (plain (collectFvList loans.toFinset operands ∅ ∪ live).val) post back ↔
      clash loans.toFinset live (lent flags operands) (consumedLocals flags operands) = false ∧
        post (plain live.val) := by
  have pre := preBound_preBind flags operands next atoms
  let temporaries := (preBind flags operands next).1.map Prod.fst
  let consumed := consumedLocals flags operands
  let lentAll := lent flags (preBind flags operands next).2.1
  let free := collectFvList loans.toFinset operands ∅
  have freeBound : ∀ slot, slot ∈ free → slot ∈ bound := fun slot member =>
    (collectFvList_subset atoms member).1
  have temporary : ∀ slot ∈ temporaries, next ≤ slot ∧
      slot < (preBind flags operands next).2.2 := by
    intro slot member
    obtain ⟨binding, earlier, rfl⟩ := List.mem_map.mp member
    exact (pre.constants binding earlier).1
  have notBound : ∀ slot ∈ temporaries, slot ∉ bound := fun slot member inScope =>
    absurd (below slot inScope) (Nat.not_lt.mpr (temporary slot member).1)
  have unheld : ∀ slot ∈ temporaries, slot ∉ (free ∪ live).val := by
    intro slot member held
    rcases Finset.mem_union.mp held with inFree | lives
    · exact notBound slot member (freeBound slot inFree)
    · exact notBound slot member (inBound lives)
  have uses : ∀ slot, slot ∈ temporaries.toFinset ∪ free ↔
      slot ∉ loans ∧ (slot ∈ consumed ∨ slot ∈ lentAll) := by
    intro slot
    have lends := pre.lends slot
    have inFree : slot ∈ collectFvList loans.toFinset operands ∅ ↔ _ :=
      mem_collectFvList_atoms slot flags operands atoms
    rw [List.mem_toFinset] at inFree
    rw [Finset.mem_union, List.mem_toFinset]
    have own : slot ∈ temporaries → slot ∉ loans := fun member loaned =>
      notBound slot member (loansBound slot loaned)
    simp only [free, consumed, lentAll, inFree, lends]
    tauto
  have tempVal : (temporaries : Multiset LocalId) + (free ∪ live).val =
      (temporaries.toFinset ∪ free ∪ live).val := by
    rw [Finset.union_assoc,
      union_val (fun slot member => unheld slot (List.mem_toFinset.mp member)),
      List.toFinset_val, pre.distinct.dedup]
  have unfolds : (operandsRc loans.toFinset operands flags live rebuild next).1 =
      Anf.wrapBinds (preBind flags operands next).1
        (dupAll (extras (kept loans.toFinset live) consumed)
          (releaseAfter (deadLent loans.toFinset live consumed lentAll)
            (rebuild (preBind flags operands next).2.1) (preBind flags operands next).2.2).1) := by
    unfold operandsRc
    simp only [consumed, ← pre.consumed]
    rfl
  have readable : ∀ slot ∈ extras (kept loans.toFinset live) consumed,
      slot ∈ (temporaries.toFinset ∪ free ∪ live).val ∨ slot ∈ loans := by
    intro slot member
    by_cases loaned : slot ∈ loans
    · exact .inr loaned
    · exact .inl (Finset.mem_union_left _ ((uses slot).mpr ⟨loaned, .inl (mem_extras member)⟩))
  have constants : ∀ binding ∈ (preBind flags operands next).1,
      binding.1 ∉ (free ∪ live).val ∧ binding.1 ∉ loans ∧ binding.2.isAtom = true ∧
        binding.2.asLocal = none := by
    intro binding member
    have inTemps : binding.1 ∈ temporaries := List.mem_map_of_mem member
    exact ⟨unheld _ inTemps, fun loaned => notBound _ inTemps (loansBound _ loaned),
      (pre.constants binding member).2⟩
  have scoped' : ∀ slot, slot ∈ deadLent loans.toFinset live consumed lentAll ∪ live →
      slot < (preBind flags operands next).2.2 := by
    intro slot member
    have early : slot ∈ bound → slot < (preBind flags operands next).2.2 := fun inScope =>
      Nat.lt_of_lt_of_le (below slot inScope) pre.ordered
    rcases Finset.mem_union.mp member with isDead | lives
    · rcases (pre.lends slot).mp (mem_deadLent.mp isDead).1 with lentHere | inTemps
      · exact early (consumedLocals_subset slot flags operands atoms (.inr lentHere))
      · exact (temporary slot inTemps).2
    · exact early (inBound lives)
  have sameClash : clash loans.toFinset live lentAll consumed = false ↔
      clash loans.toFinset live (lent flags operands) consumed = false := by
    rw [clash_iff, clash_iff]
    constructor
    · exact fun keeps slot member => keeps slot ((pre.lends slot).mpr (.inl member))
    · intro keeps slot member used
      rcases (pre.lends slot).mp member with lentHere | inTemps
      · exact keeps slot lentHere used
      · exact absurd (consumedLocals_subset slot flags operands atoms (.inl used))
          (notBound slot inTemps)
  rw [unfolds, safe_wrapBinds _ _ constants pre.distinct]
  show Safe calls loans loop _
    (plain ((temporaries : Multiset LocalId) + (free ∪ live).val)) _ _ ↔ _
  rw [tempVal, safe_dupAll _ _ readable, ← sameClash]
  rw [pre.takes] at flow
  refine safe_releaseAfter flow (binds _) (step_operation uses) ?_ ?_ ?_
  · exact fun slot member => (mem_deadLent.mp member).2.1.2
  · exact fun member => Nat.lt_irrefl _ (scoped' _ member)
  · intro loaned
    exact absurd (below _ (loansBound _ loaned)) (Nat.not_lt.mpr pre.ordered)

/-- Wrapped duplicates bind like what they wrap. -/
theorem binder_dupAll {e : CExpr} (binds : ∀ slot, e.binder slot = .bind slot)
    (slots : List LocalId) (slot : LocalId) : (dupAll slots e).binder slot = .bind slot := by
  cases slots with
  | nil => exact binds slot
  | cons head rest => rfl

/-- Wrapped bindings bind like what they wrap. -/
theorem binder_wrapBinds {e : CExpr} (binds : ∀ slot, e.binder slot = .bind slot)
    (wrapped : List (LocalId × CExpr)) (slot : LocalId) :
    (Anf.wrapBinds wrapped e).binder slot = .bind slot := by
  cases wrapped with
  | nil => exact binds slot
  | cons head rest => rfl

/-- A counted operation binds a fresh reference and only takes new slots. -/
theorem operandsRc_result {captures live : Finset LocalId} {operands : List CExpr}
    {flags : List Bool} {rebuild : List CExpr → CExpr} {next : Nat} {bound : Finset LocalId}
    (atoms : ∀ a ∈ operands, a.AtomIn bound)
    (binds : ∀ slot, (rebuild (preBind flags operands next).2.1).binder slot = .bind slot) :
    next ≤ (operandsRc captures operands flags live rebuild next).2 ∧
      ∀ slot, (operandsRc captures operands flags live rebuild next).1.binder slot =
        .bind slot := by
  have pre := preBound_preBind flags operands next atoms
  have release : ∀ (dead : Finset LocalId) (last : Nat),
      last ≤ (releaseAfter dead (rebuild (preBind flags operands next).2.1) last).2 ∧
        ∀ slot, (releaseAfter dead (rebuild (preBind flags operands next).2.1) last).1.binder slot =
          .bind slot := by
    intro dead last
    unfold releaseAfter
    split
    · exact ⟨Nat.le_refl _, binds⟩
    · exact ⟨Nat.le_succ _, fun _ => rfl⟩
  constructor
  · exact Nat.le_trans pre.ordered (release _ _).1
  · intro slot
    exact binder_wrapBinds (binder_dupAll (release _ _).2 _) _ slot

/-- A duplicated and consuming operation without loans. -/
theorem safe_consuming {op : CExpr} {consumed : List LocalId} {free live : Finset LocalId}
    (flow : op.shape calls = .op (.use [] consumed))
    (uses : ∀ slot, slot ∈ free ↔ slot ∉ loans ∧ slot ∈ consumed) :
    Safe calls loans loop (dupAll (extras (kept loans.toFinset live) consumed) op)
        (plain (free ∪ live).val) post back ↔ post (plain live.val) := by
  have readable : ∀ slot ∈ extras (kept loans.toFinset live) consumed,
      slot ∈ (free ∪ live).val ∨ slot ∈ loans := by
    intro slot member
    by_cases loaned : slot ∈ loans
    · exact .inr loaned
    · exact .inl (Finset.mem_union_left _ ((uses slot).mpr ⟨loaned, mem_extras member⟩))
  have usesAll : ∀ slot, slot ∈ free ↔
      slot ∉ loans ∧ (slot ∈ consumed ∨ slot ∈ ([] : List LocalId)) := by simpa using uses
  have noClash : clash loans.toFinset live [] consumed = false := rfl
  have noDead : deadLent loans.toFinset live consumed [] = ∅ := rfl
  rw [safe_dupAll _ _ readable, safe_op flow, step_operation usesAll, noClash, noDead,
    Finset.empty_union]
  simp

/-- Binding new slots one after the other. -/
theorem run_bindAll : ∀ (slots : List LocalId) (held : Multiset LocalId), slots.Nodup →
    (∀ slot ∈ slots, slot ∉ held ∧ slot ∉ loans) →
      run loans (slots.map .bind) (plain held) =
        some (plain ((slots : Multiset LocalId) + held))
  | [], held, _, _ => by
    rw [Multiset.coe_nil, Multiset.zero_add]
    rfl
  | slot :: rest, held, distinct, fresh => by
    rw [List.nodup_cons] at distinct
    obtain ⟨absent, own⟩ := fresh slot List.mem_cons_self
    have later : ∀ name ∈ rest, name ∉ slot ::ₘ held ∧ name ∉ loans := by
      intro name member
      obtain ⟨notHeld, notLoaned⟩ := fresh name (List.mem_cons_of_mem _ member)
      refine ⟨fun inCons => ?_, notLoaned⟩
      rcases Multiset.mem_cons.mp inCons with rfl | inHeld
      · exact distinct.1 member
      · exact notHeld inHeld
    rw [List.map_cons, run_cons, step_bind absent own, Option.bind_some,
      run_bindAll rest _ distinct.2 later, Multiset.add_cons, ← Multiset.cons_add,
      Multiset.cons_coe]

/-- A bound slot that its body does not use is released first. -/
theorem safe_dropUnused {body : CExpr} {slot : LocalId} {fvb live : Finset LocalId}
    (notLive : slot ∉ live) (own : slot ∉ loans) :
    Safe calls loans loop
        (if slot ∉ fvb ∧ slot ∉ loans.toFinset then dropBefore slot body else body)
        (plain (slot ::ₘ (fvb.erase slot ∪ live).val)) post back ↔
      Safe calls loans loop body (plain (fvb ∪ live).val) post back := by
  have new : slot ∉ fvb.erase slot ∪ live := by simp [notLive]
  by_cases used : slot ∈ fvb
  · have whole : insert slot (fvb.erase slot ∪ live) = fvb ∪ live := by
      rw [← Finset.insert_union, Finset.insert_erase used]
    rw [if_neg (fun both => both.1 used), ← Finset.insert_val_of_notMem new, whole]
  · have flow : (dropBefore slot body).shape calls = .before [.drop slot] body := rfl
    have outside : slot ∉ loans.toFinset := by simpa using own
    rw [if_pos ⟨used, outside⟩, safe_before flow, run_singleton,
      step_drop (Multiset.mem_cons_self _ _), Multiset.erase_cons_head,
      Finset.erase_eq_of_notMem used]
    simp

end Steps

/-! ## Counted bodies -/

section Bodies

variable {calls : CallBorrows} {loans : List LocalId}

/-- Counting succeeds, and the counted code, started with one reference of every owned slot it uses
or that is live, is safe exactly when it lends no slot whose last reference is taken, and then it
leaves one reference of every live slot. -/
def Counted (calls : CallBorrows) (loans : List LocalId) (e : CExpr) (live : Finset LocalId)
    (next : Nat) : Prop :=
  ∃ counted last, owned loans.toFinset calls e live next = some (counted, last) ∧ next ≤ last ∧
    (∀ slot, counted.binder slot = .bind slot) ∧ ∀ loop post back,
      (Safe calls loans loop counted (plain (fvOwned loans.toFinset e ∪ live).val) post back ↔
        lendsKept loans.toFinset calls e live = true ∧ post (plain live.val))

/-- The convention of a primitive depends only on its operands' types. -/
theorem primBorrows_congr (op : Prim) {args args' : List CExpr}
    (types : args'.map CExpr.ty = args.map CExpr.ty) :
    primBorrows op args' = primBorrows op args := by
  have sameLength : args'.length = args.length := by
    simpa using congrArg List.length types
  cases args with
  | nil => simp_all [primBorrows]
  | cons first rest =>
    cases args' with
    | nil => simp at sameLength
    | cons first' rest' =>
      simp only [List.map_cons, List.cons.injEq] at types
      simp only [primBorrows, sameLength, types.1]

/-- One operation on atoms is counted. -/
theorem counted_operation {e : CExpr} {args : List CExpr} {flags : List Bool}
    {live bound : Finset LocalId} {rebuild : List CExpr → CExpr} {next : Nat}
    (counts : owned loans.toFinset calls e live next =
      some (operandsRc loans.toFinset args flags live rebuild next))
    (free : fvOwned loans.toFinset e = collectFvList loans.toFinset args ∅)
    (keeps : lendsKept loans.toFinset calls e live =
      !clash loans.toFinset live (lent flags args) (consumedLocals flags args))
    (atoms : ∀ a ∈ args, a.AtomIn bound) (inBound : live ⊆ bound)
    (below : ∀ slot ∈ bound, slot < next) (loansBound : ∀ slot ∈ loans, slot ∈ bound)
    (flow : (rebuild (preBind flags args next).2.1).shape calls =
      .op (.use (lent flags (preBind flags args next).2.1)
        (taken flags (preBind flags args next).2.1)))
    (binds : ∀ slot, (rebuild (preBind flags args next).2.1).binder slot = .bind slot) :
    Counted calls loans e live next := by
  have result : next ≤ (operandsRc loans.toFinset args flags live rebuild next).2 ∧ ∀ slot,
      (operandsRc loans.toFinset args flags live rebuild next).1.binder slot = .bind slot :=
    operandsRc_result atoms binds
  refine ⟨(operandsRc loans.toFinset args flags live rebuild next).1, _, counts, result.1,
    result.2, fun loop post back => ?_⟩
  rw [free, keeps, safe_operandsRc atoms inBound below loansBound flow binds]
  simp

/-- An operation that consumes every operand is counted. -/
theorem counted_consuming {e : CExpr} {args : List CExpr} {live bound : Finset LocalId}
    {rebuild : List CExpr → CExpr} {next : Nat}
    (counts : owned loans.toFinset calls e live next =
      some (operandsRc loans.toFinset args [] live rebuild next))
    (free : fvOwned loans.toFinset e = collectFvList loans.toFinset args ∅)
    (keeps : lendsKept loans.toFinset calls e live = true)
    (atoms : ∀ a ∈ args, a.AtomIn bound) (inBound : live ⊆ bound)
    (below : ∀ slot ∈ bound, slot < next) (loansBound : ∀ slot ∈ loans, slot ∈ bound)
    (flow : ∀ args, (rebuild args).shape calls = .op (.use [] (taken [] args)))
    (binds : ∀ args slot, (rebuild args).binder slot = .bind slot) :
    Counted calls loans e live next := by
  refine counted_operation counts free ?_ atoms inBound below loansBound ?_ (binds _)
  · rw [keeps, lent_nil]
    rfl
  · rw [lent_nil]
    exact flow _

/-- A projection is counted: it lends its base and evidence and releases them when they die. -/
theorem counted_projection {proj : CExpr} {live bound : Finset LocalId} {next : Nat}
    {borrows : List LocalId}
    (counts : owned loans.toFinset calls proj live next =
      some (releaseAfter (deadBorrows loans.toFinset borrows live) proj next))
    (free : ∀ slot, slot ∈ fvOwned loans.toFinset proj ↔ slot ∉ loans ∧ slot ∈ borrows)
    (keeps : lendsKept loans.toFinset calls proj live = true)
    (borrowsBound : ∀ slot ∈ borrows, slot ∈ bound) (inBound : live ⊆ bound)
    (below : ∀ slot ∈ bound, slot < next) (loansBound : ∀ slot ∈ loans, slot ∈ bound)
    (flow : proj.shape calls = .op (.use borrows []))
    (binds : ∀ slot, proj.binder slot = .bind slot) : Counted calls loans proj live next := by
  have sameDead : deadBorrows loans.toFinset borrows live =
      deadLent loans.toFinset live [] borrows := by simp [deadBorrows, deadLent]
  have result : next ≤ (releaseAfter (deadBorrows loans.toFinset borrows live) proj next).2 ∧
      ∀ slot, (releaseAfter (deadBorrows loans.toFinset borrows live) proj next).1.binder slot =
        .bind slot := by
    unfold releaseAfter
    split
    · exact ⟨Nat.le_refl _, binds⟩
    · exact ⟨Nat.le_succ _, fun _ => rfl⟩
  refine ⟨(releaseAfter (deadBorrows loans.toFinset borrows live) proj next).1, _, counts,
    result.1, result.2, fun loop post back => ?_⟩
  have uses : ∀ slot, slot ∈ fvOwned loans.toFinset proj ↔
      slot ∉ loans ∧ (slot ∈ ([] : List LocalId) ∨ slot ∈ borrows) := by simpa using free
  have acts : step loans (.use borrows []) (plain (fvOwned loans.toFinset proj ∪ live).val) =
      if clash loans.toFinset live borrows [] then none
      else some (plain (deadLent loans.toFinset live [] borrows ∪ live).val) := by
    rw [← step_operation uses]
    simp [extras]
  have noClash : clash loans.toFinset live borrows [] = false := by simp [clash]
  have fresh : next ∉ deadLent loans.toFinset live [] borrows ∪ live := by
    intro member
    rcases Finset.mem_union.mp member with isDead | lives
    · exact Nat.lt_irrefl _ (below _ (borrowsBound _ (mem_deadLent.mp isDead).1))
    · exact Nat.lt_irrefl _ (below _ (inBound lives))
  rw [sameDead, keeps, safe_releaseAfter flow (binds _) acts
    (fun slot member => (mem_deadLent.mp member).2.1.2) fresh
    (fun loaned => Nat.lt_irrefl _ (below _ (loansBound _ loaned))), noClash]
  simp

/-- What a projection of a normal body reads, uses and binds. -/
theorem projection_facts {value : CExpr} {limit : Nat} {bound : Finset LocalId}
    (proj : isProjection value = true) (normal : value.Normal limit bound) :
    value.shape calls = .op (.use (projectionBorrows value) []) ∧
      (∀ slot, slot ∈ fvOwned loans.toFinset value ↔
        slot ∉ loans ∧ slot ∈ projectionBorrows value) ∧
      (∀ slot ∈ projectionBorrows value, slot ∈ bound) ∧
      (∀ slot, value.binder slot = .bind slot) ∧
      ∀ live, lendsKept loans.toFinset calls value live = true := by
  cases value with
  | dataTag base niche ty =>
    cases base <;> simp only [CExpr.Normal, LocalIn] at normal
    refine ⟨rfl, fun slot => ?_, ?_, fun _ => rfl, fun _ => rfl⟩
    · simp [fvOwned, collectFv, mem_note, projectionBorrows, asLocal, and_comm]
    · simpa [projectionBorrows, asLocal] using normal
  | dataField base index scalar niche ty =>
    cases base <;> simp only [CExpr.Normal, LocalIn, false_and] at normal
    refine ⟨rfl, fun slot => ?_, ?_, fun _ => rfl, fun _ => rfl⟩
    · simp only [fvOwned, collectFv, Finset.mem_union, mem_note, projectionBorrows, asLocal,
        Option.toList_some, List.mem_append, List.mem_singleton, Finset.notMem_empty,
        not_false_eq_true, and_true, List.mem_toFinset]
      tauto
    · intro slot member
      simp only [projectionBorrows, asLocal, Option.toList_some, List.mem_append,
        List.mem_singleton] at member
      rcases member with rfl | evidence
      · exact normal.1
      · exact normal.2 slot evidence
  | prim op args ty => exact absurd proj (by simp [isProjection, normal.1])
  | _ => cases proj

/-- What a multi-result value counted in place lends, consumes and uses. -/
theorem multi_facts {value : CExpr} {limit : Nat} {bound : Finset LocalId} {args : List CExpr}
    {flags : List Bool} (multi : multiOperands calls value = some (args, flags))
    (direct : value.directCall = true) (normal : value.Normal limit bound) :
    value.shape calls = .op (.use (lent flags args) (consumedLocals flags args)) ∧
      (∀ slot, slot ∈ fvOwned loans.toFinset value ↔
        slot ∉ loans ∧ (slot ∈ consumedLocals flags args ∨ slot ∈ lent flags args)) ∧
      ∀ live, lendsKept loans.toFinset calls value live =
        !clash loans.toFinset live (lent flags args) (consumedLocals flags args) := by
  cases value with
  | app func operands reuse alloc ty =>
    cases multi
    obtain ⟨rfl, funcAtom, atoms⟩ := normal
    have constant : func.slots = [] ∧ fvOwned loans.toFinset func = ∅ ∧
        ∀ flags rest, consumedLocals (false :: flags) (func :: rest) =
          consumedLocals flags rest := by
      cases func <;> simp_all [directCall, AtomIn, slots, fvOwned, collectFv, consumedLocals]
    refine ⟨?_, fun slot => ?_, fun live => ?_⟩
    · rw [shape, constant.1, List.filterMap_nil, List.nil_append, List.append_nil,
        taken_eq_consumedLocals _ _ atoms]
    · have free : fvOwned loans.toFinset (.app func args [] alloc ty) =
          collectFvList loans.toFinset args ∅ := by
        show fvOwned loans.toFinset func ∪ _ = _
        rw [constant.2.1, Finset.empty_union]
      rw [free, mem_collectFvList_atoms slot _ args atoms, List.mem_toFinset]
    · rw [lendsKept, constant.2.2]
  | prim op operands ty =>
    simp only [multiOperands, Option.ite_none_right_eq_some, Option.some.injEq,
      Prod.mk.injEq] at multi
    obtain ⟨_, rfl, rfl⟩ := multi
    refine ⟨?_, fun slot => ?_, fun live => rfl⟩
    · rw [shape, taken_eq_consumedLocals _ _ normal.2]
    · have found : slot ∈ collectFvList loans.toFinset operands ∅ ↔ _ :=
        mem_collectFvList_atoms slot (primBorrows op operands) operands normal.2
      rw [List.mem_toFinset] at found
      exact found
  | _ => cases multi

/-- Several bound slots, those that the body does not use released first. -/
theorem safe_dropUnusedMany {body : CExpr} {slots : List LocalId} {fvb live : Finset LocalId}
    {loop : List LocalId} {post back : Book LocalId → Prop} (distinct : slots.Nodup)
    (notLive : ∀ slot ∈ slots, slot ∉ live) :
    Safe calls loans loop (dropify (slots.toFinset.filter fun slot => slot ∉ fvb) body)
        (plain ((slots : Multiset LocalId) + (fvb \ slots.toFinset ∪ live).val)) post back ↔
      Safe calls loans loop body (plain (fvb ∪ live).val) post back := by
  have whole : (slots : Multiset LocalId) + (fvb \ slots.toFinset ∪ live).val =
      (slots.toFinset.filter fun slot => slot ∉ fvb).val + (fvb ∪ live).val := by
    apply Multiset.ext.mpr
    intro slot
    have once : (slots : Multiset LocalId).count slot = if slot ∈ slots then 1 else 0 :=
      Multiset.count_eq_of_nodup distinct
    rw [Multiset.count_add, Multiset.count_add, once, count_val, count_val, count_val]
    simp only [Finset.mem_union, Finset.mem_sdiff, Finset.mem_filter, List.mem_toFinset]
    by_cases isBound : slot ∈ slots
    · have dead := notLive slot isBound
      by_cases used : slot ∈ fvb <;> simp [isBound, dead, used]
    · simp [isBound]
  rw [whole, safe_dropify]

/-- A conditional is counted when its branches are. -/
theorem counted_ite {cond yes no : CExpr} {ty : Ty} {live bound : Finset LocalId} {next : Nat}
    (atom : cond.AtomIn bound) (yesCounted : ∀ first, next ≤ first →
      Counted calls loans yes live first)
    (noCounted : ∀ first, next ≤ first → Counted calls loans no live first) :
    Counted calls loans (.ite cond yes no ty) live next := by
  obtain ⟨yes2, yesLast, yesEq, yesOrdered, _, yesSafe⟩ := yesCounted next (Nat.le_refl _)
  obtain ⟨no2, noLast, noEq, noOrdered, _, noSafe⟩ := noCounted yesLast yesOrdered
  let fvt := fvOwned loans.toFinset yes
  let fve := fvOwned loans.toFinset no
  let branchIn := live ∪ fvt ∪ fve
  let yes3 := dropify (branchIn.filter fun slot => slot ∉ fvt ∧ slot ∉ live) yes2
  let no3 := dropify (branchIn.filter fun slot => slot ∉ fve ∧ slot ∉ live) no2
  have merged : conditional loans.toFinset cond yes no ty live yes2 no2 =
      dupAll (extras (kept loans.toFinset branchIn) cond.slots) (.ite cond yes3 no3 ty) := by
    cases cond with
    | loc slot slotTy =>
      have keeps : kept loans.toFinset branchIn slot = true ↔
          slot ∈ loans.toFinset ∨ slot ∈ branchIn := kept_iff
      by_cases needed : kept loans.toFinset branchIn slot = true
      · have dups :
            extras (kept loans.toFinset branchIn) (CExpr.loc slot slotTy).slots = [slot] := by
          simp [slots, extras, needed]
        rw [dups]
        exact if_pos (keeps.mp needed)
      · have dups : extras (kept loans.toFinset branchIn) (CExpr.loc slot slotTy).slots = [] := by
          simp [slots, extras, needed]
        rw [dups]
        exact if_neg (mt keeps.mpr needed)
    | lit _ _ | global _ _ | error _ => rfl
    | _ => exact absurd atom (by simp [AtomIn])
  have condFlow : cond.shape calls = .op (.use [] cond.slots) := by
    cases cond <;> simp_all [AtomIn, shape, slots]
  have condUses : ∀ slot, slot ∈ fvOwned loans.toFinset cond ↔ slot ∉ loans ∧
      slot ∈ cond.slots := by
    intro slot
    cases cond <;> simp_all [AtomIn, fvOwned, collectFv, slots, mem_note, and_comm]
  refine ⟨conditional loans.toFinset cond yes no ty live yes2 no2, noLast, ?_,
    Nat.le_trans yesOrdered noOrdered, ?_, fun loop post back => ?_⟩
  · simp [owned, yesEq, noEq]
  · intro slot
    rw [merged]
    exact binder_dupAll (fun _ => rfl) _ slot
  have free : fvOwned loans.toFinset (.ite cond yes no ty) ∪ live =
      fvOwned loans.toFinset cond ∪ branchIn := by
    ext slot
    simp only [fvOwned, collectFv, Finset.mem_union, branchIn, fvt, fve]
    tauto
  have readable : ∀ slot ∈ extras (kept loans.toFinset branchIn) cond.slots,
      slot ∈ (fvOwned loans.toFinset cond ∪ branchIn).val ∨ slot ∈ loans := by
    intro slot member
    by_cases loaned : slot ∈ loans
    · exact .inr loaned
    · exact .inl (Finset.mem_union_left _ ((condUses slot).mpr ⟨loaned, mem_extras member⟩))
  have flow : (CExpr.ite cond yes3 no3 ty).shape calls = .branch cond yes3 no3 := rfl
  have split : ∀ fv : Finset LocalId, fv ⊆ branchIn → live ⊆ branchIn →
      branchIn.val = (branchIn.filter fun slot => slot ∉ fv ∧ slot ∉ live).val
        + (fv ∪ live).val := by
    intro fv fvIn liveIn
    rw [← union_val (fun slot member => by
      have outside := (Finset.mem_filter.mp member).2
      simpa [not_or] using outside)]
    congr 1
    ext slot
    simp only [Finset.mem_union, Finset.mem_filter]
    constructor
    · intro member
      by_cases used : slot ∈ fv ∨ slot ∈ live
      · exact .inr used
      · exact .inl ⟨member, not_or.mp used⟩
    · rintro (⟨member, _⟩ | used | lives)
      · exact member
      · exact fvIn used
      · exact liveIn lives
  have liveIn : live ⊆ branchIn := fun slot member => by simp [branchIn, member]
  have yesIn : fvt ⊆ branchIn := fun slot member => by simp [branchIn, member]
  have noIn : fve ⊆ branchIn := fun slot member => by simp [branchIn, member]
  have yesBranch : Safe calls loans loop yes3 (plain branchIn.val) post back ↔
      lendsKept loans.toFinset calls yes live = true ∧ post (plain live.val) := by
    rw [split fvt yesIn liveIn, safe_dropify]
    exact yesSafe loop post back
  have noBranch : Safe calls loans loop no3 (plain branchIn.val) post back ↔
      lendsKept loans.toFinset calls no live = true ∧ post (plain live.val) := by
    rw [split fve noIn liveIn, safe_dropify]
    exact noSafe loop post back
  rw [merged, free, safe_dupAll _ _ readable, safe_branch flow, ← safe_dupAll _ _ readable,
    safe_consuming condFlow condUses, yesBranch, noBranch, lendsKept, Bool.and_eq_true]
  tauto

/-- A binding is counted when its body is, and its value too unless it is a projection. -/
theorem counted_letIn {slot : LocalId} {value body : CExpr} {ty : Ty}
    {live bound : Finset LocalId} {limit next : Nat} (normal : value.Normal limit bound)
    (new : slot ∉ bound) (inBound : live ⊆ bound) (loansBound : ∀ name ∈ loans, name ∈ bound)
    (bodyFree : ∀ name ∈ fvOwned loans.toFinset body, name ∈ insert slot bound)
    (bodyCounted : Counted calls loans body live next)
    (valueCounted : ∀ first, next ≤ first →
      Counted calls loans value ((fvOwned loans.toFinset body).erase slot ∪ live) first) :
    Counted calls loans (.letIn slot value body ty) live next := by
  obtain ⟨body2, bodyLast, bodyEq, bodyOrdered, _, bodySafe⟩ := bodyCounted
  let fvb := fvOwned loans.toFinset body
  let liveValue := fvb.erase slot ∪ live
  let body3 := if slot ∉ fvb ∧ slot ∉ loans.toFinset then dropBefore slot body2 else body2
  have notLive : slot ∉ live := fun member => new (inBound member)
  have own : slot ∉ loans := fun member => new (loansBound slot member)
  have liveValueBound : ∀ name ∈ liveValue, name ∈ bound := by
    intro name member
    rcases Finset.mem_union.mp member with inBody | lives
    · obtain ⟨other, used⟩ := Finset.mem_erase.mp inBody
      exact (Finset.mem_insert.mp (bodyFree name used)).resolve_left other
    · exact inBound lives
  have bodySafe3 : ∀ loop post back,
      Safe calls loans loop body3 (plain (slot ::ₘ liveValue.val)) post back ↔
        lendsKept loans.toFinset calls body live = true ∧ post (plain live.val) := by
    intro loop post back
    rw [← bodySafe loop post back]
    exact safe_dropUnused notLive own
  have free : fvOwned loans.toFinset (.letIn slot value body ty) ∪ live =
      fvOwned loans.toFinset value ∪ liveValue := by
    rw [fvOwned_letIn, Finset.union_assoc]
  by_cases proj : isProjection value = true
  · obtain ⟨flow, uses, borrowsBound, binds, keeps⟩ :=
      @projection_facts calls loans value limit bound proj normal
    let dead := deadLent loans.toFinset liveValue [] (projectionBorrows value)
    have sameDead : deadBorrows loans.toFinset (projectionBorrows value) liveValue = dead := by
      simp [deadBorrows, deadLent, dead]
    refine ⟨.letIn slot value (dropify dead body3) ty, bodyLast, ?_, bodyOrdered, fun _ => rfl,
      fun loop post back => ?_⟩
    · simp only [owned, bodyEq, Option.bind_eq_bind, Option.bind_some, proj, ↓reduceIte]
      rw [← sameDead]
      rfl
    have usesAll : ∀ name, name ∈ fvOwned loans.toFinset value ↔ name ∉ loans ∧
        (name ∈ ([] : List LocalId) ∨ name ∈ projectionBorrows value) := by simpa using uses
    have acts : step loans (.use (projectionBorrows value) [])
        (plain (fvOwned loans.toFinset value ∪ liveValue).val) =
          some (plain (dead ∪ liveValue).val) := by
      have counted : step loans (.use (projectionBorrows value) [])
          (plain ((extras (kept loans.toFinset liveValue) [] : Multiset LocalId)
            + (fvOwned loans.toFinset value ∪ liveValue).val)) = _ := step_operation usesAll
      have noClash : clash loans.toFinset liveValue (projectionBorrows value) [] = false := by
        simp [clash]
      rw [noClash] at counted
      simpa [extras] using counted
    have fresh : slot ∉ (dead ∪ liveValue).val := by
      intro member
      rcases Finset.mem_union.mp member with isDead | lives
      · exact new (borrowsBound slot (mem_deadLent.mp isDead).1)
      · exact new (liveValueBound slot lives)
    have apart : ∀ name ∈ dead, name ∉ liveValue := fun name member =>
      (mem_deadLent.mp member).2.1.2
    rw [free, safe_letIn (binds slot), safe_op flow, acts]
    simp only [Option.some.injEq, exists_eq_left', step_bind fresh own]
    rw [union_val apart, ← Multiset.add_cons, safe_dropify, bodySafe3, lendsKept, keeps,
      Bool.true_and]
  · obtain ⟨value2, valueLast, valueEq, valueOrdered, binds, valueSafe⟩ :=
      valueCounted bodyLast bodyOrdered
    refine ⟨.letIn slot value2 body3 ty, valueLast, ?_, Nat.le_trans bodyOrdered valueOrdered,
      fun _ => rfl, fun loop post back => ?_⟩
    · simp only [owned, bodyEq, Option.bind_eq_bind, Option.bind_some, proj, Bool.false_eq_true,
        ↓reduceIte, valueEq]
      rfl
    have fresh : slot ∉ liveValue.val := fun member => new (liveValueBound slot member)
    rw [free, safe_letIn (binds slot), valueSafe, step_bind fresh own]
    simp only [Option.some.injEq, exists_eq_left']
    rw [bodySafe3, lendsKept, Bool.and_eq_true, and_assoc]

/-- A multi-result binding is counted when its body is, and its value too unless it is counted in
place. -/
theorem counted_letMany {names : List LocalId} {value body : CExpr} {ty : Ty}
    {live bound : Finset LocalId} {limit next : Nat} (direct : value.directCall = true)
    (normal : value.Normal limit bound) (distinct : names.Nodup)
    (new : ∀ name ∈ names, name ∉ bound) (inBound : live ⊆ bound)
    (loansBound : ∀ name ∈ loans, name ∈ bound)
    (bodyFree : ∀ name ∈ fvOwned loans.toFinset body, name ∈ bound ∪ names.toFinset)
    (bodyCounted : Counted calls loans body live next)
    (valueCounted : ∀ first, next ≤ first →
      Counted calls loans value (fvOwned loans.toFinset body \ names.toFinset ∪ live) first) :
    Counted calls loans (.letMany names value body ty) live next := by
  obtain ⟨body2, bodyLast, bodyEq, bodyOrdered, _, bodySafe⟩ := bodyCounted
  let fvb := fvOwned loans.toFinset body
  let liveAfter := fvb \ names.toFinset ∪ live
  let body3 := dropify (names.toFinset.filter fun name => name ∉ fvb) body2
  have liveAfterBound : ∀ name ∈ liveAfter, name ∈ bound := by
    intro name member
    rcases Finset.mem_union.mp member with inBody | lives
    · obtain ⟨used, other⟩ := Finset.mem_sdiff.mp inBody
      exact (Finset.mem_union.mp (bodyFree name used)).resolve_right other
    · exact inBound lives
  have bodySafe3 : ∀ loop post back,
      Safe calls loans loop body3 (plain ((names : Multiset LocalId) + liveAfter.val)) post back ↔
        lendsKept loans.toFinset calls body live = true ∧ post (plain live.val) := by
    intro loop post back
    rw [← bodySafe loop post back]
    exact safe_dropUnusedMany distinct fun name member lives => new name member (inBound lives)
  have free : fvOwned loans.toFinset (.letMany names value body ty) ∪ live =
      fvOwned loans.toFinset value ∪ liveAfter := by
    rw [fvOwned_letMany, Finset.union_assoc]
  have own : ∀ name ∈ names, name ∉ loans := fun name member loaned =>
    new name member (loansBound name loaned)
  cases multi : multiOperands calls value with
  | some operands =>
    obtain ⟨args, flags⟩ := operands
    obtain ⟨flow, uses, keeps⟩ := @multi_facts calls loans value limit bound args flags multi
      direct normal
    let consumed := consumedLocals flags args
    let dead := deadLent loans.toFinset liveAfter consumed (lent flags args)
    refine ⟨dupAll (extras (kept loans.toFinset liveAfter) consumed)
      (.letMany names value (dropify dead body3) ty), bodyLast, ?_, bodyOrdered, ?_,
      fun loop post back => ?_⟩
    · simp only [owned, bodyEq, Option.bind_eq_bind, Option.bind_some, multi]
      rfl
    · exact binder_dupAll (fun _ => rfl) _
    have readable : ∀ slot ∈ extras (kept loans.toFinset liveAfter) consumed,
        slot ∈ (fvOwned loans.toFinset value ∪ liveAfter).val ∨ slot ∈ loans := by
      intro slot member
      by_cases loaned : slot ∈ loans
      · exact .inr loaned
      · exact .inl (Finset.mem_union_left _ ((uses slot).mpr ⟨loaned, .inl (mem_extras member)⟩))
    have deadBound : ∀ name ∈ dead ∪ liveAfter, name ∈ bound := by
      intro name member
      rcases Finset.mem_union.mp member with isDead | lives
      · have lentDead := mem_deadLent.mp isDead
        have owned : name ∉ loans := by simpa using lentDead.2.1.1
        exact (fvOwned_subset normal ((uses name).mpr ⟨owned, .inr lentDead.1⟩)).1
      · exact liveAfterBound name lives
    have bound' : run loans (names.map .bind) (plain (dead ∪ liveAfter).val) =
        some (plain ((names : Multiset LocalId) + (dead ∪ liveAfter).val)) :=
      run_bindAll names _ distinct fun name member =>
        ⟨fun held => new name member (deadBound name held), own name member⟩
    have apart : ∀ name ∈ dead, name ∉ liveAfter := fun name member =>
      (mem_deadLent.mp member).2.1.2
    have flowMany : (CExpr.letMany names value (dropify dead body3) ty).shape calls =
        .seq value (names.map .bind) (dropify dead body3) := rfl
    have acts : step loans (.use (lent flags args) consumed)
        (plain ((extras (kept loans.toFinset liveAfter) consumed : Multiset LocalId)
          + (fvOwned loans.toFinset value ∪ liveAfter).val)) =
        if clash loans.toFinset liveAfter (lent flags args) consumed then none
        else some (plain (dead ∪ liveAfter).val) := step_operation uses
    have keepsValue : lendsKept loans.toFinset calls value liveAfter =
        !clash loans.toFinset liveAfter (lent flags args) consumed := keeps liveAfter
    rw [free, safe_dupAll _ _ readable, safe_seq flowMany, safe_op flow, acts, lendsKept,
      keepsValue]
    cases clash loans.toFinset liveAfter (lent flags args) consumed with
    | true => simp
    | false =>
      simp only [Bool.false_eq_true, ↓reduceIte, Option.some.injEq, exists_eq_left', bound',
        Bool.not_false, Bool.true_and]
      rw [union_val apart, add_left_comm, safe_dropify, bodySafe3]
  | none =>
    obtain ⟨value2, valueLast, valueEq, valueOrdered, _, valueSafe⟩ :=
      valueCounted bodyLast bodyOrdered
    refine ⟨.letMany names value2 body3 ty, valueLast, ?_, Nat.le_trans bodyOrdered valueOrdered,
      fun _ => rfl, fun loop post back => ?_⟩
    · simp only [owned, bodyEq, Option.bind_eq_bind, Option.bind_some, multi, valueEq]
      rfl
    have bound' : run loans (names.map .bind) (plain liveAfter.val) =
        some (plain ((names : Multiset LocalId) + liveAfter.val)) :=
      run_bindAll names _ distinct fun name member =>
        ⟨fun held => new name member (liveAfterBound name held), own name member⟩
    have flowMany : (CExpr.letMany names value2 body3 ty).shape calls =
        .seq value2 (names.map .bind) body3 := rfl
    rw [free, safe_seq flowMany, valueSafe, bound']
    simp only [Option.some.injEq, exists_eq_left']
    rw [bodySafe3, lendsKept, Bool.and_eq_true, and_assoc]

/-- The callee of an operation is its first, consumed operand. -/
theorem preBind_callee (flags : List Bool) (func : CExpr) (args : List CExpr) (next : Nat) :
    (preBind (false :: flags) (func :: args) next).2.1 =
      func :: (preBind flags args next).2.1 := by
  cases func <;> rfl

/-- A callee is not lent. -/
theorem lent_callee (flags : List Bool) (func : CExpr) (args : List CExpr) :
    lent (false :: flags) (func :: args) = lent flags args := by
  cases func <;> rfl

/-- A callee's reference is taken. -/
theorem taken_callee (flags : List Bool) (func : CExpr) (args : List CExpr) :
    taken (false :: flags) (func :: args) = func.slots ++ taken flags args := by
  cases func <;> rfl

/-- An operation that only takes slots, after their duplicates, is counted. -/
theorem counted_taking {e : CExpr} (consumed : List LocalId) {live : Finset LocalId} {next : Nat}
    (counts : owned loans.toFinset calls e live next =
      some (dupAll (extras (kept loans.toFinset live) consumed) e, next))
    (flow : e.shape calls = .op (.use [] consumed))
    (uses : ∀ slot, slot ∈ fvOwned loans.toFinset e ↔ slot ∉ loans ∧ slot ∈ consumed)
    (keeps : lendsKept loans.toFinset calls e live = true)
    (binds : ∀ slot, e.binder slot = .bind slot) : Counted calls loans e live next := by
  refine ⟨dupAll (extras (kept loans.toFinset live) consumed) e, next, counts, Nat.le_refl _,
    binder_dupAll binds _, fun loop post back => ?_⟩
  rw [safe_consuming flow uses, keeps]
  simp

/-- A primitive binds a fresh reference unless it peeks. -/
theorem binder_prim {op : Prim} (notPeek : op.isPeek = false) (args : List CExpr) (ty : Ty)
    (slot : LocalId) : (CExpr.prim op args ty).binder slot = .bind slot := by
  cases args with
  | nil => rfl
  | cons first rest =>
    cases first <;> simp [binder, notPeek]

/-- Every normal body is counted. -/
theorem counted_normal {e : CExpr} {bound live : Finset LocalId} {limit next : Nat}
    (normal : e.Normal limit bound) (inBound : live ⊆ bound)
    (below : ∀ slot ∈ bound, slot < limit) (above : limit ≤ next)
    (loansBound : ∀ slot ∈ loans, slot ∈ bound) : Counted calls loans e live next := by
  induction e using CExpr.induct generalizing bound live next with
  | lit value ty =>
    exact counted_taking [] rfl rfl (by simp [fvOwned, collectFv]) rfl fun _ => rfl
  | global target ty =>
    exact counted_taking [] rfl rfl (by simp [fvOwned, collectFv]) rfl fun _ => rfl
  | error ty =>
    exact counted_taking [] rfl rfl (by simp [fvOwned, collectFv]) rfl fun _ => rfl
  | loc slot ty =>
    refine counted_taking [slot] ?_ rfl ?_ rfl fun _ => rfl
    · cases needed : kept loans.toFinset live slot <;> simp [owned, extras, needed, dupAll]
    · intro name
      simp [fvOwned, collectFv, mem_note, and_comm]
  | makeClosure func closed alloc ty =>
    refine counted_taking closed rfl rfl ?_ rfl fun _ => rfl
    intro name
    simp [fvOwned, collectFv, mem_note, and_comm]
  | prim op args ty =>
    have belowNext : ∀ slot ∈ bound, slot < next := fun slot member =>
      Nat.lt_of_lt_of_le (below slot member) above
    have pre := preBound_preBind (primBorrows op args) args next normal.2
    refine counted_operation rfl rfl rfl normal.2 inBound belowNext loansBound ?_
      (binder_prim normal.1 _ ty)
    rw [shape, primBorrows_congr op pre.types]
  | foreign symbol args marshalled ty =>
    exact counted_consuming rfl rfl rfl normal inBound
      (fun slot member => Nat.lt_of_lt_of_le (below slot member) above) loansBound
      (fun _ => rfl) fun _ _ => rfl
  | spread args ty =>
    exact counted_consuming rfl rfl rfl normal inBound
      (fun slot member => Nat.lt_of_lt_of_le (below slot member) above) loansBound
      (fun _ => rfl) fun _ _ => rfl
  | makeData tag args reuse scalars niche ty =>
    obtain ⟨rfl, atoms⟩ := normal
    refine counted_consuming rfl rfl rfl atoms inBound
      (fun slot member => Nat.lt_of_lt_of_le (below slot member) above) loansBound
      (fun args => ?_) fun _ _ => rfl
    simp [shape]
  | app func args reuse alloc ty =>
    obtain ⟨rfl, funcAtom, atoms⟩ := normal
    have belowNext : ∀ slot ∈ bound, slot < next := fun slot member =>
      Nat.lt_of_lt_of_le (below slot member) above
    have pre := preBound_preBind (argBorrows calls func args.length) args next atoms
    have sameLength : (preBind (argBorrows calls func args.length) args next).2.1.length =
        args.length := by simpa using congrArg List.length pre.types
    refine counted_operation rfl rfl ?_ (List.forall_mem_cons.mpr ⟨funcAtom, atoms⟩) inBound
      belowNext loansBound ?_ fun _ => rfl
    · rw [lendsKept, lent_callee]
    · rw [preBind_callee, lent_callee, taken_callee]
      simp [shape, sameLength]
  | ite cond yes no ty _ yesHypothesis noHypothesis =>
    refine counted_ite normal.1 (fun first later => ?_) fun first later => ?_
    · exact yesHypothesis normal.2.1 inBound below (Nat.le_trans above later) loansBound
    · exact noHypothesis normal.2.2 inBound below (Nat.le_trans above later) loansBound
  | letIn slot value body ty valueHypothesis bodyHypothesis =>
    obtain ⟨valueNormal, new, small, bodyNormal⟩ := normal
    have bodyFree : ∀ name ∈ fvOwned loans.toFinset body, name ∈ insert slot bound :=
      fun name member => (fvOwned_subset bodyNormal member).1
    refine counted_letIn valueNormal new inBound loansBound bodyFree ?_ fun first later => ?_
    · refine bodyHypothesis bodyNormal
        (fun name member => Finset.mem_insert_of_mem (inBound member))
        (fun name member => ?_) above
        fun name member => Finset.mem_insert_of_mem (loansBound name member)
      rcases Finset.mem_insert.mp member with rfl | earlier
      · exact small
      · exact below name earlier
    · refine valueHypothesis valueNormal (fun name member => ?_) below (Nat.le_trans above later)
        loansBound
      rcases Finset.mem_union.mp member with used | lives
      · obtain ⟨other, inBody⟩ := Finset.mem_erase.mp used
        exact (Finset.mem_insert.mp (bodyFree name inBody)).resolve_left other
      · exact inBound lives
  | letMany names value body ty valueHypothesis bodyHypothesis =>
    obtain ⟨direct, valueNormal, ⟨distinct, fresh⟩, bodyNormal⟩ := normal
    have bodyFree : ∀ name ∈ fvOwned loans.toFinset body, name ∈ bound ∪ names.toFinset :=
      fun name member => (fvOwned_subset bodyNormal member).1
    refine counted_letMany direct valueNormal distinct (fun name member => (fresh name member).1)
      inBound loansBound bodyFree ?_ fun first later => ?_
    · refine bodyHypothesis bodyNormal (fun name member => Finset.mem_union_left _ (inBound member))
        (fun name member => ?_) above
        fun name member => Finset.mem_union_left _ (loansBound name member)
      rcases Finset.mem_union.mp member with earlier | isBound
      · exact below name earlier
      · exact (fresh name (List.mem_toFinset.mp isBound)).2
    · refine valueHypothesis valueNormal (fun name member => ?_) below (Nat.le_trans above later)
        loansBound
      rcases Finset.mem_union.mp member with used | lives
      · obtain ⟨inBody, other⟩ := Finset.mem_sdiff.mp used
        exact (Finset.mem_union.mp (bodyFree name inBody)).resolve_right other
      · exact inBound lives
  | dataTag base niche ty =>
    obtain ⟨flow, uses, borrowsBound, binds, keeps⟩ := @projection_facts calls loans
      (.dataTag base niche ty) limit bound rfl normal
    exact counted_projection rfl uses (keeps live) borrowsBound inBound
      (fun slot member => Nat.lt_of_lt_of_le (below slot member) above) loansBound flow binds
  | dataField base index scalar niche ty =>
    obtain ⟨flow, uses, borrowsBound, binds, keeps⟩ := @projection_facts calls loans
      (.dataField base index scalar niche ty) limit bound rfl normal
    exact counted_projection rfl uses (keeps live) borrowsBound inBound
      (fun slot member => Nat.lt_of_lt_of_le (below slot member) above) loansBound flow binds
  | _ => exact normal.elim

/-- Dropping unused parameters is releasing them one after the other. -/
theorem dropUnused_eq (params : List LocalId) (borrowed used : Finset LocalId) (body : CExpr) :
    dropUnused params borrowed used body =
      (params.filter fun param => param ∉ used ∧ param ∉ borrowed).foldr dropBefore body := by
  induction params with
  | nil => rfl
  | cons param rest inductionHypothesis =>
    by_cases unused : param ∉ used ∧ param ∉ borrowed
    · have kept : (param :: rest).filter (fun param => param ∉ used ∧ param ∉ borrowed) =
          param :: rest.filter (fun param => param ∉ used ∧ param ∉ borrowed) :=
        List.filter_cons_of_pos (by simpa using unused)
      rw [kept, List.foldr_cons, ← inductionHypothesis]
      exact if_pos unused
    · have skipped : (param :: rest).filter (fun param => param ∉ used ∧ param ∉ borrowed) =
          rest.filter (fun param => param ∉ used ∧ param ∉ borrowed) :=
        List.filter_cons_of_neg (by simpa using unused)
      rw [skipped, ← inductionHypothesis]
      exact if_neg unused

end Bodies

/-- The references a function starts with: one of every parameter that is not on loan. -/
def entryBook (params loans : List LocalId) : Book LocalId :=
  plain ((params.filter fun param => param ∉ loans : List LocalId) : Multiset LocalId)

/-- A function body is balanced: along every control path every read or lent slot has a reference
that the same operation does not take, every release releases a reference the function holds, so no
slot on loan is released, and when the value is produced no reference is left. -/
def Balanced (calls : CallBorrows) (params loans : List LocalId) (body : CExpr) : Prop :=
  Safe calls loans [] body (entryBook params loans) (fun last => last = plain 0) (fun _ => False)

/-- The slots a function starts with. -/
def entryScope (params loans : List LocalId) : Finset LocalId := params.toFinset ∪ loans.toFinset

/-- The counted body of a scoped function is balanced exactly when its A-normal form lends no slot
whose last reference is taken. -/
theorem countRefs_spec {params loans : List LocalId} {calls : CallBorrows} {body : CExpr}
    {next : Nat} (distinct : params.Nodup) (below : ∀ slot ∈ entryScope params loans, slot < next)
    (inScope : (body.scope next (entryScope params loans)).isSome = true) :
    ∃ normal last counted, Anf.anf body next = some (normal, last) ∧
      countRefs params loans.toFinset calls body next = some counted ∧
      (Balanced calls params loans counted ↔
        lendsKept loans.toFinset calls normal ∅ = true) := by
  obtain ⟨normal, last, found, ordered, isNormal⟩ := Anf.normal_anf inScope below
  have belowLast : ∀ slot ∈ entryScope params loans, slot < last := fun slot member =>
    Nat.lt_of_lt_of_le (below slot member) ordered
  have loansBound : ∀ slot ∈ loans, slot ∈ entryScope params loans := fun slot member => by
    simp [entryScope, member]
  obtain ⟨counted, final, countedEq, _, _, safe⟩ :=
    @counted_normal calls loans normal _ ∅ last last isNormal (Finset.empty_subset _) belowLast
      (Nat.le_refl last) loansBound
  let used := fvOwned loans.toFinset normal
  refine ⟨normal, last, dropUnused params loans.toFinset used counted, found, ?_, ?_⟩
  · simp [countRefs, found, countedEq, used]
  have entry : ((params.filter fun param => param ∉ loans : List LocalId) : Multiset LocalId) =
      ((params.filter fun param => param ∉ used ∧ param ∉ loans.toFinset : List LocalId) :
        Multiset LocalId) + used.val := by
    apply Multiset.ext.mpr
    intro slot
    rw [Multiset.count_add, count_val,
      Multiset.count_eq_of_nodup (Multiset.coe_nodup.mpr (distinct.filter _)),
      Multiset.count_eq_of_nodup (Multiset.coe_nodup.mpr (distinct.filter _))]
    simp only [Multiset.mem_coe, List.mem_filter, decide_eq_true_eq, List.mem_toFinset]
    by_cases isUsed : slot ∈ used
    · obtain ⟨inEntry, own⟩ := fvOwned_subset isNormal isUsed
      have param : slot ∈ params := by
        rcases Finset.mem_union.mp inEntry with isParam | isLoan
        · exact List.mem_toFinset.mp isParam
        · exact absurd isLoan own
      have notLoan : slot ∉ loans := by simpa using own
      simp [isUsed, param, notLoan]
    · simp [isUsed]
  unfold Balanced entryBook
  rw [dropUnused_eq, entry, safe_dropAll]
  have whole := safe [] (fun last => last = plain 0) (fun _ => False)
  rw [Finset.union_empty] at whole
  rw [whole]
  simp

/-- The program produced by A-normal form and dup/drop insertion is balanced exactly when no
operation of the A-normal form lends a slot, neither on loan nor live afterwards, that it also
consumes. -/
theorem balanced_iff_lendsKept (params loans : List LocalId) (calls : CallBorrows) (body : CExpr)
    (next : Nat) (distinct : params.Nodup)
    (below : ∀ slot ∈ entryScope params loans, slot < next)
    (inScope : (body.scope next (entryScope params loans)).isSome = true) :
    ∃ normal last counted, Anf.anf body next = some (normal, last) ∧
      countRefs params loans.toFinset calls body next = some counted ∧
      (Balanced calls params loans counted ↔
        lendsKept loans.toFinset calls normal ∅ = true) :=
  countRefs_spec distinct below inScope

/-- A call of `callee` that passes its parameter twice. -/
def passTwice (callee : DefId) : CExpr :=
  .app (.global callee .unit) [.loc 0 .unit, .loc 0 .unit] [] .heap .unit

/-- A callee that lends its first parameter and consumes its second takes the only reference of the
argument it was lent. -/
theorem passTwice_unbalanced : ∃ counted,
    countRefs [0] ∅ (fun _ _ => [true, false]) (passTwice ⟨0, 0⟩) 1 = some counted ∧
      ¬ Balanced (fun _ _ => [true, false]) [0] [] counted := by
  obtain ⟨normal, last, counted, found, countedEq, balanced⟩ :=
    @countRefs_spec [0] [] (fun _ _ => [true, false]) (passTwice ⟨0, 0⟩) 1 (by decide) (by decide)
      (by decide)
  refine ⟨counted, countedEq, ?_⟩
  rw [balanced]
  cases found
  decide

/-- With both parameters consumed the argument is duplicated and the call is balanced. -/
theorem passTwice_consumed : ∃ counted,
    countRefs [0] ∅ (fun _ _ => [false, false]) (passTwice ⟨0, 0⟩) 1 = some counted ∧
      Balanced (fun _ _ => [false, false]) [0] [] counted := by
  obtain ⟨normal, last, counted, found, countedEq, balanced⟩ :=
    balanced_iff_lendsKept [0] [] (fun _ _ => [false, false]) (passTwice ⟨0, 0⟩) 1
      (by decide) (by decide) (by decide)
  refine ⟨counted, countedEq, balanced.mpr ?_⟩
  cases found
  decide

end Owned

end Fai
