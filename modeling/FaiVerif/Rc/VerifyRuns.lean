import FaiVerif.Rc.VerifySound

/-!
# Runs of accepted functions

The forms reference counting and loop flattening emit, and what acceptance guarantees for every run
of a function of that form: straight-line code in A-normal form, or a loop at the entry whose
back-edges are in tail position and carry every slot the entry owns.
-/

namespace Fai

namespace Verify

open Ledger CExpr

mutual

/-- An operand in A-normal form: an atom or a spread of such operands. -/
def plainOperand : CExpr → Bool
  | .loc _ _ | .lit _ _ | .global _ _ | .error _ => true
  | .spread components _ => plainOperands components
  | _ => false

/-- Operands in A-normal form. -/
def plainOperands : List CExpr → Bool
  | [] => true
  | head :: rest => plainOperand head && plainOperands rest

end

/-- A peek at a local, whose result is a view. -/
def plainPeek (value : CExpr) : Bool :=
  (Checker.peeked value).isSome &&
    match value with
    | .prim _ args _ => plainOperands args
    | _ => false

/-- A body without a loop header: operands are plain, a peek is the value of a `let`, no binder is
on loan, and a back-edge is in tail position of a loop that carries as many values. -/
def straight (loans : List LocalId) (tail : Option Nat) : CExpr → Bool
  | .lit _ _ | .loc _ _ | .global _ _ | .error _ => true
  | .makeClosure _ _ _ _ | .dataTag _ _ _ | .dataField _ _ _ _ _ => true
  | .prim op args _ => plainOperands args && !op.isPeek
  | .foreign _ args _ _ | .spread args _ | .makeData _ args _ _ _ _ => plainOperands args
  | .app func args _ _ _ => plainOperand func && plainOperands args
  | .ite cond yes no _ =>
    straight loans none cond && straight loans tail yes && straight loans tail no
  | .letIn slot value body _ =>
    decide (slot ∉ loans) && (plainPeek value || straight loans none value) &&
      straight loans tail body
  | .letMany slots value body _ =>
    decide (∀ slot ∈ slots, slot ∉ loans) && straight loans none value && straight loans tail body
  | .reset value token body _ =>
    decide (token ∉ loans) && straight loans none value && straight loans tail body
  | .freeReuse _ body _ | .dup _ body _ | .drop _ body _ => straight loans tail body
  | .holeStart hole body _ => decide (hole ∉ loans) && straight loans tail body
  | .holeFill _ cell _ _ => straight loans none cell
  | .holeClose _ base _ => straight loans none base
  | .recur args _ => decide (tail = some args.length) && plainOperands args
  | .join _ _ _ => false

/-- A function body that owns some slots: a straight one, or a loop that carries every owned slot,
after a hole, an accumulator or the release of tokens. -/
def emitted (loans : List LocalId) : List LocalId → CExpr → Bool
  | owned, .join params body _ =>
    decide ((params.filter fun param => param ∉ loans).Perm owned) &&
      straight loans (some params.length) body
  | owned, .holeStart hole body ty =>
    straight loans none (.holeStart hole body ty) ||
      (decide (hole ∉ loans) && emitted loans (hole :: owned) body)
  | owned, .letIn slot (.lit value valueTy) body ty =>
    straight loans none (.letIn slot (.lit value valueTy) body ty) ||
      (decide (slot ∉ loans) && emitted loans (slot :: owned) body)
  | owned, .freeReuse token body ty =>
    straight loans none (.freeReuse token body ty) || emitted loans (owned.erase token) body
  | _, e => straight loans none e

/-! ## The slots of the checker's table -/

/-- A table that knows every slot another one knows. -/
def Keeps (refs refs' : Refs) : Prop :=
  ∀ slot, (refs.lookup slot).isSome = true → (refs'.lookup slot).isSome = true

namespace Keeps

variable {refs refs' refs'' : Refs} {slot : LocalId} {ck : Checker}

/-- A table knows its own slots. -/
theorem refl (refs : Refs) : Keeps refs refs := fun _ known => known

/-- Slots known along a chain. -/
theorem trans (first : Keeps refs refs') (second : Keeps refs' refs'') : Keeps refs refs'' :=
  fun slot known => second slot (first slot known)

/-- Setting a count loses no slot. -/
theorem insert (refs : Refs) (slot : LocalId) (count : Int) :
    Keeps refs (refs.insert slot count) := by
  intro name known
  rw [Refs.lookup_insert]
  split
  · rfl
  · exact known

/-- Taking a reference loses no slot. -/
theorem consume (allowed : ck.consume slot refs = .ok refs') : Keeps refs refs' := by
  unfold Checker.consume at allowed
  simp only at allowed
  repeat' split at allowed
  all_goals first
    | (cases allowed; done)
    | (cases allowed; exact insert _ _ _)
    | (cases allowed; exact refl _)

/-- Acquiring a reference loses no slot. -/
theorem acquire (allowed : ck.acquire slot refs = .ok refs') : Keeps refs refs' := by
  unfold Checker.acquire at allowed
  simp only at allowed
  split at allowed
  · obtain ⟨_, _, rest⟩ := bind_ok.mp allowed
    split at rest
    · cases rest
    · cases rest
      exact insert _ _ _
  · repeat' split at allowed
    all_goals first
      | (cases allowed; done)
      | (cases allowed; exact insert _ _ _)
      | (cases allowed; exact refl _)

/-- Taking references in order loses no slot. -/
theorem consumeAll : ∀ (slots : List LocalId) {refs : Refs},
    ck.consumeAll slots refs = .ok refs' → Keeps refs refs'
  | [], refs, allowed => by
    cases allowed
    exact refl _
  | slot :: rest, refs, allowed => by
    obtain ⟨middle, first, others⟩ := bind_ok.mp allowed
    exact (consume first).trans (consumeAll rest others)

/-- A slot known before a binding is not the bound one, and is known after its scope. -/
theorem scope {inner : Refs} {message : String} (unknown : refs.lookup slot = none)
    (kept : Keeps refs inner) (closed : Checker.closeSlot inner slot message = .ok refs') :
    Keeps refs refs' := by
  unfold Checker.closeSlot at closed
  split at closed
  · cases closed
  · cases closed
    intro name known
    have different : name ≠ slot := by
      intro same
      rw [same, unknown] at known
      cases known
    rw [Refs.lookup_remove, if_neg different]
    exact kept name known

/-- A bound slot was unknown. -/
theorem bound {message : String} (allowed : Checker.bindSlot refs slot message = .ok refs') :
    refs.lookup slot = none ∧ refs' = refs.insert slot 1 := by
  unfold Checker.bindSlot at allowed
  split at allowed
  · cases allowed
  · rename_i unknown
    cases allowed
    exact ⟨Option.not_isSome_iff_eq_none.mp unknown, rfl⟩

/-- A binding, its scope and its end lose no slot. -/
theorem binding {middle inner : Refs} {message closing : String}
    (bind : Checker.bindSlot refs slot message = .ok middle) (kept : Keeps middle inner)
    (closed : Checker.closeSlot inner slot closing = .ok refs') : Keeps refs refs' := by
  obtain ⟨unknown, rfl⟩ := bound bind
  exact scope unknown ((insert _ _ _).trans kept) closed

/-- Several bound slots were unknown. -/
theorem boundAll {fnIndex : Nat} : ∀ (slots : List LocalId) {refs middle : Refs},
    Checker.bindSlots fnIndex slots refs = .ok middle →
      Keeps refs middle ∧ ∀ slot ∈ slots, refs.lookup slot = none
  | [], refs, middle, allowed => by
    cases allowed
    exact ⟨refl _, by simp⟩
  | slot :: rest, refs, middle, allowed => by
    obtain ⟨first, bind, others⟩ := bind_ok.mp allowed
    obtain ⟨unknown, rfl⟩ := bound bind
    obtain ⟨kept, restUnknown⟩ := boundAll rest others
    refine ⟨(insert _ _ _).trans kept, fun name member => ?_⟩
    rcases List.mem_cons.mp member with rfl | inRest
    · exact unknown
    · have absent := restUnknown name inRest
      rw [Refs.lookup_insert] at absent
      split at absent
      · cases absent
      · exact absent

/-- Ending the scopes of slots changes no other. -/
theorem closedAll {fnIndex : Nat} : ∀ (slots : List LocalId) {inner refs' : Refs},
    Checker.closeSlots fnIndex slots inner = .ok refs' →
      ∀ name ∉ slots, refs'.lookup name = inner.lookup name
  | [], _, _, closed, _, _ => by
    cases closed
    rfl
  | slot :: rest, inner, refs', closed, name, outside => by
    obtain ⟨middle, first, others⟩ := bind_ok.mp closed
    unfold Checker.closeSlot at first
    split at first
    · cases first
    · cases first
      rw [List.mem_cons, not_or] at outside
      rw [closedAll rest others name outside.2, Refs.lookup_remove, if_neg outside.1]

/-- Several bindings, their scope and its end lose no slot. -/
theorem bindings {fnIndex : Nat} {slots : List LocalId} {middle inner : Refs}
    (bind : Checker.bindSlots fnIndex slots refs = .ok middle) (kept : Keeps middle inner)
    (closed : Checker.closeSlots fnIndex slots inner = .ok refs') : Keeps refs refs' := by
  obtain ⟨grown, unknown⟩ := boundAll slots bind
  intro name known
  have outside : name ∉ slots := by
    intro member
    rw [unknown name member] at known
    cases known
  rw [closedAll slots closed name outside]
  exact kept name (grown name known)

end Keeps

/-- The first accepted operand is read when it is lent and handed over otherwise. -/
theorem evalOperands_cons {ck : Checker} {operand : CExpr} {rest : List CExpr} {flags : List Bool}
    {refs refs' : Refs} (allowed : ck.evalOperands (operand :: rest) flags refs = .ok refs') :
    (∃ slot, ck.borrow slot refs = .ok () ∧
      ck.evalOperands rest flags.tail refs = .ok refs' ∧
      lent flags (operand :: rest) = slot :: lent flags.tail rest ∧
      taken flags (operand :: rest) = taken flags.tail rest) ∨
    ∃ middle, ck.eval operand refs = .ok middle ∧
      ck.evalOperands rest flags.tail middle = .ok refs' ∧
      lent flags (operand :: rest) = lent flags.tail rest ∧
      taken flags (operand :: rest) = operand.slots ++ taken flags.tail rest := by
  cases operand with
  | loc slot ty =>
    unfold Checker.evalOperands at allowed
    cases flag : flags.headD false <;> simp only [flag, Bool.false_eq_true, ↓reduceIte] at allowed
    · obtain ⟨middle, first, others⟩ := bind_ok.mp allowed
      exact .inr ⟨middle, first, others,
        by simp only [lent, flag, Bool.false_eq_true, ↓reduceIte],
        by simp only [taken, slots, flag, Bool.false_eq_true, ↓reduceIte, List.singleton_append]⟩
    · obtain ⟨_, first, others⟩ := bind_ok.mp allowed
      exact .inl ⟨slot, first, others, by simp only [lent, flag, ↓reduceIte],
        by simp only [taken, flag, ↓reduceIte]⟩
  | _ =>
    obtain ⟨middle, first, others⟩ := bind_ok.mp allowed
    exact .inr ⟨middle, first, others, rfl, rfl⟩

mutual

/-- An accepted expression loses no slot of the table. -/
theorem keeps_eval : ∀ (e : CExpr) (ck : Checker) (refs refs' : Refs),
    ck.eval e refs = .ok refs' → Keeps refs refs'
  | .lit _ _, ck, refs, refs', allowed | .global _ _, ck, refs, refs', allowed
  | .error _, ck, refs, refs', allowed => by
    cases allowed
    exact .refl _
  | .loc slot _, ck, refs, refs', allowed => .consume allowed
  | .prim op args _, ck, refs, refs', allowed => keeps_evalOperands args ck _ refs refs' allowed
  | .foreign _ args _ _, ck, refs, refs', allowed | .spread args _, ck, refs, refs', allowed =>
    keeps_evalOperands args ck _ refs refs' allowed
  | .makeData _ args reuse _ _ _, ck, refs, refs', allowed => by
    obtain ⟨middle, first, others⟩ := bind_ok.mp allowed
    exact (keeps_evalOperands args ck _ refs middle first).trans (.consumeAll _ others)
  | .app func args reuse _ _, ck, refs, refs', allowed => by
    obtain ⟨callee, first, others⟩ := bind_ok.mp allowed
    obtain ⟨middle, second, tokens⟩ := bind_ok.mp others
    exact ((keeps_eval func ck refs callee first).trans
      (keeps_evalOperands args ck _ callee middle second)).trans (.consumeAll _ tokens)
  | .makeClosure _ captures _ _, ck, refs, refs', allowed => .consumeAll captures allowed
  | .dataTag base _ _, ck, refs, refs', allowed => by
    obtain ⟨_, _, same⟩ := bind_ok.mp allowed
    cases same
    exact .refl _
  | .dataField base index _ _ _, ck, refs, refs', allowed => by
    obtain ⟨_, _, others⟩ := bind_ok.mp allowed
    obtain ⟨_, _, same⟩ := bind_ok.mp others
    cases same
    exact .refl _
  | .ite cond yes no _, ck, refs, refs', allowed => by
    obtain ⟨middle, first, others⟩ := bind_ok.mp allowed
    obtain ⟨left, second, rest⟩ := bind_ok.mp others
    obtain ⟨right, _, joined⟩ := bind_ok.mp rest
    split at joined
    · cases joined
      exact (keeps_eval cond ck refs middle first).trans (keeps_eval yes ck middle _ second)
    · cases joined
  | .letIn slot value body _, ck, refs, refs', allowed => by
    obtain ⟨middle, first, others⟩ := bind_ok.mp allowed
    have before := keeps_eval value ck refs middle first
    split at others
    · split at others
      · cases others
      · rename_i fresh
        rw [Bool.not_eq_true, Bool.or_eq_false_iff] at fresh
        obtain ⟨inner, second, closed⟩ := bind_ok.mp others
        have unknown : middle.lookup slot = none := by simpa using fresh.2
        have inside := keeps_eval body _ _ inner second
        exact before.trans (.scope unknown ((Keeps.insert _ _ _).trans inside) closed)
    · obtain ⟨bound, bind, rest⟩ := bind_ok.mp others
      obtain ⟨inner, second, closed⟩ := bind_ok.mp rest
      exact before.trans (.binding bind (keeps_eval body ck bound inner second) closed)
  | .dup slot body _, ck, refs, refs', allowed => by
    obtain ⟨middle, first, others⟩ := bind_ok.mp allowed
    exact (Keeps.acquire first).trans (keeps_eval body ck middle refs' others)
  | .drop slot body _, ck, refs, refs', allowed => by
    unfold Checker.eval at allowed
    simp only at allowed
    split at allowed
    · cases allowed
    · obtain ⟨middle, first, others⟩ := bind_ok.mp allowed
      exact (Keeps.consume first).trans (keeps_eval body ck middle refs' others)
  | .reset value token body _, ck, refs, refs', allowed => by
    obtain ⟨middle, first, others⟩ := bind_ok.mp allowed
    obtain ⟨bound, bind, rest⟩ := bind_ok.mp others
    obtain ⟨inner, second, closed⟩ := bind_ok.mp rest
    exact (keeps_eval value ck refs middle first).trans
      (.binding bind (keeps_eval body ck bound inner second) closed)
  | .letMany slots value body _, ck, refs, refs', allowed => by
    obtain ⟨middle, first, others⟩ := bind_ok.mp allowed
    obtain ⟨bound, bind, rest⟩ := bind_ok.mp others
    obtain ⟨inner, second, closed⟩ := bind_ok.mp rest
    exact (keeps_eval value ck refs middle first).trans
      (.bindings bind (keeps_eval body ck bound inner second) closed)
  | .freeReuse token body _, ck, refs, refs', allowed => by
    obtain ⟨middle, first, others⟩ := bind_ok.mp allowed
    exact (Keeps.consume first).trans (keeps_eval body ck middle refs' others)
  | .join params body _, ck, refs, refs', allowed => keeps_eval body _ refs refs' allowed
  | .recur args _, ck, refs, refs', allowed => keeps_evalRecur args ck _ refs refs' allowed
  | .holeStart hole body _, ck, refs, refs', allowed => by
    obtain ⟨bound, bind, rest⟩ := bind_ok.mp allowed
    obtain ⟨inner, second, closed⟩ := bind_ok.mp rest
    exact .binding bind (keeps_eval body ck bound inner second) closed
  | .holeFill hole cell _ _, ck, refs, refs', allowed => by
    obtain ⟨middle, first, others⟩ := bind_ok.mp allowed
    exact (keeps_eval cell ck refs middle first).trans (.consume others)
  | .holeClose hole base _, ck, refs, refs', allowed => by
    obtain ⟨middle, first, others⟩ := bind_ok.mp allowed
    exact (keeps_eval base ck refs middle first).trans (.consume others)

/-- Accepted operands lose no slot. -/
theorem keeps_evalOperands : ∀ (args : List CExpr) (ck : Checker) (flags : List Bool)
    (refs refs' : Refs), ck.evalOperands args flags refs = .ok refs' → Keeps refs refs'
  | [], ck, flags, refs, refs', allowed => by
    cases allowed
    exact .refl _
  | operand :: rest, ck, flags, refs, refs', allowed => by
    rcases evalOperands_cons allowed with ⟨_, _, others, _⟩ | ⟨middle, now, others, _⟩
    · exact keeps_evalOperands rest ck flags.tail refs refs' others
    · exact (keeps_eval operand ck refs middle now).trans
        (keeps_evalOperands rest ck flags.tail middle refs' others)

/-- Accepted carried values lose no slot. -/
theorem keeps_evalRecur : ∀ (args : List CExpr) (ck : Checker) (flags : List Bool)
    (refs refs' : Refs), ck.evalRecur args flags refs = .ok refs' → Keeps refs refs'
  | [], ck, flags, refs, refs', allowed => by
    cases allowed
    exact .refl _
  | operand :: rest, ck, flags, refs, refs', allowed => by
    have whole := fun middle => keeps_evalRecur rest ck flags.tail middle refs'
    unfold Checker.evalRecur at allowed
    split at allowed
    · obtain ⟨_, _, others⟩ := bind_ok.mp allowed
      exact whole refs others
    · obtain ⟨middle, taken, others⟩ := bind_ok.mp allowed
      exact (keeps_eval operand ck refs middle taken).trans (whole middle others)

end

/-! ## Operands -/

mutual

/-- A plain operand hands over the references of its slots. -/
theorem spends_operand : ∀ (e : CExpr) (ck : Checker) (refs refs' : Refs) (book : Book LocalId),
    plainOperand e = true → Agrees ck refs book → ck.eval e refs = .ok refs' →
      Spends ck book [] e.slots refs'
  | .lit _ _, ck, refs, refs', book, _, agrees, allowed
  | .global _ _, ck, refs, refs', book, _, agrees, allowed
  | .error _, ck, refs, refs', book, _, agrees, allowed => by
    cases allowed
    exact Spends.nothing agrees
  | .loc slot _, ck, refs, refs', book, _, agrees, allowed => spends_consume agrees allowed
  | .spread components _, ck, refs, refs', book, simple, agrees, allowed => by
    have whole := spends_operands components ck [] refs refs' book simple agrees allowed
    rwa [lent_nil, taken_nil] at whole

/-- Plain operands lend and hand over what their convention says. -/
theorem spends_operands : ∀ (args : List CExpr) (ck : Checker) (flags : List Bool)
    (refs refs' : Refs) (book : Book LocalId), plainOperands args = true → Agrees ck refs book →
      ck.evalOperands args flags refs = .ok refs' →
        Spends ck book (lent flags args) (taken flags args) refs'
  | [], ck, flags, refs, refs', book, _, agrees, allowed => by
    cases allowed
    exact Spends.nothing agrees
  | operand :: rest, ck, flags, refs, refs', book, simple, agrees, allowed => by
    rw [plainOperands, Bool.and_eq_true] at simple
    rcases evalOperands_cons allowed with
      ⟨slot, read, others, lends, takes⟩ | ⟨middle, now, others, lends, takes⟩
    · have first := spends_borrow agrees read
      rw [lends, takes]
      exact first.append
        (spends_operands rest ck flags.tail refs refs' _ simple.2 first.agrees others)
    · have first := spends_operand operand ck refs middle book simple.1 agrees now
      rw [lends, takes]
      exact first.append
        (spends_operands rest ck flags.tail middle refs' _ simple.2 first.agrees others)

end

/-- Carried values are checked as operands with the loans of the loop. -/
theorem evalOperands_of_evalRecur {ck : Checker} : ∀ (args : List CExpr) (flags : List Bool)
    {refs refs' : Refs}, ck.evalRecur args flags refs = .ok refs' →
      ck.evalOperands args flags refs = .ok refs'
  | [], _, _, _, allowed => allowed
  | operand :: rest, flags, refs, refs', allowed => by
    unfold Checker.evalRecur at allowed
    cases flag : flags.headD false <;> simp only [flag, Bool.false_eq_true, ↓reduceIte] at allowed
    · obtain ⟨middle, first, others⟩ := bind_ok.mp allowed
      have later := evalOperands_of_evalRecur rest flags.tail others
      cases operand with
      | loc slot ty =>
        unfold Checker.evalOperands
        simp only [flag, Bool.false_eq_true, ↓reduceIte]
        exact bind_ok.mpr ⟨middle, first, later⟩
      | _ => exact bind_ok.mpr ⟨middle, first, later⟩
    · obtain ⟨_, first, others⟩ := bind_ok.mp allowed
      have later := evalOperands_of_evalRecur rest flags.tail others
      cases operand with
      | loc slot ty =>
        unfold Checker.evalOperands
        simp only [flag, ↓reduceIte]
        exact bind_ok.mpr ⟨(), first, later⟩
      | _ => cases first

/-! ## Scopes -/

/-- No slot has references. -/
def Settled (refs : Refs) : Prop := ∀ slot, (refs.lookup slot).getD 0 = 0

/-- A slot whose scope ends had no references, and the others keep theirs. -/
theorem closed_slot {inner refs' : Refs} {slot : LocalId} {message : String}
    (closed : Checker.closeSlot inner slot message = .ok refs') :
    (inner.lookup slot).getD 0 = 0 ∧ refs' = inner.remove slot := by
  unfold Checker.closeSlot at closed
  split at closed
  · cases closed
  · rename_i empty
    cases closed
    exact ⟨not_not.mp empty, rfl⟩

/-- Everything was settled when a scope that ends settled left no reference. -/
theorem Settled.inner {inner refs' : Refs} {slot : LocalId} {message : String}
    (settled : Settled refs') (closed : Checker.closeSlot inner slot message = .ok refs') :
    Settled inner := by
  obtain ⟨empty, rfl⟩ := closed_slot closed
  intro name
  have equal := settled name
  rw [Refs.lookup_remove] at equal
  by_cases same : name = slot
  · rw [same, empty]
  · rwa [if_neg same] at equal

/-- The same for several scopes. -/
theorem Settled.innerAll {fnIndex : Nat} : ∀ (slots : List LocalId) {inner refs' : Refs},
    Settled refs' → Checker.closeSlots fnIndex slots inner = .ok refs' → Settled inner
  | [], _, _, settled, closed => by
    cases closed
    exact settled
  | slot :: rest, inner, refs', settled, closed => by
    obtain ⟨middle, first, others⟩ := bind_ok.mp closed
    exact (innerAll rest settled others).inner first

section Scopes

variable {ck : Checker} {refs bound inner refs' : Refs} {book last : Book LocalId}
  {slot : LocalId} {message : String}

/-- The checker's views do not mention a slot. -/
def Apart (ck : Checker) (slot : LocalId) : Prop :=
  slot ∉ ck.captures ∧ ∀ view ∈ ck.projections, view.1 ≠ slot ∧ view.2 ≠ slot

/-- The checker's views do not mention a slot that is not in scope. -/
theorem Agrees.apart (agrees : Agrees ck refs book) (own : slot ∉ ck.captures)
    (unknown : refs.lookup slot = none) : Apart ck slot :=
  ⟨own, fun _ member => agrees.projections_apart own unknown member⟩

/-- Removing the views of a slot that is no view. -/
theorem Apart.views (apart : Apart ck slot) :
    ck.projections.filter (fun view => view.1 ≠ slot) = ck.projections := by
  apply List.filter_eq_self.mpr
  intro view member
  simpa using (apart.2 view member).1

/-- A slot leaves the scope of an agreement. -/
theorem Apart.agrees (apart : Apart ck slot) (agrees : Agrees ck inner last)
    (closed : Checker.closeSlot inner slot message = .ok refs') : Agrees ck refs' last := by
  obtain ⟨empty, rfl⟩ := closed_slot closed
  exact agrees.close rfl apart.1 apart.views (fun view member => (apart.2 view member).2) empty

/-- A slot leaves the scope at the end of an iteration. -/
theorem Apart.ends (apart : Apart ck slot) (ends : Ends ck inner last)
    (closed : Checker.closeSlot inner slot message = .ok refs') : Ends ck refs' last := by
  obtain ⟨empty, rfl⟩ := closed_slot closed
  exact ends.close rfl apart.1 apart.views empty

/-- Several slots leave the scope. -/
theorem closeAll {fnIndex : Nat} : ∀ (slots : List LocalId) {inner refs' : Refs},
    (∀ slot ∈ slots, Apart ck slot) → Checker.closeSlots fnIndex slots inner = .ok refs' →
      (Agrees ck inner last → Agrees ck refs' last) ∧ (Ends ck inner last → Ends ck refs' last)
  | [], _, _, _, closed => by
    cases closed
    exact ⟨id, id⟩
  | slot :: rest, inner, refs', apart, closed => by
    obtain ⟨middle, first, others⟩ := bind_ok.mp closed
    have now := apart slot List.mem_cons_self
    obtain ⟨agree, finish⟩ :=
      closeAll rest (fun name member => apart name (List.mem_cons_of_mem _ member)) others
    exact ⟨fun agrees => agree (now.agrees agrees first), fun ends => finish (now.ends ends first)⟩

/-- Several slots are bound. -/
theorem bindAll {fnIndex : Nat} :
    ∀ (slots : List LocalId) {refs bound : Refs} {book : Book LocalId},
    (∀ slot ∈ slots, slot ∉ ck.captures) → Agrees ck refs book →
      Checker.bindSlots fnIndex slots refs = .ok bound →
        ∃ next, run ck.captures (slots.map .bind) book = some next ∧ Agrees ck bound next
  | [], refs, bound, book, _, agrees, bind => by
    cases bind
    exact ⟨book, rfl, agrees⟩
  | slot :: rest, refs, bound, book, own, agrees, bind => by
    obtain ⟨middle, first, others⟩ := bind_ok.mp bind
    obtain ⟨_, between, stepped, agreesBetween⟩ :=
      agrees.bind (own slot List.mem_cons_self) first
    obtain ⟨next, ran, agreesNext⟩ :=
      bindAll rest (fun name member => own name (List.mem_cons_of_mem _ member))
        agreesBetween others
    refine ⟨next, ?_, agreesNext⟩
    rw [List.map_cons, run_cons, stepped, Option.bind_some, ran]

end Scopes

/-! ## Straight bodies -/

/-- Every run ends with the references of a table: where a value is produced, and at a back-edge
when the expression is in tail position. -/
def Follows (ck : Checker) (loop : List LocalId) (tail : Option Nat) (e : CExpr)
    (book : Book LocalId) (refs' : Refs) : Prop :=
  SafeUnder ck.argBorrows ck.captures (Separate ck.captures) loop e book (Agrees ck refs')
    fun last => tail.isSome = true ∧ Ends ck refs' last

/-- What a tail position of a loop knows: the loop's parameters, and that no reference is left. -/
structure InTail (ck : Checker) (loop : List LocalId) (refs' : Refs) : Prop where
  /-- The checker knows which parameters are on loan. -/
  loans : ck.loopBorrowed = some (loop.map fun param => !ck.owned param)
  /-- Nothing is left. -/
  settled : Settled refs'

/-- The tail position of a scope is one of the expression. -/
theorem InTail.scope {ck : Checker} {loop : List LocalId} {inner refs' : Refs}
    (inTail : InTail ck loop refs') (settles : Settled refs' → Settled inner) :
    InTail ck loop inner :=
  ⟨inTail.loans, settles inTail.settled⟩

section Runs

variable {ck : Checker} {loop : List LocalId} {tail : Option Nat} {e value body : CExpr}
  {refs bound inner refs' : Refs} {book : Book LocalId} {slot : LocalId}

/-- An operation the checker accounts for. -/
theorem follows_spends {lent taken : List LocalId}
    (flow : e.shape ck.argBorrows = .op (.use lent taken))
    (spends : Spends ck book lent taken refs') : Follows ck loop tail e book refs' :=
  under_op flow fun separate => spends.step separate

/-- The value of a binding runs outside tail position. -/
theorem Follows.outside {post back : Book LocalId → Prop}
    (follows : Follows ck loop none e book refs')
    (weaker : ∀ last, Agrees ck refs' last → post last) :
    SafeUnder ck.argBorrows ck.captures (Separate ck.captures) loop e book post back :=
  follows.mono weaker fun _ impossible => absurd impossible.1 (by simp)

/-- Tables with the same counts describe the same references. -/
theorem Follows.congr (equal : ∀ name, refs'.lookup name = inner.lookup name)
    (follows : Follows ck loop tail e book inner) : Follows ck loop tail e book refs' := by
  have same : current ck refs' = current ck inner := by
    funext name
    simp only [current, equal]
  refine follows.mono (fun last agrees => ?_) fun last holds => ⟨holds.1, ?_, ?_, holds.2.own⟩
  · refine agrees.congr (fun name => by rw [equal]) fun name own => ?_
    rw [equal]
    exact agrees.counts name own
  · intro name own
    rw [equal]
    exact holds.2.counts name own
  · rw [same]
    exact holds.2.scope

/-- The scope of a slot: bind it, run its scope, and forget it. -/
theorem follows_scope {message closing : String} (own : slot ∉ ck.captures)
    (agrees : Agrees ck refs book) (bind : Checker.bindSlot refs slot message = .ok bound)
    (inside : ∀ next, Agrees ck bound next → Follows ck loop tail body next inner)
    (closed : Checker.closeSlot inner slot closing = .ok refs') :
    ∃ next, run ck.captures [.bind slot] book = some next ∧
      Follows ck loop tail body next refs' := by
  obtain ⟨unknown, next, stepped, agreesNext⟩ := agrees.bind own bind
  have apart := agrees.apart own unknown
  refine ⟨next, by rw [run_singleton, stepped], (inside next agreesNext).mono ?_ ?_⟩
  · exact fun last agreesLast => apart.agrees agreesLast closed
  · exact fun last holds => ⟨holds.1, apart.ends holds.2 closed⟩

/-- The scope of several slots. -/
theorem follows_scopes {fnIndex : Nat} {slots : List LocalId}
    (own : ∀ slot ∈ slots, slot ∉ ck.captures) (agrees : Agrees ck refs book)
    (bind : Checker.bindSlots fnIndex slots refs = .ok bound)
    (inside : ∀ next, Agrees ck bound next → Follows ck loop tail body next inner)
    (closed : Checker.closeSlots fnIndex slots inner = .ok refs') :
    ∃ next, run ck.captures (slots.map .bind) book = some next ∧
      Follows ck loop tail body next refs' := by
  obtain ⟨next, ran, agreesNext⟩ := bindAll slots own agrees bind
  have unknown := (Keeps.boundAll slots bind).2
  have apart : ∀ slot ∈ slots, Apart ck slot := fun slot member =>
    agrees.apart (own slot member) (unknown slot member)
  refine ⟨next, ran, (inside next agreesNext).mono ?_ ?_⟩
  · exact fun last agreesLast => (closeAll slots apart closed).1 agreesLast
  · exact fun last holds => ⟨holds.1, (closeAll slots apart closed).2 holds.2⟩

/-- The scope of a view. -/
theorem follows_view {parent : LocalId} {closing : String} (own : slot ∉ ck.captures)
    (agrees : Agrees ck refs book) (unknown : refs.lookup slot = none)
    (inScope : current ck refs parent = true)
    (inside : ∀ next,
      Agrees { ck with projections := (slot, parent) :: ck.projections } (refs.insert slot 0) next →
        Follows { ck with projections := (slot, parent) :: ck.projections } loop tail body next
          inner)
    (closed : Checker.closeSlot inner slot closing = .ok refs') :
    ∃ next, run ck.captures [.view slot parent] book = some next ∧
      Follows ck loop tail body next refs' := by
  obtain ⟨next, stepped, agreesNext⟩ := agrees.view own unknown inScope
  have apart := agrees.apart own unknown
  obtain ⟨empty, rfl⟩ := closed_slot closed
  have views : ((slot, parent) :: ck.projections).filter (fun view => view.1 ≠ slot) =
      ck.projections := by
    rw [List.filter_cons_of_neg (by simp)]
    exact apart.views
  refine ⟨next, by rw [run_singleton, stepped], (inside next agreesNext).mono ?_ ?_⟩
  · exact fun last agreesLast =>
      agreesLast.close rfl own views (fun view member => (apart.2 view member).2) empty
  · exact fun last holds => ⟨holds.1, holds.2.close rfl own views empty⟩

/-- What binds a `let`'s slot follows from whether its value is a peek. -/
theorem binder_eq (value : CExpr) (slot : LocalId) :
    value.binder slot = match Checker.peeked value with
      | some parent => .view slot parent
      | none => .bind slot := by
  cases value with
  | prim op args ty =>
    cases args with
    | nil => rfl
    | cons first rest =>
      cases first with
      | loc owner ownerTy =>
        simp only [binder, Checker.peeked]
        cases op.isPeek <;> rfl
      | _ => rfl
  | _ => rfl

/-- The values a back-edge carries on loan are among those it lends. -/
theorem mem_carried {loans : List LocalId} {move : LocalId × LocalId} :
    ∀ (params : List LocalId) (args : List CExpr), move ∈ carried loans params args →
      move.1 ∈ loans ∧
        move.2 ∈ lent (params.map fun param => decide (param ∈ loans)) args
  | [], args, member => by cases args <;> simp [carried] at member
  | _ :: _, [], member => by simp [carried] at member
  | param :: params, arg :: args, member => by
    cases arg with
    | loc name ty =>
      unfold carried at member
      by_cases loaned : param ∈ loans
      · rw [if_pos loaned] at member
        rcases List.mem_cons.mp member with rfl | later
        · exact ⟨loaned, by simp [lent, loaned]⟩
        · obtain ⟨onLoan, lends⟩ := mem_carried params args later
          exact ⟨onLoan, by simp [lent, loaned, lends]⟩
      · rw [if_neg loaned] at member
        obtain ⟨onLoan, lends⟩ := mem_carried params args member
        exact ⟨onLoan, by simpa [lent, loaned] using lends⟩
    | _ => exact mem_carried params args member

/-- A back-edge in tail position of a loop. -/
theorem follows_recur {args : List CExpr} {ty : Ty} {arity : Nat}
    (inTail : InTail ck loop refs') (simple : plainOperands args = true)
    (agrees : Agrees ck refs book) (allowed : ck.eval (.recur args ty) refs = .ok refs') :
    Follows ck loop (some arity) (.recur args ty) book refs' := by
  have flags : ck.loopBorrowed.getD [] = loop.map fun param => decide (param ∈ ck.captures) := by
    rw [inTail.loans, Option.getD_some]
    simp [Checker.owned]
  unfold Checker.eval at allowed
  rw [flags] at allowed
  have spends := spends_operands args ck _ refs refs' book simple agrees
    (evalOperands_of_evalRecur args _ allowed)
  refine under_back rfl fun meets => ?_
  obtain ⟨separate, afterwards⟩ := meets
  obtain ⟨next, stepped, agreesNext⟩ := spends.step separate
  have clear := (afterwards next stepped).1
  have onLoan : ∀ name ∈ next.held, name ∈ ck.captures := by
    intro name member
    by_contra own
    have equal := agreesNext.counts name own
    rw [inTail.settled name] at equal
    have positive := Multiset.count_pos.mpr member
    omega
  have readable : ∀ move ∈ carried ck.captures loop args,
      move.1 ∈ ck.captures ∧ reads ck.captures 0 next.views move.2 = true := by
    intro move member
    obtain ⟨loaned, lends⟩ := mem_carried loop args member
    refine ⟨loaned, reads_of_loans onLoan next.views move.2 agreesNext.own ?_⟩
    simp only [Ledger.step, Option.ite_none_right_eq_some, Option.some.injEq] at stepped
    obtain ⟨⟨_, lendable⟩, rfl⟩ := stepped
    exact lendable move.2 lends
  have carries : Ledger.step ck.captures (.carry (carried ck.captures loop args)) next =
      some ⟨next.held, (carried ck.captures loop args).foldr
        (fun move views => forget move.1 views) next.views⟩ := by
    simp only [Ledger.step]
    rw [if_pos ⟨readable, clear⟩]
  refine ⟨⟨next.held, _⟩, (?_ : run _ _ _ = _).trans carries, rfl, ?_⟩
  · unfold backEdge
    rw [run_cons, stepped, Option.bind_some, run_singleton]
  · have ends := agreesNext.ends
    refine ⟨ends.counts, fun view member inScope => ?_, fun view member => ?_⟩
    · exact ends.scope view (mem_forget_moves.mp member).1 inScope
    · exact ends.own view (mem_forget_moves.mp member).1

/-- A slot whose reference is taken is in scope. -/
theorem current_of_consume (agrees : Agrees ck refs book)
    (allowed : ck.consume slot refs = .ok refs') : current ck refs slot = true := by
  rcases agrees.consume allowed with ⟨loaned, _⟩ | ⟨own, present, _⟩
  · simp [current, loaned]
  · by_contra outside
    simp only [current, Bool.or_eq_true, decide_eq_true_eq, not_or, Bool.not_eq_true,
      Option.isSome_eq_false_iff, Option.isNone_iff_eq_none] at outside
    exact agrees.not_mem_of_unknown own outside.2 present

/-- The owner of a peek is in scope. -/
theorem current_of_peeked {parent : LocalId} (peek : Checker.peeked value = some parent)
    (agrees : Agrees ck refs book) (allowed : ck.eval value refs = .ok refs') :
    current ck refs' parent = true := by
  have kept := keeps_eval value ck refs refs' allowed
  have known : current ck refs parent = true := by
    unfold Checker.peeked at peek
    split at peek
    · rename_i op owner ownerTy rest ty
      rw [Option.ite_none_right_eq_some] at peek
      cases peek.2
      unfold Checker.eval Checker.evalOperands at allowed
      split at allowed
      · obtain ⟨_, read, _⟩ := bind_ok.mp allowed
        exact agrees.current_of_borrow read
      · obtain ⟨_, taking, _⟩ := bind_ok.mp allowed
        exact current_of_consume agrees taking
    · cases peek
  simp only [current, Bool.or_eq_true, decide_eq_true_eq] at known ⊢
  exact known.imp_right (kept parent)

/-- Runs of an accepted operation. -/
theorem follows_operation {action : Step LocalId} (simple : straight ck.captures tail e = true)
    (flow : e.shape ck.argBorrows = .op action) (agrees : Agrees ck refs book)
    (allowed : ck.eval e refs = .ok refs') : Follows ck loop tail e book refs' := by
  cases e with
  | lit _ _ | global _ _ | error _ =>
    cases allowed
    exact follows_spends rfl (Spends.nothing agrees)
  | loc slot ty => exact follows_spends rfl (spends_consume agrees allowed)
  | prim op args ty =>
    rw [straight, Bool.and_eq_true] at simple
    exact follows_spends rfl (spends_operands args ck _ refs refs' book simple.1 agrees allowed)
  | foreign symbol args marshalled ty =>
    have spends := spends_operands args ck [] refs refs' book simple agrees allowed
    rw [lent_nil] at spends
    exact follows_spends rfl spends
  | spread args ty =>
    have spends := spends_operands args ck [] refs refs' book simple agrees allowed
    rw [lent_nil] at spends
    exact follows_spends rfl spends
  | makeData tag args reuse scalars niche ty =>
    obtain ⟨middle, first, tokens⟩ := bind_ok.mp allowed
    have spends := spends_operands args ck [] refs middle book simple agrees first
    rw [lent_nil] at spends
    exact follows_spends rfl
      (spends.append (spends_consumeAll reuse.toList middle _ spends.agrees tokens))
  | app func args reuse alloc ty =>
    rw [straight, Bool.and_eq_true] at simple
    obtain ⟨callee, first, others⟩ := bind_ok.mp allowed
    obtain ⟨middle, second, tokens⟩ := bind_ok.mp others
    have called := spends_operand func ck refs callee book simple.1 agrees first
    have passed := spends_operands args ck _ callee middle _ simple.2 called.agrees second
    have both := called.append passed
    have whole := both.append (spends_consumeAll _ middle _ both.agrees tokens)
    rw [List.nil_append, List.append_nil] at whole
    exact follows_spends rfl whole
  | makeClosure func captures alloc ty =>
    exact follows_spends rfl (spends_consumeAll captures refs book agrees allowed)
  | dataTag base niche ty =>
    obtain ⟨_, read, same⟩ := bind_ok.mp allowed
    cases same
    cases base with
    | loc slot baseTy => exact follows_spends rfl (spends_borrow agrees read)
    | _ => cases read
  | dataField base index scalar niche ty =>
    obtain ⟨_, read, others⟩ := bind_ok.mp allowed
    obtain ⟨_, evidence, same⟩ := bind_ok.mp others
    cases same
    cases base with
    | loc slot baseTy =>
      have first := spends_borrow agrees read
      exact follows_spends rfl (first.append (spends_borrowAll index.slots first.agrees evidence))
    | _ => cases read
  | _ => cases flow

/-- A peek is one operation. -/
theorem follows_peek (peek : plainPeek value = true) (agrees : Agrees ck refs book)
    (allowed : ck.eval value refs = .ok refs') : Follows ck loop none value book refs' := by
  unfold plainPeek at peek
  rw [Bool.and_eq_true] at peek
  cases value with
  | prim op args ty =>
    exact follows_spends rfl (spends_operands args ck _ refs refs' book peek.2 agrees allowed)
  | _ => simp at peek

/-- A `let`: its value runs first, and then the scope of its slot, which is a view or holds a
reference. -/
theorem follows_letIn {ty : Ty} (own : slot ∉ ck.captures)
    (first : ∀ middle, ck.eval value refs = .ok middle → Follows ck loop none value book middle)
    (rest : ∀ (inner : Checker) (before after : Refs) (entry : Book LocalId),
      inner.captures = ck.captures → inner.argBorrows = ck.argBorrows →
      inner.loopBorrowed = ck.loopBorrowed →
      (Settled refs' → Settled after) → Agrees inner before entry →
      inner.eval body before = .ok after → Follows inner loop tail body entry after)
    (agrees : Agrees ck refs book)
    (allowed : ck.eval (.letIn slot value body ty) refs = .ok refs') :
    Follows ck loop tail (.letIn slot value body ty) book refs' := by
  obtain ⟨middle, evaluated, others⟩ := bind_ok.mp allowed
  refine under_seq rfl ((first middle evaluated).outside fun between agreesBetween _ => ?_)
  rw [binder_eq]
  cases peek : Checker.peeked value with
  | some parent =>
    rw [peek] at others
    simp only at others
    split at others
    · cases others
    · rename_i fresh
      rw [Bool.not_eq_true, Bool.or_eq_false_iff] at fresh
      have unknown : middle.lookup slot = none := by simpa using fresh.2
      obtain ⟨inner, inside, closed⟩ := bind_ok.mp others
      apply follows_view own agreesBetween unknown
        (current_of_peeked peek agrees evaluated) ?_ closed
      intro next agreesNext
      exact rest _ _ inner next rfl rfl rfl (fun settled => settled.inner closed) agreesNext inside
  | none =>
    rw [peek] at others
    simp only at others
    obtain ⟨bound, bind, remaining⟩ := bind_ok.mp others
    obtain ⟨inner, inside, closed⟩ := bind_ok.mp remaining
    apply follows_scope own agreesBetween bind ?_ closed
    intro next agreesNext
    exact rest _ _ inner next rfl rfl rfl (fun settled => settled.inner closed) agreesNext inside

end Runs

/-- Runs of an accepted straight body, by recursion on its structure: the checker's table describes
the references at every point, and at a back-edge nothing owned is left. -/
theorem follows_straight (e : CExpr) : ∀ (ck : Checker) (loop : List LocalId) (tail : Option Nat)
    (refs refs' : Refs) (book : Book LocalId), straight ck.captures tail e = true →
      (tail.isSome = true → InTail ck loop refs') → Agrees ck refs book →
        ck.eval e refs = .ok refs' → Follows ck loop tail e book refs' := by
  induction e using CExpr.induct with
  | lit _ _ | loc _ _ | global _ _ | error _ | prim _ _ _ _ | foreign _ _ _ _ _ | spread _ _ _
  | makeData _ _ _ _ _ _ _ | makeClosure _ _ _ _ | dataTag _ _ _ _ | dataField _ _ _ _ _ _
  | app _ _ _ _ _ _ _ =>
    intro ck loop tail refs refs' book simple _ agrees allowed
    exact follows_operation simple rfl agrees allowed
  | ite cond yes no ty condSafe yesSafe noSafe =>
    intro ck loop tail refs refs' book simple inTail agrees allowed
    rw [straight, Bool.and_eq_true, Bool.and_eq_true] at simple
    obtain ⟨middle, first, others⟩ := bind_ok.mp allowed
    obtain ⟨left, second, rest⟩ := bind_ok.mp others
    obtain ⟨right, third, joined⟩ := bind_ok.mp rest
    split at joined
    · rename_i same
      cases joined
      have equal := Refs.lookup_eq_of_same same
      refine under_branch rfl ((condSafe ck loop none refs middle book simple.1.1 (by simp) agrees
        first).outside fun between agreesBetween => ⟨?_, ?_⟩)
      · exact yesSafe ck loop tail middle refs' between simple.1.2 inTail agreesBetween second
      · refine (noSafe ck loop tail middle right between simple.2 (fun isTail => ?_)
          agreesBetween third).congr equal
        have known := inTail isTail
        refine ⟨known.loans, fun name => ?_⟩
        rw [← equal name]
        exact known.settled name
    · cases joined
  | letIn slot value body ty valueSafe bodySafe =>
    intro ck loop tail refs refs' book simple inTail agrees allowed
    rw [straight, Bool.and_eq_true, Bool.and_eq_true, decide_eq_true_eq, Bool.or_eq_true] at simple
    obtain ⟨⟨own, valueSimple⟩, bodySimple⟩ := simple
    refine follows_letIn own (fun middle evaluated => ?_) ?_ agrees allowed
    · rcases valueSimple with peek | valueStraight
      · exact follows_peek peek agrees evaluated
      · exact valueSafe ck loop none refs middle book valueStraight (by simp) agrees evaluated
    · intro inner before after entry captures calls loans settles agreesEntry inside
      rw [← captures] at bodySimple
      refine bodySafe inner loop tail before after entry bodySimple (fun isTail => ?_)
        agreesEntry inside
      have known := inTail isTail
      refine ⟨?_, settles known.settled⟩
      rw [loans, known.loans]
      simp only [Checker.owned, captures]
  | letMany slots value body ty valueSafe bodySafe =>
    intro ck loop tail refs refs' book simple inTail agrees allowed
    rw [straight, Bool.and_eq_true, Bool.and_eq_true, decide_eq_true_eq] at simple
    obtain ⟨middle, first, others⟩ := bind_ok.mp allowed
    obtain ⟨bound, bind, rest⟩ := bind_ok.mp others
    obtain ⟨inner, inside, closed⟩ := bind_ok.mp rest
    refine under_seq rfl ((valueSafe ck loop none refs middle book simple.1.2 (by simp) agrees
      first).outside fun between agreesBetween _ => ?_)
    refine follows_scopes simple.1.1 agreesBetween bind (fun next agreesNext => ?_) closed
    refine bodySafe ck loop tail bound inner next simple.2 (fun isTail => ?_) agreesNext inside
    exact (inTail isTail).scope fun settled => settled.innerAll slots closed
  | reset value token body ty valueSafe bodySafe =>
    intro ck loop tail refs refs' book simple inTail agrees allowed
    rw [straight, Bool.and_eq_true, Bool.and_eq_true, decide_eq_true_eq] at simple
    obtain ⟨middle, first, others⟩ := bind_ok.mp allowed
    obtain ⟨bound, bind, rest⟩ := bind_ok.mp others
    obtain ⟨inner, inside, closed⟩ := bind_ok.mp rest
    refine under_seq rfl ((valueSafe ck loop none refs middle book simple.1.2 (by simp) agrees
      first).outside fun between agreesBetween _ => ?_)
    refine follows_scope simple.1.1 agreesBetween bind (fun next agreesNext => ?_) closed
    refine bodySafe ck loop tail bound inner next simple.2 (fun isTail => ?_) agreesNext inside
    exact (inTail isTail).scope fun settled => settled.inner closed
  | holeStart hole body ty bodySafe =>
    intro ck loop tail refs refs' book simple inTail agrees allowed
    rw [straight, Bool.and_eq_true, decide_eq_true_eq] at simple
    obtain ⟨bound, bind, rest⟩ := bind_ok.mp allowed
    obtain ⟨inner, inside, closed⟩ := bind_ok.mp rest
    refine under_before rfl fun _ => ?_
    refine follows_scope simple.1 agrees bind (fun next agreesNext => ?_) closed
    refine bodySafe ck loop tail bound inner next simple.2 (fun isTail => ?_) agreesNext inside
    exact (inTail isTail).scope fun settled => settled.inner closed
  | freeReuse token body ty bodySafe =>
    intro ck loop tail refs refs' book simple inTail agrees allowed
    obtain ⟨middle, first, others⟩ := bind_ok.mp allowed
    refine under_before rfl fun meets => ?_
    obtain ⟨next, stepped, agreesNext⟩ := (spends_consume agrees first).step meets.1
    exact ⟨next, by rw [run_singleton, stepped],
      bodySafe ck loop tail middle refs' next simple inTail agreesNext others⟩
  | dup slot body ty bodySafe =>
    intro ck loop tail refs refs' book simple inTail agrees allowed
    obtain ⟨middle, first, others⟩ := bind_ok.mp allowed
    obtain ⟨readable, agreesNext⟩ := agrees.acquire first
    refine under_before rfl fun _ => ⟨⟨slot ::ₘ book.held, book.views⟩, ?_, ?_⟩
    · rw [run_singleton]
      simp only [Ledger.step]
      rw [if_pos readable]
    · exact bodySafe ck loop tail middle refs' _ simple inTail agreesNext others
  | drop slot body ty bodySafe =>
    intro ck loop tail refs refs' book simple inTail agrees allowed
    unfold Checker.eval at allowed
    simp only at allowed
    split at allowed
    · cases allowed
    · rename_i releasable
      obtain ⟨middle, first, others⟩ := bind_ok.mp allowed
      rcases agrees.consume first with ⟨loaned, _⟩ | ⟨_, present, agreesNext⟩
      · simp [Checker.owned, loaned] at releasable
      · refine under_before rfl fun _ => ⟨⟨book.held.erase slot, book.views⟩, ?_, ?_⟩
        · rw [run_singleton]
          simp only [Ledger.step]
          rw [if_pos present]
        · exact bodySafe ck loop tail middle refs' _ simple inTail agreesNext others
  | holeFill hole cell field ty cellSafe =>
    intro ck loop tail refs refs' book simple _ agrees allowed
    obtain ⟨middle, first, others⟩ := bind_ok.mp allowed
    refine under_after rfl ((cellSafe ck loop none refs middle book simple (by simp) agrees
      first).outside fun between agreesBetween meets => ?_)
    obtain ⟨next, stepped, agreesNext⟩ := (spends_consume agreesBetween others).step meets.1
    exact ⟨next, by rw [run_singleton, stepped], agreesNext⟩
  | holeClose hole base ty baseSafe =>
    intro ck loop tail refs refs' book simple _ agrees allowed
    obtain ⟨middle, first, others⟩ := bind_ok.mp allowed
    refine under_after rfl ((baseSafe ck loop none refs middle book simple (by simp) agrees
      first).outside fun between agreesBetween meets => ?_)
    obtain ⟨next, stepped, agreesNext⟩ := (spends_consume agreesBetween others).step meets.1
    exact ⟨next, by rw [run_singleton, stepped], agreesNext⟩
  | recur args ty _ =>
    intro ck loop tail refs refs' book simple inTail agrees allowed
    rw [straight, Bool.and_eq_true, decide_eq_true_eq] at simple
    obtain ⟨rfl, operandsSimple⟩ := simple
    exact follows_recur (inTail rfl) operandsSimple agrees allowed
  | join params body ty _ =>
    intro ck loop tail refs refs' book simple
    simp [straight] at simple

/-! ## Loops -/

section Loops

variable {ck : Checker}

/-- The carried slots of a new iteration are bound. -/
theorem run_bind_slots {loans : List LocalId} : ∀ (slots : List LocalId) (book : Book LocalId),
    slots.Nodup → (∀ slot ∈ slots, slot ∉ book.held ∧ slot ∉ loans) →
      ∃ next, run loans (slots.map .bind) book = some next ∧
        next.held = (slots : Multiset LocalId) + book.held ∧ ∀ view ∈ next.views, view ∈ book.views
  | [], book, _, _ => ⟨book, rfl, by simp, fun _ member => member⟩
  | slot :: rest, book, distinct, fresh => by
    rw [List.nodup_cons] at distinct
    obtain ⟨absent, own⟩ := fresh slot List.mem_cons_self
    have stepped : Ledger.step loans (.bind slot) book =
        some ⟨slot ::ₘ book.held, forget slot book.views⟩ := by
      simp [Ledger.step, absent, own]
    have later : ∀ name ∈ rest, name ∉ slot ::ₘ book.held ∧ name ∉ loans := by
      intro name member
      obtain ⟨notHeld, notLoan⟩ := fresh name (List.mem_cons_of_mem _ member)
      refine ⟨fun held => ?_, notLoan⟩
      rcases Multiset.mem_cons.mp held with rfl | older
      · exact distinct.1 member
      · exact notHeld older
    obtain ⟨next, ran, held, views⟩ := run_bind_slots rest
      ⟨slot ::ₘ book.held, forget slot book.views⟩ distinct.2 later
    refine ⟨next, ?_, ?_, fun view member => (mem_forget.mp (views view member)).1⟩
    · rw [List.map_cons, run_cons, stepped, Option.bind_some, ran]
    · rw [held, Multiset.add_cons, ← Multiset.cons_coe, Multiset.cons_add]

/-- The next iteration starts with the references of the first. -/
theorem Ends.rebind {params owned : List LocalId} {refs refs' : Refs} {middle : Book LocalId}
    (ends : Ends ck refs' middle) (noView : ck.projections = []) (settled : Settled refs')
    (kept : Keeps refs refs') (distinct : owned.Nodup)
    (covered : (params.filter fun param => param ∉ ck.captures).Perm owned)
    (counts : ∀ name ∉ ck.captures, (refs.lookup name).getD 0 = (owned.count name : Int)) :
    ∃ next, run ck.captures (rebind ck.captures params) middle = some next ∧
      Agrees ck refs next := by
  have nothing : ∀ name ∉ ck.captures, middle.held.count name = 0 := by
    intro name own
    have equal := ends.counts name own
    rw [settled name] at equal
    omega
  have fresh : ∀ slot ∈ params.filter fun param => param ∉ ck.captures,
      slot ∉ middle.held ∧ slot ∉ ck.captures := by
    intro slot member
    have own : slot ∉ ck.captures := by simpa using (List.mem_filter.mp member).2
    exact ⟨Multiset.count_eq_zero.mp (nothing slot own), own⟩
  obtain ⟨next, ran, held, views⟩ :=
    run_bind_slots _ middle (covered.nodup_iff.mpr distinct) fresh
  refine ⟨next, ran, ?_, ?_, ?_, ?_, fun view member => ends.own view (views view member)⟩
  · intro name own
    rw [counts name own, held, Multiset.count_add, nothing name own, Multiset.coe_count,
      covered.count_eq, Nat.add_zero]
  · rw [noView, List.filter_eq_nil_iff]
    intro view member inScope
    have old := views view member
    have later : current ck refs' view.1 = true := by
      simp only [current, Bool.or_eq_true, decide_eq_true_eq] at inScope ⊢
      exact inScope.imp_right (kept view.1)
    have known := ends.scope view old later
    rw [noView] at known
    cases known
  · intro view member
    rw [noView] at member
    cases member
  · intro view member
    rw [noView] at member
    cases member

/-- A loop at the entry: every iteration starts with one reference of every owned slot. -/
theorem follows_join {params owned loop : List LocalId} {body : CExpr} {ty : Ty}
    {refs refs' : Refs} {book : Book LocalId} (noView : ck.projections = [])
    (settled : Settled refs') (distinct : owned.Nodup)
    (covered : (params.filter fun param => param ∉ ck.captures).Perm owned)
    (simple : straight ck.captures (some params.length) body = true)
    (agrees : Agrees ck refs book)
    (holds : ∀ name ∉ ck.captures, book.held.count name = owned.count name)
    (allowed : ck.eval (.join params body ty) refs = .ok refs') :
    Follows ck loop none (.join params body ty) book refs' := by
  have counts : ∀ name ∉ ck.captures, (refs.lookup name).getD 0 = (owned.count name : Int) := by
    intro name own
    rw [← agrees.counts name own, holds name own]
  have kept : Keeps refs refs' := keeps_eval _ ck refs refs' allowed
  unfold Checker.eval at allowed
  refine under_loop rfl (Agrees ck refs) (fun entry agreesEntry => ?_) agrees
  have iteration := follows_straight body
    { ck with loopBorrowed := some (params.map fun param => !ck.owned param) } params
    (some params.length) refs refs' entry simple
    (fun _ => ⟨rfl, settled⟩) ⟨agreesEntry.counts, agreesEntry.scope, agreesEntry.owners,
      agreesEntry.counted, agreesEntry.own⟩ allowed
  refine iteration.mono (fun last final => ?_) fun middle final => ?_
  · exact ⟨final.counts, final.scope, final.owners, final.counted, final.own⟩
  · have ends : Ends ck refs' middle := ⟨final.2.counts, final.2.scope, final.2.own⟩
    exact ends.rebind noView settled kept distinct covered counts

/-- The references after binding an unknown slot. -/
theorem count_bound {slot : LocalId} {owned : List LocalId} {refs bound : Refs} {message : String}
    {book next : Book LocalId} (own : slot ∉ ck.captures) (agrees : Agrees ck refs book)
    (holds : ∀ name ∉ ck.captures, book.held.count name = owned.count name)
    (bind : Checker.bindSlot refs slot message = .ok bound) (agreesNext : Agrees ck bound next) :
    slot ∉ owned ∧ ∀ name ∉ ck.captures, next.held.count name = (slot :: owned).count name := by
  obtain ⟨unknown, rfl⟩ := Keeps.bound bind
  have absent : owned.count slot = 0 := by
    rw [← holds slot own, Multiset.count_eq_zero]
    exact agrees.not_mem_of_unknown own unknown
  refine ⟨List.count_eq_zero.mp absent, fun name ownName => ?_⟩
  have after := agreesNext.counts name ownName
  have before := agrees.counts name ownName
  rw [holds name ownName] at before
  rw [Refs.lookup_insert] at after
  by_cases same : name = slot
  · subst same
    rw [if_pos rfl, Option.getD_some] at after
    rw [List.count_cons_self, absent]
    omega
  · rw [if_neg same, ← before] at after
    rw [List.count_cons_of_ne (Ne.symm same)]
    omega

/-- Runs of an accepted function body, by recursion on what stands before its loop. -/
theorem follows_emitted : ∀ (e : CExpr) (owned : List LocalId) (loop : List LocalId)
    (refs refs' : Refs) (book : Book LocalId), emitted ck.captures owned e = true →
      ck.projections = [] → Settled refs' → owned.Nodup → Agrees ck refs book →
      (∀ name ∉ ck.captures, book.held.count name = owned.count name) →
        ck.eval e refs = .ok refs' → Follows ck loop none e book refs' := by
  intro e
  induction e using CExpr.induct with
  | join params body ty _ =>
    intro owned loop refs refs' book form noView settled distinct agrees holds allowed
    rw [emitted, Bool.and_eq_true, decide_eq_true_eq] at form
    exact follows_join noView settled distinct form.1 form.2 agrees holds allowed
  | holeStart hole body ty bodySafe =>
    intro owned loop refs refs' book form noView settled distinct agrees holds allowed
    rw [emitted, Bool.or_eq_true, Bool.and_eq_true, decide_eq_true_eq] at form
    rcases form with simple | ⟨own, inside⟩
    · exact follows_straight _ ck loop none refs refs' book simple (by simp) agrees allowed
    · obtain ⟨bound, bind, rest⟩ := bind_ok.mp allowed
      obtain ⟨inner, evaluated, closed⟩ := bind_ok.mp rest
      refine under_before rfl fun _ => ?_
      refine follows_scope own agrees bind (fun next agreesNext => ?_) closed
      obtain ⟨absent, counts⟩ := count_bound own agrees holds bind agreesNext
      exact bodySafe (hole :: owned) loop bound inner next inside noView (settled.inner closed)
        (List.nodup_cons.mpr ⟨absent, distinct⟩) agreesNext counts evaluated
  | letIn slot value body ty _ bodySafe =>
    intro owned loop refs refs' book form noView settled distinct agrees holds allowed
    have cases : straight ck.captures none (.letIn slot value body ty) = true ∨
        ∃ literal literalTy, value = .lit literal literalTy ∧ slot ∉ ck.captures ∧
          emitted ck.captures (slot :: owned) body = true := by
      cases value with
      | lit literal literalTy =>
        rw [emitted, Bool.or_eq_true, Bool.and_eq_true, decide_eq_true_eq] at form
        exact form.imp_right fun loops => ⟨literal, literalTy, rfl, loops.1, loops.2⟩
      | _ => exact .inl form
    rcases cases with simple | ⟨literal, literalTy, rfl, own, inside⟩
    · exact follows_straight _ ck loop none refs refs' book simple (by simp) agrees allowed
    · obtain ⟨middle, first, others⟩ := bind_ok.mp allowed
      cases first
      obtain ⟨bound, bind, rest⟩ := bind_ok.mp others
      obtain ⟨inner, evaluated, closed⟩ := bind_ok.mp rest
      refine under_seq rfl ((follows_spends rfl (Spends.nothing agrees)).outside
        fun between agreesBetween _ => ?_)
      refine follows_scope own agreesBetween bind (fun next agreesNext => ?_) closed
      obtain ⟨absent, counts⟩ := count_bound own agrees holds bind agreesNext
      exact bodySafe (slot :: owned) loop bound inner next inside noView (settled.inner closed)
        (List.nodup_cons.mpr ⟨absent, distinct⟩) agreesNext counts evaluated
  | freeReuse token body ty bodySafe =>
    intro owned loop refs refs' book form noView settled distinct agrees holds allowed
    rw [emitted, Bool.or_eq_true] at form
    rcases form with simple | inside
    · exact follows_straight _ ck loop none refs refs' book simple (by simp) agrees allowed
    · obtain ⟨middle, first, others⟩ := bind_ok.mp allowed
      refine under_before rfl fun meets => ?_
      obtain ⟨next, stepped, agreesNext⟩ := (spends_consume agrees first).step meets.1
      refine ⟨next, by rw [run_singleton, stepped], ?_⟩
      refine bodySafe (owned.erase token) loop middle refs' next inside noView settled
        (distinct.erase token) agreesNext (fun name own => ?_) others
      simp only [Ledger.step, Option.ite_none_right_eq_some, Option.some.injEq] at stepped
      obtain ⟨_, rfl⟩ := stepped
      rw [Multiset.count_sub, holds name own, Multiset.coe_count, List.count_erase,
        List.count_singleton]
  | lit _ _ | loc _ _ | global _ _ | error _ | prim _ _ _ _ | foreign _ _ _ _ _ | spread _ _ _
  | makeData _ _ _ _ _ _ _ | makeClosure _ _ _ _ | dataTag _ _ _ _ | dataField _ _ _ _ _ _
  | app _ _ _ _ _ _ _ | ite _ _ _ _ _ _ _ | letMany _ _ _ _ _ _ | reset _ _ _ _ _ _
  | dup _ _ _ _ | drop _ _ _ _ | holeFill _ _ _ _ _ | holeClose _ _ _ _ | recur _ _ _ =>
    intro owned loop refs refs' book form _ _ _ agrees _ allowed
    exact follows_straight _ ck loop none refs refs' book form (by simp) agrees allowed

end Loops

/-! ## Functions and definitions -/

/-- A table whose entries are all zero is settled. -/
theorem settled_of_leftOver {refs : Refs} (nothing : leftOver refs = none) : Settled refs := by
  intro slot
  rw [leftOver, List.find?_eq_none] at nothing
  cases found : refs.lookup slot with
  | none => rfl
  | some count =>
    obtain ⟨before, after, split, _⟩ := List.lookup_eq_some_iff.mp found
    have zero := nothing (slot, count) (by simp [split])
    simpa using zero

/-- The table at entry has one reference of every owned parameter. -/
theorem lookup_ownedRefs (params : List LocalId) (slot : LocalId) :
    (ownedRefs params).lookup slot = if slot ∈ params then some 1 else none := by
  have general : ∀ (params : List LocalId) (refs : Refs),
      (params.foldl (fun refs param => refs.insert param 1) refs).lookup slot =
        if slot ∈ params then some 1 else refs.lookup slot := by
    intro params
    induction params with
    | nil => simp
    | cons param rest inductionHypothesis =>
      intro refs
      rw [List.foldl_cons, inductionHypothesis, Refs.lookup_insert]
      by_cases later : slot ∈ rest
      · simp [later]
      · by_cases same : slot = param <;> simp [later, same]
  exact general params []

/-- The checker's view of a function at entry. -/
theorem agrees_entry {ck : Checker} {params : List LocalId} (noView : ck.projections = [])
    (distinct : params.Nodup) :
    Agrees ck (ownedRefs params) (plain (params : Multiset LocalId)) := by
  refine ⟨fun slot _ => ?_, ?_, ?_, ?_, ?_⟩
  · rw [lookup_ownedRefs]
    show (((params : Multiset LocalId).count slot : Nat) : Int) = _
    rw [Multiset.coe_count, List.Nodup.count distinct]
    split <;> rfl
  · rw [noView]
    rfl
  · intro view member
    rw [noView] at member
    cases member
  · intro view member
    rw [noView] at member
    cases member
  · intro view member
    cases member

/-- A function as reference counting and flattening emit it. -/
def Emitted (convention : Convention) (body : CExpr) : Prop :=
  convention.params.Nodup ∧ emitted convention.loans convention.params body = true

instance (convention : Convention) (body : CExpr) : Decidable (Emitted convention body) :=
  inferInstanceAs (Decidable (_ ∧ _))

/-- A function that meets its convention: no run whose operations keep their operands separate
faults, none leaves through a back-edge, and when its value is produced no reference is left of any
slot that is not on loan. -/
def Releases (calls : CallBorrows) (convention : Convention) (body : CExpr) : Prop :=
  SafeUnder calls convention.loans (Separate convention.loans) [] body
    (plain (convention.params : Multiset LocalId))
    (fun last => ∀ slot ∈ last.held, slot ∈ convention.loans) fun _ => False

/-- An accepted function meets its convention. -/
theorem checkFn_sound {calls : CallBorrows} {fnIndex : Nat} {name : String}
    {convention : Convention} {body : CExpr} (form : Emitted convention body)
    (accepted : checkFn calls fnIndex name convention.params convention.loans body = .ok ()) :
    Releases calls convention body := by
  obtain ⟨refs, evaluated, settles⟩ := bind_ok.mp accepted
  have settled : Settled refs := by
    apply settled_of_leftOver
    cases left : leftOver refs with
    | none => rfl
    | some entry =>
      rw [left] at settles
      cases settles
  have follows := @follows_emitted ⟨convention.loans, fnIndex, calls, [], none⟩ body
    convention.params [] _ refs _ form.2 rfl settled form.1 (agrees_entry rfl form.1)
    (fun _ _ => Multiset.coe_count _ _) evaluated
  refine follows.outside fun last agrees slot member => ?_
  by_contra own
  have equal := agrees.counts slot own
  rw [settled slot] at equal
  have positive := Multiset.count_pos.mpr member
  omega

/-- The functions of a definition with their conventions, the token-taking entry last. -/
def functions (lowered : LoweredDef) : List (Convention × CExpr) :=
  (lowered.fns.mapIdx fun index f => (fnConvention lowered index f, f.body)) ++
    lowered.reuseEntry.toList.map fun entry => (reuseConvention lowered entry, entry.body)

/-- Checking the functions of a definition checks each of them. -/
theorem checkFns_each {lowered : LoweredDef} {calls : CallBorrows} :
    ∀ (fns : List CoreFn) (start : Nat), checkFns lowered calls start fns = .ok () →
      ∀ function ∈ fns.mapIdx fun index f =>
          (fnConvention lowered (start + index) f, f.body),
        ∃ fnIndex name,
          checkFn calls fnIndex name function.1.params function.1.loans function.2 = .ok ()
  | [], _, _, _, member => by simp at member
  | f :: rest, start, accepted, function, member => by
    obtain ⟨_, first, others⟩ := bind_ok.mp accepted
    rw [List.mapIdx_cons, List.mem_cons] at member
    rcases member with rfl | later
    · exact ⟨_, _, first⟩
    · refine checkFns_each rest (start + 1) others function ?_
      simpa [Nat.add_assoc, Nat.add_comm, Nat.add_left_comm] using later

/-- Checking a definition checks each of its functions. -/
theorem checkRc_each {lowered : LoweredDef} {calls : CallBorrows}
    (accepted : checkRc lowered calls = .ok ()) :
    ∀ function ∈ functions lowered, ∃ fnIndex name,
      checkFn calls fnIndex name function.1.params function.1.loans function.2 = .ok () := by
  intro function member
  obtain ⟨_, first, others⟩ := bind_ok.mp accepted
  rcases List.mem_append.mp member with listed | extra
  · apply checkFns_each lowered.fns 0 first
    simpa using listed
  · cases entry : lowered.reuseEntry with
    | none => simp [entry] at extra
    | some f =>
      simp only [entry, Option.toList_some, List.map_cons, List.map_nil,
        List.mem_singleton] at extra
      subst extra
      rw [entry] at others
      exact ⟨_, _, others⟩

/-- Every run of every function of an accepted definition whose operations keep their operands
separate: it never faults, in any counting heap with the references of its entry it neither reads
nor releases a freed cell, and when its value is produced no owned parameter, local or token has a
reference left. -/
theorem checkRc_sound {lowered : LoweredDef} {calls : CallBorrows} {convention : Convention}
    {body : CExpr} (accepted : checkRc lowered calls = .ok ())
    (listed : (convention, body) ∈ functions lowered) (form : Emitted convention body)
    {steps : List (Step LocalId)} {outcome : Outcome}
    (runs : Runs calls convention.loans [] body steps outcome)
    (separate : Meets convention.loans (Separate convention.loans) steps
      (plain (convention.params : Multiset LocalId))) :
    (∃ last, run convention.loans steps (plain (convention.params : Multiset LocalId)) = some last ∧
      (outcome = .done → ∀ slot ∈ last.held, slot ∈ convention.loans)) ∧
    ∀ (γ : Type) [DecidableEq γ] (inside : γ → Option γ) (caller : Multiset γ)
      (heap : Heap LocalId γ),
      Represents inside convention.loans caller
          (plain (convention.params : Multiset LocalId)) heap →
        heap.Safe inside steps := by
  obtain ⟨fnIndex, name, checked⟩ := checkRc_each accepted _ listed
  have releases := checkFn_sound form checked
  constructor
  · obtain ⟨last, ran, atDone, _⟩ := releases steps outcome runs separate
    exact ⟨last, ran, atDone⟩
  · intro γ _ inside caller heap represents
    exact (releases.heap represents runs separate).1

/-- A definition of one function with one parameter. -/
def single (body : CExpr) : LoweredDef := ⟨[⟨[0], [], body⟩], [], none⟩

/-- Borrow flags that lend the first argument of every call and no other. -/
def lendFirst : CallBorrows := fun _ _ => [true, false]

/-- A call that is lent its caller's parameter and also takes it. -/
def lendAndTake : CExpr :=
  .app (.global ⟨0, 0⟩ .unit) [.loc 0 .unit, .loc 0 .unit] [] .heap .unit

/-- The checker reads the lent operand before it takes the reference of the other one, so it accepts
a call that takes the only reference of the operand it is lent: in the heap where the parameter has
that one reference, the lent cell is freed while the call runs. -/
theorem lendAndTake_accepted_faults :
    checkRc (single lendAndTake) lendFirst = .ok () ∧ Emitted ⟨[0], []⟩ lendAndTake ∧
      Runs lendFirst [] [] lendAndTake [.use [0] [0]] .done ∧
      run [] [.use [0] [0]] (plain (([0] : List LocalId) : Multiset LocalId)) = none ∧
      Represents (fun _ : Nat => none) [] 0 (plain (([0] : List LocalId) : Multiset LocalId))
        ⟨fun _ => 7, {7}⟩ ∧
      ¬ (⟨fun _ => 7, {7}⟩ : Heap LocalId Nat).Safe (fun _ => none) [.use [0] [0]] := by
  refine ⟨by decide, by decide, .op rfl, by decide, ⟨by decide, by simp, by simp [plain]⟩, ?_⟩
  intro safe
  have live : Live (fun _ : Nat => none) (({7} : Multiset Nat) - (([7] : List Nat) : Multiset Nat))
      7 := safe.1.2 0 (by simp)
  have empty : ({7} : Multiset Nat) - (([7] : List Nat) : Multiset Nat) = 0 := by decide
  rw [empty] at live
  cases live with
  | counted present => simp at present
  | within part _ => cases part

/-- The same call with a second reference for the operand it takes. -/
def duplicated : CExpr :=
  .dup 0 (.letIn 1 lendAndTake (.drop 0 (.loc 1 .unit) .unit) .unit) .unit

/-- The whole run of the call with two references is allowed and leaves nothing behind. -/
theorem duplicated_accepted_released :
    checkRc (single duplicated) lendFirst = .ok () ∧
      ∃ last, run [] [.dup 0, .use [0] [0], .bind 1, .drop 0, .use [] [1]]
        (plain (([0] : List LocalId) : Multiset LocalId)) = some last ∧
          (Outcome.done = .done → ∀ slot ∈ last.held, slot ∈ ([] : List LocalId)) := by
  have runs : Runs lendFirst [] [] duplicated
      ([.dup 0] ++ ([.use [0] [0]] ++ ([.bind 1] ++ ([.drop 0] ++ [.use [] [1]])))) .done :=
    .before rfl (.seq rfl (.op rfl) (.before rfl (.op rfl)))
  have separate : Meets [] (Separate [])
      ([.dup 0] ++ ([.use [0] [0]] ++ ([.bind 1] ++ ([.drop 0] ++ [.use [] [1]]))))
      (plain (([0] : List LocalId) : Multiset LocalId)) := by
    refine ⟨trivial, fun afterDup dups => ?_⟩
    rw [step_dup (by decide)] at dups
    cases dups
    refine ⟨⟨by decide, by simp⟩, fun afterCall _ => ⟨trivial, fun afterBind _ =>
      ⟨trivial, fun afterDrop _ => ⟨⟨by simp, by simp⟩, fun _ _ => trivial⟩⟩⟩⟩
  have accepted : checkRc (single duplicated) lendFirst = .ok () := by decide
  have listed : ((⟨[0], []⟩ : Convention), duplicated) ∈ functions (single duplicated) :=
    List.mem_cons_self
  exact ⟨accepted, (checkRc_sound accepted listed (by decide) runs separate).1⟩

end Verify

end Fai
