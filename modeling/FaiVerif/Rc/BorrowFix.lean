import FaiVerif.Core.Eval
import FaiVerif.Rc.BorrowSound
import Mathlib.Algebra.BigOperators.Group.Finset.Basic
import Mathlib.Algebra.Order.BigOperators.Group.Finset

/-!
# Borrow signatures settle

The more a function's callees borrow, the more it borrows. So the demotion loop of one function ends
within one round for each parameter, and the signatures of mutually recursive functions only lose
flags from one iteration to the next, until an iteration changes none.
-/

namespace Fai

namespace Borrow

open Descent

/-! ## More borrowed arguments own fewer parameters -/

/-- States that differ in what is owned only. -/
structure Below (st st' : Analyzer) : Prop where
  /-- The same origins. -/
  origins : st.origins = st'.origins
  /-- The same fields. -/
  field : st.field = st'.field
  /-- The same matches. -/
  matched : st.matched = st'.matched
  /-- The same constructions. -/
  reconstructs : st.reconstructs = st'.reconstructs
  /-- Less is owned. -/
  owned : st.owned ⊆ st'.owned

/-- A context that lends at least what another one lends. -/
structure LendsMore (cx cx' : Context) : Prop where
  /-- The same function. -/
  selfDef : cx.selfDef = cx'.selfDef
  /-- The same parameters. -/
  params : cx.params = cx'.params
  /-- Its own flags. -/
  selfSig : Fewer cx'.selfSig cx.selfSig
  /-- The flags of the other definitions. -/
  signatures : ∀ callee, Fewer (cx'.signatures callee) (cx.signatures callee)

namespace Below

variable {st st' : Analyzer}

/-- A state is below itself. -/
theorem refl (st : Analyzer) : Below st st := ⟨rfl, rfl, rfl, rfl, Finset.Subset.refl _⟩

/-- Origins of values are the same. -/
theorem origin_eq (below : Below st st') : ∀ e : CExpr, st.origin e = st'.origin e
  | .loc slot _ => by
    simp only [Analyzer.origin, below.origins]
  | .dataField base _ _ _ _ => below.origin_eq base
  | .lit _ _ | .global _ _ | .prim _ _ _ | .foreign _ _ _ _ | .app _ _ _ _ _ | .ite _ _ _ _
  | .letIn _ _ _ _ | .spread _ _ | .letMany _ _ _ _ | .makeClosure _ _ _ _
  | .makeData _ _ _ _ _ _ | .dataTag _ _ _ | .reset _ _ _ _ | .freeReuse _ _ _ | .dup _ _ _
  | .drop _ _ _ | .join _ _ _ | .recur _ _ | .holeStart _ _ _ | .holeFill _ _ _ _
  | .holeClose _ _ _ | .error _ => rfl

/-- The field status of values is the same. -/
theorem isField_eq (below : Below st st') (e : CExpr) : st.isField e = st'.isField e := by
  cases e <;> simp only [Analyzer.isField, below.field]

/-- Owning the same parameter. -/
theorem own (below : Below st st') (param : Option LocalId) :
    Below (st.own param) (st'.own param) := by
  cases param with
  | none => exact below
  | some param =>
    exact ⟨below.origins, below.field, below.matched, below.reconstructs,
      Finset.insert_subset_insert _ below.owned⟩

/-- Owning something above only. -/
theorem own_right (below : Below st st') (param : Option LocalId) : Below st (st'.own param) := by
  cases param with
  | none => exact below
  | some param =>
    exact ⟨below.origins, below.field, below.matched, below.reconstructs,
      below.owned.trans (Finset.subset_insert _ _)⟩

/-- Consuming the same value. -/
theorem consume (below : Below st st') (e : CExpr) : Below (st.consume e) (st'.consume e) := by
  unfold Analyzer.consume
  rw [below.origin_eq e]
  exact below.own _

/-- Inspecting the same value. -/
theorem inspect (below : Below st st') (e : CExpr) : Below (st.inspect e) (st'.inspect e) := by
  unfold Analyzer.inspect
  rw [below.isField_eq e]
  split
  · exact below
  · exact below.consume e

/-- Recording the same match. -/
theorem recordMatch (below : Below st st') (base : CExpr) :
    Below (st.recordMatch base) (st'.recordMatch base) := by
  unfold Analyzer.recordMatch
  rw [below.origin_eq base]
  split
  · refine ⟨below.origins, below.field, ?_, below.reconstructs, below.owned⟩
    simp only [below.matched]
  · exact below

/-- Recording the same construction. -/
theorem rebuild (below : Below st st') (build : Bool) :
    Below (st.rebuild build) (st'.rebuild build) := by
  refine ⟨below.origins, below.field, below.matched, ?_, below.owned⟩
  simp only [Analyzer.rebuild, below.reconstructs]

/-- Naming the same value. -/
theorem nameValue (below : Below st st') (slot : LocalId) (value : CExpr) :
    Below (st.nameValue slot value) (st'.nameValue slot value) := by
  cases value with
  | loc other ty =>
    refine ⟨?_, ?_, below.matched, below.reconstructs, below.owned⟩
    · simp only [Analyzer.nameValue, below.origins]
    · simp only [Analyzer.nameValue, below.field]
  | dataField base index scalar niche ty =>
    refine ⟨?_, ?_, below.matched, below.reconstructs, below.owned⟩
    · simp only [Analyzer.nameValue, below.origins, below.origin_eq base]
    · simp only [Analyzer.nameValue, below.field]
  | _ => exact below

/-- Capturing the same slots. -/
theorem captures : ∀ (slots : List LocalId) {st st' : Analyzer}, Below st st' →
    Below (slots.foldl Analyzer.consumeLocal st) (slots.foldl Analyzer.consumeLocal st')
  | [], _, _, below => below
  | slot :: rest, st, st', below => by
    apply captures rest
    unfold Analyzer.consumeLocal
    rw [below.origins]
    exact below.own _

end Below

namespace LendsMore

variable {cx cx' : Context}

/-- A call borrows at least the arguments it borrows when less is lent. -/
theorem callArgBorrows (lends : LendsMore cx cx') (callee : Option DefId) (nargs index : Nat)
    (flag : (cx'.callArgBorrows callee nargs).getD index false = true) :
    (cx.callArgBorrows callee nargs).getD index false = true := by
  cases callee with
  | none => exact flag
  | some callee =>
    simp only [Context.callArgBorrows] at flag ⊢
    have fewer : Fewer (if callee = cx'.selfDef then cx'.selfSig else cx'.signatures callee)
        (if callee = cx.selfDef then cx.selfSig else cx.signatures callee) := by
      rw [lends.selfDef]
      split
      · exact lends.selfSig
      · exact lends.signatures callee
    generalize (if callee = cx'.selfDef then cx'.selfSig else cx'.signatures callee) = few at *
    generalize (if callee = cx.selfDef then cx.selfSig else cx.signatures callee) = many at *
    have same : BorrowSig.exploitableAt few nargs = BorrowSig.exploitableAt many nargs := by
      simp only [BorrowSig.exploitableAt, fewer.length_eq]
      congr 2
      rw [Bool.eq_iff_iff, List.isEmpty_iff_length_eq_zero, List.isEmpty_iff_length_eq_zero,
        fewer.length_eq]
    rw [same] at flag
    split at flag
    · rename_i saturated
      rw [if_pos saturated]
      exact fewer.getD flag
    · rename_i partly
      rw [if_neg partly]
      exact flag

/-- Self calls are the same. -/
theorem isSelfCall (lends : LendsMore cx cx') (callee : Option DefId) (nargs : Nat) :
    cx.isSelfCall callee nargs = cx'.isSelfCall callee nargs := by
  simp only [Context.isSelfCall, lends.selfDef, lends.selfSig.length_eq]

/-- Passing the same argument. -/
theorem passArg (lends : LendsMore cx cx') (selfTail : Bool) (callee : Option DefId)
    (nargs index : Nat) (arg : CExpr) {st st' : Analyzer} (below : Below st st') :
    Below (cx.passArg selfTail (cx.callArgBorrows callee nargs) index arg st)
      (cx'.passArg selfTail (cx'.callArgBorrows callee nargs) index arg st') := by
  have same : cx.unchanged st index arg = cx'.unchanged st' index arg := by
    simp only [Context.unchanged, lends.params, below.origin_eq arg, below.isField_eq arg]
  unfold Context.passArg
  dsimp only
  rw [same, lends.params]
  cases changed : selfTail && !cx'.unchanged st' index arg with
  | true =>
    simp only [↓reduceIte, Bool.true_or]
    exact (below.own _).consume arg
  | false =>
    simp only [Bool.false_eq_true, ↓reduceIte, Bool.false_or]
    cases flag : (cx'.callArgBorrows callee nargs).getD index false with
    | true =>
      rw [lends.callArgBorrows callee nargs index flag]
      exact below
    | false =>
      split
      · exact below.consume arg
      · exact below.own_right _

end LendsMore

mutual

/-- A scan that lends more owns less. -/
theorem scan_below {cx cx' : Context} (lends : LendsMore cx cx') : ∀ (e : CExpr) (tail : Bool)
    {st st' : Analyzer}, Below st st' → Below (scan cx e tail st) (scan cx' e tail st')
  | .loc slot ty, tail, st, st', below => by
    unfold scan
    split
    · exact below.consume _
    · exact below
  | .letIn slot value body ty, tail, st, st', below =>
    scan_below lends body tail (scan_below lends value false (below.nameValue slot value))
  | .letMany slots value body ty, tail, st, st', below =>
    scan_below lends body tail (scan_below lends value false below)
  | .ite cond yes no ty, tail, st, st', below =>
    scan_below lends no tail (scan_below lends yes tail (scan_below lends cond false below))
  | .spread components ty, tail, st, st', below =>
    scanArgs_below lends (fun _ arg _ _ below => below.consume arg) components 0 below
  | .prim op args ty, tail, st, st', below => by
    have before : Below ((match args with
        | array :: _ => if matchesArray op then st.recordMatch array else st
        | [] => st).rebuild (buildsArray op)) ((match args with
        | array :: _ => if matchesArray op then st'.recordMatch array else st'
        | [] => st').rebuild (buildsArray op)) := by
      cases args with
      | nil => exact below.rebuild _
      | cons array rest =>
        cases matchesArray op with
        | false => exact below.rebuild _
        | true => exact (below.recordMatch array).rebuild _
    refine scanArgs_below lends (fun index arg st st' below => ?_) args 0 before
    split
    · exact below
    · exact below.inspect arg
  | .foreign symbol args marshalled ty, tail, st, st', below =>
    scanArgs_below lends (fun _ arg _ _ below => below.inspect arg) args 0 below
  | .makeData tag args reuse scalars niche ty, tail, st, st', below =>
    scanArgs_below lends (fun _ arg _ _ below => below.consume arg) args 0 (below.rebuild _)
  | .makeClosure func captures alloc ty, tail, st, st', below => Below.captures captures below
  | .app func args reuse alloc ty, tail, st, st', below => by
    unfold scan
    dsimp only
    rw [lends.isSelfCall]
    exact scanArgs_below lends (fun index arg _ _ below =>
      lends.passArg _ _ _ index arg below) args 0
      ((scan_below lends func false below).consume func)
  | .dataTag base niche ty, tail, st, st', below =>
    scan_below lends base false (below.recordMatch base)
  | .dataField base index scalar niche ty, tail, st, st', below =>
    scan_below lends base false (below.recordMatch base)
  | .lit _ _, _, _, _, below | .global _ _, _, _, _, below | .error _, _, _, _, below
  | .reset _ _ _ _, _, _, _, below | .freeReuse _ _ _, _, _, _, below | .dup _ _ _, _, _, _, below
  | .drop _ _ _, _, _, _, below | .join _ _ _, _, _, _, below | .recur _ _, _, _, _, below
  | .holeStart _ _ _, _, _, _, below | .holeFill _ _ _ _, _, _, _, below
  | .holeClose _ _ _, _, _, _, below => below

/-- A scan of operands that lends more owns less. -/
theorem scanArgs_below {cx cx' : Context} (lends : LendsMore cx cx')
    {act act' : Nat → CExpr → Analyzer → Analyzer}
    (acts : ∀ index arg (st st' : Analyzer), Below st st' →
      Below (act index arg st) (act' index arg st')) :
    ∀ (args : List CExpr) (index : Nat) {st st' : Analyzer}, Below st st' →
      Below (scanArgs cx act args index st) (scanArgs cx' act' args index st')
  | [], _, _, _, below => below
  | arg :: rest, index, _, _, below =>
    scanArgs_below lends acts rest (index + 1)
      (acts index arg _ _ (scan_below lends arg false below))

end

/-! ## The demotion loop -/

/-- Flags of a position by position condition. -/
theorem fewer_zipWith {keep keep' : LocalId → Bool}
    (weaker : ∀ param, keep param = true → keep' param = true) {few many : List Bool}
    (fewer : Fewer few many) : ∀ params : List LocalId,
      Fewer (List.zipWith (fun flag param => flag && keep param) few params)
        (List.zipWith (fun flag param => flag && keep' param) many params) := by
  induction fewer with
  | nil => exact fun _ => .nil
  | cons head _ inductionHypothesis =>
    intro params
    cases params with
    | nil => exact .nil
    | cons param rest =>
      refine .cons (fun flag => ?_) (inductionHypothesis rest)
      rw [Bool.and_eq_true] at flag ⊢
      exact ⟨head flag.1, weaker param flag.2⟩

/-- Facts that own less demote less. -/
theorem demotes_below {facts facts' : Analyzer} (below : Below facts facts') (param : LocalId)
    (demoted : demotes facts param = true) : demotes facts' param = true := by
  simp only [demotes, Bool.or_eq_true, Bool.and_eq_true, decide_eq_true_eq] at demoted ⊢
  rw [← below.matched, ← below.reconstructs]
  exact demoted.imp_left fun owned => below.owned owned

/-- A round that lends more demotes less. -/
theorem demoteRound_fewer {cx cx' : Context} (lends : LendsMore cx cx') (body : CExpr) :
    Fewer (demoteRound cx' body) (demoteRound cx body) := by
  unfold demoteRound
  rw [lends.params]
  refine fewer_zipWith (fun param kept => ?_) lends.selfSig cx'.params
  have start : Below (entryState cx.params) (entryState cx'.params) := by
    rw [lends.params]
    exact .refl _
  have below : Below (analyze cx body) (analyze cx' body) := scan_below lends body true start
  rw [Bool.not_eq_true'] at kept ⊢
  by_contra demoted
  rw [Bool.not_eq_false] at demoted
  rw [demotes_below below param demoted] at kept
  cases kept

/-- Keeping some flags loses the others. -/
theorem zipWith_lowers (keep : LocalId → Bool) : ∀ (sig : BorrowSig) (params : List LocalId),
    sig.length = params.length →
      Fewer (List.zipWith (fun flag param => flag && keep param) sig params) sig
  | [], _, _ => by
    rw [List.zipWith_nil_left]
    exact .nil
  | _ :: _, [], sameLength => by cases sameLength
  | flag :: rest, param :: params, sameLength => by
    refine .cons (fun both => ?_) (zipWith_lowers keep rest params (Nat.succ.inj sameLength))
    rw [Bool.and_eq_true] at both
    exact both.1

/-- A flag that every position keeps is kept. -/
theorem keep_of_zipWith_eq {keep : LocalId → Bool} : ∀ {sig : BorrowSig} {params : List LocalId},
    List.zipWith (fun flag param => flag && keep param) sig params = sig →
      ∀ {index : Nat} {param : LocalId}, sig.getD index false = true →
        params[index]? = some param → keep param = true
  | [], _, _, index, _, flag, _ => by simp at flag
  | _ :: _, [], fixed, _, _, _, _ => by simp at fixed
  | head :: rest, first :: params, fixed, index, param, flag, isParam => by
    rw [List.zipWith_cons_cons, List.cons.injEq] at fixed
    cases index with
    | zero =>
      have set : head = true := flag
      rw [List.getElem?_cons_zero, Option.some.injEq] at isParam
      rw [set, Bool.true_and, isParam] at fixed
      exact fixed.1
    | succ index => exact keep_of_zipWith_eq fixed.2 flag isParam

section Inference

variable {signatures : DefId → BorrowSig} {selfDef : DefId} {entry : CoreFn}

/-- A round only demotes. -/
theorem demoteRound_lowers {sig : BorrowSig} (sameLength : sig.length = entry.params.length) :
    Fewer (demoteRound ⟨selfDef, sig, entry.params, signatures⟩ entry.body) sig :=
  zipWith_lowers _ sig entry.params sameLength

/-- The inferred signature has a flag for each parameter. -/
theorem length_infer : (infer signatures selfDef entry).length = entry.params.length := by
  refine @loop_keeps _ _
    (fun sig => demoteRound ⟨selfDef, sig, entry.params, signatures⟩ entry.body)
    (fun sig => sig.length = entry.params.length) ?_ _ _ (List.length_replicate ..)
  exact fun sig sameLength => (demoteRound_lowers sameLength).length_eq.trans sameLength

/-- The demotion loop ends: one more round demotes nothing. -/
theorem infer_fixed : demoteRound ⟨selfDef, infer signatures selfDef entry, entry.params,
    signatures⟩ entry.body = infer signatures selfDef entry := by
  refine @loop_fixed _ _
    (fun sig => demoteRound ⟨selfDef, sig, entry.params, signatures⟩ entry.body)
    (fun sig => sig.length = entry.params.length) ?_ (fun sig => sig.count true) ?_ _ _
    (List.length_replicate ..) ?_
  · exact fun sig sameLength => (demoteRound_lowers sameLength).length_eq.trans sameLength
  · exact fun sig sameLength => (demoteRound_lowers sameLength).eq_or_count_lt
  · rw [List.count_replicate_self]

/-- A parameter the inferred signature borrows is not demoted under it. -/
theorem infer_kept {index : Nat} {param : LocalId}
    (flag : (infer signatures selfDef entry).getD index false = true)
    (isParam : entry.params[index]? = some param) :
    demotes (analyze ⟨selfDef, infer signatures selfDef entry, entry.params, signatures⟩ entry.body)
      param = false := by
  have fixed : demoteRound ⟨selfDef, infer signatures selfDef entry, entry.params, signatures⟩
      entry.body = infer signatures selfDef entry := infer_fixed
  have kept := keep_of_zipWith_eq fixed flag isParam
  rwa [Bool.not_eq_true'] at kept

/-- A function borrows more when its callees do. -/
theorem infer_fewer {fewer : DefId → BorrowSig}
    (below : ∀ callee, Fewer (fewer callee) (signatures callee)) :
    Fewer (infer fewer selfDef entry) (infer signatures selfDef entry) := by
  have monotone : ∀ few many, Fewer few many →
      Fewer (demoteRound ⟨selfDef, few, entry.params, signatures⟩ entry.body)
        (demoteRound ⟨selfDef, many, entry.params, signatures⟩ entry.body) := by
    intro few many less
    exact @demoteRound_fewer ⟨selfDef, many, entry.params, signatures⟩
      ⟨selfDef, few, entry.params, signatures⟩ ⟨rfl, rfl, less, fun _ => .refl _⟩ entry.body
  have kept : Fewer (infer fewer selfDef entry)
      (demoteRound ⟨selfDef, infer fewer selfDef entry, entry.params, signatures⟩ entry.body) := by
    have fixed : demoteRound ⟨selfDef, infer fewer selfDef entry, entry.params, fewer⟩ entry.body =
        infer fewer selfDef entry := infer_fixed
    have lends := @demoteRound_fewer ⟨selfDef, infer fewer selfDef entry, entry.params, signatures⟩
      ⟨selfDef, infer fewer selfDef entry, entry.params, fewer⟩ ⟨rfl, rfl, .refl _, below⟩
      entry.body
    rwa [fixed] at lends
  refine fewer_loop monotone kept _ _ ?_
  have full := Fewer.replicate (infer fewer selfDef entry)
  rwa [length_infer] at full

end Inference

/-! ## Signatures of a module -/

section Module

variable {niche : Ty → Bool}

/-- Owning boundary parameters keeps the order. -/
theorem ownBoundary_fewer {few many : BorrowSig} (fewer : Fewer few many) : ∀ ty : Ty,
    Fewer (ownBoundary niche ty few) (ownBoundary niche ty many) := by
  induction fewer with
  | nil =>
    intro ty
    cases ty <;> exact .nil
  | cons head rest inductionHypothesis =>
    intro ty
    cases ty with
    | arrow from' to' effect =>
      refine .cons (fun flag => ?_) (inductionHypothesis to')
      rw [Bool.and_eq_true] at flag ⊢
      exact ⟨head flag.1, flag.2⟩
    | _ => exact .cons head rest

/-- Owning boundary parameters loses flags only. -/
theorem ownBoundary_lowers : ∀ (sig : BorrowSig) (ty : Ty), Fewer (ownBoundary niche ty sig) sig
  | [], ty => by cases ty <;> exact .nil
  | flag :: rest, ty => by
    cases ty with
    | arrow from' to' effect =>
      refine .cons (fun both => ?_) (ownBoundary_lowers rest to')
      rw [Bool.and_eq_true] at both
      exact both.1
    | _ => exact .refl _

/-- Borrowing one position keeps the order. -/
theorem set_fewer {few many : BorrowSig} (fewer : Fewer few many) : ∀ index : Nat,
    Fewer (few.set index true) (many.set index true) := by
  induction fewer with
  | nil => exact fun _ => .nil
  | cons head rest inductionHypothesis =>
    intro index
    cases index with
    | zero => exact .cons (fun _ => rfl) rest
    | succ index => exact .cons head (inductionHypothesis index)

/-- A signature has a flag for each parameter. -/
theorem length_borrowSignature (signatures : DefId → BorrowSig) (selfDef : DefId)
    (d : Definition) : (borrowSignature niche signatures selfDef d).length =
      d.entry.params.length := by
  have adjusted : ∀ scheme : Option Ty,
      (ownDeclared niche scheme (infer signatures selfDef d.entry)).length =
        d.entry.params.length := by
    intro scheme
    cases scheme with
    | none => exact length_infer
    | some ty => exact (ownBoundary_lowers _ ty).length_eq.trans length_infer
  unfold borrowSignature
  split
  · exact List.length_replicate ..
  · dsimp only
    split
    · rw [List.length_set]
      exact adjusted d.scheme
    · exact adjusted d.scheme

/-- A definition borrows more when its callees do. -/
theorem borrowSignature_fewer {few many : DefId → BorrowSig}
    (below : ∀ callee, Fewer (few callee) (many callee)) (selfDef : DefId) (d : Definition) :
    Fewer (borrowSignature niche few selfDef d) (borrowSignature niche many selfDef d) := by
  have inferred : Fewer (infer few selfDef d.entry) (infer many selfDef d.entry) :=
    infer_fewer below
  have adjusted : ∀ scheme : Option Ty, Fewer
      (ownDeclared niche scheme (infer few selfDef d.entry))
      (ownDeclared niche scheme (infer many selfDef d.entry)) := by
    intro scheme
    cases scheme with
    | none => exact inferred
    | some ty => exact ownBoundary_fewer inferred ty
  unfold borrowSignature
  split
  · exact .refl _
  · dsimp only
    split
    · exact set_fewer (adjusted d.scheme) _
    · exact adjusted d.scheme

/-- The iterations of the query cycle from the optimistic start, without the recovery bound. -/
def iterations (niche : Ty → Bool) (program : Program) : Nat → DefId → BorrowSig
  | 0 => initial program
  | count + 1 => query niche program (iterations niche program count)

/-- An iteration only demotes. -/
theorem iterations_lower (program : Program) : ∀ (count : Nat) (callee : DefId),
    Fewer (iterations niche program (count + 1) callee) (iterations niche program count callee)
  | 0, callee => by
    show Fewer (query niche program (initial program) callee) (initial program callee)
    unfold query initial
    split
    · rename_i d isDefined
      have full := Fewer.replicate
        (borrowSignature niche (initial program) callee d)
      rw [length_borrowSignature] at full
      exact full
    · exact .nil
  | count + 1, callee => by
    show Fewer (query niche program (iterations niche program (count + 1)) callee)
      (query niche program (iterations niche program count) callee)
    unfold query
    split
    · exact borrowSignature_fewer (iterations_lower program count) callee _
    · exact .nil

/-- A definition that does not exist has no flags. -/
theorem iterations_of_none {program : Program} {callee : DefId} (missing : program callee = none) :
    ∀ count : Nat, iterations niche program count callee = []
  | 0 => by simp only [iterations, initial, missing]
  | count + 1 => by simp only [iterations, query, missing]

/-- The query cycle settles for every call graph: among finitely many definitions, an iteration no
later than the number of their parameters changes nothing. -/
theorem iterations_settle (program : Program) (defs : Finset DefId)
    (finite : ∀ callee ∉ defs, program callee = none) :
    ∃ count ≤ ∑ callee ∈ defs, (initial program callee).count true,
      iterations niche program (count + 1) = iterations niche program count := by
  refine sequence_settles (fun signatures => ∑ callee ∈ defs, (signatures callee).count true)
    (iterations niche program) fun count => ?_
  have lower := @iterations_lower niche program count
  by_cases same : iterations niche program (count + 1) = iterations niche program count
  · exact .inl same
  · right
    obtain ⟨callee, differs⟩ := Function.ne_iff.mp same
    have listed : callee ∈ defs := by
      by_contra outside
      rcases (lower callee).eq_or_count_lt with equal | less
      · exact differs equal
      · rw [iterations_of_none (finite callee outside) count] at less
        simp at less
    refine Finset.sum_lt_sum (fun other _ => ?_) ⟨callee, listed, ?_⟩
    · rcases (lower other).eq_or_count_lt with equal | less
      · rw [equal]
      · exact Nat.le_of_lt less
    · exact (lower callee).eq_or_count_lt.resolve_left differs

/-! ## What a borrowed parameter is used for -/

/-- Signatures the query cycle ends with: each is what the recovery function made, at some
iteration, of the query under the final signatures. -/
def Settled (niche : Ty → Bool) (program : Program) (signatures : DefId → BorrowSig) : Prop :=
  ∀ callee, ∃ iteration,
    signatures callee = recover iteration (query niche program signatures callee)

/-- A use that lends: a part is read, or an argument goes to a borrowed position, and in a tail call
of the function itself it is the unchanged parameter of that position. -/
def Lent (cx : Context) (use : Use) : Prop :=
  match use.way with
  | .returned | .stored | .captured | .called => False
  | .operand => use.part = true
  | .passed callee nargs index tail =>
    (cx.callArgBorrows callee nargs).getD index false = true ∧
      ((tail && cx.isSelfCall callee nargs) = true →
        cx.params[index]? = some use.param ∧ use.part = false)

/-- A use that is not retained lends. -/
theorem lent_of_not_retained {cx : Context} {use : Use} (free : ¬ Retained cx use) :
    Lent cx use := by
  obtain ⟨way, param, part⟩ := use
  cases way with
  | returned | stored | captured | called => exact absurd trivial free
  | operand =>
    have notWhole : ¬ part = false := free
    show part = true
    simpa using notWhole
  | passed callee nargs index tail =>
    have free : ¬ ((cx.callArgBorrows callee nargs).getD index false = false ∨
        (tail && cx.isSelfCall callee nargs) = true ∧
          ¬ (cx.params[index]? = some param ∧ part = false)) := free
    rw [not_or, Bool.not_eq_false, not_and, not_not] at free
    exact free

/-- The parameters of the body at entry are tracked by the analysis. -/
theorem tracks_entry {root : Sources} {entry : CoreFn} (rooted : Rooted root entry) :
    Tracks root (entrySources entry.params) (entryState entry.params) := by
  refine ⟨⟨fun slot param found => ?_, fun slot member => absurd member (Finset.notMem_empty slot)⟩,
    fun slot param part found => ?_⟩
  · simp only [entryState, Option.ite_none_right_eq_some, Option.some.injEq] at found
    exact ⟨false, found.2 ▸ rooted.params slot found.1⟩
  · unfold entrySources at found
    split at found
    · rename_i isParam
      cases found
      exact ⟨rooted.params slot isParam, if_pos isParam, fun isPart => by cases isPart⟩
    · cases found

/-- A parameter the inferred signature borrows is only lent. -/
theorem infer_lent {signatures : DefId → BorrowSig} {selfDef : DefId} {entry : CoreFn}
    {root : Sources} (rooted : Rooted root entry) {index : Nat} {param : LocalId}
    (flag : (infer signatures selfDef entry).getD index false = true)
    (isParam : entry.params[index]? = some param) :
    ∀ use ∈ uses always entry.body (entrySources entry.params) true, use.param = param →
      Lent ⟨selfDef, infer signatures selfDef entry, entry.params, signatures⟩ use := by
  intro use member same
  apply lent_of_not_retained
  intro retained
  have owned := uses_owned _ entry.body _ true _ rooted.bindings (tracks_entry rooted) use member
    retained
  have kept := @infer_kept signatures selfDef entry index param flag isParam
  rw [demotes, Bool.or_eq_false_iff, decide_eq_false_iff_not] at kept
  rw [same] at owned
  exact kept.1 owned

/-- All-owned signatures have no flag. -/
theorem getD_owned (count index : Nat) : (List.replicate count false).getD index false = false := by
  induction count generalizing index with
  | zero => rfl
  | succ count inductionHypothesis =>
    cases index with
    | zero => rfl
    | succ index => exact inductionHypothesis index

/-- A returned flag is an inferred one or the root of a planned scan. -/
theorem borrowSignature_flag {signatures : DefId → BorrowSig} {selfDef : DefId} {d : Definition}
    {index : Nat} (flag : (borrowSignature niche signatures selfDef d).getD index false = true) :
    (infer signatures selfDef d.entry).getD index false = true ∨
      ∃ found, plan selfDef d.scheme d.entry = some found ∧
        index = d.entry.params.idxOf found.root := by
  have adjusted : ∀ scheme : Option Ty,
      (ownDeclared niche scheme (infer signatures selfDef d.entry)).getD index false = true →
        (infer signatures selfDef d.entry).getD index false = true := by
    intro scheme flag
    cases scheme with
    | none => exact flag
    | some ty => exact (ownBoundary_lowers _ ty).getD flag
  unfold borrowSignature at flag
  split at flag
  · rw [getD_owned] at flag
    cases flag
  · dsimp only at flag
    split at flag
    · rename_i found planned
      by_cases same : index = d.entry.params.idxOf found.root
      · exact .inr ⟨found, planned, same⟩
      · left
        apply adjusted d.scheme
        rwa [List.getD_eq_getElem?_getD, List.getElem?_set_ne (Ne.symm same),
          ← List.getD_eq_getElem?_getD] at flag
    · exact .inl (adjusted d.scheme flag)

/-- Borrow inference. The demotion loop of every definition ends in a signature under which the scan
demotes nothing more, and the query cycle of every finite program settles. Where the bindings of a
slot agree, a parameter that the returned signature borrows is only lent by the body under the
signature so inferred, or is the root of a planned scan of a scalar list, and then it and its tails
are only carried on in the tail call at that same position. -/
theorem borrowSignature_lends {program : Program} {signatures : DefId → BorrowSig}
    (settled : Settled niche program signatures) {selfDef : DefId} {d : Definition}
    (defined : program selfDef = some d) :
    demoteRound ⟨selfDef, infer signatures selfDef d.entry, d.entry.params, signatures⟩
        d.entry.body = infer signatures selfDef d.entry ∧
      (∀ defs : Finset DefId, (∀ callee ∉ defs, program callee = none) →
        ∃ count ≤ ∑ callee ∈ defs, (initial program callee).count true,
          iterations niche program (count + 1) = iterations niche program count) ∧
      ∀ root, Rooted root d.entry → ∀ index param, (signatures selfDef).isBorrowed index = true →
        d.entry.params[index]? = some param →
          (∀ use ∈ uses always d.entry.body (entrySources d.entry.params) true, use.param = param →
            Lent ⟨selfDef, infer signatures selfDef d.entry, d.entry.params, signatures⟩ use) ∨
          ((∃ found, plan selfDef d.scheme d.entry = some found ∧ found.root = param) ∧
            ∀ use ∈ uses tails d.entry.body
                (Function.update (fun _ => none) param (some (param, false))) true,
              use.way = carriedOn selfDef index d.entry.params.length) := by
  refine ⟨infer_fixed, iterations_settle program,
    fun root rooted index param borrowed isParam => ?_⟩
  obtain ⟨iteration, final⟩ := settled selfDef
  simp only [query, defined, recover] at final
  unfold BorrowSig.isBorrowed at borrowed
  rw [final] at borrowed
  split at borrowed
  · rw [getD_owned] at borrowed
    cases borrowed
  · rcases borrowSignature_flag borrowed with flag | ⟨found, planned, rfl⟩
    · exact .inl (infer_lent rooted flag isParam)
    · right
      have isRoot : found.root = param := by
        obtain ⟨inRange, atIndex⟩ := List.getElem?_eq_some_iff.mp isParam
        rw [List.getElem_idxOf inRange] at atIndex
        exact atIndex
      refine ⟨⟨found, planned, isRoot⟩, ?_⟩
      subst isRoot
      exact plan_uses planned

end Module

/-- A recursive scan of a list of integers, `count acc xs`. -/
def countEntry : CoreFn where
  params := [0, 1]
  captures := []
  body := .ite (.prim .eq [.dataTag (.loc 1 .error) none .error, .lit (.int 0) .error] .error)
    (.loc 0 .error)
    (.letIn 2 (.dataField (.loc 1 .error) (.const 0) false none (.con .int))
      (.letIn 3 (.dataField (.loc 1 .error) (.const 1) false none .error)
        (.app (.global ⟨0, 0⟩ .error) [.prim .intAdd [.loc 0 .error, .loc 2 .error] .error,
          .loc 3 .error] [] .heap .error) .error) .error) .error

/-- The definition of `count`, of type `Int -> List Int -> Int`. -/
def countDefinition : Definition where
  entry := countEntry
  evidence := 0
  scheme := some (.arrow (.con .int)
    (.arrow (.app (.con .list) (.con .int)) (.con .int) ⟨[], .closed⟩) ⟨[], .closed⟩)

/-- `firstTwo xs`, a match with the arms `a :: b :: _` and `other`: the second arm stands in both
branches in which the first one fails. -/
def firstTwoEntry : CoreFn where
  params := [0]
  captures := []
  body := .ite (.dataTag (.loc 0 .error) none .error)
    (.letIn 1 (.dataField (.loc 0 .error) (.const 1) false none .error)
      (.ite (.dataTag (.loc 1 .error) none .error)
        (.letIn 2 (.dataField (.loc 0 .error) (.const 0) false none (.con .int))
          (.letIn 3 (.dataField (.loc 1 .error) (.const 0) false none (.con .int))
            (.prim .intAdd [.loc 2 .error, .loc 3 .error] .error) .error) .error)
        (.letIn 4 (.loc 0 .error) (.dataTag (.loc 4 .error) none .error) .error) .error) .error)
    (.letIn 4 (.loc 0 .error) (.dataTag (.loc 4 .error) none .error) .error) .error

/-- The definition of `firstTwo`, of type `List Int -> Int`. -/
def firstTwoDefinition : Definition where
  entry := firstTwoEntry
  evidence := 0
  scheme := some (.arrow (.app (.con .list) (.con .int)) (.con .int) ⟨[], .closed⟩)

/-- The program of `count` and `firstTwo`. -/
def listProgram : Program := fun callee =>
  if callee = ⟨0, 0⟩ then some countDefinition
  else if callee = ⟨0, 1⟩ then some firstTwoDefinition else none

/-- Its signatures. -/
def listSignatures : DefId → BorrowSig := fun callee =>
  if callee = ⟨0, 0⟩ then [false, true] else if callee = ⟨0, 1⟩ then [true] else []

/-- The list of `count` and that of `firstTwo`, which binds a slot in two branches, are only lent,
or they and their tails are only carried on. -/
theorem borrowSignature_lends_lists :
    ((listSignatures ⟨0, 0⟩).isBorrowed 1 = true ∧
      ((∀ use ∈ uses always countEntry.body (entrySources [0, 1]) true, use.param = 1 →
          Lent ⟨⟨0, 0⟩, infer listSignatures ⟨0, 0⟩ countEntry, [0, 1], listSignatures⟩ use) ∨
        (∃ found, plan ⟨0, 0⟩ countDefinition.scheme countEntry = some found ∧ found.root = 1) ∧
          ∀ use ∈ uses tails countEntry.body (Function.update (fun _ => none) 1 (some (1, false)))
              true, use.way = carriedOn ⟨0, 0⟩ 1 2)) ∧
    ((listSignatures ⟨0, 1⟩).isBorrowed 0 = true ∧
      ((∀ use ∈ uses always firstTwoEntry.body (entrySources [0]) true, use.param = 0 →
          Lent ⟨⟨0, 1⟩, infer listSignatures ⟨0, 1⟩ firstTwoEntry, [0], listSignatures⟩ use) ∨
        (∃ found, plan ⟨0, 1⟩ firstTwoDefinition.scheme firstTwoEntry = some found ∧
            found.root = 0) ∧
          ∀ use ∈ uses tails firstTwoEntry.body
              (Function.update (fun _ => none) 0 (some (0, false))) true,
            use.way = carriedOn ⟨0, 1⟩ 0 1)) := by
  have settled : Settled (fun _ => false) listProgram listSignatures := by
    intro callee
    refine ⟨0, ?_⟩
    by_cases isCount : callee = ⟨0, 0⟩
    · subst isCount
      decide +kernel
    · by_cases isFirst : callee = ⟨0, 1⟩
      · subst isFirst
        decide +kernel
      · simp only [listSignatures, query, listProgram, if_neg isCount, if_neg isFirst]
        rfl
  have counts := borrowSignature_lends settled
    (show listProgram ⟨0, 0⟩ = some countDefinition from rfl)
  have firsts := borrowSignature_lends settled
    (show listProgram ⟨0, 1⟩ = some firstTwoDefinition from rfl)
  have countRooted : Rooted (fun slot => if slot = 0 then some (0, false)
      else if slot = 1 then some (1, false) else some (1, true)) countEntry :=
    ⟨by decide, by decide⟩
  have firstRooted : Rooted (fun slot => if slot = 0 ∨ slot = 4 then some (0, false)
      else some (0, true)) firstTwoEntry := ⟨by decide, by decide⟩
  exact ⟨⟨rfl, counts.2.2 _ countRooted 1 1 rfl rfl⟩, rfl, firsts.2.2 _ firstRooted 0 0 rfl rfl⟩

/-- `fun c x -> let y = if c then x else x in [y]`. -/
def choiceEntry : CoreFn where
  params := [0, 1]
  captures := []
  body := .letIn 2 (.ite (.loc 0 .error) (.loc 1 .error) (.loc 1 .error) .error)
    (.makeData 1 [.loc 2 .error, .makeData 0 [] none 0 none .error] none 0 none .error) .error

/-- `fun x -> let y = (let z = x in z) in [y]`. -/
def nestedEntry : CoreFn where
  params := [1]
  captures := []
  body := .letIn 2 (.letIn 3 (.loc 1 .error) (.loc 3 .error) .error)
    (.makeData 1 [.loc 2 .error, .makeData 0 [] none 0 none .error] none 0 none .error) .error

/-- A body that binds one slot to a field of `x` and elsewhere to `x`. -/
def mixedEntry : CoreFn where
  params := [0, 1]
  captures := []
  body := .ite (.loc 0 .error)
    (.letIn 2 (.dataField (.loc 1 .error) (.const 0) false none .error)
      (.foreign 0 [.loc 2 .error] false .error) .error)
    (.letIn 2 (.loc 1 .error) (.foreign 0 [.loc 2 .error] false .error) .error) .error

/-- A machine that keeps what is stored in data. -/
def storing : Eval.Machine (StateM (List Nat)) Nat where
  lit _ := 0
  global _ := pure 0
  prim _ _ := pure 0
  foreign _ _ := pure 0
  apply _ _ _ := pure 0
  test _ := pure true
  closure _ _ _ := pure 0
  data _ _ _ fields _ := modify (· ++ fields) *> pure 0
  tag _ _ := pure 0
  field _ _ _ _ := pure 0
  spread _ := pure 0
  components _ := pure []
  dup _ := pure ()
  drop _ := pure ()
  reset _ := pure 0
  freeReuse _ := pure ()
  loop _ _ := pure 0
  holeStart := pure 0
  holeFill _ _ _ := pure 0
  holeClose _ _ := pure 0
  trap := pure 0

/-- What a body stores when its second parameter holds 7. -/
def stored (entry : CoreFn) : List Nat :=
  (Eval.eval storing entry.body (fun _ => pure 0) (fun slot => if slot = 1 then 7 else 0) []).2

/-- The signature of a function of its own. -/
def alone (entry : CoreFn) : BorrowSig :=
  borrowSignature (fun _ => false) (fun _ => []) ⟨0, 0⟩ ⟨entry, 0, none⟩

/-- The list of a planned scan is borrowed although the scan of the body under the returned
signature demotes it: the signatures are no fixpoint of the analysis. A borrowed parameter is
stored that comes back from a conditional or a nested binding, and handed over whole through a slot
that is bound to a field of it as well. -/
theorem count_borrows_demoted :
    (borrowSignature (fun _ => false) (fun _ => []) ⟨0, 0⟩ countDefinition = [false, true] ∧
      demoteRound ⟨⟨0, 0⟩, [false, true], [0, 1], fun _ => []⟩ countEntry.body = [false, false]) ∧
    (alone choiceEntry = [true, true] ∧ 7 ∈ stored choiceEntry) ∧
    (alone nestedEntry = [true] ∧ 7 ∈ stored nestedEntry) ∧
    alone mixedEntry = [true, true] ∧
      ⟨.operand, 1, false⟩ ∈ uses always mixedEntry.body (entrySources [0, 1]) true := by
  decide +kernel

end Borrow

end Fai
