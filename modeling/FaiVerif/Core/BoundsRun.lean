import FaiVerif.Core.BoundsSound
import Mathlib.Logic.Relation

/-!
# Soundness of the fact engine along an execution

Calls, bindings, branches and entry facts keep the invariant of the engine, and so does every run
of them in any order. The two questions the code generator asks, whether an index is in bounds and
whether an integer is in a range, are therefore answered truthfully for wrapping 64-bit values.
-/

namespace Fai

namespace Bounds

open DiffGraph

/-- A signature whose mapped constraints are true adds only true edges. -/
theorem Sound.addMapped {τ : Type} {env : Env} (term : τ → Option Term)
    (edges : List (τ × τ × Int))
    (holds : ∀ a d c x y, (a, d, c) ∈ edges → term a = some x → term d = some y →
      env.Defined x ∧ env.Defined y ∧ env.value x ≤ env.value y + c)
    {b : Bounds} (sound : Sound b env) : Sound (b.addMapped term edges) env := by
  induction edges generalizing b with
  | nil => exact sound
  | cons edge rest induct =>
    obtain ⟨a, d, c⟩ := edge
    have later := fun a d c x y member => holds a d c x y (List.mem_cons_of_mem _ member)
    simp only [Bounds.addMapped, List.foldl_cons]
    refine induct later ?_
    split
    · rename_i x y readA readD
      obtain ⟨left, right, edge⟩ := holds a d c x y List.mem_cons_self readA readD
      exact sound.addEdge left right edge
    · exact sound

/-- The locals that hold a list of values, by position. -/
theorem bound_at {env : Env} {slots : List LocalId} {args : List Val}
    (bound : List.Forall₂ (fun slot v => env slot = some v) slots args) {i : Nat}
    {slot : LocalId} (at' : slots[i]? = some slot) :
    ∃ v, args[i]? = some v ∧ env slot = some v := by
  induction bound generalizing i with
  | nil => simp at at'
  | cons first rest induct =>
    cases i with
    | zero =>
      simp only [List.getElem?_cons_zero, Option.some.injEq] at at'
      subst at'
      exact ⟨_, rfl, first⟩
    | succ i =>
      simp only [List.getElem?_cons_succ] at at' ⊢
      exact induct at'

/-- The arguments of a call that are locals, by position. -/
theorem supplied_at {env : Env} {slots : List (Option LocalId)} {args : List Val}
    (supplied : Supplied env slots args) {i : Nat} {slot : LocalId}
    (at' : slots[i]?.join = some slot) : ∃ v, args[i]? = some v ∧ env slot = some v := by
  induction supplied generalizing i with
  | nil => simp at at'
  | cons first rest induct =>
    cases i with
    | zero =>
      simp only [List.getElem?_cons_zero, Option.join_some] at at'
      exact ⟨_, rfl, first slot at'⟩
    | succ i =>
      simp only [List.getElem?_cons_succ] at at' ⊢
      exact induct at'

/-- An entry term mapped to a parameter local reads the argument. -/
theorem ptermToTerm_read {env : Env} {params : List LocalId} {args : List Val}
    (bound : List.Forall₂ (fun slot v => env slot = some v) params args) {p : PTerm} {t : Term}
    (mapped : ptermToTerm params p = some t) :
    env.Defined t ∧ p.read args = some (env.value t) := by
  cases p with
  | zero =>
    cases mapped
    exact ⟨env.defined_zero, rfl⟩
  | param i =>
    obtain ⟨slot, found, rfl⟩ := Option.map_eq_some_iff.mp mapped
    obtain ⟨v, arg, holds⟩ := bound_at bound found
    exact ⟨Env.defined_int holds, by
      simp only [PTerm.read, arg, Option.map_some, Env.value_int holds]⟩
  | lenParam i =>
    obtain ⟨slot, found, rfl⟩ := Option.map_eq_some_iff.mp mapped
    obtain ⟨v, arg, holds⟩ := bound_at bound found
    exact ⟨Env.defined_len holds, by
      simp only [PTerm.read, arg, Option.map_some, Env.value_len holds]⟩

/-- Seeding true entry facts keeps the invariant. -/
theorem Sound.seedEntry {b : Bounds} {env : Env} (sound : Sound b env) {sig : BoundSig}
    {params : List LocalId} {args : List Val}
    (bound : List.Forall₂ (fun slot v => env slot = some v) params args)
    (holds : sig.Holds args) : Sound (b.seedEntry sig params) env := by
  refine Sound.addMapped _ _ (fun a d c x y member readA readD => ?_) sound
  obtain ⟨left, valueA⟩ := ptermToTerm_read bound readA
  obtain ⟨right, valueD⟩ := ptermToTerm_read bound readD
  exact ⟨left, right, holds a d c _ _ member valueA valueD⟩

/-- A result term mapped to a projected component reads the call. -/
theorem rtermFieldToTerm_read {env : Env} {slots : List (Option LocalId)} {args : List Val}
    {result v : Val} {slot : LocalId} {k : Nat} (supplied : Supplied env slots args)
    (projected : component result k = some v) (bound : env slot = some v) {r : RTerm} {t : Term}
    (mapped : rtermFieldToTerm r k slot slots = some t) :
    env.Defined t ∧ r.read args result = some (env.value t) := by
  cases r with
  | zero =>
    cases mapped
    exact ⟨env.defined_zero, rfl⟩
  | param i =>
    obtain ⟨name, found, rfl⟩ := Option.map_eq_some_iff.mp mapped
    obtain ⟨w, arg, holds⟩ := supplied_at supplied found
    exact ⟨Env.defined_int holds, by
      simp only [RTerm.read, arg, Option.map_some, Env.value_int holds]⟩
  | lenParam i =>
    obtain ⟨name, found, rfl⟩ := Option.map_eq_some_iff.mp mapped
    obtain ⟨w, arg, holds⟩ := supplied_at supplied found
    exact ⟨Env.defined_len holds, by
      simp only [RTerm.read, arg, Option.map_some, Env.value_len holds]⟩
  | resultVal f =>
    simp only [rtermFieldToTerm] at mapped
    split at mapped
    · rename_i same
      cases mapped
      exact ⟨Env.defined_int bound, by
        simp only [RTerm.read, same, projected, Option.map_some, Env.value_int bound]⟩
    · cases mapped
  | resultLen f =>
    simp only [rtermFieldToTerm] at mapped
    split at mapped
    · rename_i same
      cases mapped
      exact ⟨Env.defined_len bound, by
        simp only [RTerm.read, same, projected, Option.map_some, Env.value_len bound]⟩
    · cases mapped

/-- The facts of one component of a call result keep the invariant. -/
theorem Sound.addComponent {b : Bounds} {env : Env} (sound : Sound b env)
    {slots : List (Option LocalId)} {args : List Val} {result v : Val} {slot : LocalId} {k : Nat}
    {sig : ResultSig} (supplied : Supplied env slots args)
    (projected : component result k = some v) (bound : env slot = some v)
    (holds : sig.Holds args result) :
    Sound (b.addMapped (rtermFieldToTerm · k slot slots) sig.edges) env := by
  refine Sound.addMapped _ _ (fun a d c x y member readA readD => ?_) sound
  obtain ⟨left, valueA⟩ := rtermFieldToTerm_read supplied projected bound readA
  obtain ⟨right, valueD⟩ := rtermFieldToTerm_read supplied projected bound readD
  exact ⟨left, right, holds a d c _ _ member valueA valueD⟩

/-- The evaluated arguments of a call supply its argument locals. -/
theorem supplied_argLocals {env : Env} {args : List CExpr} {operands : List Val}
    (evaluates : List.Forall₂ (EvalAtom env) args operands) :
    Supplied env (argLocals args) operands := by
  induction evaluates with
  | nil => exact .nil
  | @cons arg v args operands first rest induct =>
    refine .cons ?_ induct
    intro name isLocal
    unfold CExpr.asLocal at isLocal
    split at isLocal
    · cases isLocal
      exact first
    · cases isLocal

/-- The result facts of a call keep the invariant. -/
theorem Sound.transferCall {b : Bounds} {env : Env} (sound : Sound b env) {slot : LocalId}
    {sig : ResultSig} {args : List CExpr} {operands : List Val} {result : Val}
    (bound : env slot = some result) (evaluates : List.Forall₂ (EvalAtom env) args operands)
    (holds : sig.Holds operands result) : Sound (b.transferCall slot sig args) env := by
  have supplied := supplied_argLocals evaluates
  have isWhole : component result whole = some result := if_pos rfl
  have facts := sound.addComponent supplied isWhole bound holds
  unfold Bounds.transferCall
  simp only
  split
  · refine { facts with calls := ?_ }
    intro other sig' slots member
    rcases mem_assign member with fresh | kept
    · cases fresh
      exact ⟨result, operands, bound, supplied, holds⟩
    · exact facts.calls other sig' slots kept
  · exact facts

/-- The facts of a projected field of a recorded call result keep the invariant. -/
theorem Sound.transferResultField {b : Bounds} {env : Env} (sound : Sound b env)
    {slot base : LocalId} {k : Nat} {v w : Val} (bound : env slot = some v)
    (holder : env base = some w) (projected : w.field k = some v) :
    Sound (b.transferResultField slot base k) env := by
  unfold Bounds.transferResultField
  split
  · rename_i sig slots found
    obtain ⟨result, args, named, supplied, holds⟩ := sound.calls base sig slots
      (mem_of_lookup found)
    rw [holder] at named
    cases named
    have notWhole : k ≠ whole := by
      rintro rfl
      unfold Val.field at projected
      split at projected
      · rw [if_neg (Nat.lt_irrefl _)] at projected
        cases projected
      · cases projected
    have isField : component w k = some v := by rw [component, if_neg notWhole, projected]
    exact sound.addComponent supplied isField bound holds
  · exact sound

/-- A result term mapped to a split result reads the call. -/
theorem rtermManyToTerm_read {env : Env} {slots : List LocalId} {names : List (Option LocalId)}
    {args fields : List Val} (supplied : Supplied env names args)
    (bound : List.Forall₂ (fun slot v => env slot = some v) slots fields)
    (few : fields.length ≤ whole) {r : RTerm} {t : Term}
    (mapped : rtermManyToTerm slots names r = some t) :
    env.Defined t ∧ r.read args (.data fields) = some (env.value t) := by
  have isField : ∀ f v, fields[f]? = some v → component (.data fields) f = some v := by
    intro f v found
    have inside : f < fields.length := (List.getElem?_eq_some_iff.mp found).1
    have below : f < whole := Nat.lt_of_lt_of_le inside few
    rw [component, if_neg (Nat.ne_of_lt below)]
    simp only [Val.field, if_pos below, found]
  cases r with
  | zero =>
    cases mapped
    exact ⟨env.defined_zero, rfl⟩
  | param i =>
    obtain ⟨name, found, rfl⟩ := Option.map_eq_some_iff.mp mapped
    obtain ⟨w, arg, holds⟩ := supplied_at supplied found
    exact ⟨Env.defined_int holds, by
      simp only [RTerm.read, arg, Option.map_some, Env.value_int holds]⟩
  | lenParam i =>
    obtain ⟨name, found, rfl⟩ := Option.map_eq_some_iff.mp mapped
    obtain ⟨w, arg, holds⟩ := supplied_at supplied found
    exact ⟨Env.defined_len holds, by
      simp only [RTerm.read, arg, Option.map_some, Env.value_len holds]⟩
  | resultVal f =>
    obtain ⟨name, found, rfl⟩ := Option.map_eq_some_iff.mp mapped
    obtain ⟨w, field, holds⟩ := bound_at bound found
    exact ⟨Env.defined_int holds, by
      simp only [RTerm.read, isField f w field, Option.map_some, Env.value_int holds]⟩
  | resultLen f =>
    obtain ⟨name, found, rfl⟩ := Option.map_eq_some_iff.mp mapped
    obtain ⟨w, field, holds⟩ := bound_at bound found
    exact ⟨Env.defined_len holds, by
      simp only [RTerm.read, isField f w field, Option.map_some, Env.value_len holds]⟩

/-- The tuple facts of a call on its split result keep the invariant. -/
theorem Sound.transferMany {b : Bounds} {env : Env} (sound : Sound b env) {slots : List LocalId}
    {sig : ResultSig} {args : List CExpr} {operands fields : List Val}
    (bound : List.Forall₂ (fun slot v => env slot = some v) slots fields)
    (few : fields.length ≤ whole) (evaluates : List.Forall₂ (EvalAtom env) args operands)
    (holds : sig.Holds operands (.data fields)) : Sound (b.transferMany slots sig args) env := by
  have supplied := supplied_argLocals evaluates
  refine Sound.addMapped _ _ (fun a d c x y member readA readD => ?_) sound
  obtain ⟨left, valueA⟩ := rtermManyToTerm_read supplied bound few readA
  obtain ⟨right, valueD⟩ := rtermManyToTerm_read supplied bound few readD
  exact ⟨left, right, holds a d c _ _ member valueA valueD⟩

/-- The effect of a binding is true of the value bound. -/
theorem Sound.transferLet {b : Bounds} {env : Env} (sound : Sound b env) {slot : LocalId}
    {value : CExpr} {v : Val} (bound : env slot = some v) (evaluates : EvalValue env value v) :
    Sound (b.transferLet slot value) env := by
  unfold EvalValue at evaluates
  unfold Bounds.transferLet
  split
  · rename_i n ty peeled
    rw [peeled] at evaluates
    have literal : v = .int n := evaluates
    refine sound.setConst (Env.defined_int bound) ?_
    rw [Env.value_int bound, literal]
    rfl
  · rename_i x ty peeled
    rw [peeled] at evaluates
    have source : env x = some v := evaluates
    have ints := sound.addEq (c := 0) (Env.defined_int bound) (Env.defined_int source) (by
      rw [Env.value_int bound, Env.value_int source, Int.add_zero])
    exact ints.addEq (Env.defined_len bound) (Env.defined_len source) (by
      rw [Env.value_len bound, Env.value_len source, Int.add_zero])
  · rename_i op args ty peeled
    rw [peeled] at evaluates
    obtain ⟨operands, evaluated, runs⟩ := evaluates
    exact sound.transferPrim bound evaluated runs
  · rename_i base baseTy k scalar niche ty peeled
    rw [peeled] at evaluates
    obtain ⟨w, holder, projected⟩ := evaluates
    exact sound.transferResultField bound holder projected
  · exact sound

/-- A nonnegative term that is not zero may be raised past it. -/
theorem Sound.raiseNe {b : Bounds} {env : Env} (sound : Sound b env) {x : Term}
    (defined : env.Defined x) (nonzero : env.value x ≠ 0) : Sound (b.raiseNe x) env := by
  have zero : env.value .zero = 0 := rfl
  unfold Bounds.raiseNe
  split
  · rename_i entailed
    have lower := sound.entailsLe entailed
    exact sound.addEdge env.defined_zero defined (by omega)
  · exact sound

/-- A nonpositive term that is not zero may be lowered past it. -/
theorem Sound.lowerNe {b : Bounds} {env : Env} (sound : Sound b env) {x : Term}
    (defined : env.Defined x) (nonzero : env.value x ≠ 0) : Sound (b.lowerNe x) env := by
  have zero : env.value .zero = 0 := rfl
  unfold Bounds.lowerNe
  split
  · rename_i entailed
    have upper := sound.entailsLe entailed
    exact sound.addEdge defined env.defined_zero (by omega)
  · exact sound

/-- A disequality with zero moves a known bound past it. -/
theorem Sound.refineNe {b : Bounds} {env : Env} (sound : Sound b env) {lhs rhs : Term}
    (left : env.Defined lhs) (right : env.Defined rhs)
    (differ : lhs = .zero ∨ rhs = .zero → env.value lhs ≠ env.value rhs) :
    Sound (b.refineNe lhs rhs) env := by
  have zero : env.value .zero = 0 := rfl
  unfold Bounds.refineNe
  split
  · have nonzero : env.value rhs ≠ 0 := by
      have apart := differ (.inl rfl)
      omega
    split
    · exact sound
    · exact (sound.raiseNe right nonzero).lowerNe right nonzero
  · have nonzero : env.value lhs ≠ 0 := by
      have apart := differ (.inr rfl)
      omega
    split
    · exact sound
    · exact (sound.raiseNe left nonzero).lowerNe left nonzero
  · exact sound

/-- An edge and the one it implies for a recorded subtraction keep the invariant. -/
theorem Sound.addEdgeSub {b : Bounds} {env : Env} (sound : Sound b env) {origin target : Term}
    {c : Int} (left : env.Defined origin) (right : env.Defined target)
    (edge : env.value origin ≤ env.value target + c) :
    Sound (b.addEdgeSub origin target c) env := by
  have added := sound.addEdge left right edge
  have zero : env.value .zero = 0 := rfl
  unfold Bounds.addEdgeSub
  simp only
  split
  · split
    · rename_i l _ x y found
      obtain ⟨-, definedX, definedY, difference⟩ := added.subs l x y (mem_of_lookup found)
      exact added.addEdge definedX definedY (by omega)
    · exact added
  · split
    · rename_i l _ x y found
      obtain ⟨-, definedX, definedY, difference⟩ := added.subs l x y (mem_of_lookup found)
      exact added.addEdge definedY definedX (by omega)
    · exact added
  · exact added

/-- A weight that fits a machine integer is unchanged by the conversion. -/
theorem toI64_eq {n m : Int} (converted : toI64 n = some m) : m = n := by
  unfold toI64 at converted
  split at converted
  · exact (Option.some.inj converted).symm
  · cases converted

/-- An ordered pair of terms whose gap fits is recorded as an edge. -/
theorem Sound.record {b : Bounds} {env : Env} (sound : Sound b env) {origin target : Term}
    {weight : Int} (left : env.Defined origin) (right : env.Defined target)
    (edge : env.value origin ≤ env.value target + weight) :
    Sound (match toI64 weight with
      | some weight => b.addEdgeSub origin target weight
      | none => b) env := by
  split
  · rename_i small converted
    rw [toI64_eq converted]
    exact sound.addEdgeSub left right edge
  · exact sound

/-- Asserting a comparison with its outcome keeps the invariant. -/
theorem Sound.assertCmp {b : Bounds} {env : Env} (sound : Sound b env) {cond : Cond}
    {outcome : Bool} (left : env.Defined cond.lhs) (right : env.Defined cond.rhs)
    (agrees : cond.Agrees env outcome) (ordered : cond.op ≠ .eq) :
    Sound (b.assertCmp (if outcome then cond.op else negate cond.op) cond.lhs cond.lhsOff
      cond.rhs cond.rhsOff) env := by
  obtain ⟨op, lhs, lhsOff, rhs, rhsOff⟩ := cond
  unfold Bounds.assertCmp Cond.Agrees at *
  simp only at *
  cases op with
  | intLt | intLe | intGt | intGe =>
    cases outcome with
    | true =>
      have holds := of_decide_eq_true agrees.symm
      exact sound.record (by assumption) (by assumption) (by omega)
    | false =>
      have fails := of_decide_eq_false agrees.symm
      exact sound.record (by assumption) (by assumption) (by omega)
  | eq => exact absurd rfl ordered
  | _ => cases outcome <;> exact sound

/-- Refining along the branch an execution takes keeps the invariant. -/
theorem Sound.refine {b : Bounds} {env : Env} (sound : Sound b env) {cond : CExpr} {taken : Bool}
    (decided : EvalAtom env cond (.bool taken)) : Sound (b.refine cond taken) env := by
  unfold Bounds.refine
  split
  · rename_i slot ty
    split
    · rename_i recorded found
      obtain ⟨left, right, outcome, bound, agrees⟩ := sound.conds slot recorded
        (mem_of_lookup found)
      have same : env slot = some (.bool taken) := decided
      rw [same] at bound
      cases bound
      split
      · rename_i isEq
        unfold Cond.Agrees at agrees
        simp only [isEq] at agrees
        obtain ⟨whenTrue, whenFalse⟩ := agrees
        cases taken with
        | true =>
          simp only [if_true, Bounds.assertCmp]
          split
          · rename_i gap converted
            have fits := toI64_eq converted
            have equal := whenTrue rfl
            exact sound.addEq left right (by omega)
          · exact sound
        | false =>
          simp only [Bool.false_eq_true, if_false]
          split
          · rename_i offsets
            refine sound.refineNe left right fun side => ?_
            have differ := whenFalse rfl side
            rw [offsets.1, offsets.2, Int.add_zero, Int.add_zero] at differ
            exact differ
          · exact sound
      · rename_i notEq
        exact sound.assertCmp left right agrees notEq
    · exact sound
  · exact sound

/-- Two graphs with the same entries in another order: the iteration order of the hash maps is
not specified, and may change whenever they are touched. -/
structure Reordered (b b' : Bounds) : Prop where
  /-- The rows are those of the first graph, each with its edges in some order. -/
  edges : ∃ rows, b.edges.Perm rows ∧
    List.Forall₂ (fun old new => old.1 = new.1 ∧ old.2.Perm new.2) rows b'.edges
  /-- The comparisons. -/
  conds : b.conds.Perm b'.conds
  /-- The call results. -/
  callResults : b.callResults.Perm b'.callResults
  /-- The subtractions. -/
  subs : b.subs.Perm b'.subs
  /-- The poison mark. -/
  poisoned : b.poisoned = b'.poisoned

/-- A row of a reordered graph is a row of the first one. -/
theorem Reordered.mem_row {b b' : Bounds} (reordered : Reordered b b') {a : Term}
    {row : List (Term × Int)} (member : (a, row) ∈ b'.edges) :
    ∃ old, (a, old) ∈ b.edges ∧ old.Perm row := by
  obtain ⟨rows, permuted, matched⟩ := reordered.edges
  have inRows : ∃ old, (a, old) ∈ rows ∧ old.Perm row := by
    clear permuted
    generalize b'.edges = news at member matched
    induction matched with
    | nil => cases member
    | @cons old new olds news both rest induct =>
      obtain ⟨k, oldRow⟩ := old
      rcases List.mem_cons.mp member with rfl | later
      · obtain ⟨rfl, perm⟩ := both
        exact ⟨oldRow, List.mem_cons_self, perm⟩
      · obtain ⟨found, inOlds, perm⟩ := induct later
        exact ⟨found, List.mem_cons_of_mem _ inOlds, perm⟩
  obtain ⟨old, inRows, perm⟩ := inRows
  exact ⟨old, permuted.mem_iff.mpr inRows, perm⟩

/-- A property of all edges does not depend on their order. -/
theorem Reordered.every {b b' : Bounds} (reordered : Reordered b b')
    {property : Term → Term → Int → Prop} (every : Every property b.edges) :
    Every property b'.edges := by
  intro a row member t c inRow
  obtain ⟨old, inOld, perm⟩ := reordered.mem_row member
  exact every a old inOld t c (perm.mem_iff.mpr inRow)

/-- A reordered graph has no other terms. -/
theorem Reordered.mem_nodes {b b' : Bounds} (reordered : Reordered b b') {t : Term}
    (member : t ∈ nodes b'.edges) : t ∈ nodes b.edges := by
  obtain ⟨⟨a, row⟩, inEdges, inRow⟩ := List.mem_flatMap.mp member
  obtain ⟨old, inOld, perm⟩ := reordered.mem_row inEdges
  refine List.mem_flatMap.mpr ⟨(a, old), inOld, ?_⟩
  rcases List.mem_cons.mp inRow with isSource | isTarget
  · rw [isSource]
    exact List.mem_cons_self
  · exact List.mem_cons_of_mem _ ((perm.map Prod.fst).mem_iff.mpr isTarget)

/-- Reordering the tables keeps the invariant. -/
theorem Sound.reorder {b b' : Bounds} {env : Env} (sound : Sound b env)
    (reordered : Reordered b b') : Sound b' env where
  sat := reordered.every sound.sat
  capped := reordered.every sound.capped
  defined := fun t member => sound.defined t (reordered.mem_nodes member)
  budget := by
    have fewer : nodeSet b'.edges ⊆ nodeSet b.edges := fun t member =>
      mem_nodeSet.mpr (reordered.mem_nodes (mem_nodeSet.mp member))
    exact Nat.le_trans (Finset.card_le_card fewer) sound.budget
  conds := fun slot cond member => sound.conds slot cond (reordered.conds.mem_iff.mpr member)
  subs := fun slot x y member => sound.subs slot x y (reordered.subs.mem_iff.mpr member)
  calls := fun slot sig slots member =>
    sound.calls slot sig slots (reordered.callResults.mem_iff.mpr member)

/-- One step of the engine along an execution: the execution binds a local, or the engine is told
of a binding, a call, a branch or an entry that the execution has just gone through. -/
inductive Step : Bounds × Env → Bounds × Env → Prop where
  | bind (b : Bounds) (env : Env) (slot : LocalId) (v : Val) (fresh : env slot = none) :
      Step (b, env) (b, env.bind slot v)
  | seedEntry (b : Bounds) (env : Env) (sig : BoundSig) (params : List LocalId)
      (args : List Val) (entered : List.Forall₂ (fun slot v => env slot = some v) params args)
      (holds : sig.Holds args) : Step (b, env) (b.seedEntry sig params, env)
  | transferLet (b : Bounds) (env : Env) (slot : LocalId) (value : CExpr) (v : Val)
      (bound : env slot = some v) (evaluates : EvalValue env value v) :
      Step (b, env) (b.transferLet slot value, env)
  | transferCall (b : Bounds) (env : Env) (slot : LocalId) (sig : ResultSig) (args : List CExpr)
      (operands : List Val) (result : Val) (bound : env slot = some result)
      (evaluates : List.Forall₂ (EvalAtom env) args operands)
      (holds : sig.Holds operands result) :
      Step (b, env) (b.transferCall slot sig args, env)
  | transferMany (b : Bounds) (env : Env) (slots : List LocalId) (sig : ResultSig)
      (args : List CExpr) (operands fields : List Val)
      (bound : List.Forall₂ (fun slot v => env slot = some v) slots fields)
      (few : fields.length ≤ whole) (evaluates : List.Forall₂ (EvalAtom env) args operands)
      (holds : sig.Holds operands (.data fields)) :
      Step (b, env) (b.transferMany slots sig args, env)
  | refine (b : Bounds) (env : Env) (cond : CExpr) (taken : Bool)
      (decided : EvalAtom env cond (.bool taken)) : Step (b, env) (b.refine cond taken, env)
  | reorder (b b' : Bounds) (env : Env) (reordered : Reordered b b') : Step (b, env) (b', env)

/-- Every step keeps the invariant. -/
theorem Step.sound {before after : Bounds × Env} (step : Step before after)
    (sound : Sound before.1 before.2) : Sound after.1 after.2 := by
  cases step with
  | bind b env slot v fresh => exact sound.bind v fresh
  | seedEntry b env sig params args entered holds => exact sound.seedEntry entered holds
  | transferLet b env slot value v bound evaluates => exact sound.transferLet bound evaluates
  | transferCall b env slot sig args operands result bound evaluates holds =>
    exact sound.transferCall bound evaluates holds
  | transferMany b env slots sig args operands fields bound few evaluates holds =>
    exact sound.transferMany bound few evaluates holds
  | refine b env cond taken decided => exact sound.refine decided
  | reorder b b' env reordered => exact sound.reorder reordered

/-- The invariant holds along every run from the empty graph. -/
theorem run_sound {start : Env} {b : Bounds} {env : Env}
    (run : Relation.ReflTransGen Step ({}, start) (b, env)) : Sound b env := by
  have general : ∀ state, Relation.ReflTransGen Step ({}, start) state →
      Sound state.1 state.2 := by
    intro state reached
    induction reached with
    | refl => exact sound_empty start
    | tail earlier step kept => exact step.sound kept
  exact general _ run

/-- An index proved in bounds is in bounds. -/
theorem Sound.indexInBounds {b : Bounds} {env : Env} (sound : Sound b env) {array : LocalId}
    {index : CExpr} {i : Int64} {n : Nat} {fits : n ≤ arrayLenMax}
    (answer : b.indexInBounds array index = true) (evaluates : EvalAtom env index (.int i))
    (holder : env array = some (.array n fits)) : 0 ≤ i.toInt ∧ i.toInt < n := by
  have zero : env.value .zero = 0 := rfl
  have length : env.value (.len array) = (n : Int) := Env.value_len holder
  unfold Bounds.indexInBounds at answer
  split at answer
  · cases answer
  split at answer
  · rename_i slot ty
    have bound : env slot = some (.int i) := evaluates
    have value : env.value (.int slot) = i.toInt := Env.value_int bound
    simp only [Bool.and_eq_true] at answer
    have lower := sound.entailsLe answer.1
    have upper := sound.entailsLe answer.2
    omega
  · rename_i k ty
    have literal : Val.int i = .int k := evaluates
    cases literal
    simp only [Bool.and_eq_true, decide_eq_true_eq] at answer
    obtain ⟨nonneg, entailed⟩ := answer
    obtain ⟨limit, computed, path⟩ := Option.any_eq_true _ _ |>.mp entailed
    obtain ⟨next, added, negated⟩ := Option.bind_eq_some_iff.mp computed
    unfold checkedAdd at added
    unfold checkedNeg at negated
    split at added
    · split at negated
      · cases negated
      · cases added
        cases negated
        have reaches := sound.entailsLe path
        omega
    · cases added
  · cases answer

/-- An integer proved in a range is in that range. -/
theorem Sound.integerInRange {b : Bounds} {env : Env} (sound : Sound b env) {value : CExpr}
    {minimum maximum : Int} {i : Int64} (answer : b.integerInRange value minimum maximum = true)
    (evaluates : EvalAtom env value (.int i)) : minimum ≤ i.toInt ∧ i.toInt ≤ maximum := by
  unfold Bounds.integerInRange at answer
  split at answer
  · cases answer
  split at answer
  · have literal : Val.int i = .int _ := evaluates
    cases literal
    simpa using answer
  · rename_i slot ty
    have bound : env slot = some (.int i) := evaluates
    have reads : env.value (.int slot) = i.toInt := Env.value_int bound
    have inside := sound.interval (.int slot)
    simp only [Bool.and_eq_true, decide_eq_true_eq] at answer
    omega
  · cases answer

/-- Along every execution and in every order of the tables, each recorded edge and each interval
is true of the wrapping 64-bit values, an index answered in bounds is in bounds, and an integer
answered in a range is in that range. -/
theorem facts_true_of_execution {start : Env} {b : Bounds} {env : Env}
    (run : Relation.ReflTransGen Step ({}, start) (b, env)) :
    Every (fun a d c => env.value a ≤ env.value d + c) b.edges ∧
    (∀ t, (b.interval t).1 ≤ env.value t ∧ env.value t ≤ (b.interval t).2) ∧
    (∀ array index i n fits, b.indexInBounds array index = true →
      EvalAtom env index (.int i) → env array = some (.array n fits) →
        0 ≤ i.toInt ∧ i.toInt < n) ∧
    (∀ value minimum maximum i, b.integerInRange value minimum maximum = true →
      EvalAtom env value (.int i) → minimum ≤ i.toInt ∧ i.toInt ≤ maximum) := by
  have sound := run_sound run
  exact ⟨sound.sat, sound.interval,
    fun _ _ _ _ _ answer evaluates holder => sound.indexInBounds answer evaluates holder,
    fun _ _ _ _ answer evaluates => sound.integerInRange answer evaluates⟩

/-- An array of length five in local 0 and the index three in local 1. -/
def guardedStart : Env := fun slot =>
  if slot = 0 then some (.array 5 (by decide)) else if slot = 1 then some (.int 3) else none

/-- The locals after the length and the two guards of the index are computed. -/
def guardedEnd : Env :=
  ((guardedStart.bind 2 (.int 5)).bind 3 (.bool true)).bind 4 (.bool false)

/-- `length a` on local 0. -/
def guardedLength : CExpr := .prim .arrayLength [.loc 0 .error] .error

/-- `i < n` on locals 1 and 2. -/
def upperGuard : CExpr := .prim .intLt [.loc 1 .error, .loc 2 .error] .error

/-- `i < 0` on local 1. -/
def lowerGuard : CExpr := .prim .intLt [.loc 1 .error, .lit (.int 0) .error] .error

/-- The facts of a guarded access: the length, an upper guard taken and a lower guard refuted. -/
def guardedFacts : Bounds :=
  ((((({} : Bounds).transferLet 2 guardedLength).transferLet 3 upperGuard).refine
    (.loc 3 .error) true).transferLet 4 lowerGuard).refine (.loc 4 .error) false

/-- The guarded access is a run of the engine. -/
theorem guarded_run :
    Relation.ReflTransGen Step ({}, guardedStart) (guardedFacts, guardedEnd) := by
  have bound : Relation.ReflTransGen Step ({}, guardedStart) ({}, guardedEnd) :=
    ((Relation.ReflTransGen.refl.tail (.bind _ _ 2 (.int 5) rfl)).tail
      (.bind _ _ 3 (.bool true) rfl)).tail (.bind _ _ 4 (.bool false) rfl)
  have lengthRuns : EvalValue guardedEnd guardedLength (.int 5) :=
    ⟨[.array 5 (by decide)], .cons rfl .nil, .arrayLength 5 _⟩
  have upperRuns : EvalValue guardedEnd upperGuard (.bool true) :=
    ⟨[.int 3, .int 5], .cons rfl (.cons rfl .nil), .intLt 3 5⟩
  have lowerRuns : EvalValue guardedEnd lowerGuard (.bool false) :=
    ⟨[.int 3, .int 0], .cons rfl (.cons rfl .nil), .intLt 3 0⟩
  have measured := bound.tail (.transferLet _ _ 2 guardedLength _ rfl lengthRuns)
  have compared := measured.tail (.transferLet _ _ 3 upperGuard _ rfl upperRuns)
  have below := compared.tail (.refine _ _ (.loc 3 .error) true rfl)
  have again := below.tail (.transferLet _ _ 4 lowerGuard _ rfl lowerRuns)
  exact again.tail (.refine _ _ (.loc 4 .error) false rfl)

/-- On the guarded access the engine elides the check, and the index is in bounds. -/
theorem guarded_index_in_bounds :
    guardedFacts.indexInBounds 0 (.loc 1 .error) = true ∧
      0 ≤ (3 : Int64).toInt ∧ (3 : Int64).toInt < (5 : Nat) := by
  have answer : guardedFacts.indexInBounds 0 (.loc 1 .error) = true := by decide
  exact ⟨answer, (facts_true_of_execution guarded_run).2.2.1 0 (.loc 1 .error) 3 5 (by decide)
    answer rfl rfl⟩

end Bounds

end Fai
