import FaiVerif.Core.Ir
import FaiVerif.Lib.ControlPath

/-!
# Reference-count events along a control path

A control path of an expression is fixed by the branches it takes. Along a path the expression
performs reference-count operations in order: acquiring and releasing references, turning a dead
cell into a reuse token, building into a token, handing a token to a callee and freeing one.
-/

namespace Fai

/-- One reference-count operation. -/
inductive Event where
  /-- Acquire a reference of a local. -/
  | dup (slot : LocalId)
  /-- Release a reference of a local. -/
  | drop (slot : LocalId)
  /-- Release the last reference of a cell and keep its memory as a token. -/
  | reset (source : Option LocalId) (token : LocalId)
  /-- Build a cell of `fields` fields into the memory of a token. -/
  | build (token : LocalId) (fields : Nat)
  /-- Hand a token to a callee. -/
  | forward (token : LocalId)
  /-- Free the memory of a token. -/
  | free (token : LocalId)
  deriving DecidableEq, Repr

/-- What becomes of the memory a token holds. -/
inductive Fate where
  /-- A cell of the given size was built into it. -/
  | rebuilt (size : Nat)
  /-- It went back to the allocator. -/
  | reclaimed
  /-- The token was null: the cell was shared, so there was no memory to keep. -/
  | absent
  deriving DecidableEq, Repr

namespace Event

/-- `fai_reuse` and `fai_free_reuse` on a token that holds a cell of the given size: a build reuses
memory of exactly its own size and returns any other to the allocator. Sizes are numbers of fields
here, as in the classes of `reuse_sizes`. The runtime compares bytes, eight for each field after a
compact or an extended header, so memory with the other header also goes back: a token has one fate
either way. -/
def fate (cell : Option Nat) : Event → Option Fate
  | build _ fields =>
    some (match cell with
      | none => .absent
      | some size => if size = fields then .rebuilt size else .reclaimed)
  | free _ => some (if cell.isSome then .reclaimed else .absent)
  | dup _ | drop _ | reset _ _ | forward _ => none

/-- The token an operation is about. -/
def token? : Event → Option LocalId
  | reset _ token | build token _ | forward token | free token => some token
  | dup _ | drop _ => none

/-- The reference an operation acquires or releases, a reset counting as a release. -/
def count? : Event → Option (Bool × Option LocalId)
  | dup slot => some (true, some slot)
  | drop slot => some (false, some slot)
  | reset source _ => some (false, source)
  | build _ _ | forward _ | free _ => none

end Event

namespace CExpr

mutual

/-- The operations along the control paths of an expression. -/
def trace : CExpr → ControlPath Event
  | lit _ _ | loc _ _ | global _ _ | makeClosure _ _ _ _ | error _ => ControlPath.emit []
  | prim _ args _ | foreign _ args _ _ | spread args _ | recur args _ => traceList args
  | app func args reuse _ _ =>
    ControlPath.seq func.trace (ControlPath.seq (traceList args)
      (ControlPath.emit ((reuse.filterMap id).map .forward)))
  | ite cond yes no _ => ControlPath.seq cond.trace (ControlPath.branch yes.trace no.trace)
  | letIn _ value body _ | letMany _ value body _ => ControlPath.seq value.trace body.trace
  | makeData _ args reuse _ _ _ =>
    ControlPath.seq (traceList args) (ControlPath.emit (reuse.map (.build · args.length)).toList)
  | dataTag base _ _ | dataField base _ _ _ _ | holeClose _ base _ => base.trace
  | reset value token body _ =>
    ControlPath.seq (ControlPath.seq value.trace (ControlPath.emit [.reset value.asLocal token]))
      body.trace
  | freeReuse token body _ => ControlPath.seq (ControlPath.emit [.free token]) body.trace
  | dup slot body _ => ControlPath.seq (ControlPath.emit [.dup slot]) body.trace
  | drop slot body _ => ControlPath.seq (ControlPath.emit [.drop slot]) body.trace
  | join _ body _ | holeStart _ body _ => body.trace
  | holeFill _ cell _ _ => cell.trace

/-- The operations of operands, in order. -/
def traceList : List CExpr → ControlPath Event
  | [] => ControlPath.emit []
  | head :: tail => ControlPath.seq head.trace (traceList tail)

end

mutual

/-- The expression without its reference-count operations and tokens: what it computes. -/
def strip : CExpr → CExpr
  | lit value ty => lit value ty
  | loc slot ty => loc slot ty
  | global target ty => global target ty
  | prim op args ty => prim op (stripList args) ty
  | foreign symbol args marshalled ty => foreign symbol (stripList args) marshalled ty
  | app func args _ alloc ty => app func.strip (stripList args) [] alloc ty
  | ite cond yes no ty => ite cond.strip yes.strip no.strip ty
  | letIn slot value body ty => letIn slot value.strip body.strip ty
  | spread components ty => spread (stripList components) ty
  | letMany slots value body ty => letMany slots value.strip body.strip ty
  | makeClosure func captures alloc ty => makeClosure func captures alloc ty
  | makeData tag args _ scalars niche ty => makeData tag (stripList args) none scalars niche ty
  | dataTag base niche ty => dataTag base.strip niche ty
  | dataField base index scalar niche ty => dataField base.strip index scalar niche ty
  | reset _ _ body _ | freeReuse _ body _ | dup _ body _ | drop _ body _ => body.strip
  | join params body ty => join params body.strip ty
  | recur args ty => recur (stripList args) ty
  | holeStart hole body ty => holeStart hole body.strip ty
  | holeFill hole cell field ty => holeFill hole cell.strip field ty
  | holeClose hole base ty => holeClose hole base.strip ty
  | error ty => error ty

/-- Operands without their reference-count operations and tokens. -/
def stripList : List CExpr → List CExpr
  | [] => []
  | head :: tail => head.strip :: stripList tail

end

mutual

/-- Whether no node of the tail-call transform occurs. -/
def noTailCall : CExpr → Bool
  | lit _ _ | loc _ _ | global _ _ | makeClosure _ _ _ _ | error _ => true
  | prim _ args _ | foreign _ args _ _ | spread args _ | makeData _ args _ _ _ _ =>
    noTailCallList args
  | app func args _ _ _ => func.noTailCall && noTailCallList args
  | ite cond yes no _ => cond.noTailCall && yes.noTailCall && no.noTailCall
  | letIn _ value body _ | letMany _ value body _ | reset value _ body _ =>
    value.noTailCall && body.noTailCall
  | dataTag base _ _ | dataField base _ _ _ _ => base.noTailCall
  | freeReuse _ body _ | dup _ body _ | drop _ body _ => body.noTailCall
  | join _ _ _ | recur _ _ | holeStart _ _ _ | holeFill _ _ _ _ | holeClose _ _ _ => false

/-- Whether no operand has a node of the tail-call transform. -/
def noTailCallList : List CExpr → Bool
  | [] => true
  | head :: tail => head.noTailCall && noTailCallList tail

end

mutual

/-- Whether every token of an expression is below a bound. -/
def tokensBelow (bound : Nat) : CExpr → Bool
  | lit _ _ | loc _ _ | global _ _ | makeClosure _ _ _ _ | error _ => true
  | prim _ args _ | foreign _ args _ _ | spread args _ | recur args _ =>
    tokensBelowList bound args
  | makeData _ args reuse _ _ _ => tokensBelowList bound args && reuse.all (· < bound)
  | app func args reuse _ _ =>
    func.tokensBelow bound && tokensBelowList bound args &&
      (reuse.filterMap id).all (· < bound)
  | ite cond yes no _ =>
    cond.tokensBelow bound && yes.tokensBelow bound && no.tokensBelow bound
  | letIn _ value body _ | letMany _ value body _ =>
    value.tokensBelow bound && body.tokensBelow bound
  | reset value token body _ =>
    value.tokensBelow bound && decide (token < bound) && body.tokensBelow bound
  | dataTag base _ _ | dataField base _ _ _ _ | holeClose _ base _ => base.tokensBelow bound
  | freeReuse token body _ => decide (token < bound) && body.tokensBelow bound
  | dup _ body _ | drop _ body _ | join _ body _ | holeStart _ body _ => body.tokensBelow bound
  | holeFill _ cell _ _ => cell.tokensBelow bound

/-- Whether every token of the operands is below a bound. -/
def tokensBelowList (bound : Nat) : List CExpr → Bool
  | [] => true
  | head :: tail => head.tokensBelow bound && tokensBelowList bound tail

end

mutual

/-- Every control path can be continued by any decisions. -/
theorem onto_trace : ∀ e : CExpr, ControlPath.Onto e.trace
  | lit _ _ | loc _ _ | global _ _ | makeClosure _ _ _ _ | error _ => ControlPath.onto_emit _
  | prim _ args _ | foreign _ args _ _ | spread args _ | recur args _ => onto_traceList args
  | app func args _ _ _ =>
    ControlPath.onto_seq (onto_trace func)
      (ControlPath.onto_seq (onto_traceList args) (ControlPath.onto_emit _))
  | ite cond _ no _ =>
    ControlPath.onto_seq (onto_trace cond) (ControlPath.onto_branch (onto_trace no))
  | letIn _ value body _ | letMany _ value body _ =>
    ControlPath.onto_seq (onto_trace value) (onto_trace body)
  | makeData _ args _ _ _ _ => ControlPath.onto_seq (onto_traceList args) (ControlPath.onto_emit _)
  | dataTag base _ _ | dataField base _ _ _ _ | holeClose _ base _ => onto_trace base
  | reset value _ body _ =>
    ControlPath.onto_seq (ControlPath.onto_seq (onto_trace value) (ControlPath.onto_emit _))
      (onto_trace body)
  | freeReuse _ body _ | dup _ body _ | drop _ body _ =>
    ControlPath.onto_seq (ControlPath.onto_emit _) (onto_trace body)
  | join _ body _ | holeStart _ body _ => onto_trace body
  | holeFill _ cell _ _ => onto_trace cell

/-- The operands' control paths can be continued by any decisions. -/
theorem onto_traceList : ∀ es : List CExpr, ControlPath.Onto (traceList es)
  | [] => ControlPath.onto_emit _
  | head :: tail => ControlPath.onto_seq (onto_trace head) (onto_traceList tail)

end

end CExpr

/-- The operations about one token, in order. -/
def about (token : LocalId) (events : List Event) : List Event :=
  events.filter fun event => event.token? = some token

/-- The references acquired and released, in order. -/
def counts (events : List Event) : List (Bool × Option LocalId) := events.filterMap Event.count?

/-- Operations about a token of a concatenation. -/
@[simp]
theorem about_append (token : LocalId) (first second : List Event) :
    about token (first ++ second) = about token first ++ about token second :=
  List.filter_append ..

/-- References of a concatenation. -/
@[simp]
theorem counts_append (first second : List Event) :
    counts (first ++ second) = counts first ++ counts second :=
  List.filterMap_append ..

/-- No token from a bound on occurs on any path. -/
def Unused (bound : Nat) (path : ControlPath Event) : Prop :=
  ∀ choices token, bound ≤ token → about token (path choices).1 = []

/-- Operations about other tokens do not count. -/
theorem unused_emit {bound : Nat} {events : List Event}
    (below : ∀ event ∈ events, ∀ token, event.token? = some token → token < bound) :
    Unused bound (ControlPath.emit events) := by
  intro choices token atLeast
  refine List.filter_eq_nil_iff.mpr fun event member isToken => ?_
  have less := below event member token (by simpa using isToken)
  exact absurd less (Nat.not_lt.mpr atLeast)

/-- A sequence uses no token that neither part uses. -/
theorem unused_seq {bound : Nat} {first second : ControlPath Event} (left : Unused bound first)
    (right : Unused bound second) : Unused bound (ControlPath.seq first second) := by
  intro choices token atLeast
  simp only [ControlPath.seq, about_append, left choices token atLeast,
    right (first choices).2 token atLeast, List.append_nil]

/-- A decision uses no token that neither branch uses. -/
theorem unused_branch {bound : Nat} {yes no : ControlPath Event} (left : Unused bound yes)
    (right : Unused bound no) : Unused bound (ControlPath.branch yes no) := by
  intro choices token atLeast
  match choices with
  | true :: rest => exact left rest token atLeast
  | false :: rest => exact right rest token atLeast
  | [] => exact right [] token atLeast

namespace CExpr

mutual

/-- The paths of an expression use only its tokens. -/
theorem unused_trace {bound : Nat} : ∀ e : CExpr, e.tokensBelow bound = true →
    Unused bound e.trace
  | lit _ _, _ | loc _ _, _ | global _ _, _ | makeClosure _ _ _ _, _ | error _, _ =>
    unused_emit (by simp)
  | prim _ args _, below | foreign _ args _ _, below | spread args _, below
  | recur args _, below => unused_traceList args below
  | app func args reuse _ _, below => by
    simp only [tokensBelow, Bool.and_eq_true, List.all_eq_true, decide_eq_true_eq] at below
    refine unused_seq (unused_trace func below.1.1)
      (unused_seq (unused_traceList args below.1.2) (unused_emit ?_))
    intro event member token isToken
    obtain ⟨handed, inReuse, rfl⟩ := List.mem_map.mp member
    cases isToken
    exact below.2 _ inReuse
  | ite cond yes no _, below => by
    simp only [tokensBelow, Bool.and_eq_true] at below
    exact unused_seq (unused_trace cond below.1.1)
      (unused_branch (unused_trace yes below.1.2) (unused_trace no below.2))
  | letIn _ value body _, below | letMany _ value body _, below => by
    simp only [tokensBelow, Bool.and_eq_true] at below
    exact unused_seq (unused_trace value below.1) (unused_trace body below.2)
  | makeData _ args reuse _ _ _, below => by
    simp only [tokensBelow, Bool.and_eq_true] at below
    refine unused_seq (unused_traceList args below.1) (unused_emit ?_)
    intro event member token isToken
    cases reuse with
    | none => simp at member
    | some held =>
      simp only [Option.map_some, Option.toList_some, List.mem_singleton] at member
      subst member
      cases isToken
      simpa using below.2
  | dataTag base _ _, below | dataField base _ _ _ _, below | holeClose _ base _, below =>
    unused_trace base below
  | reset value token body _, below => by
    simp only [tokensBelow, Bool.and_eq_true, decide_eq_true_eq] at below
    refine unused_seq (unused_seq (unused_trace value below.1.1) (unused_emit ?_))
      (unused_trace body below.2)
    intro event member other isToken
    rw [List.mem_singleton.mp member] at isToken
    cases isToken
    exact below.1.2
  | freeReuse token body _, below => by
    simp only [tokensBelow, Bool.and_eq_true, decide_eq_true_eq] at below
    refine unused_seq (unused_emit ?_) (unused_trace body below.2)
    intro event member other isToken
    rw [List.mem_singleton.mp member] at isToken
    cases isToken
    exact below.1
  | dup _ body _, below | drop _ body _, below =>
    unused_seq (unused_emit (by simp [Event.token?])) (unused_trace body below)
  | join _ body _, below | holeStart _ body _, below => unused_trace body below
  | holeFill _ cell _ _, below => unused_trace cell below

/-- The paths of operands use only their tokens. -/
theorem unused_traceList {bound : Nat} : ∀ es : List CExpr, tokensBelowList bound es = true →
    Unused bound (traceList es)
  | [], _ => unused_emit (by simp)
  | head :: tail, below => by
    simp only [tokensBelowList, Bool.and_eq_true] at below
    exact unused_seq (unused_trace head below.1) (unused_traceList tail below.2)

end

mutual

/-- A higher bound holds of the tokens as well. -/
theorem tokensBelow_mono {low high : Nat} (ordered : low ≤ high) :
    ∀ e : CExpr, e.tokensBelow low = true → e.tokensBelow high = true
  | lit _ _, _ | loc _ _, _ | global _ _, _ | makeClosure _ _ _ _, _ | error _, _ => rfl
  | prim _ args _, below | foreign _ args _ _, below | spread args _, below
  | recur args _, below => tokensBelowList_mono ordered args below
  | app func args reuse _ _, below => by
    simp only [tokensBelow, Bool.and_eq_true, List.all_eq_true, decide_eq_true_eq] at below ⊢
    exact ⟨⟨tokensBelow_mono ordered func below.1.1,
      tokensBelowList_mono ordered args below.1.2⟩,
      fun token member => Nat.lt_of_lt_of_le (below.2 token member) ordered⟩
  | ite cond yes no _, below => by
    simp only [tokensBelow, Bool.and_eq_true] at below ⊢
    exact ⟨⟨tokensBelow_mono ordered cond below.1.1, tokensBelow_mono ordered yes below.1.2⟩,
      tokensBelow_mono ordered no below.2⟩
  | letIn _ value body _, below | letMany _ value body _, below => by
    simp only [tokensBelow, Bool.and_eq_true] at below ⊢
    exact ⟨tokensBelow_mono ordered value below.1, tokensBelow_mono ordered body below.2⟩
  | makeData _ args reuse _ _ _, below => by
    simp only [tokensBelow, Bool.and_eq_true] at below ⊢
    refine ⟨tokensBelowList_mono ordered args below.1, ?_⟩
    cases reuse with
    | none => rfl
    | some token =>
      have less : token < low := by simpa using below.2
      simpa using Nat.lt_of_lt_of_le less ordered
  | dataTag base _ _, below | dataField base _ _ _ _, below | holeClose _ base _, below =>
    tokensBelow_mono ordered base below
  | reset value token body _, below => by
    simp only [tokensBelow, Bool.and_eq_true, decide_eq_true_eq] at below ⊢
    exact ⟨⟨tokensBelow_mono ordered value below.1.1, Nat.lt_of_lt_of_le below.1.2 ordered⟩,
      tokensBelow_mono ordered body below.2⟩
  | freeReuse token body _, below => by
    simp only [tokensBelow, Bool.and_eq_true, decide_eq_true_eq] at below ⊢
    exact ⟨Nat.lt_of_lt_of_le below.1 ordered, tokensBelow_mono ordered body below.2⟩
  | dup _ body _, below | drop _ body _, below | join _ body _, below
  | holeStart _ body _, below => tokensBelow_mono ordered body below
  | holeFill _ cell _ _, below => tokensBelow_mono ordered cell below

/-- A higher bound holds of the operands' tokens as well. -/
theorem tokensBelowList_mono {low high : Nat} (ordered : low ≤ high) :
    ∀ es : List CExpr, tokensBelowList low es = true → tokensBelowList high es = true
  | [], _ => rfl
  | head :: tail, below => by
    simp only [tokensBelowList, Bool.and_eq_true] at below ⊢
    exact ⟨tokensBelow_mono ordered head below.1, tokensBelowList_mono ordered tail below.2⟩

end

end CExpr

end Fai
