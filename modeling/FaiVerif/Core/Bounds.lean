import FaiVerif.Core.Ir
import FaiVerif.Lib.DiffGraph

/-!
# The bounds-check-elimination fact engine

`fai-core`'s `bounds.rs`: difference constraints `a ≤ b + c` over the constant zero, integer
locals and array lengths, kept as a weighted graph, with the comparisons, two-variable
subtractions and call results that later steps turn into further constraints. Hash maps are
association lists; the order in which the source iterates them is unspecified, and no result
about the engine depends on it. Offsets and weights are the integers a machine word holds.
-/

namespace Fai

/-- `i64::MIN`. -/
def i64Min : Int := -(2 ^ 63)

/-- `i64::MAX`. -/
def i64Max : Int := 2 ^ 63 - 1

/-- `i64::checked_neg` of a machine integer. -/
def checkedNeg (n : Int) : Option Int := if n = i64Min then none else some (-n)

/-- `i64::checked_sub` of machine integers. -/
def checkedSub (n m : Int) : Option Int :=
  if i64Min ≤ n - m ∧ n - m ≤ i64Max then some (n - m) else none

/-- `i64::checked_add` of machine integers. -/
def checkedAdd (n m : Int) : Option Int :=
  if i64Min ≤ n + m ∧ n + m ≤ i64Max then some (n + m) else none

/-- `i64::saturating_add` of machine integers. -/
def saturatingAdd (n m : Int) : Int := max i64Min (min i64Max (n + m))

/-- `i64::try_from` of a wide integer. -/
def toI64 (n : Int) : Option Int := if i64Min ≤ n ∧ n ≤ i64Max then some n else none

namespace Bounds

/-- `TERM_CAP`: the number of distinct terms one graph tracks. -/
def termCap : Nat := 96

/-- `CONST_CAP`: the magnitude beyond which a weight is not recorded. -/
def constCap : Int := 2 ^ 40

/-- `ARRAY_LEN_MAX`: eight-byte slots within a signed-size allocation. -/
def arrayLenMax : Nat := (2 ^ 63 - 1) / 8

/-- `WHOLE`: the field marker of a function's whole result. -/
def whole : Nat := 2 ^ 32 - 1

/-- A symbolic term of the constraint graph. -/
inductive Term where
  | zero
  | int (slot : LocalId)
  | len (slot : LocalId)
  deriving DecidableEq, Repr

/-- A comparison `lhs + lhsOff OP rhs + rhsOff` bound to a boolean local. -/
structure Cond where
  /-- The comparison. -/
  op : Prim
  /-- The left term. -/
  lhs : Term
  /-- The left constant. -/
  lhsOff : Int
  /-- The right term. -/
  rhs : Term
  /-- The right constant. -/
  rhsOff : Int

/-- A parameter-indexed term. -/
inductive PTerm where
  | zero
  | param (index : Nat)
  | lenParam (index : Nat)
  deriving DecidableEq, Repr

/-- An entry-fact signature: constraints over the parameters. -/
structure BoundSig where
  /-- Constraints `a ≤ b + c`. -/
  edges : List (PTerm × PTerm × Int)

/-- A term of a function's result facts. -/
inductive RTerm where
  | zero
  | param (index : Nat)
  | lenParam (index : Nat)
  | resultVal (field : Nat)
  | resultLen (field : Nat)
  deriving DecidableEq, Repr

/-- Whether a result term names a tuple field rather than the whole result. -/
def RTerm.isField : RTerm → Bool
  | resultVal k | resultLen k => k != whole
  | _ => false

/-- A result-fact signature: constraints over result components and parameters. -/
structure ResultSig where
  /-- Constraints `a ≤ b + c`. -/
  edges : List (RTerm × RTerm × Int)

end Bounds

open Bounds DiffGraph in
/-- The constraint set of `Bounds`. -/
structure Bounds where
  /-- `edges[a][b] = c` records `a ≤ b + c`. -/
  edges : Graph Term := []
  /-- Boolean locals bound to a comparison. -/
  conds : List (LocalId × Cond) := []
  /-- Locals bound to a call whose callee has per-field result facts. -/
  callResults : List (LocalId × ResultSig × List (Option LocalId)) := []
  /-- Locals bound to a subtraction of two locals. -/
  subs : List (LocalId × Term × Term) := []
  /-- Set once the term budget is exceeded; the graph then entails nothing. -/
  poisoned : Bool := false

namespace Bounds

open DiffGraph

/-- `term_count`. -/
def termCount (b : Bounds) : Nat := nodeCount b.edges

/-- `has_term`. -/
def hasTerm (b : Bounds) (t : Term) : Bool := t ∈ nodes b.edges

/-- The ends of an edge that are not in the graph yet. -/
def newTerms (b : Bounds) (origin target : Term) : Nat :=
  (if b.hasTerm origin then 0 else 1) + (if b.hasTerm target then 0 else 1)

/-- `add_edge`: record `origin ≤ target + c` unless it is clamped or over budget. -/
def addEdge (b : Bounds) (origin target : Term) (c : Int) : Bounds :=
  if b.poisoned || origin = target then b
  else if ¬(-constCap ≤ c ∧ c ≤ constCap) then b
  else if 0 < b.newTerms origin target ∧ termCap < b.termCount + b.newTerms origin target then
    { b with poisoned := true }
  else { b with edges := tighten origin target c b.edges }

/-- `add_eq`: record `a = d + c`. -/
def addEq (b : Bounds) (a d : Term) (c : Int) : Bounds :=
  let b := b.addEdge a d c
  match checkedNeg c with
  | some negative => b.addEdge d a negative
  | none => b

/-- `set_const`: record `t = n`. -/
def setConst (b : Bounds) (t : Term) (n : Int) : Bounds := b.addEq t .zero n

/-- `set_ge`: record `t ≥ n`. -/
def setGe (b : Bounds) (t : Term) (n : Int) : Bounds :=
  match checkedNeg n with
  | some negative => b.addEdge .zero t negative
  | none => b

/-- `machine_interval`: the values a term can hold. -/
def machineInterval : Term → Int × Int
  | .zero => (0, 0)
  | .int _ => (i64Min, i64Max)
  | .len _ => (0, arrayLenMax)

/-- The terms of the graph with their machine intervals. -/
def machineRanges (b : Bounds) : List (Term × Int × Int) :=
  (nodes b.edges).dedup.map fun t => (t, machineInterval t)

/-- `intervals`: the absolute intervals implied by the graph and the machine limits. -/
def intervals (b : Bounds) : List (Term × Int × Int) :=
  narrowLoop machineInterval b.edges b.machineRanges.length b.machineRanges

/-- The interval of a term, or its machine interval when the graph has no such term. -/
def interval (b : Bounds) (t : Term) : Int × Int := rangeOf machineInterval b.intervals t

/-- `offset_does_not_wrap`. -/
def offsetDoesNotWrap (b : Bounds) (t : Term) (offset : Int) : Bool :=
  offset = 0 ||
    let (lo, hi) := b.interval t
    i64Min ≤ lo + offset && hi + offset ≤ i64Max

/-- `subtraction_does_not_wrap`. -/
def subtractionDoesNotWrap (b : Bounds) (left right : Term) : Bool :=
  let (leftLo, leftHi) := b.interval left
  let (rightLo, rightHi) := b.interval right
  i64Min ≤ leftLo - rightHi && leftHi - rightLo ≤ i64Max

/-- `shortest`: the least weight of a path, by bounded relaxation. -/
def shortest (b : Bounds) (origin target : Term) : Option Int :=
  if origin = target then some 0
  else if b.poisoned then none
  else
    (relaxLoop saturatingAdd i64Max b.edges (b.termCount + 1) [(origin, 0)]).lookup target

/-- `bound`: the tightest known `a ≤ d + c`. -/
def bound (b : Bounds) (a d : Term) : Option Int := b.shortest a d

/-- `entails_le`: whether `a ≤ d + c` is entailed. -/
def entailsLe (b : Bounds) (a d : Term) (c : Int) : Bool :=
  (b.shortest a d).any (· ≤ c)

/-- `entails_nonneg`. -/
def entailsNonneg (b : Bounds) (t : Term) : Bool := b.entailsLe .zero t 0

/-- `entails_lt`. -/
def entailsLt (b : Bounds) (a d : Term) : Bool := b.entailsLe a d (-1)

/-- `integer_in_range`: whether an integer atom is proved inside an inclusive interval. -/
def integerInRange (b : Bounds) (value : CExpr) (minimum maximum : Int) : Bool :=
  if b.poisoned || maximum < minimum then false
  else
    match value with
    | .lit (.int n) _ => minimum ≤ n.toInt && n.toInt ≤ maximum
    | .loc slot _ =>
      b.hasTerm (.int slot) &&
        let (low, high) := b.interval (.int slot)
        low ≤ high && minimum ≤ low && high ≤ maximum
    | _ => false

/-- `index_in_bounds`: whether an index atom is proved inside an array. -/
def indexInBounds (b : Bounds) (array : LocalId) (index : CExpr) : Bool :=
  if b.poisoned then false
  else
    match index with
    | .loc slot _ => b.entailsNonneg (.int slot) && b.entailsLt (.int slot) (.len array)
    | .lit (.int n) _ =>
      0 ≤ n.toInt &&
        ((checkedAdd n.toInt 1).bind checkedNeg).any fun bound =>
          b.entailsLe .zero (.len array) bound
    | _ => false

/-- `peel_rc`: the operation under leading reference-count wrappers. -/
def peelRc : CExpr → CExpr
  | .dup _ body _ | .drop _ body _ | .reset _ _ body _ | .freeReuse _ body _ => peelRc body
  | e => e

/-- `atom_term`: the term of a local or of the literal zero. -/
def atomTerm : CExpr → Option Term
  | .loc slot _ => some (.int slot)
  | .lit (.int n) _ => if n = 0 then some .zero else none
  | _ => none

/-- `atom_term_off`: the term and the constant offset of an atom. -/
def atomTermOff : CExpr → Option (Term × Int)
  | .loc slot _ => some (.int slot, 0)
  | .lit (.int n) _ => some (.zero, n.toInt)
  | _ => none

/-- `negate`: the comparison that holds on the false branch. -/
def negate : Prim → Prim
  | .intLt => .intGe
  | .intLe => .intGt
  | .intGt => .intLe
  | .intGe => .intLt
  | op => op

/-- `transfer_addsub`: an addition or subtraction whose operands cannot wrap. -/
def transferAddsub (b : Bounds) (slot : LocalId) (args : List CExpr) (subtract : Bool) : Bounds :=
  match args with
  | .loc x _ :: .lit (.int k) _ :: _ =>
    match if subtract then checkedNeg k.toInt else some k.toInt with
    | some offset =>
      if b.offsetDoesNotWrap (.int x) offset then b.addEq (.int slot) (.int x) offset else b
    | none => b
  | .lit (.int k) _ :: .loc x _ :: _ =>
    if !subtract && b.offsetDoesNotWrap (.int x) k.toInt then
      b.addEq (.int slot) (.int x) k.toInt
    else b
  | .lit (.int p) _ :: .lit (.int q) _ :: _ =>
    b.setConst (.int slot) (if subtract then p - q else p + q).toInt
  | .loc x _ :: .loc y _ :: _ =>
    if subtract then
      if x = y then b.setConst (.int slot) 0
      else if b.subtractionDoesNotWrap (.int x) (.int y) then
        { b with subs := assign slot (.int x, .int y) b.subs }
      else b
    else b
  | _ => b

/-- `transfer_mask`: a bitwise and with a mask proved nonnegative. -/
def transferMask (b : Bounds) (slot : LocalId) (args : List CExpr) : Bounds :=
  match args with
  | left :: right :: _ =>
    match (atomTerm right).filter (b.entailsNonneg ·) with
    | some m => (b.setGe (.int slot) 0).addEdge (.int slot) m 0
    | none =>
      match (atomTerm left).filter (b.entailsNonneg ·) with
      | some m => (b.setGe (.int slot) 0).addEdge (.int slot) m 0
      | none => b
  | _ => b

/-- `transfer_rem`: a remainder of a dividend proved nonnegative. -/
def transferRem (b : Bounds) (slot : LocalId) (args : List CExpr) : Bounds :=
  match (args.head?.bind atomTerm).filter (b.entailsNonneg ·) with
  | some _ => b.setGe (.int slot) 0
  | none => b

/-- The constraints on the length of a repeated array. -/
def transferRepeat (b : Bounds) (slot : LocalId) (args : List CExpr) : Bounds :=
  let b := b.setGe (.len slot) 0
  match args with
  | .lit (.int count) _ :: _ => b.setConst (.len slot) (max count.toInt 0)
  | .loc count _ :: _ =>
    let b := b.addEdge (.int count) (.len slot) 0
    if b.entailsNonneg (.int count) then b.addEq (.len slot) (.int count) 0 else b
  | _ => b

/-- The operation-specific constraints of `transfer_prim`. -/
def transferOp (b : Bounds) (slot : LocalId) (op : Prim) (args : List CExpr) : Bounds :=
  match op with
  | .intAdd => b.transferAddsub slot args false
  | .intSub => b.transferAddsub slot args true
  | .intAnd => b.transferMask slot args
  | .intRem => b.transferRem slot args
  | .arrayLength =>
    match args with
    | .loc a _ :: _ => (b.addEq (.int slot) (.len a) 0).setGe (.int slot) 0
    | _ => b
  | .arrayWithCapacity => b.setConst (.len slot) 0
  | .arrayRepeat => b.transferRepeat slot args
  | .arrayPush | .arrayPushReserved =>
    let b := match args with
      | .loc a _ :: _ => b.addEq (.len slot) (.len a) 1
      | _ => b
    b.setGe (.len slot) 0
  | .arraySet | .arrayUnique | .arrayPut =>
    match args with
    | .loc a _ :: _ => b.addEq (.len slot) (.len a) 0
    | _ => b
  | .intLt | .intLe | .intGt | .intGe | .eq =>
    match args with
    | lhs :: rhs :: _ =>
      match atomTermOff lhs, atomTermOff rhs with
      | some (l, lo), some (r, ro) => { b with conds := assign slot ⟨op, l, lo, r, ro⟩ b.conds }
      | _, _ => b
    | _ => b
  | _ => b

/-- The facts a checked access establishes once it has succeeded. -/
def transferAccess (b : Bounds) (op : Prim) (args : List CExpr) : Bounds :=
  match op with
  | .arrayGet | .arrayPeek | .arraySet =>
    match args with
    | .loc array _ :: position :: _ =>
      match atomTermOff position with
      | some (index, offset) =>
        let b := b.addEdge .zero index offset
        match (checkedNeg offset).bind (checkedSub · 1) with
        | some upper => b.addEdge index (.len array) upper
        | none => b
      | none => b
    | _ => b
  | _ => b

/-- `transfer_prim`. -/
def transferPrim (b : Bounds) (slot : LocalId) (op : Prim) (args : List CExpr) : Bounds :=
  ((b.transferOp slot op args).transferAccess op args).setGe (.len slot) 0

/-- `rterm_field_to_term`: a result term of tuple field `k`, read at its projection. -/
def rtermFieldToTerm (t : RTerm) (k : Nat) (fieldSlot : LocalId)
    (args : List (Option LocalId)) : Option Term :=
  match t with
  | .zero => some .zero
  | .param i => (args[i]?.join).map .int
  | .lenParam i => (args[i]?.join).map .len
  | .resultVal f => if f = k then some (.int fieldSlot) else none
  | .resultLen f => if f = k then some (.len fieldSlot) else none

/-- `rterm_to_term`: a result term read at the whole result. -/
def rtermToTerm (t : RTerm) (slot : LocalId) (args : List (Option LocalId)) : Option Term :=
  rtermFieldToTerm t whole slot args

/-- Add the constraints of a signature whose two terms both name a local here. -/
def addMapped {τ : Type} (term : τ → Option Term) (b : Bounds) (edges : List (τ × τ × Int)) :
    Bounds :=
  edges.foldl (fun b (a, d, c) =>
    match term a, term d with
    | some a, some d => b.addEdge a d c
    | _, _ => b) b

/-- `transfer_result_field`: the facts of field `k` of a recorded call result. -/
def transferResultField (b : Bounds) (slot base : LocalId) (k : Nat) : Bounds :=
  match b.callResults.lookup base with
  | some (sig, args) => b.addMapped (rtermFieldToTerm · k slot args) sig.edges
  | none => b

/-- `transfer_let`: the effect of a binding on the graph. -/
def transferLet (b : Bounds) (slot : LocalId) (value : CExpr) : Bounds :=
  match peelRc value with
  | .lit (.int n) _ => b.setConst (.int slot) n.toInt
  | .loc x _ => (b.addEq (.int slot) (.int x) 0).addEq (.len slot) (.len x) 0
  | .prim op args _ => b.transferPrim slot op args
  | .dataField (.loc base _) (.const k) _ _ _ => b.transferResultField slot base k
  | _ => b

/-- A nonzero term known to be nonnegative is at least one. -/
def raiseNe (b : Bounds) (x : Term) : Bounds :=
  if b.entailsLe .zero x 0 then b.addEdge .zero x (-1) else b

/-- A nonzero term known to be nonpositive is at most minus one. -/
def lowerNe (b : Bounds) (x : Term) : Bounds :=
  if b.entailsLe x .zero 0 then b.addEdge x .zero (-1) else b

/-- `refine_ne`: a disequality against the constant zero. -/
def refineNe (b : Bounds) (lhs rhs : Term) : Bounds :=
  match lhs, rhs with
  | .zero, x | x, .zero => if x = .zero then b else (b.raiseNe x).lowerNe x
  | _, _ => b

/-- `add_edge_sub`: an edge, and the one it implies for a recorded subtraction. -/
def addEdgeSub (b : Bounds) (origin target : Term) (c : Int) : Bounds :=
  let b := b.addEdge origin target c
  match origin, target with
  | .int l, .zero =>
    match b.subs.lookup l with
    | some (x, y) => b.addEdge x y c
    | none => b
  | .zero, .int l =>
    match b.subs.lookup l with
    | some (x, y) => b.addEdge y x c
    | none => b
  | _, _ => b

/-- `assert_cmp`: the constraint of a comparison that holds. -/
def assertCmp (b : Bounds) (op : Prim) (lhs : Term) (lhsOff : Int) (rhs : Term) (rhsOff : Int) :
    Bounds :=
  let d := rhsOff - lhsOff
  let record (origin target : Term) (weight : Int) : Bounds :=
    match toI64 weight with
    | some weight => b.addEdgeSub origin target weight
    | none => b
  match op with
  | .intLt => record lhs rhs (d - 1)
  | .intLe => record lhs rhs d
  | .intGt => record rhs lhs (-d - 1)
  | .intGe => record rhs lhs (-d)
  | .eq =>
    match toI64 d with
    | some d => b.addEq lhs rhs d
    | none => b
  | _ => b

/-- `refine`: the facts of the taken branch of a conditional. -/
def refine (b : Bounds) (cond : CExpr) (taken : Bool) : Bounds :=
  match cond with
  | .loc c _ =>
    match b.conds.lookup c with
    | some cond =>
      if cond.op = .eq then
        if taken then b.assertCmp .eq cond.lhs cond.lhsOff cond.rhs cond.rhsOff
        else if cond.lhsOff = 0 ∧ cond.rhsOff = 0 then b.refineNe cond.lhs cond.rhs
        else b
      else
        b.assertCmp (if taken then cond.op else negate cond.op) cond.lhs cond.lhsOff cond.rhs
          cond.rhsOff
    | none => b
  | _ => b

/-- `pterm_to_term`. -/
def ptermToTerm (params : List LocalId) : PTerm → Option Term
  | .zero => some .zero
  | .param i => params[i]?.map .int
  | .lenParam i => params[i]?.map .len

/-- `seed_entry`: the entry facts of a definition on its parameter locals. -/
def seedEntry (b : Bounds) (sig : BoundSig) (params : List LocalId) : Bounds :=
  b.addMapped (ptermToTerm params) sig.edges

/-- The argument locals of a call, by position. -/
def argLocals (args : List CExpr) : List (Option LocalId) := args.map CExpr.asLocal

/-- `transfer_call`: the result facts of a saturated call. -/
def transferCall (b : Bounds) (slot : LocalId) (sig : ResultSig) (args : List CExpr) : Bounds :=
  let b := b.addMapped (rtermToTerm · slot (argLocals args)) sig.edges
  if sig.edges.any fun (a, d, _) => a.isField || d.isField then
    { b with callResults := assign slot (sig, argLocals args) b.callResults }
  else b

/-- A result term of a call whose result is split into locals. -/
def rtermManyToTerm (slots : List LocalId) (args : List (Option LocalId)) : RTerm → Option Term
  | .zero => some .zero
  | .param i => (args[i]?.join).map .int
  | .lenParam i => (args[i]?.join).map .len
  | .resultVal f => slots[f]?.map .int
  | .resultLen f => slots[f]?.map .len

/-- `transfer_many`: tuple-result facts on split result locals. -/
def transferMany (b : Bounds) (slots : List LocalId) (sig : ResultSig) (args : List CExpr) :
    Bounds :=
  b.addMapped (rtermManyToTerm slots (argLocals args)) sig.edges

end Bounds

end Fai
