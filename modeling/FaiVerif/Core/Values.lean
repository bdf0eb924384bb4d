import FaiVerif.Core.Bounds
import Mathlib.Data.List.Forall2

/-!
# Values and the operations the fact engine follows

Run-time values as far as the fact engine can tell them apart: machine integers, booleans, arrays
by their length, aggregates by their fields, and everything else. Integer arithmetic wraps at 64
bits. An operation the engine has no rule for may produce any value, and a checked access has a
result only when its index is in bounds.
-/

namespace Fai

open Bounds

/-- A run-time value. -/
inductive Val where
  | int (n : Int64)
  | bool (b : Bool)
  | array (length : Nat) (fits : length ≤ arrayLenMax)
  | data (fields : List Val)
  | other (code : Nat)

namespace Val

/-- The integer a term reads from a value. -/
def intOf : Val → Int
  | int n => n.toInt
  | _ => 0

/-- The array length a term reads from a value. -/
def lenOf : Val → Int
  | array length _ => length
  | _ => 0

/-- Whether a value is a machine integer. -/
def isInt : Val → Bool
  | int _ => true
  | _ => false

/-- A field of an aggregate; field counts are 32-bit, so the last index names no field. -/
def field (v : Val) (index : Nat) : Option Val :=
  match v with
  | data fields => if index < whole then fields[index]? else none
  | _ => none

/-- The integer reading of a value is a machine integer. -/
theorem intOf_range (v : Val) : i64Min ≤ v.intOf ∧ v.intOf ≤ i64Max := by
  cases v with
  | int n =>
    have low := n.le_toInt
    have high := n.toInt_lt
    simp only [intOf, i64Min, i64Max]
    omega
  | _ => simp only [intOf, i64Min, i64Max]; omega

/-- The length reading of a value is within the allocation limit. -/
theorem lenOf_range (v : Val) : 0 ≤ v.lenOf ∧ v.lenOf ≤ arrayLenMax := by
  cases v with
  | array length fits => simp only [lenOf]; omega
  | _ => simp only [lenOf]; omega

end Val

/-- The values of the locals bound so far. -/
abbrev Env := LocalId → Option Val

namespace Env

/-- Bind a local. -/
def bind (env : Env) (slot : LocalId) (v : Val) : Env :=
  fun other => if other = slot then some v else env other

/-- The value of a term. -/
def value (env : Env) : Term → Int
  | .zero => 0
  | .int slot => ((env slot).map Val.intOf).getD 0
  | .len slot => ((env slot).map Val.lenOf).getD 0

/-- Whether the local of a term is bound. -/
def Defined (env : Env) : Term → Prop
  | .zero => True
  | .int slot | .len slot => ∃ v, env slot = some v

/-- The value of an integer term of a bound local. -/
theorem value_int {env : Env} {slot : LocalId} {v : Val} (bound : env slot = some v) :
    env.value (.int slot) = v.intOf := by
  simp only [value, bound, Option.map_some, Option.getD_some]

/-- The value of a length term of a bound local. -/
theorem value_len {env : Env} {slot : LocalId} {v : Val} (bound : env slot = some v) :
    env.value (.len slot) = v.lenOf := by
  simp only [value, bound, Option.map_some, Option.getD_some]

/-- The constant term is always defined. -/
theorem defined_zero (env : Env) : env.Defined .zero := trivial

/-- The integer term of a bound local is defined. -/
theorem defined_int {env : Env} {slot : LocalId} {v : Val} (bound : env slot = some v) :
    env.Defined (.int slot) := ⟨v, bound⟩

/-- The length term of a bound local is defined. -/
theorem defined_len {env : Env} {slot : LocalId} {v : Val} (bound : env slot = some v) :
    env.Defined (.len slot) := ⟨v, bound⟩

/-- Every term lies in its machine interval. -/
theorem value_machine (env : Env) (t : Term) :
    (machineInterval t).1 ≤ env.value t ∧ env.value t ≤ (machineInterval t).2 := by
  cases t with
  | zero => exact ⟨Int.le_refl _, Int.le_refl _⟩
  | int slot =>
    cases bound : env slot with
    | none => simp only [value, bound, Option.map_none, Option.getD_none, machineInterval]; decide
    | some v => rw [value_int bound]; exact v.intOf_range
  | len slot =>
    cases bound : env slot with
    | none => simp only [value, bound, Option.map_none, Option.getD_none, machineInterval]; decide
    | some v => rw [value_len bound]; exact v.lenOf_range

/-- Binding a fresh local changes no defined term. -/
theorem value_bind {env : Env} {slot : LocalId} {v : Val} (fresh : env slot = none) {t : Term}
    (defined : env.Defined t) : (env.bind slot v).value t = env.value t := by
  cases t with
  | zero => rfl
  | int other =>
    obtain ⟨w, bound⟩ := defined
    have apart : other ≠ slot := by rintro rfl; rw [fresh] at bound; cases bound
    simp only [value, bind, if_neg apart]
  | len other =>
    obtain ⟨w, bound⟩ := defined
    have apart : other ≠ slot := by rintro rfl; rw [fresh] at bound; cases bound
    simp only [value, bind, if_neg apart]

/-- Binding a fresh local keeps every earlier binding. -/
theorem bind_bound {env : Env} {slot other : LocalId} {v w : Val} (fresh : env slot = none)
    (bound : env other = some w) : (env.bind slot v) other = some w := by
  have apart : other ≠ slot := by rintro rfl; rw [fresh] at bound; cases bound
  simp only [bind, if_neg apart, bound]

/-- Binding a fresh local keeps every defined term defined. -/
theorem defined_bind {env : Env} {slot : LocalId} {v : Val} (fresh : env slot = none) {t : Term}
    (defined : env.Defined t) : (env.bind slot v).Defined t := by
  cases t with
  | zero => trivial
  | int other => exact ⟨_, bind_bound fresh defined.choose_spec⟩
  | len other => exact ⟨_, bind_bound fresh defined.choose_spec⟩

end Env

/-- The value of an operand: an atom has the value of its literal or local, and an operand that is
no atom may have any. -/
def EvalAtom (env : Env) (operand : CExpr) (v : Val) : Prop :=
  match operand with
  | .lit (.int n) _ => v = .int n
  | .lit (.bool b) _ => v = .bool b
  | .lit _ _ => v.isInt = false
  | .loc slot _ => env slot = some v
  | _ => True

/-- The operations the fact engine has a rule for. -/
def Prim.tracked : Prim → Bool
  | .intAdd | .intSub | .intMul | .intAnd | .intRem | .arrayLength | .arrayWithCapacity
  | .arrayRepeat | .arrayPush | .arrayPushReserved | .arraySet | .arrayUnique | .arrayPut
  | .arrayGet | .arrayPeek | .intLt | .intLe | .intGt | .intGe | .eq => true
  | _ => false

/-- An operation on values that ran to its end. Wrapping arithmetic is that of `Int64`; a
remainder, an access or an allocation that aborts has no result. -/
inductive EvalPrim : Prim → List Val → Val → Prop where
  | intAdd (a b : Int64) : EvalPrim .intAdd [.int a, .int b] (.int (a + b))
  | intSub (a b : Int64) : EvalPrim .intSub [.int a, .int b] (.int (a - b))
  | intMul (a b : Int64) : EvalPrim .intMul [.int a, .int b] (.int (a * b))
  | intAnd (a b : Int64) : EvalPrim .intAnd [.int a, .int b] (.int (a &&& b))
  | intRem (a b : Int64) (divides : b ≠ 0) : EvalPrim .intRem [.int a, .int b] (.int (a % b))
  | arrayLength (n : Nat) (fits : n ≤ arrayLenMax) :
      EvalPrim .arrayLength [.array n fits] (.int (Int64.ofNat n))
  | arrayWithCapacity (capacity : Val) :
      EvalPrim .arrayWithCapacity [capacity] (.array 0 (Nat.zero_le _))
  | arrayRepeat (count : Int64) (element : Val) (fits : count.toInt.toNat ≤ arrayLenMax) :
      EvalPrim .arrayRepeat [.int count, element] (.array count.toInt.toNat fits)
  | arrayPush (n : Nat) (element : Val) (before : n ≤ arrayLenMax) (fits : n + 1 ≤ arrayLenMax) :
      EvalPrim .arrayPush [.array n before, element] (.array (n + 1) fits)
  | arrayPushReserved (n : Nat) (element : Val) (before : n ≤ arrayLenMax)
      (fits : n + 1 ≤ arrayLenMax) :
      EvalPrim .arrayPushReserved [.array n before, element] (.array (n + 1) fits)
  | arraySet (n : Nat) (fits : n ≤ arrayLenMax) (i : Int64) (element : Val)
      (low : 0 ≤ i.toInt) (high : i.toInt < n) :
      EvalPrim .arraySet [.array n fits, .int i, element] (.array n fits)
  | arrayUnique (n : Nat) (fits : n ≤ arrayLenMax) :
      EvalPrim .arrayUnique [.array n fits] (.array n fits)
  | arrayPut (n : Nat) (fits : n ≤ arrayLenMax) (index element : Val) :
      EvalPrim .arrayPut [.array n fits, index, element] (.array n fits)
  | arrayGet (n : Nat) (fits : n ≤ arrayLenMax) (i : Int64) (element : Val)
      (low : 0 ≤ i.toInt) (high : i.toInt < n) :
      EvalPrim .arrayGet [.array n fits, .int i] element
  | arrayPeek (n : Nat) (fits : n ≤ arrayLenMax) (i : Int64) (element : Val)
      (low : 0 ≤ i.toInt) (high : i.toInt < n) :
      EvalPrim .arrayPeek [.array n fits, .int i] element
  | intLt (a b : Int64) : EvalPrim .intLt [.int a, .int b] (.bool (a.toInt < b.toInt))
  | intLe (a b : Int64) : EvalPrim .intLe [.int a, .int b] (.bool (a.toInt ≤ b.toInt))
  | intGt (a b : Int64) : EvalPrim .intGt [.int a, .int b] (.bool (b.toInt < a.toInt))
  | intGe (a b : Int64) : EvalPrim .intGe [.int a, .int b] (.bool (b.toInt ≤ a.toInt))
  | eqInt (a b : Int64) : EvalPrim .eq [.int a, .int b] (.bool (a = b))
  | eqOther (v w : Val) (equal : Bool) (left : v.isInt = false) (right : w.isInt = false) :
      EvalPrim .eq [v, w] (.bool equal)
  | untracked (op : Prim) (args : List Val) (result : Val) (noRule : op.tracked = false) :
      EvalPrim op args result

/-- The value of a bound expression: reference-count wrappers leave the value alone, and forms the
engine learns nothing from may have any. -/
def EvalValue (env : Env) (value : CExpr) (v : Val) : Prop :=
  match peelRc value with
  | .lit n ty => EvalAtom env (.lit n ty) v
  | .loc slot ty => EvalAtom env (.loc slot ty) v
  | .prim op args _ => ∃ operands, List.Forall₂ (EvalAtom env) args operands ∧
      EvalPrim op operands v
  | .dataField (.loc base _) (.const k) _ _ _ => ∃ w, env base = some w ∧ w.field k = some v
  | _ => True

/-- The masked value of a nonnegative mask lies between zero and the mask. -/
theorem mask_range (a m : Int64) (nonnegative : 0 ≤ m.toInt) :
    0 ≤ (a &&& m).toInt ∧ (a &&& m).toInt ≤ m.toInt := by
  have maskSign : m.toBitVec.msb = false := by
    have := BitVec.msb_eq_toInt (x := m.toBitVec)
    rw [this, decide_eq_false_iff_not]
    simpa using nonnegative
  have sign : (a &&& m).toBitVec.msb = false := by
    rw [Int64.toBitVec_and, BitVec.msb_and, maskSign, Bool.and_false]
  have read : (a &&& m).toInt = ((a &&& m).toBitVec.toNat : Int) :=
    BitVec.toInt_eq_toNat_of_msb sign
  have readMask : m.toInt = (m.toBitVec.toNat : Int) := BitVec.toInt_eq_toNat_of_msb maskSign
  have below : (a &&& m).toBitVec.toNat ≤ m.toBitVec.toNat := by
    rw [Int64.toBitVec_and, BitVec.toNat_and]
    exact Nat.and_le_right
  omega

end Fai
