import FaiVerif.Core.Values

/-!
# The invariant of the fact engine

What the engine records is true of the execution it follows: every edge of the graph, every
comparison, subtraction and call result it keeps for later. The invariant holds of the empty
graph and every primitive operation keeps it; shortest paths and intervals only combine true
edges.
-/

namespace Fai

namespace Bounds

open DiffGraph

/-- A recorded comparison agrees with the boolean its local is bound to. Equality of values that
are no integers says nothing of their terms when it fails. -/
def Cond.Agrees (cond : Cond) (env : Env) (outcome : Bool) : Prop :=
  let left := env.value cond.lhs + cond.lhsOff
  let right := env.value cond.rhs + cond.rhsOff
  match cond.op with
  | .intLt => outcome = decide (left < right)
  | .intLe => outcome = decide (left ≤ right)
  | .intGt => outcome = decide (right < left)
  | .intGe => outcome = decide (right ≤ left)
  | .eq => (outcome = true → left = right) ∧
      (outcome = false → cond.lhs = .zero ∨ cond.rhs = .zero → left ≠ right)
  | _ => True

/-- The reading of an entry term on the arguments of a call. -/
def PTerm.read (args : List Val) : PTerm → Option Int
  | .zero => some 0
  | .param i => args[i]?.map Val.intOf
  | .lenParam i => args[i]?.map Val.lenOf

/-- Entry facts hold of the arguments of a call. -/
def BoundSig.Holds (sig : BoundSig) (args : List Val) : Prop :=
  ∀ a d c x y, (a, d, c) ∈ sig.edges → PTerm.read args a = some x → PTerm.read args d = some y →
    x ≤ y + c

/-- The component of a result that a field marker names. -/
def component (result : Val) (field : Nat) : Option Val :=
  if field = whole then some result else result.field field

/-- The reading of a result term on the arguments and the result of a call. -/
def RTerm.read (args : List Val) (result : Val) : RTerm → Option Int
  | .zero => some 0
  | .param i => args[i]?.map Val.intOf
  | .lenParam i => args[i]?.map Val.lenOf
  | .resultVal f => (component result f).map Val.intOf
  | .resultLen f => (component result f).map Val.lenOf

/-- Result facts hold of a call. -/
def ResultSig.Holds (sig : ResultSig) (args : List Val) (result : Val) : Prop :=
  ∀ a d c x y, (a, d, c) ∈ sig.edges → RTerm.read args result a = some x →
    RTerm.read args result d = some y → x ≤ y + c

/-- The arguments of a call, as far as they are locals. -/
def Supplied (env : Env) (slots : List (Option LocalId)) (args : List Val) : Prop :=
  List.Forall₂ (fun slot v => ∀ name, slot = some name → env name = some v) slots args

/-- The invariant of the engine along an execution. -/
structure Sound (b : Bounds) (env : Env) : Prop where
  /-- Every recorded inequality is true. -/
  sat : Sat env.value b.edges
  /-- Every weight is within the clamp. -/
  capped : Every (fun _ _ c => -constCap ≤ c ∧ c ≤ constCap) b.edges
  /-- Every term of the graph names a bound local. -/
  defined : ∀ t ∈ nodes b.edges, env.Defined t
  /-- The graph is within its budget of terms. -/
  budget : b.termCount ≤ termCap
  /-- Every recorded comparison is the one its local was bound to. -/
  conds : ∀ slot cond, (slot, cond) ∈ b.conds → env.Defined cond.lhs ∧ env.Defined cond.rhs ∧
    ∃ outcome, env slot = some (.bool outcome) ∧ cond.Agrees env outcome
  /-- Every recorded subtraction is exact. -/
  subs : ∀ slot x y, (slot, x, y) ∈ b.subs → env.Defined (.int slot) ∧ env.Defined x ∧
    env.Defined y ∧ env.value (.int slot) = env.value x - env.value y
  /-- Every recorded call result has the facts of its callee. -/
  calls : ∀ slot sig slots, (slot, sig, slots) ∈ b.callResults → ∃ result args,
    env slot = some result ∧ Supplied env slots args ∧ sig.Holds args result

/-- The empty graph records nothing false. -/
theorem sound_empty (env : Env) : Sound {} env where
  sat := by intro a row member; cases member
  capped := by intro a row member; cases member
  defined := by intro t member; cases member
  budget := Nat.zero_le _
  conds := by intro slot cond member; cases member
  subs := by intro slot x y member; cases member
  calls := by intro slot sig slots member; cases member

/-- A comparison reads only its two terms. -/
theorem Cond.Agrees.congr {cond : Cond} {env env' : Env} {outcome : Bool}
    (left : env'.value cond.lhs = env.value cond.lhs)
    (right : env'.value cond.rhs = env.value cond.rhs) (agrees : cond.Agrees env outcome) :
    cond.Agrees env' outcome := by
  simpa only [Cond.Agrees, left, right] using agrees

/-- Binding a fresh local keeps the invariant. -/
theorem Sound.bind {b : Bounds} {env : Env} {slot : LocalId} (sound : Sound b env) (v : Val)
    (fresh : env slot = none) : Sound b (env.bind slot v) where
  sat := sound.sat.congr fun t member => (Env.value_bind fresh (sound.defined t member)).symm
  capped := sound.capped
  defined := fun t member => Env.defined_bind fresh (sound.defined t member)
  budget := sound.budget
  conds := by
    intro other cond member
    obtain ⟨left, right, outcome, bound, agrees⟩ := sound.conds other cond member
    exact ⟨Env.defined_bind fresh left, Env.defined_bind fresh right, outcome,
      Env.bind_bound fresh bound,
      agrees.congr (Env.value_bind fresh left) (Env.value_bind fresh right)⟩
  subs := by
    intro other x y member
    obtain ⟨self, left, right, exact'⟩ := sound.subs other x y member
    refine ⟨Env.defined_bind fresh self, Env.defined_bind fresh left,
      Env.defined_bind fresh right, ?_⟩
    rw [Env.value_bind fresh self, Env.value_bind fresh left, Env.value_bind fresh right, exact']
  calls := by
    intro other sig slots member
    obtain ⟨result, args, bound, supplied, holds⟩ := sound.calls other sig slots member
    refine ⟨result, args, Env.bind_bound fresh bound, ?_, holds⟩
    exact supplied.imp fun slot w given name named => Env.bind_bound fresh (given name named)

/-- Recording a true inequality between bound terms keeps the invariant. -/
theorem Sound.addEdge {b : Bounds} {env : Env} (sound : Sound b env) {a d : Term} {c : Int}
    (left : env.Defined a) (right : env.Defined d) (edge : env.value a ≤ env.value d + c) :
    Sound (b.addEdge a d c) env := by
  unfold Bounds.addEdge
  split
  · exact sound
  split
  · exact sound
  rename_i inCap
  split
  · exact { sound with }
  rename_i fits
  refine { sound with sat := ?_, capped := ?_, defined := ?_, budget := ?_ }
  · exact every_tighten sound.sat edge
  · exact every_tighten sound.capped (by simpa using inCap)
  · intro t member
    rcases mem_nodes_tighten member with rfl | rfl | kept
    · exact left
    · exact right
    · exact sound.defined t kept
  · have grown := nodeCount_tighten b.edges a d c
    have before := sound.budget
    simp only [termCount, newTerms, hasTerm, decide_eq_true_eq] at fits before ⊢
    omega

/-- Recording a true equality between bound terms keeps the invariant. -/
theorem Sound.addEq {b : Bounds} {env : Env} (sound : Sound b env) {a d : Term} {c : Int}
    (left : env.Defined a) (right : env.Defined d) (edge : env.value a = env.value d + c) :
    Sound (b.addEq a d c) env := by
  have forward := sound.addEdge left right edge.le
  unfold Bounds.addEq
  simp only
  split
  · rename_i negative negated
    unfold checkedNeg at negated
    split at negated
    · cases negated
    · cases negated
      exact forward.addEdge right left (by omega)
  · exact forward

/-- Recording the value of a bound term keeps the invariant. -/
theorem Sound.setConst {b : Bounds} {env : Env} (sound : Sound b env) {t : Term} {n : Int}
    (defined : env.Defined t) (value : env.value t = n) : Sound (b.setConst t n) env :=
  sound.addEq defined trivial (by simpa [Env.value] using value)

/-- Recording a lower bound of a bound term keeps the invariant. -/
theorem Sound.setGe {b : Bounds} {env : Env} (sound : Sound b env) {t : Term} {n : Int}
    (defined : env.Defined t) (lower : n ≤ env.value t) : Sound (b.setGe t n) env := by
  unfold Bounds.setGe
  split
  · rename_i negative negated
    unfold checkedNeg at negated
    split at negated
    · cases negated
    · cases negated
      exact sound.addEdge trivial defined (by show (0 : Int) ≤ _; omega)
  · exact sound

/-- Every interval contains the value of its term. -/
theorem Sound.interval {b : Bounds} {env : Env} (sound : Sound b env) (t : Term) :
    (b.interval t).1 ≤ env.value t ∧ env.value t ≤ (b.interval t).2 := by
  have start : Contains env.value b.machineRanges := by
    intro node lo hi member
    obtain ⟨t, -, entry⟩ := List.mem_map.mp member
    simp only [Prod.mk.injEq] at entry
    obtain ⟨rfl, range⟩ := entry
    have machine := env.value_machine t
    rw [range] at machine
    exact machine
  exact contains_rangeOf env.value_machine
    (contains_narrowLoop env.value_machine b.edges sound.sat _ start) t

/-- A shortest path bounds its source by its target. -/
theorem Sound.shortest {b : Bounds} {env : Env} (sound : Sound b env) {a d : Term} {c : Int}
    (found : b.shortest a d = some c) : env.value a ≤ env.value d + c := by
  unfold Bounds.shortest at found
  split at found
  · rename_i same
    cases found
    rw [same]
    omega
  split at found
  · cases found
  have few : ((insert a (nodeSet b.edges)).card : Int) ≤ termCap + 1 := by
    have inserted := Finset.card_insert_le a (nodeSet b.edges)
    have budget := sound.budget
    simp only [termCount, nodeCount] at budget
    omega
  have room : (((insert a (nodeSet b.edges)).card : Int) + 1) * constCap < i64Max := by
    simp only [termCap, constCap, i64Max] at few ⊢
    omega
  have pooled : Every (fun _ t _ => t ∈ insert a (nodeSet b.edges)) b.edges :=
    Every.imp sound.capped fun _ _ _ _ inNodes _ =>
      Finset.mem_insert_of_mem (mem_nodeSet.mpr inNodes)
  have light : Every (fun _ _ c => c ≤ constCap) b.edges :=
    Every.imp sound.capped fun _ _ _ _ _ both => both.2
  have start : Reached env.value a constCap (insert a (nodeSet b.edges)) [(a, 0)] :=
    Reached.start (by decide) (Finset.mem_insert_self _ _)
  have atLeast : ∀ n m, n + m ≤ i64Max → n + m ≤ saturatingAdd n m := by
    intro n m below
    simp only [saturatingAdd]
    omega
  have atMost : ∀ n m, saturatingAdd n m ≤ max 0 (n + m) := by
    intro n m
    simp only [saturatingAdd, i64Min]
    omega
  have reached := reached_relaxLoop (by decide) room atLeast atMost b.edges sound.sat light
    pooled (b.termCount + 1) start
  exact reached.bounded _ _ (mem_of_lookup found)

/-- An entailed inequality is true. -/
theorem Sound.entailsLe {b : Bounds} {env : Env} (sound : Sound b env) {a d : Term} {c : Int}
    (entailed : b.entailsLe a d c = true) : env.value a ≤ env.value d + c := by
  unfold Bounds.entailsLe at entailed
  cases found : b.shortest a d with
  | none => rw [found] at entailed; cases entailed
  | some weight =>
    rw [found] at entailed
    have tight : weight ≤ c := by simpa using entailed
    have path := sound.shortest found
    omega

/-- An operand with a term has the value of that term and its offset. -/
theorem atomTermOff_value {env : Env} {operand : CExpr} {v : Val} {t : Term} {offset : Int}
    (read : atomTermOff operand = some (t, offset)) (evaluates : EvalAtom env operand v) :
    env.Defined t ∧ env.value t + offset = v.intOf := by
  unfold atomTermOff at read
  split at read
  · cases read
    have bound : env _ = some v := evaluates
    exact ⟨⟨v, bound⟩, by rw [Env.value_int bound, Int.add_zero]⟩
  · cases read
    have literal : v = .int _ := evaluates
    exact ⟨trivial, by rw [literal]; simp only [Env.value, Val.intOf, Int.zero_add]⟩
  · cases read

/-- An operand that is a term has the value of that term. -/
theorem atomTerm_value {env : Env} {operand : CExpr} {v : Val} {t : Term}
    (read : atomTerm operand = some t) (evaluates : EvalAtom env operand v) :
    env.Defined t ∧ env.value t = v.intOf := by
  unfold atomTerm at read
  split at read
  · cases read
    have bound : env _ = some v := evaluates
    exact ⟨⟨v, bound⟩, Env.value_int bound⟩
  · split at read
    · rename_i zero
      cases read
      have literal : v = .int _ := evaluates
      rw [literal, zero]
      exact ⟨trivial, rfl⟩
    · cases read
  · cases read

/-- An addition that stays inside the machine integers does not wrap. -/
theorem toInt_add_exact (a b : Int64) (low : i64Min ≤ a.toInt + b.toInt)
    (high : a.toInt + b.toInt ≤ i64Max) : (a + b).toInt = a.toInt + b.toInt := by
  simp only [i64Min, i64Max] at low high
  rw [Int64.toInt_add]
  exact Int.bmod_eq_of_le (by omega) (by omega)

/-- A subtraction that stays inside the machine integers does not wrap. -/
theorem toInt_sub_exact (a b : Int64) (low : i64Min ≤ a.toInt - b.toInt)
    (high : a.toInt - b.toInt ≤ i64Max) : (a - b).toInt = a.toInt - b.toInt := by
  simp only [i64Min, i64Max] at low high
  rw [Int64.toInt_sub]
  exact Int.bmod_eq_of_le (by omega) (by omega)

/-- An offset that cannot wrap leaves the sum inside the machine integers. -/
theorem Sound.offset_exact {b : Bounds} {env : Env} (sound : Sound b env) {t : Term}
    {offset : Int} (safe : b.offsetDoesNotWrap t offset = true) :
    i64Min ≤ env.value t + offset ∧ env.value t + offset ≤ i64Max := by
  have inside := sound.interval t
  have machine := env.value_machine t
  unfold offsetDoesNotWrap at safe
  simp only [Bool.or_eq_true, decide_eq_true_eq, Bool.and_eq_true] at safe
  rcases safe with zero | ⟨low, high⟩
  · cases t with
    | zero => rw [zero]; simp only [Env.value]; decide
    | int slot => simp only [machineInterval] at machine; omega
    | len slot =>
      simp only [machineInterval, i64Min, i64Max, arrayLenMax] at machine ⊢
      omega
  · omega

/-- A subtraction that cannot wrap leaves the difference inside the machine integers. -/
theorem Sound.subtraction_exact {b : Bounds} {env : Env} (sound : Sound b env) {x y : Term}
    (safe : b.subtractionDoesNotWrap x y = true) :
    i64Min ≤ env.value x - env.value y ∧ env.value x - env.value y ≤ i64Max := by
  have left := sound.interval x
  have right := sound.interval y
  unfold subtractionDoesNotWrap at safe
  simp only [Bool.and_eq_true, decide_eq_true_eq] at safe
  omega

/-- Recording an exact subtraction keeps the invariant. -/
theorem Sound.recordSub {b : Bounds} {env : Env} (sound : Sound b env) {slot : LocalId}
    {x y : Term} (self : env.Defined (.int slot)) (left : env.Defined x) (right : env.Defined y)
    (exact' : env.value (.int slot) = env.value x - env.value y) :
    Sound { b with subs := assign slot (x, y) b.subs } env := by
  refine { sound with subs := ?_ }
  intro other x' y' member
  rcases mem_assign member with fresh | kept
  · cases fresh
    exact ⟨self, left, right, exact'⟩
  · exact sound.subs other x' y' kept

/-- Recording a comparison with its outcome keeps the invariant. -/
theorem Sound.recordCond {b : Bounds} {env : Env} (sound : Sound b env) {slot : LocalId}
    {cond : Cond} {outcome : Bool} (left : env.Defined cond.lhs) (right : env.Defined cond.rhs)
    (bound : env slot = some (.bool outcome)) (agrees : cond.Agrees env outcome) :
    Sound { b with conds := assign slot cond b.conds } env := by
  refine { sound with conds := ?_ }
  intro other cond' member
  rcases mem_assign member with fresh | kept
  · cases fresh
    exact ⟨left, right, outcome, bound, agrees⟩
  · exact sound.conds other cond' kept

/-- The effect of an addition or subtraction is true of its wrapping result. -/
theorem Sound.transferAddsub {b : Bounds} {env : Env} (sound : Sound b env) {slot : LocalId}
    {left right : CExpr} {x y : Int64} (subtract : Bool)
    (bound : env slot = some (.int (if subtract then x - y else x + y)))
    (evalLeft : EvalAtom env left (.int x)) (evalRight : EvalAtom env right (.int y)) :
    Sound (b.transferAddsub slot [left, right] subtract) env := by
  have self : env.Defined (.int slot) := ⟨_, bound⟩
  have result : env.value (.int slot) = (if subtract then x - y else x + y).toInt :=
    Env.value_int bound
  unfold Bounds.transferAddsub
  split
  · -- a local and a literal
    rename_i a _ k _ _ operands
    cases operands
    have source : env a = some (.int x) := evalLeft
    have literal : Val.int y = .int k := evalRight
    cases literal
    have valueA : env.value (.int a) = x.toInt := Env.value_int source
    cases subtract with
    | false =>
      simp only [Bool.false_eq_true, if_false] at result ⊢
      split
      · rename_i safe
        obtain ⟨low, high⟩ := sound.offset_exact safe
        rw [valueA] at low high
        refine sound.addEq self ⟨_, source⟩ ?_
        rw [result, valueA, toInt_add_exact x y low high]
      · exact sound
    | true =>
      simp only [if_true] at result ⊢
      split
      · rename_i offset negated
        unfold checkedNeg at negated
        split at negated
        · cases negated
        cases negated
        split
        · rename_i safe
          obtain ⟨low, high⟩ := sound.offset_exact safe
          rw [valueA] at low high
          refine sound.addEq self ⟨_, source⟩ ?_
          rw [result, valueA, toInt_sub_exact x y (by omega) (by omega)]
          omega
        · exact sound
      · exact sound
  · -- a literal and a local
    rename_i k _ a _ _ operands
    cases operands
    have source : env a = some (.int y) := evalRight
    have literal : Val.int x = .int k := evalLeft
    cases literal
    have valueA : env.value (.int a) = y.toInt := Env.value_int source
    split
    · rename_i safe
      simp only [Bool.and_eq_true, Bool.not_eq_true'] at safe
      obtain ⟨add, safe⟩ := safe
      rw [add] at result
      simp only [Bool.false_eq_true, if_false] at result
      obtain ⟨low, high⟩ := sound.offset_exact safe
      rw [valueA] at low high
      refine sound.addEq self ⟨_, source⟩ ?_
      rw [result, valueA, toInt_add_exact x y (by omega) (by omega)]
      omega
    · exact sound
  · -- two literals
    rename_i p _ q _ _ operands
    cases operands
    have first : Val.int x = .int p := evalLeft
    have second : Val.int y = .int q := evalRight
    cases first
    cases second
    exact sound.setConst self result
  · -- two locals
    rename_i a _ d _ _ operands
    cases operands
    have sourceA : env a = some (.int x) := evalLeft
    have sourceD : env d = some (.int y) := evalRight
    have valueA : env.value (.int a) = x.toInt := Env.value_int sourceA
    have valueD : env.value (.int d) = y.toInt := Env.value_int sourceD
    split
    · rename_i isSubtraction
      simp only [isSubtraction, if_true] at result
      split
      · rename_i same
        subst same
        rw [sourceA] at sourceD
        cases sourceD
        refine sound.setConst self ?_
        rw [result, toInt_sub_exact x x (by simp; decide) (by simp; decide)]
        omega
      · split
        · rename_i safe
          obtain ⟨low, high⟩ := sound.subtraction_exact safe
          rw [valueA, valueD] at low high
          refine sound.recordSub self ⟨_, sourceA⟩ ⟨_, sourceD⟩ ?_
          rw [result, valueA, valueD, toInt_sub_exact x y low high]
        · exact sound
    · exact sound
  · exact sound

/-- A mask proved nonnegative bounds the masked value. -/
theorem Sound.maskBy {b : Bounds} {env : Env} (sound : Sound b env) {slot : LocalId}
    {mask : CExpr} {x m : Int64} {t : Term} (bound : env slot = some (.int (x &&& m)))
    (evaluates : EvalAtom env mask (.int m))
    (read : (atomTerm mask).filter (b.entailsNonneg ·) = some t) :
    Sound ((b.setGe (.int slot) 0).addEdge (.int slot) t 0) env := by
  obtain ⟨isTerm, nonneg⟩ := Option.filter_eq_some_iff.mp read
  obtain ⟨defined, value⟩ := atomTerm_value isTerm evaluates
  have lower := sound.entailsLe nonneg
  have zero : env.value .zero = 0 := rfl
  have maskInt : env.value t = m.toInt := value
  obtain ⟨low, high⟩ := mask_range x m (by omega)
  have result : env.value (.int slot) = (x &&& m).toInt := Env.value_int bound
  have self : env.Defined (.int slot) := ⟨_, bound⟩
  exact (sound.setGe self (by omega)).addEdge self defined (by omega)

/-- The effect of a bitwise and is true of its result. -/
theorem Sound.transferMask {b : Bounds} {env : Env} (sound : Sound b env) {slot : LocalId}
    {left right : CExpr} {x y : Int64} (bound : env slot = some (.int (x &&& y)))
    (evalLeft : EvalAtom env left (.int x)) (evalRight : EvalAtom env right (.int y)) :
    Sound (b.transferMask slot [left, right]) env := by
  unfold Bounds.transferMask
  simp only
  split
  · rename_i t read
    exact sound.maskBy bound evalRight read
  · split
    · rename_i t read
      rw [Int64.and_comm] at bound
      exact sound.maskBy bound evalLeft read
    · exact sound

/-- The effect of a remainder is true of its result. -/
theorem Sound.transferRem {b : Bounds} {env : Env} (sound : Sound b env) {slot : LocalId}
    {left right : CExpr} {x y : Int64} (bound : env slot = some (.int (x % y)))
    (evalLeft : EvalAtom env left (.int x)) :
    Sound (b.transferRem slot [left, right]) env := by
  unfold Bounds.transferRem
  split
  · rename_i t read
    obtain ⟨isTerm, nonneg⟩ := Option.filter_eq_some_iff.mp read
    obtain ⟨-, value⟩ := atomTerm_value isTerm evalLeft
    have lower := sound.entailsLe nonneg
    have zero : env.value .zero = 0 := rfl
    have dividend : env.value t = x.toInt := value
    have result : env.value (.int slot) = (x % y).toInt := Env.value_int bound
    refine sound.setGe ⟨_, bound⟩ ?_
    rw [result, Int64.toInt_mod]
    exact Int.tmod_nonneg _ (by omega)
  · exact sound

/-- The effect of a repeated array is true of its length. -/
theorem Sound.transferRepeat {b : Bounds} {env : Env} (sound : Sound b env) {slot : LocalId}
    {left right : CExpr} {count : Int64} {fits : count.toInt.toNat ≤ arrayLenMax}
    (bound : env slot = some (.array count.toInt.toNat fits))
    (evalLeft : EvalAtom env left (.int count)) :
    Sound (b.transferRepeat slot [left, right]) env := by
  have self : env.Defined (.len slot) := ⟨_, bound⟩
  have length : env.value (.len slot) = (count.toInt.toNat : Int) := Env.value_len bound
  have based := sound.setGe self (show 0 ≤ env.value (.len slot) by omega)
  unfold Bounds.transferRepeat
  simp only
  split
  · rename_i k _ _ operands
    cases operands
    have literal : Val.int count = .int k := evalLeft
    cases literal
    exact based.setConst self (by omega)
  · rename_i k _ _ operands
    cases operands
    have source : env k = some (.int count) := evalLeft
    have value : env.value (.int k) = count.toInt := Env.value_int source
    have counted : env.Defined (.int k) := ⟨_, source⟩
    have edge : env.value (.int k) ≤ env.value (.len slot) + 0 := by omega
    have longer := based.addEdge counted self edge
    split
    · rename_i nonneg
      have lower := longer.entailsLe nonneg
      have zero : env.value .zero = 0 := rfl
      exact longer.addEq self counted (by omega)
    · exact longer
  · exact based

/-- A comparison of two integer operands is recorded with its outcome. -/
theorem Sound.compare {b : Bounds} {env : Env} (sound : Sound b env) {slot : LocalId} {op : Prim}
    {left right : CExpr} {x y : Val} {outcome : Bool} (bound : env slot = some (.bool outcome))
    (evalLeft : EvalAtom env left x) (evalRight : EvalAtom env right y)
    (agrees : ∀ l lo r ro, atomTermOff left = some (l, lo) → atomTermOff right = some (r, ro) →
      env.value l + lo = x.intOf → env.value r + ro = y.intOf →
        (⟨op, l, lo, r, ro⟩ : Cond).Agrees env outcome) :
    Sound (match atomTermOff left, atomTermOff right with
      | some (l, lo), some (r, ro) => { b with conds := assign slot ⟨op, l, lo, r, ro⟩ b.conds }
      | _, _ => b) env := by
  split
  · rename_i l lo r ro readLeft readRight
    obtain ⟨definedLeft, valueLeft⟩ := atomTermOff_value readLeft evalLeft
    obtain ⟨definedRight, valueRight⟩ := atomTermOff_value readRight evalRight
    exact sound.recordCond definedLeft definedRight bound
      (agrees l lo r ro readLeft readRight valueLeft valueRight)
  · exact sound

/-- An operand with the constant term is an integer literal. -/
theorem isInt_of_atomTermOff_zero {env : Env} {operand : CExpr} {v : Val} {offset : Int}
    (read : atomTermOff operand = some (.zero, offset)) (evaluates : EvalAtom env operand v) :
    v.isInt = true := by
  unfold atomTermOff at read
  split at read
  · cases read
  · have literal : v = .int _ := evaluates
    rw [literal]
    rfl
  · cases read

/-- A value that is no integer reads as zero. -/
theorem intOf_of_not_isInt {v : Val} (noInteger : v.isInt = false) : v.intOf = 0 := by
  cases v with
  | int n => cases noInteger
  | _ => rfl

/-- The length facts shared by every operation that keeps the length of its first operand. -/
theorem Sound.sameLength {b : Bounds} {env : Env} (sound : Sound b env) {slot : LocalId}
    {array : CExpr} {rest : List CExpr} {n : Nat} {fits : n ≤ arrayLenMax} {m : Nat}
    {grown : n + m ≤ arrayLenMax} (bound : env slot = some (.array (n + m) grown))
    (evaluates : EvalAtom env array (.array n fits)) :
    Sound (match array :: rest with
      | .loc a _ :: _ => b.addEq (.len slot) (.len a) m
      | _ => b) env := by
  split
  · rename_i a _ _ operands
    cases operands
    have source : env a = some (.array n fits) := evaluates
    have length : env.value (.len slot) = ((n + m : Nat) : Int) := Env.value_len bound
    have before : env.value (.len a) = (n : Int) := Env.value_len source
    exact sound.addEq ⟨_, bound⟩ ⟨_, source⟩ (by omega)
  · exact sound

/-- The operands of a binary operation. -/
theorem pair_operands {env : Env} {args : List CExpr} {x y : Val}
    (evaluates : List.Forall₂ (EvalAtom env) args [x, y]) :
    ∃ left right, args = [left, right] ∧ EvalAtom env left x ∧ EvalAtom env right y := by
  obtain ⟨left, _, evalLeft, rest, rfl⟩ := List.forall₂_cons_right_iff.mp evaluates
  obtain ⟨right, _, evalRight, last, rfl⟩ := List.forall₂_cons_right_iff.mp rest
  cases last
  exact ⟨left, right, rfl, evalLeft, evalRight⟩

/-- The operation-specific constraints are true of the result of the operation. -/
theorem Sound.transferOp {b : Bounds} {env : Env} (sound : Sound b env) {slot : LocalId}
    {op : Prim} {args : List CExpr} {operands : List Val} {v : Val} (bound : env slot = some v)
    (evaluates : List.Forall₂ (EvalAtom env) args operands) (runs : EvalPrim op operands v) :
    Sound (b.transferOp slot op args) env := by
  cases runs with
  | intAdd x y =>
    obtain ⟨left, right, rfl, evalLeft, evalRight⟩ := pair_operands evaluates
    exact sound.transferAddsub false bound evalLeft evalRight
  | intSub x y =>
    obtain ⟨left, right, rfl, evalLeft, evalRight⟩ := pair_operands evaluates
    exact sound.transferAddsub true bound evalLeft evalRight
  | intMul x y => exact sound
  | intAnd x y =>
    obtain ⟨left, right, rfl, evalLeft, evalRight⟩ := pair_operands evaluates
    exact sound.transferMask bound evalLeft evalRight
  | intRem x y =>
    obtain ⟨left, right, rfl, evalLeft, evalRight⟩ := pair_operands evaluates
    exact sound.transferRem bound evalLeft
  | arrayLength n fits =>
    obtain ⟨array, _, evalArray, rest, rfl⟩ := List.forall₂_cons_right_iff.mp evaluates
    cases rest
    simp only [Bounds.transferOp]
    split
    · rename_i a _ _ operands
      cases operands
      have source : env a = some (.array n fits) := evalArray
      have small : n < 2 ^ 63 := by simp only [arrayLenMax] at fits; omega
      have result : env.value (.int slot) = (n : Int) := by
        rw [Env.value_int bound]
        exact Int64.toInt_ofNat_of_lt small
      have length : env.value (.len a) = (n : Int) := Env.value_len source
      have self : env.Defined (.int slot) := ⟨_, bound⟩
      have equal : env.value (.int slot) = env.value (.len a) + 0 := by omega
      exact (sound.addEq self (Env.defined_len source) equal).setGe self (by omega)
    · exact sound
  | arrayWithCapacity capacity => exact sound.setConst (Env.defined_len bound) (Env.value_len bound)
  | arrayRepeat count element fits =>
    obtain ⟨left, right, rfl, evalLeft, evalRight⟩ := pair_operands evaluates
    exact sound.transferRepeat bound evalLeft
  | arrayPush n element before fits =>
    obtain ⟨array, _, evalArray, rest, rfl⟩ := List.forall₂_cons_right_iff.mp evaluates
    have length : 0 ≤ env.value (.len slot) := by
      rw [Env.value_len bound]
      exact Int.natCast_nonneg _
    exact (sound.sameLength bound evalArray).setGe (Env.defined_len bound) length
  | arrayPushReserved n element before fits =>
    obtain ⟨array, _, evalArray, rest, rfl⟩ := List.forall₂_cons_right_iff.mp evaluates
    have length : 0 ≤ env.value (.len slot) := by
      rw [Env.value_len bound]
      exact Int.natCast_nonneg _
    exact (sound.sameLength bound evalArray).setGe (Env.defined_len bound) length
  | arraySet n fits i element low high =>
    obtain ⟨array, _, evalArray, rest, rfl⟩ := List.forall₂_cons_right_iff.mp evaluates
    exact sound.sameLength (m := 0) bound evalArray
  | arrayUnique n fits =>
    obtain ⟨array, _, evalArray, rest, rfl⟩ := List.forall₂_cons_right_iff.mp evaluates
    exact sound.sameLength (m := 0) bound evalArray
  | arrayPut n fits index element =>
    obtain ⟨array, _, evalArray, rest, rfl⟩ := List.forall₂_cons_right_iff.mp evaluates
    exact sound.sameLength (m := 0) bound evalArray
  | arrayGet n fits i element low high => exact sound
  | arrayPeek n fits i element low high => exact sound
  | intLt x y =>
    obtain ⟨left, right, rfl, evalLeft, evalRight⟩ := pair_operands evaluates
    refine sound.compare bound evalLeft evalRight fun l lo r ro _ _ valueL valueR => ?_
    simp only [Cond.Agrees, valueL, valueR, Val.intOf]
  | intLe x y =>
    obtain ⟨left, right, rfl, evalLeft, evalRight⟩ := pair_operands evaluates
    refine sound.compare bound evalLeft evalRight fun l lo r ro _ _ valueL valueR => ?_
    simp only [Cond.Agrees, valueL, valueR, Val.intOf]
  | intGt x y =>
    obtain ⟨left, right, rfl, evalLeft, evalRight⟩ := pair_operands evaluates
    refine sound.compare bound evalLeft evalRight fun l lo r ro _ _ valueL valueR => ?_
    simp only [Cond.Agrees, valueL, valueR, Val.intOf]
  | intGe x y =>
    obtain ⟨left, right, rfl, evalLeft, evalRight⟩ := pair_operands evaluates
    refine sound.compare bound evalLeft evalRight fun l lo r ro _ _ valueL valueR => ?_
    simp only [Cond.Agrees, valueL, valueR, Val.intOf]
  | eqInt x y =>
    obtain ⟨left, right, rfl, evalLeft, evalRight⟩ := pair_operands evaluates
    refine sound.compare bound evalLeft evalRight fun l lo r ro _ _ valueL valueR => ?_
    simp only [Cond.Agrees, valueL, valueR, Val.intOf, decide_eq_true_eq, decide_eq_false_iff_not]
    exact ⟨fun same => by rw [same], fun differ _ same => differ (Int64.toInt.inj same)⟩
  | eqOther x y equal leftOther rightOther =>
    obtain ⟨left, right, rfl, evalLeft, evalRight⟩ := pair_operands evaluates
    refine sound.compare bound evalLeft evalRight fun l lo r ro readL readR valueL valueR => ?_
    simp only [Cond.Agrees, valueL, valueR, intOf_of_not_isInt leftOther,
      intOf_of_not_isInt rightOther]
    refine ⟨fun _ => trivial, ?_⟩
    rintro - (zero | zero)
    · rw [zero] at readL
      rw [isInt_of_atomTermOff_zero readL evalLeft] at leftOther
      cases leftOther
    · rw [zero] at readR
      rw [isInt_of_atomTermOff_zero readR evalRight] at rightOther
      cases rightOther
  | untracked _ _ _ noRule =>
    unfold Bounds.transferOp
    split <;> first | exact sound | cases noRule

/-- A checked access that succeeded had its index in bounds. -/
theorem Sound.access {b : Bounds} {env : Env} (sound : Sound b env) {array index : CExpr}
    {rest : List CExpr} {n : Nat} {fits : n ≤ arrayLenMax} {i : Int64} (low : 0 ≤ i.toInt)
    (high : i.toInt < n) (evalArray : EvalAtom env array (.array n fits))
    (evalIndex : EvalAtom env index (.int i)) :
    Sound (b.transferAccess .arrayGet (array :: index :: rest)) env := by
  simp only [Bounds.transferAccess]
  split
  · rename_i a _ position _ operands
    cases operands
    have source : env a = some (.array n fits) := evalArray
    have length : env.value (.len a) = (n : Int) := Env.value_len source
    split
    · rename_i t offset read
      obtain ⟨defined, value⟩ := atomTermOff_value read evalIndex
      have position : env.value t + offset = i.toInt := value
      have zero : env.value .zero = 0 := rfl
      have lower : env.value .zero ≤ env.value t + offset := by omega
      have nonneg := sound.addEdge env.defined_zero defined lower
      split
      · rename_i upper computed
        obtain ⟨negative, negated, less⟩ := Option.bind_eq_some_iff.mp computed
        unfold checkedNeg at negated
        unfold checkedSub at less
        split at negated
        · cases negated
        split at less
        · cases negated
          cases less
          have known : env.Defined (.len a) := ⟨_, source⟩
          exact nonneg.addEdge defined known (by omega)
        · cases less
      · exact nonneg
    · exact sound
  · exact sound

/-- The facts of a checked access are true once it has succeeded. -/
theorem Sound.transferAccess {b : Bounds} {env : Env} (sound : Sound b env) {op : Prim}
    {args : List CExpr} {operands : List Val} {v : Val}
    (evaluates : List.Forall₂ (EvalAtom env) args operands) (runs : EvalPrim op operands v) :
    Sound (b.transferAccess op args) env := by
  cases runs with
  | arraySet n fits i element low high =>
    obtain ⟨array, _, evalArray, rest, rfl⟩ := List.forall₂_cons_right_iff.mp evaluates
    obtain ⟨index, _, evalIndex, rest, rfl⟩ := List.forall₂_cons_right_iff.mp rest
    exact sound.access low high evalArray evalIndex
  | arrayGet n fits i element low high =>
    obtain ⟨array, _, evalArray, rest, rfl⟩ := List.forall₂_cons_right_iff.mp evaluates
    obtain ⟨index, _, evalIndex, rest, rfl⟩ := List.forall₂_cons_right_iff.mp rest
    exact sound.access low high evalArray evalIndex
  | arrayPeek n fits i element low high =>
    obtain ⟨array, _, evalArray, rest, rfl⟩ := List.forall₂_cons_right_iff.mp evaluates
    obtain ⟨index, _, evalIndex, rest, rfl⟩ := List.forall₂_cons_right_iff.mp rest
    exact sound.access low high evalArray evalIndex
  | untracked _ _ _ noRule =>
    unfold Bounds.transferAccess
    split <;> first | exact sound | cases noRule
  | _ => exact sound

/-- The effect of a primitive operation is true of its result. -/
theorem Sound.transferPrim {b : Bounds} {env : Env} (sound : Sound b env) {slot : LocalId}
    {op : Prim} {args : List CExpr} {operands : List Val} {v : Val} (bound : env slot = some v)
    (evaluates : List.Forall₂ (EvalAtom env) args operands) (runs : EvalPrim op operands v) :
    Sound (b.transferPrim slot op args) env := by
  have operation := sound.transferOp bound evaluates runs
  have accessed := operation.transferAccess evaluates runs
  refine accessed.setGe ⟨_, bound⟩ ?_
  rw [Env.value_len bound]
  exact v.lenOf_range.1

end Bounds

end Fai
