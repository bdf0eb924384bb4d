import FaiVerif.Core.Folds
import FaiVerif.Core.Purity
import FaiVerif.Lib.Utf8
import Mathlib.Data.List.Forall2
import Mathlib.Logic.Relation

/-!
# What pure and total code does

Core is run over values that tell functions apart from everything a comparison can walk. A call of
a definition takes a step, as does a turn of a loop after the first, and a run without a step left
stops. Code that is pure and total returns a value with every large enough number of steps, whatever
the effects of the machine are: it never reaches one, and never aborts.
-/

namespace Fai.Purity

open CExpr Eval Slots

/-- A run-time value. -/
inductive Value where
  | int (n : Int64)
  | float (bits : UInt64)
  | char (scalar : Char)
  | bool (b : Bool)
  | string (utf8 : List UInt8)
  | bytes (content : List UInt8)
  | unit
  | array (elements : List Value)
  | data (tag : Nat) (fields : List Value)
  /-- A definition with the arguments it already has. -/
  | definition (target : DefId) (held : List Value)
  /-- A closure of a lifted function. -/
  | closure (func : Nat) (captures : List Value)
  /-- A native handle: a compiled pattern, a compression state, text pairs or a resource. -/
  | handle (code : Nat)

namespace Value

mutual

/-- Whether a structural operation reaches a function, on which it aborts. -/
def hasFunction : Value → Bool
  | definition _ _ | closure _ _ => true
  | array elements => anyHasFunction elements
  | data _ fields => anyHasFunction fields
  | _ => false

/-- The same of some component. -/
def anyHasFunction : List Value → Bool
  | [] => false
  | value :: rest => hasFunction value || anyHasFunction rest

end

/-- The value of a literal. -/
def literal : Lit → Value
  | .int n => int n
  | .float bits => float bits
  | .char scalar => char scalar
  | .bool b => bool b
  | .str utf8 => string utf8
  | .unit => unit

/-- The fields of a data value. -/
def fields : Value → List Value
  | data _ fields => fields
  | _ => []

/-- The tag of a data value. -/
def tag : Value → Nat
  | data tag _ => tag
  | _ => 0

/-- The field at a place; evidence is the offset of a field in a record. -/
def field (value : Value) : Place Value → Value
  | .const slot => value.fields.getD slot unit
  | .dyn base (int offset) => value.fields.getD (base + offset.toInt.toNat) unit
  | .dyn _ _ => unit

/-- Whether a condition holds. -/
def holds : Value → Bool
  | bool b => b
  | _ => false

end Value

/-- `MAX_ARRAY_CAPACITY`: what an allocation can hold after the three words of its header and the
length. -/
def maxArrayCapacity : Int := 1152921504606846971

/-- An index is outside the elements. -/
def outside (index : Int64) (length : Nat) : Bool :=
  decide (index.toInt < 0) || decide ((length : Int) ≤ index.toInt)

/-- Whether a primitive of the runtime does not just return a value for these operands: it aborts,
its result is not a value of its type, or it moves or lends memory that others see. -/
def fails (op : Prim) (values : List Value) : Bool :=
  match op with
  | .intDiv | .intRem => match values[1]? with
    | some (Value.int divisor) => divisor == 0
    | _ => true
  | .eq | .compare | .hash => values.isEmpty || Value.anyHasFunction values
  | .arrayWithCapacity | .arrayRepeat => match values.head? with
    | some (Value.int count) => decide (maxArrayCapacity < count.toInt)
    | _ => true
  | .arrayGet | .arraySet => match values with
    | .array elements :: .int index :: _ => outside index elements.length
    | _ => true
  | .arrayPush => match values.head? with
    | some (Value.array elements) => decide (maxArrayCapacity ≤ elements.length)
    | _ => true
  | .bytesGet => match values with
    | [.bytes content, .int index] => outside index content.length
    | _ => true
  | .charFromCode => match values with
    | [.int code] => decide (code.toInt < 0) || !decide (code.toInt.toNat.isValidChar)
    | _ => true
  | .bytesToString => match values with
    | [.bytes content] => decide (Utf8.Window.start.run content ≠ some .start)
    | _ => true
  | .arrayPeek | .dataPeek | .arrayUnique | .arrayTake | .arrayPut | .arrayPushReserved => true
  | _ => false

/-- The cells of a list. -/
inductive Listed (property : Value → Prop) : Value → Prop
  | nil : Listed property (.data 0 [])
  | cons {head tail : Value} : property head → Listed property tail →
    Listed property (.data 1 [head, tail])

mutual

/-- The values of a type, as far as a structural operation tells them apart. -/
def Inhabits : Ty → Value → Prop
  | .con .int, value => ∃ n, value = .int n
  | .con .float, value => ∃ bits, value = .float bits
  | .con .bool, value => ∃ b, value = .bool b
  | .con .char, value => ∃ scalar, value = .char scalar
  | .con .string, value => ∃ utf8, value = .string utf8
  | .con .bytes, value => ∃ content, value = .bytes content
  | .unit, value => value = .unit
  | .app (.con .list) elem, value => Listed (Inhabits elem) value
  | .app (.con .array) elem, value => ∃ elements, value = .array elements ∧
    ∀ element ∈ elements, Inhabits elem element
  | .tuple types, value => ∃ fields, value = .data 0 fields ∧ InhabitAll types fields
  | .record types .closed, value => ∃ fields, value = .data 0 fields ∧ InhabitFields types fields
  | _, _ => True

/-- Components of the types of a tuple. -/
def InhabitAll : List Ty → List Value → Prop
  | [], values => values = []
  | ty :: types, values => ∃ first rest, values = first :: rest ∧ Inhabits ty first ∧
    InhabitAll types rest

/-- Fields of the types of a record, in its order. -/
def InhabitFields : List (Symbol × Ty) → List Value → Prop
  | [], values => values = []
  | (_, ty) :: types, values => ∃ first rest, values = first :: rest ∧ Inhabits ty first ∧
    InhabitFields types rest

end

section Running

variable {m : Type → Type}

/-- What a run does beyond the analysis: its effects, and the results of primitives that return. -/
structure Runtime (m : Type → Type) where
  /-- The result of a primitive that returns. -/
  result : Prim → List Value → Value
  /-- Aborts. -/
  abort : m Value
  /-- Calls a native symbol. -/
  foreign : Symbol → List Value → m Value
  /-- Runs a lifted function on its captures and arguments. -/
  enter : Nat → List Value → List Value → m Value
  /-- Goes on without a step left. -/
  stop : m Value
  /-- The memory of a released value. -/
  reset : Value → Value
  /-- A destination that is not advanced. -/
  destination : Value
  /-- A destination advanced past a cell. -/
  advance : Value → Value → Nat → Value
  /-- What a destination holds in the end. -/
  finish : Value → Value → Value

variable [Monad m] (rt : Runtime m) (definitions : List Definition)

/-- The definition of a name. -/
def lookup (target : DefId) : Option Definition :=
  definitions.find? fun definition => definition.target = target

/-- The operations of a run, given how a body is run, how a result is applied to what is left, and
how a loop goes around. -/
def operations (run : Definition → List Value → m Value)
    (again : Value → List Value → m Value)
    (around : ((List Value → m Value) → List Value → m Value) → List Value → m Value) :
    Machine m Value where
  lit := Value.literal
  global target := match lookup definitions target with
    | none => rt.abort
    | some definition =>
      if definition.params.isEmpty then run definition [] else pure (.definition target [])
  prim op values := if fails op values then rt.abort else pure (rt.result op values)
  foreign := rt.foreign
  apply callee values _ := if values.isEmpty then pure callee else match callee with
    | .definition target held => match lookup definitions target with
      | none => rt.abort
      | some definition =>
        let given := held ++ values
        let arity := definition.params.length
        if given.length < arity then pure (.definition target given)
        else if given.length = arity then run definition given
        else do
          let result ← run definition (given.take arity)
          again result (given.drop arity)
    | .closure func captures => rt.enter func captures values
    | _ => rt.abort
  test value := pure value.holds
  closure func captures _ := pure (.closure func captures)
  -- The layout of a cell is not part of its value.
  data tag _ _ fields _ := pure (.data tag fields)
  tag _ value := pure (.int (Int64.ofNat value.tag))
  field _ _ value place := pure (value.field place)
  spread components := pure (.data 0 components)
  components value := pure value.fields
  dup _ := pure ()
  drop _ := pure ()
  reset value := pure (rt.reset value)
  freeReuse _ := pure ()
  loop turn start := turn (around turn) start
  holeStart := pure rt.destination
  holeFill destination cell slot := pure (rt.advance destination cell slot)
  holeClose destination base := pure (rt.finish destination base)
  trap := rt.abort

/-- What the locals of a body hold when it is entered. -/
def frame (params : List LocalId) (values : List Value) : Locals Value :=
  Locals.setAll (fun _ => .unit) .unit params values

/-- A run with a number of steps. -/
def machine : Nat → Machine m Value
  | 0 => operations rt definitions (fun _ _ => rt.stop) (fun _ _ => rt.stop) (fun _ _ => rt.stop)
  | steps + 1 =>
    operations rt definitions
      (fun definition values => eval (machine steps) definition.body (fun _ => rt.stop)
        (frame definition.params values))
      (fun callee values => (machine steps).apply callee values [])
      (machine steps).loop

/-- An expression returns a value with every number of steps from some on, and does nothing else. -/
def ReturnsFrom (least : Nat) (e : CExpr) (env : Locals Value) (value : Value) : Prop :=
  ∀ steps ≥ least, ∀ back, eval (machine rt definitions steps) e back env = pure value

/-- An expression returns a value with every large enough number of steps, and does nothing else. -/
def Returns (e : CExpr) (env : Locals Value) (value : Value) : Prop :=
  ∃ least, ReturnsFrom rt definitions least e env value

/-- The subexpressions that are run under the locals of the expression. -/
def inPlace : CExpr → List CExpr
  | .letIn _ value _ _ | .letMany _ value _ _ | .reset value _ _ _ => [value]
  | .join _ _ _ | .holeStart _ _ _ => []
  | e => e.children

/-- One expression under its locals, and another that its run runs under its own. -/
inductive Enters : CExpr × Locals Value → CExpr × Locals Value → Prop
  | inPlace {e child : CExpr} {env : Locals Value} : child ∈ inPlace e →
    Enters (e, env) (child, env)
  | letIn {slot : LocalId} {value body : CExpr} {ty : Ty} {env : Locals Value} {held : Value} :
    Returns rt definitions value env held →
    Enters (.letIn slot value body ty, env) (body, env.set slot held)
  | letMany {slots : List LocalId} {value body : CExpr} {ty : Ty} {env : Locals Value}
    {held : Value} : Returns rt definitions value env held →
    Enters (.letMany slots value body ty, env) (body, env.setAll .unit slots held.fields)
  | reset {token : LocalId} {value body : CExpr} {ty : Ty} {env : Locals Value} {held : Value} :
    Returns rt definitions value env held →
    Enters (.reset value token body ty, env) (body, env.set token (rt.reset held))
  | join {params : List LocalId} {body : CExpr} {ty : Ty} {env : Locals Value} :
    Enters (.join params body ty, env) (body, env.setAll .unit params (params.map env))
  | holeStart {hole : LocalId} {body : CExpr} {ty : Ty} {env : Locals Value} :
    Enters (.holeStart hole body ty, env) (body, env.set hole rt.destination)
  | global {target : DefId} {ty : Ty} {env : Locals Value} {definition : Definition} :
    lookup definitions target = some definition → definition.params = [] →
    Enters (.global target ty, env) (definition.body, frame definition.params [])
  | call {target : DefId} {args : List CExpr} {reuse : List (Option LocalId)}
    {alloc : ClosureAlloc} {ty ty' : Ty} {env : Locals Value} {definition : Definition}
    {values : List Value} : lookup definitions target = some definition →
    List.Forall₂ (fun arg value => Returns rt definitions arg env value) args values →
    values.length = definition.params.length →
    Enters (.app (.global target ty) args reuse alloc ty', env)
      (definition.body, frame definition.params values)

/-- Whatever a run comes to returns only values of the type it carries. -/
def WellTyped (e : CExpr) (env : Locals Value) : Prop :=
  ∀ reached, Relation.ReflTransGen (Enters rt definitions) (e, env) reached →
    ∀ value, Returns rt definitions reached.1 reached.2 value → Inhabits reached.1.ty value

end Running

mutual

/-- A value of a type whose comparison is total has no function in it. -/
theorem hasFunction_of_inhabits : ∀ (ty : Ty) (value : Value), comparisonIsTotal ty = true →
    Inhabits ty value → value.hasFunction = false
  | .con con, value, _, inhabits => by
    cases con with
    | list | array => contradiction
    | _ =>
      rw [Inhabits] at inhabits
      obtain ⟨_, rfl⟩ := inhabits
      rfl
  | .unit, value, _, inhabits => by
    rw [Inhabits] at inhabits
    subst inhabits
    rfl
  | .app (.con .list) elem, value, total, inhabits => by
    rw [Inhabits] at inhabits
    rw [comparisonIsTotal] at total
    induction inhabits with
    | nil => rfl
    | cons first _ hypothesis =>
      simp only [Value.hasFunction, Value.anyHasFunction] at hypothesis ⊢
      rw [hasFunction_of_inhabits elem _ total first, hypothesis]
      rfl
  | .app (.con .array) elem, value, total, inhabits => by
    rw [Inhabits] at inhabits
    rw [comparisonIsTotal] at total
    obtain ⟨elements, rfl, each⟩ := inhabits
    rw [Value.hasFunction]
    induction elements with
    | nil => rfl
    | cons first rest hypothesis =>
      rw [Value.anyHasFunction, hypothesis fun element member =>
        each element (List.mem_cons_of_mem first member),
        hasFunction_of_inhabits elem first total (each first List.mem_cons_self)]
      rfl
  | .tuple types, value, total, inhabits => by
    rw [Inhabits] at inhabits
    obtain ⟨fields, rfl, all⟩ := inhabits
    exact anyHasFunction_of_inhabitAll types fields total all
  | .record types tail, value, total, inhabits => by
    cases tail with
    | closed =>
      rw [Inhabits] at inhabits
      obtain ⟨fields, rfl, all⟩ := inhabits
      exact anyHasFunction_of_inhabitFields types fields total all
    | «open» var => cases total
  | .var _, _, total, _ | .adt _, _, total, _ | .interface _, _, total, _
  | .effectArg _, _, total, _ | .arrow _ _ _, _, total, _ | .error, _, total, _ => by
    cases total
  | .app (.con .int) _, _, total, _ | .app (.con .float) _, _, total, _
  | .app (.con .bool) _, _, total, _ | .app (.con .string) _, _, total, _
  | .app (.con .bytes) _, _, total, _ | .app (.con .char) _, _, total, _
  | .app (.var _) _, _, total, _ | .app (.adt _) _, _, total, _
  | .app (.interface _) _, _, total, _ | .app (.effectArg _) _, _, total, _
  | .app (.app _ _) _, _, total, _ | .app (.arrow _ _ _) _, _, total, _
  | .app (.tuple _) _, _, total, _ | .app (.record _ _) _, _, total, _
  | .app .unit _, _, total, _ | .app .error _, _, total, _ => by
    cases total

/-- Nor do the components of a tuple of such types. -/
theorem anyHasFunction_of_inhabitAll : ∀ (types : List Ty) (values : List Value),
    comparisonsAreTotal types = true → InhabitAll types values →
      Value.anyHasFunction values = false
  | [], values, _, all => by
    rw [InhabitAll] at all
    subst all
    rfl
  | ty :: types, values, total, all => by
    rw [InhabitAll] at all
    obtain ⟨first, rest, rfl, inhabits, others⟩ := all
    rw [comparisonsAreTotal, Bool.and_eq_true] at total
    rw [Value.anyHasFunction, hasFunction_of_inhabits ty first total.1 inhabits,
      anyHasFunction_of_inhabitAll types rest total.2 others]
    rfl

/-- Nor do the fields of a record of such types. -/
theorem anyHasFunction_of_inhabitFields : ∀ (types : List (Symbol × Ty)) (values : List Value),
    fieldComparisonsAreTotal types = true → InhabitFields types values →
      Value.anyHasFunction values = false
  | [], values, _, all => by
    rw [InhabitFields] at all
    subst all
    rfl
  | (label, ty) :: types, values, total, all => by
    rw [InhabitFields] at all
    obtain ⟨first, rest, rfl, inhabits, others⟩ := all
    rw [fieldComparisonsAreTotal, Bool.and_eq_true] at total
    rw [Value.anyHasFunction, hasFunction_of_inhabits ty first total.1 inhabits,
      anyHasFunction_of_inhabitFields types rest total.2 others]
    rfl

end

/-- An operand and what it returned: a value of its type, and the value of a literal. -/
structure Operand (arg : CExpr) (value : Value) : Prop where
  /-- The value is one of the type of the operand. -/
  inhabits : Inhabits arg.ty value
  /-- A literal returned its value. -/
  literal : ∀ lit ty, arg = .lit lit ty → value = .literal lit

/-- Operands of types whose comparison is total have no function in them. -/
theorem anyHasFunction_of_operands {args : List CExpr} {values : List Value}
    (operands : List.Forall₂ Operand args values)
    (total : ∀ arg ∈ args, comparisonIsTotal arg.ty = true) :
    Value.anyHasFunction values = false := by
  induction operands with
  | nil => rfl
  | cons operand _ hypothesis =>
    rw [List.forall_mem_cons] at total
    rw [Value.anyHasFunction, hasFunction_of_inhabits _ _ total.1 operand.inhabits,
      hypothesis total.2]
    rfl

/-- A division fails on its operands only if the divisor is not a literal other than zero. -/
theorem divisor_of_fails {args : List CExpr} {values : List Value}
    (operands : List.Forall₂ Operand args values) (failing : fails .intDiv values = true) :
    divisorIsNonzeroLiteral args = false := by
  unfold divisorIsNonzeroLiteral
  split
  · rename_i divisor ty second
    rcases operands with _ | ⟨_, _ | ⟨operand, _⟩⟩
    · cases second
    · cases second
    · rw [List.getElem?_cons_succ, List.getElem?_cons_zero, Option.some.injEq] at second
      have value := operand.literal _ _ second
      subst value
      simp only [fails, List.getElem?_cons_succ, List.getElem?_cons_zero, Value.literal,
        beq_iff_eq] at failing
      rw [failing]
      rfl
  · rfl

/-- Reserving room fails only if the room is not the literal zero. -/
theorem capacity_of_fails {args : List CExpr} {values : List Value}
    (operands : List.Forall₂ Operand args values)
    (failing : fails .arrayWithCapacity values = true) :
    reservesNothing args = false := by
  unfold reservesNothing
  split
  · rename_i count ty first
    rcases operands with _ | ⟨operand, _⟩
    · cases first
    · rw [List.head?_cons, Option.some.injEq] at first
      have value := operand.literal _ _ first
      subst value
      simp only [fails, List.head?_cons, Value.literal, decide_eq_true_eq] at failing
      rw [beq_eq_false_iff_ne]
      rintro rfl
      exact absurd failing (by decide)
  · rfl

/-- A primitive that does not just return a value may not be moved. -/
theorem unsafe_of_fails (op : Prim) {args : List CExpr} {values : List Value}
    (operands : List.Forall₂ Operand args values) (failing : fails op values = true) :
    opUnsafeToReorder op args = true := by
  cases op with
  | intDiv | intRem =>
    rw [opUnsafeToReorder, divisor_of_fails operands failing]
    rfl
  | arrayWithCapacity =>
    rw [opUnsafeToReorder, capacity_of_fails operands failing]
    rfl
  | eq | compare | hash =>
    rw [opUnsafeToReorder, Bool.or_eq_true]
    by_contra safe
    rw [not_or, List.any_eq_true, not_exists] at safe
    have none := anyHasFunction_of_operands operands fun arg member => by
      simpa [member] using safe.2 arg
    rw [fails, none, Bool.or_false, List.isEmpty_iff] at failing
    subst failing
    cases operands
    exact safe.1 rfl
  | arrayGet | arrayPeek | dataPeek | arraySet | arrayUnique | arrayRepeat | arrayTake | arrayPut
  | arrayPush | arrayPushReserved | bytesGet | charFromCode | bytesToString => rfl
  | _ => exact absurd failing Bool.false_ne_true

section Returning

variable {m : Type → Type} [Monad m] {rt : Runtime m} {definitions : List Definition}
  {e : CExpr} {env : Locals Value}

/-- What a well typed run comes to is well typed. -/
theorem WellTyped.enters (typed : WellTyped rt definitions e env) {e' : CExpr}
    {env' : Locals Value} (step : Enters rt definitions (e, env) (e', env')) :
    WellTyped rt definitions e' env' :=
  fun reached path => typed reached (path.head step)

/-- A run is well typed when every node that it can come to returns values of its type only. -/
theorem wellTyped_of_throughout {plain : CExpr → Prop}
    (inhabits : ∀ e env value, plain e → Returns rt definitions e env value → Inhabits e.ty value)
    (bodies : ∀ definition ∈ definitions, definition.body.Throughout plain)
    (here : e.Throughout plain) : WellTyped rt definitions e env := by
  have found {target : DefId} {definition : Definition}
      (found : lookup definitions target = some definition) : definition.body.Throughout plain :=
    bodies definition (List.mem_of_find?_eq_some found)
  have step {e' e'' : CExpr} {env' env'' : Locals Value} (plainly : e'.Throughout plain)
      (step : Enters rt definitions (e', env') (e'', env'')) : e''.Throughout plain := by
    cases step with
    | inPlace member =>
      refine plainly.child _ ?_
      cases e' with
      | join | holeStart => cases member
      | letIn | letMany | reset =>
        simpa [inPlace, children] using Or.inl (List.mem_singleton.mp member)
      | _ => exact member
    | letIn _ | letMany _ | reset _ | join | holeStart => exact plainly.child _ (by simp [children])
    | global there _ | call there _ _ => exact found there
  have everywhere {reached : CExpr × Locals Value}
      (path : Relation.ReflTransGen (Enters rt definitions) (e, env) reached) :
      reached.1.Throughout plain := by
    induction path with
    | refl => exact here
    | tail _ last hypothesis => exact step hypothesis last
  exact fun reached path value returns => inhabits _ _ value (everywhere path).here returns

/-- A value returned with every number of steps from some on is with every one from a later on. -/
theorem ReturnsFrom.mono {value : Value} {least more : Nat}
    (returns : ReturnsFrom rt definitions least e env value) (later : least ≤ more) :
    ReturnsFrom rt definitions more e env value :=
  fun steps enough => returns steps (Nat.le_trans later enough)

/-- Enough for an expression to return a value with every number of steps from a positive one on. -/
theorem returnsFrom_succ {value : Value} {least : Nat} (returns : ∀ steps ≥ least, ∀ back,
      eval (machine rt definitions (steps + 1)) e back env = pure value) :
    ReturnsFrom rt definitions (least + 1) e env value := by
  intro steps enough back
  obtain ⟨steps, rfl⟩ : ∃ before, steps = before + 1 := ⟨steps - 1, by omega⟩
  exact returns steps (by omega) back

/-- An expression returns a value, and one that an operand of a primitive may have. -/
def Settles (rt : Runtime m) (definitions : List Definition) (least : Nat) (e : CExpr)
    (env : Locals Value) : Prop :=
  ∃ value, Operand e value ∧ ReturnsFrom rt definitions least e env value

/-- An expression other than a literal settles when it returns. -/
theorem WellTyped.settles (typed : WellTyped rt definitions e env) {least : Nat}
    (computed : ∀ lit ty, e ≠ .lit lit ty)
    (returns : ∃ value, ReturnsFrom rt definitions least e env value) :
    Settles rt definitions least e env := by
  obtain ⟨value, returns⟩ := returns
  exact ⟨value, ⟨typed (e, env) .refl value ⟨least, returns⟩,
    fun lit ty same => absurd same (computed lit ty)⟩, returns⟩

/-- What the operands return. -/
theorem settle_all {least : Nat} {args : List CExpr}
    (each : ∀ arg ∈ args, Settles rt definitions least arg env) :
    ∃ values, List.Forall₂ Operand args values ∧
      List.Forall₂ (ReturnsFrom rt definitions least · env ·) args values := by
  induction args with
  | nil => exact ⟨[], .nil, .nil⟩
  | cons arg args hypothesis =>
    rw [List.forall_mem_cons] at each
    obtain ⟨value, operand, returns⟩ := each.1
    obtain ⟨values, operands, rest⟩ := hypothesis each.2
    exact ⟨value :: values, .cons operand operands, .cons returns rest⟩

/-- Operands that return values return them in order. -/
theorem inOrder_returns [LawfulMonad m] {least steps : Nat} (enough : least ≤ steps)
    {args : List CExpr} {values : List Value}
    (returns : List.Forall₂ (ReturnsFrom rt definitions least · env ·) args values)
    (back : List Value → m Value) :
    inOrder (evalList (machine rt definitions steps) args back env) = pure values := by
  induction returns with
  | nil => rfl
  | cons first _ hypothesis =>
    rw [evalList, inOrder, hypothesis, first steps enough back, pure_bind, pure_bind]

/-- Answers about applications that are right with every number of steps from some on. -/
structure Right (rt : Runtime m) (definitions : List Definition) (least : Nat)
    (application : DefId → Nat → Bool) : Prop where
  /-- No application of too many arguments is said to be pure and total. -/
  known : ∀ {target arity}, application target arity = true →
    ∃ definition, lookup definitions target = some definition ∧ arity ≤ definition.params.length
  /-- The body of a definition returns when its full application is said to be. -/
  body : ∀ {target definition}, lookup definitions target = some definition →
    application target definition.params.length = true → ∀ values,
      WellTyped rt definitions definition.body (frame definition.params values) →
        ∃ value, ReturnsFrom rt definitions least definition.body
          (frame definition.params values) value

variable [LawfulMonad m] {least : Nat} {application : DefId → Nat → Bool}

omit [LawfulMonad m] in
/-- A definition that is read returns its closure, or the value of its body. -/
theorem global_returns (right : Right rt definitions least application) {target : DefId} {ty : Ty}
    (typed : WellTyped rt definitions (.global target ty) env)
    (allowed : application target 0 = true) : ∃ value, ReturnsFrom rt definitions (least + 1)
      (.global target ty) env value := by
  obtain ⟨definition, found, _⟩ := right.known allowed
  by_cases nullary : definition.params = []
  · have whole : application target definition.params.length = true := by
      rw [nullary]
      exact allowed
    obtain ⟨value, returns⟩ := right.body found whole [] (typed.enters (.global found nullary))
    refine ⟨value, fun steps enough back => ?_⟩
    obtain ⟨steps, rfl⟩ : ∃ before, steps = before + 1 := ⟨steps - 1, by omega⟩
    rw [eval, machine]
    simp only [operations, found, nullary, List.isEmpty_nil, if_true]
    rw [nullary] at returns
    exact returns steps (by omega) _
  · refine ⟨.definition target [], fun steps enough back => ?_⟩
    obtain ⟨steps, rfl⟩ : ∃ before, steps = before + 1 := ⟨steps - 1, by omega⟩
    rw [eval, machine]
    simp only [operations, found, List.isEmpty_iff, nullary, if_false]

/-- An application whose parts return applies what they return. -/
theorem eval_app_of_returns {M : Machine m Value} {func : CExpr} {args : List CExpr}
    {back : List Value → m Value} {callee : Value} {values : List Value}
    (first : eval M func back env = pure callee)
    (operands : inOrder (evalList M args back env) = pure values)
    (reuse : List (Option LocalId)) (alloc : ClosureAlloc) (ty : Ty) :
    eval M (.app func args reuse alloc ty) back env =
      M.apply callee values (reuse.map (Option.map env)) := by
  simp only [eval, first, operands, pure_bind]

/-- A full or partial application of a definition returns when its body does. -/
theorem app_returns (right : Right rt definitions least application) {target : DefId}
    {args : List CExpr} {reuse : List (Option LocalId)} {alloc : ClosureAlloc} {ty ty' : Ty}
    (typed : WellTyped rt definitions (.app (.global target ty) args reuse alloc ty') env)
    (allowed : application target args.length = true) {values : List Value} {later : Nat}
    (operands : List.Forall₂ (ReturnsFrom rt definitions later · env ·) args values)
    (after : least + 1 ≤ later) : ∃ value, ReturnsFrom rt definitions later
      (.app (.global target ty) args reuse alloc ty') env value := by
  have length := operands.length_eq
  obtain ⟨definition, found, fits⟩ := right.known allowed
  by_cases nullary : definition.params = []
  · rw [nullary, List.length_nil, Nat.le_zero, List.length_eq_zero_iff] at fits
    subst fits
    cases operands
    have read : WellTyped rt definitions (.global target ty) env :=
      typed.enters (.inPlace List.mem_cons_self)
    obtain ⟨value, returns⟩ := global_returns right read allowed
    refine ⟨value, fun steps enough back => ?_⟩
    rw [eval_app_of_returns (returns steps (by omega) back) rfl]
    obtain ⟨steps, rfl⟩ : ∃ before, steps = before + 1 := ⟨steps - 1, by omega⟩
    rfl
  have closure (steps : Nat) (enough : steps ≥ later) (back : List Value → m Value) :
      eval (machine rt definitions steps) (.global target ty) back env =
        pure (.definition target []) := by
    obtain ⟨steps, rfl⟩ : ∃ before, steps = before + 1 := ⟨steps - 1, by omega⟩
    rw [eval, machine]
    simp only [operations, found, List.isEmpty_iff, nullary, if_false]
  by_cases none : values = []
  · refine ⟨.definition target [], fun steps enough back => ?_⟩
    rw [eval_app_of_returns (closure steps enough back) (inOrder_returns enough operands back),
      none]
    obtain ⟨steps, rfl⟩ : ∃ before, steps = before + 1 := ⟨steps - 1, by omega⟩
    rfl
  by_cases whole : values.length = definition.params.length
  · rw [length, whole] at allowed
    have returned := operands.imp fun _ _ returns =>
      (⟨later, returns⟩ : Returns rt definitions _ _ _)
    obtain ⟨value, returns⟩ := right.body found allowed values
      (typed.enters (.call found returned whole))
    refine ⟨value, fun steps enough back => ?_⟩
    rw [eval_app_of_returns (closure steps enough back) (inOrder_returns enough operands back)]
    obtain ⟨steps, rfl⟩ : ∃ before, steps = before + 1 := ⟨steps - 1, by omega⟩
    rw [machine]
    simp only [operations, found, List.isEmpty_iff, none, if_false, List.nil_append, whole,
      Nat.lt_irrefl, if_true]
    exact returns steps (by omega) _
  · refine ⟨.definition target values, fun steps enough back => ?_⟩
    rw [eval_app_of_returns (closure steps enough back) (inOrder_returns enough operands back)]
    obtain ⟨steps, rfl⟩ : ∃ before, steps = before + 1 := ⟨steps - 1, by omega⟩
    have fewer : values.length < definition.params.length := by omega
    rw [machine]
    simp only [operations, found, List.isEmpty_iff, none, if_false, List.nil_append, fewer,
      if_true]

/-- Code whose applications are answered rightly returns a value. -/
theorem settles_of_pure (right : Right rt definitions least application) (e : CExpr) :
    ∀ env, WellTyped rt definitions e env → exprPureTotalWith application e = true →
      Settles rt definitions (least + 1) e env := by
  induction e using childInduction with
  | node e below =>
    intro env typed allowed
    have child {child : CExpr} {env' : Locals Value} (among : child ∈ e.children)
        (step : Enters rt definitions (e, env) (child, env'))
        (allowed : exprPureTotalWith application child = true) :
        ∃ value, ReturnsFrom rt definitions (least + 1) child env' value := by
      obtain ⟨value, _, returns⟩ := below child among env' (typed.enters step) allowed
      exact ⟨value, returns⟩
    have all (args : List CExpr) (members : ∀ arg ∈ args, arg ∈ inPlace e)
        (among : ∀ arg ∈ args, arg ∈ e.children)
        (allowed : allPureTotalWith application args = true) :=
      settle_all fun arg member => below arg (among arg member) env
        (typed.enters (.inPlace (members arg member))) (allPureTotalWith_mem allowed arg member)
    cases e with
    | foreign | recur | error => cases allowed
    | lit lit ty =>
      have returns : ReturnsFrom rt definitions (least + 1) (.lit lit ty) env (.literal lit) :=
        returnsFrom_succ fun steps _ back => rfl
      exact ⟨.literal lit, ⟨typed _ .refl _ ⟨_, returns⟩, fun _ _ same => by cases same; rfl⟩,
        returns⟩
    | loc slot ty =>
      exact typed.settles (fun _ _ same => by cases same)
        ⟨env slot, returnsFrom_succ fun steps _ back => rfl⟩
    | makeClosure func captures alloc ty =>
      exact typed.settles (fun _ _ same => by cases same)
        ⟨.closure func (captures.map env), returnsFrom_succ fun steps _ back => rfl⟩
    | global target ty =>
      exact typed.settles (fun _ _ same => by cases same) (global_returns right typed allowed)
    | prim op args ty =>
      rw [exprPureTotalWith, Bool.and_eq_true, Bool.not_eq_true'] at allowed
      obtain ⟨values, operands, returns⟩ :=
        all args (fun _ member => member) (fun _ member => member) allowed.2
      have succeeds : fails op values = false := by
        by_contra failing
        rw [Bool.not_eq_false] at failing
        rw [unsafe_of_fails op operands failing] at allowed
        cases allowed.1
      refine typed.settles (fun _ _ same => by cases same)
        ⟨rt.result op values, returnsFrom_succ fun steps enough back => ?_⟩
      simp only [eval, inOrder_returns (Nat.succ_le_succ enough) returns back, pure_bind]
      show (if fails op values then rt.abort else pure (rt.result op values)) = _
      rw [succeeds]
      rfl
    | app func args reuse alloc ty =>
      cases func with
      | global target ty' =>
        rw [exprPureTotalWith, Bool.and_eq_true] at allowed
        obtain ⟨values, _, returns⟩ := all args (fun _ member => List.mem_cons_of_mem _ member)
          (fun _ member => List.mem_cons_of_mem _ member) allowed.2
        exact typed.settles (fun _ _ same => by cases same)
          (app_returns right typed allowed.1 returns (Nat.le_refl _))
      | _ => cases allowed
    | makeData tag args reuse scalars niche ty =>
      obtain ⟨values, _, returns⟩ :=
        all args (fun _ member => member) (fun _ member => member) allowed
      refine typed.settles (fun _ _ same => by cases same)
        ⟨.data tag values, returnsFrom_succ fun steps enough back => ?_⟩
      simp only [eval, inOrder_returns (Nat.succ_le_succ enough) returns back, pure_bind]
      rfl
    | spread args ty =>
      obtain ⟨values, _, returns⟩ :=
        all args (fun _ member => member) (fun _ member => member) allowed
      refine typed.settles (fun _ _ same => by cases same)
        ⟨.data 0 values, returnsFrom_succ fun steps enough back => ?_⟩
      simp only [eval, inOrder_returns (Nat.succ_le_succ enough) returns back, pure_bind]
      rfl
    | ite cond yes no ty =>
      rw [exprPureTotalWith, Bool.and_eq_true, Bool.and_eq_true] at allowed
      obtain ⟨tested, test⟩ := child (List.mem_cons_self) (.inPlace List.mem_cons_self)
        allowed.1.1
      obtain ⟨first, yields⟩ := @child yes env (by simp [children])
        (.inPlace (by simp [inPlace, children])) allowed.1.2
      obtain ⟨second, yields'⟩ := @child no env (by simp [children])
        (.inPlace (by simp [inPlace, children])) allowed.2
      refine typed.settles (fun _ _ same => by cases same)
        ⟨if tested.holds then first else second, returnsFrom_succ fun steps enough back => ?_⟩
      simp only [eval, test _ (Nat.succ_le_succ enough) back, pure_bind]
      show (pure tested.holds >>= fun holds => _) = _
      rw [pure_bind]
      split
      · exact yields _ (Nat.succ_le_succ enough) back
      · exact yields' _ (Nat.succ_le_succ enough) back
    | letIn slot value body ty =>
      rw [exprPureTotalWith, Bool.and_eq_true] at allowed
      obtain ⟨held, holds⟩ := @child value env (by simp [children])
        (.inPlace (by simp [inPlace])) allowed.1
      obtain ⟨result, returns⟩ := @child body _ (by simp [children])
        (.letIn ⟨_, holds⟩) allowed.2
      refine typed.settles (fun _ _ same => by cases same)
        ⟨result, returnsFrom_succ fun steps enough back => ?_⟩
      simp only [eval, holds _ (Nat.succ_le_succ enough) back, pure_bind]
      exact returns _ (Nat.succ_le_succ enough) back
    | letMany slots value body ty =>
      rw [exprPureTotalWith, Bool.and_eq_true] at allowed
      obtain ⟨held, holds⟩ := @child value env (by simp [children])
        (.inPlace (by simp [inPlace])) allowed.1
      obtain ⟨result, returns⟩ := @child body _ (by simp [children])
        (.letMany ⟨_, holds⟩) allowed.2
      refine typed.settles (fun _ _ same => by cases same)
        ⟨result, returnsFrom_succ fun steps enough back => ?_⟩
      simp only [eval, holds _ (Nat.succ_le_succ enough) back, pure_bind]
      show (pure held.fields >>= fun parts => _) = _
      rw [pure_bind]
      exact returns _ (Nat.succ_le_succ enough) back
    | reset value token body ty =>
      rw [exprPureTotalWith, Bool.and_eq_true] at allowed
      obtain ⟨held, holds⟩ := @child value env (by simp [children])
        (.inPlace (by simp [inPlace])) allowed.1
      obtain ⟨result, returns⟩ := @child body _ (by simp [children])
        (.reset ⟨_, holds⟩) allowed.2
      refine typed.settles (fun _ _ same => by cases same)
        ⟨result, returnsFrom_succ fun steps enough back => ?_⟩
      simp only [eval, holds _ (Nat.succ_le_succ enough) back, pure_bind]
      show (pure (rt.reset held) >>= fun memory => _) = _
      rw [pure_bind]
      exact returns _ (Nat.succ_le_succ enough) back
    | join params body ty =>
      obtain ⟨result, returns⟩ := @child body _ (by simp [children]) .join allowed
      refine typed.settles (fun _ _ same => by cases same)
        ⟨result, returnsFrom_succ fun steps enough back => ?_⟩
      simp only [eval]
      exact returns _ (Nat.succ_le_succ enough) _
    | holeStart hole body ty =>
      obtain ⟨result, returns⟩ := @child body _ (by simp [children]) .holeStart allowed
      refine typed.settles (fun _ _ same => by cases same)
        ⟨result, returnsFrom_succ fun steps enough back => ?_⟩
      simp only [eval]
      show (pure rt.destination >>= fun destination => _) = _
      rw [pure_bind]
      exact returns _ (Nat.succ_le_succ enough) back
    | freeReuse slot body ty | dup slot body ty | drop slot body ty =>
      obtain ⟨result, returns⟩ := @child body env (by simp [children])
        (.inPlace (by simp [inPlace, children])) allowed
      refine typed.settles (fun _ _ same => by cases same)
        ⟨result, returnsFrom_succ fun steps enough back => ?_⟩
      simp only [eval]
      show (pure () >>= fun _ => _) = _
      rw [pure_bind]
      exact returns _ (Nat.succ_le_succ enough) back
    | dataTag base niche ty =>
      obtain ⟨value, holds⟩ := @child base env (by simp [children])
        (.inPlace (by simp [inPlace, children])) allowed
      refine typed.settles (fun _ _ same => by cases same)
        ⟨.int (Int64.ofNat value.tag), returnsFrom_succ fun steps enough back => ?_⟩
      simp only [eval, holds _ (Nat.succ_le_succ enough) back, pure_bind]
      rfl
    | dataField base index scalar niche ty =>
      obtain ⟨value, holds⟩ := @child base env (by simp [children])
        (.inPlace (by simp [inPlace, children])) allowed
      refine typed.settles (fun _ _ same => by cases same)
        ⟨value.field (Eval.place env index), returnsFrom_succ fun steps enough back => ?_⟩
      simp only [eval, holds _ (Nat.succ_le_succ enough) back, pure_bind]
      rfl
    | holeFill hole cell slot ty =>
      obtain ⟨value, holds⟩ := @child cell env (by simp [children])
        (.inPlace (by simp [inPlace, children])) allowed
      refine typed.settles (fun _ _ same => by cases same)
        ⟨rt.advance (env hole) value slot, returnsFrom_succ fun steps enough back => ?_⟩
      simp only [eval, holds _ (Nat.succ_le_succ enough) back, pure_bind]
      rfl
    | holeClose hole base ty =>
      obtain ⟨value, holds⟩ := @child base env (by simp [children])
        (.inPlace (by simp [inPlace, children])) allowed
      refine typed.settles (fun _ _ same => by cases same)
        ⟨rt.finish (env hole) value, returnsFrom_succ fun steps enough back => ?_⟩
      simp only [eval, holds _ (Nat.succ_le_succ enough) back, pure_bind]
      rfl

/-- Asking every body again keeps the answers right, with a step more. -/
theorem Right.round {impure : List Bool}
    (right : Right rt definitions least (applicationPureTotalWith definitions impure)) :
    Right rt definitions (least + 1)
      (applicationPureTotalWith definitions (Purity.round definitions impure)) where
  known {target arity} allowed := by
    rw [applicationPureTotalWith_round, Option.any_eq_true] at allowed
    obtain ⟨definition, found, fits⟩ := allowed
    refine ⟨definition, found, ?_⟩
    simp only [Bool.or_eq_true, Bool.and_eq_true, decide_eq_true_eq] at fits
    omega
  body {target definition} found allowed values typed := by
    rw [applicationPureTotalWith_round, show (definitions.find? fun definition =>
      definition.target = target) = some definition from found] at allowed
    simp only [Option.any_some, Nat.lt_irrefl, decide_false, Bool.false_or, decide_true,
      Bool.true_and] at allowed
    obtain ⟨value, _, returns⟩ := settles_of_pure right definition.body _ typed allowed
    exact ⟨value, returns⟩

omit [LawfulMonad m] in
/-- With every definition taken to be impure, only partial applications are said to be pure. -/
theorem right_start : Right rt definitions 0 (applicationPureTotalWith definitions
    (List.replicate definitions.length true)) := by
  have start (target : DefId) (arity : Nat) : applicationPureTotalWith definitions
      (List.replicate definitions.length true) target arity =
        (lookup definitions target).any fun definition => arity < definition.params.length := by
    rw [applicationPureTotalWith, ← List.map_const', find_zip_map, lookup]
    cases definitions.find? fun definition => definition.target = target with
    | none => rfl
    | some definition =>
      simp only [Option.map_some, Option.any_some]
      split
      · rename_i less
        rw [Nat.compare_eq_lt] at less
        exact (decide_eq_true less).symm
      · rename_i same
        rw [Nat.compare_eq_eq] at same
        simp [same]
      · rename_i more
        rw [Nat.compare_eq_gt] at more
        exact (decide_eq_false (Nat.not_lt_of_lt more)).symm
  refine ⟨fun {target arity} allowed => ?_, fun {target definition} found allowed => ?_⟩
  · rw [start, Option.any_eq_true] at allowed
    obtain ⟨definition, found, less⟩ := allowed
    exact ⟨definition, found, Nat.le_of_lt (of_decide_eq_true less)⟩
  · rw [start, found, Option.any_some, decide_eq_true_eq] at allowed
    exact absurd allowed (Nat.lt_irrefl _)

/-- The final answers are right with some number of steps. -/
theorem right_final (rt : Runtime m) (definitions : List Definition) :
    ∃ least, Right rt definitions least (applicationPureTotal definitions) :=
  @Descent.loop_keeps _ _ (round definitions) (fun impure => ∃ least, Right rt definitions least
      (applicationPureTotalWith definitions impure))
    (fun _ ⟨least, right⟩ => ⟨least + 1, right.round⟩) _ _ ⟨0, right_start⟩

omit [LawfulMonad m] in
/-- Operands that return do so with every number of steps from some on. -/
theorem returnsFrom_all {args : List CExpr}
    (each : ∀ arg ∈ args, ∃ value, Returns rt definitions arg env value) (least : Nat) :
    ∃ later ≥ least, ∃ values,
      List.Forall₂ (ReturnsFrom rt definitions later · env ·) args values := by
  induction args with
  | nil => exact ⟨least, Nat.le_refl least, [], .nil⟩
  | cons arg args hypothesis =>
    rw [List.forall_mem_cons] at each
    obtain ⟨value, needed, returns⟩ := each.1
    obtain ⟨later, after, values, rest⟩ := hypothesis each.2
    refine ⟨max needed later, by omega, value :: values, .cons (returns.mono (by omega)) ?_⟩
    exact rest.imp fun _ _ returns => returns.mono (by omega)

/-- Code said to be pure and total returns a value without an effect or an abort, and so does a full
application of a definition said to be; a primitive that may do otherwise may not be moved. -/
theorem pure_total_sound (rt : Runtime m) (definitions : List Definition) :
    (∀ e env, WellTyped rt definitions e env → exprPureTotal definitions e = true →
      ∃ value, Returns rt definitions e env value) ∧
    (∀ target args reuse alloc ty ty' env,
      WellTyped rt definitions (.app (.global target ty) args reuse alloc ty') env →
      (∀ arg ∈ args, ∃ value, Returns rt definitions arg env value) →
      applicationPureTotal definitions target args.length = true →
        ∃ value, Returns rt definitions (.app (.global target ty) args reuse alloc ty') env value) ∧
    ∀ op args values, List.Forall₂ Operand args values → fails op values = true →
      opUnsafeToReorder op args = true := by
  obtain ⟨least, right⟩ := right_final rt definitions
  refine ⟨fun e env typed allowed => ?_,
    fun target args reuse alloc ty ty' env typed each allowed => ?_,
    fun op args values operands failing => unsafe_of_fails op operands failing⟩
  · obtain ⟨value, _, returns⟩ := settles_of_pure right e env typed allowed
    exact ⟨value, _, returns⟩
  · obtain ⟨later, after, values, returns⟩ := returnsFrom_all each (least + 1)
    obtain ⟨value, returned⟩ := app_returns right typed allowed returns after
    exact ⟨value, later, returned⟩

end Returning

section Witness

/-- A machine without effects, in which only division computes. -/
def quiet : Runtime Option where
  result op values := match op, values with
    | .intDiv, [.int dividend, .int divisor] => .int (dividend / divisor)
    | _, _ => .unit
  abort := none
  foreign _ _ := none
  enter _ _ _ := none
  stop := none
  reset _ := .unit
  destination := .unit
  advance destination _ _ := destination
  finish _ base := base

/-- A definition that halves its parameter. -/
def halving : List Definition :=
  [⟨⟨0, 0⟩, [0], .prim .intDiv [.loc 0 (.var 0), .lit (.int 2) (.con .int)] (.var 0)⟩]

/-- An integer literal, or a node of a type that says nothing. -/
def saysLittle : CExpr → Bool
  | .lit (.int _) ty => decide (ty = .con .int)
  | e => decide (e.ty = .var 0)

/-- Such nodes return values of their types. -/
theorem saysLittle_inhabits (e : CExpr) (env : Locals Value) (value : Value)
    (little : saysLittle e = true) (returns : Returns quiet halving e env value) :
    Inhabits e.ty value := by
  unfold saysLittle at little
  split at little
  · rename_i n ty
    obtain ⟨least, returns⟩ := returns
    have same := returns (least + 1) (Nat.le_succ least) fun _ => none
    have value_eq : some (Value.int n) = some value := same
    rw [CExpr.ty, of_decide_eq_true little, Inhabits]
    exact ⟨n, (Option.some_inj.mp value_eq).symm⟩
  · rw [of_decide_eq_true little]
    trivial

/-- Halving seven returns. -/
theorem pure_total_sound_halving : ∃ value, Returns quiet halving
    (.app (.global ⟨0, 0⟩ (.var 0)) [.lit (.int 7) (.con .int)] [] .heap (.var 0))
    (fun _ => .unit) value :=
  (pure_total_sound quiet halving).1 _ _
    (wellTyped_of_throughout saysLittle_inhabits
      (by
        intro definition member
        rw [halving, List.mem_singleton] at member
        subst member
        exact throughout_of_everywhere (by decide))
      (throughout_of_everywhere (by decide)))
    (by decide)

end Witness

end Fai.Purity
