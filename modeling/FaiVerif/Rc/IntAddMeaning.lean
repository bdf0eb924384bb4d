import FaiVerif.Rc.IntAdd

/-!
# What adding along a recursion does to a run

A definition is run with a number of steps: a call of it takes a step, as does a turn of its loop
after the first, and a run without a step left stops. With any number of steps the loop does what
the recursion does.
-/

namespace Fai.IntAdd

open CExpr Eval Slots

variable {m : Type → Type} {V : Type} [Monad m]

/-- A definition as its calls see it: its parameters and its closure. -/
structure Callee (V : Type) where
  /-- The definition. -/
  target : DefId
  /-- The number of its parameters. -/
  arity : Nat
  /-- Its closure. -/
  closure : V
  /-- Whether a value is its closure. -/
  isClosure : V → Bool
  /-- Its closure is. -/
  isClosure_closure : isClosure closure = true

/-- A machine in which a call of the definition with all its arguments does what is given. -/
def calling (M : Machine m V) (callee : Callee V) (call : List V → m V) : Machine m V :=
  { M with
    global := fun target => if target = callee.target then pure callee.closure else M.global target
    apply := fun value args tokens =>
      if callee.isClosure value && decide (args.length = callee.arity) && tokens.isEmpty then
        call args
      else M.apply value args tokens }

/-- A machine in which a loop does its first turn, and what is given when it goes around. -/
def looping (M : Machine m V) (turn : List V → m V) : Machine m V :=
  { M with loop := fun step start => step turn start }

section Runs

variable (M : Machine m V) (callee : Callee V) (stop : m V) (base : Locals V)
  (params : List LocalId)

/-- What the locals hold where a body starts. -/
def entered (slots : List LocalId) (values : List V) : Locals V :=
  base.setAll (M.lit .unit) slots values

/-- A definition run with a number of steps. -/
def recursion (body : CExpr) : Nat → List V → m V
  | 0, _ => stop
  | steps + 1, args =>
    eval (calling M callee (recursion body steps)) body (fun _ => stop) (entered M base params args)

variable (flat : CExpr) (slots : List LocalId) (turn : CExpr)

mutual

/-- A definition made a loop, run with a number of steps. -/
def loopCalls : Nat → List V → m V
  | 0, _ => stop
  | steps + 1, args =>
    eval (looping (calling M callee (loopCalls steps)) (loopTurns steps)) flat (fun _ => stop)
      (entered M base params args)

/-- A turn of the loop, with what its parameters hold. -/
def loopTurns : Nat → List V → m V
  | 0, _ => stop
  | steps + 1, values =>
    eval (looping (calling M callee (loopCalls steps)) (loopTurns steps)) turn (loopTurns steps)
      (entered M base slots values)

end

end Runs

/-- A machine that adds integers with wrapping. -/
structure AddsIntegers (M : Machine m V) (toInt : V → Int64) : Prop where
  /-- Adding wraps around. -/
  add : ∀ left right,
    M.prim .intAdd [left, right] = pure (M.lit (.int (toInt left + toInt right)))
  /-- A literal is the integer it says. -/
  read : ∀ number, toInt (M.lit (.int number)) = number

/-- Neither a loop nor a jump to one. -/
def loopless : CExpr → Bool
  | .join _ _ _ | .recur _ _ => false
  | _ => true

/-- Without loops, what a loop does and where a jump goes do not matter. -/
theorem eval_looping (M : Machine m V) (around : List V → m V) (e : CExpr) :
    (e.Throughout fun e => loopless e = true) → ∀ (back back' : List V → m V) (env : Locals V),
      eval (looping M around) e back env = eval M e back' env := by
  induction e using childInduction with
  | node e below =>
    intro throughout back back' env
    have each {child : CExpr} (member : child ∈ e.children) (env : Locals V) :
        eval (looping M around) child back env = eval M child back' env :=
      below child member (throughout.child child member) back back' env
    have all (args : List CExpr) (among : ∀ arg ∈ args, arg ∈ e.children) :
        evalList (looping M around) args back env = evalList M args back' env := by
      rw [evalList_eq_map, evalList_eq_map]
      exact List.map_congr_left fun arg member => each (among arg member) env
    have here := throughout.here
    cases e with
    | join | recur => cases here
    | lit | loc | global | makeClosure | error => rfl
    | prim op args | foreign symbol args | spread args | makeData tag args =>
      simp only [eval, all args fun arg member => member]
      rfl
    | app func args =>
      simp only [eval, each (List.mem_cons_self : func ∈ func :: args),
        all args fun arg member => List.mem_cons_of_mem func member]
      rfl
    | ite cond yes no =>
      simp only [children, List.mem_cons, List.not_mem_nil, or_false] at each
      simp only [eval, each (.inl rfl), each (.inr (.inl rfl)), each (.inr (.inr rfl))]
      rfl
    | letIn =>
      simp only [children, List.mem_cons, List.not_mem_nil, or_false] at each
      simp only [eval, each (.inl rfl), each (.inr rfl)]
    | letMany | reset =>
      simp only [children, List.mem_cons, List.not_mem_nil, or_false] at each
      simp only [eval, each (.inl rfl), each (.inr rfl)]
      rfl
    | _ =>
      simp only [children, List.mem_singleton] at each
      simp only [eval, each rfl]
      rfl

/-- Operands are as many values as there are operands. -/
theorem yields_inOrder [LawfulMonad m] (runs : List (m V)) :
    Yields (fun values => values.length = runs.length) (inOrder runs) := by
  induction runs with
  | nil => exact ⟨pure ⟨[], rfl⟩, by rw [map_pure]; rfl⟩
  | cons first rest hypothesis =>
    obtain ⟨proved, same⟩ := hypothesis
    refine ⟨first >>= fun value => proved >>= fun values =>
      pure ⟨value :: values.val, congrArg Nat.succ values.property⟩, ?_⟩
    rw [inOrder, ← same]
    simp only [map_bind, bind_map_left, map_pure]

/-- A call of the definition with all its arguments is one of its closure. -/
theorem selfCallArgs_some {target : DefId} {arity : Nat} {e : CExpr} {args : List CExpr}
    (found : selfCallArgs target arity e = some args) :
    args.length = arity ∧ ∃ ty alloc ty', e = .app (.global target ty) args [] alloc ty' := by
  cases e with
  | app func args' reuse alloc ty =>
    cases func with
    | global other ty' =>
      rw [selfCallArgs] at found
      split_ifs at found with whole
      obtain ⟨none, rfl, length⟩ := whole
      rw [Option.some.injEq] at found
      subst found
      rw [List.isEmpty_iff] at none
      subst none
      exact ⟨length, ty', alloc, ty, rfl⟩
    | _ => cases found
  | _ => cases found

/-- A call of the definition with all its arguments does what is given. -/
theorem eval_selfCall [LawfulMonad m] {M : Machine m V} {callee : Callee V} {call : List V → m V}
    {e : CExpr} {args : List CExpr} (found : selfCallArgs callee.target callee.arity e = some args)
    (back : List V → m V) (env : Locals V) : eval (calling M callee call) e back env =
      inOrder (evalList (calling M callee call) args back env) >>= call := by
  obtain ⟨length, ty, alloc, ty', rfl⟩ := selfCallArgs_some found
  have closure : (calling M callee call).global callee.target = pure callee.closure := if_pos rfl
  simp only [eval, closure, pure_bind]
  refine (yields_inOrder _).bind_congr fun values many => ?_
  rw [evalList_eq_map, List.length_map, length] at many
  refine if_pos ?_
  rw [callee.isClosure_closure, many, decide_eq_true rfl]
  rfl

section Adding

variable {M : Machine m V} {toInt : V → Int64}

/-- The sum of two values read as integers. -/
def plus (M : Machine m V) (toInt : V → Int64) (left right : V) : V :=
  M.lit (.int (toInt left + toInt right))

/-- Sums may be added in another order. -/
theorem plus_plus (adds : AddsIntegers M toInt) (first second third : V) :
    plus M toInt (plus M toInt first second) third =
      plus M toInt first (plus M toInt third second) := by
  simp only [plus, adds.read]
  rw [Int64.add_assoc, Int64.add_comm (toInt second)]

/-- What is added to a result is an operand of a sum whose other operand is the result. -/
theorem contribution_some {result : LocalId} {body other : CExpr}
    (found : contribution result body = some other) :
    isContribution result other = true ∧ ∃ ty ty',
      body = .prim .intAdd [.loc result ty', other] ty ∨
        body = .prim .intAdd [other, .loc result ty'] ty := by
  have use {e : CExpr} (isUse : isLocal result e = true) : ∃ ty, e = .loc result ty := by
    cases e with
    | loc slot ty =>
      rw [isLocal, decide_eq_true_eq] at isUse
      exact ⟨ty, by rw [isUse]⟩
    | _ => cases isUse
  unfold contribution at found
  split at found
  · rename_i left right ty
    rw [Option.filter_eq_some_iff] at found
    obtain ⟨found, isContribution⟩ := found
    refine ⟨isContribution, ty, ?_⟩
    split_ifs at found with first second
    · obtain ⟨ty', rfl⟩ := use first
      rw [Option.some.injEq] at found
      exact ⟨ty', .inl (by rw [found])⟩
    · obtain ⟨ty', rfl⟩ := use second
      rw [Option.some.injEq] at found
      exact ⟨ty', .inr (by rw [found])⟩
  · cases found

/-- A contribution is a value that is there whatever the result is. -/
theorem isContribution_value {result : LocalId} {other : CExpr}
    (contributes : isContribution result other = true) (M : Machine m V) :
    ∃ value : Locals V → V,
      (∀ M' : Machine m V, M'.lit = M.lit → ∀ back env, eval M' other back env = pure (value env)) ∧
      (∀ env held, value (env.set result held) = value env) ∧
      ∀ visible env env', other.Sees (insert result visible) → Agree visible env env' →
        value env' = value env := by
  have contributes := (Bool.and_eq_true_iff.mp contributes).2
  cases other with
  | loc slot ty =>
    have apart : slot ≠ result := of_decide_eq_true contributes
    refine ⟨fun env => env slot, fun M' _ back env => by simp only [eval],
      fun env held => if_neg apart, fun visible env env' sees agree => ?_⟩
    exact (agree slot (sees.resolve_left apart)).symm
  | lit value ty =>
    refine ⟨fun _ => M.lit value, fun M' same back env => by simp only [eval, same],
      fun _ _ => rfl, fun _ _ _ _ _ => rfl⟩
  | _ => cases contributes

/-- A call of the definition and what is added to its result. -/
theorem eval_contribution [LawfulMonad m] (adds : AddsIntegers M toInt) (callee : Callee V)
    (call : List V → m V) {result : LocalId} {body other : CExpr}
    (found : contribution result body = some other) : ∃ value : Locals V → V,
      (∀ M' : Machine m V, M'.lit = M.lit → ∀ back env, eval M' other back env = pure (value env)) ∧
      (∀ back env held, eval (calling M callee call) body back (env.set result held) =
        pure (plus M toInt held (value env))) ∧
      ∀ visible env env', body.Sees (insert result visible) → Agree visible env env' →
        value env' = value env := by
  obtain ⟨contributes, ty, ty', body⟩ := contribution_some found
  obtain ⟨value, runs, kept, agreed⟩ := isContribution_value contributes M
  have here (env : Locals V) (held : V) : env.set result held result = held := if_pos rfl
  have sum (left right : V) : (calling M callee call).prim .intAdd [left, right] =
      pure (plus M toInt left right) := adds.add left right
  have other := runs (calling M callee call) rfl
  refine ⟨value, runs, fun back env held => ?_, fun visible env env' sees agree => ?_⟩
  · rcases body with rfl | rfl
    · simp only [eval, evalList, inOrder, other, here, kept, pure_bind, sum]
    · simp only [eval, evalList, inOrder, other, here, kept, pure_bind, sum]
      rw [plus, plus, Int64.add_comm]
  · refine agreed visible env env' ?_ agree
    rcases body with rfl | rfl
    · exact sees.2.1
    · exact sees.1

/-- A jump with the sum carried goes around with what the arguments and the sum are. -/
theorem eval_recur [LawfulMonad m] {M' : Machine m V} {args : List CExpr} {carried : CExpr}
    {around : List V → m V} {env : Locals V} {value : V}
    (here : eval M' carried around env = pure value) :
    eval M' (recur args carried) around env =
      inOrder (evalList M' args around env) >>= fun values => around (values ++ [value]) := by
  rw [recur]
  simp only [eval]
  rw [evalList_eq_map, List.map_append, inOrder_append, ← evalList_eq_map, bind_assoc]
  simp only [List.map_cons, List.map_nil, inOrder, here, pure_bind]

/-- A turn of the loop adds the sum so far to what the body returns: with calls that do the same on
both sides, and a loop that adds its sum to a call when it goes around. -/
theorem eval_rewrite [LawfulMonad m] (adds : AddsIntegers M toInt) {callee : Callee V}
    {sum : LocalId} {call around : List V → m V}
    (turns : ∀ values value, values.length = callee.arity →
      around (values ++ [value]) = plus M toInt value <$> call values) (e : CExpr) :
    (e.Throughout fun e => loopless e = true) →
    (e.Throughout fun e => ∀ child slots, (child, slots) ∈ e.scopes → sum ∉ slots) →
    ∀ (visible : Set LocalId) (back : List V → m V) (env env' : Locals V), e.Sees visible →
      sum ∉ visible → Agree visible env env' →
      eval (looping (calling M callee call) around) (rewrite sum callee.target callee.arity e)
          around env' =
        plus M toInt (env' sum) <$> eval (calling M callee call) e back env := by
  induction e using childInduction with
  | node e below =>
    intro throughout unbound visible back env env' sees absent agree
    -- What is left as it is runs alike.
    have kept {child : CExpr} (loopless : child.Throughout fun e => loopless e = true)
        (sees : child.Sees visible) :
        eval (looping (calling M callee call) around) child around env' =
          eval (calling M callee call) child back env := by
      rw [eval_looping _ _ child loopless around back env',
        eval_agree (calling M callee call) child back sees agree]
    have addSum (right : V) : (looping (calling M callee call) around).prim .intAdd
        [env' sum, right] = pure (plus M toInt (env' sum) right) := adds.add _ _
    -- Where a body ends, a call of the definition goes around, and the sum is added to the rest.
    have ends : eval (looping (calling M callee call) around)
        (rewriteEnd sum callee.target callee.arity e) around env' =
          plus M toInt (env' sum) <$> eval (calling M callee call) e back env := by
      rw [rewriteEnd]
      cases found : selfCallArgs callee.target callee.arity e with
      | some args =>
        obtain ⟨length, ty, alloc, ty', rfl⟩ := selfCallArgs_some found
        have operands : evalList (looping (calling M callee call) around) args around env' =
            evalList (calling M callee call) args back env := by
          rw [evalList_eq_map, evalList_eq_map]
          exact List.map_congr_left fun arg member =>
            kept (throughout.child arg (List.mem_cons_of_mem _ member))
              (seesAll_iff.mp sees.2.1 arg member)
        have carried : eval (looping (calling M callee call) around) (.loc sum int) around env' =
            pure (env' sum) := by simp only [eval]
        simp only
        rw [eval_recur carried, eval_selfCall found, operands, map_bind]
        refine (yields_inOrder _).bind_congr fun values many => ?_
        rw [evalList_eq_map, List.length_map, length] at many
        exact turns values (env' sum) many
      | none =>
        simp only [add, eval, evalList, inOrder, kept throughout sees, pure_bind, bind_assoc,
          addSum, map_eq_pure_bind]
    have inside {child : CExpr} {slot : LocalId} (member : (child, [slot]) ∈ e.scopes)
        (sees : child.Sees (insert slot visible)) (held : V) :
        eval (looping (calling M callee call) around)
            (rewrite sum callee.target callee.arity child) around (env'.set slot held) =
          plus M toInt (env' sum) <$>
            eval (calling M callee call) child back (env.set slot held) := by
      have apart : sum ≠ slot := fun same =>
        unbound.here child [slot] member (List.mem_singleton.mpr same)
      have among := mem_children_of_scopes member
      have run := below child among (throughout.child child among) (unbound.child child among)
        (insert slot visible) back _ _ sees (fun member => member.elim apart absent)
        (agree.set slot held)
      rwa [show env'.set slot held sum = env' sum from if_neg apart] at run
    cases e with
    | ite cond yes no ty =>
      have first := kept (throughout.child cond (by simp [children])) sees.1
      have second := below yes (by simp [children]) (throughout.child yes (by simp [children]))
        (unbound.child yes (by simp [children])) visible back env env' sees.2.1 absent agree
      have third := below no (by simp [children]) (throughout.child no (by simp [children]))
        (unbound.child no (by simp [children])) visible back env env' sees.2.2 absent agree
      simp only [rewrite, eval, first, second, third, map_bind]
      refine congrArg _ (funext fun value => ?_)
      refine congrArg _ (funext fun selected => ?_)
      cases selected <;> rfl
    | letIn slot value body ty =>
      have first := kept (throughout.child value (by simp [children])) sees.1
      have second := inside (body_mem_scopes slot value body ty) sees.2
      rw [rewrite]
      split
      · rename_i args other found contributes
        obtain ⟨length, ty₁, alloc, ty₂, rfl⟩ := selfCallArgs_some found
        obtain ⟨added, runs, sums, agreed⟩ := eval_contribution adds callee call contributes
        have operands : evalList (looping (calling M callee call) around) args around env' =
            evalList (calling M callee call) args back env := by
          rw [evalList_eq_map, evalList_eq_map]
          refine List.map_congr_left fun arg member => ?_
          have among : arg ∈ children (.app (.global callee.target ty₁) args [] alloc ty₂) :=
            List.mem_cons_of_mem _ member
          exact kept ((throughout.child _ (by simp [children])).child arg among)
            (seesAll_iff.mp sees.1.2.1 arg member)
        have carried : eval (looping (calling M callee call) around) (add (.loc sum int) other)
            around env' = pure (plus M toInt (env' sum) (added env')) := by
          simp only [add, eval, evalList, inOrder,
            runs (looping (calling M callee call) around) rfl, pure_bind, addSum]
        rw [eval_recur carried, operands]
        simp only [eval_letIn]
        rw [eval_selfCall found, map_bind]
        simp only [bind_assoc, sums, map_eq_pure_bind, pure_bind]
        refine (yields_inOrder _).bind_congr fun values many => ?_
        rw [evalList_eq_map, List.length_map, length] at many
        rw [turns values _ many, map_eq_pure_bind]
        refine congrArg _ (funext fun held => ?_)
        rw [plus_plus adds, agreed visible env env' sees.2 agree]
      · simp only [eval, first, second, map_bind]
    | dup slot body ty | drop slot body ty =>
      have first := below body (by simp [children]) (throughout.child body (by simp [children]))
        (unbound.child body (by simp [children])) visible back env env' sees.2 absent agree
      simp only [rewrite, eval, first, ← agree slot sees.1, map_bind]
      rfl
    | freeReuse token body ty =>
      have first := below body (by simp [children]) (throughout.child body (by simp [children]))
        (unbound.child body (by simp [children])) visible back env env' sees.2 absent agree
      simp only [rewrite, eval, first, ← agree token sees.1, map_bind]
      rfl
    | reset value token body ty =>
      have first := kept (throughout.child value (by simp [children])) sees.1
      have second := inside (List.mem_cons_of_mem (value, []) List.mem_cons_self) sees.2
      simp only [rewrite, eval, first, second, map_bind]
      rfl
    | _ => exact ends

/-- Calls matter with all arguments only. -/
theorem calling_congr {callee : Callee V} {call call' : List V → m V}
    (same : ∀ args, args.length = callee.arity → call args = call' args) :
    calling M callee call = calling M callee call' := by
  rw [calling, calling]
  congr 1
  funext value args tokens
  split_ifs with whole
  · rw [Bool.and_eq_true, Bool.and_eq_true, decide_eq_true_eq] at whole
    exact same args whole.1.2
  · rfl

/-- Binding slots to what they hold changes nothing. -/
theorem setAll_self (missing : V) (slots : List LocalId) (env : Locals V) :
    env.setAll missing slots (slots.map env) = env := by
  induction slots with
  | nil => rfl
  | cons slot rest hypothesis =>
    have same : env.set slot (env slot) = env := by
      funext other
      by_cases equal : other = slot
      · rw [equal]
        exact if_pos rfl
      · exact if_neg equal
    rw [List.map_cons, Locals.setAll, List.headD_cons, List.tail_cons, same, hypothesis]

/-- A last slot is bound after the others. -/
theorem setAll_last (missing : V) (slot : LocalId) (value : V) (slots : List LocalId) :
    ∀ (env : Locals V) (values : List V), values.length = slots.length →
      env.setAll missing (slots ++ [slot]) (values ++ [value]) =
        (env.setAll missing slots values).set slot value := by
  induction slots with
  | nil =>
    intro env values none
    rw [List.length_eq_zero_iff.mp none]
    rfl
  | cons first rest hypothesis =>
    intro env values many
    cases values with
    | nil => cases many
    | cons held values => exact hypothesis _ values (Nat.succ_inj.mp many)

/-- Adding nothing to an integer changes nothing. -/
theorem plus_zero [LawfulMonad m] (adds : AddsIntegers M toInt) {run : m V}
    (integers : Yields (fun value => M.lit (.int (toInt value)) = value) run) :
    plus M toInt (M.lit (.int 0)) <$> run = run := by
  have kept : run >>= (fun value => pure (plus M toInt (M.lit (.int 0)) value)) = run >>= pure :=
    integers.bind_congr fun value integer => by rw [plus, adds.read, Int64.zero_add, integer]
  rw [map_eq_pure_bind, kept, bind_pure]

end Adding

/-- A body that adds along its recursion, made a loop, does what the recursion does with any number
of steps: it returns the same integer after the same effects, or stops alike. The body has no loop
yet, its locals and binders come before the new one, and its result is an integer. -/
theorem flatten_keeps_meaning [LawfulMonad m] {M : Machine m V} {toInt : V → Int64}
    (adds : AddsIntegers M toInt) {callee : Callee V} {stop : m V}
    (stops : ∀ next : V → m V, stop >>= next = stop) (base : Locals V) {params : List LocalId}
    (arity : callee.arity = params.length) {body flat : CExpr} {visible : Set LocalId}
    {next last : Nat} (found : flatten body params callee.target next = some (flat, last))
    (sees : body.Sees visible) (fresh : next ∉ visible)
    (unbound : body.Throughout fun e => ∀ child slots, (child, slots) ∈ e.scopes → next ∉ slots)
    (early : body.Throughout fun e => loopless e = true)
    (integers : ∀ steps args, Yields (fun value => M.lit (.int (toInt value)) = value)
      (recursion M callee stop base params body steps args)) :
    ∃ turn, flat = .letIn next (.lit (.int 0) int) (.join (params ++ [next]) turn int) int ∧
      ∀ steps args, args.length = params.length →
        loopCalls M callee stop base params flat (params ++ [next]) turn steps args =
          recursion M callee stop base params body steps args := by
  rw [flatten] at found
  split_ifs at found
  simp only [Option.some.injEq, Prod.mk.injEq] at found
  obtain ⟨rfl, _⟩ := found
  rw [← arity]
  refine ⟨_, rfl, ?_⟩
  generalize shape : rewrite next callee.target callee.arity body = turn
  -- With a number of steps, calls agree, and going around adds the sum to a call.
  have both : ∀ steps,
      (∀ args, args.length = callee.arity →
        loopCalls M callee stop base params (.letIn next (.lit (.int 0) int)
          (.join (params ++ [next]) turn int) int) (params ++ [next]) turn steps args =
            recursion M callee stop base params body steps args) ∧
      ∀ values value, values.length = callee.arity →
        loopTurns M callee stop base params (.letIn next (.lit (.int 0) int)
          (.join (params ++ [next]) turn int) int) (params ++ [next]) turn steps
            (values ++ [value]) = plus M toInt value <$> recursion M callee stop base params body
              steps values := by
    intro steps
    induction steps with
    | zero =>
      refine ⟨fun args _ => by rw [loopCalls, recursion], fun values value _ => ?_⟩
      rw [loopTurns, recursion, map_eq_pure_bind, stops]
    | succ steps hypothesis =>
      obtain ⟨calls, turns⟩ := hypothesis
      have machines := calling_congr (M := M) calls
      have bound (env : Locals V) (value : V) : Agree visible env (env.set next value) :=
        fun slot member => (if_neg fun same : slot = next => fresh (same ▸ member)).symm
      have run (values : List V) (value : V) := eval_rewrite adds turns body early unbound visible
        (fun _ => stop) (entered M base params values)
        ((entered M base params values).set next value) sees fresh (bound _ value)
      have held (env : Locals V) (value : V) : env.set next value next = value := if_pos rfl
      rw [shape] at run
      refine ⟨fun args many => ?_, fun values value many => ?_⟩
      · have entry := run args (M.lit (.int 0))
        rw [held] at entry
        have zero := plus_zero adds (integers (steps + 1) args)
        rw [recursion] at zero ⊢
        rw [loopCalls, machines, eval_letIn]
        simp only [eval, pure_bind]
        refine Eq.trans ?_ (entry.trans zero)
        refine congrArg (eval _ turn _) ?_
        exact setAll_self _ (params ++ [next]) _
      · have around := run values value
        rw [held] at around
        rw [loopTurns, machines, recursion, ← around, entered,
          setAll_last _ next value params base values (many.trans arity)]
        rfl
  exact fun steps args many => (both steps).1 args many

/-- A machine over integers that stops where it does anything but add, subtract and test. -/
def calculator : Machine Option Int64 where
  lit value :=
    match value with
    | .int number => number
    | _ => 0
  global _ := none
  prim op values :=
    match op, values with
    | .intAdd, [left, right] => some (left + right)
    | .intSub, [left, right] => some (left - right)
    | _, _ => none
  foreign _ _ := none
  apply _ _ _ := none
  test value := some (value != 0)
  closure _ _ _ := none
  data _ _ _ _ _ := none
  tag _ _ := none
  field _ _ _ _ := none
  spread _ := none
  components _ := none
  dup _ := some ()
  drop _ := some ()
  reset _ := none
  freeReuse _ := none
  loop _ _ := none
  holeStart := none
  holeFill _ _ _ := none
  holeClose _ _ := none
  trap := none

/-- The definition `total` as its calls see it. -/
def totalCallee : Callee Int64 := ⟨⟨0, 0⟩, 1, 0, fun _ => true, rfl⟩

/-- `total n = if n then n + total (n - 1) else 0`. -/
def total : CExpr :=
  .ite (.loc 0 int)
    (.letIn 1
      (.app (.global ⟨0, 0⟩ int) [.prim .intSub [.loc 0 int, .lit (.int 1) int] int] [] .heap int)
      (.prim .intAdd [.loc 0 int, .loc 1 int] int) int)
    (.lit (.int 0) int) int

/-- The loop of `total` does what its recursion does, which adds up the numbers to its argument. -/
theorem flatten_keeps_meaning_total : ∃ flat turn, flatten total [0] ⟨0, 0⟩ 2 = some (flat, 3) ∧
    recursion calculator totalCallee none (fun _ => 0) [0] total 5 [3] = some 6 ∧
    ∀ steps args, args.length = 1 →
      loopCalls calculator totalCallee none (fun _ => 0) [0] flat [0, 2] turn steps args =
        recursion calculator totalCallee none (fun _ => 0) [0] total steps args := by
  have adds : AddsIntegers calculator id := ⟨fun _ _ => rfl, fun _ => rfl⟩
  have early : total.Throughout fun e => loopless e = true := throughout_of_everywhere (by decide)
  have unbound : total.Throughout fun e =>
      (e.scopes.all fun scope => decide (2 ∉ scope.2)) = true :=
    throughout_of_everywhere (by decide)
  have stops : ∀ next : Int64 → Option Int64, none >>= next = none := fun _ => rfl
  obtain ⟨turn, _, same⟩ := flatten_keeps_meaning adds stops (fun _ => 0) rfl
    (show flatten total [0] totalCallee.target 2 = some _ from rfl)
    (show total.Sees {0} by simp [total, Sees, SeesAll]) (by simp)
    (unbound.imp fun e all child slots member =>
      of_decide_eq_true (List.all_eq_true.mp all (child, slots) member)) early
    fun steps args => ⟨(fun value => ⟨value, rfl⟩) <$> _, by rw [← comp_map]; exact id_map _⟩
  exact ⟨_, turn, rfl, by decide, same⟩

end Fai.IntAdd
