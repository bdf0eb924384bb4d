import FaiVerif.Rc.AnfOrder
import Mathlib.Algebra.Ring.Nat

/-!
# Reads that come late show

A machine that answers every test as it is told, hands out the number of the read for every read,
and logs for every operation the reads before it and its operands. Where a read stands before an
operand that hoists something that runs, some answers lead there, and the A-normal form then leaves
another log: an operation comes before the read that came after it, or an operand is another read.
-/

namespace Fai

namespace CExpr

/-- Whether a node is one that lowering makes. -/
def lowered : CExpr → Bool
  | reset _ _ _ _ | freeReuse _ _ _ | dup _ _ _ | drop _ _ _ | join _ _ _ | recur _ _
  | holeStart _ _ _ | holeFill _ _ _ _ | holeClose _ _ _ => false
  | _ => true

/-- Whether normalization hoists no operation out of an operand, only reads. -/
def still : CExpr → Bool
  | lit _ _ | loc _ _ | global _ _ | error _ => true
  | letIn _ value body _ => value.still && body.still
  | _ => false

/-- Scoped operands are scoped one by one. -/
theorem scope_of_mem {limit : Nat} {es : List CExpr} : ∀ {bound out : Finset LocalId},
    scopeList limit es bound = some out →
      ∀ e ∈ es, ∃ before after, e.scope limit before = some after := by
  induction es with
  | nil => exact fun _ e member => absurd member List.not_mem_nil
  | cons head rest hypothesis =>
    intro bound out inScope e member
    simp only [scopeList, Option.bind_eq_some_iff] at inScope
    obtain ⟨middle, first, others⟩ := inScope
    rcases List.mem_cons.mp member with rfl | later
    · exact ⟨bound, middle, first⟩
    · exact hypothesis others e later

/-- A scoped body has the nodes that lowering makes. -/
theorem lowered_of_scope {limit : Nat} {e : CExpr} : ∀ {bound out : Finset LocalId},
    e.scope limit bound = some out → e.Throughout fun e => e.lowered = true := by
  induction e using CExpr.induct with
  | lit | loc | global | error | makeClosure =>
    exact fun _ => .node rfl fun child member => absurd member List.not_mem_nil
  | prim op args ty hypothesis | makeData _ args _ _ _ ty hypothesis =>
    intro bound out inScope
    simp only [scope, Option.ite_none_left_eq_some] at inScope
    refine .node rfl fun child member => ?_
    obtain ⟨before, after, here⟩ := scope_of_mem inScope.2 child member
    exact hypothesis child member here
  | foreign op args _ ty hypothesis | spread args ty hypothesis =>
    intro bound out inScope
    refine .node rfl fun child member => ?_
    obtain ⟨before, after, here⟩ := scope_of_mem inScope child member
    exact hypothesis child member here
  | app func args reuse alloc ty func_hypothesis args_hypothesis =>
    intro bound out inScope
    simp only [scope, Option.ite_none_right_eq_some, Option.bind_eq_some_iff] at inScope
    obtain ⟨-, middle, first, others⟩ := inScope
    refine .node rfl (List.forall_mem_cons.mpr ⟨func_hypothesis first, fun child member => ?_⟩)
    obtain ⟨before, after, here⟩ := scope_of_mem others child member
    exact args_hypothesis child member here
  | ite cond yes no ty cond_hypothesis yes_hypothesis no_hypothesis =>
    intro bound out inScope
    simp only [scope, Option.bind_eq_some_iff, Option.ite_none_right_eq_some, Option.some.injEq,
      Bool.and_eq_true, Option.isSome_iff_exists] at inScope
    obtain ⟨middle, first, ⟨⟨yesOut, yesScope⟩, ⟨noOut, noScope⟩⟩, -⟩ := inScope
    refine .node rfl fun child member => ?_
    simp only [children, List.mem_cons, List.not_mem_nil, or_false] at member
    rcases member with rfl | rfl | rfl
    · exact cond_hypothesis first
    · exact yes_hypothesis yesScope
    · exact no_hypothesis noScope
  | letIn slot value body ty value_hypothesis body_hypothesis =>
    intro bound out inScope
    simp only [scope, Option.bind_eq_some_iff, Option.ite_none_right_eq_some] at inScope
    obtain ⟨middle, first, -, rest⟩ := inScope
    refine .node rfl fun child member => ?_
    simp only [children, List.mem_cons, List.not_mem_nil, or_false] at member
    rcases member with rfl | rfl
    · exact value_hypothesis first
    · exact body_hypothesis rest
  | letMany slots value body ty value_hypothesis body_hypothesis =>
    intro bound out inScope
    simp only [scope, Option.ite_none_right_eq_some, Option.some.injEq, Bool.and_eq_true,
      decide_eq_true_eq, Option.isSome_iff_exists] at inScope
    obtain ⟨⟨⟨⟨_, ⟨valueOut, valueScope⟩⟩, -⟩, ⟨bodyOut, bodyScope⟩⟩, -⟩ := inScope
    refine .node rfl fun child member => ?_
    simp only [children, List.mem_cons, List.not_mem_nil, or_false] at member
    rcases member with rfl | rfl
    · exact value_hypothesis valueScope
    · exact body_hypothesis bodyScope
  | dataTag base niche ty hypothesis =>
    intro bound out inScope
    refine .node rfl fun child member => ?_
    rw [List.mem_singleton.mp member]
    exact hypothesis inScope
  | dataField base index scalar niche ty hypothesis =>
    intro bound out inScope
    simp only [scope, Option.bind_eq_some_iff, Option.ite_none_right_eq_some] at inScope
    obtain ⟨middle, first, -⟩ := inScope
    refine .node rfl fun child member => ?_
    rw [List.mem_singleton.mp member]
    exact hypothesis first
  | _ => intro bound out inScope; cases inScope

end CExpr

namespace Anf

open CExpr Eval Slots

/-- What a run leaves: the answers to the tests to come, how many reads there were, and for every
operation the reads before it and its operands, the latest first. -/
structure Trail where
  answers : List Bool
  reads : Nat
  log : List (Nat × List Nat)

namespace Trail

/-- A trail with one more read. -/
def advance (s : Trail) : Trail := { s with reads := s.reads + 1 }

/-- A trail with one more operation. -/
def noted (s : Trail) (values : List Nat) : Trail := { s with log := (s.reads, values) :: s.log }

/-- A trail with one answer less. -/
def popped (s : Trail) : Trail := { s with answers := s.answers.tail }

/-- A read gives its number. -/
def read : StateM Trail Nat := fun s => (s.reads, s.advance)

/-- An operation gives nothing. -/
def note (values : List Nat) : StateM Trail Nat := fun s => (0, s.noted values)

/-- A test gives the next answer. -/
def answer (value : Nat) : StateM Trail Bool := fun s =>
  (s.answers.headD false, (s.noted [value]).popped)

/-- A computation and what follows it run one after the other. -/
theorem run_bind {α β : Type} (run : StateM Trail α) (next : α → StateM Trail β) (s : Trail) :
    (run >>= next) s = next (run s).1 (run s).2 := rfl

/-- A value changes nothing. -/
theorem run_pure {α : Type} (a : α) (s : Trail) : (pure a : StateM Trail α) s = (a, s) := rfl

end Trail

open Trail

/-- The machine that leaves a trail. -/
def trailing (nullary : DefId → Bool) : Machine (StateM Trail) Nat where
  lit _ := 0
  global target := if nullary target then read else pure 0
  prim _ := note
  foreign _ := note
  apply callee values _ := note (callee :: values)
  test := answer
  closure _ captures _ := note captures
  data _ _ _ fields _ := note fields
  tag _ value := note [value]
  field _ _ value _ := note [value]
  spread := note
  components value := note [value] >>= fun _ => pure []
  dup _ := pure ()
  drop _ := pure ()
  reset _ := pure 0
  freeReuse _ := pure ()
  loop _ _ := pure 0
  holeStart := pure 0
  holeFill _ _ _ := pure 0
  holeClose _ _ := pure 0
  trap := read

/-- The machine reads a definition of other arity without leaving anything. -/
theorem trailing_statics (nullary : DefId → Bool) : StaticClosures nullary (trailing nullary) := by
  intro target other
  exact ⟨0, if_neg (by rw [other]; exact Bool.false_ne_true)⟩

/-- What an operand leaves: a read, or a value. -/
def Left (pending : Nat) (rest : StateM Trail Nat) : Prop :=
  pending = 1 ∧ rest = read ∨ pending = 0 ∧ ∃ value, rest = pure value

/-- Two trails after the same answers and as many operations. -/
structure Along (s t : Trail) : Prop where
  answers : s.answers = t.answers
  length : s.log.length = t.log.length

/-- Two trails that went apart. -/
structure Apart (s t : Trail) : Prop extends Along s t where
  logs : s.log ≠ t.log

/-- The first trail has reads ahead of the second, besides some that are left, and no operation
since; or they went apart. -/
def Ahead (length : Nat) (pending : Nat) (s t : Trail) : Prop :=
  Apart s t ∨ Along s t ∧ t.reads + pending < s.reads ∧ s.log.length = length

/-- A relation of trails that lasts: under reads of the first that are left to the second, and
under operations and tests of both. -/
structure Lasts (R : Nat → Trail → Trail → Prop) : Prop where
  along : ∀ {n s t}, R n s t → Along s t
  ahead : ∀ {n s t}, R n s t → R (n + 1) s.advance t
  caught : ∀ {n s t}, R (n + 1) s t → R n s t.advance
  noted : ∀ {n s t} values values', R n s t → R n (s.noted values) (t.noted values')
  popped : ∀ {n s t}, R n s t → R n s.popped t.popped

/-- Going along lasts. -/
theorem lasts_along : Lasts fun _ => Along where
  along along := along
  ahead along := ⟨along.answers, along.length⟩
  caught along := ⟨along.answers, along.length⟩
  noted _ _ along := ⟨along.answers, congrArg (· + 1) along.length⟩
  popped along := ⟨congrArg List.tail along.answers, along.length⟩

/-- Having gone apart lasts. -/
theorem lasts_apart : Lasts fun _ => Apart where
  along apart := apart.toAlong
  ahead apart := ⟨lasts_along.ahead (n := 0) apart.toAlong, apart.logs⟩
  caught apart := ⟨lasts_along.caught (n := 0) apart.toAlong, apart.logs⟩
  noted values values' apart := ⟨lasts_along.noted (n := 0) values values' apart.toAlong,
    fun same => apart.logs (List.cons.inj same).2⟩
  popped apart := ⟨lasts_along.popped (n := 0) apart.toAlong, apart.logs⟩

/-- Being ahead, or having gone apart, lasts. -/
theorem lasts_ahead (length : Nat) : Lasts (Ahead length) where
  along := by
    rintro n s t (apart | ⟨along, -, -⟩)
    · exact apart.toAlong
    · exact along
  ahead := by
    rintro n s t (apart | ⟨along, more, same⟩)
    · exact .inl (lasts_apart.ahead (n := 0) apart)
    · exact .inr ⟨lasts_along.ahead (n := 0) along, Nat.succ_lt_succ more, same⟩
  caught := by
    rintro n s t (apart | ⟨along, more, same⟩)
    · exact .inl (lasts_apart.caught (n := 0) apart)
    · refine .inr ⟨lasts_along.caught (n := 0) along, ?_, same⟩
      rw [advance, Nat.add_right_comm]
      exact more
  noted := by
    rintro n s t values values' (apart | ⟨along, more, same⟩)
    · exact .inl (lasts_apart.noted (n := 0) values values' apart)
    · refine .inl ⟨lasts_along.noted (n := 0) values values' along, fun logs => ?_⟩
      have reads := congrArg Prod.fst (List.cons.inj logs).1
      simp only at reads
      omega
  popped := by
    rintro n s t (apart | ⟨along, more, same⟩)
    · exact .inl (lasts_apart.popped (n := 0) apart)
    · exact .inr ⟨lasts_along.popped (n := 0) along, more, same⟩

section Runs

variable {nullary : DefId → Bool} {back : List Nat → StateM Trail Nat}
  {R : Nat → Trail → Trail → Prop}

/-- How many reads an operand leaves. -/
def pending (nullary : DefId → Bool) (e : CExpr) : Nat := (e.forces nullary).toNat

/-- What is left is run by the second. -/
theorem Lasts.left (lasts : Lasts R) {n k : Nat} {rest : StateM Trail Nat} {s t : Trail}
    (left : Left k rest) (relates : R (n + k) s t) : R n s (rest t).2 := by
  rcases left with ⟨rfl, rfl⟩ | ⟨rfl, value, rfl⟩
  · exact lasts.caught relates
  · exact relates

/-- What is left of operands is run by the second. -/
theorem Lasts.lefts (lasts : Lasts R) {ks : List Nat} {rests : List (StateM Trail Nat)}
    (lefts : List.Forall₂ Left ks rests) : ∀ {n : Nat} {s t : Trail},
      R (n + ks.sum) s t → R n s (inOrder rests t).2 := by
  induction lefts with
  | nil => exact fun relates => relates
  | @cons k rest ks rests left _ hypothesis =>
    intro n s t relates
    rw [List.sum_cons, Nat.add_comm k, ← Nat.add_assoc] at relates
    exact hypothesis (lasts.left left relates)

/-- An expression that ends in an atom leaves a read when it forces something, and else a value. -/
theorem hoist_left {e : CExpr} (atom : e.residue.isAtom = true) : ∀ (env : Locals Nat) (t : Trail),
    Left (pending nullary e) (hoist (trailing nullary) e back env t).1 := by
  induction e using CExpr.induct with
  | lit value ty => exact fun env t => .inr ⟨rfl, _, by simp only [hoist]; rfl⟩
  | loc slot ty => exact fun env t => .inr ⟨rfl, _, by simp only [hoist]; rfl⟩
  | global target ty =>
    intro env t
    cases read : nullary target with
    | true =>
      refine .inl ⟨?_, ?_⟩
      · exact congrArg Bool.toNat read
      · simp only [hoist, run_pure, trailing, if_pos read]
    | false =>
      refine .inr ⟨?_, 0, ?_⟩
      · exact congrArg Bool.toNat read
      · simp only [hoist, run_pure, trailing, read, Bool.false_eq_true, if_false]
  | error ty => exact fun env t => .inl ⟨rfl, by simp only [hoist]; rfl⟩
  | letIn slot value body ty _ body_hypothesis =>
    intro env t
    simp only [hoist, run_bind]
    exact body_hypothesis atom _ _
  | _ => cases atom

/-- What an operand leaves. -/
theorem settle_left (e : CExpr) (env : Locals Nat) (t : Trail) : Left (pending nullary e)
    (settle e.residue.isAtom (hoist (trailing nullary) e back env) t).1 := by
  cases atom : e.residue.isAtom with
  | true => exact hoist_left atom env t
  | false =>
    refine .inr ⟨?_, _, rfl⟩
    rw [pending, Bool.toNat_eq_zero]
    exact Bool.eq_false_iff.mpr fun forces => by rw [isAtom_of_forces forces] at atom; cases atom

/-- The relation lasts through a run of an expression and of what it hoists and leaves. -/
def Through (nullary : DefId → Bool) (back : List Nat → StateM Trail Nat)
    (R : Nat → Trail → Trail → Prop) (e : CExpr) : Prop :=
  ∀ ⦃n : Nat⦄ ⦃s t : Trail⦄ (env env' : Locals Nat), R n s t →
    R n (eval (trailing nullary) e back env s).2
        (whole (hoist (trailing nullary) e back env') t).2 ∧
      R (n + pending nullary e) (eval (trailing nullary) e back env s).2
        (settle e.residue.isAtom (hoist (trailing nullary) e back env') t).2

/-- An expression that ends in an atom is run through when what it hoists is. -/
theorem Lasts.through_atom (lasts : Lasts R) {e : CExpr} (atom : e.residue.isAtom = true)
    (hoisted : ∀ {n : Nat} {s t : Trail} (env env' : Locals Nat), R n s t →
      R (n + pending nullary e) (eval (trailing nullary) e back env s).2
        (hoist (trailing nullary) e back env' t).2) : Through nullary back R e := by
  intro n s t env env' relates
  have here := hoisted env env' relates
  have left : Left (pending nullary e) (hoist (trailing nullary) e back env' t).1 :=
    hoist_left atom env' t
  refine ⟨?_, ?_⟩
  · rw [whole, run_bind]
    exact lasts.left left here
  · rw [atom]
    exact here

/-- Any other expression is run through when its run is. -/
theorem through_compound {e : CExpr} (compound : e.residue.isAtom = false)
    (run : ∀ {n : Nat} {s t : Trail} (env env' : Locals Nat), R n s t →
      R n (eval (trailing nullary) e back env s).2
        (whole (hoist (trailing nullary) e back env') t).2) : Through nullary back R e := by
  intro n s t env env' relates
  have here := run env env' relates
  refine ⟨here, ?_⟩
  have none_pending : pending nullary e = 0 := by
    rw [pending, Bool.toNat_eq_zero]
    exact Bool.eq_false_iff.mpr fun forces => by
      rw [isAtom_of_forces forces] at compound
      cases compound
  rw [none_pending, compound]
  exact here

/-- The relation lasts through operands. -/
theorem through_list {es : List CExpr}
    (each : ∀ e ∈ es, Through nullary back R e) : ∀ {n : Nat} {s t : Trail}
      (env env' : Locals Nat), R n s t →
        R (n + (es.map (pending nullary)).sum)
          (inOrder (evalList (trailing nullary) es back env) s).2
          (hoistList (trailing nullary) es back env' t).2 ∧
        List.Forall₂ Left (es.map (pending nullary))
          (hoistList (trailing nullary) es back env' t).1 := by
  induction es with
  | nil =>
    intro n s t env env' relates
    simp only [evalList, inOrder, hoistList]
    exact ⟨relates, .nil⟩
  | cons e es hypothesis =>
    intro n s t env env' relates
    obtain ⟨here, later⟩ := List.forall_mem_cons.mp each
    obtain ⟨relates', lefts⟩ := hypothesis later env env' (here env env' relates).2
    simp only [evalList, inOrder, hoistList, run_bind, run_pure, List.map_cons, List.sum_cons]
    rw [← Nat.add_assoc]
    exact ⟨relates', .cons (settle_left e env' t) lefts⟩

/-- The relation lasts through operands and what is left of them. -/
theorem Lasts.through_operands (lasts : Lasts R) {es : List CExpr}
    (each : ∀ e ∈ es, Through nullary back R e) {n : Nat} {s t : Trail} (env env' : Locals Nat)
    (relates : R n s t) : R n (inOrder (evalList (trailing nullary) es back env) s).2
      ((hoistList (trailing nullary) es back env' >>= inOrder) t).2 := by
  obtain ⟨relates', lefts⟩ := through_list each env env' relates
  exact lasts.lefts lefts relates'

/-- The relation lasts through a test and the branch that it selects. -/
theorem Lasts.branch (lasts : Lasts R) {n : Nat} {s t : Trail} {value value' : Nat}
    {yes no yes' no' : StateM Trail Nat} (relates : R n s t)
    (first : R n (yes (s.noted [value]).popped).2 (yes' (t.noted [value']).popped).2)
    (second : R n (no (s.noted [value]).popped).2 (no' (t.noted [value']).popped).2) :
    R n ((if s.answers.headD false = true then yes else no) (s.noted [value]).popped).2
      ((if t.answers.headD false = true then yes' else no') (t.noted [value']).popped).2 := by
  rw [← (lasts.along relates).answers]
  split_ifs
  · exact first
  · exact second

/-- The relation lasts through a run of a lowered expression and of what it hoists and leaves. -/
theorem Lasts.through (lasts : Lasts R) {e : CExpr}
    (low : e.Throughout fun e => e.lowered = true) : Through nullary back R e := by
  induction e using CExpr.induct with
  | lit | loc =>
    apply lasts.through_atom rfl
    intro n s t env env' relates
    simp only [eval, hoist, run_pure]
    exact relates
  | global target ty =>
    apply lasts.through_atom rfl
    intro n s t env env' relates
    simp only [eval, hoist, run_pure]
    cases read : nullary target with
    | true =>
      have one : pending nullary (.global target ty) = 1 := congrArg Bool.toNat read
      rw [one]
      simp only [trailing, read, if_true]
      exact lasts.ahead relates
    | false =>
      have none : pending nullary (.global target ty) = 0 := congrArg Bool.toNat read
      rw [none]
      simp only [trailing, read, Bool.false_eq_true, if_false]
      exact relates
  | error ty =>
    apply lasts.through_atom rfl
    intro n s t env env' relates
    simp only [eval, hoist, run_pure]
    exact lasts.ahead relates
  | prim op args ty hypothesis | foreign op args _ ty hypothesis | spread args ty hypothesis
  | makeData _ args _ _ _ ty hypothesis =>
    apply through_compound rfl
    intro n s t env env' relates
    have operands := lasts.through_operands
      (fun e member => hypothesis e member (low.child e member)) env env' relates
    simp only [eval, hoist, whole, run_bind, run_pure, id]
    exact lasts.noted _ _ operands
  | app func args reuse alloc ty func_hypothesis args_hypothesis =>
    apply through_compound rfl
    intro n s t env env' relates
    have each : ∀ e ∈ func :: args, Through nullary back R e := by
      intro e member
      rcases List.mem_cons.mp member with rfl | later
      · exact func_hypothesis (low.child _ List.mem_cons_self)
      · exact args_hypothesis e later (low.child e (List.mem_cons_of_mem _ later))
    have operands := lasts.through_operands each env env' relates
    simp only [evalList, inOrder, hoistList, run_bind, run_pure] at operands
    simp only [eval, hoist, whole, run_bind, run_pure, id]
    exact lasts.noted _ _ operands
  | ite cond yes no ty cond_hypothesis yes_hypothesis no_hypothesis =>
    apply through_compound rfl
    intro n s t env env' relates
    have first := (cond_hypothesis (low.child cond (by simp [children])) env env' relates).1
    simp only [whole_hoist_ite, eval, run_bind]
    have tested (value value' : Nat) := lasts.popped (lasts.noted [value] [value'] first)
    exact lasts.branch first
      (yes_hypothesis (low.child yes (by simp [children])) env env' (tested _ _)).1
      (no_hypothesis (low.child no (by simp [children])) env env' (tested _ _)).1
  | letIn slot value body ty value_hypothesis body_hypothesis =>
    intro n s t env env' relates
    have first := (value_hypothesis (low.child value (by simp [children])) env env' relates).1
    have second := body_hypothesis (low.child body (by simp [children]))
      (env.set slot (eval (trailing nullary) value back env s).1)
      (env'.set slot (whole (hoist (trailing nullary) value back env') t).1) first
    refine ⟨?_, ?_⟩
    · simp only [whole_hoist_letIn, eval, run_bind]
      exact second.1
    · simp only [settle_hoist_letIn, eval, run_bind]
      exact second.2
  | letMany slots value body ty value_hypothesis body_hypothesis =>
    apply through_compound rfl
    intro n s t env env' relates
    have first := (value_hypothesis (low.child value (by simp [children])) env env' relates).1
    simp only [eval, hoist, whole, run_bind, run_pure, id]
    exact (body_hypothesis (low.child body (by simp [children])) _ _ (lasts.noted _ _ first)).1
  | makeClosure func captures alloc ty =>
    apply through_compound rfl
    intro n s t env env' relates
    simp only [eval, hoist, whole, run_bind, run_pure, id]
    exact lasts.noted _ _ relates
  | dataTag base niche ty hypothesis =>
    apply through_compound rfl
    intro n s t env env' relates
    simp only [whole_hoist_dataTag, eval, run_bind]
    exact lasts.noted _ _ (hypothesis (low.child base (by simp [children])) env env' relates).1
  | dataField base index scalar niche ty hypothesis =>
    apply through_compound rfl
    intro n s t env env' relates
    simp only [whole_hoist_dataField, eval, run_bind]
    exact lasts.noted _ _ (hypothesis (low.child base (by simp [children])) env env' relates).1
  | _ => cases low.here

/-- Before some answers, a run takes these and runs so many operations at least. -/
def Spends {α : Type} (path : List Bool) (count : Nat) (run : StateM Trail α) : Prop :=
  ∀ s rest, s.answers = path ++ rest →
    (run s).2.answers = rest ∧ s.log.length + count ≤ (run s).2.log.length

/-- A value takes no answer. -/
theorem spends_pure {α : Type} (a : α) : Spends [] 0 (pure a : StateM Trail α) :=
  fun _ _ same => ⟨same, Nat.le_refl _⟩

/-- A read takes no answer. -/
theorem spends_read : Spends [] 0 read := fun _ _ same => ⟨same, Nat.le_refl _⟩

/-- An operation takes no answer. -/
theorem spends_note (values : List Nat) : Spends [] 1 (note values) :=
  fun _ _ same => ⟨same, Nat.le_refl _⟩

/-- One run after another takes the answers of both. -/
theorem Spends.bind {α β : Type} {path path' : List Bool} {count count' : Nat}
    {run : StateM Trail α} {next : α → StateM Trail β} (first : Spends path count run)
    (second : ∀ a, Spends path' count' (next a)) :
    Spends (path ++ path') (count + count') (run >>= next) := by
  intro s rest same
  rw [List.append_assoc] at same
  obtain ⟨answers, grows⟩ := first s (path' ++ rest) same
  obtain ⟨answers', grows'⟩ := second (run s).1 (run s).2 rest answers
  exact ⟨answers', by rw [run_bind]; omega⟩

/-- A test takes an answer, and one that holds selects the first branch. -/
theorem Spends.branch {path : List Bool} {count : Nat} {yes no : StateM Trail Nat}
    (branch : Spends path count yes) (value : Nat) : Spends (true :: path) 1
      (answer value >>= fun first => if first then yes else no) := by
  intro s rest same
  have first : (answer value s).1 = true := by
    show s.answers.headD false = true
    rw [same]
    rfl
  have tail : (answer value s).2.answers = path ++ rest := by
    show s.answers.tail = path ++ rest
    rw [same]
    rfl
  obtain ⟨answers, grows⟩ := branch _ rest tail
  rw [run_bind, first, if_pos rfl]
  exact ⟨answers, Nat.le_trans (Nat.le_refl (s.log.length + 1)) (Nat.le_of_add_right_le grows)⟩

/-- Fewer operations are run at least as well. -/
theorem Spends.mono {α : Type} {path : List Bool} {low high : Nat} {run : StateM Trail α}
    (spends : Spends path high run) (less : low ≤ high) : Spends path low run := by
  intro s rest same
  obtain ⟨answers, grows⟩ := spends s rest same
  exact ⟨answers, by omega⟩

/-- An operation that an expression runs at least, unless it is still. -/
def busy (e : CExpr) : Nat := if e.still then 0 else 1

/-- One operation is the most that counts. -/
theorem busy_le_one (e : CExpr) : busy e ≤ 1 := by
  rw [busy]
  split_ifs <;> omega

/-- Operands run an operation when one of them is not still. -/
theorem sum_busy_pos {es : List CExpr} (working : ∃ e ∈ es, e.still = false) :
    0 < (es.map busy).sum := by
  obtain ⟨e, member, moving⟩ := working
  refine List.sum_pos_iff_exists_pos_nat.mpr ⟨busy e, List.mem_map_of_mem member, ?_⟩
  rw [busy, moving]
  decide

/-- A binding runs what its value and its body run. -/
theorem busy_letIn (slot : LocalId) (value body : CExpr) (ty : Ty) :
    busy (.letIn slot value body ty) ≤ busy value + busy body := by
  rw [busy, busy, busy, CExpr.still]
  cases value.still <;> cases body.still <;> decide

/-- Some answers lead through operands. -/
theorem exists_path_list {es : List CExpr}
    (each : ∀ e ∈ es, ∃ path, ∀ env, Spends path (busy e) (eval (trailing nullary) e back env)) :
    ∃ path, ∀ env, Spends path (es.map busy).sum
      (inOrder (evalList (trailing nullary) es back env)) := by
  induction es with
  | nil => exact ⟨[], fun env => spends_pure []⟩
  | cons e es hypothesis =>
    obtain ⟨here, later⟩ := List.forall_mem_cons.mp each
    obtain ⟨path, first⟩ := here
    obtain ⟨path', second⟩ := hypothesis later
    refine ⟨path ++ (path' ++ []), fun env => ?_⟩
    rw [evalList, inOrder, List.map_cons, List.sum_cons]
    exact (first env).bind fun value => (second env).bind fun values => spends_pure _

/-- Some answers lead through a lowered expression. -/
theorem exists_path {e : CExpr} (low : e.Throughout fun e => e.lowered = true) :
    ∃ path, ∀ env, Spends path (busy e) (eval (trailing nullary) e back env) := by
  induction e using CExpr.induct with
  | lit | loc => exact ⟨[], fun env => by rw [eval]; exact spends_pure _⟩
  | global target ty =>
    refine ⟨[], fun env => ?_⟩
    simp only [eval, trailing]
    split_ifs
    · exact spends_read
    · exact spends_pure 0
  | error => exact ⟨[], fun env => by rw [eval]; exact spends_read⟩
  | prim op args ty hypothesis | foreign op args _ ty hypothesis | spread args ty hypothesis
  | makeData _ args _ _ _ ty hypothesis =>
    obtain ⟨path, spends⟩ :=
      exists_path_list fun e member => hypothesis e member (low.child e member)
    refine ⟨path ++ [], fun env => ?_⟩
    rw [eval]
    exact ((spends env).bind fun values => spends_note _).mono (Nat.le_add_left _ _)
  | app func args reuse alloc ty func_hypothesis args_hypothesis =>
    obtain ⟨path, first⟩ := func_hypothesis (low.child func List.mem_cons_self)
    obtain ⟨path', second⟩ := exists_path_list fun e member =>
      args_hypothesis e member (low.child e (List.mem_cons_of_mem _ member))
    refine ⟨path ++ (path' ++ []), fun env => ?_⟩
    have most := busy_le_one (.app func args reuse alloc ty)
    rw [eval]
    exact ((first env).bind fun callee => (second env).bind fun values =>
      spends_note (callee :: values)).mono (by omega)
  | ite cond yes no ty cond_hypothesis yes_hypothesis no_hypothesis =>
    obtain ⟨path, first⟩ := cond_hypothesis (low.child cond (by simp [children]))
    obtain ⟨path', second⟩ := yes_hypothesis (low.child yes (by simp [children]))
    refine ⟨path ++ (true :: path'), fun env => ?_⟩
    rw [eval]
    exact ((first env).bind fun value => (second env).branch value).mono (Nat.le_add_left _ _)
  | letIn slot value body ty value_hypothesis body_hypothesis =>
    obtain ⟨path, first⟩ := value_hypothesis (low.child value (by simp [children]))
    obtain ⟨path', second⟩ := body_hypothesis (low.child body (by simp [children]))
    refine ⟨path ++ path', fun env => ?_⟩
    rw [eval]
    exact ((first env).bind fun held => second (env.set slot held)).mono (busy_letIn _ _ _ _)
  | letMany slots value body ty value_hypothesis body_hypothesis =>
    obtain ⟨path, first⟩ := value_hypothesis (low.child value (by simp [children]))
    obtain ⟨path', second⟩ := body_hypothesis (low.child body (by simp [children]))
    refine ⟨path ++ (([] ++ []) ++ path'), fun env => ?_⟩
    rw [eval]
    refine ((first env).bind fun held => ((spends_note [held]).bind fun _ => spends_pure []).bind
      fun parts => second _).mono ?_
    have most := busy_le_one (.letMany slots value body ty)
    omega
  | makeClosure func captures alloc ty =>
    exact ⟨[], fun env => by rw [eval]; exact spends_note _⟩
  | dataTag base niche ty hypothesis | dataField base _ _ niche ty hypothesis =>
    obtain ⟨path, first⟩ := hypothesis (low.child base (by simp [children]))
    refine ⟨path ++ [], fun env => ?_⟩
    rw [eval]
    exact ((first env).bind fun value => spends_note [value]).mono (Nat.le_add_left _ _)
  | _ => cases low.here

/-- A trail after some more reads. -/
def Trail.later (s : Trail) (count : Nat) : Trail := { s with reads := s.reads + count }

/-- Reads after reads add up. -/
theorem Trail.later_later (s : Trail) (first second : Nat) :
    (s.later first).later second = s.later (first + second) := by
  rw [Trail.later, Trail.later, Trail.later, Nat.add_assoc]

/-- An operand that is still ends in an atom. -/
theorem isAtom_of_still {e : CExpr} (still : e.still = true) : e.residue.isAtom = true := by
  induction e using CExpr.induct with
  | lit | loc | global | error => rfl
  | letIn slot value body ty _ body_hypothesis =>
    simp only [CExpr.still, Bool.and_eq_true] at still
    exact body_hypothesis still.2
  | _ => cases still

/-- What is left is a read more, or none. -/
theorem Left.run {count : Nat} {rest : StateM Trail Nat} (left : Left count rest) (t : Trail) :
    (id rest t).2 = t.later count := by
  rcases left with ⟨rfl, rfl⟩ | ⟨rfl, value, rfl⟩
  · rfl
  · rfl

/-- An operand that is still hoists reads only, and one at least unless it is calm. -/
theorem hoist_still {e : CExpr} (still : e.still = true) : ∀ (env : Locals Nat) (t : Trail),
    ∃ count, (hoist (trailing nullary) e back env t).2 = t.later count ∧
      (e.calm nullary = false → 0 < count) := by
  induction e using CExpr.induct with
  | lit | loc | global | error =>
    exact fun env t => ⟨0, by rw [hoist]; rfl, fun restless => by cases restless⟩
  | letIn slot value body ty value_hypothesis body_hypothesis =>
    intro env t
    simp only [CExpr.still, Bool.and_eq_true] at still
    obtain ⟨count, hoisted, some_read⟩ := value_hypothesis still.1 env t
    have ran : (whole (hoist (trailing nullary) value back env) t).2 =
        t.later (count + pending nullary value) := by
      have left : Left (pending nullary value) (hoist (trailing nullary) value back env t).1 :=
        hoist_left (isAtom_of_still still.1) env t
      rw [whole, run_bind, hoisted, left.run, later_later]
    obtain ⟨count', hoisted', some_read'⟩ := body_hypothesis still.2
      (env.set slot (whole (hoist (trailing nullary) value back env) t).1)
      (t.later (count + pending nullary value))
    refine ⟨count + pending nullary value + count', ?_, fun restless => ?_⟩
    · simp only [hoist, run_bind]
      rw [ran, hoisted', later_later]
    · simp only [CExpr.calm, Bool.and_eq_false_iff, Bool.not_eq_false'] at restless
      rcases restless with (value_reads | forces) | body_reads
      · have := some_read value_reads
        omega
      · have one : pending nullary value = 1 := congrArg Bool.toNat forces
        omega
      · have := some_read' body_reads
        omega
  | _ => cases still

/-- Operands that are still hoist reads only, and one at least unless all are calm. -/
theorem hoistList_still {es : List CExpr} (still : ∀ e ∈ es, e.still = true) :
    ∀ (env : Locals Nat) (t : Trail), ∃ count,
      (hoistList (trailing nullary) es back env t).2 = t.later count ∧
        ((∃ e ∈ es, e.calm nullary = false) → 0 < count) := by
  induction es with
  | nil =>
    intro env t
    refine ⟨0, by rw [hoistList]; rfl, fun ⟨e, member, _⟩ => absurd member List.not_mem_nil⟩
  | cons e es hypothesis =>
    intro env t
    obtain ⟨here, rest⟩ := List.forall_mem_cons.mp still
    obtain ⟨count, (hoisted : (hoist (trailing nullary) e back env t).2 = _), some_read⟩ :=
      hoist_still here env t
    obtain ⟨count', hoisted', some_read'⟩ := hypothesis rest env (t.later count)
    refine ⟨count + count', ?_, ?_⟩
    · simp only [hoistList, settle, if_pos (isAtom_of_still here), run_bind, run_pure]
      rw [hoisted, hoisted', later_later]
    · rintro ⟨restless, member, not_calm⟩
      rcases List.mem_cons.mp member with rfl | later
      · have := some_read not_calm
        omega
      · have := some_read' ⟨restless, later, not_calm⟩
        omega

/-- Before some answers, an expression leaves another trail than what it hoists and leaves. -/
def Parts (nullary : DefId → Bool) (back : List Nat → StateM Trail Nat) (e : CExpr) : Prop :=
  ∃ path, ∀ (env : Locals Nat) (s : Trail) (rest : List Bool), s.answers = path ++ rest →
    (eval (trailing nullary) e back env s).2.answers = rest ∧
      Apart (eval (trailing nullary) e back env s).2
        (whole (hoist (trailing nullary) e back env) s).2

/-- Operations on other operands, or after other trails, leave other trails. -/
theorem Along.noted {s t : Trail} {values values' : List Nat} (along : Along s t)
    (other : s.log = t.log → values ≠ values') : Apart (s.noted values) (t.noted values') :=
  ⟨lasts_along.noted (n := 0) values values' along, fun same =>
    other (List.cons.inj same).2 (congrArg Prod.snd (List.cons.inj same).1)⟩

/-- Before some answers, operands leave another trail than what they hoist and leave, or are other
operands. -/
def PartsList (nullary : DefId → Bool) (back : List Nat → StateM Trail Nat)
    (es : List CExpr) : Prop :=
  ∃ path, ∀ (env : Locals Nat) (s : Trail) (rest : List Bool), s.answers = path ++ rest →
    (inOrder (evalList (trailing nullary) es back env) s).2.answers = rest ∧
      Along (inOrder (evalList (trailing nullary) es back env) s).2
        ((hoistList (trailing nullary) es back env >>= inOrder) s).2 ∧
      ((inOrder (evalList (trailing nullary) es back env) s).2.log =
          ((hoistList (trailing nullary) es back env >>= inOrder) s).2.log →
        (inOrder (evalList (trailing nullary) es back env) s).1 ≠
          ((hoistList (trailing nullary) es back env >>= inOrder) s).1)

/-- What an operand leaves is run in the end, or at once. -/
theorem whole_later (e : CExpr) (env : Locals Nat) (s : Trail) :
    (whole (hoist (trailing nullary) e back env) s).2 =
      (settle e.residue.isAtom (hoist (trailing nullary) e back env) s).2.later
        (pending nullary e) := by
  have single := settle_bind e.residue.isAtom (hoist (trailing nullary) e back env)
    (pure : Nat → StateM Trail Nat)
  simp only [bind_pure] at single
  rw [← single, run_bind]
  exact (settle_left e env s).run _

/-- The relation lasts through the operands after one, and what is left of them all. -/
theorem Lasts.after (lasts : Lasts R) {e : CExpr} {es : List CExpr}
    (each : ∀ e ∈ es, Through nullary back R e) {n : Nat} {s t : Trail} (env env' : Locals Nat)
    (relates : R (n + pending nullary e) s
      (settle e.residue.isAtom (hoist (trailing nullary) e back env') t).2) :
    R n (inOrder (evalList (trailing nullary) es back env) s).2
      ((hoistList (trailing nullary) (e :: es) back env' >>= inOrder) t).2 := by
  obtain ⟨relates', lefts⟩ := through_list each env env' relates
  rw [Nat.add_assoc, ← List.sum_cons] at relates'
  simp only [hoistList, run_bind, run_pure]
  exact lasts.lefts (.cons (settle_left e env' t) lefts) relates'

/-- Operands part where the first of them does. -/
theorem Parts.here {e : CExpr} {es : List CExpr} (parts : Parts nullary back e)
    (low : ∀ e ∈ es, e.Throughout fun e => e.lowered = true) :
    PartsList nullary back (e :: es) := by
  obtain ⟨path, parts⟩ := parts
  obtain ⟨path', spends⟩ : ∃ path', ∀ env, Spends path' (es.map busy).sum
      (inOrder (evalList (trailing nullary) es back env)) :=
    exists_path_list fun e member => exists_path (low e member)
  refine ⟨path ++ path', fun env s rest same => ?_⟩
  rw [List.append_assoc] at same
  obtain ⟨answers, apart⟩ := parts env s (path' ++ rest) same
  obtain ⟨answers', -⟩ := spends env _ rest answers
  rw [whole_later] at apart
  have apart' : Apart (eval (trailing nullary) e back env s).2
      (settle e.residue.isAtom (hoist (trailing nullary) e back env) s).2 :=
    ⟨⟨apart.answers, apart.length⟩, apart.logs⟩
  have through (e : CExpr) (member : e ∈ es) : Through nullary back (fun _ => Apart) e :=
    lasts_apart.through (low e member)
  have final := lasts_apart.after (n := 0) through env env apart'
  exact ⟨answers', final.toAlong, fun logs => absurd logs final.logs⟩

/-- Operands part where the first is a read that comes late: after an operation, or after a read.
-/
theorem parts_late {e : CExpr} {es : List CExpr} (reads : ReadsInPlace nullary e)
    (forces : e.forces nullary = true) (restless : ∃ later ∈ es, later.calm nullary = false)
    (low : ∀ later ∈ e :: es, later.Throughout fun e => e.lowered = true) :
    PartsList nullary back (e :: es) := by
  obtain ⟨low_here, low_later⟩ := List.forall_mem_cons.mp low
  obtain ⟨path, spends⟩ : ∃ path, ∀ env, Spends path (busy e)
      (eval (trailing nullary) e back env) := exists_path low_here
  obtain ⟨path', spends'⟩ : ∃ path', ∀ env, Spends path' (es.map busy).sum
      (inOrder (evalList (trailing nullary) es back env)) :=
    exists_path_list fun e member => exists_path (low_later e member)
  refine ⟨path ++ path', fun env s rest same => ?_⟩
  rw [List.append_assoc] at same
  obtain ⟨answers, -⟩ := spends env s (path' ++ rest) same
  obtain ⟨answers', grows⟩ := spends' env _ rest answers
  -- the first run has read, and what was hoisted has not
  have atom := isAtom_of_forces forces
  have left : Left 1 (hoist (trailing nullary) e back env s).1 := by
    have one : pending nullary e = 1 := congrArg Bool.toNat forces
    rw [← one]
    exact hoist_left atom env s
  have read_left : (hoist (trailing nullary) e back env s).1 = read := by
    rcases left with ⟨-, read_left⟩ | ⟨none, -⟩
    · exact read_left
    · cases none
  generalize hoisted : (hoist (trailing nullary) e back env s).2 = u at *
  have ran : eval (trailing nullary) e back env s = (u.reads, u.advance) := by
    rw [← whole_hoist (trailing_statics nullary) reads env, whole, run_bind, hoisted, read_left]
    rfl
  have through (R : Nat → Trail → Trail → Prop) (lasts : Lasts R) (later : CExpr)
      (member : later ∈ es) : Through nullary back R later :=
    lasts.through (low_later later member)
  simp only [evalList, inOrder, hoistList, settle, if_pos atom, run_bind, run_pure, ran, hoisted,
    read_left] at answers' grows ⊢
  refine ⟨answers', ?_⟩
  by_cases working : ∃ later ∈ es, later.still = false
  · -- an operation is hoisted, which now comes before the read
    have ahead : Ahead u.log.length 0 u.advance u :=
      .inr ⟨⟨rfl, rfl⟩, Nat.lt_succ_self u.reads, rfl⟩
    obtain ⟨relates, lefts⟩ :=
      through_list (through _ (lasts_ahead u.log.length)) env env ahead
    have apart := relates.resolve_right fun behind => by
      obtain ⟨-, -, same_length⟩ := behind
      have operation := sum_busy_pos working
      rw [same_length] at grows
      exact absurd grows (by show ¬ u.log.length + _ ≤ _; omega)
    have final := lasts_apart.lefts (n := 0) (.cons (.inl ⟨rfl, rfl⟩) lefts) apart
    exact ⟨final.toAlong, fun logs => absurd logs final.logs⟩
  · -- only reads are hoisted, so the operand is a later read than it was
    have still (later : CExpr) (member : later ∈ es) : later.still = true := by
      by_contra moving
      exact working ⟨later, member, Bool.eq_false_iff.mpr moving⟩
    obtain ⟨count, (hoisted' : (hoistList (trailing nullary) es back env u).2 = _), some_read⟩ :=
      hoistList_still still env u
    have more := some_read restless
    have along : Along u.advance u := ⟨rfl, rfl⟩
    obtain ⟨relates, lefts⟩ := through_list (n := 0) (through _ lasts_along) env env along
    refine ⟨lasts_along.lefts (n := 0) (.cons (.inl ⟨rfl, rfl⟩) lefts) relates,
      fun _ values => ?_⟩
    have first : u.reads = (hoistList (trailing nullary) es back env u).2.reads :=
      (List.cons.inj values).1
    rw [hoisted'] at first
    simp only [Trail.later] at first
    omega

/-- Operands part where those after a value do. -/
theorem PartsList.later {e : CExpr} {es : List CExpr} (reads : ReadsInPlace nullary e)
    (plain : e.forces nullary = false) (low : e.Throughout fun e => e.lowered = true)
    (parts : PartsList nullary back es) : PartsList nullary back (e :: es) := by
  obtain ⟨path, spends⟩ : ∃ path, ∀ env, Spends path (busy e)
      (eval (trailing nullary) e back env) := exists_path low
  obtain ⟨path', parts⟩ := parts
  refine ⟨path ++ path', fun env s rest same => ?_⟩
  rw [List.append_assoc] at same
  obtain ⟨answers, -⟩ := spends env s (path' ++ rest) same
  obtain ⟨answers', along, other⟩ := parts env _ rest answers
  have statics := trailing_statics nullary
  have settled : settle e.residue.isAtom (hoist (trailing nullary) e back env) =
      eval (trailing nullary) e back env >>= fun value => pure (pure value) := by
    rw [settle_value statics plain, whole_hoist statics reads]
  simp only [evalList, inOrder, hoistList, settled, run_bind, run_pure] at along other ⊢
  exact ⟨answers', along, fun logs values => other logs (List.cons.inj values).2⟩

/-- What is calm has its reads in place. -/
theorem readsInPlace_of_calm {e : CExpr} (calm : e.calm nullary = true) :
    ReadsInPlace nullary e := by
  induction e using CExpr.induct with
  | lit | loc | global | error =>
    exact .node trivial fun child member => absurd member (by simp [children])
  | letIn slot value body ty value_hypothesis body_hypothesis =>
    simp only [CExpr.calm, Bool.and_eq_true] at calm
    refine .node trivial fun child member => ?_
    simp only [children, List.mem_cons, List.not_mem_nil, or_false] at member
    rcases member with rfl | rfl
    · exact value_hypothesis calm.1.1
    · exact body_hypothesis calm.2
  | _ => cases calm

/-- The reads of calm operands come last. -/
theorem readsLast_of_calm {es : List CExpr} (calm : ∀ e ∈ es, e.calm nullary = true) :
    ReadsLast nullary es := by
  induction es with
  | nil => trivial
  | cons e es hypothesis =>
    obtain ⟨-, later⟩ := List.forall_mem_cons.mp calm
    exact ⟨fun _ => later, hypothesis later⟩

/-- Operands part where one of them does, and where a read does not come last. -/
theorem parts_list {es : List CExpr}
    (each : ∀ e ∈ es, ¬ ReadsInPlace nullary e → Parts nullary back e)
    (low : ∀ e ∈ es, e.Throughout fun e => e.lowered = true)
    (moved : (∀ e ∈ es, ReadsInPlace nullary e) → ¬ ReadsLast nullary es) :
    PartsList nullary back es := by
  induction es with
  | nil => exact absurd trivial (moved fun e member => absurd member List.not_mem_nil)
  | cons e es hypothesis =>
    obtain ⟨each_here, each_later⟩ := List.forall_mem_cons.mp each
    obtain ⟨low_here, low_later⟩ := List.forall_mem_cons.mp low
    by_cases reads : ReadsInPlace nullary e
    · by_cases last : e.forces nullary = true → ∀ later ∈ es, later.calm nullary = true
      · cases forces : e.forces nullary with
        | false =>
          refine .later reads forces low_here (hypothesis each_later low_later fun others => ?_)
          intro reads_last
          exact moved (List.forall_mem_cons.mpr ⟨reads, others⟩) ⟨last, reads_last⟩
        | true =>
          have calm := last forces
          exact absurd ⟨last, readsLast_of_calm calm⟩ (moved (List.forall_mem_cons.mpr
            ⟨reads, fun later member => readsInPlace_of_calm (calm later member)⟩))
      · rw [Classical.not_imp] at last
        obtain ⟨forces, restless⟩ := last
        refine parts_late reads forces ?_ low
        by_contra calm
        apply restless
        intro later member
        by_contra moving
        exact calm ⟨later, member, Bool.eq_false_iff.mpr moving⟩
    · exact (each_here reads).here low_later

/-- Where operands part, so does the operation on them. -/
theorem PartsList.operation {e : CExpr} {es : List CExpr} (parts : PartsList nullary back es)
    (run : ∀ env, eval (trailing nullary) e back env =
      inOrder (evalList (trailing nullary) es back env) >>= note)
    (hoisted : ∀ env, whole (hoist (trailing nullary) e back env) =
      (hoistList (trailing nullary) es back env >>= inOrder) >>= note) : Parts nullary back e := by
  obtain ⟨path, parts⟩ := parts
  refine ⟨path, fun env s rest same => ?_⟩
  obtain ⟨answers, along, other⟩ := parts env s rest same
  rw [run, hoisted, run_bind, run_bind]
  exact ⟨answers, along.noted other⟩

section Sequence

variable {first e : CExpr} {next next' : Locals Nat → Nat → StateM Trail Nat}
  (run : ∀ env, eval (trailing nullary) e back env =
    eval (trailing nullary) first back env >>= next env)
  (hoisted : ∀ env, whole (hoist (trailing nullary) e back env) =
    whole (hoist (trailing nullary) first back env) >>= next' env)

include run hoisted

/-- An expression parts where what it runs first does. -/
theorem Parts.of_first (parts : Parts nullary back first) {path' : List Bool} {count : Nat}
    (spends : ∀ env value, Spends path' count (next env value))
    (apart : ∀ env value value' s t, Apart s t →
      Apart (next env value s).2 (next' env value' t).2) : Parts nullary back e := by
  obtain ⟨path, parts⟩ := parts
  refine ⟨path ++ path', fun env s rest same => ?_⟩
  rw [List.append_assoc] at same
  obtain ⟨answers, parted⟩ := parts env s (path' ++ rest) same
  rw [run, hoisted, run_bind, run_bind]
  exact ⟨(spends env _ _ rest answers).1, apart env _ _ _ _ parted⟩

/-- An expression parts where what it runs later does, when what it runs first has its reads in
place. -/
theorem Parts.of_second (reads : ReadsInPlace nullary first)
    (low : first.Throughout fun e => e.lowered = true) {path' : List Bool}
    (parts : ∀ env value s rest, s.answers = path' ++ rest →
      (next env value s).2.answers = rest ∧ Apart (next env value s).2 (next' env value s).2) :
    Parts nullary back e := by
  obtain ⟨path, spends⟩ : ∃ path, ∀ env, Spends path (busy first)
      (eval (trailing nullary) first back env) := exists_path low
  refine ⟨path ++ path', fun env s rest same => ?_⟩
  rw [List.append_assoc] at same
  obtain ⟨answers, -⟩ := spends env s (path' ++ rest) same
  rw [run, hoisted, whole_hoist (trailing_statics nullary) reads, run_bind, run_bind]
  exact parts env _ _ rest answers

end Sequence

/-- A test gives the next answer. -/
theorem run_branch (value : Nat) (yes no : StateM Trail Nat) {s : Trail} {chosen : Bool}
    {rest : List Bool} (same : s.answers = chosen :: rest) :
    (answer value >>= fun first => if first then yes else no) s =
      (if chosen then yes else no) (s.noted [value]).popped := by
  have first : (answer value s).1 = chosen := by
    show s.answers.headD false = chosen
    rw [same]
    rfl
  rw [run_bind, first]
  rfl

/-- Where an expression that has no operands has its reads out of place, a child has. -/
theorem exists_moved {e : CExpr} (alone : e.operands = []) (moved : ¬ ReadsInPlace nullary e) :
    ∃ child ∈ e.children, ¬ ReadsInPlace nullary child := by
  by_contra each
  refine moved (.node (by rw [alone]; trivial) fun child member => ?_)
  by_contra other
  exact each ⟨child, member, other⟩

/-- Where the reads are not in place, some answers lead to another trail. -/
theorem parts {e : CExpr} (low : e.Throughout fun e => e.lowered = true)
    (moved : ¬ ReadsInPlace nullary e) : Parts nullary back e := by
  induction e using CExpr.induct with
  | lit | loc | global | error | makeClosure =>
    exact absurd (.node trivial fun child member => absurd member (by simp [children])) moved
  | prim op args ty hypothesis | foreign op args _ ty hypothesis | spread args ty hypothesis
  | makeData _ args _ _ _ ty hypothesis =>
    have list : PartsList nullary back args :=
      parts_list (fun e member => hypothesis e member (low.child e member))
        (fun e member => low.child e member) fun each last => moved (.node last each)
    refine list.operation (fun env => ?_) fun env => ?_
    · simp only [eval]; rfl
    · simp only [hoist, whole, bind_assoc, pure_bind, id]; rfl
  | app func args reuse alloc ty func_hypothesis args_hypothesis =>
    have list : PartsList nullary back (func :: args) :=
      parts_list (List.forall_mem_cons.mpr ⟨func_hypothesis (low.child func List.mem_cons_self),
          fun e member => args_hypothesis e member (low.child e (List.mem_cons_of_mem _ member))⟩)
        low.child fun each last => moved (.node last each)
    refine list.operation (fun env => ?_) fun env => ?_
    · simp only [eval, evalList, inOrder, bind_assoc, pure_bind]; rfl
    · simp only [hoist, hoistList, inOrder, whole, bind_assoc, pure_bind, id]; rfl
  | ite cond yes no ty cond_hypothesis yes_hypothesis no_hypothesis =>
    have low_cond := low.child cond (by simp [children])
    have low_yes := low.child yes (by simp [children])
    have low_no := low.child no (by simp [children])
    have run (env : Locals Nat) : eval (trailing nullary) (.ite cond yes no ty) back env =
        eval (trailing nullary) cond back env >>= fun value => answer value >>= fun first =>
          if first then eval (trailing nullary) yes back env
          else eval (trailing nullary) no back env := by
      rw [eval]
      rfl
    have hoisted (env : Locals Nat) :
        whole (hoist (trailing nullary) (.ite cond yes no ty) back env) =
          whole (hoist (trailing nullary) cond back env) >>= fun value => answer value >>=
            fun first => if first then whole (hoist (trailing nullary) yes back env)
              else whole (hoist (trailing nullary) no back env) := by
      rw [whole_hoist_ite]
      rfl
    by_cases cond_moved : ReadsInPlace nullary cond
    · -- the answer leads to the branch that parts
      have choose (chosen : Bool) (parts : Parts nullary back (if chosen then yes else no)) :
          Parts nullary back (.ite cond yes no ty) := by
        obtain ⟨path, parts⟩ := parts
        refine Parts.of_second run hoisted cond_moved low_cond
          (fun env value s rest (same : s.answers = (chosen :: path) ++ rest) => ?_)
        have next : s.answers = chosen :: (path ++ rest) := same
        rw [run_branch value _ _ next, run_branch value _ _ next]
        have tail : (s.noted [value]).popped.answers = path ++ rest := congrArg List.tail next
        have branch := parts env _ rest tail
        cases chosen with
        | true => exact branch
        | false => exact branch
      obtain ⟨child, member, other⟩ := exists_moved rfl moved
      simp only [children, List.mem_cons, List.not_mem_nil, or_false] at member
      rcases member with rfl | rfl | rfl
      · exact absurd cond_moved other
      · exact choose true (yes_hypothesis low_yes other)
      · exact choose false (no_hypothesis low_no other)
    · obtain ⟨path, spends⟩ : ∃ path, ∀ env, Spends path (busy yes)
          (eval (trailing nullary) yes back env) := exists_path low_yes
      refine (cond_hypothesis low_cond cond_moved).of_first run hoisted
        (fun env value => (spends env).branch value) fun env value value' s t apart => ?_
      have tested := lasts_apart.popped (n := 0)
        (lasts_apart.noted (n := 0) [value] [value'] apart)
      exact lasts_apart.branch (n := 0) apart
        (lasts_apart.through low_yes (n := 0) env env tested).1
        (lasts_apart.through low_no (n := 0) env env tested).1
  | letIn slot value body ty value_hypothesis body_hypothesis =>
    have low_value := low.child value (by simp [children])
    have low_body := low.child body (by simp [children])
    have run (env : Locals Nat) : eval (trailing nullary) (.letIn slot value body ty) back env =
        eval (trailing nullary) value back env >>= fun held =>
          eval (trailing nullary) body back (env.set slot held) := by
      rw [eval]
    by_cases reads : ReadsInPlace nullary value
    · obtain ⟨child, member, other⟩ := exists_moved rfl moved
      simp only [children, List.mem_cons, List.not_mem_nil, or_false] at member
      rcases member with rfl | rfl
      · exact absurd reads other
      obtain ⟨path, parts⟩ := body_hypothesis low_body other
      exact .of_second run (whole_hoist_letIn slot value _ ty) reads low_value
        fun env held s rest same => parts (env.set slot held) s rest same
    · obtain ⟨path, spends⟩ : ∃ path, ∀ env, Spends path (busy body)
          (eval (trailing nullary) body back env) := exists_path low_body
      refine (value_hypothesis low_value reads).of_first run (whole_hoist_letIn slot value body ty)
        (fun env held => spends (env.set slot held)) fun env held held' s t apart => ?_
      exact (lasts_apart.through low_body (n := 0) _ _ apart).1
  | letMany slots value body ty value_hypothesis body_hypothesis =>
    have low_value := low.child value (by simp [children])
    have low_body := low.child body (by simp [children])
    have run (env : Locals Nat) : eval (trailing nullary) (.letMany slots value body ty) back env =
        eval (trailing nullary) value back env >>= fun held => note [held] >>= fun _ =>
          eval (trailing nullary) body back (env.setAll 0 slots []) := by
      rw [eval]
      rfl
    have hoisted (env : Locals Nat) :
        whole (hoist (trailing nullary) (.letMany slots value body ty) back env) =
          whole (hoist (trailing nullary) value back env) >>= fun held => note [held] >>= fun _ =>
            whole (hoist (trailing nullary) body back (env.setAll 0 slots [])) := by
      rw [whole]
      simp only [hoist, pure_bind, id]
      rfl
    by_cases reads : ReadsInPlace nullary value
    · obtain ⟨child, member, other⟩ := exists_moved rfl moved
      simp only [children, List.mem_cons, List.not_mem_nil, or_false] at member
      rcases member with rfl | rfl
      · exact absurd reads other
      obtain ⟨path, parts⟩ := body_hypothesis low_body other
      exact .of_second run hoisted reads low_value
        fun env held s rest same => parts (env.setAll 0 slots []) (s.noted [held]) rest same
    · obtain ⟨path, spends⟩ : ∃ path, ∀ env, Spends path (busy body)
          (eval (trailing nullary) body back env) := exists_path low_body
      refine (value_hypothesis low_value reads).of_first run hoisted
        (fun env held => (spends_note [held]).bind fun _ => spends (env.setAll 0 slots []))
        fun env held held' s t apart => ?_
      exact (lasts_apart.through low_body (n := 0) _ _
        (lasts_apart.noted (n := 0) [held] [held'] apart)).1
  | dataTag base niche ty hypothesis =>
    obtain ⟨child, member, other⟩ := exists_moved rfl moved
    rw [List.mem_singleton.mp member] at other
    refine (hypothesis (low.child base (by simp [children])) other).of_first
      (fun env => by rw [eval]; rfl) (whole_hoist_dataTag base niche ty)
      (fun env value => spends_note [value]) fun env value value' s t apart => ?_
    exact lasts_apart.noted (n := 0) [value] [value'] apart
  | dataField base index scalar niche ty hypothesis =>
    obtain ⟨child, member, other⟩ := exists_moved rfl moved
    rw [List.mem_singleton.mp member] at other
    refine (hypothesis (low.child base (by simp [children])) other).of_first
      (fun env => by rw [eval]; rfl) (whole_hoist_dataField base index scalar niche ty)
      (fun env value => spends_note [value]) fun env value value' s t apart => ?_
    exact lasts_apart.noted (n := 0) [value] [value'] apart
  | _ => cases low.here

/-- An expression runs what it hoists and leaves as it stands only if its reads are in place. -/
theorem readsInPlace_of_alike {e : CExpr} (low : e.Throughout fun e => e.lowered = true)
    (alike : ∀ env, whole (hoist (trailing nullary) e back env) =
      eval (trailing nullary) e back env) : ReadsInPlace nullary e := by
  by_contra moved
  obtain ⟨path, parts⟩ : Parts nullary back e := parts low moved
  obtain ⟨-, apart⟩ := parts (fun _ => 0) ⟨path, 0, []⟩ [] (List.append_nil path).symm
  rw [alike] at apart
  exact apart.logs rfl

end Runs

end Anf

end Fai
