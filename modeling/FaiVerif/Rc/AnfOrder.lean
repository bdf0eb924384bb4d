import FaiVerif.Rc.AnfMeaning

/-!
# Reads that stay in their order

An operand that normalization does not hoist is run after all that later operands hoist. That is no
change for a local, a literal or the static closure of a definition with parameters. It is one for
the read of a zero-arity definition, which runs its body, and for a trap, unless the later operands
hoist nothing that runs.
-/

namespace Fai

namespace CExpr

variable (nullary : DefId → Bool)

/-- Whether an expression ends, under its bindings, in the read of a zero-arity definition or in a
trap: an operand that stays an atom and is no value. -/
def forces (e : CExpr) : Bool :=
  match e.residue with
  | global target _ => nullary target
  | error _ => true
  | _ => false

/-- Whether what normalization hoists out of an operand runs nothing. -/
def calm : CExpr → Bool
  | lit _ _ | loc _ _ | global _ _ | error _ => true
  | letIn _ value body _ => value.calm && !value.forces nullary && body.calm
  | _ => false

/-- No operand that reads a zero-arity definition or traps comes before one that hoists something
that runs. -/
def ReadsLast : List CExpr → Prop
  | [] => True
  | e :: rest =>
    (e.forces nullary = true → ∀ later ∈ rest, later.calm nullary = true) ∧ ReadsLast rest

/-- The condition on the operands of every operation of an expression. -/
abbrev ReadsInPlace (e : CExpr) : Prop := e.Throughout fun e => ReadsLast nullary e.operands

variable {nullary}

/-- An expression that forces something ends in an atom. -/
theorem isAtom_of_forces {e : CExpr} (forces : e.forces nullary = true) :
    e.residue.isAtom = true := by
  unfold CExpr.forces at forces
  split at forces
  · next shape => rw [shape]; rfl
  · next shape => rw [shape]; rfl
  · cases forces

/-- A calm operand ends in an atom. -/
theorem isAtom_of_calm {e : CExpr} (calm : e.calm nullary = true) : e.residue.isAtom = true := by
  induction e using CExpr.induct with
  | lit | loc | global | error => rfl
  | letIn slot value body ty _ body_hypothesis =>
    simp only [CExpr.calm, Bool.and_eq_true] at calm
    exact body_hypothesis calm.2
  | _ => cases calm

end CExpr

namespace Anf

open CExpr Eval Slots

/-- A definition that is not of zero arity is read without running anything: its closure is static
data. -/
def StaticClosures {m : Type → Type} {V : Type} [Monad m] (nullary : DefId → Bool)
    (M : Machine m V) : Prop :=
  ∀ target, nullary target = false → ∃ value, M.global target = pure value

section InPlace

variable {m : Type → Type} {V : Type} [Monad m] [LawfulMonad m] {M : Machine m V}
  {back : List V → m V} {nullary : DefId → Bool}

/-- A single operand runs the same wherever what it leaves is run. -/
theorem settle_bind {β : Type} (stays : Bool) (run : m (m V)) (k : V → m β) :
    (settle stays run >>= fun rest => rest >>= k) = whole run >>= k := by
  cases stays with
  | true => simp [settle, whole]
  | false => simp [settle, whole]

/-- A conditional runs its condition and then the branch that this selects. -/
theorem whole_hoist_ite (cond yes no : CExpr) (ty : Ty) (env : Locals V) :
    whole (hoist M (.ite cond yes no ty) back env) =
      whole (hoist M cond back env) >>= fun value => M.test value >>= fun first =>
        if first then whole (hoist M yes back env) else whole (hoist M no back env) := by
  rw [← settle_bind cond.residue.isAtom, whole]
  simp only [hoist, bind_assoc, pure_bind, id]

/-- A binding runs its value and then its body. -/
theorem whole_hoist_letIn (slot : LocalId) (value body : CExpr) (ty : Ty) (env : Locals V) :
    whole (hoist M (.letIn slot value body ty) back env) =
      whole (hoist M value back env) >>= fun held =>
        whole (hoist M body back (env.set slot held)) := by
  simp only [hoist, whole, bind_assoc]

/-- A binding as an operand runs its value and then its body as an operand. -/
theorem settle_hoist_letIn (stays : Bool) (slot : LocalId) (value body : CExpr) (ty : Ty)
    (env : Locals V) :
    settle stays (hoist M (.letIn slot value body ty) back env) =
      whole (hoist M value back env) >>= fun held =>
        settle stays (hoist M body back (env.set slot held)) := by
  cases stays <;> simp [settle, hoist]

/-- A tag is that of what its base runs to. -/
theorem whole_hoist_dataTag (base : CExpr) (niche : Option NicheKind) (ty : Ty) (env : Locals V) :
    whole (hoist M (.dataTag base niche ty) back env) =
      whole (hoist M base back env) >>= M.tag niche := by
  rw [← settle_bind base.residue.asLocal.isSome, whole]
  simp only [hoist, bind_assoc, pure_bind, id]

/-- A field is that of what its base runs to. -/
theorem whole_hoist_dataField (base : CExpr) (index : FieldIndex) (scalar : Bool)
    (niche : Option NicheKind) (ty : Ty) (env : Locals V) :
    whole (hoist M (.dataField base index scalar niche ty) back env) =
      whole (hoist M base back env) >>= fun value =>
        M.field niche scalar value (place env index) := by
  rw [← settle_bind base.residue.asLocal.isSome, whole]
  simp only [hoist, bind_assoc, pure_bind, id]

/-- An expression that ends in an atom and forces nothing leaves a value. -/
theorem hoist_value (statics : StaticClosures nullary M) {e : CExpr}
    (atom : e.residue.isAtom = true) (plain : e.forces nullary = false) : ∀ env,
      hoist M e back env = whole (hoist M e back env) >>= fun value => pure (pure value) := by
  induction e using CExpr.induct with
  | lit | loc => intro env; simp only [hoist, whole, pure_bind, id]
  | global target ty =>
    intro env
    obtain ⟨value, read⟩ := statics target plain
    simp only [hoist, whole, pure_bind, id, read]
  | error => cases plain
  | letIn slot value body ty _ body_hypothesis =>
    intro env
    simp only [hoist, whole, bind_assoc]
    refine bind_congr fun rest => bind_congr fun held => ?_
    have later := body_hypothesis atom plain (env.set slot held)
    simp only [whole, bind_assoc] at later
    exact later
  | _ => cases atom

/-- An operand that forces nothing leaves a value. -/
theorem settle_value (statics : StaticClosures nullary M) {e : CExpr}
    (plain : e.forces nullary = false) (env : Locals V) :
    settle e.residue.isAtom (hoist M e back env) =
      whole (hoist M e back env) >>= fun value => pure (pure value) := by
  cases atom : e.residue.isAtom with
  | true => exact hoist_value statics atom plain env
  | false => simp [settle, whole]

/-- A calm operand hoists nothing that runs, and leaves a value when it forces nothing. -/
theorem hoist_calm (statics : StaticClosures nullary M) {e : CExpr}
    (calm : e.calm nullary = true) : ∀ env, ∃ rest, hoist M e back env = pure rest ∧
      (e.forces nullary = false → ∃ value, rest = pure value) := by
  induction e using CExpr.induct with
  | lit value ty => exact fun env => ⟨_, by rw [hoist], fun _ => ⟨M.lit value, rfl⟩⟩
  | loc slot ty => exact fun env => ⟨_, by rw [hoist], fun _ => ⟨env slot, rfl⟩⟩
  | global target ty => exact fun env => ⟨_, by rw [hoist], statics target⟩
  | error ty => exact fun env => ⟨_, by rw [hoist], fun plain => by cases plain⟩
  | letIn slot value body ty value_hypothesis body_hypothesis =>
    intro env
    simp only [CExpr.calm, Bool.and_eq_true, Bool.not_eq_true'] at calm
    obtain ⟨⟨value_calm, plain⟩, body_calm⟩ := calm
    obtain ⟨rest, hoisted, left⟩ := value_hypothesis value_calm env
    obtain ⟨held, rfl⟩ := left plain
    obtain ⟨rest', hoisted', left'⟩ := body_hypothesis body_calm (env.set slot held)
    refine ⟨rest', ?_, left'⟩
    simp only [hoist, whole, hoisted, pure_bind, id, hoisted']
  | _ => cases calm

/-- Calm operands hoist nothing that runs. -/
theorem hoistList_calm (statics : StaticClosures nullary M) {es : List CExpr}
    (calm : ∀ e ∈ es, e.calm nullary = true) (env : Locals V) :
    ∃ rests, hoistList M es back env = pure rests := by
  induction es with
  | nil => exact ⟨[], by rw [hoistList]⟩
  | cons e es hypothesis =>
    obtain ⟨here, later⟩ := List.forall_mem_cons.mp calm
    obtain ⟨rest, (hoisted : hoist M e back env = pure rest), -⟩ := hoist_calm statics here env
    obtain ⟨rests, hoisted'⟩ := hypothesis later
    refine ⟨rest :: rests, ?_⟩
    simp only [hoistList, settle, if_pos (isAtom_of_calm here), hoisted, pure_bind, hoisted']

/-- An operand and those after it run in their order, when what the later ones hoist is nothing that
an operand left before it would come after. -/
theorem hoist_cons (statics : StaticClosures nullary M) {e : CExpr} {rest : List CExpr}
    {env : Locals V} {β : Type} (K : V → List V → m β)
    (first : whole (hoist M e back env) = eval M e back env)
    (others : hoistList M rest back env >>= inOrder = inOrder (evalList M rest back env))
    (last : e.forces nullary = true → ∀ later ∈ rest, later.calm nullary = true) :
    (settle e.residue.isAtom (hoist M e back env) >>= fun left =>
        hoistList M rest back env >>= fun lefts =>
          left >>= fun value => inOrder lefts >>= K value) =
      eval M e back env >>= fun value => inOrder (evalList M rest back env) >>= K value := by
  cases forces : e.forces nullary with
  | false =>
    rw [settle_value statics forces, first, bind_assoc]
    apply bind_congr
    intro value
    rw [← others, bind_assoc]
    simp only [pure_bind]
  | true =>
    obtain ⟨lefts, hoisted⟩ := hoistList_calm statics (last forces) env
    rw [hoisted, pure_bind] at others
    rw [settle, if_pos (isAtom_of_forces forces), hoisted, ← first, ← others, whole, bind_assoc]
    simp only [pure_bind, id]

/-- Operands whose reads come last run in their order. -/
theorem hoistList_inOrder (statics : StaticClosures nullary M) {es : List CExpr} {env : Locals V}
    (each : ∀ e ∈ es, whole (hoist M e back env) = eval M e back env)
    (reads : ReadsLast nullary es) :
    hoistList M es back env >>= inOrder = inOrder (evalList M es back env) := by
  induction es with
  | nil => simp only [hoistList, pure_bind, evalList]
  | cons e es hypothesis =>
    obtain ⟨here, later⟩ := List.forall_mem_cons.mp each
    have both := hoist_cons statics (fun value values => pure (value :: values)) here
      (hypothesis later reads.2) reads.1
    simp only [hoistList, bind_assoc, pure_bind, evalList, inOrder]
    exact both

/-- An expression whose reads are in place runs what it hoists and what it leaves as it stands. -/
theorem whole_hoist (statics : StaticClosures nullary M) {e : CExpr}
    (reads : ReadsInPlace nullary e) :
    ∀ env, whole (hoist M e back env) = eval M e back env := by
  induction e using CExpr.induct with
  | lit | loc | global | error | makeClosure | reset | freeReuse | dup | drop | join | recur
  | holeStart | holeFill | holeClose =>
    intro env
    simp only [hoist, whole, pure_bind, id, eval]
  | prim op args ty hypothesis | foreign op args _ ty hypothesis | spread args ty hypothesis
  | makeData _ args _ _ _ ty hypothesis =>
    intro env
    have same := hoistList_inOrder statics
      (fun e member => hypothesis e member (reads.child e member) env) reads.here
    simp only [hoist, whole, bind_assoc, pure_bind, id, eval, ← same]
  | app func args reuse alloc ty func_hypothesis args_hypothesis =>
    intro env
    have others := hoistList_inOrder statics (fun e member => args_hypothesis e member
      (reads.child e (List.mem_cons_of_mem _ member)) env) reads.here.2
    have both := hoist_cons statics
      (fun callee values => M.apply callee values (reuse.map (Option.map env)))
      (func_hypothesis (reads.child func List.mem_cons_self) env) others reads.here.1
    simp only [hoist, whole, bind_assoc, pure_bind, id, eval]
    exact both
  | ite cond yes no ty cond_hypothesis yes_hypothesis no_hypothesis =>
    intro env
    have first := cond_hypothesis (reads.child cond (by simp [children])) env
    have second := yes_hypothesis (reads.child yes (by simp [children])) env
    have third := no_hypothesis (reads.child no (by simp [children])) env
    simp only [whole_hoist_ite, first, second, third, eval]
  | letIn slot value body ty value_hypothesis body_hypothesis =>
    intro env
    have first := value_hypothesis (reads.child value (by simp [children])) env
    have second := body_hypothesis (reads.child body (by simp [children]))
    simp only [whole_hoist_letIn, first, second, eval]
  | letMany slots value body ty value_hypothesis body_hypothesis =>
    intro env
    have first := value_hypothesis (reads.child value (by simp [children])) env
    have second := body_hypothesis (reads.child body (by simp [children]))
    simp only [hoist, eval, first, second]
    simp only [whole, pure_bind, id]
  | dataTag base niche ty hypothesis =>
    intro env
    have first := hypothesis (reads.child base (by simp [children])) env
    simp only [whole_hoist_dataTag, first, eval]
  | dataField base index scalar niche ty hypothesis =>
    intro env
    have first := hypothesis (reads.child base (by simp [children])) env
    simp only [whole_hoist_dataField, first, eval]

end InPlace

end Anf

end Fai
