import FaiVerif.Rc.Borrow

/-!
# What a borrowed parameter is used for

The uses of parameters in a body, of their aliases and of what is projected from them, collected
over all control paths; that the scan owns every parameter with a retaining use; and that the
signatures of a module settle.
-/

namespace Fai

namespace Borrow

open Descent

/-! ## Uses -/

/-- How a value is used. -/
inductive Way where
  /-- It is the value of the body. -/
  | returned
  /-- It is a component of constructed data. -/
  | stored
  /-- A closure captures it. -/
  | captured
  /-- It is applied. -/
  | called
  /-- An operand that a primitive or a foreign call takes over. -/
  | operand
  /-- An argument of a call, in tail position or not. -/
  | passed (callee : Option DefId) (nargs index : Nat) (tail : Bool)
  deriving DecidableEq

/-- A use of a parameter as a whole or of a part of it. -/
structure Use where
  /-- How it is used. -/
  way : Way
  /-- The parameter. -/
  param : LocalId
  /-- Whether a projection of it is used. -/
  part : Bool
  deriving DecidableEq

/-- The parameters that slots are aliases or parts of. -/
abbrev Sources := LocalId → Option (LocalId × Bool)

/-- Which projections are followed. -/
abbrev Follow := FieldIndex → Bool → Option NicheKind → Bool

/-- The parameter a value is an alias or a part of. -/
def source (follow : Follow) (sources : Sources) : CExpr → Option (LocalId × Bool)
  | .loc slot _ => sources slot
  | .dataField base index scalar niche _ =>
    if follow index scalar niche then (source follow sources base).map fun found => (found.1, true)
    else none
  | _ => none

/-- The use of a value, if it is a parameter's. -/
def note (way : Way) : Option (LocalId × Bool) → List Use
  | some (param, part) => [⟨way, param, part⟩]
  | none => []

mutual

/-- The uses of parameters in an expression, on every path. -/
def uses (follow : Follow) : CExpr → Sources → Bool → List Use
  | .loc slot _, sources, tail => if tail then note .returned (sources slot) else []
  | .lit _ _, _, _ | .global _ _, _, _ | .error _, _, _ => []
  | .letIn slot value body _, sources, tail =>
    uses follow value sources false ++
      uses follow body (Function.update sources slot (source follow sources value)) tail
  | .letMany slots value body _, sources, tail =>
    uses follow value sources false ++
      uses follow body (fun name => if name ∈ slots then none else sources name) tail
  | .ite cond yes no _, sources, tail =>
    uses follow cond sources false ++ uses follow yes sources tail ++ uses follow no sources tail
  | .prim op args _, sources, _ =>
    usesArgs follow (fun index => if borrowsAt op args index then none else some .operand) args 0
      sources
  | .foreign _ args _ _, sources, _ =>
    usesArgs follow (fun _ => some .operand) args 0 sources
  | .makeData _ args _ _ _ _, sources, _ | .spread args _, sources, _ =>
    usesArgs follow (fun _ => some .stored) args 0 sources
  | .makeClosure _ captures _ _, sources, _ =>
    captures.flatMap fun slot => note .captured (sources slot)
  | .app func args _ _ _, sources, tail =>
    uses follow func sources false ++ note .called (source follow sources func) ++
      usesArgs follow (fun index => some (.passed (target func) args.length index tail)) args 0
        sources
  | .dataTag base _ _, sources, _ | .dataField base _ _ _ _, sources, _ =>
    uses follow base sources false
  | .reset _ _ _ _, _, _ | .freeReuse _ _ _, _, _ | .dup _ _ _, _, _ | .drop _ _ _, _, _
  | .join _ _ _, _, _ | .recur _ _, _, _ | .holeStart _ _ _, _, _ | .holeFill _ _ _ _, _, _
  | .holeClose _ _ _, _, _ => []

/-- The uses of parameters in operands, each as the operation uses it. -/
def usesArgs (follow : Follow) (way : Nat → Option Way) : List CExpr → Nat → Sources → List Use
  | [], _, _ => []
  | arg :: rest, index, sources =>
    uses follow arg sources false ++
      ((way index).elim [] fun way => note way (source follow sources arg)) ++
      usesArgs follow way rest (index + 1) sources

end

/-- The sources at entry: every parameter is itself. -/
def entrySources (params : List LocalId) : Sources := fun slot =>
  if slot ∈ params then some (slot, false) else none

/-- Every projection is followed. -/
def always : Follow := fun _ _ _ => true

mutual

/-- The bindings of an expression, each as often as it stands there. -/
def bindings : CExpr → List (LocalId × CExpr)
  | .letIn slot value body _ => (slot, value) :: (bindings value ++ bindings body)
  | .letMany _ value body _ => bindings value ++ bindings body
  | .ite cond yes no _ => bindings cond ++ (bindings yes ++ bindings no)
  | .prim _ args _ | .foreign _ args _ _ | .makeData _ args _ _ _ _ | .spread args _ =>
    bindingsList args
  | .app func args _ _ _ => bindings func ++ bindingsList args
  | .dataTag base _ _ | .dataField base _ _ _ _ => bindings base
  | _ => []

/-- The bindings of operands. -/
def bindingsList : List CExpr → List (LocalId × CExpr)
  | [] => []
  | head :: rest => bindings head ++ bindingsList rest

end

/-- A value that a slot bound to it names: a local or a projection. -/
def named : CExpr → Bool
  | .loc _ _ | .dataField _ _ _ _ _ => true
  | _ => false

/-- Wherever a slot is bound to a local or a projection, it names the same parameter, as a whole or
as a part. Bindings of one slot in several branches are copies of one arm of a match. -/
def Uniform (root : Sources) (bindings : List (LocalId × CExpr)) : Prop :=
  ∀ binding ∈ bindings, named binding.2 = true → root binding.1 = source always root binding.2

instance (root : Sources) (bindings : List (LocalId × CExpr)) : Decidable (Uniform root bindings) :=
  inferInstanceAs (Decidable (∀ binding ∈ bindings,
    named binding.2 = true → root binding.1 = source always root binding.2))

/-- What the slots of a function name: a parameter is itself as a whole, and the bindings of a slot
agree. -/
structure Rooted (root : Sources) (entry : CoreFn) : Prop where
  /-- A parameter is itself. -/
  params : ∀ param ∈ entry.params, root param = some (param, false)
  /-- The bindings of a slot agree. -/
  bindings : Uniform root (bindings entry.body)

/-- A use the analysis must own the parameter for: the value is retained, a whole parameter is an
operand taken over, an argument goes to an owned position, or a tail call of the function itself
passes a changed value. -/
def Retained (cx : Context) (use : Use) : Prop :=
  match use.way with
  | .returned | .stored | .captured | .called => True
  | .operand => use.part = false
  | .passed callee nargs index tail =>
    (cx.callArgBorrows callee nargs).getD index false = false ∨
      ((tail && cx.isSelfCall callee nargs) = true ∧
        ¬ (cx.params[index]? = some use.param ∧ use.part = false))

/-! ## The scan owns what is retained -/

/-- What a step of the analysis that names nothing may change. -/
structure Keeps (st st' : Analyzer) : Prop where
  /-- Nothing is disowned. -/
  owned : st.owned ⊆ st'.owned
  /-- The origins stay. -/
  origins : st'.origins = st.origins
  /-- The fields stay. -/
  field : st'.field = st.field

namespace Keeps

variable {st st' st'' : Analyzer}

/-- A state keeps its own. -/
theorem refl (st : Analyzer) : Keeps st st := ⟨Finset.Subset.refl _, rfl, rfl⟩

/-- One step after another. -/
theorem trans (first : Keeps st st') (second : Keeps st' st'') : Keeps st st'' :=
  ⟨first.owned.trans second.owned, second.origins.trans first.origins,
    second.field.trans first.field⟩

end Keeps

/-- Owning a parameter names nothing. -/
theorem keeps_own (st : Analyzer) (param : Option LocalId) : Keeps st (st.own param) := by
  cases param with
  | none => exact .refl _
  | some param => exact ⟨Finset.subset_insert _ _, rfl, rfl⟩

/-- Owning what an origin names. -/
theorem mem_own {st : Analyzer} {param : LocalId} : param ∈ (st.own (some param)).owned :=
  Finset.mem_insert_self _ _

/-- Reading a value names nothing. -/
theorem keeps_inspect (st : Analyzer) (e : CExpr) : Keeps st (st.inspect e) := by
  unfold Analyzer.inspect
  split
  · exact .refl _
  · exact keeps_own _ _

/-- Recording a match names nothing. -/
theorem keeps_recordMatch (st : Analyzer) (base : CExpr) : Keeps st (st.recordMatch base) := by
  unfold Analyzer.recordMatch
  split
  · exact ⟨Finset.Subset.refl _, rfl, rfl⟩
  · exact .refl _

/-- Passing an argument names nothing. -/
theorem keeps_passArg (cx : Context) (selfTail : Bool) (borrows : List Bool) (index : Nat)
    (arg : CExpr) (st : Analyzer) : Keeps st (cx.passArg selfTail borrows index arg st) := by
  unfold Context.passArg
  have owning : Keeps st
      (if (selfTail && !cx.unchanged st index arg) = true then
        st.own cx.params[index]? else st) := by
    split
    · exact keeps_own _ _
    · exact .refl _
  dsimp only
  split
  · exact owning.trans (keeps_own _ _)
  · exact owning

/-- What a primitive records before its operands names nothing. -/
theorem keeps_primEntry (op : Prim) (args : List CExpr) (st : Analyzer) :
    Keeps st ((match args with
      | array :: _ => if matchesArray op then st.recordMatch array else st
      | [] => st).rebuild (buildsArray op)) := by
  cases args with
  | nil => exact ⟨Finset.Subset.refl _, rfl, rfl⟩
  | cons array rest =>
    cases matchesArray op with
    | false => exact ⟨Finset.Subset.refl _, rfl, rfl⟩
    | true =>
      have recorded := keeps_recordMatch st array
      exact ⟨recorded.owned, recorded.origins, recorded.field⟩

/-- Captures name nothing. -/
theorem keeps_captures : ∀ (captures : List LocalId) (st : Analyzer),
    Keeps st (captures.foldl Analyzer.consumeLocal st)
  | [], _ => .refl _
  | slot :: rest, st => (keeps_own st (st.origins slot)).trans (keeps_captures rest _)

section Roots

variable {root : Sources}

/-- What the analysis has named agrees with what the slots name. -/
structure Known (root : Sources) (st : Analyzer) : Prop where
  /-- A slot with an origin names that parameter. -/
  origins : ∀ slot param, st.origins slot = some param → ∃ part, root slot = some (param, part)
  /-- A field that names a parameter names a part of it. -/
  field : ∀ slot ∈ st.field, ∀ param part, root slot = some (param, part) → part = true

namespace Known

variable {st st' : Analyzer}

/-- A value with an origin names that parameter. -/
theorem value (known : Known root st) : ∀ (e : CExpr) {param : LocalId},
    st.origin e = some param → ∃ part, source always root e = some (param, part)
  | .loc slot _, param, found => known.origins slot param found
  | .dataField base index scalar niche _, param, found => by
    obtain ⟨part, below⟩ := known.value base found
    exact ⟨true, by simp only [source, always, ↓reduceIte, below, Option.map_some]⟩
  | .lit _ _, _, found | .global _ _, _, found | .prim _ _ _, _, found
  | .foreign _ _ _ _, _, found | .app _ _ _ _ _, _, found | .ite _ _ _ _, _, found
  | .letIn _ _ _ _, _, found | .spread _ _, _, found | .letMany _ _ _ _, _, found
  | .makeClosure _ _ _ _, _, found | .makeData _ _ _ _ _ _, _, found
  | .dataTag _ _ _, _, found | .reset _ _ _ _, _, found | .freeReuse _ _ _, _, found
  | .dup _ _ _, _, found | .drop _ _ _, _, found | .join _ _ _, _, found
  | .recur _ _, _, found | .holeStart _ _ _, _, found | .holeFill _ _ _ _, _, found
  | .holeClose _ _ _, _, found | .error _, _, found => by cases found

/-- A step that names nothing. -/
theorem keeps (known : Known root st) (kept : Keeps st st') : Known root st' :=
  ⟨by rw [kept.origins]; exact known.origins, by rw [kept.field]; exact known.field⟩

end Known

/-- What a step of the analysis may change: it owns more, and names more slots as they are. -/
structure Grows (root : Sources) (st st' : Analyzer) : Prop where
  /-- Nothing is disowned. -/
  owned : st.owned ⊆ st'.owned
  /-- Origins stay. -/
  origins : ∀ slot param, st.origins slot = some param → st'.origins slot = some param
  /-- Fields stay. -/
  field : st.field ⊆ st'.field
  /-- The names are right. -/
  known : Known root st'

namespace Grows

variable {st st' st'' : Analyzer}

/-- One step after another. -/
theorem trans (first : Grows root st st') (second : Grows root st' st'') : Grows root st st'' :=
  ⟨first.owned.trans second.owned,
    fun slot param found => second.origins slot param (first.origins slot param found),
    first.field.trans second.field, second.known⟩

/-- A step that names nothing. -/
theorem of_keeps (known : Known root st) (kept : Keeps st st') : Grows root st st' :=
  ⟨kept.owned, by rw [kept.origins]; exact fun _ _ found => found,
    by rw [kept.field], known.keeps kept⟩

/-- No step. -/
theorem refl (known : Known root st) : Grows root st st := of_keeps known (.refl st)

end Grows

/-- Naming a value as its slot is named. -/
theorem grows_nameValue {st : Analyzer} (known : Known root st) {slot : LocalId} (value : CExpr)
    (same : named value = true → root slot = source always root value) :
    Grows root st (st.nameValue slot value) := by
  have naming (found : Option LocalId) (fields : Finset LocalId) (more : st.field ⊆ fields)
      (inside : ∀ name ∈ fields, name ∈ st.field ∨ name = slot ∧
        ∀ param part, root slot = some (param, part) → part = true)
      (right : ∀ param, found = some param → ∃ part, root slot = some (param, part)) :
      Grows root st { st with
        origins := fun name => if name = slot then found.or (st.origins slot) else st.origins name
        field := fields } := by
    refine ⟨Finset.Subset.refl _, fun name param before => ?_, more, fun name param after => ?_,
      fun name member param part isRoot => ?_⟩
    · dsimp only
      by_cases here : name = slot
      · rw [if_pos here, ← here, before]
        cases found with
        | none => rfl
        | some other =>
          obtain ⟨part, isOther⟩ := right other rfl
          obtain ⟨part', isParam⟩ := known.origins name param before
          rw [here, isOther, Option.some.injEq, Prod.mk.injEq] at isParam
          rw [Option.some_or, isParam.1]
      · rw [if_neg here]
        exact before
    · dsimp only at after
      by_cases here : name = slot
      · rw [if_pos here] at after
        rw [here]
        rcases Option.or_eq_some_iff.mp after with first | second
        · exact right param first
        · exact known.origins slot param second.2
      · rw [if_neg here] at after
        exact known.origins name param after
    · rcases inside name member with before | ⟨here, isPart⟩
      · exact known.field name before param part isRoot
      · exact isPart param part (here ▸ isRoot)
  cases value with
  | loc other ty =>
    have isRoot : root slot = root other := same rfl
    refine naming (st.origins other) _ ?_ (fun name member => ?_) fun param found => ?_
    · split
      · exact Finset.subset_insert _ _
      · exact Finset.Subset.refl _
    · split at member
      · rename_i isField
        rcases Finset.mem_insert.mp member with here | before
        · refine .inr ⟨here, fun param part found => known.field other isField param part ?_⟩
          rw [← isRoot, found]
        · exact .inl before
      · exact .inl member
    · rw [isRoot]
      exact known.origins other param found
  | dataField base index scalar niche ty =>
    have isRoot : root slot = source always root (.dataField base index scalar niche ty) := same rfl
    refine naming (st.origin base) _ (Finset.subset_insert slot st.field) (fun name member => ?_)
      fun param found => ?_
    · rcases Finset.mem_insert.mp member with here | before
      · refine .inr ⟨here, fun param part found => ?_⟩
        simp only [isRoot, source, always, ↓reduceIte, Option.map_eq_some_iff,
          Prod.mk.injEq] at found
        obtain ⟨_, _, _, isPart⟩ := found
        exact isPart.symm
      · exact .inl before
    · rw [isRoot]
      exact known.value (.dataField base index scalar niche ty) found
  | _ => exact .refl known

mutual

/-- A scan names slots as they are named. -/
theorem scan_grows (cx : Context) : ∀ (e : CExpr) (tail : Bool) (st : Analyzer),
    Uniform root (bindings e) → Known root st → Grows root st (scan cx e tail st)
  | .loc slot ty, tail, st, _, known => by
    unfold scan
    split
    · exact .of_keeps known (keeps_own _ _)
    · exact .refl known
  | .letIn slot value body ty, tail, st, uniform, known => by
    obtain ⟨same, inside⟩ := List.forall_mem_cons.mp uniform
    obtain ⟨inValue, inBody⟩ := List.forall_mem_append.mp inside
    have naming := grows_nameValue known value same
    have valued := scan_grows cx value false _ inValue naming.known
    exact (naming.trans valued).trans (scan_grows cx body tail _ inBody valued.known)
  | .letMany slots value body ty, tail, st, uniform, known => by
    obtain ⟨inValue, inBody⟩ := List.forall_mem_append.mp uniform
    have valued := scan_grows cx value false st inValue known
    exact valued.trans (scan_grows cx body tail _ inBody valued.known)
  | .ite cond yes no ty, tail, st, uniform, known => by
    obtain ⟨inCond, inside⟩ := List.forall_mem_append.mp uniform
    obtain ⟨inYes, inNo⟩ := List.forall_mem_append.mp inside
    have condition := scan_grows cx cond false st inCond known
    have first := scan_grows cx yes tail _ inYes condition.known
    exact (condition.trans first).trans (scan_grows cx no tail _ inNo first.known)
  | .spread components ty, tail, st, uniform, known =>
    scanArgs_grows cx _ (fun _ _ _ => keeps_own _ _) components 0 st uniform known
  | .prim op args ty, tail, st, uniform, known => by
    have before := Grows.of_keeps known (keeps_primEntry op args st)
    refine before.trans (scanArgs_grows cx _ (fun index arg st => ?_) args 0 _ uniform before.known)
    split
    · exact .refl _
    · exact keeps_inspect _ _
  | .foreign symbol args marshalled ty, tail, st, uniform, known =>
    scanArgs_grows cx _ (fun _ _ _ => keeps_inspect _ _) args 0 st uniform known
  | .makeData tag args reuse scalars niche ty, tail, st, uniform, known => by
    have kept : Keeps st (st.rebuild (!args.isEmpty && niche.isNone)) :=
      ⟨Finset.Subset.refl _, rfl, rfl⟩
    have before := Grows.of_keeps known kept
    exact before.trans
      (scanArgs_grows cx _ (fun _ _ _ => keeps_own _ _) args 0 _ uniform before.known)
  | .makeClosure func captures alloc ty, tail, st, _, known =>
    .of_keeps known (keeps_captures captures st)
  | .app func args reuse alloc ty, tail, st, uniform, known => by
    obtain ⟨inFunc, inArgs⟩ := List.forall_mem_append.mp uniform
    have scanned := scan_grows cx func false st inFunc known
    have callee := Grows.of_keeps scanned.known
      (keeps_own (scan cx func false st) ((scan cx func false st).origin func))
    exact (scanned.trans callee).trans
      (scanArgs_grows cx _ (keeps_passArg cx _ _) args 0 _ inArgs callee.known)
  | .dataTag base niche ty, tail, st, uniform, known => by
    have before := Grows.of_keeps known (keeps_recordMatch st base)
    exact before.trans (scan_grows cx base false _ uniform before.known)
  | .dataField base index scalar niche ty, tail, st, uniform, known => by
    have before := Grows.of_keeps known (keeps_recordMatch st base)
    exact before.trans (scan_grows cx base false _ uniform before.known)
  | .lit _ _, _, st, _, known | .global _ _, _, st, _, known | .error _, _, st, _, known
  | .reset _ _ _ _, _, st, _, known | .freeReuse _ _ _, _, st, _, known
  | .dup _ _ _, _, st, _, known | .drop _ _ _, _, st, _, known | .join _ _ _, _, st, _, known
  | .recur _ _, _, st, _, known | .holeStart _ _ _, _, st, _, known
  | .holeFill _ _ _ _, _, st, _, known | .holeClose _ _ _, _, st, _, known => .refl known

/-- A scan of operands names slots as they are named. -/
theorem scanArgs_grows (cx : Context) (act : Nat → CExpr → Analyzer → Analyzer)
    (acts : ∀ index arg st, Keeps st (act index arg st)) :
    ∀ (args : List CExpr) (index : Nat) (st : Analyzer), Uniform root (bindingsList args) →
      Known root st → Grows root st (scanArgs cx act args index st)
  | [], _, st, _, known => .refl known
  | arg :: rest, index, st, uniform, known => by
    obtain ⟨inArg, inRest⟩ := List.forall_mem_append.mp uniform
    have scanned := scan_grows cx arg false st inArg known
    have acted := Grows.of_keeps scanned.known (acts index arg (scan cx arg false st))
    exact (scanned.trans acted).trans
      (scanArgs_grows cx act acts rest (index + 1) _ inRest acted.known)

end

/-- The analysis knows the sources of slots. -/
structure Tracks (root sources : Sources) (st : Analyzer) : Prop where
  /-- The names are right. -/
  known : Known root st
  /-- A source is what the slot names, and has been recorded. -/
  slots : ∀ slot param part, sources slot = some (param, part) →
    root slot = some (param, part) ∧ st.origins slot = some param ∧ (part = true → slot ∈ st.field)

namespace Tracks

variable {sources : Sources} {st st' : Analyzer}

/-- The analysis knows the sources of values. -/
theorem value (tracks : Tracks root sources st) : ∀ (e : CExpr) {param : LocalId} {part : Bool},
    source always sources e = some (param, part) → source always root e = some (param, part) ∧
      st.origin e = some param ∧ (part = true ↔ st.isField e = true)
  | .loc slot _, param, part, found => by
    obtain ⟨isRoot, origin, isPart⟩ := tracks.slots slot param part found
    refine ⟨isRoot, origin, fun set => decide_eq_true (isPart set), fun isField => ?_⟩
    exact tracks.known.field slot (of_decide_eq_true isField) param part isRoot
  | .dataField base index scalar niche _, param, part, found => by
    simp only [source, always, ↓reduceIte, Option.map_eq_some_iff, Prod.mk.injEq] at found
    obtain ⟨⟨param', part'⟩, below, rfl, rfl⟩ := found
    obtain ⟨isRoot, origin, _⟩ := tracks.value base below
    refine ⟨?_, origin, fun _ => rfl, fun _ => rfl⟩
    simp only [source, always, ↓reduceIte, isRoot, Option.map_some]
  | .lit _ _, _, _, found | .global _ _, _, _, found | .prim _ _ _, _, _, found
  | .foreign _ _ _ _, _, _, found | .app _ _ _ _ _, _, _, found | .ite _ _ _ _, _, _, found
  | .letIn _ _ _ _, _, _, found | .spread _ _, _, _, found | .letMany _ _ _ _, _, _, found
  | .makeClosure _ _ _ _, _, _, found | .makeData _ _ _ _ _ _, _, _, found
  | .dataTag _ _ _, _, _, found | .reset _ _ _ _, _, _, found | .freeReuse _ _ _, _, _, found
  | .dup _ _ _, _, _, found | .drop _ _ _, _, _, found | .join _ _ _, _, _, found
  | .recur _ _, _, _, found | .holeStart _ _ _, _, _, found | .holeFill _ _ _ _, _, _, found
  | .holeClose _ _ _, _, _, found | .error _, _, _, found => by cases found

/-- A step of the analysis. -/
theorem grows (tracks : Tracks root sources st) (grown : Grows root st st') :
    Tracks root sources st' := by
  refine ⟨grown.known, fun slot param part found => ?_⟩
  obtain ⟨isRoot, origin, isPart⟩ := tracks.slots slot param part found
  exact ⟨isRoot, grown.origins slot param origin, fun set => grown.field (isPart set)⟩

/-- A step that names nothing. -/
theorem keeps (tracks : Tracks root sources st) (kept : Keeps st st') : Tracks root sources st' :=
  tracks.grows (.of_keeps tracks.known kept)

/-- Naming a value gives the slot its source. -/
theorem name {slot : LocalId} (value : CExpr) (tracks : Tracks root sources st)
    (same : named value = true → root slot = source always root value) :
    Tracks root (Function.update sources slot (source always sources value))
      (st.nameValue slot value) := by
  have grown := grows_nameValue tracks.known value same
  refine ⟨grown.known, fun name param part found => ?_⟩
  by_cases here : name = slot
  · subst here
    rw [Function.update_self] at found
    obtain ⟨isRoot, origin, isField⟩ := tracks.value value found
    cases value with
    | loc other ty =>
      refine ⟨(same rfl).trans isRoot, ?_, fun set => ?_⟩
      · simp only [Analyzer.origin] at origin
        simp only [Analyzer.nameValue, ↓reduceIte, origin, Option.some_or]
      · have before : other ∈ st.field := of_decide_eq_true (isField.mp set)
        simp only [Analyzer.nameValue, if_pos before]
        exact Finset.mem_insert_self _ _
    | dataField base index scalar niche ty =>
      refine ⟨(same rfl).trans isRoot, ?_, fun _ => Finset.mem_insert_self _ _⟩
      simp only [Analyzer.origin] at origin
      simp only [Analyzer.nameValue, ↓reduceIte, origin, Option.some_or]
    | _ => cases found
  · rw [Function.update_of_ne here] at found
    exact (tracks.grows grown).slots name param part found

/-- Slots that a multiple binding names have no source. -/
theorem without (tracks : Tracks root sources st) (slots : List LocalId) :
    Tracks root (fun name => if name ∈ slots then none else sources name) st := by
  refine ⟨tracks.known, fun slot param part found => ?_⟩
  split at found
  · cases found
  · exact tracks.slots slot param part found

end Tracks

/-- A noted use names the source. -/
theorem mem_note {use : Use} {way : Way} {found : Option (LocalId × Bool)}
    (member : use ∈ note way found) : use.way = way ∧ found = some (use.param, use.part) := by
  cases found with
  | none => cases member
  | some pair =>
    cases List.mem_singleton.mp member
    exact ⟨rfl, rfl⟩

/-- What an operation does with an argument owns the parameters of retained arguments. -/
def OwnsRetained (root : Sources) (cx : Context) (way : Nat → Option Way)
    (act : Nat → CExpr → Analyzer → Analyzer) : Prop :=
  ∀ index arg st sources, Tracks root sources st → ∀ use : Use, way index = some use.way →
    source always sources arg = some (use.param, use.part) → Retained cx use →
      use.param ∈ (act index arg st).owned

/-- Consuming owns every parameter. -/
theorem ownsRetained_consume (cx : Context) (way : Nat → Option Way) :
    OwnsRetained root cx way fun _ arg st => st.consume arg := by
  intro index arg st sources tracks use _ found _
  show use.param ∈ (st.own (st.origin arg)).owned
  rw [(tracks.value arg found).2.1]
  exact mem_own

/-- Inspecting owns whole parameters. -/
theorem inspect_owns {cx : Context} {st : Analyzer} {sources : Sources} {arg : CExpr} {use : Use}
    (tracks : Tracks root sources st) (operand : use.way = .operand)
    (found : source always sources arg = some (use.param, use.part)) (retained : Retained cx use) :
    use.param ∈ (st.inspect arg).owned := by
  obtain ⟨_, origin, isField⟩ := tracks.value arg found
  have whole : st.isField arg = false := by
    simp only [Retained, operand] at retained
    rw [retained] at isField
    simpa using isField
  unfold Analyzer.inspect Analyzer.consume
  rw [whole, origin]
  exact mem_own

/-- Passing an argument owns the parameters it retains. -/
theorem ownsRetained_passArg (cx : Context) (callee : Option DefId) (nargs : Nat) (tail : Bool) :
    OwnsRetained root cx (fun index => some (.passed callee nargs index tail))
      (cx.passArg (tail && cx.isSelfCall callee nargs) (cx.callArgBorrows callee nargs)) := by
  intro index arg st sources tracks use isWay found retained
  obtain ⟨_, origin, isField⟩ := tracks.value arg found
  have way : use.way = .passed callee nargs index tail := (Option.some.inj isWay).symm
  simp only [Retained, way] at retained
  have consumed : ((tail && cx.isSelfCall callee nargs) && !cx.unchanged st index arg ||
      !(cx.callArgBorrows callee nargs).getD index false) = true := by
    rcases retained with owned | ⟨selfTail, changed⟩
    · simp only [owned, Bool.not_false, Bool.or_true]
    · have differs : cx.unchanged st index arg = false := by
        unfold Context.unchanged
        rw [origin]
        split
        · rename_i param isParam
          by_contra same
          simp only [Bool.not_eq_false, Bool.and_eq_true, decide_eq_true_eq, Option.some.injEq,
            Bool.not_eq_true'] at same
          obtain ⟨rfl, whole⟩ := same
          rw [whole] at isField
          exact changed ⟨isParam, by simpa using isField⟩
        · rfl
      simp only [selfTail, differs, Bool.not_false, Bool.and_self, Bool.true_or]
  unfold Context.passArg
  dsimp only
  rw [if_pos consumed]
  have kept : Tracks root sources (if ((tail && cx.isSelfCall callee nargs) &&
      !cx.unchanged st index arg) = true then st.own cx.params[index]? else st) := by
    split
    · exact tracks.keeps (keeps_own st cx.params[index]?)
    · exact tracks
  exact ownsRetained_consume cx (fun index => some (.passed callee nargs index tail)) index arg _ _
    kept use isWay found (by simpa only [Retained, way] using retained)

/-- Captures own their parameters. -/
theorem captures_owned {sources : Sources} : ∀ (captures : List LocalId) (st : Analyzer),
    Tracks root sources st →
      ∀ use ∈ captures.flatMap fun slot => note .captured (sources slot),
        use.param ∈ (captures.foldl Analyzer.consumeLocal st).owned
  | [], _, _, _, member => by cases member
  | slot :: rest, st, tracks, use, member => by
    rw [List.flatMap_cons] at member
    rcases List.mem_append.mp member with first | later
    · have found := (mem_note first).2
      apply (keeps_captures rest _).owned
      show use.param ∈ (st.own (st.origins slot)).owned
      rw [(tracks.slots slot _ _ found).2.1]
      exact mem_own
    · exact captures_owned rest _ (tracks.keeps (keeps_own st (st.origins slot))) use later

mutual

/-- The scan owns every parameter with a retaining use. -/
theorem uses_owned (cx : Context) : ∀ (e : CExpr) (sources : Sources) (tail : Bool)
    (st : Analyzer), Uniform root (bindings e) → Tracks root sources st →
      ∀ use ∈ uses always e sources tail, Retained cx use →
        use.param ∈ (scan cx e tail st).owned
  | .loc slot ty, sources, tail, st, _, tracks, use, member, _ => by
    unfold uses at member
    unfold scan
    split at member
    · rename_i isTail
      rw [if_pos isTail]
      have found := (mem_note member).2
      unfold Analyzer.consume Analyzer.origin
      rw [(tracks.slots slot _ _ found).2.1]
      exact mem_own
    · cases member
  | .letIn slot value body ty, sources, tail, st, uniform, tracks, use, member, retained => by
    obtain ⟨same, inside⟩ := List.forall_mem_cons.mp uniform
    obtain ⟨inValue, inBody⟩ := List.forall_mem_append.mp inside
    have naming := grows_nameValue tracks.known value same
    have valued := scan_grows cx value false _ inValue naming.known
    rcases List.mem_append.mp member with ofValue | ofBody
    · have owned := uses_owned cx value sources false _ inValue (tracks.grows naming) use ofValue
        retained
      exact (scan_grows cx body tail _ inBody valued.known).owned owned
    · have bodyTracks := (tracks.name value same).grows valued
      exact uses_owned cx body _ tail _ inBody bodyTracks use ofBody retained
  | .letMany slots value body ty, sources, tail, st, uniform, tracks, use, member, retained => by
    obtain ⟨inValue, inBody⟩ := List.forall_mem_append.mp uniform
    have valued := scan_grows cx value false st inValue tracks.known
    rcases List.mem_append.mp member with ofValue | ofBody
    · have owned := uses_owned cx value sources false st inValue tracks use ofValue retained
      exact (scan_grows cx body tail _ inBody valued.known).owned owned
    · have bodyTracks := (tracks.without slots).grows valued
      exact uses_owned cx body _ tail _ inBody bodyTracks use ofBody retained
  | .ite cond yes no ty, sources, tail, st, uniform, tracks, use, member, retained => by
    obtain ⟨inCond, inside⟩ := List.forall_mem_append.mp uniform
    obtain ⟨inYes, inNo⟩ := List.forall_mem_append.mp inside
    have afterCond := scan_grows cx cond false st inCond tracks.known
    have afterYes := scan_grows cx yes tail _ inYes afterCond.known
    have afterNo := scan_grows cx no tail _ inNo afterYes.known
    rcases List.mem_append.mp member with ofFirst | ofNo
    · rcases List.mem_append.mp ofFirst with ofCond | ofYes
      · have owned := uses_owned cx cond sources false st inCond tracks use ofCond retained
        exact afterNo.owned (afterYes.owned owned)
      · have owned := uses_owned cx yes sources tail _ inYes (tracks.grows afterCond) use ofYes
          retained
        exact afterNo.owned owned
    · exact uses_owned cx no sources tail _ inNo (tracks.grows (afterCond.trans afterYes)) use ofNo
        retained
  | .spread components ty, sources, tail, st, uniform, tracks, use, member, retained =>
    usesArgs_owned cx _ _ (fun _ _ _ => keeps_own _ _) (ownsRetained_consume cx _) components 0
      sources st uniform tracks use member retained
  | .prim op args ty, sources, tail, st, uniform, tracks, use, member, retained => by
    refine usesArgs_owned cx _ _ (fun index arg st => ?_) ?_ args 0 sources _ uniform
      (tracks.keeps (keeps_primEntry op args st)) use member retained
    · split
      · exact .refl _
      · exact keeps_inspect _ _
    · intro index arg st sources tracks use isWay found retained
      dsimp only at isWay ⊢
      split at isWay
      · cases isWay
      · rename_i takes
        rw [if_neg takes]
        exact inspect_owns tracks (Option.some.inj isWay).symm found retained
  | .foreign symbol args marshalled ty, sources, tail, st, uniform, tracks, use, member,
      retained => by
    refine usesArgs_owned cx _ _ (fun _ _ _ => keeps_inspect _ _) ?_ args 0 sources st uniform
      tracks use member retained
    intro index arg st sources tracks use isWay found retained
    exact inspect_owns tracks (Option.some.inj isWay).symm found retained
  | .makeData tag args reuse scalars niche ty, sources, tail, st, uniform, tracks, use, member,
      retained => by
    have kept : Keeps st (st.rebuild (!args.isEmpty && niche.isNone)) :=
      ⟨Finset.Subset.refl _, rfl, rfl⟩
    exact usesArgs_owned cx _ (fun _ arg st => st.consume arg) (fun _ _ _ => keeps_own _ _)
      (ownsRetained_consume cx _) args 0 sources _ uniform (tracks.keeps kept) use member retained
  | .makeClosure func captures alloc ty, sources, tail, st, _, tracks, use, member, _ =>
    captures_owned captures st tracks use member
  | .app func args reuse alloc ty, sources, tail, st, uniform, tracks, use, member, retained => by
    obtain ⟨inFunc, inArgs⟩ := List.forall_mem_append.mp uniform
    have scanned := scan_grows cx func false st inFunc tracks.known
    have consumed := Grows.of_keeps scanned.known
      (keeps_own (scan cx func false st) ((scan cx func false st).origin func))
    have passes := scanArgs_grows cx _ (keeps_passArg cx
      (tail && cx.isSelfCall (target func) args.length)
      (cx.callArgBorrows (target func) args.length)) args 0 _ inArgs consumed.known
    rcases List.mem_append.mp member with ofFirst | ofArgs
    · rcases List.mem_append.mp ofFirst with ofFunc | isCalled
      · have owned := uses_owned cx func sources false st inFunc tracks use ofFunc retained
        exact passes.owned (consumed.owned owned)
      · have found := (mem_note isCalled).2
        have owned : use.param ∈ ((scan cx func false st).consume func).owned := by
          unfold Analyzer.consume
          rw [((tracks.grows scanned).value func found).2.1]
          exact mem_own
        exact passes.owned owned
    · exact usesArgs_owned cx _ _ (keeps_passArg cx _ _)
        (ownsRetained_passArg cx (target func) args.length tail) args 0 sources _ inArgs
        (tracks.grows (scanned.trans consumed)) use ofArgs retained
  | .dataTag base niche ty, sources, tail, st, uniform, tracks, use, member, retained =>
    uses_owned cx base sources false _ uniform (tracks.keeps (keeps_recordMatch st base)) use member
      retained
  | .dataField base index scalar niche ty, sources, tail, st, uniform, tracks, use, member,
      retained =>
    uses_owned cx base sources false _ uniform (tracks.keeps (keeps_recordMatch st base)) use member
      retained
  | .lit _ _, _, _, _, _, _, _, member, _ | .global _ _, _, _, _, _, _, _, member, _
  | .error _, _, _, _, _, _, _, member, _ | .reset _ _ _ _, _, _, _, _, _, _, member, _
  | .freeReuse _ _ _, _, _, _, _, _, _, member, _ | .dup _ _ _, _, _, _, _, _, _, member, _
  | .drop _ _ _, _, _, _, _, _, _, member, _ | .join _ _ _, _, _, _, _, _, _, member, _
  | .recur _ _, _, _, _, _, _, _, member, _ | .holeStart _ _ _, _, _, _, _, _, _, member, _
  | .holeFill _ _ _ _, _, _, _, _, _, _, member, _
  | .holeClose _ _ _, _, _, _, _, _, _, member, _ => by cases member

/-- The scan of operands owns every parameter with a retaining use. -/
theorem usesArgs_owned (cx : Context) (way : Nat → Option Way)
    (act : Nat → CExpr → Analyzer → Analyzer)
    (acts : ∀ index arg st, Keeps st (act index arg st)) (owns : OwnsRetained root cx way act) :
    ∀ (args : List CExpr) (index : Nat) (sources : Sources) (st : Analyzer),
      Uniform root (bindingsList args) → Tracks root sources st →
        ∀ use ∈ usesArgs always way args index sources, Retained cx use →
          use.param ∈ (scanArgs cx act args index st).owned
  | [], _, _, _, _, _, _, member, _ => by cases member
  | arg :: rest, index, sources, st, uniform, tracks, use, member, retained => by
    obtain ⟨inArg, inRest⟩ := List.forall_mem_append.mp uniform
    have scanned := scan_grows cx arg false st inArg tracks.known
    have acted := Grows.of_keeps scanned.known (acts index arg (scan cx arg false st))
    have others := scanArgs_grows cx act acts rest (index + 1) _ inRest acted.known
    rcases List.mem_append.mp member with ofFirst | ofRest
    · rcases List.mem_append.mp ofFirst with ofArg | asOperand
      · have owned := uses_owned cx arg sources false st inArg tracks use ofArg retained
        exact others.owned (acted.owned owned)
      · cases isWay : way index with
        | none =>
          rw [isWay] at asOperand
          cases asOperand
        | some found =>
          rw [isWay] at asOperand
          obtain ⟨rfl, isSource⟩ := mem_note asOperand
          exact others.owned
            (owns index arg _ sources (tracks.grows scanned) use isWay isSource retained)
    · exact usesArgs_owned cx way act acts owns rest (index + 1) sources _ inRest
        (tracks.grows (scanned.trans acted)) use ofRest retained

end

end Roots

/-! ## Scans of scalar lists -/

/-- Only the tail of a list is followed. -/
def tails : Follow := fun index scalar niche =>
  match index, scalar, niche with
  | .const 1, false, none => true
  | _, _, _ => false

/-- Everything with a source is a cursor. -/
def Covered (sources : Sources) (st : Scan) : Prop :=
  ∀ slot, (sources slot).isSome = true → slot ∈ st.cursors

section Walk

variable {selfDef : DefId} {position arity : Nat} {sources : Sources}

/-- A value with a source is a cursor. -/
theorem Covered.cursor {st : Scan} (covered : Covered sources st) : ∀ e : CExpr,
    (source tails sources e).isSome = true → st.cursor e = true
  | .loc slot _, found => by
    simpa [Scan.cursor] using covered slot found
  | .dataField base index scalar niche _, found => by
    unfold source at found
    split at found
    · rename_i follows
      rw [Option.isSome_map] at found
      have below := covered.cursor base found
      unfold tails at follows
      split at follows
      · exact below
      · cases follows
    · cases found
  | .lit _ _, found | .global _ _, found | .prim _ _ _, found | .foreign _ _ _ _, found
  | .app _ _ _ _ _, found | .ite _ _ _ _, found | .letIn _ _ _ _, found | .spread _ _, found
  | .letMany _ _ _ _, found | .makeClosure _ _ _ _, found | .makeData _ _ _ _ _ _, found
  | .dataTag _ _ _, found | .reset _ _ _ _, found | .freeReuse _ _ _, found | .dup _ _ _, found
  | .drop _ _ _, found | .join _ _ _, found | .recur _ _, found | .holeStart _ _ _, found
  | .holeFill _ _ _ _, found | .holeClose _ _ _, found | .error _, found => by cases found

/-- A cursor is a chain of tails, which uses nothing. -/
theorem uses_cursor {st : Scan} : ∀ e : CExpr, st.cursor e = true → uses tails e sources false = []
  | .loc _ _, _ => rfl
  | .dataField base index scalar niche _, isCursor => by
    unfold Scan.cursor at isCursor
    split at isCursor
    · rename_i same
      cases same
    · rename_i same
      cases same
      exact uses_cursor base isCursor
    · cases isCursor
  | .lit _ _, isCursor | .global _ _, isCursor | .prim _ _ _, isCursor | .foreign _ _ _ _, isCursor
  | .app _ _ _ _ _, isCursor | .ite _ _ _ _, isCursor | .letIn _ _ _ _, isCursor
  | .spread _ _, isCursor | .letMany _ _ _ _, isCursor | .makeClosure _ _ _ _, isCursor
  | .makeData _ _ _ _ _ _, isCursor | .dataTag _ _ _, isCursor | .reset _ _ _ _, isCursor
  | .freeReuse _ _ _, isCursor | .dup _ _ _, isCursor | .drop _ _ _, isCursor
  | .join _ _ _, isCursor | .recur _ _, isCursor | .holeStart _ _ _, isCursor
  | .holeFill _ _ _ _, isCursor | .holeClose _ _ _, isCursor | .error _, isCursor => by
    cases isCursor

/-- What a scan does with the root and its tails: it passes them on in the tail call of the function
itself, at the root's position. -/
def carriedOn (selfDef : DefId) (position arity : Nat) : Way :=
  .passed (some selfDef) arity position true

/-- A walk forgets no cursor, and it found no use of the root but the tail call. -/
structure Walked (selfDef : DefId) (position arity : Nat) (e : CExpr) (tail cursor : Bool)
    (st st' : Scan) : Prop where
  /-- Cursors stay. -/
  cursors : st.cursors ⊆ st'.cursors
  /-- The root and its tails are only carried on, from tail position. -/
  uses : ∀ sources, Covered sources st → (tail = true → cursor = false) →
    ∀ use ∈ uses tails e sources tail, tail = true ∧ use.way = carriedOn selfDef position arity
  /-- Without leave to be a cursor, the value is none. -/
  apart : ∀ sources, Covered sources st → cursor = false → tail = false →
    source tails sources e = none

/-- Covered sources stay covered. -/
theorem Covered.mono {st st' : Scan} (covered : Covered sources st)
    (more : st.cursors ⊆ st'.cursors) : Covered sources st' :=
  fun slot found => more (covered slot found)

mutual

/-- What a successful walk says about an expression. -/
theorem walk_walked : ∀ (e : CExpr) (tail cursor : Bool) (st st' : Scan),
    walk selfDef position arity e tail cursor st = some st' →
      Walked selfDef position arity e tail cursor st st'
  | .loc slot ty, tail, cursor, st, st', walked => by
    unfold walk at walked
    simp only [Option.ite_none_left_eq_some, Option.ite_none_right_eq_some, Bool.or_eq_true,
      decide_eq_true_eq, Option.some.injEq] at walked
    obtain ⟨_, free, rfl⟩ := walked
    have noSource : ∀ sources, Covered sources st → cursor = false → sources slot = none := by
      intro sources covered noCursor
      by_contra found
      rw [← ne_eq, Option.ne_none_iff_isSome] at found
      rcases free with isCursor | outside
      · rw [noCursor] at isCursor
        cases isCursor
      · exact outside (covered slot found)
    refine ⟨Finset.Subset.refl _, fun sources covered noCursor use member => ?_,
      fun sources covered noCursor _ => noSource sources covered noCursor⟩
    unfold Borrow.uses at member
    split at member
    · rename_i isTail
      rw [noSource sources covered (noCursor isTail)] at member
      cases member
    · cases member
  | .lit value ty, tail, cursor, st, st', walked => by
    unfold walk at walked
    simp only [Option.ite_none_left_eq_some, Option.ite_none_right_eq_some,
      Option.some.injEq] at walked
    obtain ⟨_, _, rfl⟩ := walked
    exact ⟨Finset.Subset.refl _, fun _ _ _ _ member => absurd member List.not_mem_nil,
      fun _ _ _ _ => rfl⟩
  | .error ty, tail, cursor, st, st', walked => by
    unfold walk at walked
    simp only [Option.ite_none_left_eq_some, Option.some.injEq] at walked
    obtain ⟨_, rfl⟩ := walked
    exact ⟨Finset.Subset.refl _, fun _ _ _ _ member => absurd member List.not_mem_nil,
      fun _ _ _ _ => rfl⟩
  | .letIn slot value body ty, tail, cursor, st, st', walked => by
    unfold walk at walked
    simp only [Option.ite_none_left_eq_some, Option.bind_eq_some_iff] at walked
    obtain ⟨_, middle, first, second⟩ := walked
    have valued := walk_walked value false _ _ middle first
    have bodied := walk_walked body tail cursor _ st' second
    have grown : middle.cursors ⊆ (if ({ st with budget := st.budget - 1 } : Scan).cursor value
        then { middle with cursors := insert slot middle.cursors } else middle).cursors := by
      split
      · exact Finset.subset_insert _ _
      · exact Finset.Subset.refl _
    refine ⟨(valued.cursors.trans grown).trans bodied.cursors,
      fun sources covered noCursor use member => ?_, fun _ _ _ _ => rfl⟩
    unfold Borrow.uses at member
    rcases List.mem_append.mp member with inValue | inBody
    · cases (valued.uses sources covered (by simp) use inValue).1
    · refine bodied.uses _ ?_ noCursor use inBody
      intro name found
      by_cases same : name = slot
      · subst same
        rw [Function.update_self] at found
        have lowered : Covered sources { st with budget := st.budget - 1 } := covered
        have isCursor := lowered.cursor value found
        rw [if_pos isCursor]
        exact Finset.mem_insert_self _ _
      · rw [Function.update_of_ne same] at found
        exact grown (valued.cursors (covered name found))
  | .ite cond yes no ty, tail, cursor, st, st', walked => by
    unfold walk at walked
    simp only [Option.ite_none_left_eq_some, Option.bind_eq_some_iff] at walked
    obtain ⟨_, afterCond, first, afterYes, second, third⟩ := walked
    have condWalked := walk_walked cond false false _ afterCond first
    have yesWalked := walk_walked yes tail cursor _ afterYes second
    have noWalked := walk_walked no tail cursor _ st' third
    refine ⟨(condWalked.cursors.trans yesWalked.cursors).trans noWalked.cursors,
      fun sources covered noCursor use member => ?_, fun _ _ _ _ => rfl⟩
    have covered' : Covered sources afterCond := covered.mono condWalked.cursors
    unfold Borrow.uses at member
    rcases List.mem_append.mp member with inFirst | inNo
    · rcases List.mem_append.mp inFirst with inCond | inYes
      · cases (condWalked.uses sources covered (by simp) use inCond).1
      · exact yesWalked.uses sources covered' noCursor use inYes
    · exact noWalked.uses sources (covered'.mono yesWalked.cursors) noCursor use inNo
  | .dataTag base niche ty, tail, cursor, st, st', walked => by
    cases niche with
    | some kind => simp [walk] at walked
    | none =>
      unfold walk at walked
      simp only [Option.ite_none_left_eq_some, Option.ite_none_right_eq_some,
        Option.some.injEq] at walked
      obtain ⟨_, isCursor, rfl⟩ := walked
      refine ⟨Finset.Subset.refl _, fun sources covered _ use member => ?_, fun _ _ _ _ => rfl⟩
      unfold Borrow.uses at member
      rw [uses_cursor base isCursor] at member
      cases member
  | .dataField base (.const index) isScalar none ty, tail, cursor, st, st', walked => by
    unfold walk at walked
    simp only [Option.ite_none_left_eq_some, Option.ite_none_right_eq_some, Option.some.injEq,
      Bool.and_eq_true, Bool.or_eq_true, beq_iff_eq] at walked
    obtain ⟨_, ⟨isCursor, allowed⟩, rfl⟩ := walked
    refine ⟨Finset.Subset.refl _, fun sources covered _ use member => ?_,
      fun sources covered noCursor _ => ?_⟩
    · unfold Borrow.uses at member
      rw [uses_cursor base isCursor] at member
      cases member
    · have skipped : tails (.const index) isScalar none = false := by
        rcases allowed with ⟨rfl, _⟩ | ⟨_, leave⟩
        · rfl
        · rw [noCursor] at leave
          cases leave
      unfold source
      rw [skipped]
      rfl
  | .dataField base (.const index) isScalar (some kind) ty, tail, cursor, st, st', walked => by
    simp [walk] at walked
  | .dataField base (.dyn start evidence) isScalar niche ty, tail, cursor, st, st', walked => by
    simp [walk] at walked
  | .prim op args ty, tail, cursor, st, st', walked => by
    unfold walk at walked
    simp only [Option.ite_none_left_eq_some, Option.ite_none_right_eq_some] at walked
    obtain ⟨_, _, walked⟩ := walked
    obtain ⟨cursors, nothing⟩ := walkArgs_walked args none 0 _ st' walked
    refine ⟨cursors, fun sources covered _ use member => ?_, fun _ _ _ _ => rfl⟩
    obtain ⟨index, isCarried, _⟩ := nothing sources _ covered use member
    cases isCarried
  | .app func args reuse alloc ty, tail, cursor, st, st', walked => by
    cases func with
    | global callee calleeTy =>
      unfold walk at walked
      simp only [Option.ite_none_left_eq_some, Option.ite_none_right_eq_some, Bool.and_eq_true,
        decide_eq_true_eq, beq_iff_eq] at walked
      obtain ⟨_, ⟨⟨⟨isTail, saturated⟩, _⟩, isSelf⟩, walked⟩ := walked
      obtain ⟨cursors, carried⟩ := walkArgs_walked args (some position) 0 _ st' walked
      refine ⟨cursors, fun sources covered _ use member => ?_, fun _ _ _ _ => rfl⟩
      obtain ⟨index, isCarried, isWay⟩ := carried sources _ covered use member
      cases isCarried
      rw [carriedOn, ← isSelf, ← saturated]
      simp only [target, isTail] at isWay
      exact ⟨isTail, (Option.some.inj isWay).symm⟩
    | _ => simp [walk] at walked
  | .global _ _, _, _, _, _, walked | .foreign _ _ _ _, _, _, _, _, walked
  | .spread _ _, _, _, _, _, walked | .letMany _ _ _ _, _, _, _, _, walked
  | .makeClosure _ _ _ _, _, _, _, _, walked | .makeData _ _ _ _ _ _, _, _, _, _, walked
  | .reset _ _ _ _, _, _, _, _, walked | .freeReuse _ _ _, _, _, _, _, walked
  | .dup _ _ _, _, _, _, _, walked | .drop _ _ _, _, _, _, _, walked
  | .join _ _ _, _, _, _, _, walked | .recur _ _, _, _, _, _, walked
  | .holeStart _ _ _, _, _, _, _, walked | .holeFill _ _ _ _, _, _, _, _, walked
  | .holeClose _ _ _, _, _, _, _, walked => by simp [walk] at walked

/-- What a successful walk says about operands: only the one at the carried position is used. -/
theorem walkArgs_walked : ∀ (args : List CExpr) (carried : Option Nat) (index : Nat)
    (st st' : Scan), walkArgs selfDef position arity carried args index st = some st' →
      st.cursors ⊆ st'.cursors ∧ ∀ (sources : Sources) (way : Nat → Option Way),
        Covered sources st → ∀ use ∈ usesArgs tails way args index sources,
          ∃ at', carried = some at' ∧ way at' = some use.way
  | [], _, _, _, _, walked => by
    cases walked
    exact ⟨Finset.Subset.refl _, fun _ _ _ _ member => by cases member⟩
  | arg :: rest, carried, index, st, st', walked => by
    unfold walkArgs at walked
    split at walked
    · rename_i isCarried
      simp only [Option.ite_none_right_eq_some, Option.bind_eq_some_iff] at walked
      obtain ⟨isCursor, middle, first, others⟩ := walked
      have argWalked := walk_walked arg false true st middle first
      obtain ⟨more, restUses⟩ := walkArgs_walked rest carried (index + 1) middle st' others
      refine ⟨argWalked.cursors.trans more, fun sources way covered use member => ?_⟩
      unfold usesArgs at member
      rw [uses_cursor arg isCursor, List.nil_append] at member
      rcases List.mem_append.mp member with here | later
      · cases isWay : way index with
        | none =>
          rw [isWay] at here
          cases here
        | some found =>
          rw [isWay] at here
          exact ⟨index, isCarried, by rw [isWay, (mem_note here).1]⟩
      · exact restUses sources way (covered.mono argWalked.cursors) use later
    · simp only [Option.bind_eq_some_iff] at walked
      obtain ⟨middle, first, others⟩ := walked
      have argWalked := walk_walked arg false false st middle first
      obtain ⟨more, restUses⟩ := walkArgs_walked rest carried (index + 1) middle st' others
      refine ⟨argWalked.cursors.trans more, fun sources way covered use member => ?_⟩
      unfold usesArgs at member
      rw [argWalked.apart sources covered rfl rfl] at member
      rcases List.mem_append.mp member with first | later
      · rcases List.mem_append.mp first with inArg | here
        · cases (argWalked.uses sources covered (by simp) use inArg).1
        · cases isWay : way index with
          | none =>
            rw [isWay] at here
            cases here
          | some found =>
            rw [isWay] at here
            cases here
      · exact restUses sources way (covered.mono argWalked.cursors) use later

end

/-- A successful plan: the root and the list tails reached from it are only carried on in the tail
call of the function itself, at the root's own position. -/
theorem plan_uses {selfDef : DefId} {scheme : Option Ty} {entry : CoreFn} {found : Plan}
    (planned : plan selfDef scheme entry = some found) :
    ∀ use ∈ uses tails entry.body (Function.update (fun _ => none) found.root
        (some (found.root, false))) true,
      use.way = carriedOn selfDef (entry.params.idxOf found.root) entry.params.length := by
  simp only [plan, Option.ite_none_right_eq_some, Option.bind_eq_some_iff,
    Option.some.injEq] at planned
  obtain ⟨_, root, _, last, walked, _, rfl⟩ := planned
  have facts := walk_walked entry.body true false _ last walked
  intro use member
  refine (facts.uses _ (fun slot isRoot => ?_) (fun _ => rfl) use member).2
  by_cases same : slot = root
  · rw [same]
    exact Finset.mem_singleton_self root
  · rw [Function.update_of_ne same] at isRoot
    cases isRoot

end Walk

end Borrow

end Fai
