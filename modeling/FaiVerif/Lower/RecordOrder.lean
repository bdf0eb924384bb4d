import FaiVerif.Lower.RecordMeaning
import Mathlib.Data.Char
import Mathlib.Data.Fin.VecNotation
import Mathlib.Data.List.Dedup

/-!
# When record construction has one meaning

An update run slot by slot over its result row and one run field by field over the base's slots do
the same in every machine exactly when the update lists its fields in strictly ascending label
order. A machine that logs which fields are evaluated tells the two apart in every other case.
-/

namespace Fai.Lower

open Fai.Slots

section Temps

variable {Label Atom : Type} {m : Type → Type} [Monad m] [LinearOrder Label]

/-- What one slot of an update's result runs, once the base is held. -/
def slotRun {arity : ℕ} (label : Fin arity → Label) (act : Fin arity → m (Value Atom))
    (held : Value Atom) (slot : Label × ℕ) : m (Value Atom) :=
  ((findField label slot.1).map act).getD (pure (held.slot slot.2))

/-- Replaces the slot of one field of a held composite. -/
def polyRun {arity : ℕ} (M : Machine Label m Atom) (tail : RowVar) (known : List Label)
    (label : Fin arity → Label) (act : Fin arity → m (Value Atom)) (held : Value Atom)
    (field : Fin arity) : m (Value Atom) := do
  let new ← act field
  pure (.record (held.slots.set
    ((known.countP fun key => key < label field) + M.evidence tail (label field)) new))

/-- An update of a closed row runs its base and then its result slot by slot. -/
theorem eval_lowerRecordUpdate [LawfulMonad m] {arity : ℕ} (M : Machine Label m Atom)
    (id : ExprId) (base : CExpr Label) (row : List Label) (label : Fin arity → Label)
    (code : Fin arity → CExpr Label)
    (independent : ∀ field temps temps', eval M (code field) temps = eval M (code field) temps')
    (temps : ExprId → Value Atom) (env : Env Atom) :
    eval M (lowerRecordUpdate id base row label code) temps env =
      eval M base temps env >>= fun held =>
        inOrder ((resultRow label row).zipIdx.map
          (slotRun label (fun field => eval M (code field) temps env) held)) >>= fun slots =>
        pure (.record slots) := by
  have slot (local_ : CLocal) (inner : ExprId → Value Atom) (held : Value Atom)
      (bound : eval M (.local_ local_) inner env = pure held) :
      (fun slot => eval M (updateSlot local_ label code slot) inner env) =
        slotRun label (fun field => eval M (code field) temps env) held := by
    funext slot
    rw [updateSlot, slotRun]
    cases findField label slot.1 with
    | none =>
      simp only [Option.map_none, Option.getD_none, eval, bound, pure_bind]
    | some field =>
      simp only [Option.map_some, Option.getD_some]
      rw [independent field inner temps]
  cases source : base.asSource with
  | some name =>
    have direct : base = .local_ (.source name) := by
      cases base with
      | local_ local_ =>
        cases local_ with
        | source other =>
          simp only [CExpr.asSource, Option.some.injEq] at source
          rw [source]
        | fresh update => simp [CExpr.asSource] at source
      | _ => simp [CExpr.asSource] at source
    subst direct
    rw [lowerRecordUpdate, source]
    simp only [evalAll_eq_map, List.map_map, Function.comp_def, eval, pure_bind]
    rw [slot (.source name) temps (env name) rfl]
  | none =>
    rw [lowerRecordUpdate, source]
    simp only [eval, evalAll_eq_map, List.map_map, Function.comp_def]
    refine bind_congr fun held => ?_
    rw [slot (.fresh id) _ held (by simp only [eval, if_true])]

/-- An update of an open row runs its base and then replaces one slot after another. -/
theorem eval_rowPolySteps [LawfulMonad m] {arity : ℕ} (M : Machine Label m Atom) (tail : RowVar)
    (known : List Label) (label : Fin arity → Label) (code : Fin arity → CExpr Label)
    (temps : ExprId → Value Atom) (env : Env Atom) (fields : List (Fin arity)) :
    ∀ base : CExpr Label,
      eval M (fields.foldl (rowPolyStep tail known label code) base) temps env =
        eval M base temps env >>= fun held =>
          fields.foldlM (polyRun M tail known label fun field => eval M (code field) temps env)
            held := by
  induction fields with
  | nil => intro base; simp
  | cons field fields hypothesis =>
    intro base
    rw [List.foldl_cons, hypothesis]
    simp only [rowPolyStep, eval, List.foldlM_cons, polyRun, bind_assoc, pure_bind]

/-- The Core of an expression reads no base that is bound outside of it. -/
theorem eval_lower_temps [LawfulMonad m] (M : Machine Label m Atom) (e : Expr Label) :
    ∀ temps temps' : ExprId → Value Atom, eval M (lower e) temps = eval M (lower e) temps' := by
  induction e with
  | local_ name => intro temps temps'; rfl
  | node id arity child hypothesis =>
    intro temps temps'
    simp only [lower, eval, evalAll_eq_map, List.map_map, Function.comp_def]
    congr 1
    exact List.map_congr_left fun place _ => hypothesis place temps temps'
  | record arity label id value hypothesis =>
    intro temps temps'
    funext env
    rw [lower, lowerRecord, eval_makeData, eval_makeData, List.map_map, List.map_map]
    congr 2
    refine List.map_congr_left fun field _ => ?_
    simp only [Function.comp_def, eval, hypothesis field temps temps']
  | update id base row arity label field value base_hypothesis hypothesis =>
    intro temps temps'
    have independent (place : Fin arity) (first second : ExprId → Value Atom) :
        eval M (.value (field place) (lower (value place))) first =
          eval M (.value (field place) (lower (value place))) second := by
      simp only [eval, hypothesis place first second]
    have acts : (fun place => eval M (.value (field place) (lower (value place))) temps) =
        fun place => eval M (.value (field place) (lower (value place))) temps' := by
      funext place
      exact independent place temps temps'
    funext env
    have acts_env (place : Fin arity) :
        eval M (.value (field place) (lower (value place))) temps env =
          eval M (.value (field place) (lower (value place))) temps' env :=
      congrFun (congrFun acts place) env
    cases row with
    | closed labels =>
      simp only [lower, lowerUpdate]
      rw [eval_lowerRecordUpdate M id _ labels label _ independent temps env,
        eval_lowerRecordUpdate M id _ labels label _ independent temps' env,
        base_hypothesis temps temps']
      simp only [acts_env]
    | open_ tail known =>
      simp only [lower, lowerUpdate, lowerRowPolyUpdate]
      rw [eval_rowPolySteps, eval_rowPolySteps, base_hypothesis temps temps']
      simp only [acts_env]

end Temps

section Alike

variable {Label Atom : Type} {m : Type → Type} [Monad m] [LinearOrder Label]

/-- The result row of an update that sets some of a row's labels is that row. -/
theorem resultRow_eq {arity : ℕ} {label : Fin arity → Label} {row : List Label}
    (ascending : StrictMono label) (ordered : row.Pairwise (· < ·))
    (listed : ∀ field, label field ∈ row) : resultRow label row = row := by
  have distinct : (List.ofFn label ++ row.filter fun key => key ∉ List.ofFn label).Nodup := by
    refine List.Nodup.append (List.nodup_ofFn.mpr ascending.injective)
      ((ordered.imp ne_of_lt).filter _) ?_
    intro key left right
    simp only [List.mem_filter, decide_eq_true_eq] at right
    exact right.2 left
  have same : (List.ofFn label ++ row.filter fun key => key ∉ List.ofFn label).Perm row := by
    rw [List.perm_ext_iff_of_nodup distinct (ordered.imp ne_of_lt)]
    intro key
    simp only [List.mem_append, List.mem_filter, decide_eq_true_eq]
    constructor
    · rintro (set_ | kept)
      · obtain ⟨field, here⟩ := List.mem_ofFn.mp set_
        rw [← here]
        exact listed field
      · exact kept.1
    · intro member
      by_cases set_ : key ∈ List.ofFn label
      · exact Or.inl set_
      · exact Or.inr ⟨member, set_⟩
  have sorted : row.mergeSort (fun first second => decide (first ≤ second)) = row :=
    List.mergeSort_of_pairwise (ordered.imp fun before => decide_eq_true (le_of_lt before))
  have total (first second : Label) :
      (decide (first ≤ second) || decide (second ≤ first)) = true := by
    simp only [Bool.or_eq_true, decide_eq_true_eq]
    exact le_total _ _
  have transitive (first second third : Label) :
      decide (first ≤ second) = true → decide (second ≤ third) = true →
        decide (first ≤ third) = true := by
    simp only [decide_eq_true_eq]
    exact le_trans
  refine List.Perm.eq_of_pairwise ?_ (List.pairwise_mergeSort transitive total _)
    (sorted ▸ List.pairwise_mergeSort transitive total row)
    ((List.mergeSort_perm _ _).trans same)
  intro first second _ _ left right
  exact le_antisymm (of_decide_eq_true left) (of_decide_eq_true right)

/-- Replacing slots field by field keeps a composite a composite. -/
theorem foldlM_polyRun [LawfulMonad m] {arity : ℕ} (M : Machine Label m Atom) (tail : RowVar)
    (known : List Label) (label : Fin arity → Label) (act : Fin arity → m (Value Atom))
    (fields : List (Fin arity)) :
    ∀ slots : List (Value Atom),
      fields.foldlM (polyRun M tail known label act) (.record slots) =
        (fields.map fun field => (label field, act field)).foldlM
          (put fun key => (known.countP (· < key)) + M.evidence tail key) slots >>= fun slots =>
        pure (.record slots) := by
  induction fields with
  | nil => intro slots; simp
  | cons field fields hypothesis =>
    intro slots
    simp only [List.foldlM_cons, List.map_cons, polyRun, put, bind_assoc, pure_bind, hypothesis,
      Value.slots]

/-- Slot by slot, the fields of an update are the listed contents of a row's slots. -/
theorem slotRun_eq_fill {arity : ℕ} (label : Fin arity → Label) (act : Fin arity → m (Value Atom))
    {row : List Label} {slots : List (Value Atom)} (aligned : slots.length = row.length) :
    row.zipIdx.map (slotRun label act (.record slots)) =
      (row.zip slots).map
        (fill ((List.finRange arity).map fun field => (label field, act field))) := by
  refine List.ext_getElem (by simp [aligned]) fun index left right => ?_
  have inside : index < row.length := by
    simp only [List.length_map, List.length_zipIdx] at left
    exact left
  have found : ((List.finRange arity).map fun field => (label field, act field)).find?
      (fun field => decide (field.1 = row[index])) =
      (findField label row[index]).map fun field => (label field, act field) := by
    rw [List.find?_map]
    rfl
  simp only [List.getElem_map, List.getElem_zipIdx, List.getElem_zip, Nat.zero_add, slotRun, fill,
    found, Option.map_map, Function.comp_def, Value.slot, Value.slots,
    List.getElem?_eq_getElem (aligned ▸ inside), Option.getD_some]

/-- An update does the same in every machine whether its base's row is closed or open, over every
base that returns a composite with the slots of its row. -/
def RowIndependent {arity : ℕ} (label : Fin arity → Label) (field : Fin arity → ExprId)
    (value : Fin arity → Expr Label) : Prop :=
  ∀ (m : Type → Type) [Monad m] [LawfulMonad m] (Atom : Type) [Inhabited Atom]
    (M : Machine Label m Atom) (env : Env Atom) (id : ExprId) (base : Expr Label) (tail : RowVar)
    (known row : List Label),
    row.Pairwise (· < ·) → (known ++ M.hidden tail).Perm row → (∀ place, label place ∈ row) →
    Yields (fun held => ∃ slots, held = .record slots ∧ slots.length = row.length)
      (run M base env) →
    run M (.update id base (.closed row) arity label field value) env =
      run M (.update id base (.open_ tail known) arity label field value) env

/-- An update that lists its fields in strictly ascending label order does not depend on its
base's row. -/
theorem rowIndependent_of_strictMono {arity : ℕ} {label : Fin arity → Label}
    (field : Fin arity → ExprId) (value : Fin arity → Expr Label) (ascending : StrictMono label) :
    RowIndependent label field value := by
  intro m _ _ Atom _ M env id base tail known row ordered split listed conforms
  have independent (place : Fin arity) (first second : ExprId → Value Atom) :
      eval M (.value (field place) (lower (value place))) first =
        eval M (.value (field place) (lower (value place))) second := by
    simp only [eval, eval_lower_temps M (value place) first second]
  simp only [run, lower, lowerUpdate, lowerRowPolyUpdate]
  rw [eval_lowerRecordUpdate M id _ row label _ independent, eval_rowPolySteps,
    resultRow_eq ascending ordered listed]
  refine conforms.bind_congr ?_
  rintro held ⟨slots, rfl, aligned⟩
  rw [slotRun_eq_fill label _ aligned, foldlM_polyRun]
  congr 1
  have places : (fun key => known.countP (· < key) + M.evidence tail key) =
      fun key => row.countP (· < key) := by
    funext key
    rw [Machine.evidence, ← List.countP_append, split.countP_eq]
  rw [places]
  refine (inOrder_fill aligned ordered ?_ ?_).symm
  · rw [List.map_map]
    exact (List.pairwise_lt_finRange arity).map _ fun _ _ before => ascending before
  · intro entry member
    obtain ⟨place, _, same⟩ := List.mem_map.mp member
    rw [← same]
    exact listed place

end Alike

section Log

/-- A log of evaluated fields. -/
abbrev Logged := StateM (List ExprId)

/-- A computation appends entries to the log. -/
def Logs {β : Type} (computation : Logged β) (entries : List ExprId) : Prop :=
  ∀ log, (computation log).2 = log ++ entries

/-- Returning a value logs nothing. -/
theorem Logs.pure_nil {β : Type} (value : β) : Logs (pure value : Logged β) [] :=
  fun log => (List.append_nil log).symm

/-- Computations in sequence log their entries in sequence. -/
theorem Logs.bind {β γ : Type} {computation : Logged β} {next : β → Logged γ}
    {entries later : List ExprId} (first : Logs computation entries)
    (second : ∀ value, Logs (next value) later) :
    Logs (computation >>= next) (entries ++ later) := by
  intro log
  have here : ((computation >>= next) log).2 =
      (next (computation log).1 (computation log).2).2 := rfl
  rw [here, second, first, List.append_assoc]

/-- The entries of a list begin with that of its first item. -/
theorem filterMap_eq_toList_append {α β : Type} (entry : α → Option β) (item : α)
    (list : List α) :
    (item :: list).filterMap entry = (entry item).toList ++ list.filterMap entry := by
  cases here : entry item with
  | none =>
    rw [List.filterMap_cons_none here]
    rfl
  | some first =>
    rw [List.filterMap_cons_some here]
    rfl

/-- Computations in order log what each of them logs. -/
theorem Logs.inOrder {α β : Type} (list : List α) {act : α → Logged β}
    (entry : α → Option ExprId)
    (logs : ∀ item, Logs (act item) (entry item).toList) :
    Logs (inOrder (list.map act)) (list.filterMap entry) := by
  induction list with
  | nil => exact Logs.pure_nil []
  | cons item list hypothesis =>
    have whole := Logs.bind (logs item) fun value =>
      Logs.bind hypothesis fun values => Logs.pure_nil (value :: values)
    rw [List.append_nil] at whole
    rw [filterMap_eq_toList_append]
    exact whole

/-- A fold of computations logs what each step logs. -/
theorem Logs.foldlM {α β : Type} (list : List α) {step : β → α → Logged β}
    (entry : α → Option ExprId) (logs : ∀ held item, Logs (step held item) (entry item).toList) :
    ∀ held, Logs (list.foldlM step held) (list.filterMap entry) := by
  induction list with
  | nil => exact fun held => Logs.pure_nil held
  | cons item list hypothesis =>
    intro held
    rw [List.foldlM_cons, filterMap_eq_toList_append]
    exact Logs.bind (logs held item) hypothesis

variable {Label : Type} [LinearOrder Label]

/-- The fields of an expression's literals and updates, by their value expressions. -/
def Expr.ids : Expr Label → List ExprId
  | .local_ _ => []
  | .node _ arity child => (List.finRange arity).flatMap fun place => (child place).ids
  | .record arity _ id value =>
    (List.finRange arity).flatMap fun field => id field :: (value field).ids
  | .update _ base _ arity _ id value =>
    base.ids ++ (List.finRange arity).flatMap fun field => id field :: (value field).ids

/-- The machine that logs the fields it is told to watch, and runs no other expression. -/
def logMachine (watched : List ExprId) : Machine Label Logged Unit where
  node _ _ _ := pure (.atom ())
  enter id := fun log => ((), if id ∈ watched then log ++ [id] else log)
  hidden _ := []

/-- The entry of a field, when it is watched. -/
def noted (watched : List ExprId) (id : ExprId) : Option ExprId :=
  if id ∈ watched then some id else none

/-- A field logs itself when it is watched and its expression logs nothing. -/
theorem logs_value (watched : List ExprId) (id : ExprId) {code : CExpr Label}
    {temps : ExprId → Value Unit} {env : Env Unit}
    (quiet : Logs (eval (logMachine watched) code temps env) []) :
    Logs (eval (logMachine watched) (.value id code) temps env) (noted watched id).toList := by
  have entered : Logs ((logMachine watched : Machine Label Logged Unit).enter id)
      (noted watched id).toList := by
    intro log
    simp only [logMachine, noted]
    split_ifs
    · rfl
    · exact (List.append_nil log).symm
  have whole := Logs.bind entered fun _ => quiet
  rw [List.append_nil] at whole
  simp only [eval]
  exact whole

/-- Slot by slot, the fields found first are logged in the order of the result row. -/
theorem logs_slots {arity : ℕ} (label : Fin arity → Label) {act : Fin arity → Logged (Value Unit)}
    (entry : Fin arity → Option ExprId) (logs : ∀ field, Logs (act field) (entry field).toList)
    (row : List Label) (held : Value Unit) :
    Logs (inOrder (row.zipIdx.map (slotRun label act held)))
      (row.filterMap fun key => (findField label key).bind entry) := by
  have slot (pair : Label × ℕ) : Logs (slotRun label act held pair)
      ((findField label pair.1).bind entry).toList := by
    rw [slotRun]
    cases findField label pair.1 with
    | none => exact Logs.pure_nil _
    | some field => exact logs field
  have all := Logs.inOrder row.zipIdx (fun pair => (findField label pair.1).bind entry) slot
  have keys : row.zipIdx.map Prod.fst = row := by simp
  have entries : row.zipIdx.filterMap (fun pair => (findField label pair.1).bind entry) =
      row.filterMap fun key => (findField label key).bind entry := by
    conv_rhs => rw [← keys, List.filterMap_map]
    rfl
  rwa [entries] at all

/-- Field by field, the fields are logged in the order of the source. -/
theorem logs_fields {arity : ℕ} (M : Machine Label Logged Unit) (tail : RowVar)
    (known : List Label) (label : Fin arity → Label) {act : Fin arity → Logged (Value Unit)}
    (entry : Fin arity → Option ExprId) (logs : ∀ field, Logs (act field) (entry field).toList)
    (held : Value Unit) :
    Logs ((List.finRange arity).foldlM (polyRun M tail known label act) held)
      ((List.finRange arity).filterMap entry) := by
  refine Logs.foldlM _ entry (fun held field => ?_) held
  have whole := Logs.bind (logs field) fun new => Logs.pure_nil (Value.record (held.slots.set
    ((known.countP fun key => key < label field) + M.evidence tail (label field)) new))
  rw [List.append_nil] at whole
  exact whole

/-- Nothing is logged for an expression none of whose fields is watched. -/
theorem eval_quiet (watched : List ExprId) (e : Expr Label)
    (unwatched : ∀ id ∈ e.ids, id ∉ watched) :
    ∀ temps env, Logs (eval (logMachine watched) (lower e) temps env) [] := by
  induction e with
  | local_ name => exact fun temps env => Logs.pure_nil _
  | node id arity child hypothesis =>
    intro temps env
    simp only [lower, eval]
    exact Logs.pure_nil _
  | record arity label id value hypothesis =>
    intro temps env
    have inner (field : Fin arity) :
        Logs (eval (logMachine watched) (.value (id field) (lower (value field))) temps env)
          (none : Option ExprId).toList := by
      have own : id field ∉ watched := unwatched _
        (List.mem_flatMap.mpr ⟨field, List.mem_finRange field, List.mem_cons_self⟩)
      have logged := logs_value watched (id field) (hypothesis field (fun other member =>
        unwatched other (List.mem_flatMap.mpr
          ⟨field, List.mem_finRange field, List.mem_cons_of_mem _ member⟩)) temps env)
      rwa [noted, if_neg own] at logged
    rw [lower, lowerRecord, eval_makeData, List.map_map]
    have slots := Logs.inOrder (byLabel label) (fun _ => none) inner
    rw [List.filterMap_none] at slots
    exact Logs.bind slots fun values => Logs.pure_nil _
  | update id base row arity label field value base_hypothesis hypothesis =>
    intro temps env
    have inner (place : Fin arity) (temps : ExprId → Value Unit) :
        Logs (eval (logMachine watched) (.value (field place) (lower (value place))) temps env)
          (none : Option ExprId).toList := by
      have listed (other : ExprId) (member : other ∈ field place :: (value place).ids) :
          other ∉ watched :=
        unwatched other (List.mem_append_right _
          (List.mem_flatMap.mpr ⟨place, List.mem_finRange place, member⟩))
      have logged := logs_value watched (field place) (hypothesis place (fun other member =>
        listed other (List.mem_cons_of_mem _ member)) temps env)
      rwa [noted, if_neg (listed _ List.mem_cons_self)] at logged
    have quiet_base := base_hypothesis
      (fun other member => unwatched other (List.mem_append_left _ member)) temps env
    cases row with
    | closed labels =>
      simp only [lower, lowerUpdate]
      rw [eval_lowerRecordUpdate _ id _ labels label _ fun place first second => by
        simp only [eval, eval_lower_temps _ (value place) first second]]
      refine quiet_base.bind fun held => ?_
      have slots := logs_slots label (fun _ => none) (fun place => inner place temps)
        (resultRow label labels) held
      have silent : (fun key => (findField label key).bind fun _ => (none : Option ExprId)) =
          fun _ => none := by
        funext key
        cases findField label key <;> rfl
      rw [silent, List.filterMap_none] at slots
      exact Logs.bind slots fun values => Logs.pure_nil _
    | open_ tail known =>
      simp only [lower, lowerUpdate, lowerRowPolyUpdate]
      rw [eval_rowPolySteps]
      refine quiet_base.bind fun held => ?_
      have fields := logs_fields (logMachine watched) tail known label (fun _ => none)
        (fun place => inner place temps) held
      rwa [List.filterMap_none] at fields

/-- A field found for a key sets that key. -/
theorem label_of_findField {arity : ℕ} {label : Fin arity → Label} {key : Label}
    {field : Fin arity} (found : findField label key = some field) : label field = key := by
  rw [findField] at found
  simpa using List.find?_some found

/-- An update that does the same whatever its base's row lists its fields in strictly ascending
label order. -/
theorem strictMono_of_rowIndependent {arity : ℕ} {label : Fin arity → Label}
    {field : Fin arity → ExprId} {value : Fin arity → Expr Label}
    (distinct : Function.Injective field) (apart : ∀ first second, field first ∉ (value second).ids)
    (independent : RowIndependent label field value) : StrictMono label := by
  have total (first second : Label) :
      (decide (first ≤ second) || decide (second ≤ first)) = true := by
    simp only [Bool.or_eq_true, decide_eq_true_eq]
    exact le_total _ _
  have transitive (first second third : Label) :
      decide (first ≤ second) = true → decide (second ≤ third) = true →
        decide (first ≤ third) = true := by
    simp only [decide_eq_true_eq]
    exact le_trans
  let watched := List.ofFn field
  let row := (List.ofFn label).dedup.mergeSort fun first second => decide (first ≤ second)
  let env : Env Unit := fun _ => .record (List.replicate row.length (.atom ()))
  let M : Machine Label Logged Unit := logMachine watched
  have members (key : Label) : key ∈ row ↔ key ∈ List.ofFn label := by
    rw [(List.mergeSort_perm _ _).mem_iff, List.mem_dedup]
  have ordered : row.Pairwise (· < ·) := by
    have weak := List.pairwise_mergeSort transitive total (List.ofFn label).dedup
    have nodup : row.Nodup := (List.mergeSort_perm _ _).nodup_iff.mpr (List.nodup_dedup _)
    refine (weak.and nodup).imp fun both => ?_
    exact lt_of_le_of_ne (of_decide_eq_true both.1) both.2
  have same := independent Logged Unit M env 0 (.local_ 0) 0 row row ordered
    (by rw [show M.hidden 0 = [] from rfl, List.append_nil])
    (fun place => (members _).mpr (List.mem_ofFn.mpr ⟨place, rfl⟩))
    ⟨pure ⟨env 0, List.replicate row.length (.atom ()), rfl, List.length_replicate⟩, by
      rw [map_pure]
      rfl⟩
  have logged (place : Fin arity) : Logs
      (eval M (.value (field place) (lower (value place))) (fun _ => .atom default) env)
      (some (field place)).toList := by
    have inner := logs_value watched (field place) (eval_quiet watched (value place)
      (fun id member listed => by
        obtain ⟨other, here⟩ := List.mem_ofFn.mp listed
        exact apart other place (here ▸ member)) (fun _ => .atom default) env)
    rwa [noted, if_pos (List.mem_ofFn.mpr ⟨place, rfl⟩)] at inner
  have closed : Logs (run M (.update 0 (.local_ 0) (.closed row) arity label field value) env)
      (((resultRow label row).filterMap (findField label)).map field) := by
    simp only [run, lower, lowerUpdate]
    rw [eval_lowerRecordUpdate _ 0 _ row label _ fun place first second => by
      simp only [eval, eval_lower_temps _ (value place) first second]]
    refine (Logs.pure_nil (env 0)).bind fun held => ?_
    have slots := logs_slots label (fun place => some (field place)) logged (resultRow label row)
      held
    have entries : (fun key => (findField label key).bind fun place => some (field place)) =
        fun key => (findField label key).map field := by
      funext key
      cases findField label key <;> rfl
    rw [entries, ← List.map_filterMap] at slots
    have whole := Logs.bind slots fun values => Logs.pure_nil (Value.record values)
    rwa [List.append_nil] at whole
  have opened : Logs (run M (.update 0 (.local_ 0) (.open_ 0 row) arity label field value) env)
      ((List.finRange arity).map field) := by
    simp only [run, lower, lowerUpdate, lowerRowPolyUpdate]
    rw [eval_rowPolySteps]
    refine (Logs.pure_nil (env 0)).bind fun held => ?_
    have fields := logs_fields M 0 row label (fun place => some (field place)) logged held
    rwa [List.filterMap_eq_map'] at fields
  have places : (resultRow label row).filterMap (findField label) = List.finRange arity := by
    have logs := closed []
    rw [same, opened] at logs
    exact (List.map_injective_iff.mpr distinct logs).symm
  have first_found (place : Fin arity) : findField label (label place) = some place := by
    have member : place ∈ (resultRow label row).filterMap (findField label) := by
      rw [places]
      exact List.mem_finRange place
    obtain ⟨key, _, found⟩ := List.mem_filterMap.mp member
    rwa [label_of_findField found]
  have weak : (List.finRange arity).Pairwise fun first second => label first ≤ label second := by
    rw [← places]
    refine List.Pairwise.filterMap (findField label) ?_
      (List.pairwise_mergeSort transitive total _)
    intro first second before left found right found'
    rw [label_of_findField found, label_of_findField found']
    exact of_decide_eq_true before
  intro first second before
  refine lt_of_le_of_ne ?_ fun equal => ?_
  · have here := List.pairwise_iff_getElem.mp weak first second (by simp) (by simp) before
    simpa using here
  · have left := first_found first
    rw [equal, first_found second, Option.some.injEq] at left
    exact ne_of_lt before left.symm

end Log

section Meaning

variable {Label : Type} [LinearOrder Label]

/-- Printing the fields in label order changes nothing a machine can tell. -/
def FormatInvariant (e : Expr Label) : Prop :=
  ∀ (m : Type → Type) [Monad m] [LawfulMonad m] (Atom : Type) [Inhabited Atom]
    (M : Machine Label m Atom) (env : Env Atom), run M (format e) env = run M e env

/-- Record construction has one meaning in an expression: no part of it depends on the order in
which fields are printed, and no update in it on whether its base's row is closed or open. -/
def OneMeaning (e : Expr Label) : Prop :=
  ∀ sub, Within sub e → FormatInvariant sub ∧
    ∀ id base row arity label field value, sub = .update id base row arity label field value →
      RowIndependent label field value

/-- Every update lists its fields in strictly ascending label order. -/
def UpdatesAscending (e : Expr Label) : Prop :=
  ∀ id base row arity label field value,
    Within (.update id base row arity label field value) e → StrictMono label

omit [LinearOrder Label] in
/-- The fields of a part are among those of the whole. -/
theorem Within.ids_sublist {sub e : Expr Label} (inside : Within sub e) :
    sub.ids.Sublist e.ids := by
  have through {arity : ℕ} (part : Fin arity → List ExprId) (place : Fin arity) :
      (part place).Sublist ((List.finRange arity).flatMap part) :=
    List.sublist_flatten_of_mem (List.mem_map_of_mem (List.mem_finRange place))
  induction inside with
  | refl => exact List.Sublist.refl _
  | @child id arity child place _ hypothesis =>
    rw [Expr.ids]
    exact hypothesis.trans (through (fun place => (child place).ids) place)
  | @literal arity label id value field _ hypothesis =>
    rw [Expr.ids]
    exact (hypothesis.trans (List.sublist_cons_self _ _)).trans
      (through (fun field => id field :: (value field).ids) field)
  | base _ hypothesis =>
    rw [Expr.ids]
    exact hypothesis.trans (List.sublist_append_left _ _)
  | @updated id base row arity label ids value field _ hypothesis =>
    rw [Expr.ids]
    exact ((hypothesis.trans (List.sublist_cons_self _ _)).trans
      (through (fun field => ids field :: (value field).ids) field)).trans
        (List.sublist_append_right _ _)

/-- Record construction has one meaning exactly where every update lists its fields in strictly
ascending label order. -/
theorem record_construction_one_meaning (e : Expr Label) (arena : e.ids.Nodup) :
    OneMeaning e ↔ UpdatesAscending e := by
  constructor
  · intro one id base row arity label field value inside
    have nodup := inside.ids_sublist.nodup arena
    rw [Expr.ids] at nodup
    have fields := (List.nodup_append.mp nodup).2.1
    rw [List.nodup_flatMap] at fields
    have disjoint {first second : Fin arity} (apart : first ≠ second) :
        List.Disjoint (field first :: (value first).ids) (field second :: (value second).ids) := by
      have pairs := (List.pairwise_iff_getElem.mp fields.2)
      rcases lt_or_gt_of_ne apart with before | before
      · simpa using pairs first second (by simp) (by simp) before
      · simpa using (pairs second first (by simp) (by simp) before).symm
    refine strictMono_of_rowIndependent ?_ ?_ ((one _ inside).2 id base row arity label field value
      rfl)
    · intro first second same
      by_contra apart
      exact disjoint apart List.mem_cons_self (same ▸ List.mem_cons_self)
    · intro first second member
      by_cases same : first = second
      · subst same
        exact (List.nodup_cons.mp (fields.1 first (List.mem_finRange first))).1 member
      · exact disjoint same List.mem_cons_self (List.mem_cons_of_mem _ member)
  · intro ascending sub inside
    constructor
    · intro m _ _ Atom _ M env
      have sorted : OpenSorted sub := fun id base tail known arity label field value within =>
        (ascending id base _ arity label field value (within.trans inside)).monotone
      rw [run, run, lower_format sub sorted]
    · rintro id base row arity label field value rfl
      exact rowIndependent_of_strictMono field value
        (ascending id base row arity label field value inside)

end Meaning

/-- `{ r with x = f (), y = g () }` for two labels, on a record of a given row. -/
def twoFields (row : BaseRow Char) (first second : Char) : Expr Char :=
  .update 0 (.local_ 0) row 2 (fun place => if place = 0 then first else second)
    (fun place => place.val + 1) fun place => .node (place.val + 3) 0 fun _ => .local_ 0

/-- In `{ r with a = f (), b = g () }` record construction has one meaning. -/
theorem record_construction_one_meaning_ab :
    OneMeaning (twoFields (.open_ 0 ['a', 'b']) 'a' 'b') := by
  refine (record_construction_one_meaning (twoFields (.open_ 0 ['a', 'b']) 'a' 'b')
    (by decide)).mpr ?_
  intro id base row arity label field value inside
  have ascending : StrictMono fun place : Fin 2 => if place = 0 then 'a' else 'b' := by decide
  generalize whole : twoFields (.open_ 0 ['a', 'b']) 'a' 'b' = e at inside
  cases inside with
  | refl =>
    rw [twoFields] at whole
    cases whole
    exact ascending
  | child place inner => cases whole
  | literal place inner => cases whole
  | base inner =>
    cases whole
    cases inner
  | updated place inner =>
    cases whole
    cases inner with
    | child place _ => exact place.elim0

/-- In `{ r with b = f (), a = g () }` it has not: `f` is called first where the row of `r` is open
and `g` is where it is closed. -/
theorem record_construction_swapped :
    ¬ OneMeaning (twoFields (.open_ 0 ['a', 'b']) 'b' 'a') ∧
    (run (logMachine [1, 2]) (twoFields (.open_ 0 ['a', 'b']) 'b' 'a')
      (fun _ => .record []) []).2 = [1, 2] ∧
    (run (logMachine [1, 2]) (twoFields (.closed ['a', 'b']) 'b' 'a')
      (fun _ => .record []) []).2 = [2, 1] := by
  refine ⟨fun one => ?_, by decide +kernel, ?_⟩
  · have independent := (one _ .refl).2 _ _ _ _ _ _ _ rfl
    have ascending := strictMono_of_rowIndependent
      (fun first second same => Fin.ext (Nat.succ_injective same))
      (fun _ _ => List.not_mem_nil) independent
    exact absurd (ascending (show (0 : Fin 2) < 1 by decide)) (by decide)
  · have labels : (List.ofFn fun place : Fin 2 => if place = 0 then 'b' else 'a') = ['b', 'a'] := by
      decide
    have row : resultRow (fun place : Fin 2 => if place = 0 then 'b' else 'a') ['a', 'b'] =
        ['a', 'b'] := by
      rw [resultRow, labels]
      simp [List.mergeSort, List.MergeSort.Internal.splitInTwo]
    rw [run, twoFields, lower, lowerUpdate, lowerRecordUpdate, row]
    decide +kernel

end Fai.Lower
