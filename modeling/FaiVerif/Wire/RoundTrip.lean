import FaiVerif.Wire.Convert
import Mathlib.Data.List.Infix
import Mathlib.Data.Set.Function

/-!
# Shipping a program loses nothing but type detail

Reading a bundle back hands out a source number for each module label. What has been read under
the labels seen so far stays right when later labels are added, so the whole program is the
original under the renaming that the final labels give. The renaming is one to one on the
definitions of the program when distinct files have distinct labels.
-/

namespace Fai

namespace Wire

/-! ## Readers that hand out numbers -/

/-- A reader whose result is right under every extension of the labels it leaves, and which leaves
the labels it needed. -/
structure Reads {α : Type} (reader : StateM SourceAssigner α) (value : List String → α)
    (needs : String → Prop) : Prop where
  /-- Labels are only added. -/
  grows : ∀ seen, seen <+: (reader seen).2
  /-- The result is that of all later labels. -/
  value : ∀ seen labels, (reader seen).2 <+: labels → (reader seen).1 = value labels
  /-- The labels needed are there afterwards. -/
  covers : ∀ seen label, needs label → label ∈ (reader seen).2

section Readers

variable {α β : Type} {reader : StateM SourceAssigner α} {found : List String → α}
  {needs needs' needed : String → Prop}

/-- A result that needs no label. -/
theorem reads_pure (result : α) (none : ∀ label, ¬ needs label) :
    Reads (pure result) (fun _ => result) needs where
  grows := fun seen => List.prefix_refl seen
  value := fun _ _ _ => rfl
  covers := fun _ label need => absurd need (none label)

/-- One reader after another. -/
theorem reads_bind {next : α → StateM SourceAssigner β} {later : List String → List String → β}
    {target : List String → β} (first : Reads reader found needs)
    (second : ∀ labels, Reads (next (found labels)) (later labels) needs')
    (same : ∀ labels, later labels labels = target labels)
    (split : ∀ label, needed label → needs label ∨ needs' label) :
    Reads (reader >>= next) target needed := by
  have unfolded : ∀ seen, (reader >>= next) seen = next (reader seen).1 (reader seen).2 :=
    fun _ => rfl
  have settled : ∀ seen, (reader seen).1 = found (reader seen).2 :=
    fun seen => first.value seen _ (List.prefix_refl _)
  constructor
  · intro seen
    have more := (second (reader seen).2).grows (reader seen).2
    rw [← settled] at more
    rw [unfolded]
    exact (first.grows seen).trans more
  · intro seen labels extends'
    rw [unfolded] at extends' ⊢
    have between := (second (reader seen).2).grows (reader seen).2
    rw [← settled] at between
    have here := first.value seen labels (between.trans extends')
    rw [here] at extends' ⊢
    rw [(second labels).value _ labels extends', same]
  · intro seen label need
    rw [unfolded, settled]
    rcases split label need with early | late
    · exact ((second (reader seen).2).grows _).subset (first.covers seen label early)
    · exact (second (reader seen).2).covers _ label late

/-- A reader with its result wrapped. -/
theorem reads_map (wrap : α → β) (first : Reads reader found needs)
    (kept : ∀ label, needed label → needs label) :
    Reads (reader >>= fun result => pure (wrap result)) (fun labels => wrap (found labels))
      needed := by
  have last : ∀ labels, Reads (pure (wrap (found labels))) (fun _ => wrap (found labels))
      (fun _ => False) := fun labels => reads_pure _ fun _ => id
  exact reads_bind first last (fun _ => rfl) fun label need => .inl (kept label need)

end Readers

variable (interner : Interner) (label : Nat → String)

/-- The module of a definition is the label of its file. -/
def moduleOf (d : DefId) : String := label d.file

/-- The renaming that labels give: a file becomes the position of its label. -/
def renumber (labels : List String) (d : DefId) : DefId := ⟨labels.idxOf (label d.file), d.name⟩

/-- The source number of a label is its position. -/
theorem reads_source (text : String) :
    Reads (source text) (fun labels => labels.idxOf text) (· = text) := by
  constructor
  · intro seen
    unfold source
    split
    · exact List.prefix_refl seen
    · exact List.prefix_append seen [text]
  · intro seen labels later
    obtain ⟨rest, rfl⟩ := later
    unfold source
    split
    · rename_i member
      rw [List.idxOf_append_of_mem member]
    · rename_i absent
      have member : text ∈ seen ++ [text] := by simp
      rw [List.idxOf_append_of_mem member, List.idxOf_append_of_notMem absent]
      simp
  · intro seen other same
    subst same
    unfold source
    split
    · assumption
    · simp

/-- A definition is read as its renaming. -/
theorem reads_defId (d : DefId) :
    Reads (defId interner (wireId interner (moduleOf label) d))
      (fun labels => renumber label labels d) (· = label d.file) := by
  have named : interner.intern (interner.text d.name) = d.name := interner.intern_text d.name
  unfold defId wireId renumber
  rw [named]
  exact reads_map (fun file => (⟨file, d.name⟩ : DefId)) (reads_source (label d.file))
    fun _ need => need

/-- The labels an expression needs. -/
def exprNeeds (e : CExpr) (text : String) : Prop := ∃ d ∈ e.targets, label d.file = text

/-- The labels a node needs are those of its children, unless it refers to a definition itself. -/
theorem needs_children {e : CExpr} {text : String} (plain : e.target? = none)
    (need : exprNeeds label e text) : ∃ child ∈ e.children, exprNeeds label child text := by
  obtain ⟨d, member, same⟩ := need
  unfold CExpr.targets at member
  rw [CExpr.nodes_eq, List.filterMap_cons_none plain] at member
  obtain ⟨node, inNodes, target⟩ := List.mem_filterMap.mp member
  obtain ⟨child, inChildren, below⟩ := List.mem_flatMap.mp inNodes
  exact ⟨child, inChildren, d, List.mem_filterMap.mpr ⟨node, below, target⟩, same⟩

/-- A leaf needs no label. -/
theorem needs_nothing {e : CExpr} {text : String} (plain : e.target? = none)
    (leaf : e.children = []) : ¬ exprNeeds label e text := by
  intro need
  obtain ⟨child, member, -⟩ := needs_children label plain need
  rw [leaf] at member
  cases member

/-- A node of one child needs the labels of the child. -/
theorem needs_only {e child : CExpr} {text : String} (plain : e.target? = none)
    (only : e.children = [child]) (need : exprNeeds label e text) :
    exprNeeds label child text := by
  obtain ⟨found, member, below⟩ := needs_children label plain need
  rw [only, List.mem_singleton] at member
  exact member ▸ below

/-- A node of two children needs the labels of both. -/
theorem needs_either {e first second : CExpr} {text : String} (plain : e.target? = none)
    (two : e.children = [first, second]) (need : exprNeeds label e text) :
    exprNeeds label first text ∨ exprNeeds label second text := by
  obtain ⟨found, member, below⟩ := needs_children label plain need
  rw [two, List.mem_pair] at member
  rcases member with rfl | rfl
  · exact .inl below
  · exact .inr below

/-- The translation that labels give to an expression. -/
def shippedExpr (labels : List String) (e : CExpr) : CExpr :=
  e.translate (renumber label labels) (shippedTy interner)

/-- An expression in wire form is read as its translation. -/
def ReadsExpr (e : CExpr) : Prop :=
  Reads (exprFromWire interner (exprToWire interner (wireId interner (moduleOf label)) e))
    (fun labels => shippedExpr interner label labels e) (exprNeeds label e)

/-- Operands whose elements are read as their translations are read so. -/
theorem reads_exprs (es : List CExpr) (each : ∀ e ∈ es, ReadsExpr interner label e) :
    Reads (exprsFromWire interner (exprsToWire interner (wireId interner (moduleOf label)) es))
      (fun labels => CExpr.translateList (renumber label labels) (shippedTy interner) es)
      (fun text => ∃ e ∈ es, exprNeeds label e text) := by
  induction es with
  | nil =>
    unfold exprsToWire exprsFromWire
    exact reads_pure _ fun text none => by obtain ⟨e, member, -⟩ := none; cases member
  | cons head rest inductionHypothesis =>
    have first := each head List.mem_cons_self
    have others := inductionHypothesis fun e member => each e (List.mem_cons_of_mem _ member)
    unfold exprsToWire exprsFromWire
    refine reads_bind first (fun labels => reads_map (shippedExpr interner label labels head :: ·)
      others fun _ => id) (fun _ => rfl) ?_
    rintro text ⟨e, member, need⟩
    rcases List.mem_cons.mp member with rfl | later
    · exact .inl need
    · exact .inr ⟨e, later, need⟩

/-- Slots come back from the wire as they were. -/
theorem map_fromIndex_slot (names : List LocalId) : (names.map slot).map fromIndex = names := by
  rw [List.map_map]
  exact List.map_id names

/-- Reuse tokens come back from the wire as they were. -/
theorem map_option_slot (token : Option LocalId) : (token.map slot).map fromIndex = token := by
  cases token <;> rfl

/-- Token lists come back from the wire as they were. -/
theorem map_tokens_slot (tokens : List (Option LocalId)) :
    (tokens.map (·.map slot)).map (·.map fromIndex) = tokens := by
  rw [List.map_map]
  have each : ((·.map fromIndex) ∘ (·.map slot) : Option LocalId → Option LocalId) = id := by
    funext token
    exact map_option_slot token
  rw [each]
  exact List.map_id tokens

/-- Allocation kinds come back from the wire as they were. -/
theorem allocFromWire_toWire (alloc : ClosureAlloc) :
    allocFromWire (allocToWire alloc) = alloc := by
  cases alloc <;> rfl

/-- Field indices come back from the wire as they were. -/
theorem fieldIndexFromWire_toWire (index : FieldIndex) :
    fieldIndexFromWire (fieldIndexToWire index) = index := by
  cases index <;> rfl

/-- Every expression is read as its translation. -/
theorem reads_expr (e : CExpr) : ReadsExpr interner label e := by
  induction e using CExpr.induct with
  | lit value ty =>
    exact reads_pure _ fun _ => needs_nothing label rfl rfl
  | loc name ty =>
    exact reads_pure _ fun _ => needs_nothing label rfl rfl
  | error ty =>
    exact reads_pure _ fun _ => needs_nothing label rfl rfl
  | global target ty =>
    unfold ReadsExpr exprToWire exprFromWire
    refine reads_map (fun d => CExpr.global d (shippedTy interner ty))
      (reads_defId interner label target) ?_
    rintro text ⟨d, member, same⟩
    have only : d = target := by
      simpa [CExpr.targets, CExpr.nodes, CExpr.target?, eq_comm] using member
    rw [← same, only]
  | makeClosure func captures alloc ty =>
    unfold ReadsExpr exprToWire exprFromWire
    rw [map_fromIndex_slot, allocFromWire_toWire]
    exact reads_pure _ fun _ => needs_nothing label rfl rfl
  | prim op args ty argsHypothesis =>
    unfold ReadsExpr exprToWire exprFromWire
    exact reads_map (fun args => CExpr.prim op args (shippedTy interner ty))
      (reads_exprs interner label args argsHypothesis) fun _ => needs_children label rfl
  | foreign symbol args marshalled ty argsHypothesis =>
    unfold ReadsExpr exprToWire exprFromWire
    rw [interner.intern_text]
    exact reads_map (fun args => CExpr.foreign symbol args marshalled (shippedTy interner ty))
      (reads_exprs interner label args argsHypothesis) fun _ => needs_children label rfl
  | app func args reuse alloc ty funcHypothesis argsHypothesis =>
    unfold ReadsExpr exprToWire exprFromWire
    rw [map_tokens_slot, allocFromWire_toWire]
    refine reads_bind funcHypothesis (fun labels => reads_map
      (fun args => CExpr.app (shippedExpr interner label labels func) args reuse alloc
        (shippedTy interner ty)) (reads_exprs interner label args argsHypothesis) fun _ => id)
      (fun _ => rfl) ?_
    intro text need
    simpa [CExpr.children] using needs_children label rfl need
  | ite cond yes no ty condHypothesis yesHypothesis noHypothesis =>
    unfold ReadsExpr exprToWire exprFromWire
    refine reads_bind condHypothesis (fun labels => reads_bind yesHypothesis (fun labels' =>
      reads_map (fun no => CExpr.ite (shippedExpr interner label labels cond)
        (shippedExpr interner label labels' yes) no (shippedTy interner ty)) noHypothesis
        fun _ => id) (fun _ => rfl) fun _ => id) (fun _ => rfl) ?_
    intro text need
    simpa [CExpr.children] using needs_children label rfl need
  | letIn name value body ty valueHypothesis bodyHypothesis =>
    unfold ReadsExpr exprToWire exprFromWire
    exact reads_bind valueHypothesis (fun labels => reads_map (fun body => CExpr.letIn name
      (shippedExpr interner label labels value) body (shippedTy interner ty)) bodyHypothesis
      fun _ => id) (fun _ => rfl) fun _ => needs_either label rfl rfl
  | spread components ty componentsHypothesis =>
    unfold ReadsExpr exprToWire exprFromWire
    exact reads_map (fun components => CExpr.spread components (shippedTy interner ty))
      (reads_exprs interner label components componentsHypothesis) fun _ => needs_children label rfl
  | letMany names value body ty valueHypothesis bodyHypothesis =>
    unfold ReadsExpr exprToWire exprFromWire
    rw [map_fromIndex_slot]
    exact reads_bind valueHypothesis (fun labels => reads_map (fun body => CExpr.letMany names
      (shippedExpr interner label labels value) body (shippedTy interner ty)) bodyHypothesis
      fun _ => id) (fun _ => rfl) fun _ => needs_either label rfl rfl
  | makeData tag args reuse scalars niche ty argsHypothesis =>
    unfold ReadsExpr exprToWire exprFromWire
    rw [map_option_slot]
    exact reads_map (fun args => CExpr.makeData tag args reuse scalars niche
      (shippedTy interner ty))
      (reads_exprs interner label args argsHypothesis) fun _ => needs_children label rfl
  | dataTag base niche ty baseHypothesis =>
    unfold ReadsExpr exprToWire exprFromWire
    exact reads_map (fun base => CExpr.dataTag base niche (shippedTy interner ty)) baseHypothesis
      fun _ => needs_only label rfl rfl
  | dataField base index scalar niche ty baseHypothesis =>
    unfold ReadsExpr exprToWire exprFromWire
    rw [fieldIndexFromWire_toWire]
    exact reads_map (fun base => CExpr.dataField base index scalar niche (shippedTy interner ty))
      baseHypothesis fun _ => needs_only label rfl rfl
  | reset value token body ty valueHypothesis bodyHypothesis =>
    unfold ReadsExpr exprToWire exprFromWire
    exact reads_bind valueHypothesis (fun labels => reads_map (fun body => CExpr.reset
      (shippedExpr interner label labels value) token body (shippedTy interner ty)) bodyHypothesis
      fun _ => id) (fun _ => rfl) fun _ => needs_either label rfl rfl
  | freeReuse token body ty bodyHypothesis =>
    unfold ReadsExpr exprToWire exprFromWire
    exact reads_map (fun body => CExpr.freeReuse token body (shippedTy interner ty)) bodyHypothesis
      fun _ => needs_only label rfl rfl
  | dup name body ty bodyHypothesis =>
    unfold ReadsExpr exprToWire exprFromWire
    exact reads_map (fun body => CExpr.dup name body (shippedTy interner ty)) bodyHypothesis
      fun _ => needs_only label rfl rfl
  | drop name body ty bodyHypothesis =>
    unfold ReadsExpr exprToWire exprFromWire
    exact reads_map (fun body => CExpr.drop name body (shippedTy interner ty)) bodyHypothesis
      fun _ => needs_only label rfl rfl
  | join params body ty bodyHypothesis =>
    unfold ReadsExpr exprToWire exprFromWire
    rw [map_fromIndex_slot]
    exact reads_map (fun body => CExpr.join params body (shippedTy interner ty)) bodyHypothesis
      fun _ => needs_only label rfl rfl
  | recur args ty argsHypothesis =>
    unfold ReadsExpr exprToWire exprFromWire
    exact reads_map (fun args => CExpr.recur args (shippedTy interner ty))
      (reads_exprs interner label args argsHypothesis) fun _ => needs_children label rfl
  | holeStart hole body ty bodyHypothesis =>
    unfold ReadsExpr exprToWire exprFromWire
    exact reads_map (fun body => CExpr.holeStart hole body (shippedTy interner ty)) bodyHypothesis
      fun _ => needs_only label rfl rfl
  | holeFill hole cell field ty cellHypothesis =>
    unfold ReadsExpr exprToWire exprFromWire
    exact reads_map (fun cell => CExpr.holeFill hole cell field (shippedTy interner ty))
      cellHypothesis fun _ => needs_only label rfl rfl
  | holeClose hole base ty baseHypothesis =>
    unfold ReadsExpr exprToWire exprFromWire
    exact reads_map (fun base => CExpr.holeClose hole base (shippedTy interner ty)) baseHypothesis
      fun _ => needs_only label rfl rfl

/-- The labels a function needs. -/
def fnNeeds (fn : CoreFn) : String → Prop := exprNeeds label fn.body

/-- The translation that labels give to a function. -/
def shippedFn (labels : List String) (fn : CoreFn) : CoreFn :=
  fn.translate (renumber label labels) (shippedTy interner)

/-- A function in wire form is read as its translation. -/
theorem reads_fn (fn : CoreFn) :
    Reads (fnFromWire interner (fnToWire interner (wireId interner (moduleOf label)) fn))
      (fun labels => shippedFn interner label labels fn) (fnNeeds label fn) := by
  unfold fnToWire fnFromWire
  rw [map_fromIndex_slot, map_fromIndex_slot]
  exact reads_map (fun body => (⟨fn.params, fn.captures, body⟩ : CoreFn))
    (reads_expr interner label fn.body) fun _ => id

/-- Functions in wire form are read as their translations. -/
theorem reads_fns (fns : List CoreFn) :
    Reads (fnsFromWire interner (fns.map (fnToWire interner (wireId interner (moduleOf label)))))
      (fun labels => fns.map (shippedFn interner label labels))
      (fun text => ∃ fn ∈ fns, fnNeeds label fn text) := by
  induction fns with
  | nil =>
    exact reads_pure _ fun text none => by obtain ⟨fn, member, -⟩ := none; cases member
  | cons head rest inductionHypothesis =>
    rw [List.map_cons]
    unfold fnsFromWire
    refine reads_bind (reads_fn interner label head) (fun labels => reads_map
      (shippedFn interner label labels head :: ·) inductionHypothesis fun _ => id)
      (fun _ => rfl) ?_
    rintro text ⟨fn, member, need⟩
    rcases List.mem_cons.mp member with rfl | later
    · exact .inl need
    · exact .inr ⟨fn, later, need⟩

/-- A specialized entry in wire form is read as its translation. -/
theorem reads_entry (entry : Option CoreFn) :
    Reads (entryFromWire interner (entry.map
      (fnToWire interner (wireId interner (moduleOf label)))))
      (fun labels => entry.map (shippedFn interner label labels))
      (fun text => ∃ fn ∈ entry, fnNeeds label fn text) := by
  cases entry with
  | none => exact reads_pure _ fun text none => by obtain ⟨fn, member, -⟩ := none; cases member
  | some fn =>
    refine reads_map some (reads_fn interner label fn) ?_
    rintro text ⟨found, member, need⟩
    cases member
    exact need

/-- The translation that labels give to a definition. -/
def shippedDef (labels : List String) (d : EmitDef) : EmitDef :=
  d.translate (renumber label labels) (shippedTy interner)

/-- The labels a definition needs. -/
def defNeeds (d : EmitDef) (text : String) : Prop := ∃ id ∈ d.ids, label id.file = text

/-- The labels of a definition are its own, those of its functions and those of its specialized
entry. -/
theorem defNeeds_cases {d : EmitDef} {text : String} (need : defNeeds label d text) :
    text = label d.id.file ∨ (∃ fn ∈ d.fns, fnNeeds label fn text) ∨
      ∃ fn ∈ d.reuseEntry, fnNeeds label fn text := by
  obtain ⟨id, member, same⟩ := need
  rcases List.mem_cons.mp member with rfl | inNodes
  · exact .inl same.symm
  · obtain ⟨node, inFns, target⟩ := List.mem_filterMap.mp inNodes
    obtain ⟨fn, inAll, below⟩ := List.mem_flatMap.mp inFns
    have needed : fnNeeds label fn text := ⟨id, List.mem_filterMap.mpr ⟨node, below, target⟩, same⟩
    rcases List.mem_append.mp inAll with early | late
    · exact .inr (.inl ⟨fn, early, needed⟩)
    · exact .inr (.inr ⟨fn, Option.mem_toList.mp late, needed⟩)

/-- Shape bounds come back from the wire as they were. -/
theorem map_shapes_slot (shapes : List (List (LocalId × DataShape))) :
    (shapes.map (·.map fun (name, shape) => (slot name, shape))).map
      (·.map fun (name, shape) => (fromIndex name, shape)) = shapes := by
  rw [List.map_map]
  have each : ((·.map fun (name, shape) => (fromIndex name, shape)) ∘
      (·.map fun (name, shape) => (slot name, shape)) :
        List (LocalId × DataShape) → List (LocalId × DataShape)) = id := by
    funext row
    rw [Function.comp_apply, List.map_map]
    exact List.map_id row
  rw [each]
  exact List.map_id shapes

/-- Spread parameters come back from the wire as they were. -/
theorem map_spread_slot (spread : List (Option (List LocalId))) :
    (spread.map (·.map (·.map slot))).map (·.map (·.map fromIndex)) = spread := by
  rw [List.map_map]
  have each : ((·.map (·.map fromIndex)) ∘ (·.map (·.map slot)) :
      Option (List LocalId) → Option (List LocalId)) = id := by
    funext components
    cases components with
    | none => rfl
    | some names => exact congrArg some (map_fromIndex_slot names)
  rw [each]
  exact List.map_id spread

/-- A definition in wire form is read as its translation. -/
theorem reads_def (shipment : Shipment) :
    Reads (defFromWire interner (defToWire interner (moduleOf label) shipment))
      (fun labels => shippedDef interner label labels shipment.lowered)
      (defNeeds label shipment.lowered) := by
  obtain ⟨⟨⟨fns, borrowed, entry⟩, own, spread, shapes⟩, arity, abi, sig, before, after⟩ := shipment
  unfold defToWire defFromWire
  dsimp only
  rw [map_shapes_slot, map_spread_slot]
  refine reads_bind (reads_defId interner label own) (fun labels =>
    reads_bind (reads_fns interner label fns) (fun labels' => reads_map
      (fun entry => (⟨⟨fns.map (shippedFn interner label labels'), borrowed, entry⟩,
        renumber label labels own, spread, shapes⟩ : EmitDef))
      (reads_entry interner label entry) fun _ => id) (fun _ => rfl) fun _ => id)
    (fun _ => rfl) ?_
  exact fun _ => defNeeds_cases label

/-! ## Whole programs -/

/-- The side tables of definitions, entered in order under a renaming. -/
def collect (rename : DefId → DefId) (tables : Tables) : List Shipment → Tables
  | [] => tables
  | shipment :: rest =>
    collect rename (tables.insert (rename shipment.lowered.id) shipment.arity shipment.abi
      shipment.boundsEntry shipment.boundsResult) rest

/-- Definitions in wire form are read as their translations, with the renamed side tables. -/
theorem reads_defs (shipments : List Shipment) (tables : Tables) :
    Reads (defsFromWire interner tables (shipments.map (defToWire interner (moduleOf label))))
      (fun labels => (shipments.map fun shipment =>
          shippedDef interner label labels shipment.lowered,
        collect (renumber label labels) tables shipments))
      (fun text => ∃ shipment ∈ shipments, defNeeds label shipment.lowered text) := by
  induction shipments generalizing tables with
  | nil =>
    exact reads_pure _ fun text none => by obtain ⟨found, member, -⟩ := none; cases member
  | cons head rest inductionHypothesis =>
    rw [List.map_cons]
    unfold defsFromWire
    refine reads_bind (reads_def interner label head) (fun labels => reads_map
      (fun read : List EmitDef × Tables =>
        (shippedDef interner label labels head.lowered :: read.1, read.2))
      (inductionHypothesis _) fun _ => id) (fun _ => rfl) ?_
    rintro text ⟨shipment, member, need⟩
    rcases List.mem_cons.mp member with rfl | later
    · exact .inl need
    · exact .inr ⟨shipment, later, need⟩

/-- The definitions a program mentions. -/
def Program.ids (program : Program) : List DefId :=
  program.entry :: program.runtime :: program.defs.flatMap fun shipment => shipment.lowered.ids

/-- The types of all nodes of a program. -/
def Program.types (program : Program) : List Ty :=
  (program.defs.flatMap fun shipment => shipment.lowered.nodes).map CExpr.ty

/-- A bundle is read as the program it was made from. -/
theorem reads_bundle (program : Program) :
    Reads (readBundle interner (bundle interner (moduleOf label) program))
      (fun labels => (renumber label labels program.entry, renumber label labels program.runtime,
        program.defs.map fun shipment => shippedDef interner label labels shipment.lowered,
        collect (renumber label labels) .empty program.defs))
      (fun text => ∃ d ∈ program.ids, label d.file = text) := by
  unfold bundle readBundle
  refine reads_bind (reads_defId interner label program.entry) (fun labels =>
    reads_bind (reads_defId interner label program.runtime) (fun labels' => reads_map
      (fun read : List EmitDef × Tables => (renumber label labels program.entry,
        renumber label labels' program.runtime, read))
      (reads_defs interner label program.defs .empty) fun _ => id) (fun _ => rfl) fun _ => id)
    (fun _ => rfl) ?_
  rintro text ⟨d, member, same⟩
  rcases List.mem_cons.mp member with rfl | member
  · exact .inl same.symm
  · rcases List.mem_cons.mp member with rfl | member
    · exact .inr (.inl same.symm)
    · obtain ⟨shipment, inDefs, inIds⟩ := List.mem_flatMap.mp member
      exact .inr (.inr ⟨shipment, inDefs, d, inIds, same⟩)

/-- Two families of side tables agree on definitions under a renaming. -/
structure Agree (rename : DefId → DefId) (ids : List DefId) (renamed original : Tables) : Prop where
  /-- The parameter counts. -/
  arities : ∀ d ∈ ids, renamed.arities (rename d) = original.arities d
  /-- The calling conventions. -/
  abis : ∀ d ∈ ids, renamed.abis (rename d) = original.abis d
  /-- The entry facts. -/
  boundsEntry : ∀ d ∈ ids, renamed.boundsEntry (rename d) = original.boundsEntry d
  /-- The result facts. -/
  boundsResult : ∀ d ∈ ids, renamed.boundsResult (rename d) = original.boundsResult d

/-- Entering a value under a renaming that is one to one. -/
theorem update_rename {α : Type} {rename : DefId → DefId} {ids : List DefId}
    (injective : Set.InjOn rename {d | d ∈ ids}) {renamed original : Table α}
    (agree : ∀ d ∈ ids, renamed (rename d) = original d) {id : DefId} (member : id ∈ ids)
    (value : Option α) : ∀ d ∈ ids,
      Function.update renamed (rename id) value (rename d) =
        Function.update original id value d := by
  intro d inIds
  by_cases same : d = id
  · rw [same, Function.update_self, Function.update_self]
  · have apart : rename d ≠ rename id := fun equal => same (injective inIds member equal)
    rw [Function.update_of_ne apart, Function.update_of_ne same, agree d inIds]

/-- Tables collected under a renaming agree with the original ones. -/
theorem agree_collect {rename : DefId → DefId} {ids : List DefId}
    (injective : Set.InjOn rename {d | d ∈ ids}) :
    ∀ (shipments : List Shipment) {renamed original : Tables},
      (∀ shipment ∈ shipments, shipment.lowered.id ∈ ids) → Agree rename ids renamed original →
      Agree rename ids (collect rename renamed shipments) (collect id original shipments)
  | [], _, _, _, agree => agree
  | shipment :: rest, _, _, inside, agree => by
    have member := inside shipment List.mem_cons_self
    refine agree_collect injective rest
      (fun other later => inside other (List.mem_cons_of_mem _ later)) ?_
    exact ⟨update_rename injective agree.arities member _,
      update_rename injective agree.abis member _,
      update_rename injective agree.boundsEntry member _,
      update_rename injective agree.boundsResult member _⟩

/-- What a worker holds is the daemon's program: under one renaming of definitions, which keeps
names and is one to one, the definitions, the entry, the runtime value, the labels and the side
tables are the originals with each type replaced by its marker, the markers project to the wire
types that were shipped, and every node is dupped and dropped as on the warm path. -/
structure Faithful (program : Program) (rebuilt : Rebuilt) (rename : DefId → DefId) : Prop where
  /-- Distinct definitions stay distinct. -/
  injective : Set.InjOn rename {d | d ∈ program.ids}
  /-- Names are kept. -/
  names : ∀ d, (rename d).name = d.name
  /-- Files are renamed as a whole. -/
  files : ∀ d d', d.file = d'.file → (rename d).file = (rename d').file
  /-- The definitions. -/
  defs : rebuilt.defs =
    program.defs.map fun shipment => shipment.lowered.translate rename (shippedTy interner)
  /-- The entry. -/
  entry : rebuilt.entry = rename program.entry
  /-- The runtime value. -/
  runtime : rebuilt.runtime = rename program.runtime
  /-- The labels. -/
  labels : ∀ d ∈ program.ids, rebuilt.moduleLabels (rename d).file = some (label d.file)
  /-- The side tables. -/
  tables : Agree rename program.ids rebuilt.tables (collect id .empty program.defs)
  /-- The markers project to the shipped wire types. -/
  projected : ∀ ty ∈ program.types, projectTy (shippedTy interner ty) = projectTy ty
  /-- The worker's dup and drop strategies are those of the warm path. -/
  classes : ∀ ty ∈ program.types, Classify.dupClass (shippedTy interner ty) = Classify.dupClass ty ∧
    Classify.dropClass (shippedTy interner ty) = Classify.dropClass ty

/-- The program a worker rebuilds from what the daemon ships. -/
def shipped (program : Program) : Rebuilt :=
  fromWire interner (bundle interner (moduleOf label) program)

/-- Whenever distinct files have distinct labels, a shipped program is the original up to a
renaming of definitions and the replacement of types; the worker also classifies every node as
the warm path does exactly when no node has an applied interface for its type and no small cell
has a field of unexpected root. -/
theorem shipped_faithful_iff (program : Program)
    (distinct : Set.InjOn label {file | ∃ d ∈ program.ids, d.file = file}) :
    (∃ rename, Faithful interner label program (shipped interner label program) rename) ↔
      ∀ ty ∈ program.types, keepsClass ty = true := by
  constructor
  · rintro ⟨rename, faithful⟩ ty member
    exact (sameClass_iff interner ty).mp (faithful.classes ty member)
  · intro kept
    have reads := reads_bundle interner label program
    generalize after : (readBundle interner (bundle interner (moduleOf label) program) []).2 =
      labels at reads
    have values := reads.value [] labels (by rw [after])
    have covered : ∀ d ∈ program.ids, label d.file ∈ labels := by
      intro d member
      rw [← after]
      exact reads.covers [] _ ⟨d, member, rfl⟩
    have injective : Set.InjOn (renumber label labels) {d | d ∈ program.ids} := by
      intro d member d' member' same
      have position := congrArg DefId.file same
      have texts : label d.file = label d'.file := (List.idxOf_inj (covered d member)).mp position
      have files := distinct ⟨d, member, rfl⟩ ⟨d', member', rfl⟩ texts
      have names := congrArg DefId.name same
      cases d
      cases d'
      simp only [renumber] at files names
      rw [files, names]
    have rebuilt : shipped interner label program =
        ⟨program.defs.map fun shipment => shippedDef interner label labels shipment.lowered,
          renumber label labels program.entry, renumber label labels program.runtime,
          fun file => labels[file]?, collect (renumber label labels) .empty program.defs⟩ := by
      unfold shipped fromWire StateT.run
      rw [← Prod.mk.eta (p := readBundle interner (bundle interner (moduleOf label) program) []),
        after, values]
    refine ⟨renumber label labels, ?_⟩
    rw [rebuilt]
    exact {
      injective := injective
      names := fun _ => rfl
      files := fun d d' same => congrArg (fun file => labels.idxOf (label file)) same
      defs := rfl
      entry := rfl
      runtime := rfl
      labels := fun d member => List.getElem?_idxOf (covered d member)
      tables := agree_collect injective program.defs
        (fun shipment member => by
          refine List.mem_cons_of_mem _ (List.mem_cons_of_mem _ ?_)
          exact List.mem_flatMap.mpr ⟨shipment, member, List.mem_cons_self⟩)
        ⟨fun _ _ => rfl, fun _ _ => rfl, fun _ _ => rfl, fun _ _ => rfl⟩
      projected := fun ty _ => projectTy_shippedTy interner ty
      classes := fun ty member => (sameClass_iff interner ty).mpr (kept ty member) }

/-- A symbol table in which a symbol is written as that many strokes. -/
def strokes : Interner where
  text symbol := String.ofList (List.replicate symbol '|')
  intern text := text.length
  intern_text symbol := by simp

/-- A program of one definition that returns its parameter, of the given type. -/
def returning (ty : Ty) : Program where
  entry := ⟨0, 0⟩
  runtime := ⟨1, 0⟩
  defs := [{
    lowered := {
      fns := [⟨[0], [], .loc 0 ty⟩]
      entryBorrowed := []
      reuseEntry := none
      id := ⟨0, 0⟩
      entrySpreadParams := []
      dataShapes := [] }
    arity := 1
    abi := ⟨[], .uniform, false⟩
    reuseSig := []
    boundsEntry := ⟨[]⟩
    boundsResult := ⟨[]⟩ }]

/-- Files labelled by strokes have distinct labels. -/
theorem strokes_distinct (program : Program) :
    Set.InjOn strokes.text {file | ∃ d ∈ program.ids, d.file = file} :=
  strokes.text_injective.injOn

/-- A program of one definition on a pair of an integer and a list is shipped faithfully. -/
theorem returning_pair_faithful : ∃ rename, Faithful strokes strokes.text
    (returning (.tuple [.con .int, .app (.con .list) (.con .string)]))
    (shipped strokes strokes.text
      (returning (.tuple [.con .int, .app (.con .list) (.con .string)]))) rename := by
  apply (shipped_faithful_iff strokes strokes.text _ (strokes_distinct _)).mpr
  decide

/-- A logger for one capability: an interface applied to an effect row. -/
def appliedLogger : Ty := .app (.interface ⟨0, 1⟩) (.effectArg ⟨[⟨0, 2⟩], .closed⟩)

/-- A worker dups a shipped logger without the tag check that the warm path makes, so a program
that passes one is not classified as on the warm path, though its labels are distinct. -/
theorem applied_interface_reclassified :
    Set.InjOn strokes.text {file | ∃ d ∈ (returning appliedLogger).ids, d.file = file} ∧
      ¬ ∃ rename, Faithful strokes strokes.text (returning appliedLogger)
        (shipped strokes strokes.text (returning appliedLogger)) rename := by
  refine ⟨strokes_distinct _, ?_⟩
  rintro ⟨rename, faithful⟩
  have same := faithful.classes appliedLogger (by decide)
  have differ : Classify.dupClass (shippedTy strokes appliedLogger) ≠
      Classify.dupClass appliedLogger := by decide
  exact differ same.1

end Wire

end Fai
