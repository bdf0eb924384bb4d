import FaiVerif.Wire.FingerprintRead
import Mathlib.Algebra.Order.BigOperators.Group.List

/-!
# Completeness of the artifact-cache key

The fingerprint of a definition is read back as what code generation depends on, so two
definitions with the same fingerprint agree in it, exactly when type names are told apart. The
fingerprint writes nominal types by name alone: a name borne by a data type and by an interface,
or by a nominal type and a builtin constructor, stands for types of different wire forms.
-/

namespace Fai

namespace Wire

namespace Fingerprint

open Reading

/-! ## Side tables -/

/-- Read an optional value as `{:?}` writes it. -/
def readOption {α : Type} (item : Reader α) : Reader (Option α) := fun text =>
  match literal (str "None") text with
  | some text => some (none, text)
  | none => (((item.trail (str ")")).lead (str "Some(")).map some) text

/-- Read a slot as `{:?}` writes it. -/
def readDebugLocal : Reader Nat := (number.trail (str ")")).lead (str "LocalId(")

/-- Read a shape bound as `{:?}` writes it. -/
def readShape : Reader DataShape :=
  ((number.lead (str "DataShape \x7b max_tag: ")).pair ((number.lead (str ", max_fields: ")).pair
    ((number.lead (str ", scalars: ")).pair ((readBool.lead (str ", resource_free: ")).pair
      (((readOption number).lead (str ", boxed_tag: ")).pair
        (((readOption number).lead (str ", immediate_tag: ")).pair
          ((readBool.trail (str " \x7d")).lead (str ", always_boxed: "))))))) ).map
    fun (maxTag, maxFields, scalars, resourceFree, boxedTag, immediateTag, alwaysBoxed) =>
      ⟨maxTag, maxFields, scalars, resourceFree, boxedTag, immediateTag, alwaysBoxed⟩

/-- Read the shape bound of a local as `{:?}` writes it. -/
def readEntry : Reader (LocalId × DataShape) :=
  (readDebugLocal.pair ((readShape.trail (str ")")).lead (str ", "))).lead (str "(")

section Tables

/-- An optional value is read when the value is. -/
theorem reads_option {α : Type} {item : Reader α} {debug : α → Text} {follow : Text → Prop}
    (each : ∀ value, Recovers item (debug value) value follow)
    (closes : ∀ rest, follow (str ")" ++ rest)) (value : Option α) :
    Recovers (readOption item) (debugOption debug value) value fun _ => True := by
  intro rest _
  cases value with
  | none => simp [readOption, debugOption, str]
  | some value =>
    have read := (((each value).trail (str ")") closes).lead (str "Some(")).map some rest trivial
    have apart : literal (str "None") (debugOption debug (some value) ++ rest) = none := by
      simp [debugOption, str]
    rw [readOption, apart]
    exact read

/-- A slot is read. -/
theorem reads_debugLocal (slot : LocalId) :
    Recovers readDebugLocal (debugLocal slot) slot fun _ => True :=
  ((reads_number slot).trail (str ")") fun _ => (stops_cons _ _ _).mpr rfl).lead (str "LocalId(")

/-- The component slots of a spread parameter are read. -/
theorem reads_spread (slots : Option (List LocalId)) :
    Recovers (readOption (readList readDebugLocal)) (debugSpread slots) slots fun _ => True := by
  have each : ∀ slots : List LocalId, Recovers (readList readDebugLocal)
      (debugList (slots.map debugLocal)) slots fun _ => True := by
    intro slots
    have items : Recovers (readList readDebugLocal) (debugList (slots.map debugLocal))
        (slots.map id) fun _ => True :=
      reads_list (fun slot _ => reads_debugLocal slot) (fun _ => trivial) (fun _ => trivial)
        fun slot _ => ⟨'L', _, rfl, by decide⟩
    rwa [List.map_id] at items
  exact reads_option each (fun _ => trivial) slots

/-- A shape bound is read. -/
theorem reads_shape (shape : DataShape) :
    Recovers readShape (debugShape shape) shape fun _ => True := by
  have comma : ∀ rest, Stops Char.isDigit (',' :: rest) := fun _ => (stops_cons _ _ _).mpr rfl
  have optional := reads_option (fun n => reads_number n)
    fun _ => (stops_cons _ _ _).mpr rfl
  have always := ((reads_bool shape.alwaysBoxed).trail (str " \x7d") fun _ => trivial).lead
    (str ", always_boxed: ")
  have immediate := ((optional shape.immediateTag).lead (str ", immediate_tag: ")).pair always
    fun _ _ => trivial
  have boxed := ((optional shape.boxedTag).lead (str ", boxed_tag: ")).pair immediate
    fun _ _ => trivial
  have free := ((reads_bool shape.resourceFree).lead (str ", resource_free: ")).pair boxed
    fun _ _ => trivial
  have scalars := ((reads_number shape.scalars).lead (str ", scalars: ")).pair free
    fun _ _ => comma _
  have fields := ((reads_number shape.maxFields).lead (str ", max_fields: ")).pair scalars
    fun _ _ => comma _
  have whole := ((reads_number shape.maxTag).lead (str "DataShape \x7b max_tag: ")).pair fields
    fun _ _ => comma _
  exact whole.map _

/-- The shape bound of a local is read. -/
theorem reads_entry (entry : LocalId × DataShape) :
    Recovers readEntry (debugEntry entry) entry fun _ => True :=
  ((reads_debugLocal entry.1).pair (((reads_shape entry.2).trail (str ")") fun _ => trivial).lead
    (str ", ")) fun _ _ => trivial).lead (str "(")

end Tables

/-! ## Functions -/

/-- Read the line of a function. -/
def readFn (inner : Reader (WireExpr CalleeKey)) : Reader (WireFn CalleeKey) :=
  ((number.lead (str "fn")).pair (((readJoined (str ",") ')' readLocal).lead (str "(")).pair
    (readLocals.pair ((inner.trail (str "\n")).lead (str " = "))))).map
      fun (_, params, captures, body) => ⟨params, captures, body⟩

/-- Read the lines of a function. -/
def readFnLines (inner : Reader (WireExpr CalleeKey)) :
    Reader (List (LocalId × DataShape) × WireFn CalleeKey) :=
  ((((readList readEntry).trail (str "\n")).optional (str "data-shapes ")).pair
    (readFn inner)).map fun (shapes, fn) => (shapes.getD [], fn)

section Functions

variable {session : Session} {inner : Reader (WireExpr CalleeKey)}

/-- A line under a condition is read. -/
theorem reads_line {α : Type} {read : Reader α} {text : Text} {value : α} {follow : Text → Prop}
    (lead : Text) (written : Bool) (reads : Recovers read text value follow)
    (ends : ∀ rest, follow (str "\n" ++ rest)) :
    Recovers ((read.trail (str "\n")).optional lead) (lineIf written (lead ++ text))
      (if written then some value else none) fun rest => literal lead rest = none := by
  cases written with
  | false => exact reads_absent lead _
  | true =>
    have line := (reads.trail (str "\n") ends).present lead
    rw [← List.append_assoc] at line
    exact line.mono fun _ _ => trivial

/-- A flag's line is read. -/
theorem reads_flag (lead : Text) (written : Bool) :
    Recovers ((Reader.nothing.trail (str "\n")).optional lead) (lineIf written lead)
      (if written then some () else none) fun rest => literal lead rest = none := by
  have line := reads_line lead written reads_nothing fun _ => trivial
  rwa [List.append_nil] at line

/-- The line of a function is read. -/
theorem reads_fn (index : Nat) {fn : CoreFn} (readable : Readable session inner fn.body) :
    Recovers (readFn inner) (fnText session index fn)
      (fnToWire session.interner (calleeKey session) fn) fun _ => True := by
  have params : Recovers (readJoined (str ",") ')' readLocal)
      (joined (str ",") (fn.params.map localText) ++ [')']) (fn.params.map id) fun _ => True :=
    reads_joined (fun slot _ => reads_local slot) (fun _ => (stops_cons _ _ _).mpr rfl)
      (fun _ => (stops_cons _ _ _).mpr rfl) (fun _ => rfl) (by decide)
      fun slot _ => ⟨'%', _, rfl, by decide⟩
  have body := (readable.trail (str "\n")
    fun rest => typeEnds_cons rest rfl (by decide)).lead (str " = ")
  have captured := (reads_locals fn.captures).pair body fun _ _ => trivial
  have applied := (params.lead (str "(")).pair captured fun _ _ => trivial
  have whole := ((reads_number index).lead (str "fn")).pair applied
    fun _ _ => (stops_cons _ _ _).mpr rfl
  have read := whole.map fun (_, params, captures, body) =>
    (⟨params, captures, body⟩ : WireFn CalleeKey)
  have slots : fn.captures.map slot = fn.captures := List.map_id fn.captures
  rw [fnToWire, slots]
  exact read

/-- The lines of a function are read. -/
theorem reads_fnLines (d : EmitDef) (index : Nat) {fn : CoreFn}
    (readable : Readable session inner fn.body) :
    Recovers (readFnLines inner) (fnLines session d index fn)
      (shapesAt d index, fnToWire session.interner (calleeKey session) fn) fun _ => True := by
  have entries : Recovers (readList readEntry) (debugList ((shapesAt d index).map debugEntry))
      ((shapesAt d index).map id) fun _ => True :=
    reads_list (fun entry _ => reads_entry entry) (fun _ => trivial) (fun _ => trivial)
      fun entry _ => ⟨'(', _, rfl, by decide⟩
  rw [List.map_id] at entries
  have parts := (reads_line (str "data-shapes ") (!(shapesAt d index).isEmpty) entries
    fun _ => trivial).pair (reads_fn index readable) fun _ _ => rfl
  have read := parts.map fun (shapes, fn) => (shapes.getD [], fn)
  have shown : (if (!(shapesAt d index).isEmpty) = true then some (shapesAt d index)
      else none).getD [] = shapesAt d index := by
    cases shapesAt d index <;> rfl
  simp only [shown] at read
  exact read

/-- A function's lines begin with a letter of no line before them. -/
theorem fnLines_opens (session : Session) (d : EmitDef) (index : Nat) (fn : CoreFn) :
    ∃ c more, fnLines session d index fn = c :: more ∧ (c = 'd' ∨ c = 'f') := by
  unfold fnLines
  cases shapesAt d index with
  | nil => exact ⟨'f', _, rfl, Or.inr rfl⟩
  | cons entry entries => exact ⟨'d', _, rfl, Or.inl rfl⟩

end Functions

/-! ## Definitions -/

/-- What the fingerprint of a definition says. -/
structure KeyContent where
  /-- The definition's backend symbol. -/
  symbol : Text
  /-- Its parameter count. -/
  arity : Nat
  /-- Its borrowed parameters, when there are any. -/
  borrowed : Option (List Bool)
  /-- Whether its lambdas are exported. -/
  exported : Option Unit
  /-- Its spread parameters, when there are any. -/
  spread : Option (List (Option (List LocalId)))
  /-- Whether it takes arguments in registers. -/
  register : Option Unit
  /-- Its representations, when they are not uniform. -/
  shape : Option (List NativeRepr × NativeRepr)
  /-- Its functions with their shape bounds. -/
  fns : List (List (LocalId × DataShape) × WireFn CalleeKey)

/-- Read a fingerprint. -/
def readKey (conventions : Nat) (inner : Reader (WireExpr CalleeKey)) : Reader KeyContent :=
  (((token symbolChar).lead (str "def ")).pair (((number.trail (str "\n")).lead (str "/")).pair
    ((((readList readBool).trail (str "\n")).optional (str "borrow ")).pair
      (((Reader.nothing.trail (str "\n")).optional (str "export-lambdas")).pair
        ((((readList (readOption (readList readDebugLocal))).trail (str "\n")).optional
            (str "spread-params ")).pair
          (((Reader.nothing.trail (str "\n")).optional (str "regabi")).pair
            ((((readAbi conventions).trail (str "\n")).optional (str "abi ")).pair
              (repeated (fun text => !text.isEmpty) (readFnLines inner)))))))) ).map
    fun (symbol, arity, borrowed, exported, spread, register, shape, fns) =>
      ⟨symbol, arity, borrowed, exported, spread, register, shape, fns⟩

/-- What the fingerprint of a definition in a session says. -/
def keyContent (session : Session) (d : EmitDef) : KeyContent where
  symbol := session.namer d.id
  arity := session.arityOf d.id
  borrowed := if borrowsAny d then some d.entryBorrowed else none
  exported := if d.reuseEntry.isSome then some () else none
  spread := if d.entrySpreadParams.any Option.isSome then some d.entrySpreadParams else none
  register := if (session.abiOf d.id).registerAbi then some () else none
  shape := if (!(session.abiOf d.id).isUniform) = true then
    some ((session.abiOf d.id).params, (session.abiOf d.id).ret) else none
  fns := d.fns.mapIdx fun index fn =>
    (shapesAt d index, fnToWire session.interner (calleeKey session) fn)

section Definitions

variable {session : Session} {inner : Reader (WireExpr CalleeKey)} {conventions : Nat}

/-- The lines of the functions are read. -/
theorem reads_fns (d : EmitDef) (each : ∀ fn ∈ d.fns, Readable session inner fn.body) :
    Recovers (repeated (fun text => !text.isEmpty) (readFnLines inner))
      (d.fns.mapIdx (fnLines session d)).flatten
      (d.fns.mapIdx fun index fn =>
        (shapesAt d index, fnToWire session.interner (calleeKey session) fn)) (· = []) := by
  rw [List.mapIdx_eq_zipIdx_map, List.mapIdx_eq_zipIdx_map, ← List.flatMap_def]
  have lines : ∀ entry ∈ d.fns.zipIdx, Recovers (readFnLines inner)
      (fnLines session d entry.2 entry.1)
      (shapesAt d entry.2, fnToWire session.interner (calleeKey session) entry.1)
      fun _ => True := fun entry member =>
    reads_fnLines d entry.2 (each entry.1 (List.fst_mem_of_mem_zipIdx member))
  refine reads_repeated lines ?_ (fun _ _ _ => trivial) (fun _ _ => trivial) ?_ ?_
  · rintro ⟨fn, index⟩ _ rest
    obtain ⟨c, more, text, _⟩ := fnLines_opens session d index fn
    show (!List.isEmpty (fnLines session d index fn ++ rest)) = true
    rw [text]
    rfl
  · rintro _ rfl
    rfl
  · rintro ⟨fn, index⟩ _ nothing
    obtain ⟨c, more, text, _⟩ := fnLines_opens session d index fn
    have empty : fnLines session d index fn = [] := nothing
    rw [empty] at text
    cases text

/-- A lead that differs in its first letter from those of the functions is not there. -/
theorem apart_fns (d : EmitDef) {lead : Text} (other : ∀ more, literal lead ('d' :: more) = none)
    (fn : ∀ more, literal lead ('f' :: more) = none) (last : literal lead [] = none) :
    literal lead ((d.fns.mapIdx (fnLines session d)).flatten ++ []) = none := by
  rw [List.append_nil]
  cases fns : d.fns with
  | nil => exact last
  | cons head rest =>
    obtain ⟨c, more, text, first⟩ := fnLines_opens session d 0 head
    rw [List.mapIdx_cons, List.flatten_cons, text, List.cons_append]
    rcases first with rfl | rfl
    · exact other _
    · exact fn _

/-- A lead that differs from a line is not there before the line. -/
theorem apart_line {lead line rest : Text} {written : Bool}
    (apart : ∀ more, literal lead (line ++ more) = none) (last : literal lead rest = none) :
    literal lead (lineIf written line ++ rest) = none := by
  cases written with
  | false => exact last
  | true =>
    rw [lineIf, if_pos rfl, List.append_assoc]
    exact apart _

/-- A fingerprint is read back. -/
theorem reads_key (d : EmitDef) (each : ∀ fn ∈ d.fns, Readable session inner fn.body)
    (known : abiSize (session.abiOf d.id) ≤ conventions) :
    Recovers (readKey conventions inner) (fingerprintDef session d) (keyContent session d)
      (· = []) := by
  have flags : Recovers (readList readBool) (debugList (d.entryBorrowed.map boolText))
      (d.entryBorrowed.map id) fun _ => True := by
    refine reads_list (fun flag _ => reads_bool flag) (fun _ => trivial) (fun _ => trivial) ?_
    intro flag _
    cases flag
    · exact ⟨'f', _, rfl, by decide⟩
    · exact ⟨'t', _, rfl, by decide⟩
  have spreads : Recovers (readList (readOption (readList readDebugLocal)))
      (debugList (d.entrySpreadParams.map debugSpread)) (d.entrySpreadParams.map id)
      fun _ => True := by
    refine reads_list (fun slots _ => reads_spread slots) (fun _ => trivial) (fun _ => trivial) ?_
    intro slots _
    cases slots
    · exact ⟨'N', _, rfl, by decide⟩
    · exact ⟨'S', _, rfl, by decide⟩
  rw [List.map_id] at flags spreads
  have fns := reads_fns d each
  have abi := (reads_line (str "abi ") (!(session.abiOf d.id).isUniform) (reads_abi known)
    fun _ => trivial).pair fns fun rest last => by
      subst last
      exact apart_fns d (fun _ => rfl) (fun _ => rfl) rfl
  have register := (reads_flag (str "regabi") (session.abiOf d.id).registerAbi).pair abi
    fun rest last => by
      subst last
      rw [List.append_assoc]
      exact apart_line (fun _ => rfl) (apart_fns d (fun _ => rfl) (fun _ => rfl) rfl)
  have spread := (reads_line (str "spread-params ") (d.entrySpreadParams.any Option.isSome)
    spreads fun _ => trivial).pair register fun rest last => by
      subst last
      rw [List.append_assoc, List.append_assoc]
      exact apart_line (fun _ => rfl) (apart_line (fun _ => rfl)
        (apart_fns d (fun _ => rfl) (fun _ => rfl) rfl))
  have exported := (reads_flag (str "export-lambdas") d.reuseEntry.isSome).pair spread
    fun rest last => by
      subst last
      rw [List.append_assoc, List.append_assoc, List.append_assoc]
      exact apart_line (fun _ => rfl) (apart_line (fun _ => rfl) (apart_line (fun _ => rfl)
        (apart_fns d (fun _ => rfl) (fun _ => rfl) rfl)))
  have borrowed := (reads_line (str "borrow ") (borrowsAny d) flags fun _ => trivial).pair exported
    fun rest last => by
      subst last
      rw [List.append_assoc, List.append_assoc, List.append_assoc, List.append_assoc]
      exact apart_line (fun _ => rfl) (apart_line (fun _ => rfl) (apart_line (fun _ => rfl)
        (apart_line (fun _ => rfl) (apart_fns d (fun _ => rfl) (fun _ => rfl) rfl))))
  have arity := (((reads_number (session.arityOf d.id)).trail (str "\n")
    fun _ => (stops_cons _ _ _).mpr rfl).lead (str "/")).pair borrowed fun _ _ => trivial
  have whole := ((reads_token (session.namer_mangled d.id)).lead (str "def ")).pair arity
    fun _ _ => (stops_cons _ _ _).mpr rfl
  exact whole.map _

end Definitions

/-! ## Agreement -/

/-- Two definitions agree in what code generation is given of them: their backend symbol, arity and
calling convention, their functions with the wire form of every node and with what is known of
every definition referred to, and their side tables as code generation looks them up. -/
structure Agree (session session' : Session) (d d' : EmitDef) : Prop where
  /-- The symbol, the arity and the calling convention. -/
  key : calleeKey session d.id = calleeKey session' d'.id
  /-- The functions in wire form. -/
  fns : d.fns.map (fnToWire session.interner (calleeKey session)) =
    d'.fns.map (fnToWire session'.interner (calleeKey session'))
  /-- The borrow flags. -/
  borrowed : ∀ index, d.entryParamBorrowed index = d'.entryParamBorrowed index
  /-- Whether the lifted functions are exported to a specialized entry. -/
  exported : d.reuseEntry.isSome = d'.reuseEntry.isSome
  /-- The component slots of spread parameters. -/
  spread : ∀ index, d.entrySpreadParams.getD index none = d'.entrySpreadParams.getD index none
  /-- The shape bounds of the locals of each function. -/
  shapes : ∀ index < d.fns.length, shapesAt d index = shapesAt d' index

/-- A definition over the names. -/
def DefWritten (naming : Naming) (session : Session) (d : EmitDef) : Prop :=
  ∀ fn ∈ d.fns, Written naming session fn.body

/-- Every name belongs to a builtin constructor, to data types or to interfaces, and to only one of
these. -/
def Unambiguous (naming : Naming) : Prop :=
  (∀ c, ¬ naming.adt (conText c) ∧ ¬ naming.interface (conText c)) ∧
    ∀ name, ¬ (naming.adt name ∧ naming.interface name)

/-- Builtin constructors have different names. -/
theorem conText_injective : Function.Injective conText := by
  intro c c' same
  cases c <;> cases c' <;> first | rfl | exact absurd same (by decide)

open Classical in
/-- What bears a name. -/
noncomputable def bearer (naming : Naming) (name : Text) : Ty :=
  if builtin : ∃ c, conText c = name then .con builtin.choose
  else if naming.interface name then .interface ⟨0, 0⟩
  else .adt ⟨0, 0⟩

/-- Unambiguous names are told apart. -/
theorem recognizes_bearer {naming : Naming} (unambiguous : Unambiguous naming) :
    Recognizes naming (bearer naming) where
  con c := by
    have builtin : ∃ c', conText c' = conText c := ⟨c, rfl⟩
    rw [bearer, dif_pos builtin, conText_injective builtin.choose_spec]
  adt name isAdt := by
    have builtin : ¬ ∃ c, conText c = name := by
      rintro ⟨c, rfl⟩
      exact (unambiguous.1 c).1 isAdt
    rw [bearer, dif_neg builtin, if_neg fun isInterface => unambiguous.2 name ⟨isAdt, isInterface⟩]
  interface name isInterface := by
    have builtin : ¬ ∃ c, conText c = name := by
      rintro ⟨c, rfl⟩
      exact (unambiguous.1 c).2 isInterface
    rw [bearer, dif_neg builtin, if_pos isInterface]

/-- A table that is shown when an entry differs from the default is known at every index. -/
theorem getD_of_shown {α : Type} {shown : α → Bool} {default : α}
    (hidden : ∀ entry, shown entry = false → entry = default) {table table' : List α}
    (same : (if table.any shown then some table else none) =
      if table'.any shown then some table' else none) (index : Nat) :
    table.getD index default = table'.getD index default := by
  have allHidden : ∀ table : List α, ¬ table.any shown = true →
      table.getD index default = default := by
    intro table none
    rw [List.getD_eq_getElem?_getD]
    cases found : table[index]? with
    | none => rfl
    | some entry =>
      refine hidden entry ?_
      by_contra seen
      exact none (List.any_eq_true.mpr ⟨entry, List.mem_of_getElem? found, by simpa using seen⟩)
  by_cases first : table.any shown = true
  · by_cases second : table'.any shown = true
    · rw [if_pos first, if_pos second, Option.some.injEq] at same
      rw [same]
    · rw [if_pos first, if_neg second] at same
      cases same
  · by_cases second : table'.any shown = true
    · rw [if_neg first, if_pos second] at same
      cases same
    · rw [allHidden table first, allHidden table' second]

/-- Definitions whose fingerprints say the same agree. -/
theorem Agree.of_content {session session' : Session} {d d' : EmitDef}
    (same : keyContent session d = keyContent session' d') : Agree session session' d d' := by
  simp only [keyContent, KeyContent.mk.injEq] at same
  obtain ⟨symbol, arity, borrowed, exported, spread, register, shape, fns⟩ := same
  have flag : ∀ b b' : Bool, (if b then some () else none) = (if b' then some () else none) →
      b = b' := by
    intro b b' equal
    cases b <;> cases b' <;> first | rfl | cases equal
  have shown : ∀ abi : FnAbi, (if (!abi.isUniform) = true then some (abi.params, abi.ret)
      else none) = abiShape abi := by
    intro abi
    unfold abiShape
    cases abi.isUniform <;> rfl
  have entry : ∀ index, (d.fns[index]?).map (fun fn => (shapesAt d index,
      fnToWire session.interner (calleeKey session) fn)) = (d'.fns[index]?).map fun fn =>
        (shapesAt d' index, fnToWire session'.interner (calleeKey session') fn) := by
    intro index
    have at_index := congrArg (·[index]?) fns
    simpa only [List.getElem?_mapIdx] using at_index
  constructor
  · rw [shown, shown] at shape
    rw [calleeKey, calleeKey, symbol, arity, flag _ _ register, shape]
  · refine List.ext_getElem? fun index => ?_
    have functions := congrArg (Option.map Prod.snd) (entry index)
    simpa only [Option.map_map, Function.comp_def, List.getElem?_map] using functions
  · exact getD_of_shown (fun _ => id) borrowed
  · exact flag _ _ exported
  · refine getD_of_shown ?_ spread
    intro slots isNone
    cases slots with
    | none => rfl
    | some _ => cases isNone
  · intro index within
    have tables := congrArg (Option.map Prod.fst) (entry index)
    rw [List.getElem?_eq_getElem within] at tables
    cases other : d'.fns[index]? with
    | none =>
      rw [other] at tables
      cases tables
    | some fn =>
      rw [other] at tables
      exact Option.some.inj tables

/-! ## Completeness -/

/-- What bounds the conventions of the definitions a list refers to. -/
noncomputable def conventionsOf (session : Session) (ids : List DefId) : Nat :=
  (ids.map fun id => abiSize (session.abiOf id)).sum

/-- Every convention of the list is within the bound. -/
theorem le_conventionsOf {session : Session} {ids : List DefId} {id : DefId} (member : id ∈ ids) :
    abiSize (session.abiOf id) ≤ conventionsOf session ids :=
  List.le_sum_of_mem (List.mem_map_of_mem member)

/-- What bounds the bodies of a definition. -/
noncomputable def bodySize (d : EmitDef) : Nat := (d.fns.map fun fn => sizeOf fn.body).sum

/-- Every body is within the bound. -/
theorem le_bodySize {d : EmitDef} {fn : CoreFn} (member : fn ∈ d.fns) :
    sizeOf fn.body ≤ bodySize d :=
  List.le_sum_of_mem (List.mem_map_of_mem member)

/-- A fingerprint over unambiguous names is read back when there is fuel for it. -/
theorem reads_fingerprint {naming : Naming} {session : Session} (unambiguous : Unambiguous naming)
    {d : EmitDef} (written : DefWritten naming session d) {conventions fuel : Nat}
    (known : conventionsOf session d.ids ≤ conventions) (small : bodySize d ≤ fuel) :
    Recovers (readKey conventions (readExpr (bearer naming) conventions fuel))
      (fingerprintDef session d) (keyContent session d) (· = []) := by
  have within : ∀ id ∈ d.ids, abiSize (session.abiOf id) ≤ conventions :=
    fun id member => (le_conventionsOf member).trans known
  refine reads_key d (fun fn member => ?_) (within d.id List.mem_cons_self)
  refine readable_expr (recognizes_bearer unambiguous) fuel fn.body
    ((le_bodySize member).trans small)
    (written fn member) fun id target => within id ?_
  rw [CExpr.targets, List.mem_filterMap] at target
  obtain ⟨node, inside, refers⟩ := target
  refine List.mem_cons_of_mem _ (List.mem_filterMap.mpr ⟨node, ?_, refers⟩)
  exact List.mem_flatMap.mpr ⟨fn, List.mem_append_left _ member, inside⟩

/-- Over unambiguous names, the same fingerprint is that of definitions that agree. -/
theorem agree_of_fingerprint {naming : Naming} (unambiguous : Unambiguous naming)
    {session session' : Session} {d d' : EmitDef} (written : DefWritten naming session d)
    (written' : DefWritten naming session' d')
    (same : fingerprintDef session d = fingerprintDef session' d') :
    Agree session session' d d' := by
  have left := reads_fingerprint unambiguous written
    (Nat.le_add_right (conventionsOf session d.ids) (conventionsOf session' d'.ids))
    (Nat.le_add_right (bodySize d) (bodySize d'))
  have right := reads_fingerprint unambiguous written'
    (Nat.le_add_left (conventionsOf session' d'.ids) (conventionsOf session d.ids))
    (Nat.le_add_left (bodySize d') (bodySize d))
  rw [same] at left
  exact Agree.of_content (left.unique right rfl)

/-! ## Ambiguous names -/

/-- A symbol table with a given text for the symbol zero. -/
def nameInterner (name : String) : Interner where
  text symbol := if symbol = 0 then name
    else String.ofList (List.replicate (name.length + symbol) 'x')
  intern text := if text = name then 0 else text.length - name.length
  intern_text symbol := by
    by_cases zero : symbol = 0
    · rw [if_pos zero, if_pos rfl, zero]
    · have size : (String.ofList (List.replicate (name.length + symbol) 'x')).length =
          name.length + symbol := by
        rw [String.length_ofList, List.length_replicate]
      have apart : String.ofList (List.replicate (name.length + symbol) 'x') ≠ name := by
        intro same
        rw [same] at size
        exact zero (Nat.left_eq_add.mp size)
      rw [if_neg zero, if_neg apart, size]
      exact Nat.add_sub_cancel_left _ _

/-- Every name is the text of a symbol of some table. -/
theorem exists_nameText (name : Text) : ∃ interner, nameText interner 0 = name :=
  ⟨nameInterner (String.ofList name), String.toList_ofList⟩

/-- A session that knows every definition as a function of one word. -/
def wordSession (interner : Interner) : Session where
  interner := interner
  namer _ := []
  arityOf _ := 1
  abiOf _ := ⟨[.uniform], .uniform, true⟩
  namer_mangled _ _ member := by cases member

/-- A definition that returns its parameter. -/
def returnDef (ty : Ty) : EmitDef where
  id := ⟨0, 0⟩
  fns := [⟨[0], [], .loc 0 ty⟩]
  entryBorrowed := []
  reuseEntry := none
  entrySpreadParams := []
  dataShapes := []

/-- The definition is over the names of its type. -/
theorem defWritten_returnDef {naming : Naming} {interner : Interner} {ty : Ty}
    (spelled : Spelled naming interner ty) :
    DefWritten naming (wordSession interner) (returnDef ty) := by
  intro fn member node inside
  rw [returnDef, List.mem_singleton] at member
  subst member
  rw [CExpr.nodes, List.mem_singleton] at inside
  subst inside
  exact ⟨trivial, spelled⟩

/-- Where fingerprints are complete, types with the same text have the same wire form. -/
theorem projectTy_of_complete {naming : Naming}
    (complete : ∀ (session session' : Session) (d d' : EmitDef), DefWritten naming session d →
      DefWritten naming session' d' → fingerprintDef session d = fingerprintDef session' d' →
      Agree session session' d d') {interner : Interner} {ty ty' : Ty}
    (spelled : Spelled naming interner ty) (spelled' : Spelled naming interner ty')
    (same : renderCanonical interner ty = renderCanonical interner ty') :
    projectTy ty = projectTy ty' := by
  have printed : fingerprintDef (wordSession interner) (returnDef ty) =
      fingerprintDef (wordSession interner) (returnDef ty') := by
    have body : writeExpr (wordSession interner) (.loc 0 ty) =
        writeExpr (wordSession interner) (.loc 0 ty') := by
      have text : (wordSession interner).interner = interner := rfl
      rw [writeExpr, writeExpr, typed, typed, text, same]
    have line : fnText (wordSession interner) 0 ⟨[0], [], .loc 0 ty⟩ =
        fnText (wordSession interner) 0 ⟨[0], [], .loc 0 ty'⟩ := by
      rw [fnText, fnText, body]
    have lines : ∀ ty, ((returnDef ty).fns.mapIdx (fnLines (wordSession interner)
        (returnDef ty))).flatten = fnText (wordSession interner) 0 ⟨[0], [], .loc 0 ty⟩ ++ [] :=
      fun ty => rfl
    rw [fingerprintDef, fingerprintDef, lines ty, lines ty', line]
    rfl
  have agreed := complete _ _ _ _ (defWritten_returnDef spelled) (defWritten_returnDef spelled')
    printed
  have bodies := agreed.fns
  simp only [returnDef, List.map_cons, List.map_nil, fnToWire, exprToWire, List.cons.injEq,
    WireFn.mk.injEq, WireExpr.loc.injEq] at bodies
  exact bodies.1.2.2.2

/-- Definitions over the names that have the same fingerprint agree exactly when the names are
unambiguous. -/
theorem fingerprint_complete_iff (naming : Naming) :
    (∀ (session session' : Session) (d d' : EmitDef), DefWritten naming session d →
      DefWritten naming session' d' → fingerprintDef session d = fingerprintDef session' d' →
      Agree session session' d d') ↔ Unambiguous naming := by
  constructor
  · intro complete
    have nominal : ∀ name, ∃ interner, nameText interner 0 = name ∧
        renderCanonical interner (.adt ⟨0, 0⟩) = name ∧
        renderCanonical interner (.interface ⟨0, 0⟩) = name := by
      intro name
      obtain ⟨interner, text⟩ := exists_nameText name
      exact ⟨interner, text, by rw [renderCanonical, writeTy, text],
        by rw [renderCanonical, writeTy, text]⟩
    have builtin : ∀ interner c, renderCanonical interner (.con c) = conText c :=
      fun interner c => by rw [renderCanonical, writeTy]
    refine ⟨fun c => ⟨fun isAdt => ?_, fun isInterface => ?_⟩, ?_⟩
    · obtain ⟨interner, text, adt, _⟩ := nominal (conText c)
      have spelled : Spelled naming interner (.adt ⟨0, 0⟩) := by rwa [Spelled, text]
      have equal : projectTy (.con c) = projectTy (.adt ⟨0, 0⟩) :=
        projectTy_of_complete complete trivial spelled (by rw [builtin, adt])
      cases c <;> cases equal
    · obtain ⟨interner, text, _, interface⟩ := nominal (conText c)
      have spelled : Spelled naming interner (.interface ⟨0, 0⟩) := by rwa [Spelled, text]
      have equal : projectTy (.con c) = projectTy (.interface ⟨0, 0⟩) :=
        projectTy_of_complete complete trivial spelled (by rw [builtin, interface])
      cases c <;> cases equal
    · rintro name ⟨isAdt, isInterface⟩
      obtain ⟨interner, text, adt, interface⟩ := nominal name
      have spelled : Spelled naming interner (.adt ⟨0, 0⟩) := by rwa [Spelled, text]
      have spelled' : Spelled naming interner (.interface ⟨0, 0⟩) := by rwa [Spelled, text]
      have equal := projectTy_of_complete complete spelled spelled' (by rw [adt, interface])
      cases equal
  · intro unambiguous session session' d d' written written' same
    exact agree_of_fingerprint unambiguous written written' same

/-- The names of a module that declares `Shape` as a data type and then as an interface. -/
def shapeNaming : Naming where
  adt name := name = str "Shape"
  interface name := name = str "Shape"
  adt_upper _ same := same ▸ ⟨'S', str "hape", rfl, rfl, List.all_eq_true.mp rfl⟩
  interface_upper _ same := same ▸ ⟨'S', str "hape", rfl, rfl, List.all_eq_true.mp rfl⟩

/-- The definition `pair s = (s, s)` at a type of its parameter. -/
def pairDef (shape : Ty) : EmitDef where
  id := ⟨0, 0⟩
  fns := [⟨[0], [], .dup 0 (.makeData 0 [.loc 0 shape, .loc 0 shape] none 0 none
    (.tuple [shape, shape])) (.tuple [shape, shape])⟩]
  entryBorrowed := []
  reuseEntry := none
  entrySpreadParams := []
  dataShapes := []

/-- When `Shape` turns from a data type into an interface, `pair` keeps its fingerprint while its
nodes change their wire form. -/
theorem shape_keeps_fingerprint :
    DefWritten shapeNaming (wordSession (nameInterner "Shape")) (pairDef (.adt ⟨0, 0⟩)) ∧
      DefWritten shapeNaming (wordSession (nameInterner "Shape")) (pairDef (.interface ⟨0, 0⟩)) ∧
      fingerprintDef (wordSession (nameInterner "Shape")) (pairDef (.adt ⟨0, 0⟩)) =
        fingerprintDef (wordSession (nameInterner "Shape")) (pairDef (.interface ⟨0, 0⟩)) ∧
      ¬ Agree (wordSession (nameInterner "Shape")) (wordSession (nameInterner "Shape"))
        (pairDef (.adt ⟨0, 0⟩)) (pairDef (.interface ⟨0, 0⟩)) := by
  have written : ∀ shape, Spelled shapeNaming (nameInterner "Shape") shape →
      DefWritten shapeNaming (wordSession (nameInterner "Shape")) (pairDef shape) := by
    intro shape spelled fn member node inside
    have pair : Spelled shapeNaming (nameInterner "Shape") (.tuple [shape, shape]) :=
      ⟨Nat.le_refl 2, spelled, spelled, trivial⟩
    rw [pairDef, List.mem_singleton] at member
    subst member
    simp only [CExpr.nodes, CExpr.nodesList, List.append_nil, List.mem_cons, List.mem_append,
      List.not_mem_nil, or_false] at inside
    rcases inside with rfl | rfl | rfl | rfl
    · exact ⟨trivial, pair⟩
    · exact ⟨trivial, pair⟩
    · exact ⟨trivial, spelled⟩
    · exact ⟨trivial, spelled⟩
  refine ⟨written _ rfl, written _ rfl, rfl, fun agreed => ?_⟩
  have bodies := agreed.fns
  simp [pairDef, fnToWire, exprToWire, exprsToWire, projectTy, projectTys] at bodies

end Fingerprint

end Wire

end Fai
