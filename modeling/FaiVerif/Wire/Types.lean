import FaiVerif.Codegen.Classify
import FaiVerif.Core.Emit

/-!
# Types on the wire

The projection of a type that a worker is shipped, and the marker type it rebuilds from it. The
projection drops nominal identity, record labels and arrow operands; projecting a rebuilt type
gives the same wire type again. A rebuilt type has the dup and drop strategies of the original
unless the original is an applied interface, whose application the classifier looks through and
the projection does not, or a small cell with a field that applies something no value type is
headed by.
-/

namespace Fai

/-- A type in wire form, `WireTy`. -/
inductive WireTy where
  | var | error | unit | int | float | bool | str | bytes | char
  | tuple (elems : List WireTy)
  | record (fields : List WireTy) (closed : Bool)
  | list
  | scalarList (element : WireTy)
  | array
  | adt
  | interface
  | arrow
  | leafArray (element : WireTy)

namespace Wire

/-- The primitive elements for which a list keeps its element on the wire. -/
def scalarElement : Ty → Bool
  | .unit | .con .int | .con .float | .con .bool | .con .char => true
  | _ => false

/-- A list of primitive elements. -/
def isScalarList : Ty → Bool
  | .app (.con .list) element => scalarElement element
  | _ => false

/-- `project_app_head`. -/
def projectAppHead : Ty → WireTy
  | .con .list => .list
  | .con .array => .array
  | .adt _ => .adt
  | .interface _ => .interface
  | .app inner _ => projectAppHead inner
  | _ => .var

mutual

/-- `project_ty`. -/
def projectTy : Ty → WireTy
  | .var _ => .var
  | .error => .error
  | .unit => .unit
  | .con .int => .int
  | .con .float => .float
  | .con .bool => .bool
  | .con .string => .str
  | .con .bytes => .bytes
  | .con .char => .char
  | .con .list => .list
  | .con .array => .array
  | .adt _ => .adt
  | .interface _ => .interface
  | .effectArg _ => .var
  | .arrow _ _ _ => .arrow
  | .tuple elems => .tuple (projectTys elems)
  | .record fields tail => .record (projectFields fields) (tail == .closed)
  | .app head element =>
    if isScalarList (.app head element) then .scalarList (projectTy element)
    else if (Ty.app head element).referenceFreeArray then .leafArray (projectTy element)
    else projectAppHead head

/-- The projected components of a tuple. -/
def projectTys : List Ty → List WireTy
  | [] => []
  | head :: rest => projectTy head :: projectTys rest

/-- The projected fields of a record, in layout order. -/
def projectFields : List (Symbol × Ty) → List WireTy
  | [] => []
  | (_, head) :: rest => projectTy head :: projectFields rest

end

/-- The marker of nominal types: file zero and a reserved name. -/
def marker (interner : Interner) (name : String) : NominalRef := ⟨0, interner.intern name⟩

/-- The pure effect of a marker arrow. -/
def pureEffect : EffectRow := ⟨[], .closed⟩

mutual

/-- `reconstruct_ty`. -/
def reconstructTy (interner : Interner) : WireTy → Ty
  | .var => .var 0
  | .error => .error
  | .unit => .unit
  | .int => .con .int
  | .float => .con .float
  | .bool => .con .bool
  | .str => .con .string
  | .bytes => .con .bytes
  | .char => .con .char
  | .tuple elems => .tuple (reconstructTys interner elems)
  | .record fields closed =>
    .record (reconstructFields interner 0 fields) (if closed then .closed else .open 0)
  | .list => .app (.con .list) .error
  | .scalarList element => .app (.con .list) (reconstructTy interner element)
  | .array => .app (.con .array) .error
  | .leafArray element => .app (.con .array) (reconstructTy interner element)
  | .adt => .adt (marker interner "_Adt")
  | .interface => .interface (marker interner "_Interface")
  | .arrow => .arrow .error .error pureEffect

/-- The marker components of a tuple. -/
def reconstructTys (interner : Interner) : List WireTy → List Ty
  | [] => []
  | head :: rest => reconstructTy interner head :: reconstructTys interner rest

/-- The marker fields of a record, labelled by position. -/
def reconstructFields (interner : Interner) (position : Nat) : List WireTy → List (Symbol × Ty)
  | [] => []
  | head :: rest =>
    (interner.intern s!"_{position}", reconstructTy interner head) ::
      reconstructFields interner (position + 1) rest

end

variable (interner : Interner)

/-- The type a worker sees for a type that was shipped. -/
def shippedTy (ty : Ty) : Ty := reconstructTy interner (projectTy ty)

/-- An applied head is rebuilt as a type of the same wire form. -/
theorem projectTy_appHead (head : Ty) :
    projectTy (reconstructTy interner (projectAppHead head)) = projectAppHead head := by
  fun_induction projectAppHead head with
  | case5 _ _ inductionHypothesis => exact inductionHypothesis
  | _ => rfl

/-- The element of a scalar list is a primitive, and is rebuilt as itself. -/
theorem shippedTy_scalar {element : Ty} (scalar : scalarElement element = true) :
    shippedTy interner element = element := by
  unfold scalarElement at scalar
  split at scalar
  all_goals first | rfl | cases scalar

/-- The shape of an application that is no scalar list and no reference-free array. -/
theorem projectTy_app {head element : Ty} (list : isScalarList (.app head element) = false)
    (array : (Ty.app head element).referenceFreeArray = false) :
    projectTy (.app head element) = projectAppHead head := by
  rw [projectTy, list, array]
  rfl

/-- A scalar list is rebuilt as itself. -/
theorem shippedTy_scalarList {ty : Ty} (list : isScalarList ty = true) :
    shippedTy interner ty = ty := by
  unfold isScalarList at list
  split at list
  · rename_i element
    have projected : projectTy (.app (.con .list) element) = .scalarList (projectTy element) := by
      rw [projectTy]
      exact if_pos list
    have rebuilt := shippedTy_scalar interner list
    unfold shippedTy at rebuilt ⊢
    rw [projected, reconstructTy, rebuilt]
  · cases list

/-- A reference-free array is rebuilt as itself. -/
theorem shippedTy_leafArray {ty : Ty} (array : ty.referenceFreeArray = true) :
    shippedTy interner ty = ty := by
  unfold Ty.referenceFreeArray at array
  split at array
  · split at array
    all_goals first | rfl | cases array
  · cases array

mutual

/-- Projecting a rebuilt type gives the wire type it was rebuilt from. -/
theorem projectTy_shippedTy : ∀ ty : Ty, projectTy (shippedTy interner ty) = projectTy ty
  | .var _ | .error | .unit | .adt _ | .interface _ | .effectArg _ | .arrow _ _ _ => rfl
  | .con con => by cases con <;> rfl
  | .tuple elems => by
    have kept := projectTys_shipped elems
    show WireTy.tuple _ = _
    rw [kept, projectTy]
  | .record fields tail => by
    have kept := projectFields_shipped fields 0
    show WireTy.record _ _ = _
    rw [kept, projectTy]
    cases tail <;> rfl
  | .app head element => by
    by_cases list : isScalarList (.app head element) = true
    · rw [shippedTy_scalarList interner list]
    · by_cases array : (Ty.app head element).referenceFreeArray = true
      · rw [shippedTy_leafArray interner array]
      · have projected := projectTy_app (Bool.not_eq_true _ ▸ list) (Bool.not_eq_true _ ▸ array)
        unfold shippedTy
        rw [projected]
        exact projectTy_appHead interner head

/-- The components of a rebuilt tuple have the wire types they were rebuilt from. -/
theorem projectTys_shipped : ∀ elems : List Ty,
    projectTys (reconstructTys interner (projectTys elems)) = projectTys elems
  | [] => rfl
  | head :: rest => by
    have first := projectTy_shippedTy head
    have others := projectTys_shipped rest
    unfold shippedTy at first
    simp only [projectTys, reconstructTys, first, others]

/-- The fields of a rebuilt record have the wire types they were rebuilt from. -/
theorem projectFields_shipped : ∀ (fields : List (Symbol × Ty)) (position : Nat),
    projectFields (reconstructFields interner position (projectFields fields)) =
      projectFields fields
  | [], _ => rfl
  | (_, head) :: rest, position => by
    have first := projectTy_shippedTy head
    have others := projectFields_shipped rest (position + 1)
    unfold shippedTy at first
    simp only [projectFields, reconstructFields, first, others]

end

/-! ## The classes of rebuilt types -/

open Classify

/-- The type at the head of a chain of applications. -/
def root : Ty → Ty
  | .app head _ => root head
  | ty => ty

/-- The root of a chain is an interface. -/
def interfaceRoot (ty : Ty) : Bool :=
  match root ty with
  | .interface _ => true
  | _ => false

/-- The roots that the classifier of fields reads as it reads their projection. The others head no
application of a well-kinded program. -/
def constructorRoot (ty : Ty) : Bool :=
  match root ty with
  | .con .list | .con .array | .con .float | .adt _ | .interface _ | .var _ | .effectArg _
  | .error => true
  | _ => false

/-- A field whose release does not change on the wire. -/
def fieldKept : Ty → Bool
  | .app head _ => constructorRoot head
  | _ => true

/-- A cell whose release does not change on the wire: it is too wide to be released in place, or
no field changes. -/
def cellKept (fields : List Ty) : Bool :=
  maxInlineDropBoxedFields < (fields.map fieldDrop).countP (· != .immediate) ||
    fields.all fieldKept

/-- The types whose dup and drop strategies do not change on the wire. -/
def keepsClass : Ty → Bool
  | .app head _ => !interfaceRoot head
  | .tuple elems => cellKept elems
  | .record fields .closed => cellKept (fields.map Prod.snd)
  | _ => true

/-- The root of a chain is no application. -/
theorem root_ne_app (ty head arg : Ty) : root ty ≠ .app head arg := by
  fun_induction root ty with
  | case1 inner _ inductionHypothesis => exact inductionHypothesis
  | case2 ty notApp => exact notApp head arg

/-- The array test reads the root. -/
theorem arrayHead_root (ty : Ty) : arrayHead ty = arrayHead (root ty) := by
  fun_induction root ty with
  | case1 inner _ inductionHypothesis => exact inductionHypothesis
  | case2 ty _ => rfl

/-- The data test reads the root. -/
theorem isDataMaybeImmediate_root (ty : Ty) :
    isDataMaybeImmediate ty = isDataMaybeImmediate (root ty) := by
  fun_induction root ty with
  | case1 inner _ inductionHypothesis => exact inductionHypothesis
  | case2 ty _ => rfl

/-- The scalar-slot test reads the root. -/
theorem mayUseScalarSlot_root (ty : Ty) : mayUseScalarSlot ty = mayUseScalarSlot (root ty) := by
  fun_induction root ty with
  | case1 inner _ inductionHypothesis => exact inductionHypothesis
  | case2 ty _ => rfl

/-- The projection of an applied head reads the root. -/
theorem projectAppHead_root (ty : Ty) : projectAppHead ty = projectAppHead (root ty) := by
  fun_induction root ty with
  | case1 inner _ inductionHypothesis => exact inductionHypothesis
  | case2 ty _ => rfl

/-- The dup strategy of an application. -/
theorem dupClass_app (head element : Ty) :
    dupClass (.app head element) = .incr (!arrayHead head) := rfl

/-- The drop strategy of an application that is no reference-free array. -/
theorem dropClass_app {head element : Ty}
    (array : (Ty.app head element).referenceFreeArray = false) :
    dropClass (.app head element) =
      if arrayHead head || isDataMaybeImmediate head then .data (!arrayHead head)
      else .runtime := by
  unfold dropClass
  have counted : uncounted (.app head element) = false := rfl
  have shapeless : fixedShapeDrop (.app head element) = none := rfl
  have noLeaf : isLeafBoxedTy (.app head element) = false := array
  rw [counted, shapeless, noLeaf]
  rfl

/-- An application keeps its strategies unless its root is an interface. -/
theorem appClass_iff (head element : Ty) :
    (dupClass (shippedTy interner (.app head element)) = dupClass (.app head element) ∧
      dropClass (shippedTy interner (.app head element)) = dropClass (.app head element)) ↔
      keepsClass (.app head element) = true := by
  by_cases list : isScalarList (.app head element) = true
  · have same := shippedTy_scalarList interner list
    unfold isScalarList at list
    split at list
    · rename_i element' shape
      cases shape
      rw [same]
      exact ⟨fun _ => rfl, fun _ => ⟨rfl, rfl⟩⟩
    · cases list
  · by_cases array : (Ty.app head element).referenceFreeArray = true
    · have same := shippedTy_leafArray interner array
      unfold Ty.referenceFreeArray at array
      split at array
      · rename_i element' shape
        cases shape
        rw [same]
        exact ⟨fun _ => rfl, fun _ => ⟨rfl, rfl⟩⟩
      · cases array
    · have list := Bool.not_eq_true _ ▸ list
      have array := Bool.not_eq_true _ ▸ array
      have shipped : shippedTy interner (.app head element) =
          reconstructTy interner (projectAppHead head) := by
        unfold shippedTy
        rw [projectTy_app list array]
      have noApp := root_ne_app head
      rw [shipped, dupClass_app, dropClass_app array, keepsClass, interfaceRoot,
        arrayHead_root, isDataMaybeImmediate_root, projectAppHead_root]
      generalize root head = found at noApp
      cases found with
      | app inner arg => exact absurd rfl (noApp inner arg)
      | con con => cases con <;> exact ⟨fun _ => rfl, fun _ => ⟨rfl, rfl⟩⟩
      | interface ref =>
        have differ : ¬ dupClass (reconstructTy interner .interface) = .incr true := by
          show ¬ DupPlan.incr false = .incr true
          decide
        exact ⟨fun same => absurd same.1 differ, fun kept => by cases kept⟩
      | _ => exact ⟨fun _ => rfl, fun _ => ⟨rfl, rfl⟩⟩

/-- A rebuilt type is an immediate exactly when the original is. -/
theorem isImmediateTy_shippedTy (ty : Ty) :
    isImmediateTy (shippedTy interner ty) = isImmediateTy ty := by
  cases ty with
  | con con => cases con <;> rfl
  | app head element =>
    by_cases list : isScalarList (.app head element) = true
    · rw [shippedTy_scalarList interner list]
    · by_cases array : (Ty.app head element).referenceFreeArray = true
      · rw [shippedTy_leafArray interner array]
      · unfold shippedTy
        rw [projectTy_app (Bool.not_eq_true _ ▸ list) (Bool.not_eq_true _ ▸ array),
          projectAppHead_root]
        have noApp := root_ne_app head
        generalize root head = found at noApp
        cases found with
        | con con => cases con <;> rfl
        | app inner arg => exact absurd rfl (noApp inner arg)
        | _ => rfl
  | _ => rfl

/-- The release of a field changes exactly when it applies an unexpected root. -/
theorem fieldDrop_shippedTy_iff (ty : Ty) :
    fieldDrop (shippedTy interner ty) = fieldDrop ty ↔ fieldKept ty = true := by
  cases ty with
  | con con => cases con <;> exact ⟨fun _ => rfl, fun _ => rfl⟩
  | app head element =>
    by_cases list : isScalarList (.app head element) = true
    · have same := shippedTy_scalarList interner list
      unfold isScalarList at list
      split at list
      · rename_i element' shape
        cases shape
        rw [same]
        exact ⟨fun _ => rfl, fun _ => rfl⟩
      · cases list
    · by_cases array : (Ty.app head element).referenceFreeArray = true
      · have same := shippedTy_leafArray interner array
        unfold Ty.referenceFreeArray at array
        split at array
        · rename_i element' shape
          cases shape
          rw [same]
          exact ⟨fun _ => rfl, fun _ => rfl⟩
        · cases array
      · have original : fieldDrop (.app head element) =
            if mayUseScalarSlot (root head) then .dynamic else .boxed := by
          rw [← mayUseScalarSlot_root]
          rfl
        have noApp := root_ne_app head
        unfold shippedTy
        rw [projectTy_app (Bool.not_eq_true _ ▸ list) (Bool.not_eq_true _ ▸ array),
          projectAppHead_root, original, fieldKept, constructorRoot]
        generalize root head = found at noApp
        cases found with
        | con con =>
          cases con with
          | list | array | float => exact ⟨fun _ => rfl, fun _ => rfl⟩
          | _ => exact ⟨fun same => (by cases same), fun kept => (by cases kept)⟩
        | app inner arg => exact absurd rfl (noApp inner arg)
        | var _ | adt _ | interface _ | effectArg _ | error =>
          exact ⟨fun _ => rfl, fun _ => rfl⟩
        | arrow _ _ _ | tuple _ | record _ _ | unit =>
          exact ⟨fun same => (by cases same), fun kept => (by cases kept)⟩
  | _ => exact ⟨fun _ => rfl, fun _ => rfl⟩

/-- The drop strategy of a cell, from the classes of its fields. -/
def cellDrop (fields : List Ty) : DropPlan :=
  match capped (fields.map fieldDrop) with
  | some fields => .fixed fields
  | none => .data false

/-- The fields that need a release are as many on the wire. -/
theorem countP_shippedTy (fields : List Ty) :
    ((fields.map (shippedTy interner)).map fieldDrop).countP (· != .immediate) =
      (fields.map fieldDrop).countP (· != .immediate) := by
  induction fields with
  | nil => rfl
  | cons head rest inductionHypothesis =>
    have single : (fieldDrop (shippedTy interner head) != .immediate) =
        (fieldDrop head != .immediate) := by
      unfold fieldDrop
      rw [isImmediateTy_shippedTy]
      by_cases immediate : isImmediateTy head = true
      · rw [if_pos immediate, if_pos immediate]
      · rw [if_neg immediate, if_neg immediate]
        cases mayUseScalarSlot (shippedTy interner head) <;> cases mayUseScalarSlot head <;> rfl
    simp only [List.map_cons, List.countP_cons, single, inductionHypothesis]

/-- The classes of the fields are kept exactly when each field keeps its own. -/
theorem map_fieldDrop_iff (fields : List Ty) :
    (fields.map (shippedTy interner)).map fieldDrop = fields.map fieldDrop ↔
      fields.all fieldKept = true := by
  induction fields with
  | nil => exact ⟨fun _ => rfl, fun _ => rfl⟩
  | cons head rest inductionHypothesis =>
    simp only [List.map_cons, List.cons.injEq, List.all_cons, Bool.and_eq_true,
      fieldDrop_shippedTy_iff, inductionHypothesis]

/-- A cell keeps its strategy exactly when it is too wide or keeps every field. -/
theorem cellDrop_iff (fields : List Ty) :
    cellDrop (fields.map (shippedTy interner)) = cellDrop fields ↔ cellKept fields = true := by
  have counted := countP_shippedTy interner fields
  unfold cellDrop cellKept capped
  rw [counted, Bool.or_eq_true, decide_eq_true_eq]
  by_cases wide : maxInlineDropBoxedFields < (fields.map fieldDrop).countP (· != .immediate)
  · rw [if_pos wide, if_pos wide]
    exact ⟨fun _ => .inl wide, fun _ => rfl⟩
  · rw [if_neg wide, if_neg wide]
    simp only [DropPlan.fixed.injEq, map_fieldDrop_iff]
    exact ⟨.inr, fun either => either.resolve_left wide⟩

/-- The rebuilt components of a tuple. -/
theorem reconstructTys_projectTys (elems : List Ty) :
    reconstructTys interner (projectTys elems) = elems.map (shippedTy interner) := by
  induction elems with
  | nil => rfl
  | cons head rest inductionHypothesis =>
    simp only [projectTys, reconstructTys, inductionHypothesis, List.map_cons, shippedTy]

/-- The rebuilt fields of a record, without their labels. -/
theorem reconstructFields_projectFields (fields : List (Symbol × Ty)) (position : Nat) :
    (reconstructFields interner position (projectFields fields)).map Prod.snd =
      (fields.map Prod.snd).map (shippedTy interner) := by
  induction fields generalizing position with
  | nil => rfl
  | cons field rest inductionHypothesis =>
    obtain ⟨label, head⟩ := field
    simp only [projectFields, reconstructFields, inductionHypothesis, List.map_cons, shippedTy]

/-- The drop strategy of a closed record with fields is that of its cell. -/
theorem dropClass_record {fields : List (Symbol × Ty)} (filled : fields ≠ []) :
    dropClass (.record fields .closed) = cellDrop (fields.map Prod.snd) := by
  cases fields with
  | nil => exact absurd rfl filled
  | cons field rest =>
    unfold dropClass cellDrop
    have counted : uncounted (.record (field :: rest) .closed) = false := rfl
    have shape : fixedShapeDrop (.record (field :: rest) .closed) =
        capped (((field :: rest).map Prod.snd).map fieldDrop) := by
      rw [List.map_map]
      rfl
    rw [counted, shape]
    cases capped (((field :: rest).map Prod.snd).map fieldDrop) <;> rfl

/-- A rebuilt record has fields exactly when the original has. -/
theorem reconstructFields_nil_iff (fields : List (Symbol × Ty)) :
    reconstructFields interner 0 (projectFields fields) = [] ↔ fields = [] := by
  cases fields with
  | nil => exact ⟨fun _ => rfl, fun _ => rfl⟩
  | cons field rest => exact ⟨fun absent => (by cases absent), fun absent => (by cases absent)⟩

/-- A record keeps its dup strategy, which reads only whether it has fields. -/
theorem dupClass_record (fields : List (Symbol × Ty)) (tail : RowEnd) :
    dupClass (shippedTy interner (.record fields tail)) = dupClass (.record fields tail) := by
  cases fields <;> rfl

/-- A closed record keeps its strategies exactly when its cell does. -/
theorem recordClass_iff (fields : List (Symbol × Ty)) :
    (dupClass (shippedTy interner (.record fields .closed)) = dupClass (.record fields .closed) ∧
      dropClass (shippedTy interner (.record fields .closed)) =
        dropClass (.record fields .closed)) ↔
      keepsClass (.record fields .closed) = true := by
  have shipped : shippedTy interner (.record fields .closed) =
      .record (reconstructFields interner 0 (projectFields fields)) .closed := rfl
  by_cases filled : fields = []
  · subst filled
    exact ⟨fun _ => rfl, fun _ => ⟨rfl, rfl⟩⟩
  · have filled' := mt (reconstructFields_nil_iff interner fields).mp filled
    have dup := dupClass_record interner fields .closed
    rw [dropClass_record filled]
    rw [shipped] at dup ⊢
    rw [dropClass_record filled', reconstructFields_projectFields, cellDrop_iff]
    exact ⟨fun both => both.2, fun kept => ⟨dup, kept⟩⟩

/-- A rebuilt type has the dup and drop strategies of the original exactly when the original is
neither an applied interface nor a small cell with a field of unexpected root. -/
theorem sameClass_iff (ty : Ty) :
    (dupClass (shippedTy interner ty) = dupClass ty ∧
      dropClass (shippedTy interner ty) = dropClass ty) ↔ keepsClass ty = true := by
  cases ty with
  | app head element => exact appClass_iff interner head element
  | con con => cases con <;> exact ⟨fun _ => rfl, fun _ => ⟨rfl, rfl⟩⟩
  | tuple elems =>
    have shipped : shippedTy interner (.tuple elems) = .tuple (elems.map (shippedTy interner)) := by
      rw [← reconstructTys_projectTys]
      rfl
    have drop : ∀ elems : List Ty, dropClass (.tuple elems) = cellDrop elems := by
      intro elems
      unfold dropClass cellDrop
      have shape : fixedShapeDrop (.tuple elems) = capped (elems.map fieldDrop) := rfl
      rw [shape]
      cases capped (elems.map fieldDrop) <;> rfl
    rw [shipped, drop, drop, cellDrop_iff]
    exact ⟨fun both => both.2, fun kept => ⟨rfl, kept⟩⟩
  | record fields tail =>
    cases tail with
    | closed => exact recordClass_iff interner fields
    | «open» var =>
      have drop : dropClass (shippedTy interner (.record fields (.open var))) =
          dropClass (.record fields (.open var)) := by
        cases fields <;> rfl
      exact ⟨fun _ => rfl, fun _ => ⟨dupClass_record interner fields _, drop⟩⟩
  | _ => exact ⟨fun _ => rfl, fun _ => ⟨rfl, rfl⟩⟩

end Wire

end Fai
