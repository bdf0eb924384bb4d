import FaiVerif.Wire.RenderTy
import FaiVerif.Wire.Types

/-!
# Reading the text of a type back

The canonical text of a type determines its wire form, once every name is known to belong to a
builtin constructor, a data type or an interface. What is read back is the skeleton of the type,
in which nominal references, variables, labels and arrow operands are forgotten; it has the wire
form of the type.
-/

namespace Fai

namespace Wire

open Reading

/-! ## Skeletons -/

/-- The skeleton of every arrow. -/
def arrowSkeleton : Ty := .arrow .error .error pureEffect

/-- The skeleton of every record tail. -/
def tailSkeleton : RowEnd → RowEnd
  | .closed => .closed
  | .open _ => .open 0

mutual

/-- What the text of a type is read as. -/
def skeleton : Ty → Ty
  | .var _ => .var 0
  | .con c => .con c
  | .adt _ => .adt ⟨0, 0⟩
  | .interface _ => .interface ⟨0, 0⟩
  | .effectArg _ => .var 0
  | .app head arg => .app (skeleton head) (skeleton arg)
  | .arrow _ _ _ => arrowSkeleton
  | .tuple elems => .tuple (skeletons elems)
  | .record fields tail => .record (fieldSkeletons fields) (tailSkeleton tail)
  | .unit => .unit
  | .error => .error

/-- The skeletons of tuple components. -/
def skeletons : List Ty → List Ty
  | [] => []
  | head :: rest => skeleton head :: skeletons rest

/-- The skeletons of record fields. -/
def fieldSkeletons : List (Symbol × Ty) → List (Symbol × Ty)
  | [] => []
  | (_, head) :: rest => (0, skeleton head) :: fieldSkeletons rest

end

/-- The skeletons of components are those of each. -/
theorem skeletons_eq (elems : List Ty) : skeletons elems = elems.map skeleton := by
  induction elems with
  | nil => rfl
  | cons head rest inductionHypothesis => rw [skeletons, inductionHypothesis, List.map_cons]

/-- The skeletons of fields are those of each. -/
theorem fieldSkeletons_eq (fields : List (Symbol × Ty)) :
    fieldSkeletons fields = fields.map fun field => (0, skeleton field.2) := by
  induction fields with
  | nil => rfl
  | cons head rest inductionHypothesis =>
    obtain ⟨label, ty⟩ := head
    rw [fieldSkeletons, inductionHypothesis, List.map_cons]

/-- The head of an application keeps its wire form. -/
theorem projectAppHead_skeleton (head : Ty) :
    projectAppHead (skeleton head) = projectAppHead head := by
  induction head using projectAppHead.induct with
  | case5 inner arg inductionHypothesis => exact inductionHypothesis
  | case6 head list array adt interface app =>
    cases head with
    | con c => cases c <;> rfl
    | app inner arg => exact absurd rfl (app inner arg)
    | _ => rfl
  | _ => rfl

/-- A type has the primitive elements of its skeleton. -/
theorem scalarElement_skeleton (ty : Ty) : scalarElement (skeleton ty) = scalarElement ty := by
  cases ty <;> rfl

/-- A list of primitive elements is one in the skeleton. -/
theorem isScalarList_skeleton (head element : Ty) :
    isScalarList (.app (skeleton head) (skeleton element)) = isScalarList (.app head element) := by
  cases head with
  | con c =>
    cases c
    case list => exact scalarElement_skeleton element
    all_goals rfl
  | _ => rfl

/-- An array without references is one in the skeleton. -/
theorem referenceFreeArray_skeleton (head element : Ty) :
    (Ty.app (skeleton head) (skeleton element)).referenceFreeArray =
      (Ty.app head element).referenceFreeArray := by
  cases head with
  | con c => cases c <;> cases element <;> rfl
  | _ => rfl

mutual

/-- A skeleton has the wire form of the type. -/
theorem projectTy_skeleton : ∀ ty : Ty, projectTy (skeleton ty) = projectTy ty
  | .var _ | .adt _ | .interface _ | .effectArg _ | .arrow _ _ _ | .unit | .error => rfl
  | .con c => by cases c <;> rfl
  | .app head element => by
    rw [skeleton, projectTy, projectTy, isScalarList_skeleton, referenceFreeArray_skeleton,
      projectTy_skeleton element, projectAppHead_skeleton]
  | .tuple elems => by rw [skeleton, projectTy, projectTy, projectTys_skeletons elems]
  | .record fields tail => by
    rw [skeleton, projectTy, projectTy, projectFields_skeletons fields]
    cases tail <;> rfl

/-- Skeletons of components have their wire forms. -/
theorem projectTys_skeletons : ∀ elems : List Ty, projectTys (skeletons elems) = projectTys elems
  | [] => rfl
  | head :: rest => by
    rw [skeletons, projectTys, projectTys, projectTy_skeleton head, projectTys_skeletons rest]

/-- Skeletons of fields have their wire forms. -/
theorem projectFields_skeletons :
    ∀ fields : List (Symbol × Ty), projectFields (fieldSkeletons fields) = projectFields fields
  | [] => rfl
  | (_, head) :: rest => by
    rw [fieldSkeletons, projectFields, projectFields, projectTy_skeleton head,
      projectFields_skeletons rest]

end

/-! ## Names -/

/-- The characters of identifiers. -/
def tokenChar (c : Char) : Bool := c.isAlphanum || c == '_'

/-- A name that begins with an upper-case letter, as every type name does. -/
def Upper (name : Text) : Prop :=
  ∃ c rest, name = c :: rest ∧ c.isUpper = true ∧ ∀ d ∈ rest, tokenChar d = true

/-- A name that begins with no upper-case letter, as every label does. -/
def Lower (name : Text) : Prop :=
  ∃ c rest, name = c :: rest ∧ c.isUpper = false ∧ ∀ d ∈ c :: rest, tokenChar d = true

/-- The type names in use: those of data types and those of interfaces. -/
structure Naming where
  /-- The names of data types. -/
  adt : Text → Prop
  /-- The names of interfaces. -/
  interface : Text → Prop
  /-- Data types are written as type names. -/
  adt_upper : ∀ name, adt name → Upper name
  /-- Interfaces are written as type names. -/
  interface_upper : ∀ name, interface name → Upper name

section Spelled

variable (naming : Naming) (interner : Interner)

/-- Every atom of an effect is named as an interface. -/
def EffectSpelled (effect : EffectRow) : Prop :=
  ∀ atom ∈ effect.labels, naming.interface (nameText interner atom.name)

mutual

/-- A type of the given names: every nominal type bears a name of its kind, tuples have two
components at least, and labels are written as labels. -/
def Spelled : Ty → Prop
  | .adt ref => naming.adt (nameText interner ref.name)
  | .interface ref => naming.interface (nameText interner ref.name)
  | .effectArg effect => EffectSpelled naming interner effect
  | .app head arg => Spelled head ∧ Spelled arg
  | .arrow source target effect =>
    Spelled source ∧ Spelled target ∧ EffectSpelled naming interner effect
  | .tuple elems => 2 ≤ elems.length ∧ SpelledAll elems
  | .record fields _ => FieldsSpelled fields
  | .var _ | .con _ | .unit | .error => True

/-- Components of the given names. -/
def SpelledAll : List Ty → Prop
  | [] => True
  | head :: rest => Spelled head ∧ SpelledAll rest

/-- Fields of the given names. -/
def FieldsSpelled : List (Symbol × Ty) → Prop
  | [] => True
  | (label, head) :: rest => Lower (nameText interner label) ∧ Spelled head ∧ FieldsSpelled rest

end

variable {naming interner}

/-- Each of the components is of the given names. -/
theorem SpelledAll.mem : ∀ {elems : List Ty}, SpelledAll naming interner elems →
    ∀ ty ∈ elems, Spelled naming interner ty
  | _ :: _, spelled, _, .head _ => spelled.1
  | _ :: _, spelled, ty, .tail _ member => SpelledAll.mem spelled.2 ty member

/-- Each of the fields is of the given names. -/
theorem FieldsSpelled.mem : ∀ {fields : List (Symbol × Ty)}, FieldsSpelled naming interner fields →
    ∀ field ∈ fields, Lower (nameText interner field.1) ∧ Spelled naming interner field.2
  | (_, _) :: _, spelled, _, .head _ => ⟨spelled.1, spelled.2.1⟩
  | (_, _) :: _, spelled, field, .tail _ member => FieldsSpelled.mem spelled.2.2 field member

end Spelled

/-! ## The reader -/

/-- Whether a character begins a type name, a variable or something in braces. -/
def opensBare (c : Char) : Bool := c.isUpper || c == '\'' || c == '_' || c == '{'

/-- Whether a character begins a type. -/
def opensType (c : Char) : Bool := opensBare c || c == '('

/-- Whether an operand of a type application begins after a blank. A parenthesis before something
else than a type opens an expression. -/
def startsArg : Text → Bool
  | b :: c :: rest =>
    b == ' ' && (opensBare c || c == '(' && rest.head?.any fun d => opensType d || d == ')')
  | _ => false

/-- Skip the rest of an effect in braces. -/
def skipBraces (text : Text) : Text := (text.dropWhile (· != '}')).drop 1

/-- Read an effect after its arrow. -/
def readEffect : Reader Unit
  | [] => none
  | c :: text => some ((), if c = '{' then skipBraces text else text.dropWhile tokenChar)

section Reader

variable (named : Text → Ty) (inner : Reader Ty)

/-- Read a labelled field. -/
def readField : Reader (Symbol × Ty) := fun text => do
  let (_, text) ← token tokenChar text
  let text ← literal (str " : ") text
  let (ty, text) ← inner text
  some ((0, ty), text)

/-- Whether a label begins. -/
def startsLabel (text : Text) : Bool := text.head?.any fun c => tokenChar c && !c.isUpper

/-- Read the fields of a record. -/
def readFields : Reader (List (Symbol × Ty)) := fun text =>
  if startsLabel (text.drop 1) then do
    let ((first, others), text) ← separated (str ", ") (readField inner) (text.drop 1)
    some (first :: others, text)
  else some ([], text)

/-- Read the tail of a record. -/
def readRowTail : Reader RowEnd := fun text =>
  match literal (str " \x7d") text with
  | some text => some (.closed, text)
  | none => (literal (str " | _ \x7d") text).map fun text => (.open 0, text)

/-- Read the fields and the tail of a record. -/
def readRecord : Reader Ty := fun text => do
  let (fields, text) ← readFields inner text
  let (tail, text) ← readRowTail text
  some (.record fields tail, text)

/-- Read what an opening brace begins: the error type, an effect or a record. -/
def readBraces : Reader Ty := fun text =>
  match literal (str "error\x7d") text with
  | some text => some (.error, text)
  | none =>
    match literal (str "\x7d") text with
    | some text => some (.var 0, text)
    | none =>
      if (text.drop 1).head?.any Char.isUpper then some (.var 0, skipBraces text)
      else readRecord inner text

/-- Read what an opening parenthesis begins. -/
def readParens : Reader Ty := fun text =>
  match literal (str ")") text with
  | some text => some (.unit, text)
  | none => do
    let (ty, text) ← inner text
    let text ← literal (str ")") text
    some (ty, text)

/-- Read an operand of a type application. -/
def readAtom : Reader Ty
  | [] => none
  | c :: text =>
    if c = '\'' ∨ c = '_' then some (.var 0, text.dropWhile tokenChar)
    else if c = '(' then readParens inner text
    else if c = '{' then readBraces inner text
    else some (named (c :: text.takeWhile tokenChar), text.dropWhile tokenChar)

/-- Read a type application. -/
def readChain : Reader Ty := fun text => do
  let (head, text) ← readAtom named inner text
  let (args, text) ← repeated startsArg (fun text => readAtom named inner (text.drop 1)) text
  some (args.foldl .app head, text)

/-- A tuple of at least two components, or its only component. -/
def tupled (first : Ty) : List Ty → Ty
  | [] => first
  | others => .tuple (first :: others)

/-- Read a tuple or a type application. -/
def readProduct : Reader Ty := fun text => do
  let ((first, others), text) ← separated (str " * ") (readChain named inner) text
  some (tupled first others, text)

/-- An arrow of at least one stage, or the type before it. -/
def staged (first : Ty) : List Ty → Ty
  | [] => first
  | _ :: _ => arrowSkeleton

end Reader

/-- Read a type. -/
def readTy (named : Text → Ty) : Nat → Reader Ty
  | 0, _ => none
  | fuel + 1, text => do
    let ((first, stages), text) ←
      separated (str " -> ") (readProduct named (readTy named fuel)) text
    let (_, text) ← after (str " / ") readEffect text
    some (staged first stages, text)

/-! ## What may follow -/

/-- What may follow a type application. -/
def ChainEnds (rest : Text) : Prop := Stops tokenChar rest ∧ startsArg rest = false

/-- What may follow a tuple. -/
def ProductEnds (rest : Text) : Prop := ChainEnds rest ∧ literal (str " * ") rest = none

/-- What may follow a type. -/
def TypeEnds (rest : Text) : Prop :=
  ProductEnds rest ∧ literal (str " -> ") rest = none ∧ literal (str " / ") rest = none

/-- A type ends at a closing parenthesis, a comma or the end of a line. -/
theorem typeEnds_cons {c : Char} (rest : Text) (outside : tokenChar c = false) (blank : c ≠ ' ') :
    TypeEnds (c :: rest) := by
  have apart : ' ' ≠ c := fun same => blank same.symm
  have noArg : startsArg (c :: rest) = false := by
    cases rest <;> simp [startsArg, blank]
  have next : ∀ lead : Text, literal (' ' :: lead) (c :: rest) = none := by
    intro lead
    rw [literal_cons, if_neg apart]
  exact ⟨⟨⟨(stops_cons _ _ _).mpr outside, noArg⟩, next _⟩, next _, next _⟩

/-- A type ends before a blank and a character that begins no part of a type. -/
theorem typeEnds_blank {c : Char} (rest : Text) (arg : startsArg (' ' :: c :: rest) = false)
    (star : c ≠ '*') (dash : c ≠ '-') (slash : c ≠ '/') : TypeEnds (' ' :: c :: rest) := by
  have next : ∀ (d : Char) (lead : Text), c ≠ d →
      literal (' ' :: d :: lead) (' ' :: c :: rest) = none := by
    intro d lead differs
    rw [literal_cons, if_pos rfl, literal_cons, if_neg fun same => differs same.symm]
  exact ⟨⟨⟨(stops_cons _ _ _).mpr rfl, arg⟩, next _ _ star⟩, next _ _ dash, next _ _ slash⟩

/-! ## Variables and names -/

/-- A quote or an underscore with characters of identifiers after it. -/
def VarText (text : Text) : Prop :=
  ∃ c rest, text = c :: rest ∧ (c = '\'' ∨ c = '_') ∧ ∀ d ∈ rest, tokenChar d = true

/-- A digit is a character of identifiers. -/
theorem tokenChar_of_isDigit {c : Char} (digit : c.isDigit = true) : tokenChar c = true := by
  show (c.isAlpha || c.isDigit || c == '_') = true
  rw [digit, Bool.or_true, Bool.true_or]

/-- A quoted letter with a number is the text of a variable. -/
theorem varText_quotedName {first letters : Nat} (positive : 0 < letters)
    (alphabet : ∀ k < letters, tokenChar (Char.ofNat (first + k)) = true) (n : Nat) :
    VarText (quotedName first letters n) := by
  refine ⟨'\'', _, rfl, Or.inl rfl, ?_⟩
  intro d member
  rw [List.mem_cons] at member
  cases member with
  | inl letter => exact letter ▸ alphabet _ (Nat.mod_lt n positive)
  | inr suffix =>
    by_cases round : n / letters = 0
    · rw [if_pos round] at suffix
      cases suffix
    · rw [if_neg round] at suffix
      exact tokenChar_of_isDigit (isDigit_of_mem_decimal suffix)

/-- The canonical name of a type variable is the text of a variable. -/
theorem varText_canonicalName (n : Nat) : VarText (canonicalName n) :=
  varText_quotedName (by decide) (by decide) n

/-- The spelling of a type variable is the text of a variable. -/
theorem varText_get (names : VarNames) (var : Nat) : VarText (names.get var) := by
  unfold VarNames.get
  by_cases member : var ∈ names.names
  · rw [if_pos member]
    exact varText_canonicalName _
  · rw [if_neg member]
    exact varText_canonicalName _

/-- The spelling of an effect variable is the text of a variable. -/
theorem varText_getEff (names : VarNames) (var : Nat) : VarText (names.getEff var) := by
  unfold VarNames.getEff
  by_cases member : var ∈ names.effNames
  · rw [if_pos member]
    exact varText_quotedName (by decide) (by decide) _
  · rw [if_neg member]
    exact ⟨'_', [], rfl, Or.inr rfl, fun _ member => by cases member⟩

/-- Characters of identifiers are skipped up to the end of the token. -/
theorem dropWhile_token {name rest : Text} (within : ∀ d ∈ name, tokenChar d = true)
    (stops : Stops tokenChar rest) : (name ++ rest).dropWhile tokenChar = rest := by
  have read := reads_token within rest stops
  rw [token, Option.some.injEq, Prod.mk.injEq] at read
  exact read.2

/-- Characters of identifiers are taken up to the end of the token. -/
theorem takeWhile_token {name rest : Text} (within : ∀ d ∈ name, tokenChar d = true)
    (stops : Stops tokenChar rest) : (name ++ rest).takeWhile tokenChar = name := by
  have read := reads_token within rest stops
  rw [token, Option.some.injEq, Prod.mk.injEq] at read
  exact read.1

/-- An upper-case letter is none of the characters that begin something else. -/
theorem upper_ne {c d : Char} (upper : c.isUpper = true) (other : d.isUpper = false) : c ≠ d := by
  rintro rfl
  rw [upper] at other
  cases other

section Atoms

variable (named : Text → Ty) (inner : Reader Ty)

/-- A variable is read. -/
theorem reads_var {text : Text} (var : VarText text) :
    Recovers (readAtom named inner) text (.var 0) (Stops tokenChar) := by
  obtain ⟨c, name, rfl, first, within⟩ := var
  intro rest stops
  rw [List.cons_append, readAtom, if_pos first, dropWhile_token within stops]

/-- A type name is read as what it names. -/
theorem reads_name {text : Text} (upper : Upper text) :
    Recovers (readAtom named inner) text (named text) (Stops tokenChar) := by
  obtain ⟨c, name, rfl, first, within⟩ := upper
  intro rest stops
  have quote : ¬ (c = '\'' ∨ c = '_') := by
    rintro (same | same)
    · exact upper_ne first (by decide) same
    · exact upper_ne first (by decide) same
  have paren : c ≠ '(' := upper_ne first (by decide)
  have brace : c ≠ '{' := upper_ne first (by decide)
  rw [List.cons_append, readAtom, if_neg quote, if_neg paren, if_neg brace,
    takeWhile_token within stops, dropWhile_token within stops]

end Atoms

/-! ## Effects -/

/-- Braces are skipped up to the first closing one. -/
theorem skipBraces_append {text : Text} (inside : ∀ c ∈ text, c ≠ '}') (rest : Text) :
    skipBraces (text ++ '}' :: rest) = rest := by
  have dropped : (text ++ '}' :: rest).dropWhile (· != '}') = '}' :: rest := by
    rw [List.dropWhile_append_of_pos fun c member => by simp [inside c member]]
    rfl
  rw [skipBraces, dropped, List.drop_one, List.tail_cons]

/-- A fixed text that is seen to close no brace closes none. -/
theorem ne_of_all {text : Text} (inside : text.all (· != '}') = true) : ∀ c ∈ text, c ≠ '}' :=
  fun c member => by simpa using List.all_eq_true.mp inside c member

/-- Characters of identifiers close no brace. -/
theorem tokenChar_ne {c : Char} (token : tokenChar c = true) : c ≠ '}' := by
  rintro rfl
  cases token

/-- The text of a variable closes no brace. -/
theorem VarText.ne {text : Text} (var : VarText text) : ∀ c ∈ text, c ≠ '}' := by
  obtain ⟨c, name, rfl, first, within⟩ := var
  intro d member
  rw [List.mem_cons] at member
  cases member with
  | inl same =>
    rw [same]
    rcases first with rfl | rfl <;> decide
  | inr member => exact tokenChar_ne (within d member)

/-- A type name closes no brace. -/
theorem Upper.ne {text : Text} (upper : Upper text) : ∀ c ∈ text, c ≠ '}' := by
  obtain ⟨c, name, rfl, first, within⟩ := upper
  intro d member
  rw [List.mem_cons] at member
  cases member with
  | inl same => exact same ▸ upper_ne first (by decide)
  | inr member => exact tokenChar_ne (within d member)

section Effects

variable {naming : Naming} {interner : Interner} (names : VarNames)

/-- The atoms of an effect close no brace. -/
theorem writeAtoms_ne {lead : Text} (leads : ∀ c ∈ lead, c ≠ '}') {labels : List NominalRef}
    (spelled : ∀ atom ∈ labels, naming.interface (nameText interner atom.name)) :
    ∀ c ∈ writeAtoms interner lead labels, c ≠ '}' := by
  induction labels generalizing lead with
  | nil => exact fun _ member => by cases member
  | cons atom labels inductionHypothesis =>
    have name := (naming.interface_upper _ (spelled atom List.mem_cons_self)).ne
    have others : ∀ c ∈ writeAtoms interner (str ", ") labels, c ≠ '}' :=
      inductionHypothesis (ne_of_all rfl)
        fun other member => spelled other (List.mem_cons_of_mem _ member)
    intro c member
    rw [writeAtoms, List.mem_append, List.mem_append] at member
    rcases member with member | member | member
    · exact leads c member
    · exact name c member
    · exact others c member

/-- The tail of an effect closes no brace. -/
theorem writeEffTail_ne (tail : RowEnd) : ∀ c ∈ writeEffTail names tail, c ≠ '}' := by
  cases tail with
  | closed => exact fun _ member => by cases member
  | «open» ev =>
    intro c member
    rw [writeEffTail, List.mem_append] at member
    cases member with
    | inl member => exact ne_of_all rfl c member
    | inr member => exact (varText_getEff names ev).ne c member

/-- An effect in braces is skipped. -/
theorem skipBraces_writeBraces {effect : EffectRow}
    (spelled : EffectSpelled naming interner effect) (rest : Text) :
    ∃ text, writeBraces interner names effect = '{' :: text ∧ skipBraces (text ++ rest) = rest := by
  refine ⟨_, rfl, ?_⟩
  have inside : ∀ c ∈ writeAtoms interner (str " ") effect.labels ++
      (writeEffTail names effect.tail ++ [' ']), c ≠ '}' := by
    intro c member
    rw [List.mem_append, List.mem_append] at member
    rcases member with member | member | member
    · exact writeAtoms_ne (ne_of_all rfl) spelled c member
    · exact writeEffTail_ne names effect.tail c member
    · rw [List.mem_singleton] at member
      rw [member]
      decide
  have skipped := skipBraces_append inside rest
  rw [List.append_assoc, List.append_assoc] at skipped
  rw [List.append_assoc, List.append_assoc]
  exact skipped

/-- The effects written after an arrow. -/
def writtenEffect (effect : EffectRow) : List EffectRow :=
  match effect.labels, effect.tail with
  | [], .closed => []
  | _, _ => [effect]

/-- An effect after an arrow is a slash and the effect as an argument, unless it is pure. -/
theorem writeEffect_eq (effect : EffectRow) : writeEffect interner names effect =
    (writtenEffect effect).flatMap fun effect =>
      (str " / ") ++ writeEffectArg interner names effect := by
  obtain ⟨labels, tail⟩ := effect
  cases labels with
  | nil => cases tail <;> simp [writeEffect, writtenEffect, writeEffectArg]
  | cons atom labels => simp [writeEffect, writtenEffect, writeEffectArg]

/-- A written effect is the effect, and is not pure. -/
theorem mem_writtenEffect {effect effect' : EffectRow} (member : effect' ∈ writtenEffect effect) :
    effect' = effect ∧ ¬ (effect.labels = [] ∧ effect.tail = .closed) := by
  obtain ⟨labels, tail⟩ := effect
  cases labels with
  | nil =>
    cases tail with
    | closed => cases member
    | «open» ev => exact ⟨List.mem_singleton.mp member, fun pure => by cases pure.2⟩
  | cons atom labels => exact ⟨List.mem_singleton.mp member, fun pure => by cases pure.1⟩

/-- The text of a written effect is read. -/
theorem reads_effect {effect effect' : EffectRow} (spelled : EffectSpelled naming interner effect)
    (member : effect' ∈ writtenEffect effect) :
    Recovers readEffect (writeEffectArg interner names effect') () (Stops tokenChar) := by
  obtain ⟨rfl, written⟩ := mem_writtenEffect member
  obtain ⟨labels, tail⟩ := effect'
  intro rest stops
  cases labels with
  | nil =>
    cases tail with
    | closed => exact absurd ⟨rfl, rfl⟩ written
    | «open» ev =>
      obtain ⟨c, name, text, first, within⟩ := varText_getEff names ev
      have brace : c ≠ '{' := by
        rcases first with rfl | rfl <;> decide
      show readEffect (names.getEff ev ++ rest) = _
      rw [text, List.cons_append, readEffect, if_neg brace, dropWhile_token within stops]
  | cons atom labels =>
    obtain ⟨text, braces, skipped⟩ := skipBraces_writeBraces names spelled rest
    show readEffect (writeBraces interner names _ ++ rest) = _
    rw [braces, List.cons_append, readEffect, if_pos rfl, skipped]

/-- An effect argument is read as a variable. -/
theorem reads_effectArg (named : Text → Ty) (inner : Reader Ty) {effect : EffectRow}
    (spelled : EffectSpelled naming interner effect) :
    Recovers (readAtom named inner) (writeEffectArg interner names effect) (.var 0)
      (Stops tokenChar) := by
  obtain ⟨labels, tail⟩ := effect
  cases labels with
  | nil =>
    cases tail with
    | closed => exact fun rest _ => rfl
    | «open» ev => exact reads_var named inner (varText_getEff names ev)
  | cons atom labels =>
    intro rest stops
    obtain ⟨text, braces, skipped⟩ := skipBraces_writeBraces names spelled rest
    obtain ⟨c, name, written, upper, _⟩ :=
      naming.interface_upper _ (spelled atom List.mem_cons_self)
    have opens : ∃ more, text = ' ' :: c :: more := by
      rw [writeBraces, List.cons.injEq] at braces
      rw [← braces.2]
      simp [writeAtoms, written, str]
    obtain ⟨more, rfl⟩ := opens
    show readAtom named inner (writeBraces interner names _ ++ rest) = _
    rw [braces, List.cons_append, readAtom]
    simp only [List.cons_append] at skipped
    simp [readBraces, str, upper, skipped]

end Effects

/-! ## Shapes of texts -/

section Shapes

variable {naming : Naming} {interner : Interner} (names : VarNames)

/-- A variable begins a type. -/
theorem VarText.opens {text : Text} (var : VarText text) :
    ∃ c rest, text = c :: rest ∧ opensBare c = true := by
  obtain ⟨c, rest, rfl, first, _⟩ := var
  refine ⟨c, rest, rfl, ?_⟩
  rcases first with rfl | rfl <;> rfl

/-- A type name begins a type. -/
theorem Upper.opens {text : Text} (upper : Upper text) :
    ∃ c rest, text = c :: rest ∧ opensBare c = true := by
  obtain ⟨c, rest, rfl, first, _⟩ := upper
  refine ⟨c, rest, rfl, ?_⟩
  simp [opensBare, first]

/-- The name of a builtin constructor is a type name. -/
theorem upper_conText (c : Con) : Upper (conText c) := by
  cases c <;> exact ⟨_, _, rfl, rfl, List.all_eq_true.mp rfl⟩

/-- An effect argument begins a type. -/
theorem writeEffectArg_opens (effect : EffectRow) :
    ∃ c rest, writeEffectArg interner names effect = c :: rest ∧ opensBare c = true := by
  obtain ⟨labels, tail⟩ := effect
  cases labels with
  | nil =>
    cases tail with
    | closed => exact ⟨_, _, rfl, rfl⟩
    | «open» ev => exact (varText_getEff names ev).opens
  | cons atom labels => exact ⟨_, _, rfl, rfl⟩

/-- The types with an operator at the top, which parentheses may surround. -/
def Composite : Ty → Prop
  | .app _ _ | .arrow _ _ _ | .tuple _ => True
  | _ => False

/-- A type without an operator at the top is written alike in every context, and begins with a
bare character unless it is the unit type. -/
theorem writeTy_simple {ty : Ty} (spelled : Spelled naming interner ty) (simple : ¬ Composite ty)
    (prec : Prec) : (ty = .unit ∧ writeTy interner names ty prec = (str "()")) ∨
      ∃ c rest, writeTy interner names ty prec = c :: rest ∧ opensBare c = true := by
  cases ty with
  | var v => exact Or.inr (by rw [writeTy]; exact (varText_get names v).opens)
  | con c => exact Or.inr (by rw [writeTy]; exact (upper_conText c).opens)
  | adt ref => exact Or.inr (by rw [writeTy]; exact (naming.adt_upper _ spelled).opens)
  | interface ref => exact Or.inr (by rw [writeTy]; exact (naming.interface_upper _ spelled).opens)
  | effectArg effect => exact Or.inr (by rw [writeTy]; exact writeEffectArg_opens names effect)
  | record fields tail => exact Or.inr ⟨_, _, by rw [writeTy], rfl⟩
  | unit => exact Or.inl ⟨rfl, by rw [writeTy]⟩
  | error => exact Or.inr ⟨'{', (str "error\x7d"), by rw [writeTy]; rfl, rfl⟩
  | app _ _ | arrow _ _ _ | tuple _ => exact absurd trivial simple

/-- Text in parentheses begins as the text does or with the parenthesis. -/
theorem parenthesized_opens {text : Text} (opens : ∃ c rest, text = c :: rest ∧ opensType c = true)
    (parenthesize : Bool) :
    ∃ c rest, parenthesized parenthesize text = c :: rest ∧ opensType c = true := by
  cases parenthesize with
  | false => exact opens
  | true => exact ⟨'(', _, rfl, rfl⟩

/-- Text after one that begins a type begins it too. -/
theorem opens_append {text : Text} (opens : ∃ c rest, text = c :: rest ∧ opensType c = true)
    (more : Text) : ∃ c rest, text ++ more = c :: rest ∧ opensType c = true := by
  obtain ⟨c, rest, rfl, first⟩ := opens
  exact ⟨c, rest ++ more, rfl, first⟩

/-- Every type begins with a character that begins a type. -/
theorem writeTy_opens : ∀ (ty : Ty) (_ : Spelled naming interner ty) (prec : Prec),
    ∃ c rest, writeTy interner names ty prec = c :: rest ∧ opensType c = true
  | .app func arg, spelled, prec => by
    rw [writeTy]
    exact parenthesized_opens (opens_append (writeTy_opens func spelled.1 _) _) _
  | .arrow source target effect, spelled, prec => by
    rw [writeTy]
    exact parenthesized_opens (opens_append (writeTy_opens source spelled.1 _) _) _
  | .tuple [], spelled, _ => absurd spelled.1 (by decide)
  | .tuple (head :: rest), spelled, prec => by
    rw [writeTy, writeTys, joined]
    exact parenthesized_opens (opens_append (writeTy_opens head spelled.2.1 _) _) _
  | .var v, spelled, prec => simple (.var v) spelled id prec
  | .con c, spelled, prec => simple (.con c) spelled id prec
  | .adt ref, spelled, prec => simple (.adt ref) spelled id prec
  | .interface ref, spelled, prec => simple (.interface ref) spelled id prec
  | .effectArg effect, spelled, prec => simple (.effectArg effect) spelled id prec
  | .record fields tail, spelled, prec => simple (.record fields tail) spelled id prec
  | .unit, spelled, prec => simple .unit spelled id prec
  | .error, spelled, prec => simple .error spelled id prec
where
  simple (ty : Ty) (spelled : Spelled naming interner ty) (plain : ¬ Composite ty) (prec : Prec) :
      ∃ c rest, writeTy interner names ty prec = c :: rest ∧ opensType c = true := by
    rcases writeTy_simple names spelled plain prec with ⟨_, text⟩ | ⟨c, rest, text, first⟩
    · exact ⟨'(', [')'], text, rfl⟩
    · exact ⟨c, rest, text, by rw [opensType, first]; rfl⟩

/-- A type with an operator at the top stands in parentheses as an operand. -/
theorem writeTy_composite {ty : Ty} (composite : Composite ty) :
    writeTy interner names ty .atom = '(' :: (writeTy interner names ty .top ++ [')']) := by
  cases ty with
  | app _ _ => rw [writeTy, writeTy]; rfl
  | arrow _ _ _ => rw [writeTy, writeTy]; rfl
  | tuple _ => rw [writeTy, writeTy]; rfl
  | _ => exact absurd composite id

/-- An operand is seen to begin. -/
theorem startsArg_writeTy {ty : Ty} (spelled : Spelled naming interner ty) (rest : Text) :
    startsArg (' ' :: (writeTy interner names ty .atom ++ rest)) = true := by
  by_cases composite : Composite ty
  · obtain ⟨c, more, text, first⟩ := writeTy_opens names ty spelled .top
    rw [writeTy_composite names composite, text]
    simp [startsArg, first]
  · rcases writeTy_simple names spelled composite .atom with ⟨_, text⟩ | ⟨c, more, text, first⟩
    · rw [text]
      rfl
    · rw [text]
      simp [startsArg, first]

end Shapes

/-! ## Reading texts back -/

/-- Names are told apart: each is read as what bears it. -/
structure Recognizes (naming : Naming) (named : Text → Ty) : Prop where
  /-- A builtin constructor. -/
  con : ∀ c, named (conText c) = .con c
  /-- A data type. -/
  adt : ∀ name, naming.adt name → named name = .adt ⟨0, 0⟩
  /-- An interface. -/
  interface : ∀ name, naming.interface name → named name = .interface ⟨0, 0⟩

section Reading

variable {naming : Naming} {interner : Interner} (names : VarNames) {named : Text → Ty}
  (recognizes : Recognizes naming named) {inner : Reader Ty} {n : Nat}
  (reads : ∀ ty, sizeOf ty ≤ n → Spelled naming interner ty →
    Recovers inner (writeTy interner names ty .top) (skeleton ty) TypeEnds)

include reads in
/-- A type in parentheses is read. -/
theorem reads_parens {ty : Ty} (spelled : Spelled naming interner ty) (small : sizeOf ty ≤ n)
    (composite : Composite ty) : Recovers (readAtom named inner) (writeTy interner names ty .atom)
      (skeleton ty) (Stops tokenChar) := by
  intro rest _
  obtain ⟨c, more, text, first⟩ := writeTy_opens names ty spelled .top
  have within := reads ty small spelled (')' :: rest) (typeEnds_cons rest rfl (by decide))
  have opens : ')' ≠ c := by
    rintro rfl
    cases first
  rw [writeTy_composite names composite]
  rw [text] at within ⊢
  simp only [List.cons_append] at within
  simp [readAtom, readParens, str, opens, within]

/-- The text of a labelled field. -/
def fieldText (interner : Interner) (names : VarNames) (field : Symbol × Ty) : Text :=
  nameText interner field.1 ++ ((str " : ") ++ writeTy interner names field.2 .top)

/-- The fields of a record are its first after the lead and the others after commas. -/
theorem writeFields_cons (lead : Text) (field : Symbol × Ty) (rest : List (Symbol × Ty)) :
    writeFields interner names lead (field :: rest) = lead ++ (fieldText interner names field ++
      rest.flatMap fun field => (str ", ") ++ fieldText interner names field) := by
  induction rest generalizing lead field with
  | nil => simp [writeFields, fieldText]
  | cons next rest inductionHypothesis =>
    rw [writeFields, inductionHypothesis]
    simp [fieldText]

/-- A label is a token that begins no type name. -/
theorem Lower.spec {name : Text} (lower : Lower name) :
    (∀ d ∈ name, tokenChar d = true) ∧ ∀ rest, startsLabel (name ++ rest) = true ∧
      (name ++ rest).head?.any Char.isUpper = false := by
  obtain ⟨c, more, rfl, notUpper, within⟩ := lower
  refine ⟨within, fun rest => ⟨?_, ?_⟩⟩
  · simp [startsLabel, within c List.mem_cons_self, notUpper]
  · simp [notUpper]

include reads in
/-- A labelled field is read. -/
theorem reads_field {field : Symbol × Ty} (label : Lower (nameText interner field.1))
    (spelled : Spelled naming interner field.2) (small : sizeOf field.2 ≤ n) :
    Recovers (readField inner) (fieldText interner names field) (0, skeleton field.2) TypeEnds := by
  intro rest ends
  have read := reads_token label.spec.1 ((str " : ") ++ (writeTy interner names field.2 .top ++
    rest)) ((stops_cons _ _ _).mpr rfl)
  have typed := reads field.2 small spelled rest ends
  rw [fieldText, List.append_assoc, List.append_assoc, readField, read]
  simp only [Option.bind_eq_bind, Option.bind_some, literal_append, typed]

/-- The tail of a record is read. -/
theorem reads_rowTail (tail : RowEnd) : Recovers readRowTail
    (writeRowTail names tail ++ (str " \x7d")) (tailSkeleton tail) fun _ => True := by
  intro rest _
  cases tail <;> simp [readRowTail, writeRowTail, VarNames.getRow, tailSkeleton, str]

/-- A type ends before the tail of a record, where no field and no effect begins. -/
theorem rowTail_ends (tail : RowEnd) (rest : Text) :
    ∃ c more, writeRowTail names tail ++ (str " \x7d") ++ rest = ' ' :: c :: more ∧
      TypeEnds (' ' :: c :: more) ∧ startsLabel (c :: more) = false ∧ c.isUpper = false := by
  cases tail with
  | closed => exact ⟨_, _, rfl, typeEnds_blank _ rfl (by decide) (by decide) (by decide), rfl, rfl⟩
  | «open» rv =>
    exact ⟨_, _, rfl, typeEnds_blank _ rfl (by decide) (by decide) (by decide), rfl, rfl⟩

include reads in
/-- The fields of a record are read. -/
theorem reads_fields {fields : List (Symbol × Ty)} (spelled : FieldsSpelled naming interner fields)
    (small : ∀ field ∈ fields, sizeOf field.2 ≤ n) {c : Char} {rest : Text}
    (ends : TypeEnds (' ' :: c :: rest)) (label : startsLabel (c :: rest) = false) :
    readFields inner (writeFields interner names (str " ") fields ++ ' ' :: c :: rest) =
      some (fieldSkeletons fields, ' ' :: c :: rest) := by
  cases fields with
  | nil =>
    rw [writeFields, List.nil_append, readFields, List.drop_one, List.tail_cons, label]
    rfl
  | cons field fields =>
    have each : ∀ other ∈ field :: fields,
        Recovers (readField inner) (fieldText interner names other)
          (0, skeleton other.2) TypeEnds :=
      fun other member => reads_field names reads (spelled.mem other member).1
        (spelled.mem other member).2 (small other member)
    have comma : ∀ rest, TypeEnds ((str ", ") ++ rest) :=
      fun rest => typeEnds_cons (' ' :: rest) rfl (by decide)
    have last : ∀ rest', rest' = ' ' :: c :: rest → TypeEnds rest' := fun _ same => same ▸ ends
    have items := reads_separated each comma last (fun _ same => by rw [same]; rfl) (by decide)
      (' ' :: c :: rest) rfl
    rw [List.append_assoc] at items
    have begins := ((spelled.mem field List.mem_cons_self).1.spec.2 ((str " : ") ++
      writeTy interner names field.2 .top ++ (fields.flatMap fun other => (str ", ") ++
        fieldText interner names other) ++ ' ' :: c :: rest)).1
    have opens : startsLabel (fieldText interner names field ++ ((fields.flatMap fun other =>
        (str ", ") ++ fieldText interner names other) ++ ' ' :: c :: rest)) = true := by
      simpa only [fieldText, List.append_assoc] using begins
    have shape : writeFields interner names (str " ") (field :: fields) ++ ' ' :: c :: rest =
        ' ' :: (fieldText interner names field ++ ((fields.flatMap fun other =>
          (str ", ") ++ fieldText interner names other) ++ ' ' :: c :: rest)) := by
      rw [writeFields_cons, List.append_assoc, List.append_assoc]
      rfl
    rw [shape, readFields, List.drop_one, List.tail_cons, opens, if_pos rfl]
    simp only [Option.bind_eq_bind, Option.bind_some, items, fieldSkeletons_eq, List.map_cons]

include reads in
/-- A record is read. -/
theorem reads_record {fields : List (Symbol × Ty)} {tail : RowEnd}
    (spelled : FieldsSpelled naming interner fields)
    (small : ∀ field ∈ fields, sizeOf field.2 ≤ n) :
    Recovers (readAtom named inner) (writeTy interner names (.record fields tail) .atom)
      (skeleton (.record fields tail)) (Stops tokenChar) := by
  intro rest _
  obtain ⟨c, more, text, ends, label, upper⟩ := rowTail_ends names tail rest
  have fieldsRead := reads_fields names reads spelled small ends label
  have tailRead := reads_rowTail names tail rest trivial
  rw [text] at tailRead
  have opens : ∃ d others, writeFields interner names (str " ") fields ++ ' ' :: c :: more =
      ' ' :: d :: others ∧ d.isUpper = false := by
    cases fields with
    | nil => exact ⟨c, more, rfl, upper⟩
    | cons field fields =>
      obtain ⟨within, begins⟩ := (spelled.mem field List.mem_cons_self).1.spec
      obtain ⟨d, name, written, _, _⟩ := (spelled.mem field List.mem_cons_self).1
      have notUpper := (begins []).2
      rw [writeFields_cons, fieldText, written]
      rw [written] at notUpper
      exact ⟨d, _, rfl, by simpa using notUpper⟩
  obtain ⟨d, others, shape, notUpper⟩ := opens
  have whole : writeTy interner names (.record fields tail) .atom ++ rest =
      '{' :: ' ' :: d :: others := by
    rw [writeTy, List.cons_append, List.append_assoc, text, shape]
  rw [shape] at fieldsRead
  rw [whole, skeleton]
  simp [readAtom, readBraces, readRecord, str, notUpper, fieldsRead, tailRead]

include recognizes reads in
/-- An operand is read when what it holds in parentheses and braces is small. -/
theorem reads_atom {ty : Ty} (spelled : Spelled naming interner ty) (small : sizeOf ty ≤ n + 1)
    (parens : Composite ty → sizeOf ty ≤ n) : Recovers (readAtom named inner)
      (writeTy interner names ty .atom) (skeleton ty) (Stops tokenChar) := by
  cases ty with
  | var v =>
    rw [writeTy]
    exact reads_var named inner (varText_get names v)
  | con c =>
    have read := reads_name named inner (upper_conText c)
    rw [recognizes.con] at read
    rwa [writeTy]
  | adt ref =>
    have read := reads_name named inner (naming.adt_upper _ spelled)
    rw [recognizes.adt _ spelled] at read
    rwa [writeTy]
  | interface ref =>
    have read := reads_name named inner (naming.interface_upper _ spelled)
    rw [recognizes.interface _ spelled] at read
    rwa [writeTy]
  | effectArg effect =>
    rw [writeTy]
    exact reads_effectArg names named inner spelled
  | unit => exact fun rest _ => by rw [writeTy]; rfl
  | error => exact fun rest _ => by rw [writeTy]; rfl
  | record fields tail =>
    refine reads_record names reads spelled fun field member => ?_
    have inside := List.sizeOf_lt_of_mem member
    have part : sizeOf field.2 < sizeOf field := by
      obtain ⟨label, ty⟩ := field
      show sizeOf ty < sizeOf (label, ty)
      rw [Prod.mk.sizeOf_spec]
      omega
    rw [Ty.record.sizeOf_spec] at small
    omega
  | app _ _ => exact reads_parens names reads spelled (parens trivial) trivial
  | arrow _ _ _ => exact reads_parens names reads spelled (parens trivial) trivial
  | tuple _ => exact reads_parens names reads spelled (parens trivial) trivial

/-! ### Applications -/

/-- What a type application applies. -/
def spineRoot : Ty → Ty
  | .app head _ => spineRoot head
  | ty => ty

/-- The operands of a type application, in order. -/
def spineArgs : Ty → List Ty
  | .app head arg => spineArgs head ++ [arg]
  | _ => []

/-- The root and the operands are parts of the type. -/
theorem spine_parts {ty : Ty} (spelled : Spelled naming interner ty) :
    Spelled naming interner (spineRoot ty) ∧ sizeOf (spineRoot ty) ≤ sizeOf ty ∧
      (spineRoot ty = ty ∨ sizeOf (spineRoot ty) < sizeOf ty) ∧
      ∀ arg ∈ spineArgs ty, Spelled naming interner arg ∧ sizeOf arg < sizeOf ty := by
  induction ty using spineRoot.induct with
  | case1 head arg inductionHypothesis =>
    obtain ⟨root, size, _, args⟩ := inductionHypothesis spelled.1
    rw [spineRoot, spineArgs, Ty.app.sizeOf_spec]
    refine ⟨root, by omega, Or.inr (by omega), ?_⟩
    intro other member
    rw [List.mem_append, List.mem_singleton] at member
    rcases member with member | rfl
    · exact ⟨(args other member).1, by have := (args other member).2; omega⟩
    · exact ⟨spelled.2, by omega⟩
  | case2 ty other =>
    have root : spineRoot ty = ty := by
      cases ty with
      | app head arg => exact absurd rfl (other head arg)
      | _ => rfl
    have args : spineArgs ty = [] := by
      cases ty with
      | app head arg => exact absurd rfl (other head arg)
      | _ => rfl
    rw [root, args]
    exact ⟨spelled, Nat.le_refl _, Or.inl rfl, fun _ member => by cases member⟩

/-- What an application applies is no application. -/
theorem spineRoot_not_app (ty : Ty) : ∀ head arg, spineRoot ty ≠ .app head arg := by
  induction ty using spineRoot.induct with
  | case1 head arg inductionHypothesis => exact inductionHypothesis
  | case2 ty other =>
    cases ty with
    | app head arg => exact absurd rfl (other head arg)
    | _ => exact fun _ _ same => by cases same

/-- An application is written as its root and its operands. -/
theorem writeTy_spine (ty : Ty) : writeTy interner names ty .app =
    writeTy interner names (spineRoot ty) .atom ++
      (spineArgs ty).flatMap fun arg => ' ' :: writeTy interner names arg .atom := by
  induction ty using spineRoot.induct with
  | case1 head arg inductionHypothesis =>
    have plain : writeTy interner names (.app head arg) .app =
        writeTy interner names head .app ++ ' ' :: writeTy interner names arg .atom := by
      rw [writeTy]
      rfl
    rw [plain, inductionHypothesis, spineRoot, spineArgs, List.flatMap_append, List.append_assoc,
      List.flatMap_cons, List.flatMap_nil, List.append_nil]
  | case2 ty other =>
    cases ty with
    | app head arg => exact absurd rfl (other head arg)
    | _ => simp [spineRoot, spineArgs, writeTy, Prec.rank]

/-- The skeleton of an application is that of its root applied to those of its operands. -/
theorem skeleton_spine (ty : Ty) :
    ((spineArgs ty).map skeleton).foldl .app (skeleton (spineRoot ty)) = skeleton ty := by
  induction ty using spineRoot.induct with
  | case1 head arg inductionHypothesis =>
    rw [spineRoot, spineArgs, List.map_append, List.foldl_append, inductionHypothesis, skeleton]
    rfl
  | case2 ty other =>
    cases ty with
    | app head arg => exact absurd rfl (other head arg)
    | _ => rfl

/-- The types that stand in parentheses as a component of a tuple. -/
def Loose : Ty → Prop
  | .arrow _ _ _ | .tuple _ => True
  | _ => False

include recognizes reads in
/-- A type application is read. -/
theorem reads_chain {ty : Ty} (spelled : Spelled naming interner ty) (small : sizeOf ty ≤ n + 1)
    (parens : Loose ty → sizeOf ty ≤ n) : Recovers (readChain named inner)
      (writeTy interner names ty .app) (skeleton ty) ChainEnds := by
  intro rest ends
  obtain ⟨rootSpelled, rootSmall, rootPart, argParts⟩ := spine_parts spelled
  have rootParens : Composite (spineRoot ty) → sizeOf (spineRoot ty) ≤ n := by
    intro composite
    rcases rootPart with same | smaller
    · rw [same]
      refine parens ?_
      rw [same] at composite
      have noApp := spineRoot_not_app ty
      rw [same] at noApp
      cases ty with
      | app head arg => exact absurd rfl (noApp head arg)
      | _ => exact composite
    · omega
  have root := reads_atom names recognizes reads rootSpelled (by omega) rootParens
  have blank : ∀ rest, Stops tokenChar (' ' :: rest) := fun rest => (stops_cons _ _ _).mpr rfl
  have each : ∀ arg ∈ spineArgs ty, Recovers (fun text => readAtom named inner (text.drop 1))
      (' ' :: writeTy interner names arg .atom) (skeleton arg) (Stops tokenChar) := by
    intro arg member rest stops
    obtain ⟨argSpelled, argSmall⟩ := argParts arg member
    exact reads_atom names recognizes reads argSpelled (by omega) (fun _ => by omega) rest stops
  have args := reads_repeated each
    (fun arg member rest => startsArg_writeTy names (argParts arg member).1 rest)
    (fun arg _ rest => blank _) (fun rest ends => ends.1) (fun rest ends => ends.2)
    (fun arg _ nothing => by cases nothing) rest ends
  have follows : Stops tokenChar ((spineArgs ty).flatMap (fun arg =>
      ' ' :: writeTy interner names arg .atom) ++ rest) :=
    follow_flatMap (fun arg _ rest => blank _) (fun rest (ends : ChainEnds rest) => ends.1) rest
      ends
  have first := root _ follows
  rw [writeTy_spine, List.append_assoc, readChain, first]
  simp only [Option.bind_eq_bind, Option.bind_some, args, skeleton_spine]

/-! ### Tuples and arrows -/

/-- A type that is no tuple is written alike as a stage of an arrow and as a component. -/
theorem writeTy_product {ty : Ty} (plain : ∀ elems, ty ≠ .tuple elems) :
    writeTy interner names ty .product = writeTy interner names ty .app := by
  cases ty with
  | tuple elems => exact absurd rfl (plain elems)
  | _ => simp [writeTy, Prec.rank]

/-- The texts of tuple components are those of each. -/
theorem writeTys_eq (elems : List Ty) :
    writeTys interner names elems = elems.map fun ty => writeTy interner names ty .app := by
  induction elems with
  | nil => rw [writeTys, List.map_nil]
  | cons head rest inductionHypothesis => rw [writeTys, inductionHypothesis, List.map_cons]

/-- A chain may be followed by a star. -/
theorem chainEnds_star (rest : Text) : ChainEnds ((str " * ") ++ rest) :=
  ⟨(stops_cons _ _ _).mpr rfl, rfl⟩

/-- An arrow. -/
def IsArrow : Ty → Prop
  | .arrow _ _ _ => True
  | _ => False

/-- A stage of an arrow is its components with stars between them. -/
theorem product_shape {ty : Ty} (spelled : Spelled naming interner ty) : ∃ head rest,
    writeTy interner names ty .product = writeTy interner names head .app ++
        (rest.flatMap fun part => (str " * ") ++ writeTy interner names part .app) ∧
      tupled (skeleton head) (rest.map skeleton) = skeleton ty ∧
      ∀ part ∈ head :: rest, Spelled naming interner part ∧ sizeOf part ≤ sizeOf ty ∧
        (Loose part → part = ty ∧ IsArrow ty ∨ sizeOf part < sizeOf ty) := by
  by_cases tuple : ∃ elems, ty = .tuple elems
  · obtain ⟨elems, rfl⟩ := tuple
    obtain ⟨many, each⟩ := spelled
    cases elems with
    | nil => cases many
    | cons head rest =>
      refine ⟨head, rest, ?_, ?_, ?_⟩
      · rw [writeTy, writeTys_eq, List.map_cons, joined, List.flatMap_map]
        rfl
      · cases rest with
        | nil => exact absurd many (by simp)
        | cons second rest => rw [skeleton, skeletons_eq]; rfl
      · intro part member
        have inside := List.sizeOf_lt_of_mem member
        have spec : sizeOf (Ty.tuple (head :: rest)) = 1 + sizeOf (head :: rest) :=
          Ty.tuple.sizeOf_spec _
        exact ⟨each.mem part member, by omega, fun _ => Or.inr (by omega)⟩
  · refine ⟨ty, [], ?_, rfl, ?_⟩
    · rw [writeTy_product names fun elems same => tuple ⟨elems, same⟩, List.flatMap_nil,
        List.append_nil]
    · intro part member
      rw [List.mem_singleton] at member
      subst member
      refine ⟨spelled, Nat.le_refl _, fun loose => Or.inl ⟨rfl, ?_⟩⟩
      cases part with
      | tuple elems => exact absurd ⟨elems, rfl⟩ tuple
      | _ => exact loose

include recognizes reads in
/-- A tuple is read. -/
theorem reads_product {ty : Ty} (spelled : Spelled naming interner ty) (small : sizeOf ty ≤ n + 1)
    (parens : IsArrow ty → sizeOf ty ≤ n) : Recovers (readProduct named inner)
      (writeTy interner names ty .product) (skeleton ty) ProductEnds := by
  intro rest ends
  obtain ⟨head, others, text, value, parts⟩ := product_shape names spelled
  have each : ∀ part ∈ head :: others, Recovers (readChain named inner)
      (writeTy interner names part .app) (skeleton part) ChainEnds := by
    intro part member
    obtain ⟨partSpelled, partSmall, loose⟩ := parts part member
    refine reads_chain names recognizes reads partSpelled (by omega) fun isLoose => ?_
    rcases loose isLoose with ⟨rfl, arrow⟩ | smaller
    · exact parens arrow
    · omega
  have items := reads_separated each chainEnds_star
    (fun rest (ends : ProductEnds rest) => ends.1) (fun rest ends => ends.2) (by decide) rest ends
  rw [text, readProduct, items]
  simp only [Option.bind_eq_bind, Option.bind_some, value]

/-- The number of arrows to the right of each other. -/
def arrowDepth : Ty → Nat
  | .arrow _ target _ => arrowDepth target + 1
  | _ => 0

/-- An arrow is written as its stages and its effects. -/
theorem arrow_shape {ty : Ty} (spelled : Spelled naming interner ty) :
    ∃ (head : Ty) (stages : List Ty)
    (effects : List EffectRow),
    writeTy interner names ty .arrow = writeTy interner names head .product ++
        (stages.flatMap fun stage => (str " -> ") ++ writeTy interner names stage .product) ++
        (effects.flatMap fun effect => (str " / ") ++ writeEffectArg interner names effect) ∧
      staged (skeleton head) (stages.map skeleton) = skeleton ty ∧
      (∀ stage ∈ head :: stages, Spelled naming interner stage ∧ sizeOf stage ≤ sizeOf ty ∧
        (IsArrow stage → sizeOf stage < sizeOf ty)) ∧
      ∀ effect ∈ effects, ∃ whole, EffectSpelled naming interner whole ∧
        effect ∈ writtenEffect whole := by
  induction ty using arrowDepth.induct with
  | case1 source target effect inductionHypothesis =>
    obtain ⟨sourceSpelled, targetSpelled, effectSpelled⟩ := spelled
    obtain ⟨head, stages, effects, text, _, parts, written⟩ := inductionHypothesis targetSpelled
    have spec : sizeOf (Ty.arrow source target effect) =
        1 + sizeOf source + sizeOf target + sizeOf effect := Ty.arrow.sizeOf_spec _ _ _
    refine ⟨source, head :: stages, effects ++ writtenEffect effect, ?_, rfl, ?_, ?_⟩
    · rw [writeTy, text, writeEffect_eq]
      simp [parenthesized, Prec.rank, List.append_assoc]
    · intro stage member
      rw [List.mem_cons] at member
      rcases member with rfl | member
      · exact ⟨sourceSpelled, by omega, fun _ => by omega⟩
      · obtain ⟨stageSpelled, stageSmall, _⟩ := parts stage member
        exact ⟨stageSpelled, by omega, fun _ => by omega⟩
    · intro other member
      rw [List.mem_append] at member
      rcases member with member | member
      · exact written other member
      · exact ⟨effect, effectSpelled, member⟩
  | case2 ty other =>
    have plain : ¬ IsArrow ty := by
      intro arrow
      cases ty with
      | arrow source target effect => exact other source target effect rfl
      | _ => exact arrow
    refine ⟨ty, [], [], ?_, rfl, ?_, fun _ member => by cases member⟩
    · rw [List.flatMap_nil, List.flatMap_nil, List.append_nil, List.append_nil]
      cases ty with
      | arrow source target effect => exact absurd rfl (other source target effect)
      | _ => simp [writeTy, Prec.rank]
    · intro stage member
      rw [List.mem_singleton] at member
      subst member
      exact ⟨spelled, Nat.le_refl _, fun arrow => absurd arrow plain⟩

/-- A type is written alike at the top and to the right of an arrow. -/
theorem writeTy_top (ty : Ty) :
    writeTy interner names ty .top = writeTy interner names ty .arrow := by
  cases ty <;> simp [writeTy, Prec.rank]

/-- A stage may be followed by an arrow. -/
theorem productEnds_arrow (rest : Text) : ProductEnds ((str " -> ") ++ rest) :=
  ⟨⟨(stops_cons _ _ _).mpr rfl, rfl⟩, rfl⟩

/-- What may follow the stages of an arrow: an effect or what may follow a type. -/
def StagesEnd (rest : Text) : Prop := ProductEnds rest ∧ literal (str " -> ") rest = none

/-- The stages of an arrow may be followed by an effect. -/
theorem stagesEnd_effect (rest : Text) : StagesEnd ((str " / ") ++ rest) :=
  ⟨⟨⟨(stops_cons _ _ _).mpr rfl, rfl⟩, rfl⟩, rfl⟩

end Reading

/-- The text of a type is read back as its skeleton. -/
theorem reads_ty {naming : Naming} {interner : Interner} (names : VarNames) {named : Text → Ty}
    (recognizes : Recognizes naming named) : ∀ (fuel : Nat) (ty : Ty), sizeOf ty ≤ fuel →
      Spelled naming interner ty →
      Recovers (readTy named fuel) (writeTy interner names ty .top) (skeleton ty) TypeEnds
  | 0, ty, small, _ => by
    cases ty <;> simp at small
  | fuel + 1, ty, small, spelled => by
    intro rest ends
    obtain ⟨head, stages, effects, text, value, parts, written⟩ := arrow_shape names spelled
    have each : ∀ stage ∈ head :: stages, Recovers (readProduct named (readTy named fuel))
        (writeTy interner names stage .product) (skeleton stage) ProductEnds := by
      intro stage member
      obtain ⟨stageSpelled, stageSmall, arrow⟩ := parts stage member
      refine reads_product names recognizes (reads_ty names recognizes fuel) stageSpelled
        (by omega) fun isArrow => ?_
      have smaller := arrow isArrow
      omega
    have effectsRead := reads_after
      (fun effect member => by
        obtain ⟨whole, wholeSpelled, isWritten⟩ := written effect member
        exact reads_effect names wholeSpelled isWritten)
      (fun rest => (stops_cons _ _ _).mpr rfl) (fun rest (ends : TypeEnds rest) => ends.1.1.1)
      (fun rest ends => ends.2.2) (by decide) rest ends
    have follows : StagesEnd ((effects.flatMap fun effect =>
        (str " / ") ++ writeEffectArg interner names effect) ++ rest) :=
      follow_flatMap (fun effect _ rest => by
        rw [List.append_assoc]
        exact stagesEnd_effect _) (fun rest (ends : TypeEnds rest) => ⟨ends.1, ends.2.1⟩) rest ends
    have items := reads_separated each productEnds_arrow
      (fun rest (ends : StagesEnd rest) => ends.1) (fun rest ends => ends.2) (by decide) _ follows
    rw [writeTy_top, text, List.append_assoc, readTy, items]
    simp only [Option.bind_eq_bind, Option.bind_some, effectsRead, value]

/-- The canonical text of a type is read back as its skeleton. -/
theorem reads_renderCanonical {naming : Naming} {interner : Interner} {named : Text → Ty}
    (recognizes : Recognizes naming named) {fuel : Nat} {ty : Ty} (small : sizeOf ty ≤ fuel)
    (spelled : Spelled naming interner ty) :
    Recovers (readTy named fuel) (renderCanonical interner ty) (skeleton ty) TypeEnds :=
  reads_ty _ recognizes fuel ty small spelled

end Wire

end Fai
