import FaiVerif.Core.Niche

/-!
# What represents an option without a wrapper

`emit.rs` and the runtime: a value is one word, an immediate or a pointer to a heap object. Outside
of options without a wrapper every value has its uniform word, and the fields of a heap object hold
uniform words. An option without a wrapper is the uniform word of its payload or a word that the
payload leaves free.
-/

namespace Fai

/-- A value, whatever represents it. -/
inductive Value where
  | int (value : Int64)
  | float (bits : UInt64)
  | bool (value : Bool)
  | char (scalar : Char)
  | unit
  | string (utf8 : List UInt8)
  | bytes (content : List UInt8)
  | array (elements : List Value)
  | closure (func : Nat) (captures : List Value)
  | data (tag : Nat) (fields : List Value)

/-- A word: an immediate, the address of the shared object for nothing, or a pointer to a heap
object. -/
inductive Word where
  | immediate (payload : Int)
  | noneValue
  | int (value : Int64)
  | float (bits : UInt64)
  | string (utf8 : List UInt8)
  | bytes (content : List UInt8)
  | array (elements : List Word)
  | closure (func : Nat) (captures : List Word)
  | cell (tag : Nat) (fields : List Word)

namespace Word

/-- `is_boxed`: whether the low bit of a word is clear. -/
def isBoxed : Word → Bool
  | immediate _ => false
  | _ => true

/-- `is_none_sentinel`: whether a word points to the shared object for nothing. -/
def isNoneSentinel : Word → Bool
  | noneValue => true
  | _ => false

/-- The word of a constructor with its fields: an option without a wrapper is its payload or a word
for nothing, and a constructor without fields is an immediate. -/
def makeData (niche : Option NicheKind) (tag : Nat) : List Word → Word
  | [] =>
    match niche with
    | some .b => noneValue
    | _ => immediate tag
  | first :: rest =>
    match niche with
    | some _ => first
    | none => cell tag (first :: rest)

/-- `data_tag`: the tag of a data value. An option without a wrapper is tested for nothing by its
low bit or by its address. -/
def dataTag : Option NicheKind → Word → Nat
  | some .a, word => if word.isBoxed then 1 else 0
  | some .b, word => if word.isNoneSentinel then 0 else 1
  | none, immediate payload => payload.toNat
  | none, cell tag _ => tag
  | none, _ => 0

/-- `data_field`: a field of a data value. The payload of an option without a wrapper is the
option. -/
def dataField : Option NicheKind → Nat → Word → Word
  | some _, _, word => word
  | none, index, cell _ fields => fields.getD index (immediate 0)
  | none, _, word => word

/-- `fai_niche_a_to_std` and `fai_niche_b_to_std`: an option with its wrapper. -/
def nicheToStd : NicheKind → Word → Word
  | .a, word => if word.isBoxed then makeData none 1 [word] else word
  | .b, word => if word.isNoneSentinel then immediate 0 else makeData none 1 [word]

/-- `fai_std_to_niche_a` and `fai_std_to_niche_b`: an option without its wrapper. -/
def stdToNiche : NicheKind → Word → Word
  | .a, word => if word.isBoxed then dataField none 0 word else word
  | .b, word => if word.isBoxed then dataField none 0 word else noneValue

end Word

namespace Value

/-- `fits_immediate`: whether an integer fits 63 bits. -/
def fitsImmediate (value : Int64) : Bool :=
  decide (-4611686018427387904 ≤ value.toInt) && decide (value.toInt < 4611686018427387904)

mutual

/-- The uniform word of a value. -/
def uniform : Value → Word
  | int value => if fitsImmediate value then .immediate value.toInt else .int value
  | float bits => .float bits
  | bool value => .immediate value.toNat
  | char scalar => .immediate scalar.toNat
  | unit => .immediate 0
  | string utf8 => .string utf8
  | bytes content => .bytes content
  | array elements => .array (uniformAll elements)
  | closure func captures => .closure func (uniformAll captures)
  | data tag fields => Word.makeData none tag (uniformAll fields)

/-- The uniform words of values. -/
def uniformAll : List Value → List Word
  | [] => []
  | value :: rest => value.uniform :: uniformAll rest

end

/-- A uniform word is never the address of the shared object for nothing. -/
theorem not_noneSentinel_uniform (value : Value) : value.uniform.isNoneSentinel = false := by
  cases value with
  | int value =>
    rw [uniform]
    split_ifs <;> rfl
  | data tag fields => cases fields <;> rfl
  | _ => rfl

end Value

mutual

/-- A type with types for its variables. -/
def Ty.instantiate (types : Nat → Ty) : Ty → Ty
  | .var id => types id
  | .con name => .con name
  | .adt ref => .adt ref
  | .interface ref => .interface ref
  | .effectArg row => .effectArg row
  | .app head arg => .app (head.instantiate types) (arg.instantiate types)
  | .arrow source target effect =>
    .arrow (source.instantiate types) (target.instantiate types) effect
  | .tuple fields => .tuple (Ty.instantiateAll types fields)
  | .record fields tail => .record (Ty.instantiateFields types fields) tail
  | .unit => .unit
  | .error => .error

/-- Types with types for their variables. -/
def Ty.instantiateAll (types : Nat → Ty) : List Ty → List Ty
  | [] => []
  | ty :: rest => ty.instantiate types :: Ty.instantiateAll types rest

/-- The fields of a record with types for their variables. -/
def Ty.instantiateFields (types : Nat → Ty) : List (Symbol × Ty) → List (Symbol × Ty)
  | [] => []
  | (label, ty) :: rest => (label, ty.instantiate types) :: Ty.instantiateFields types rest

end

/-- Instantiating types keeps their number. -/
theorem Ty.length_instantiateAll (types : Nat → Ty) (fields : List Ty) :
    (Ty.instantiateAll types fields).length = fields.length := by
  induction fields with
  | nil => rfl
  | cons ty rest hypothesis => simp only [Ty.instantiateAll, List.length_cons, hypothesis]

/-- Instantiating fields keeps their number. -/
theorem Ty.length_instantiateFields (types : Nat → Ty) (fields : List (Symbol × Ty)) :
    (Ty.instantiateFields types fields).length = fields.length := by
  induction fields with
  | nil => rfl
  | cons field rest hypothesis => simp only [Ty.instantiateFields, List.length_cons, hypothesis]

namespace TypeDecls

variable (decls : TypeDecls)

/-- Whether a value is of one of the constructors of a declared union. Nothing is said of the values
of an alias or of a type that is not known. -/
def Constructed (adt : NominalRef) (value : Value) : Prop :=
  ∀ info, decls.typeNamed adt = some info → info.isAlias = false → info.ctors ≠ [] →
    ∃ tag fields, value = .data tag fields ∧ info.ctors[tag]? = some (some fields.length)

/-- What the head of an applied type says of its values. -/
def Applied : Ty → Value → Prop
  | .con .array, value => ∃ elements, value = .array elements
  | .con .list, value => value = .data 0 [] ∨ ∃ head tail, value = .data 1 [head, tail]
  | .adt adt, value => decls.Constructed adt value
  | .interface _, value => ∃ methods, value = .data 0 methods ∧ methods ≠ []
  | .app inner _, value => Applied inner value
  | _, _ => True

/-- What the outermost constructor of a type says of its values, and for options their payloads. A
type variable may stand for any type, so nothing is said of its values. -/
def Inhabits : Ty → Value → Prop
  | .con .int, value => ∃ number, value = .int number
  | .con .float, value => ∃ bits, value = .float bits
  | .con .bool, value => ∃ truth, value = .bool truth
  | .con .char, value => ∃ scalar, value = .char scalar
  | .con .string, value => ∃ utf8, value = .string utf8
  | .con .bytes, value => ∃ content, value = .bytes content
  | .con .array, value => ∃ elements, value = .array elements
  | .con .list, value => value = .data 0 [] ∨ ∃ head tail, value = .data 1 [head, tail]
  | .unit, value => value = .unit
  | .arrow _ _ _, value => ∃ func captures, value = .closure func captures
  | .tuple fields, value =>
    ∃ values, value = .data 0 values ∧ values.length = fields.length ∧ 2 ≤ fields.length
  | .record fields _, value => ∃ values, value = .data 0 values ∧ fields.length ≤ values.length
  | .interface _, value => ∃ methods, value = .data 0 methods ∧ methods ≠ []
  | .adt adt, value => decls.Constructed adt value
  | .app (.adt adt) payload, value =>
    decls.Constructed adt value ∧ (decls.isOption adt = true →
      value = .data 0 [] ∨ ∃ content, value = .data 1 [content] ∧ Inhabits payload content)
  | .app head _, value => decls.Applied head value
  | _, _ => True

/-- The word of a value where its type is known: that of an option without a wrapper where the type
is one, else the uniform word. -/
def word (ty : Ty) : Value → Word
  | .data tag fields => Word.makeData (decls.nicheScheme ty) tag (Value.uniformAll fields)
  | value => value.uniform

variable {decls}

/-- What has a scheme is an option over a payload without one, which is always boxed in the first
scheme. -/
theorem nicheScheme_some {ty : Ty} {kind : NicheKind} (scheme : decls.nicheScheme ty = some kind) :
    ∃ adt payload, ty = .app (.adt adt) payload ∧ decls.isOption adt = true ∧
      decls.nicheScheme payload = none ∧ (kind = .a → decls.alwaysBoxed payload = true) := by
  cases ty with
  | app head payload =>
    cases head with
    | adt adt =>
      have general (scheme : (if decls.isOption adt then
          (if (decls.nicheScheme payload).isSome then none
            else if decls.alwaysBoxed payload then some NicheKind.a else some .b) else none) =
          some kind) : decls.isOption adt = true ∧ decls.nicheScheme payload = none ∧
            (kind = .a → decls.alwaysBoxed payload = true) := by
        split_ifs at scheme with option nested boxed
        · exact ⟨option, Option.not_isSome_iff_eq_none.mp nested, fun _ => boxed⟩
        · refine ⟨option, Option.not_isSome_iff_eq_none.mp nested, fun first => ?_⟩
          rw [first] at scheme
          cases scheme
      refine ⟨adt, payload, rfl, ?_⟩
      cases payload with
      | var =>
        rw [nicheScheme] at scheme
        split_ifs at scheme with option
        refine ⟨option, rfl, fun first => ?_⟩
        rw [first] at scheme
        cases scheme
      | con con =>
        cases con with
        | float => rw [nicheScheme, ite_self] at scheme; cases scheme
        | _ => exact general scheme
      | error | effectArg => rw [nicheScheme, ite_self] at scheme; cases scheme
      | _ => exact general scheme
    | _ => cases scheme
  | _ => cases scheme

/-- A data value with fields is boxed. -/
theorem isBoxed_data {tag : Nat} {fields : List Value} (some : fields ≠ []) :
    (Value.data tag fields).uniform.isBoxed = true := by
  cases fields with
  | nil => exact absurd rfl some
  | cons => rfl

/-- The values of a union without constructors that take no field are boxed. -/
theorem isBoxed_of_adt {adt : NominalRef} {value : Value}
    (every : decls.adtAllNonNullary adt = true) (constructed : decls.Constructed adt value) :
    value.uniform.isBoxed = true := by
  rw [adtAllNonNullary] at every
  cases known : decls.typeNamed adt with
  | none =>
    rw [known] at every
    cases every
  | some info =>
    rw [known] at every
    simp only at every
    split_ifs at every with either
    rw [Bool.or_eq_true, not_or, List.isEmpty_iff] at either
    obtain ⟨tag, fields, rfl, found⟩ := constructed info known
      (Bool.not_eq_true _ ▸ either.1) either.2
    have some := List.all_eq_true.mp every _ (List.mem_of_getElem? found)
    rw [Option.any_some, decide_eq_true_eq] at some
    exact isBoxed_data (List.ne_nil_of_length_pos some)

/-- The values of a boxed head are boxed. -/
theorem isBoxed_of_head {value : Value} : ∀ head : Ty, decls.boxedHead head = true →
    decls.Applied head value → value.uniform.isBoxed = true
  | .con .array, _, applied => by
    obtain ⟨elements, rfl⟩ := applied
    rfl
  | .adt _, boxed, applied => isBoxed_of_adt boxed applied
  | .app inner _, boxed, applied => isBoxed_of_head inner boxed applied
  | .con .int, boxed, _ | .con .float, boxed, _ | .con .bool, boxed, _ | .con .char, boxed, _
  | .con .string, boxed, _ | .con .bytes, boxed, _ | .con .list, boxed, _ | .var _, boxed, _
  | .interface _, boxed, _ | .effectArg _, boxed, _ | .arrow _ _ _, boxed, _ | .tuple _, boxed, _
  | .record _ _, boxed, _ | .unit, boxed, _ | .error, boxed, _ => absurd boxed Bool.false_ne_true

/-- The values of an always boxed payload are boxed. -/
theorem isBoxed_of_alwaysBoxed {payload : Ty} {value : Value}
    (boxed : decls.alwaysBoxed payload = true) (inhabits : decls.Inhabits payload value) :
    value.uniform.isBoxed = true := by
  cases payload with
  | con con =>
    cases con with
    | string | bytes | array =>
      obtain ⟨content, rfl⟩ := inhabits
      rfl
    | _ => cases boxed
  | adt adt => exact isBoxed_of_adt boxed inhabits
  | interface =>
    obtain ⟨methods, rfl, some⟩ := inhabits
    exact isBoxed_data some
  | app head arg =>
    cases head with
    | adt adt => exact isBoxed_of_adt boxed inhabits.1
    | _ => exact isBoxed_of_head _ boxed inhabits
  | arrow =>
    obtain ⟨func, captures, rfl⟩ := inhabits
    rfl
  | tuple fields =>
    obtain ⟨values, rfl, length, two⟩ := inhabits
    exact isBoxed_data (List.ne_nil_of_length_pos (by omega))
  | record fields tail =>
    obtain ⟨values, rfl, length⟩ := inhabits
    rw [alwaysBoxed, Bool.not_eq_true', List.isEmpty_eq_false_iff] at boxed
    have some := List.length_pos_iff.mpr boxed
    exact isBoxed_data (List.ne_nil_of_length_pos (by omega))
  | _ => cases boxed

/-- What an instantiated head says, the head says. -/
theorem applied_of_instantiate (types : Nat → Ty) {value : Value} : ∀ head : Ty,
    decls.Applied (head.instantiate types) value → decls.Applied head value
  | .app inner _, applied => applied_of_instantiate types inner applied
  | .con _, applied | .adt _, applied | .interface _, applied => applied
  | .var _, _ | .effectArg _, _ | .arrow _ _ _, _ | .tuple _, _ | .record _ _, _ | .unit, _
  | .error, _ => trivial

/-- The values of an instance of a type are values of the type. -/
theorem inhabits_of_instantiate (types : Nat → Ty) : ∀ (ty : Ty) {value : Value},
    decls.Inhabits (ty.instantiate types) value → decls.Inhabits ty value
  | .app (.adt _) payload, _, ⟨constructed, option⟩ => by
    refine ⟨constructed, fun isOption => (option isOption).imp_right ?_⟩
    rintro ⟨content, rfl, inhabits⟩
    exact ⟨content, rfl, inhabits_of_instantiate types payload inhabits⟩
  | .app (.app head arg) _, _, inhabits => applied_of_instantiate types (.app head arg) inhabits
  | .app (.con _) _, _, inhabits | .app (.interface _) _, _, inhabits => inhabits
  | .tuple fields, _, ⟨values, same, length, two⟩ =>
    ⟨values, same, by rwa [Ty.length_instantiateAll] at length,
      by rwa [Ty.length_instantiateAll] at two⟩
  | .record fields _, _, ⟨values, same, length⟩ =>
    ⟨values, same, by rwa [Ty.length_instantiateFields] at length⟩
  | .con _, _, inhabits | .adt _, _, inhabits | .interface _, _, inhabits | .unit, _, inhabits
  | .arrow _ _ _, _, inhabits => inhabits
  | .app (.var _) _, _, _ | .app (.effectArg _) _, _, _ | .app (.arrow _ _ _) _, _, _
  | .app (.tuple _) _, _, _ | .app (.record _ _) _, _, _ | .app .unit _, _, _
  | .app .error _, _, _ | .var _, _, _ | .effectArg _, _, _ | .error, _, _ => trivial

/-- The word of a value of a type that is no option without a wrapper is its uniform word. -/
theorem word_of_none {ty : Ty} (standard : decls.nicheScheme ty = none) (value : Value) :
    decls.word ty value = value.uniform := by
  cases value with
  | data tag fields => rw [word, standard]; rfl
  | _ => rfl

/-- A type that has a scheme is an option whose word for nothing is none of its payload, at any
instance of its variables: constructing with a payload is injective, both the tag and the payload
read from a word are those of the option with its wrapper, and the conversions to and from it are
inverse to each other. -/
theorem niche_unambiguous (decls : TypeDecls) {ty : Ty} {kind : NicheKind}
    (scheme : decls.nicheScheme ty = some kind) :
    ∃ adt payload, ty = .app (.adt adt) payload ∧ decls.isOption adt = true ∧
      Function.Injective (fun word => Word.makeData (some kind) 1 [word]) ∧
      ∀ types value, decls.Inhabits (payload.instantiate types) value →
        decls.word payload value = value.uniform ∧
        decls.word ty (.data 1 [value]) = Word.makeData (some kind) 1 [value.uniform] ∧
        decls.word ty (.data 1 [value]) ≠ decls.word ty (.data 0 []) ∧
        Word.dataField (some kind) 0 (decls.word ty (.data 1 [value])) =
          Word.dataField none 0 (Value.data 1 [value]).uniform ∧
        ∀ option, option = .data 0 [] ∨ option = .data 1 [value] →
          Word.dataTag (some kind) (decls.word ty option) = Word.dataTag none option.uniform ∧
          Word.nicheToStd kind (decls.word ty option) = option.uniform ∧
          Word.stdToNiche kind option.uniform = decls.word ty option := by
  obtain ⟨adt, payload, rfl, isOption, standard, boxed⟩ := nicheScheme_some scheme
  refine ⟨adt, payload, rfl, isOption, fun _ _ same => same, fun types value inhabits => ?_⟩
  have inhabits := inhabits_of_instantiate types payload inhabits
  have here : decls.word (.app (.adt adt) payload) (.data 1 [value]) = value.uniform := by
    rw [word, scheme]
    rfl
  have nothing : decls.word (.app (.adt adt) payload) (.data 0 []) =
      Word.makeData (some kind) 0 [] := by
    rw [word, scheme]
    rfl
  have object := value.not_noneSentinel_uniform
  cases kind with
  | a =>
    have pointer := isBoxed_of_alwaysBoxed (boxed rfl) inhabits
    refine ⟨word_of_none standard value, here, ?_, ?_, fun option either => ?_⟩
    · rw [here, nothing]
      intro same
      rw [same] at pointer
      cases pointer
    · rw [here]
      rfl
    · rcases either with rfl | rfl
      · rw [nothing]
        exact ⟨rfl, rfl, rfl⟩
      · rw [here]
        refine ⟨?_, ?_, rfl⟩
        · rw [Word.dataTag, pointer]
          rfl
        · rw [Word.nicheToStd, pointer]
          rfl
  | b =>
    refine ⟨word_of_none standard value, here, ?_, ?_, fun option either => ?_⟩
    · rw [here, nothing]
      intro same
      rw [same] at object
      cases object
    · rw [here]
      rfl
    · rcases either with rfl | rfl
      · rw [nothing]
        exact ⟨rfl, rfl, rfl⟩
      · rw [here]
        refine ⟨?_, ?_, rfl⟩
        · rw [Word.dataTag, object]
          rfl
        · rw [Word.nicheToStd, object]
          rfl

/-- The declarations of a prelude with its option and nothing else. -/
def preludeOnly : TypeDecls where
  typeNamed adt := if adt.name = 0 then some ⟨false, [some 0, some 1]⟩ else none
  prelude := some 0
  optionName := 0

/-- Optional strings. -/
def optionString : Ty := .app (.adt ⟨0, 0⟩) (.con .string)

/-- No string is taken for nothing, and its tag is read as that of an option with a wrapper. -/
theorem niche_unambiguous_string : preludeOnly.nicheScheme optionString = some .a ∧
    preludeOnly.word optionString (.data 1 [.string []]) ≠
      preludeOnly.word optionString (.data 0 []) ∧
    Word.dataTag (some .a) (preludeOnly.word optionString (.data 1 [.string []])) =
      Word.dataTag none (Value.data 1 [.string []]).uniform := by
  have scheme : preludeOnly.nicheScheme optionString = some .a := by decide
  obtain ⟨adt, payload, same, _, _, each⟩ := niche_unambiguous preludeOnly scheme
  injection same with _ same
  have inhabits : preludeOnly.Inhabits (payload.instantiate .var) (.string []) := by
    rw [← same]
    exact ⟨[], rfl⟩
  obtain ⟨_, _, apart, _, options⟩ := each .var (.string []) inhabits
  exact ⟨scheme, apart, (options (.data 1 [.string []]) (.inr rfl)).1⟩

example : preludeOnly.nicheScheme (.app (.adt ⟨0, 0⟩) optionString) = none := by decide

end TypeDecls

end Fai
