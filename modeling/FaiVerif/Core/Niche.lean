import FaiVerif.Core.Ir

/-!
# Which options carry no wrapper

`niche.rs`: the standard library's option over a payload whose values leave a sentinel free is
represented without a cell for its value. The scheme is read off the type and the declarations the
type names.
-/

namespace Fai

/-- A declared type as far as the schemes read it: whether it is an alias, and the arity of each of
its constructors, where it is known. -/
structure TypeInfo where
  /-- Whether the declaration is a transparent alias. -/
  isAlias : Bool
  /-- The arities of the constructors. -/
  ctors : List (Option Nat)

/-- The declarations of a program. -/
structure TypeDecls where
  /-- The declaration of a nominal type, where its file and name are known. -/
  typeNamed : NominalRef → Option TypeInfo
  /-- The file of the prelude, where one is loaded. -/
  prelude : Option Nat
  /-- The name of the prelude's option. -/
  optionName : Symbol

namespace TypeDecls

variable (decls : TypeDecls)

/-- `adt_all_non_nullary`: whether every constructor of a declared union takes a field. -/
def adtAllNonNullary (adt : NominalRef) : Bool :=
  match decls.typeNamed adt with
  | none => false
  | some info =>
    if info.isAlias || info.ctors.isEmpty then false
    else info.ctors.all fun arity => arity.any fun arity => 1 ≤ arity

/-- `boxed_head`: whether the values of an applied type are always boxed. -/
def boxedHead : Ty → Bool
  | .con .array => true
  | .con .list => false
  | .adt adt => decls.adtAllNonNullary adt
  | .app inner _ => boxedHead inner
  | _ => false

/-- `always_boxed`: whether the values of a payload are always a boxed pointer. -/
def alwaysBoxed : Ty → Bool
  | .con .string | .con .bytes | .con .array | .tuple _ | .interface _ | .arrow _ _ _ => true
  | .record fields _ => !fields.isEmpty
  | .adt adt => decls.adtAllNonNullary adt
  | .app head _ => decls.boxedHead head
  | _ => false

/-- Whether a nominal type is the prelude's option. -/
def isOption (adt : NominalRef) : Bool :=
  adt.name == decls.optionName && decls.prelude == some adt.file

/-- `scheme_for`, with `payload_scheme` at the payload: the scheme of a type that is an option
without a wrapper. -/
def nicheScheme : Ty → Option NicheKind
  | .app (.adt adt) payload =>
    if decls.isOption adt then
      match payload with
      | .var _ => some .b
      | .con .float | .error | .effectArg _ => none
      | _ =>
        if (nicheScheme payload).isSome then none
        else if decls.alwaysBoxed payload then some .a else some .b
    else none
  | _ => none

end TypeDecls

end Fai
