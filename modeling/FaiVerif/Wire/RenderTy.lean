import FaiVerif.Core.Emit
import FaiVerif.Lib.Reading

/-!
# The canonical text of a type

`render_canonical` of `fai-types`: a type is written by the names of its constructors, with its
variables renamed in the order in which they appear, parentheses by precedence, and effects after
the arrow they belong to.
-/

namespace Fai

namespace Wire

open Reading (Text str decimal joined)

/-- The constructor's name. -/
def conText : Con → Text
  | .int => str "Int"
  | .float => str "Float"
  | .bool => str "Bool"
  | .string => str "String"
  | .bytes => str "Bytes"
  | .char => str "Char"
  | .list => str "List"
  | .array => str "Array"

/-- A quoted letter with a number after the letters of a round are used up. -/
def quotedName (first letters n : Nat) : Text :=
  '\'' :: Char.ofNat (first + n % letters) ::
    if n / letters = 0 then [] else decimal (n / letters)

/-- `canonical_name`. -/
def canonicalName (n : Nat) : Text := quotedName 97 26 n

/-- `eff_canonical_name`. -/
def effCanonicalName (n : Nat) : Text := quotedName 101 22 n

/-- The spellings of variables, `VarNames`. -/
structure VarNames where
  /-- The type variables in the order of their names. -/
  names : List Nat
  /-- The effect variables in the order of their names. -/
  effNames : List Nat

namespace VarNames

/-- `VarNames::get`. -/
def get (names : VarNames) (var : Nat) : Text :=
  if var ∈ names.names then canonicalName (names.names.idxOf var) else canonicalName var

/-- `VarNames::get_row`: canonical texts leave row variables anonymous. -/
def getRow (_ : VarNames) (_ : Nat) : Text := str "_"

/-- `VarNames::get_eff`. -/
def getEff (names : VarNames) (var : Nat) : Text :=
  if var ∈ names.effNames then effCanonicalName (names.effNames.idxOf var) else str "_"

end VarNames

/-- Add a variable unless it is there. -/
def pushVar (var : Nat) (out : List Nat) : List Nat := if var ∈ out then out else out ++ [var]

mutual

/-- `collect_vars`. -/
def collectVars : Ty → List Nat → List Nat
  | .var v, out => pushVar v out
  | .app f a, out => collectVars a (collectVars f out)
  | .arrow f a _, out => collectVars a (collectVars f out)
  | .tuple elems, out => collectVarsList elems out
  | .record fields _, out => collectVarsFields fields out
  | .con _, out | .adt _, out | .interface _, out | .effectArg _, out | .unit, out
  | .error, out => out

/-- The variables of tuple components. -/
def collectVarsList : List Ty → List Nat → List Nat
  | [], out => out
  | head :: rest, out => collectVarsList rest (collectVars head out)

/-- The variables of record fields. -/
def collectVarsFields : List (Symbol × Ty) → List Nat → List Nat
  | [], out => out
  | (_, head) :: rest, out => collectVarsFields rest (collectVars head out)

end

/-- Add an open tail's variable unless it is there. -/
def pushTail (tail : RowEnd) (out : List Nat) : List Nat :=
  match tail with
  | .open v => pushVar v out
  | .closed => out

mutual

/-- `collect_eff_vars`. -/
def collectEffVars : Ty → List Nat → List Nat
  | .arrow f a eff, out => pushTail eff.tail (collectEffVars a (collectEffVars f out))
  | .app f a, out => collectEffVars a (collectEffVars f out)
  | .tuple elems, out => collectEffVarsList elems out
  | .record fields _, out => collectEffVarsFields fields out
  | .effectArg eff, out => pushTail eff.tail out
  | .var _, out | .con _, out | .adt _, out | .interface _, out | .unit, out | .error, out => out

/-- The effect variables of tuple components. -/
def collectEffVarsList : List Ty → List Nat → List Nat
  | [], out => out
  | head :: rest, out => collectEffVarsList rest (collectEffVars head out)

/-- The effect variables of record fields. -/
def collectEffVarsFields : List (Symbol × Ty) → List Nat → List Nat
  | [], out => out
  | (_, head) :: rest, out => collectEffVarsFields rest (collectEffVars head out)

end

/-- The context of a written type, `Prec`. -/
inductive Prec where
  | top | arrow | product | app | atom
  deriving DecidableEq

/-- The order of contexts. -/
def Prec.rank : Prec → Nat
  | .top => 0
  | .arrow => 1
  | .product => 2
  | .app => 3
  | .atom => 4

/-- Put a text in parentheses when the context needs them. -/
def parenthesized (parenthesize : Bool) (text : Text) : Text :=
  if parenthesize then '(' :: (text ++ [')']) else text

section Write

variable (interner : Interner) (names : VarNames)

/-- The text of an interned name. -/
def nameText (symbol : Symbol) : Text := (interner.text symbol).toList

/-- The atoms of an effect, the first after the given text and the others after a comma. -/
def writeAtoms (lead : Text) : List NominalRef → Text
  | [] => []
  | atom :: rest => lead ++ (nameText interner atom.name ++ writeAtoms (str ", ") rest)

/-- The open tail of an effect in braces. -/
def writeEffTail : RowEnd → Text
  | .open ev => str " | " ++ names.getEff ev
  | .closed => []

/-- An effect in braces. -/
def writeBraces (effect : EffectRow) : Text :=
  '{' :: (writeAtoms interner (str " ") effect.labels ++
    (writeEffTail names effect.tail ++ str " \x7d"))

/-- `write_effect`. -/
def writeEffect (effect : EffectRow) : Text :=
  match effect.labels, effect.tail with
  | [], .closed => []
  | [], .open ev => str " / " ++ names.getEff ev
  | _ :: _, _ => str " / " ++ writeBraces interner names effect

/-- `write_effect_arg`. -/
def writeEffectArg (effect : EffectRow) : Text :=
  match effect.labels, effect.tail with
  | [], .closed => str "\x7b\x7d"
  | [], .open ev => names.getEff ev
  | _ :: _, _ => writeBraces interner names effect

/-- The tail of a record. -/
def writeRowTail : RowEnd → Text
  | .open rv => str " | " ++ names.getRow rv
  | .closed => []

mutual

/-- `write_ty`. -/
def writeTy : Ty → Prec → Text
  | .var v, _ => names.get v
  | .con c, _ => conText c
  | .adt adt, _ => nameText interner adt.name
  | .interface i, _ => nameText interner i.name
  | .effectArg effect, _ => writeEffectArg interner names effect
  | .unit, _ => str "()"
  | .error, _ => str "\x7berror\x7d"
  | .app func arg, prec =>
    parenthesized (prec.rank > Prec.app.rank)
      (writeTy func .app ++ ' ' :: writeTy arg .atom)
  | .arrow source target effect, prec =>
    parenthesized (prec.rank ≥ Prec.product.rank)
      (writeTy source .product ++ (str " -> " ++ (writeTy target .arrow ++
        writeEffect interner names effect)))
  | .tuple elems, prec =>
    parenthesized (prec.rank ≥ Prec.app.rank) (joined (str " * ") (writeTys elems))
  | .record fields tail, _ =>
    '{' :: (writeFields (str " ") fields ++ (writeRowTail names tail ++ str " \x7d"))

/-- The texts of tuple components. -/
def writeTys : List Ty → List Text
  | [] => []
  | head :: rest => writeTy head .app :: writeTys rest

/-- The fields of a record, the first after the given text and the others after a comma. -/
def writeFields (lead : Text) : List (Symbol × Ty) → Text
  | [] => []
  | (label, head) :: rest =>
    lead ++ (nameText interner label ++ (str " : " ++ (writeTy head .top ++
      writeFields (str ", ") rest)))

end

/-- `render_canonical`. -/
def renderCanonical (ty : Ty) : Text :=
  writeTy interner ⟨collectVars ty [], collectEffVars ty []⟩ ty .top

end Write

end Wire

end Fai
