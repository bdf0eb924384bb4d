import FaiVerif.Primitives.Text

/-!
# Unsigned integers of any size

`packages/decimal/src/DecimalNatural.fai`: integers as little-endian lists of limbs below ten to the
ninth. An index outside a list, and a machine integer that does not fit 64 bits, have no result.
Loops over indices are recursions on the number of limbs that are left.
-/

namespace Fai.Decimal.Natural

/-- `base`. -/
def base : Nat := 1000000000

/-- A machine integer. -/
def word (n : Nat) : Option Nat := if n < 9223372036854775808 then some n else none

/-- A machine integer that may be negative. -/
def signedWord (n : Int) : Option Int :=
  if -9223372036854775808 ≤ n ∧ n < 9223372036854775808 then some n else none

/-- A machine integer as a limb, which is not negative. -/
def wordLimb (n : Int) : Option Nat := if n < 0 then none else word n.toNat

/-- `Array.unsafeGet`. -/
def unsafeGet (index : Nat) (value : List Nat) : Option Nat := value[index]?

/-- `Array.unsafeSet`. -/
def unsafeSet (index x : Nat) (value : List Nat) : Option (List Nat) :=
  if index < value.length then some (value.set index x) else none

/-- `lastNonzero`, plus one: the limbs up to the last one that is not zero, among the first. -/
def lastNonzero (value : List Nat) : Nat → Option Nat
  | 0 => some 0
  | index + 1 => do
    let limb ← unsafeGet index value
    if limb ≠ 0 then pure (index + 1) else lastNonzero value index

/-- `trim`. -/
def trim (value : List Nat) : Option (List Nat) := do
  let count ← lastNonzero value value.length
  pure (value.take count)

/-- `isZero`. -/
def isZero (value : List Nat) : Bool := value.isEmpty

/-- `fromInt`, of an integer that is not negative. -/
def fromInt (value : Nat) : List Nat :=
  if value = 0 then [] else if value < base then [value] else [value % base, value / base]

/-- `limb`: zero beyond the last one. -/
def limb (value : List Nat) (index : Nat) : Nat :=
  if index < value.length then value.getD index 0 else 0

/-- `compareFrom`, from the limb below an index down. -/
def compareFrom (a b : List Nat) : Nat → Option Int
  | 0 => some 0
  | index + 1 => do
    let x ← unsafeGet index a
    let y ← unsafeGet index b
    if x < y then pure (-1) else if x > y then pure 1 else compareFrom a b index

/-- `compareMagnitude`. -/
def compareMagnitude (a b : List Nat) : Option Int :=
  if a.length < b.length then some (-1)
  else if a.length > b.length then some 1
  else compareFrom a b a.length

/-- `addFrom`, with the number of limbs that are left. -/
def addFrom (a b : List Nat) (index : Nat) : Nat → Nat → List Nat → Option (List Nat)
  | 0, carry, output => some (if carry = 0 then output else output ++ [carry])
  | left + 1, carry, output => do
    let sum ← word (limb a index + limb b index + carry)
    addFrom a b (index + 1) left (sum / base) (output ++ [sum % base])

/-- `add`. -/
def add (a b : List Nat) : Option (List Nat) :=
  addFrom a b 0 (if a.length > b.length then a.length else b.length) 0 []

/-- `subFrom`, with the number of limbs that are left. -/
def subFrom (a b : List Nat) (index : Nat) : Nat → Nat → List Nat → Option (List Nat)
  | 0, _, output => trim output
  | left + 1, borrow, output => do
    let top ← unsafeGet index a
    let difference ← signedWord (top - limb b index - borrow)
    let rest ← wordLimb (if difference < 0 then difference + base else difference)
    subFrom a b (index + 1) left (if difference < 0 then 1 else 0) (output ++ [rest])

/-- `subtract`. -/
def subtract (a b : List Nat) : Option (List Nat) := subFrom a b 0 a.length 0 []

/-- `smallFrom`, with the number of limbs that are left. -/
def smallFrom (a : List Nat) (factor index : Nat) : Nat → Nat → List Nat → Option (List Nat)
  | 0, carry, output => if carry = 0 then trim output else some (output ++ [carry])
  | left + 1, carry, output => do
    let x ← unsafeGet index a
    let product ← word (x * factor + carry)
    smallFrom a factor (index + 1) left (product / base) (output ++ [product % base])

/-- `multiplySmall`. -/
def multiplySmall (a : List Nat) (factor : Nat) : Option (List Nat) :=
  smallFrom a factor 0 a.length 0 []

/-- `productRow`, with the number of limbs that are left. -/
def productRow (a b : List Nat) (i j : Nat) : Nat → Nat → List Nat → Option (List Nat)
  | 0, carry, output => unsafeSet (i + j) carry output
  | left + 1, carry, output => do
    let x ← unsafeGet i a
    let y ← unsafeGet j b
    let z ← unsafeGet (i + j) output
    let product ← word (x * y + z + carry)
    let output ← unsafeSet (i + j) (product % base) output
    productRow a b i (j + 1) left (product / base) output

/-- `productRows`, with the number of limbs that are left. -/
def productRows (a b : List Nat) (i : Nat) : Nat → List Nat → Option (List Nat)
  | 0, output => trim output
  | left + 1, output => do
    let output ← productRow a b i 0 b.length 0 output
    productRows a b (i + 1) left output

/-- `multiply`. -/
def multiply (a b : List Nat) : Option (List Nat) :=
  if isZero a || isZero b then some []
  else productRows a b 0 a.length (List.replicate (a.length + b.length) 0)

/-- Division of machine integers, which zero stops. -/
def divMod (dividend divisor : Nat) : Option (Nat × Nat) :=
  if divisor = 0 then none else some (dividend / divisor, dividend % divisor)

/-- `divideSmallFrom`, from the limb below an index down. -/
def divideSmallFrom (value : List Nat) (divisor : Nat) :
    Nat → Nat → List Nat → Option (List Nat × Nat)
  | 0, remainder, output => do
    let quotient ← trim output
    pure (quotient, remainder)
  | index + 1, remainder, output => do
    let limb ← unsafeGet index value
    let dividend ← word (base * remainder + limb)
    let (digit, remainder) ← divMod dividend divisor
    let output ← unsafeSet index digit output
    divideSmallFrom value divisor index remainder output

/-- `divideSmall`. -/
def divideSmall (value : List Nat) (divisor : Nat) : Option (List Nat × Nat) :=
  divideSmallFrom value divisor value.length 0 (List.replicate value.length 0)

/-- `chooseDigit`. The bounds of the search never cross, so that it ends where they meet. -/
def chooseDigit (divisor remainder : List Nat) (low high : Nat) : Option Nat :=
  if low ≥ high then some low
  else do
    let mid := low + (high - low + 1) / 2
    let product ← multiplySmall divisor mid
    let order ← compareMagnitude product remainder
    if order ≤ 0 then chooseDigit divisor remainder mid high
    else chooseDigit divisor remainder low (mid - 1)
termination_by high - low

/-- `shiftWord`. -/
def shiftWord (value : List Nat) (limb : Nat) : List Nat :=
  if isZero value then fromInt limb else limb :: value

/-- `divideFrom`, from the limb below an index down. -/
def divideFrom (numerator divisor : List Nat) :
    Nat → List Nat → List Nat → Option (List Nat × List Nat)
  | 0, remainder, quotient => do
    let quotient ← trim quotient
    pure (quotient, remainder)
  | index + 1, remainder, quotient => do
    let next ← unsafeGet index numerator
    let remainder := shiftWord remainder next
    let digit ← chooseDigit divisor remainder 0 (base - 1)
    let product ← multiplySmall divisor digit
    let remainder ← subtract remainder product
    let quotient ← unsafeSet index digit quotient
    divideFrom numerator divisor index remainder quotient

/-- `divide`. -/
def divide (numerator divisor : List Nat) : Option (List Nat × List Nat) := do
  let order ← compareMagnitude numerator divisor
  if order < 0 then pure ([], numerator)
  else if divisor.length = 1 then
    let small ← unsafeGet 0 divisor
    let (quotient, remainder) ← divideSmall numerator small
    pure (quotient, fromInt remainder)
  else divideFrom numerator divisor numerator.length [] (List.replicate numerator.length 0)

/-- `digitCount`. -/
def digitCount (limb count : Nat) : Nat :=
  if limb < 10 then count + 1 else digitCount (limb / 10) (count + 1)
termination_by limb
decreasing_by omega

/-- `digits`. -/
def digits (value : List Nat) : Option Nat :=
  if isZero value then some 1
  else do
    let top ← unsafeGet (value.length - 1) value
    pure ((value.length - 1) * 9 + digitCount top 0)

/-- `render`, from the limb below an index down. -/
def render (value : List Nat) : Nat → List Char → Option (List Char)
  | 0, output => some output
  | index + 1, output => do
    let limb ← unsafeGet index value
    render value index (output ++ Text.padStart 9 '0' (Nat.toDigits 10 limb))

/-- `toString`. -/
def toString (value : List Nat) : Option (List Char) :=
  if isZero value then some ['0']
  else do
    let top ← unsafeGet (value.length - 1) value
    render value (value.length - 1) (Nat.toDigits 10 top)

/-- `parseChunk`, with the number of bytes that are left. -/
def parseChunk (bytes : List UInt8) (first : Nat) : Nat → Nat → Option Nat
  | 0, value => some value
  | left + 1, value => do
    let byte ← bytes[first]?
    let value ← word (value * 10 + byte.toNat)
    parseChunk bytes (first + 1) left (value - 48)

/-- `parseChunks`, from the last nine bytes down. -/
def parseChunks (bytes : List UInt8) (finish : Nat) (output : List Nat) : Option (List Nat) :=
  if finish = 0 then trim output
  else do
    let start := if finish > 9 then finish - 9 else 0
    let limb ← parseChunk bytes start (finish - start) 0
    parseChunks bytes start (output ++ [limb])
termination_by finish
decreasing_by split <;> omega

/-- `parse`. -/
def parse (bytes : List UInt8) : Option (List Nat) := parseChunks bytes bytes.length []

/-- `smallPower`. -/
def smallPower : Nat → Nat → Option Nat
  | 0, value => some value
  | n + 1, value => do
    let value ← word (value * 10)
    smallPower n value

/-- `timesPowerTen`. -/
def timesPowerTen (value : List Nat) (exponent : Nat) : Option (List Nat) :=
  if isZero value then some value
  else do
    let power ← smallPower (exponent % 9) 1
    let scaled ← multiplySmall value power
    pure (List.replicate (exponent / 9) 0 ++ scaled)

/-- `stripWords`. -/
def stripWords (value : List Nat) (offset : Nat) : Nat :=
  if offset < value.length ∧ value.getD offset 0 = 0 then stripWords value (offset + 1)
  else offset
termination_by value.length - offset

/-- `stripDigits`. A number of so many limbs has nine digits for each of them. -/
def stripDigits : Nat → List Nat → Nat → Option (List Nat × Nat)
  | 0, _, _ => none
  | fuel + 1, value, exponent =>
    if isZero value then some (value, exponent)
    else do
      let first ← unsafeGet 0 value
      if first % 10 ≠ 0 then pure (value, exponent)
      else
        let (value, _) ← divideSmall value 10
        stripDigits fuel value (exponent + 1)

/-- `normalize`. -/
def normalize (value : List Nat) : Option (List Nat × Nat) :=
  if isZero value then some ([], 0)
  else
    let words := stripWords value 0
    stripDigits (9 * value.length + 1) (value.drop words) (words * 9)

/-- `splitPowerTen`. -/
def splitPowerTen (value : List Nat) (exponent : Nat) : Option (List Nat × List Nat) := do
  let count ← digits value
  if exponent ≥ count then pure ([], value)
  else
    let words := exponent / 9
    let power ← smallPower (exponent % 9) 1
    let (quotient, remainder) ← divideSmall (value.drop words) power
    let low := value.take words
    let rest ← trim (if remainder = 0 then low else low ++ [remainder])
    pure (quotient, rest)

end Fai.Decimal.Natural
