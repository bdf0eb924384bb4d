import FaiVerif.Decimal.NaturalExact
import FaiVerif.Lib.Radix

/-!
# The text of a natural

A natural is written as its decimal digits, nine for each limb but the last one, and read back in
chunks of nine from the end.
-/

namespace Fai.Decimal.Natural

open Limbs

section Render

/-- A limb written with nine digits. -/
def padded (width x : Nat) : List Char := Text.padStart width '0' (Nat.toDigits 10 x)

/-- One more digit behind the padded ones. -/
theorem padded_succ {width q d : Nat} (positive : 0 < width) (digit : d < 10) :
    padded (width + 1) (10 * q + d) = padded width q ++ Nat.toDigits 10 d := by
  have single : Nat.toDigits 10 d = [d.digitChar] := Nat.toDigits_of_lt_base digit
  rw [padded, padded, Text.padStart_eq, Text.padStart_eq]
  by_cases zero : q = 0
  · subst zero
    obtain ⟨less, rfl⟩ : ∃ less, width = less + 1 := ⟨width - 1, by omega⟩
    have none : Nat.toDigits 10 0 = ['0'] := Nat.toDigits_zero 10
    rw [Nat.mul_zero, Nat.zero_add, single, none, List.length_singleton, List.length_singleton,
      Nat.add_sub_cancel, Nat.add_sub_cancel, ← List.replicate_succ']
  · have some : 0 < q := by omega
    rw [← Nat.toDigits_append_toDigits (by decide) some digit, single, List.length_append,
      List.length_singleton, Nat.add_sub_add_right, List.append_assoc]

/-- A number in front of padded digits. -/
theorem toDigits_padded {n : Nat} (positive : 0 < n) (width x : Nat)
    (small : x < 10 ^ (width + 1)) :
    Nat.toDigits 10 (x + 10 ^ (width + 1) * n) = Nat.toDigits 10 n ++ padded (width + 1) x := by
  induction width generalizing x with
  | zero =>
    rw [Nat.zero_add, Nat.pow_one] at small ⊢
    have single : Nat.toDigits 10 x = [x.digitChar] := Nat.toDigits_of_lt_base small
    have plain : padded 1 x = Nat.toDigits 10 x := by
      rw [padded, Text.padStart_eq, single]
      rfl
    rw [plain, Nat.toDigits_append_toDigits (by decide) positive small, Nat.add_comm]
  | succ width hypothesis =>
    have digit : x % 10 < 10 := Nat.mod_lt _ (by decide)
    have parts : 10 * (x / 10) + x % 10 = x := Nat.div_add_mod x 10
    have less : x / 10 < 10 ^ (width + 1) := by
      rw [Nat.pow_succ] at small
      omega
    have front : 0 < x / 10 + 10 ^ (width + 1) * n := by
      have := Nat.mul_pos (Nat.pow_pos (n := width + 1) (by decide : 0 < 10)) positive
      omega
    have whole : x + 10 ^ (width + 1 + 1) * n =
        10 * (x / 10 + 10 ^ (width + 1) * n) + x % 10 := by
      rw [Nat.pow_succ 10 (width + 1)]
      have : 10 ^ (width + 1) * 10 * n = 10 * (10 ^ (width + 1) * n) := by ring
      omega
    have last : padded (width + 1 + 1) x =
        padded (width + 1) (x / 10) ++ Nat.toDigits 10 (x % 10) := by
      conv_lhs => rw [← parts]
      exact padded_succ (Nat.succ_pos _) digit
    rw [whole, ← Nat.toDigits_append_toDigits (by decide) front digit, hypothesis _ less, last,
      List.append_assoc]

/-- A number in front of a limb. -/
theorem toDigits_limb {n x : Nat} (positive : 0 < n) (small : x < base) :
    Nat.toDigits 10 (x + base * n) = Nat.toDigits 10 n ++ padded 9 x :=
  toDigits_padded positive 8 x small

/-- The limbs below an index are written behind the ones above. -/
theorem render_eq {xs : List Nat} (small : Small base xs) (count : Nat) (inside : count ≤ xs.length)
    (positive : 0 < value (xs.drop count)) :
    render xs count (Nat.toDigits 10 (value (xs.drop count))) =
      some (Nat.toDigits 10 (value xs)) := by
  induction count with
  | zero => rw [render, List.drop_zero]
  | succ count hypothesis =>
    have low := small.getD_lt base_pos count
    have step := value_drop xs count
    have written := toDigits_limb positive low
    rw [← step] at written
    have filled : 0 < value (xs.drop count) := by
      have := Nat.mul_pos base_pos positive
      omega
    rw [render, unsafeGet_eq (by omega)]
    show render xs count (Nat.toDigits 10 (value (xs.drop (count + 1))) ++
      padded 9 (xs.getD count 0)) = _
    rw [← written]
    exact hypothesis (by omega) filled

/-- The last limb of a number that is not zero. -/
theorem last_limb {n : Nat} (positive : n ≠ 0) :
    unsafeGet ((limbs n).length - 1) (limbs n) =
      some (value ((limbs n).drop ((limbs n).length - 1))) ∧
    0 < value ((limbs n).drop ((limbs n).length - 1)) := by
  have filled := length_limbs_pos positive
  obtain ⟨count, isCount⟩ : ∃ count, (limbs n).length = count + 1 :=
    ⟨(limbs n).length - 1, by omega⟩
  have inside : count < (limbs n).length := by omega
  have top : value ((limbs n).drop count) = (limbs n).getD count 0 := by
    rw [value_drop, value_drop_length (by omega), Nat.mul_zero, Nat.add_zero]
  have whole : n = value ((limbs n).take count) + base ^ count * (limbs n).getD count 0 := by
    rw [← value_take_succ inside, ← isCount, List.take_length, value_limbs]
  have below : value ((limbs n).take count) < base ^ count :=
    ofDigits_take_lt one_lt_base (small_limbs n) count
  have needed := pow_length_limbs_le positive
  rw [isCount, Nat.add_sub_cancel] at needed
  rw [isCount, Nat.add_sub_cancel, top]
  refine ⟨unsafeGet_eq inside, ?_⟩
  apply Nat.pos_of_ne_zero
  intro zero
  rw [zero, Nat.mul_zero, Nat.add_zero] at whole
  omega

/-- The text of a natural is its decimal digits. -/
theorem toString_eq (n : Nat) : toString (limbs n) = some (Nat.toDigits 10 n) := by
  rw [toString, isZero_limbs]
  by_cases zero : n = 0
  · subst zero
    rw [if_pos (by simp), Nat.toDigits_zero]
  · obtain ⟨read, filled⟩ := last_limb zero
    rw [if_neg (by simpa using zero), read]
    have written := render_eq (small_limbs n) _ (Nat.sub_le _ 1) filled
    rw [value_limbs] at written
    exact written

/-- Counting the digits of a limb. -/
theorem digitCount_eq (x count : Nat) :
    digitCount x count = count + (Nat.toDigits 10 x).length := by
  induction x using Nat.strong_induction_on generalizing count with
  | _ x hypothesis =>
    unfold digitCount
    by_cases small : x < 10
    · rw [if_pos small, Nat.toDigits_of_lt_base small, List.length_singleton]
    · have split : Nat.toDigits 10 x = Nat.toDigits 10 (x / 10) ++ [(x % 10).digitChar] :=
        Nat.toDigits_of_base_le (by decide) (by omega)
      rw [if_neg small, hypothesis (x / 10) (by omega), split, List.length_append,
        List.length_singleton]
      omega

/-- A padded limb has as many characters as it is wide. -/
theorem length_padded {width x : Nat} (positive : 0 < width) (small : x < 10 ^ width) :
    (padded width x).length = width := by
  have short := (Nat.length_toDigits_le_iff (by decide) positive).mpr small
  rw [padded, Text.padStart_eq, List.length_append, List.length_replicate]
  omega

/-- The number of digits below an index. -/
theorem length_toDigits {xs : List Nat} (small : Small base xs) (count : Nat)
    (positive : 0 < value (xs.drop count)) :
    (Nat.toDigits 10 (value xs)).length =
      count * 9 + (Nat.toDigits 10 (value (xs.drop count))).length := by
  induction count with
  | zero => rw [List.drop_zero, Nat.zero_mul, Nat.zero_add]
  | succ count hypothesis =>
    have low := small.getD_lt base_pos count
    have step := value_drop xs count
    have filled : 0 < value (xs.drop count) := by
      have := Nat.mul_pos base_pos positive
      omega
    rw [hypothesis filled, step, toDigits_limb positive low, List.length_append,
      length_padded (by decide) low]
    omega

/-- The number of digits. -/
theorem digits_eq (n : Nat) : digits (limbs n) = some (Nat.toDigits 10 n).length := by
  rw [digits, isZero_limbs]
  by_cases zero : n = 0
  · subst zero
    rw [if_pos (by simp), Nat.toDigits_zero, List.length_singleton]
  · obtain ⟨read, filled⟩ := last_limb zero
    have count := length_toDigits (small_limbs n) _ filled
    rw [value_limbs] at count
    rw [if_neg (by simpa using zero), read]
    show some _ = _
    rw [digitCount_eq, Nat.zero_add, count]

end Render

section Parse

/-- The bytes of ASCII text. -/
def ascii (text : List Char) : List UInt8 := text.map fun char => UInt8.ofNat char.toNat

/-- The digit that a byte stands for. -/
def digitOf (byte : UInt8) : Nat := byte.toNat - 48

/-- Bytes that are decimal digits. -/
def Decimals (bytes : List UInt8) : Prop := ∀ byte ∈ bytes, 48 ≤ byte.toNat ∧ byte.toNat < 58

/-- The number that decimal digits write. -/
def number (bytes : List UInt8) : Nat := Radix.value 10 (bytes.map digitOf)

/-- The digits of some bytes are below ten. -/
theorem Decimals.small {bytes : List UInt8} (decimals : Decimals bytes) :
    ∀ digit ∈ bytes.map digitOf, digit < 10 := by
  intro digit member
  obtain ⟨byte, inside, rfl⟩ := List.mem_map.mp member
  have := decimals byte inside
  rw [digitOf]
  omega

/-- So many bytes from a place on. -/
theorem parseChunk_eq {bytes : List UInt8} (decimals : Decimals bytes) (left first seen : Nat)
    (value : Nat) (within : first + left ≤ bytes.length) (few : left + seen ≤ 9)
    (small : value < 10 ^ seen) :
    parseChunk bytes first left value =
      some (value * 10 ^ left + number ((bytes.drop first).take left)) := by
  induction left generalizing first seen value with
  | zero => simp [parseChunk, number]
  | succ left hypothesis =>
    have inside : first < bytes.length := by omega
    have digit := decimals bytes[first] (List.getElem_mem inside)
    have bound : 10 ^ seen ≤ 10 ^ 8 := Nat.pow_le_pow_right (by decide) (by omega)
    have fits : word (value * 10 + bytes[first].toNat) =
        some (value * 10 + bytes[first].toNat) := by
      apply word_eq
      have : 10 ^ 8 * 10 + 58 < base * base := by decide
      omega
    have next := hypothesis (first + 1) (seen + 1) (value * 10 + bytes[first].toNat - 48) (by omega)
      (by omega) (by rw [Nat.pow_succ]; omega)
    have taken : (bytes.drop first).take (left + 1) =
        bytes[first] :: (bytes.drop (first + 1)).take left := by
      rw [List.drop_eq_getElem_cons inside, List.take_succ_cons]
    have length : ((bytes.drop (first + 1)).take left).length = left := by
      rw [List.length_take, List.length_drop]
      omega
    have folded : value * 10 + bytes[first].toNat - 48 = value * 10 + digitOf bytes[first] := by
      rw [digitOf]
      omega
    rw [parseChunk, List.getElem?_eq_getElem inside]
    show (word (value * 10 + bytes[first].toNat)).bind _ = _
    rw [fits]
    show parseChunk bytes (first + 1) left (value * 10 + bytes[first].toNat - 48) = _
    rw [next, taken, number, number, List.map_cons, Radix.value_cons, List.length_map, length,
      folded, Nat.pow_succ]
    apply congrArg some
    ring

/-- The chunks up to a place, from the last one down. -/
theorem parseChunks_eq {bytes : List UInt8} (decimals : Decimals bytes) (finish : Nat)
    (output : List Nat) (within : finish ≤ bytes.length) (done : Small base output) :
    parseChunks bytes finish output =
      some (limbs (value output + base ^ output.length * number (bytes.take finish))) := by
  induction finish using Nat.strong_induction_on generalizing output with
  | _ finish hypothesis =>
    unfold parseChunks
    by_cases none : finish = 0
    · subst none
      have zero : number [] = 0 := rfl
      rw [if_pos rfl, trim_eq done, List.take_zero, zero, Nat.mul_zero, Nat.add_zero]
    · rw [if_neg none]
      obtain ⟨start, isStart⟩ : ∃ start, (if finish > 9 then finish - 9 else 0) = start := ⟨_, rfl⟩
      have before : start < finish ∧ finish - start ≤ 9 ∧ (start = 0 ∨ finish - start = 9) := by
        rw [← isStart]
        split_ifs <;> omega
      simp only [isStart]
      have chunk := parseChunk_eq decimals (finish - start) start 0 0 (by omega) (by omega)
        (by decide)
      rw [Nat.zero_mul, Nat.zero_add] at chunk
      obtain ⟨piece, isPiece⟩ : ∃ piece, (bytes.drop start).take (finish - start) = piece :=
        ⟨_, rfl⟩
      rw [isPiece] at chunk
      have length : piece.length = finish - start := by
        rw [← isPiece, List.length_take, List.length_drop]
        omega
      have parts : bytes.take finish = bytes.take start ++ piece := by
        rw [← isPiece, ← List.take_add, Nat.add_sub_cancel' (by omega)]
      have decimals' : Decimals piece := fun byte member => by
        rw [← isPiece] at member
        exact decimals byte (List.mem_of_mem_drop (List.mem_of_mem_take member))
      have small : number piece < base := by
        have bound := Radix.value_lt decimals'.small
        have most : 10 ^ piece.length ≤ 10 ^ 9 := Nat.pow_le_pow_right (by decide) (by omega)
        rw [List.length_map] at bound
        exact Nat.lt_of_lt_of_le bound most
      rw [chunk]
      show parseChunks bytes start (output ++ [number piece]) = _
      rw [hypothesis start before.1 _ (by omega) (small_snoc done small), value_snoc,
        List.length_append, List.length_singleton, parts]
      have joined : number (bytes.take start ++ piece) =
          number (bytes.take start) * 10 ^ piece.length + number piece := by
        rw [number, List.map_append, Radix.value_append, List.length_map]
        rfl
      have scaled : number (bytes.take start) * 10 ^ piece.length =
          base * number (bytes.take start) := by
        rcases before.2.2 with first | full
        · have zero : number (bytes.take start) = 0 := by
            rw [first]
            rfl
          rw [zero, Nat.zero_mul, Nat.mul_zero]
        · rw [length, full, Nat.mul_comm]
          rfl
      rw [joined, scaled, Nat.pow_succ]
      apply congrArg some
      apply congrArg limbs
      ring

/-- Decimal digits are read as their number. -/
theorem parse_eq {bytes : List UInt8} (decimals : Decimals bytes) :
    parse bytes = some (limbs (number bytes)) := by
  have whole := parseChunks_eq decimals bytes.length [] (Nat.le_refl _) small_nil
  rw [value_nil, List.length_nil, Nat.pow_zero, Nat.one_mul, Nat.zero_add,
    List.take_length] at whole
  exact whole

end Parse

section RoundTrip

/-- The byte of a digit. -/
theorem toNat_byte {c : Char} (digit : c.isDigit = true) :
    (UInt8.ofNat c.toNat).toNat = c.toNat ∧ 48 ≤ c.toNat ∧ c.toNat < 58 := by
  have bounds : 48 ≤ c.toNat ∧ c.toNat ≤ 57 := by
    have parts := digit
    simp only [Char.isDigit, Bool.and_eq_true, decide_eq_true_eq] at parts
    exact ⟨UInt32.le_iff_toNat_le.mp parts.1, UInt32.le_iff_toNat_le.mp parts.2⟩
  refine ⟨?_, by omega, by omega⟩
  rw [UInt8.toNat_ofNat']
  omega

/-- Digits are bytes of digits. -/
theorem decimals_ascii {text : List Char} (digits : ∀ c ∈ text, c.isDigit = true) :
    Decimals (ascii text) := by
  intro byte member
  obtain ⟨c, inside, rfl⟩ := List.mem_map.mp member
  obtain ⟨same, bounds⟩ := toNat_byte (digits c inside)
  rw [same]
  exact bounds

/-- The number that digits write. -/
theorem number_ascii {text : List Char} (digits : ∀ c ∈ text, c.isDigit = true) :
    number (ascii text) = Nat.ofDigitChars 10 text 0 := by
  induction text using List.reverseRecOn with
  | nil => rfl
  | append_singleton text c hypothesis =>
    have front := hypothesis fun d member => digits d (List.mem_append_left _ member)
    have same := (toNat_byte (digits c (by simp))).1
    have last : number (ascii (text ++ [c])) = number (ascii text) * 10 + (c.toNat - 48) := by
      rw [number, ascii, List.map_append, List.map_append, List.map_singleton, List.map_singleton,
        Radix.value_snoc, digitOf, same]
      rfl
    rw [last, front, Nat.ofDigitChars_append, Nat.mul_comm]
    rfl

/-- The text of a natural is its decimal digits, which are counted without writing them, and which
are read back as the natural, with any number of zeros in front. -/
theorem text_exact (n zeros : Nat) :
    toString (limbs n) = some (Nat.toDigits 10 n) ∧
    digits (limbs n) = some (Nat.toDigits 10 n).length ∧
    parse (ascii (List.replicate zeros '0' ++ Nat.toDigits 10 n)) = some (limbs n) := by
  have decimal : ∀ c ∈ List.replicate zeros '0' ++ Nat.toDigits 10 n, c.isDigit = true := by
    intro c member
    rcases List.mem_append.mp member with zero | digit
    · rw [(List.mem_replicate.mp zero).2]
      rfl
    · exact Nat.isDigit_of_mem_toDigits (by decide) (by decide) digit
  have read := parse_eq (decimals_ascii decimal)
  rw [number_ascii decimal, Nat.ofDigitChars_append, Nat.ofDigitChars_replicate_zero, Nat.mul_zero,
    Nat.ofDigitChars_ten_toDigits] at read
  exact ⟨toString_eq n, digits_eq n, read⟩

end RoundTrip

end Fai.Decimal.Natural
