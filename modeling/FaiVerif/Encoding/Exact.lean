import FaiVerif.Encoding.Steps
import FaiVerif.Lib.Utf8Bytes
import Mathlib.Data.List.Forall2

/-!
# Codecs are exact

A text decodes to some bytes exactly when it is their encoding, up to letter case where it is folded
and up to padding where it is optional; and the length of an encoding is the one announced.
-/

namespace Fai.Encoding

open Radix

/-! ## Encodings -/

/-- Whether a policy admits an encoding of so many bytes with or without padding: a full final group
has none either way. -/
def Admits (policy : Padding) (format : Format) (padding : OutputPadding) (count : Nat) : Prop :=
  match policy with
  | .requirePadding => padding = .padded ∨ count % format.bytes = 0
  | .allowPadding => True
  | .forbidPadding => padding = .unpadded ∨ count % format.bytes = 0

/-- Whether bytes are a text, up to letter case where it is folded. -/
def SameText (folds : Bool) (input : List UInt8) (text : List Char) : Prop :=
  List.Forall₂ (fun byte char => SameLetter folds byte.toNat char.toNat) input text

/-- The bytes of two texts. -/
theorem SameText.split {folds : Bool} {input : List UInt8} {front back : List Char}
    (same : SameText folds input (front ++ back)) :
    ∃ before after, input = before ++ after ∧ SameText folds before front ∧
      SameText folds after back :=
  ⟨_, _, (List.take_append_drop front.length input).symm, List.forall₂_take_append _ _ _ same,
    List.forall₂_drop_append _ _ _ same⟩

/-- An encoder amid a group. -/
def encoding (format : Format) (padding : OutputPadding) (pending : List UInt8) : Encoder where
  count := pending.length
  format := format
  padded := padding = .padded
  word := wordOf pending

/-- The padding after so many bytes of a final group. -/
def padsAfter (format : Format) (padding : OutputPadding) (count : Nat) : Nat :=
  if padding = .padded then format.digits - format.digitsFor count else 0

/-- One more byte of a group. -/
theorem wordOf_snoc (pending : List UInt8) (byte : UInt8) :
    wordOf (pending ++ [byte]) = wordOf pending * 256 + byte.toNat := by
  rw [wordOf, List.map_append]
  exact value_snoc 256 _ _

section Lawful

variable {format : Format}

/-- Bytes that do not fill the group are kept. -/
theorem encodeFrom_keep (padding : OutputPadding) (pending input : List UInt8)
    (open_ : pending.length + input.length < format.bytes) (output : List Char) :
    encodeFrom (encoding format padding pending) input output =
      ⟨encoding format padding (pending ++ input), output⟩ := by
  induction input generalizing pending with
  | nil => rw [List.append_nil]; rfl
  | cons byte input hypothesis =>
    rw [List.length_cons] at open_
    have unfilled : ¬ (encoding format padding pending).count + 1 = format.bytes := by
      show ¬ pending.length + 1 = format.bytes
      omega
    have next : { encoding format padding pending with
        count := (encoding format padding pending).count + 1
        word := (encoding format padding pending).word * 256 + byte.toNat } =
        encoding format padding (pending ++ [byte]) := by
      simp only [encoding, wordOf_snoc, List.length_append, List.length_singleton]
    have later := hypothesis (pending ++ [byte]) (by simp; omega)
    rw [List.append_assoc, List.singleton_append] at later
    rw [← later, ← next, encodeFrom]
    exact if_neg unfilled

/-- Bytes that fill the group are written. -/
theorem Lawful.encodeFrom_fill (lawful : Lawful format) (padding : OutputPadding)
    (pending group : List UInt8) (filled : pending.length + group.length = format.bytes)
    (present : group ≠ []) (input : List UInt8) (output : List Char) :
    encodeFrom (encoding format padding pending) (group ++ input) output =
      encodeFrom (encoding format padding []) input
        (output ++ format.text (format.group (pending ++ group))) := by
  obtain ⟨front, last, rfl⟩ : ∃ front last, group = front ++ [last] :=
    ⟨_, _, (List.dropLast_append_getLast present).symm⟩
  rw [List.length_append, List.length_singleton] at filled
  have full : (encoding format padding (pending ++ front)).count + 1 = format.bytes := by
    show (pending ++ front).length + 1 = format.bytes
    rw [List.length_append]
    omega
  have written := lawful.render false (by simp : pending ++ front ++ [last] ≠ [])
  rw [wordOf_snoc, List.length_append] at written
  have step : encodeFrom (encoding format padding (pending ++ front)) (last :: input) output =
      encodeFrom (encoding format padding []) input
        (output ++ Encoding.render format false ((pending ++ front).length + 1)
          (wordOf (pending ++ front) * 256 + last.toNat)) := by
    rw [encodeFrom]
    exact if_pos full
  rw [List.append_assoc, encodeFrom_append, encodeFrom_keep padding pending front (by omega)]
  refine step.trans ?_
  rw [List.length_singleton] at written
  rw [written, List.append_assoc]
  simp

/-- The encoding of a full group and of what follows. -/
theorem Lawful.encode_full (lawful : Lawful format) (padding : OutputPadding)
    {group : List UInt8} (full : group.length = format.bytes) (input : List UInt8) :
    encode (newEncoder format padding) (group ++ input) =
      format.text (format.group group) ++ encode (newEncoder format padding) input := by
  have positive := lawful.bytes_pos
  have present : group ≠ [] := by
    rintro rfl
    simp at full
    omega
  have taken := lawful.encodeFrom_fill padding [] group (by simpa using full) present input []
  have start : encoding format padding [] = newEncoder format padding := rfl
  rw [start, List.nil_append, List.nil_append] at taken
  simp only [encode, feedEncoder]
  rw [taken, encodeFrom_output _ input (format.text _), List.append_assoc]

/-- The encoding of a final group. -/
theorem Lawful.encode_tail (lawful : Lawful format) (padding : OutputPadding)
    {input : List UInt8} (short : input.length < format.bytes) :
    encode (newEncoder format padding) input = if input = [] then [] else
      format.text (format.group input) ++
        List.replicate (padsAfter format padding input.length) '=' := by
  have start : newEncoder format padding = encoding format padding [] := rfl
  simp only [encode, feedEncoder, start]
  rw [encodeFrom_keep padding [] input (by simpa using short), List.nil_append]
  split
  next empty => simp [empty, finishEncoder, encoding, Encoding.render]
  next present =>
    have written := lawful.render (decide (padding = .padded)) present
    simp only [finishEncoder, encoding, List.nil_append, written, padsAfter, decide_eq_true_eq]

end Lawful

/-! ## Decoding encodings -/

/-- A decoder amid a group. -/
def decoding (format : Format) (foldCase : Bool) (policy : Padding) (offset : Int)
    (digits : List Nat) (pads : Nat) : Decoder where
  count := digits.length
  error := none
  foldCase := foldCase
  format := format
  offset := offset
  padding := policy
  pads := pads
  terminal := false
  word := value (2 ^ format.bits) digits

/-- A decoder after a padded final group. -/
def ended (format : Format) (foldCase : Bool) (policy : Padding) (offset : Int) : Decoder :=
  { decoding format foldCase policy offset [] 0 with terminal := true }

section Lawful

variable {format : Format} {foldCase : Bool} {policy : Padding} {offset : Int}

/-- Whether the bits beyond the bytes are zero, as a remainder. -/
theorem canonical_iff (format : Format) (count word : Nat) :
    canonical format count word = true ↔ word % 2 ^ (count * format.bits % 8) = 0 := by
  rw [canonical, decide_eq_true_eq, Nat.one_shiftLeft, Nat.and_two_pow_sub_one_eq_mod]

/-- A last digit joins the word. -/
theorem word_snoc (format : Format) (digits : List Nat) {digit : Nat}
    (small : digit < 2 ^ format.bits) :
    (value (2 ^ format.bits) digits <<< format.bits) ||| digit =
      value (2 ^ format.bits) (digits ++ [digit]) := by
  rw [value_snoc, ← Nat.shiftLeft_add_eq_or_of_lt small, Nat.shiftLeft_eq]

/-- A decoder takes the byte of a digit. -/
theorem advance_digit (policy : Padding) (digits : List Nat) (byte : UInt8)
    (below : offset ≠ maxInt) (letter : byte.toNat ≠ 61)
    (read : 0 ≤ digit format foldCase byte.toNat)
    (small : (digit format foldCase byte.toNat).toNat < 2 ^ format.bits) :
    advance (decoding format foldCase policy offset digits 0) byte =
      if digits.length + 1 = format.digits then
        .ok (decoding format foldCase policy (offset + 1) [] 0,
          push format (digits.length + 1) (value (2 ^ format.bits)
            (digits ++ [(digit format foldCase byte.toNat).toNat])) [])
      else .ok (decoding format foldCase policy (offset + 1)
        (digits ++ [(digit format foldCase byte.toNat).toNat]) 0, []) := by
  have joined := word_snoc format digits small
  have known : ¬ digit format foldCase byte.toNat < 0 := Int.not_lt.mpr read
  simp only [advance, decoding, below, letter, known, if_false, Bool.false_eq_true,
    Nat.lt_irrefl, gt_iff_lt, joined, List.length_append, List.length_singleton, List.length_nil,
    value_nil]

/-- The letters of digits that do not fill the group are kept. -/
theorem Lawful.absorb_keep (lawful : Lawful format) (policy : Padding) {input : List UInt8}
    (front : List Nat) {back : List Nat}
    (open_ : front.length + back.length < format.digits)
    (small : ∀ digit ∈ back, digit < 2 ^ format.bits)
    (same : SameText (format.folds foldCase) input (format.text back))
    (room : offset + input.length ≤ maxInt) :
    absorb (decoding format foldCase policy offset front 0) input =
      .ok (decoding format foldCase policy (offset + input.length) (front ++ back) 0, []) := by
  induction back generalizing input front offset with
  | nil =>
    cases same
    simp [absorb]
  | cons digit back hypothesis =>
    obtain ⟨byte, rest, letter, later, rfl⟩ := List.forall₂_cons_right_iff.mp same
    have inside := small digit List.mem_cons_self
    have read := lawful.digit_of_same inside letter
    rw [List.length_cons] at open_ room
    have taken := advance_digit policy front byte
      (show offset ≠ maxInt by omega) (lawful.ne_padding inside letter)
      (by rw [read]; omega) (by rw [read]; simpa using inside)
    rw [read, Int.toNat_natCast, if_neg (by omega)] at taken
    rw [absorb_taken taken, hypothesis (front ++ [digit]) (by simp; omega)
      (fun digit member => small digit (List.mem_cons_of_mem _ member)) later (by omega)]
    have moved : offset + 1 + rest.length = offset + (byte :: rest).length := by
      push_cast [List.length_cons]
      omega
    rw [moved, List.append_assoc]
    rfl

/-- The letters of a full group are its bytes. -/
theorem Lawful.absorb_full (lawful : Lawful format) (policy : Padding) {input : List UInt8}
    {digits : List Nat} (full : digits.length = format.digits)
    (small : ∀ digit ∈ digits, digit < 2 ^ format.bits)
    (same : SameText (format.folds foldCase) input (format.text digits))
    (room : offset + input.length ≤ maxInt) :
    absorb (decoding format foldCase policy offset [] 0) input =
      .ok (decoding format foldCase policy (offset + input.length) [] 0, format.unpack digits) := by
  have positive : 0 < format.digits := by
    have bytes_pos := lawful.bytes_pos
    have bits := lawful.full
    by_contra none_left
    rw [Nat.eq_zero_of_not_pos none_left, Nat.zero_mul] at bits
    omega
  obtain ⟨front, last, rfl⟩ : ∃ front last, digits = front ++ [last] :=
    ⟨_, _, (List.dropLast_append_getLast (by rintro rfl; simp at full; omega)).symm⟩
  rw [List.length_append, List.length_singleton] at full
  rw [Format.text, List.map_append] at same
  obtain ⟨kept, rest, rfl, before, after⟩ := same.split
  obtain ⟨byte, rest, letter, none_left, rfl⟩ := List.forall₂_cons_right_iff.mp after
  cases none_left
  rw [List.length_append, List.length_singleton] at room
  have inside := small last (by simp)
  have read := lawful.digit_of_same inside letter
  have taken := advance_digit policy front byte
    (show offset + kept.length ≠ maxInt by push_cast at room; omega)
    (lawful.ne_padding inside letter)
    (by rw [read]; omega) (by rw [read]; simpa using inside)
  rw [read, Int.toNat_natCast, if_pos full] at taken
  have kept_all := lawful.absorb_keep policy [] (by simp only [List.length_nil]; omega)
    (fun digit member => small digit (List.mem_append_left _ member)) before
    (show offset + kept.length ≤ maxInt by push_cast at room; omega)
  rw [absorb_append, kept_all]
  simp only [Except.bind, List.nil_append]
  rw [absorb_taken taken]
  have unpacked := bytes_push format (front ++ [last]) []
  rw [List.length_append, List.length_singleton] at unpacked
  simp only [absorb, Except.map, unpacked]
  have moved : offset + kept.length + 1 = offset + (kept ++ [byte]).length := by
    push_cast [List.length_append, List.length_singleton]
    omega
  rw [moved]
  simp [bytes]

/-- A byte that is taken passes the checks. -/
theorem advance_checks {digits : List Nat} {pads : Nat} {byte : UInt8} {last : Decoder × List Nat}
    (taken : advance (decoding format foldCase policy offset digits pads) byte = .ok last) :
    offset ≠ maxInt ∧
      (byte.toNat = 61 → policy ≠ .forbidPadding ∧ validTail format digits.length = true ∧
        canonical format digits.length (value (2 ^ format.bits) digits) = true) ∧
      (byte.toNat ≠ 61 → pads = 0 ∧ 0 ≤ digit format foldCase byte.toNat) := by
  have below : offset ≠ maxInt := by
    intro same
    simp [advance, decoding, same] at taken
  refine ⟨below, ?_, ?_⟩
  · intro padding
    have allowed : policy ≠ .forbidPadding := by
      intro same
      simp [advance, decoding, below, padding, same] at taken
    have valid : validTail format digits.length = true := by
      by_contra bad
      simp [advance, decoding, below, padding, allowed, eq_false_of_ne_true bad] at taken
    refine ⟨allowed, valid, ?_⟩
    by_contra bad
    simp [advance, decoding, below, padding, allowed, valid, eq_false_of_ne_true bad] at taken
  · intro letter
    have unpadded : pads = 0 := by
      by_contra bad
      simp [advance, decoding, below, letter, Nat.pos_of_ne_zero bad] at taken
    refine ⟨unpadded, ?_⟩
    by_contra bad
    simp [advance, decoding, below, letter, unpadded, Int.not_le.mp bad] at taken

/-- A decoder takes padding. -/
theorem advance_pad (foldCase : Bool) {digits : List Nat} (pads : Nat) {byte : UInt8}
    (below : offset ≠ maxInt) (padding : byte.toNat = 61) (allowed : policy ≠ .forbidPadding)
    (valid : validTail format digits.length = true)
    (zero : canonical format digits.length (value (2 ^ format.bits) digits) = true) :
    advance (decoding format foldCase policy offset digits pads) byte =
      if digits.length + (pads + 1) = format.digits then
        .ok (ended format foldCase policy (offset + 1),
          push format digits.length (value (2 ^ format.bits) digits) [])
      else .ok (decoding format foldCase policy (offset + 1) digits (pads + 1), []) := by
  simp only [advance, decoding, below, padding, allowed, valid, zero, if_false, if_true,
    Bool.false_eq_true, Bool.not_true]
  rfl

/-- The padding of a final group ends the text. -/
theorem absorb_pads (foldCase : Bool) {digits : List Nat} (pads : Nat) {input : List UInt8}
    (present : input ≠ []) (padding : ∀ byte ∈ input, byte.toNat = 61)
    (allowed : policy ≠ .forbidPadding)
    (valid : validTail format digits.length = true)
    (zero : canonical format digits.length (value (2 ^ format.bits) digits) = true)
    (complete : digits.length + pads + input.length = format.digits)
    (room : offset + input.length ≤ maxInt) :
    absorb (decoding format foldCase policy offset digits pads) input =
      .ok (ended format foldCase policy (offset + input.length), format.unpack digits) := by
  induction input generalizing pads offset with
  | nil => exact absurd rfl present
  | cons byte input hypothesis =>
    rw [List.length_cons] at complete room
    have taken := advance_pad foldCase pads
      (show offset ≠ maxInt by omega) (padding byte List.mem_cons_self) allowed valid zero
    have unpacked := bytes_push format digits []
    by_cases last : input = []
    · subst last
      rw [if_pos (by simp at complete; omega)] at taken
      rw [absorb_taken taken]
      simp only [absorb, Except.map, unpacked]
      simp [bytes]
    · have more := List.length_pos_of_ne_nil last
      rw [if_neg (by omega)] at taken
      rw [absorb_taken taken, hypothesis (pads + 1) last
        (fun byte member => padding byte (List.mem_cons_of_mem _ member)) (by omega)
        (by push_cast at room; omega)]
      have moved : offset + 1 + input.length = offset + (byte :: input).length := by
        push_cast [List.length_cons]
        omega
      rw [moved]
      simp [Except.map, bytes]

/-- Padding is not a letter of another case. -/
theorem same_padding {folds : Bool} {byte : Nat} (same : SameLetter folds byte 61) : byte = 61 := by
  rcases same with same | ⟨-, same⟩
  · exact same
  · simp only [smallLetter] at same
    split_ifs at same <;> omega

/-- The bytes of padding. -/
theorem SameText.padding {folds : Bool} {input : List UInt8} {count : Nat}
    (same : SameText folds input (List.replicate count '=')) :
    input.length = count ∧ ∀ byte ∈ input, byte.toNat = 61 := by
  induction count generalizing input with
  | zero =>
    cases same
    simp
  | succ count hypothesis =>
    obtain ⟨byte, rest, letter, later, rfl⟩ := List.forall₂_cons_right_iff.mp same
    obtain ⟨length, all⟩ := hypothesis later
    refine ⟨by rw [List.length_cons, length], ?_⟩
    intro other member
    rcases List.mem_cons.mp member with rfl | member
    · exact same_padding letter
    · exact all other member

/-- Admission depends on the final group alone. -/
theorem admits_append {padding : OutputPadding} {group : List UInt8}
    (full : group.length = format.bytes) (input : List UInt8) :
    Admits policy format padding (group ++ input).length ↔
      Admits policy format padding input.length := by
  rw [List.length_append, full]
  cases policy <;> simp [Admits]

/-- An encoding decodes to what it encodes. -/
theorem Lawful.absorb_encode (lawful : Lawful format) {padding : OutputPadding}
    (offset : Int) {source input : List UInt8}
    (admits : Admits policy format padding source.length)
    (same : SameText (format.folds foldCase) input (encode (newEncoder format padding) source))
    (room : offset + input.length ≤ maxInt) :
    ∃ after decoded tail, absorb (decoding format foldCase policy offset [] 0) input =
      .ok (after, decoded) ∧ finishDecoder after = .ok tail ∧ decoded ++ tail = source := by
  induction size : source.length using Nat.strong_induction_on generalizing source input offset with
  | _ n hypothesis =>
    by_cases short : source.length < format.bytes
    · rw [lawful.encode_tail padding short] at same
      by_cases empty : source = []
      · rw [if_pos empty] at same
        cases same
        refine ⟨_, [], [], rfl, by simp [finishDecoder, decoding], empty.symm⟩
      · rw [if_neg empty] at same
        obtain ⟨front, pads, rfl, letters, padded⟩ := same.split
        obtain ⟨count, all⟩ := padded.padding
        obtain ⟨some_digit, partial_, spare, quotient⟩ :=
          lawful.tail source.length short (List.length_pos_of_ne_nil empty)
        have zero : canonical format (format.group source).length
            (value (2 ^ format.bits) (format.group source)) = true := by
          obtain ⟨-, rest⟩ := lawful.spare (Nat.le_of_lt short)
          rw [canonical_iff, length_group, lawful.value_group, rest, Nat.mul_mod_left]
        have valid : validTail format (format.group source).length = true := by
          simp [validTail, some_digit, partial_, spare]
        have kept := lawful.absorb_keep policy []
          (show [].length + (format.group source).length < format.digits by simpa using partial_)
          (group_lt format source) letters
          (show offset + front.length ≤ maxInt by
            rw [List.length_append] at room
            push_cast at room
            omega)
        rw [absorb_append, kept]
        simp only [Except.bind, List.nil_append]
        have partial_group : source.length % format.bytes ≠ 0 := by
          rw [Nat.mod_eq_of_lt short]
          exact (List.length_pos_of_ne_nil empty).ne'
        by_cases unpadded : pads = []
        · subst unpadded
          refine ⟨_, [], source, rfl, ?_, rfl⟩
          have lenient : policy ≠ .requirePadding := by
            rintro rfl
            have needed := admits.resolve_right partial_group
            rw [padsAfter, if_pos needed] at count
            simp at count
            omega
          have unpacked := bytes_push format (format.group source) []
          rw [lawful.unpack_group (Nat.le_of_lt short)] at unpacked
          have present : (format.group source).length ≠ 0 := by
            rw [length_group]
            exact some_digit.ne'
          simp only [finishDecoder, decoding, if_neg (Nat.lt_irrefl 0), gt_iff_lt, present, valid,
            lenient, zero, if_false, Bool.not_true, Bool.false_eq_true, unpacked]
          rfl
        · have needed : padding = .padded := by
            by_contra other
            rw [padsAfter, if_neg other] at count
            exact unpadded (List.length_eq_zero_iff.mp count)
          have allowed : policy ≠ .forbidPadding := by
            rintro rfl
            rcases admits with other | full
            · rw [needed] at other
              cases other
            · exact partial_group full
          rw [padsAfter, if_pos needed] at count
          have taken := absorb_pads foldCase 0 unpadded all allowed valid zero
            (by rw [length_group]; omega)
            (show offset + front.length + pads.length ≤ maxInt by
              rw [List.length_append] at room
              push_cast at room
              omega)
          rw [taken, lawful.unpack_group (Nat.le_of_lt short)]
          refine ⟨_, source, [], rfl, by simp [finishDecoder, ended, decoding], by simp⟩
    · have full : (source.take format.bytes).length = format.bytes := by
        rw [List.length_take]
        omega
      rw [← List.take_append_drop format.bytes source] at admits same
      rw [lawful.encode_full padding full] at same
      obtain ⟨front, rest, rfl, letters, later⟩ := same.split
      have smaller : (source.drop format.bytes).length < source.length := by
        have positive := lawful.bytes_pos
        rw [List.length_drop]
        omega
      rw [List.length_append] at room
      push_cast at room
      obtain ⟨after, decoded, tail, absorbed, finished, whole⟩ :=
        hypothesis _ (size ▸ smaller) (offset + front.length)
          ((admits_append full _).mp admits) later (by omega) rfl
      have digits : (format.group (source.take format.bytes)).length = format.digits := by
        rw [length_group, full, lawful.digitsFor_full]
      have taken := lawful.absorb_full policy digits (group_lt format _) letters
        (show offset + front.length ≤ maxInt by omega)
      rw [lawful.unpack_group (Nat.le_of_eq full)] at taken
      refine ⟨after, source.take format.bytes ++ decoded, tail, ?_, finished, ?_⟩
      · rw [absorb_append, taken]
        simp only [Except.bind, absorbed]
        rfl
      · rw [List.append_assoc, whole, List.take_append_drop]

/-- Once padding begins, a text is read to its end only if it is the rest of the padding. -/
theorem pads_of_absorb {digits : List Nat} {pads : Nat} {input decoded tail : List UInt8}
    {after : Decoder} (begun : 0 < pads ∨ ∃ byte ∈ input.head?, byte.toNat = 61)
    (open_ : digits.length + pads < format.digits)
    (absorbed : absorb (decoding format foldCase policy offset digits pads) input =
      .ok (after, decoded)) (finished : finishDecoder after = .ok tail) :
    (∀ byte ∈ input, byte.toNat = 61) ∧
      digits.length + pads + input.length = format.digits ∧
        decoded ++ tail = format.unpack digits := by
  induction input generalizing pads offset decoded with
  | nil =>
    cases absorbed
    have started : 0 < pads := by simpa using begun
    simp [finishDecoder, decoding, started] at finished
  | cons byte input hypothesis =>
    cases taken : advance (decoding format foldCase policy offset digits pads) byte with
    | error error =>
      rw [absorb_refused taken] at absorbed
      cases absorbed
    | ok last =>
      obtain ⟨below, padded, letter⟩ := advance_checks taken
      have padding : byte.toNat = 61 := by
        rcases begun with started | ⟨first, same, padding⟩
        · by_contra other
          exact absurd (letter other).1 started.ne'
        · cases same
          exact padding
      obtain ⟨allowed, valid, zero⟩ := padded padding
      have known := advance_pad foldCase pads below padding allowed valid zero
      by_cases complete : digits.length + (pads + 1) = format.digits
      · rw [if_pos complete] at known
        rw [absorb_taken known] at absorbed
        have none_left : input = [] := by
          cases input with
          | nil => rfl
          | cons next input =>
            have refused : advance (ended format foldCase policy (offset + 1)) next =
                .error (if offset + 1 = maxInt then
                  problem (ended format foldCase policy (offset + 1)) .overflow
                    "encoding input offset overflow"
                else problem (ended format foldCase policy (offset + 1)) .invalidPadding
                  "data follows a padded final group") := by
              simp only [advance, ended, decoding, if_true]
              split_ifs <;> rfl
            rw [absorb_refused refused] at absorbed
            cases absorbed
        subst none_left
        cases absorbed
        have unpacked := bytes_push format digits []
        simp only [finishDecoder, ended, decoding, Nat.lt_irrefl, gt_iff_lt, if_false,
          List.length_nil, if_true, Except.ok.injEq] at finished
        refine ⟨by simpa using padding, by simpa [Nat.add_assoc] using complete, ?_⟩
        rw [← finished, unpacked]
        simp [bytes]
      · rw [if_neg complete] at known
        rw [absorb_taken known] at absorbed
        cases rest : absorb (decoding format foldCase policy (offset + 1) digits (pads + 1))
            input with
        | error error =>
          rw [rest] at absorbed
          cases absorbed
        | ok last =>
          rw [rest] at absorbed
          cases absorbed
          obtain ⟨all, count, whole⟩ := hypothesis (Or.inl (Nat.succ_pos _)) (by omega) rest
          refine ⟨?_, by rw [List.length_cons]; omega, ?_⟩
          · intro other member
            rcases List.mem_cons.mp member with rfl | member
            · exact padding
            · exact all other member
          · simpa [bytes] using whole

/-- The digits of a final group that passes the checks are those of its bytes. -/
theorem Lawful.group_of_valid (lawful : Lawful format) {digits : List Nat}
    (small : ∀ digit ∈ digits, digit < 2 ^ format.bits)
    (valid : validTail format digits.length = true)
    (zero : canonical format digits.length (value (2 ^ format.bits) digits) = true) :
    (format.unpack digits).length < format.bytes ∧ format.unpack digits ≠ [] ∧
      format.group (format.unpack digits) = digits ∧
        format.digitsFor (format.unpack digits).length = digits.length := by
  simp only [validTail, Bool.and_eq_true, decide_eq_true_eq] at valid
  obtain ⟨some_byte, short, count⟩ := lawful.count digits.length valid.1.2 valid.1.1 valid.2
  have length : (format.unpack digits).length = digits.length * format.bits / 8 := by
    rw [Format.unpack, List.length_map, length_numeral]
  refine ⟨by rw [length]; exact short, ?_, group_unpack small count ((canonical_iff _ _ _).mp zero),
    by rw [length, count]⟩
  apply List.ne_nil_of_length_pos
  rw [length]
  exact some_byte

/-- Bytes that are all padding are the padding of a text. -/
theorem sameText_pads (folds : Bool) {input : List UInt8}
    (padding : ∀ byte ∈ input, byte.toNat = 61) :
    SameText folds input (List.replicate input.length '=') := by
  induction input with
  | nil => exact .nil
  | cons byte input hypothesis =>
    refine .cons (Or.inl (padding byte List.mem_cons_self)) ?_
    exact hypothesis fun byte member => padding byte (List.mem_cons_of_mem _ member)

/-- A byte taken moves the offset on, within the language's `Int`. -/
theorem advance_offset {decoder after : Decoder} {byte : UInt8} {pushed : List Nat}
    (taken : advance decoder byte = .ok (after, pushed)) :
    decoder.offset ≠ maxInt ∧ after.offset = decoder.offset + 1 := by
  have below : decoder.offset ≠ maxInt := by
    intro same
    simp [advance, same] at taken
  refine ⟨below, ?_⟩
  revert taken
  rw [advance, if_neg below]
  split_ifs <;> simp only [Except.ok.injEq, Prod.mk.injEq, false_implies] <;>
    · rintro ⟨rfl, -⟩
      rfl

/-- Bytes that are taken are no more than the language's `Int` counts. -/
theorem absorb_offset {decoder after : Decoder} {input decoded : List UInt8}
    (room : decoder.offset ≤ maxInt) (absorbed : absorb decoder input = .ok (after, decoded)) :
    decoder.offset + input.length ≤ maxInt := by
  induction input generalizing decoder decoded with
  | nil => simpa using room
  | cons byte input hypothesis =>
    cases taken : advance decoder byte with
    | error error =>
      rw [absorb_refused taken] at absorbed
      cases absorbed
    | ok last =>
      obtain ⟨below, moved⟩ := advance_offset taken
      rw [absorb_taken taken] at absorbed
      cases rest : absorb last.1 input with
      | error error =>
        rw [rest] at absorbed
        cases absorbed
      | ok final =>
        rw [rest] at absorbed
        cases absorbed
        have later := hypothesis (by omega) rest
        rw [moved] at later
        push_cast [List.length_cons]
        omega

/-- Where a text may end amid a group. -/
theorem finish_decoding {digits : List Nat} {tail : List UInt8}
    (finished : finishDecoder (decoding format foldCase policy offset digits 0) = .ok tail) :
    (digits = [] ∧ tail = []) ∨ (validTail format digits.length = true ∧
      policy ≠ .requirePadding ∧
        canonical format digits.length (value (2 ^ format.bits) digits) = true ∧
          tail = format.unpack digits) := by
  have unpacked := bytes_push format digits []
  have fine : (decoding format foldCase policy offset digits 0).error = none := rfl
  unfold finishDecoder at finished
  simp only [fine] at finished
  split_ifs at finished with begun empty invalid required unclean
  · cases finished
    exact Or.inl ⟨List.length_eq_zero_iff.mp empty, rfl⟩
  · cases finished
    exact Or.inr ⟨by simpa [decoding] using invalid, required, by simpa [decoding] using unclean,
      unpacked⟩

/-- A text that is read to its end completes an encoding of the bytes read. -/
theorem Lawful.encode_absorb (lawful : Lawful format) {digits : List Nat}
    {input decoded tail : List UInt8} {after : Decoder} (open_ : digits.length < format.digits)
    (small : ∀ digit ∈ digits, digit < 2 ^ format.bits)
    (absorbed : absorb (decoding format foldCase policy offset digits 0) input =
      .ok (after, decoded)) (finished : finishDecoder after = .ok tail) :
    ∃ padding text, Admits policy format padding (decoded ++ tail).length ∧
      format.text digits ++ text = encode (newEncoder format padding) (decoded ++ tail) ∧
        SameText (format.folds foldCase) input text := by
  induction input generalizing digits offset decoded with
  | nil =>
    cases absorbed
    rw [List.nil_append]
    rcases finish_decoding finished with ⟨rfl, rfl⟩ | ⟨valid, lenient, zero, rfl⟩
    · refine ⟨.padded, [], ?_, ?_, .nil⟩
      · cases policy <;> simp [Admits]
      · rw [List.append_nil, lawful.encode_tail .padded (by simpa using lawful.bytes_pos)]
        rfl
    · obtain ⟨short, present, group, -⟩ := lawful.group_of_valid small valid zero
      refine ⟨.unpadded, [], ?_, ?_, .nil⟩
      · cases policy with
        | requirePadding => exact absurd rfl lenient
        | allowPadding => trivial
        | forbidPadding => exact Or.inl rfl
      · rw [lawful.encode_tail .unpadded short, if_neg present, group]
        simp [padsAfter]
  | cons byte input hypothesis =>
    cases taken : advance (decoding format foldCase policy offset digits 0) byte with
    | error error =>
      rw [absorb_refused taken] at absorbed
      cases absorbed
    | ok last =>
      obtain ⟨below, padded, letter⟩ := advance_checks taken
      by_cases padding : byte.toNat = 61
      · obtain ⟨allowed, valid, zero⟩ := padded padding
        obtain ⟨all, count, whole⟩ := pads_of_absorb (Or.inr ⟨byte, rfl, padding⟩) open_ absorbed
          finished
        obtain ⟨short, present, group, size⟩ := lawful.group_of_valid small valid zero
        rw [whole]
        refine ⟨.padded, List.replicate (byte :: input).length '=', ?_, ?_, sameText_pads _ all⟩
        · cases policy with
          | requirePadding => exact Or.inl rfl
          | allowPadding => trivial
          | forbidPadding => exact absurd rfl allowed
        · have pads : padsAfter format .padded (format.unpack digits).length =
              (byte :: input).length := by
            rw [padsAfter, if_pos rfl, size]
            omega
          rw [lawful.encode_tail .padded short, if_neg present, group, pads]
      · obtain ⟨-, read⟩ := letter padding
        obtain ⟨inside, -, same⟩ := lawful.range foldCase byte.toNat byte.toNat_lt read
        have known := advance_digit policy digits byte below padding read inside
        generalize (digit format foldCase byte.toNat).toNat = digit at inside same known
        have grown : ∀ other ∈ digits ++ [digit], other < 2 ^ format.bits := by
          intro other member
          rcases List.mem_append.mp member with old | new
          · exact small other old
          · exact List.mem_singleton.mp new ▸ inside
        by_cases full : digits.length + 1 = format.digits
        · rw [if_pos full] at known
          rw [absorb_taken known] at absorbed
          cases rest : absorb (decoding format foldCase policy (offset + 1) [] 0) input with
          | error error =>
            rw [rest] at absorbed
            cases absorbed
          | ok final =>
            rw [rest] at absorbed
            cases absorbed
            have positive : ([] : List Nat).length < format.digits := by
              rw [List.length_nil]
              omega
            obtain ⟨padding, text, admits, whole, rest⟩ := hypothesis positive (by simp) rest
            have size : (digits ++ [digit]).length = format.digits := by
              rw [List.length_append, List.length_singleton, full]
            have quotient : (digits ++ [digit]).length * format.bits / 8 = format.bytes := by
              rw [size, lawful.full, Nat.mul_div_cancel _ (by decide)]
            have bytes_full : (format.unpack (digits ++ [digit])).length = format.bytes := by
              rw [Format.unpack, List.length_map, length_numeral, quotient]
            have group : format.group (format.unpack (digits ++ [digit])) = digits ++ [digit] := by
              apply group_unpack grown
              · rw [quotient, lawful.digitsFor_full, size]
              · rw [size, lawful.full, Nat.mul_mod_left, Nat.pow_zero, Nat.mod_one]
            have unpacked := bytes_push format (digits ++ [digit]) []
            rw [List.length_append, List.length_singleton] at unpacked
            rw [unpacked, List.append_assoc, List.append_assoc]
            refine ⟨padding, format.letter digit :: text, (admits_append bytes_full _).mpr admits,
              ?_, .cons same rest⟩
            have first := lawful.encode_full padding bytes_full (final.2 ++ tail)
            rw [group, ← whole] at first
            refine Eq.trans ?_ first.symm
            simp [Format.text]
        · rw [if_neg full] at known
          rw [absorb_taken known] at absorbed
          cases rest : absorb (decoding format foldCase policy (offset + 1) (digits ++ [digit]) 0)
              input with
          | error error =>
            rw [rest] at absorbed
            cases absorbed
          | ok final =>
            rw [rest] at absorbed
            cases absorbed
            obtain ⟨padding, text, admits, whole, rest⟩ :=
              hypothesis (by rw [List.length_append, List.length_singleton]; omega) grown rest
            refine ⟨padding, format.letter digit :: text, admits, ?_, .cons same rest⟩
            simpa [Format.text, bytes] using whole

/-- What a decoder makes of a whole input. -/
theorem Lawful.decode_iff (lawful : Lawful format) (foldCase : Bool) (policy : Padding)
    (input output : List UInt8) :
    decode (newDecoder format foldCase policy) input = .ok output ↔
      (input.length : Int) ≤ maxInt ∧ ∃ padding, Admits policy format padding output.length ∧
        SameText (format.folds foldCase) input (encode (newEncoder format padding) output) := by
  have start : newDecoder format foldCase policy = decoding format foldCase policy 0 [] 0 := rfl
  have positive : ([] : List Nat).length < format.digits := by
    have some_byte := lawful.bytes_pos
    have full := lawful.full
    by_contra empty
    rw [List.length_nil, Nat.not_lt, Nat.le_zero] at empty
    rw [empty, Nat.zero_mul] at full
    omega
  rw [start, decode_eq rfl]
  constructor
  · intro decoded
    cases absorbed : absorb (decoding format foldCase policy 0 [] 0) input with
    | error error =>
      rw [absorbed] at decoded
      cases decoded
    | ok last =>
      obtain ⟨after, front⟩ := last
      rw [absorbed] at decoded
      cases finished : finishDecoder after with
      | error error =>
        simp only [Except.bind, finished] at decoded
        cases decoded
      | ok tail =>
        simp only [Except.bind, finished, Except.map, Except.ok.injEq] at decoded
        subst decoded
        have start_room : (decoding format foldCase policy 0 [] 0).offset ≤ maxInt :=
          show (0 : Int) ≤ maxInt by decide
        have room := absorb_offset start_room absorbed
        obtain ⟨padding, text, admits, whole, same⟩ :=
          lawful.encode_absorb positive (by simp) absorbed finished
        refine ⟨by simpa [decoding] using room, padding, admits, ?_⟩
        rw [← whole]
        exact same
  · rintro ⟨room, padding, admits, same⟩
    obtain ⟨after, front, tail, absorbed, finished, whole⟩ :=
      lawful.absorb_encode 0 admits same (by simpa using room)
    rw [absorbed]
    simp only [Except.bind, finished, Except.map, whole]

/-! ## Lengths -/

/-- The length of an encoding. -/
theorem Lawful.length_encode (lawful : Lawful format) (padding : OutputPadding)
    (input : List UInt8) : (encode (newEncoder format padding) input).length =
      input.length / format.bytes * format.digits +
        if input.length % format.bytes = 0 then 0
        else if padding = .padded then format.digits
        else format.digitsFor (input.length % format.bytes) := by
  induction size : input.length using Nat.strong_induction_on generalizing input with
  | _ n hypothesis =>
    subst size
    have positive := lawful.bytes_pos
    by_cases short : input.length < format.bytes
    · rw [lawful.encode_tail padding short, Nat.div_eq_of_lt short, Nat.mod_eq_of_lt short]
      by_cases empty : input = []
      · simp [empty]
      · have some_byte : input.length ≠ 0 := by simpa using empty
        have bound := (lawful.tail input.length short (Nat.pos_of_ne_zero some_byte)).2.1
        rw [if_neg empty, if_neg some_byte, List.length_append, List.length_replicate, Format.text,
          List.length_map, length_group, padsAfter]
        split <;> omega
    · have full : (input.take format.bytes).length = format.bytes := by
        rw [List.length_take]
        omega
      have rest : (input.drop format.bytes).length = input.length - format.bytes :=
        List.length_drop
      have later := hypothesis _ (by omega) (input.drop format.bytes) rest
      have whole : encode (newEncoder format padding) input =
          format.text (format.group (input.take format.bytes)) ++
            encode (newEncoder format padding) (input.drop format.bytes) := by
        rw [← lawful.encode_full padding full, List.take_append_drop]
      have count : input.length = input.length - format.bytes + format.bytes := by omega
      have groups : input.length / format.bytes =
          (input.length - format.bytes) / format.bytes + 1 := by
        rw [count, Nat.add_sub_cancel, Nat.add_div_right _ positive]
      have tail : input.length % format.bytes = (input.length - format.bytes) % format.bytes := by
        rw [count, Nat.add_sub_cancel, Nat.add_mod_right]
      rw [whole, List.length_append, later, groups, tail, Format.text, List.length_map,
        length_group, full, lawful.digitsFor_full]
      ring

/-- The length announced is the length of the encoding, unless that is beyond every `Int`. -/
theorem Lawful.encodedLength_eq (lawful : Lawful format) (padding : OutputPadding)
    (input : List UInt8) : encodedLength format (padding = .padded) input.length =
      if ((encode (newEncoder format padding) input).length : Int) ≤ maxInt then
        some ((encode (newEncoder format padding) input).length : Int) else none := by
  have positive := lawful.bits_pos
  have digits_pos : 0 < format.digits := by
    have some_byte := lawful.bytes_pos
    have full := lawful.full
    by_contra empty
    rw [Nat.eq_zero_of_not_pos empty, Nat.zero_mul] at full
    omega
  have length := lawful.length_encode padding input
  generalize (encode (newEncoder format padding) input).length = total at length
  have groups : (input.length : Int) / format.bytes = (input.length / format.bytes : Nat) :=
    (Int.natCast_ediv _ _).symm
  have tail : (input.length : Int) % format.bytes = (input.length % format.bytes : Nat) :=
    (Int.natCast_emod _ _).symm
  have extra : (if ((input.length % format.bytes : Nat) : Int) = 0 then 0
      else if decide (padding = .padded) = true then (format.digits : Int)
      else (((input.length % format.bytes : Nat) : Int) * 8 + format.bits - 1) / format.bits) =
      ((if input.length % format.bytes = 0 then 0
        else if padding = .padded then format.digits
        else format.digitsFor (input.length % format.bytes) : Nat) : Int) := by
    have sum : ((input.length % format.bytes : Nat) : Int) * 8 + format.bits - 1 =
        ((input.length % format.bytes * 8 + format.bits - 1 : Nat) : Int) := by
      omega
    rw [sum]
    simp only [Format.digitsFor, Int.natCast_eq_zero, decide_eq_true_eq]
    split_ifs <;> simp
  have present : ¬ (input.length : Int) < 0 := by omega
  simp only [encodedLength, if_neg present, groups, tail, extra]
  generalize (if input.length % format.bytes = 0 then 0
    else if padding = .padded then format.digits
    else format.digitsFor (input.length % format.bytes)) = last at length
  have within : ((input.length / format.bytes : Nat) : Int) > (maxInt - last) / format.digits ↔
      ¬ (total : Int) ≤ maxInt := by
    rw [gt_iff_lt, ← Int.not_le, not_iff_not, Int.le_ediv_iff_mul_le (by omega), length]
    push_cast
    omega
  by_cases room : (total : Int) ≤ maxInt
  · rw [if_neg (by rw [within]; exact not_not.mpr room), if_pos room, length]
    push_cast
    rfl
  · rw [if_pos (within.mpr room), if_neg room]

end Lawful

/-- A text has the bytes of its characters, up to case. -/
theorem sameText_encode (folds : Bool) {text : List Char}
    (ascii : ∀ char ∈ text, char.toNat ≤ 127) :
    SameText folds (Utf8.encode text) text := by
  induction text with
  | nil => exact .nil
  | cons char text hypothesis =>
    have small := ascii char List.mem_cons_self
    rw [Utf8.encode_cons, Utf8.utf8EncodeChar_ascii small]
    refine .cons (Or.inl ?_) (hypothesis fun char member =>
      ascii char (List.mem_cons_of_mem _ member))
    exact Utf8.toNat_ofNat_byte (by omega)

/-- Letters and padding are within ASCII. -/
theorem Lawful.ascii {format : Format} (lawful : Lawful format) (padding : OutputPadding)
    (input : List UInt8) : ∀ char ∈ encode (newEncoder format padding) input, char.toNat ≤ 127 := by
  have letters : ∀ group : List UInt8, ∀ char ∈ format.text (format.group group),
      char.toNat ≤ 127 := by
    intro group char member
    obtain ⟨digit, inside, rfl⟩ := List.mem_map.mp member
    have bound := (lawful.letters digit (group_lt format group digit inside)).1
    omega
  induction size : input.length using Nat.strong_induction_on generalizing input with
  | _ n hypothesis =>
    intro char member
    by_cases short : input.length < format.bytes
    · rw [lawful.encode_tail padding short] at member
      split at member
      · cases member
      · rcases List.mem_append.mp member with letter | pad
        · exact letters input char letter
        · rw [(List.mem_replicate.mp pad).2]
          decide
    · have full : (input.take format.bytes).length = format.bytes := by
        rw [List.length_take]
        omega
      have positive := lawful.bytes_pos
      rw [← List.take_append_drop format.bytes input, lawful.encode_full padding full] at member
      rcases List.mem_append.mp member with letter | later
      · exact letters _ char letter
      · exact hypothesis _ (by rw [List.length_drop]; omega) (input.drop format.bytes)
          rfl char later

/-- Codecs are exact and streamable, for texts of at most the largest `Int` of bytes: chunks encode
to the text of the whole input, of the length announced; and chunks decode to some bytes exactly
when together they are an admitted encoding of them, up to letter case where it is folded. So an
encoding decodes to its source, two sources never have encodings that decode alike, and what is
refused is no encoding. -/
theorem codecs_exact {format : Format} (member : format ∈ formats) :
    (∀ padding chunks, encodeChunks (newEncoder format padding) chunks =
      encode (newEncoder format padding) chunks.flatten) ∧
      (∀ padding input, encodedLength format (padding = .padded) (input : List UInt8).length =
        if ((encode (newEncoder format padding) input).length : Int) ≤ maxInt then
          some ((encode (newEncoder format padding) input).length : Int) else none) ∧
      (∀ foldCase policy chunks output,
        decodeChunks (newDecoder format foldCase policy) chunks = .ok output ↔
          (chunks.flatten.length : Int) ≤ maxInt ∧
            ∃ padding, Admits policy format padding output.length ∧
              SameText (format.folds foldCase) chunks.flatten
                (encode (newEncoder format padding) output)) ∧
      (∀ foldCase policy padding source chunks, Admits policy format padding source.length →
        chunks.flatten = Utf8.encode (encode (newEncoder format padding) source) →
          (chunks.flatten.length : Int) ≤ maxInt →
            decodeChunks (newDecoder format foldCase policy) chunks = .ok source) ∧
      (∀ foldCase policy padding padding' source source' output,
        decode (newDecoder format foldCase policy)
          (Utf8.encode (encode (newEncoder format padding) source)) = .ok output →
        decode (newDecoder format foldCase policy)
          (Utf8.encode (encode (newEncoder format padding') source')) = .ok output →
        Admits policy format padding source.length → Admits policy format padding' source'.length →
          source = source') := by
  have laws := lawful member
  have decoded : ∀ foldCase policy padding source input,
      Admits policy format padding source.length →
      input = Utf8.encode (encode (newEncoder format padding) source) →
        (input.length : Int) ≤ maxInt →
          decode (newDecoder format foldCase policy) input = .ok source := by
    rintro foldCase policy padding source input admits rfl room
    exact (laws.decode_iff foldCase policy _ source).mpr ⟨room, padding, admits,
      sameText_encode _ (laws.ascii padding source)⟩
  refine ⟨fun padding chunks => encodeChunks_eq _ chunks,
    fun padding input => laws.encodedLength_eq padding input, ?_, ?_, ?_⟩
  · intro foldCase policy chunks output
    rw [decodeChunks_eq rfl]
    exact laws.decode_iff foldCase policy _ output
  · intro foldCase policy padding source chunks admits same room
    rw [decodeChunks_eq rfl]
    exact decoded foldCase policy padding source _ admits same room
  · intro foldCase policy padding padding' source source' output first second admits admits'
    have room := ((laws.decode_iff foldCase policy _ output).mp first).1
    have room' := ((laws.decode_iff foldCase policy _ output).mp second).1
    rw [decoded foldCase policy padding source _ admits rfl room] at first
    rw [decoded foldCase policy padding' source' _ admits' rfl room'] at second
    exact Except.ok.inj (first.trans second.symm)

/-- Five bytes in base 64 come back from three chunks of their text. -/
theorem codecs_exact_hello : decodeChunks (newDecoder base64 false .requirePadding)
    [[97, 71], [86, 115, 98, 71], [56, 61]] = .ok [104, 101, 108, 108, 111] := by
  have exact_ := codecs_exact (show base64 ∈ formats by decide)
  refine exact_.2.2.2.1 false .requirePadding .padded [104, 101, 108, 108, 111] _ (Or.inl rfl) ?_ ?_
  · decide +kernel
  · decide

/-- The text of too many bytes is refused for its length. -/
theorem not_decoded_overlong : ¬ ∀ format ∈ formats, ∀ foldCase policy padding source,
    Admits policy format padding source.length →
      decode (newDecoder format foldCase policy)
        (Utf8.encode (encode (newEncoder format padding) source)) = .ok source := by
  intro claim
  have laws := lawful (show hexLower ∈ formats by decide)
  have decoded := claim hexLower (by decide) false .allowPadding .unpadded
    (List.replicate 4611686018427387904 0) trivial
  have room := ((laws.decode_iff false .allowPadding _ _).mp decoded).1
  have ascii := sameText_encode false
    (laws.ascii .unpadded (List.replicate 4611686018427387904 0))
  rw [List.Forall₂.length_eq ascii, laws.length_encode, List.length_replicate] at room
  exact absurd room (by decide)

end Fai.Encoding
