import FaiVerif.Encoding.Groups

/-!
# What chunks come to

An encoder and a decoder take one byte after the other, wherever the chunks end: the text of an
input and the bytes of a text are those of the whole.
-/

namespace Fai.Encoding

/-! ## Encoders -/

/-- What was written before a chunk stays. -/
theorem encodeFrom_output (encoder : Encoder) (input : List UInt8) (output : List Char) :
    encodeFrom encoder input output =
      ⟨(encodeFrom encoder input []).encoder, output ++ (encodeFrom encoder input []).output⟩ := by
  induction input generalizing encoder output with
  | nil => simp [encodeFrom]
  | cons byte input hypothesis =>
    simp only [encodeFrom]
    split
    · rw [hypothesis, hypothesis _ ([] ++ _)]
      simp
    · rw [hypothesis]

/-- A chunk of two parts. -/
theorem encodeFrom_append (encoder : Encoder) (front back : List UInt8) (output : List Char) :
    encodeFrom encoder (front ++ back) output =
      encodeFrom (encodeFrom encoder front output).encoder back
        (encodeFrom encoder front output).output := by
  induction front generalizing encoder output with
  | nil => rfl
  | cons byte front hypothesis =>
    simp only [List.cons_append, encodeFrom]
    split
    · rw [hypothesis]
    · rw [hypothesis]

/-- Chunks encode to the text of the whole input. -/
theorem encodeChunks_eq (encoder : Encoder) (chunks : List (List UInt8)) :
    encodeChunks encoder chunks = encode encoder chunks.flatten := by
  induction chunks generalizing encoder with
  | nil => rfl
  | cons chunk chunks hypothesis =>
    rw [encodeChunks, hypothesis, encode, encode, List.flatten_cons]
    simp only [feedEncoder]
    rw [encodeFrom_append, encodeFrom_output _ chunks.flatten (encodeFrom encoder chunk []).output,
      List.append_assoc]

/-! ## Decoders -/

/-- What a decoder does with one byte: the decoder after it with the bytes of a group that it
completes, in reverse order, or an error. -/
def advance (decoder : Decoder) (byte : UInt8) : Except Error (Decoder × List Nat) :=
  if decoder.offset = maxInt then
    .error (problem decoder .overflow "encoding input offset overflow")
  else if decoder.terminal then
    .error (problem decoder .invalidPadding "data follows a padded final group")
  else if byte.toNat = 61 then
    if decoder.padding = .forbidPadding then
      .error (problem decoder .invalidPadding "padding is forbidden")
    else if !validTail decoder.format decoder.count then
      .error (problem decoder .invalidPadding "padding at an invalid position")
    else if !canonical decoder.format decoder.count decoder.word then
      .error (located .nonCanonicalBits "unused trailing bits must be zero" (decoder.offset - 1))
    else if decoder.count + (decoder.pads + 1) = decoder.format.digits then
      .ok ({ decoder with
        count := 0, offset := decoder.offset + 1, pads := 0, terminal := true, word := 0 },
        push decoder.format decoder.count decoder.word [])
    else .ok ({ decoder with offset := decoder.offset + 1, pads := decoder.pads + 1 }, [])
  else if decoder.pads > 0 then
    .error (problem decoder .invalidPadding "expected remaining padding")
  else if digit decoder.format decoder.foldCase byte.toNat < 0 then
    .error (problem decoder .invalidCharacter "character is outside the encoding alphabet")
  else if decoder.count + 1 = decoder.format.digits then
    .ok ({ decoder with count := 0, offset := decoder.offset + 1, word := 0 },
      push decoder.format (decoder.count + 1) ((decoder.word <<< decoder.format.bits) |||
        (digit decoder.format decoder.foldCase byte.toNat).toNat) [])
  else .ok ({ decoder with
    count := decoder.count + 1
    offset := decoder.offset + 1
    word := (decoder.word <<< decoder.format.bits) |||
      (digit decoder.format decoder.foldCase byte.toNat).toNat }, [])

/-- The bytes of a group go before those of the groups before it. -/
theorem push_append (format : Format) (count word : Nat) (output : List Nat) :
    push format count word output = push format count word [] ++ output := by
  rw [push, push, pushFrom_eq, pushFrom_eq, List.append_nil]

/-- A byte that is taken. -/
theorem decodeFrom_taken {decoder after : Decoder} {byte : UInt8} {pushed : List Nat}
    (taken : advance decoder byte = .ok (after, pushed)) (input : List UInt8) (index : Nat)
    (output : List Nat) : decodeFrom decoder (byte :: input) index output =
      decodeFrom after input (index + 1) (pushed ++ output) := by
  rw [decodeFrom]
  revert taken
  rw [advance]
  split_ifs <;> simp only [Except.ok.injEq, Prod.mk.injEq, false_implies] <;>
    · rintro ⟨rfl, rfl⟩
      simp_all [← push_append]

/-- A byte that is refused. -/
theorem decodeFrom_refused {decoder : Decoder} {byte : UInt8} {error : Error}
    (refused : advance decoder byte = .error error) (input : List UInt8) (index : Nat)
    (output : List Nat) : decodeFrom decoder (byte :: input) index output =
      failed decoder index output error := by
  rw [decodeFrom]
  revert refused
  rw [advance]
  split_ifs <;> simp only [Except.error.injEq, false_implies] <;>
    · rintro rfl
      simp_all

/-- What a decoder does with bytes: the decoder after them with the bytes of the groups that they
complete, or an error. -/
def absorb (decoder : Decoder) : List UInt8 → Except Error (Decoder × List UInt8)
  | [] => .ok (decoder, [])
  | byte :: input =>
    match advance decoder byte with
    | .error error => .error error
    | .ok (after, pushed) => (absorb after input).map fun last => (last.1, bytes pushed ++ last.2)

/-- A first byte that is taken. -/
theorem absorb_taken {decoder after : Decoder} {byte : UInt8} {pushed : List Nat}
    (taken : advance decoder byte = .ok (after, pushed)) (input : List UInt8) :
    absorb decoder (byte :: input) =
      (absorb after input).map fun last => (last.1, bytes pushed ++ last.2) := by
  simp only [absorb, taken]

/-- A first byte that is refused. -/
theorem absorb_refused {decoder : Decoder} {byte : UInt8} {error : Error}
    (refused : advance decoder byte = .error error) (input : List UInt8) :
    absorb decoder (byte :: input) = .error error := by
  simp only [absorb, refused]

/-- A byte taken keeps the decoder free of errors. -/
theorem advance_error {decoder after : Decoder} {byte : UInt8} {pushed : List Nat}
    (taken : advance decoder byte = .ok (after, pushed)) : after.error = decoder.error := by
  revert taken
  rw [advance]
  split_ifs <;> simp only [Except.ok.injEq, Prod.mk.injEq, false_implies] <;>
    · rintro ⟨rfl, -⟩
      rfl

/-- Bytes written in reverse order. -/
theorem bytes_append (front back : List Nat) :
    bytes (front ++ back) = bytes back ++ bytes front := by
  simp [bytes]

/-- A chunk that is absorbed. -/
theorem decodeFrom_absorbed {decoder after : Decoder} (fine : decoder.error = none)
    {input decoded : List UInt8} (absorbed : absorb decoder input = .ok (after, decoded))
    (index : Nat) (output : List Nat) : after.error = none ∧
      decodeFrom decoder input index output =
        ⟨index + input.length, after, none, bytes output ++ decoded⟩ := by
  induction input generalizing decoder index output decoded with
  | nil =>
    cases absorbed
    simp [decodeFrom, step, fine]
  | cons byte input hypothesis =>
    cases taken : advance decoder byte with
    | error error =>
      rw [absorb_refused taken] at absorbed
      cases absorbed
    | ok last =>
      obtain ⟨middle, pushed⟩ := last
      rw [absorb_taken taken] at absorbed
      cases rest : absorb middle input with
      | error error =>
        rw [rest] at absorbed
        cases absorbed
      | ok last =>
        rw [rest] at absorbed
        cases absorbed
        obtain ⟨still, same⟩ := hypothesis ((advance_error taken).trans fine) rest (index + 1)
          (pushed ++ output)
        refine ⟨still, ?_⟩
        rw [decodeFrom_taken taken, same, bytes_append, List.append_assoc, List.length_cons,
          Nat.add_right_comm, Nat.add_assoc]

/-- A chunk in which a byte is refused. -/
theorem decodeFrom_failed {decoder : Decoder} {input : List UInt8} {error : Error}
    (failure : absorb decoder input = .error error) (index : Nat) (output : List Nat) :
    (decodeFrom decoder input index output).decoder.error = some error := by
  induction input generalizing decoder index output with
  | nil => cases failure
  | cons byte input hypothesis =>
    cases taken : advance decoder byte with
    | error error =>
      rw [absorb_refused taken] at failure
      cases failure
      rw [decodeFrom_refused taken]
      rfl
    | ok last =>
      obtain ⟨middle, pushed⟩ := last
      rw [absorb_taken taken] at failure
      rw [decodeFrom_taken taken]
      cases rest : absorb middle input with
      | error error =>
        rw [rest] at failure
        cases failure
        exact hypothesis rest _ _
      | ok last =>
        rw [rest] at failure
        cases failure

/-- What a whole input decodes to. -/
theorem decode_eq {decoder : Decoder} (fine : decoder.error = none) (input : List UInt8) :
    decode decoder input = (absorb decoder input).bind fun last =>
      (finishDecoder last.1).map (last.2 ++ ·) := by
  simp only [decode, feedDecoder, fine]
  cases absorbed : absorb decoder input with
  | error error =>
    simp only [finishDecoder, decodeFrom_failed absorbed]
    rfl
  | ok last =>
    rw [(decodeFrom_absorbed fine absorbed 0 []).2]
    rfl

/-- Two parts of an input are absorbed in turn. -/
theorem absorb_append (decoder : Decoder) (front back : List UInt8) :
    absorb decoder (front ++ back) = (absorb decoder front).bind fun last =>
      (absorb last.1 back).map fun final => (final.1, last.2 ++ final.2) := by
  induction front generalizing decoder with
  | nil =>
    simp only [List.nil_append, absorb, Except.bind]
    cases absorb decoder back <;> rfl
  | cons byte front hypothesis =>
    simp only [List.cons_append, absorb]
    cases advance decoder byte with
    | error error => rfl
    | ok last =>
      simp only [hypothesis]
      cases absorb last.1 front with
      | error error => rfl
      | ok middle =>
        simp only [Except.bind, Except.map]
        cases absorb middle.1 back with
        | error error => rfl
        | ok final => simp

/-- An error stays. -/
theorem decodeChunks_failed {decoder : Decoder} {error : Error} (stuck : decoder.error = some error)
    (chunks : List (List UInt8)) : decodeChunks decoder chunks = .error error := by
  induction chunks with
  | nil => simp [decodeChunks, finishDecoder, stuck]
  | cons chunk chunks hypothesis =>
    simp only [decodeChunks, feedDecoder, stuck, step, hypothesis]
    rfl

/-- Chunks decode to the bytes of the whole input, or to its error. -/
theorem decodeChunks_eq {decoder : Decoder} (fine : decoder.error = none)
    (chunks : List (List UInt8)) : decodeChunks decoder chunks = decode decoder chunks.flatten := by
  rw [decode_eq fine]
  induction chunks generalizing decoder with
  | nil =>
    simp only [decodeChunks, List.flatten_nil, absorb, Except.bind]
    cases finishDecoder decoder <;> rfl
  | cons chunk chunks hypothesis =>
    rw [decodeChunks, List.flatten_cons, absorb_append]
    simp only [feedDecoder, fine]
    cases absorbed : absorb decoder chunk with
    | error error =>
      rw [decodeChunks_failed (decodeFrom_failed absorbed 0 [])]
      rfl
    | ok last =>
      obtain ⟨after, decoded⟩ := last
      obtain ⟨still, same⟩ := decodeFrom_absorbed fine absorbed 0 []
      rw [same, hypothesis still]
      simp only [Except.bind]
      cases absorb after chunks.flatten with
      | error error => rfl
      | ok final =>
        simp only [Except.map]
        cases finishDecoder final.1 with
        | error error => rfl
        | ok tail => simp [bytes]

end Fai.Encoding
