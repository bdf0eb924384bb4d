import FaiVerif.Encoding.Core

/-!
# Streaming encoders and decoders

The public codec of `Encoding.fai` with its error messages: encoders and decoders that take their
input in chunks, and the codecs of whole inputs made from them.
-/

namespace Fai.Encoding

/-- The padding an encoder writes. -/
inductive OutputPadding where
  | padded
  | unpadded
  deriving DecidableEq

/-- The padding a decoder accepts. -/
inductive Padding where
  | requirePadding
  | allowPadding
  | forbidPadding
  deriving DecidableEq

/-- The categories of errors. -/
inductive ErrorKind where
  | invalidCharacter
  | invalidLength
  | invalidPadding
  | nonCanonicalBits
  | overflow
  deriving DecidableEq

/-- An error, with the input byte it is about. -/
structure Error where
  kind : ErrorKind
  message : String
  offset : Option Int
  deriving DecidableEq

/-- An encoder between two bytes. -/
structure Encoder where
  /-- The bytes of the unfinished group. -/
  count : Nat
  format : Format
  padded : Bool
  /-- The unfinished group. -/
  word : Nat
  deriving DecidableEq

/-- A decoder between two bytes. -/
structure Decoder where
  /-- The digits of the unfinished group. -/
  count : Nat
  error : Option Error
  foldCase : Bool
  format : Format
  /-- The bytes of input before. -/
  offset : Int
  padding : Padding
  /-- The padding read so far. -/
  pads : Nat
  /-- Whether a padded final group has been read. -/
  terminal : Bool
  /-- The unfinished group. -/
  word : Nat
  deriving DecidableEq

/-- What an encoder does with a chunk. -/
structure EncodeStep where
  encoder : Encoder
  output : List Char

/-- What a decoder does with a chunk. -/
structure DecodeStep where
  /-- The first index of the chunk that was not consumed. -/
  consumed : Nat
  decoder : Decoder
  error : Option Error
  output : List UInt8
  deriving DecidableEq

/-- A new encoder. -/
def newEncoder (format : Format) (padding : OutputPadding) : Encoder where
  count := 0
  format := format
  padded := padding = .padded
  word := 0

/-- A new decoder. -/
def newDecoder (format : Format) (foldCase : Bool) (padding : Padding) : Decoder where
  count := 0
  error := none
  foldCase := foldCase
  format := format
  offset := 0
  padding := padding
  pads := 0
  terminal := false
  word := 0

/-- Encodes the rest of a chunk. -/
def encodeFrom (encoder : Encoder) : List UInt8 → List Char → EncodeStep
  | [], output => ⟨encoder, output⟩
  | byte :: input, output =>
    let word := encoder.word * 256 + byte.toNat
    let count := encoder.count + 1
    if count = encoder.format.bytes then
      encodeFrom { encoder with count := 0, word := 0 } input
        (output ++ render encoder.format false count word)
    else encodeFrom { encoder with count := count, word := word } input output

/-- Encodes a chunk. -/
def feedEncoder (encoder : Encoder) (input : List UInt8) : EncodeStep := encodeFrom encoder input []

/-- The text of the unfinished group. -/
def finishEncoder (encoder : Encoder) : List Char :=
  render encoder.format encoder.padded encoder.count encoder.word

/-- An error at an offset. -/
def located (kind : ErrorKind) (message : String) (offset : Int) : Error :=
  ⟨kind, message, some offset⟩

/-- An error at the next byte. -/
def problem (decoder : Decoder) (kind : ErrorKind) (message : String) : Error :=
  located kind message decoder.offset

/-- The bytes of an output in reverse order. -/
def bytes (output : List Nat) : List UInt8 := output.reverse.map UInt8.ofNat

/-- The end of a chunk. -/
def step (decoder : Decoder) (consumed : Nat) (output : List Nat) : DecodeStep :=
  ⟨consumed, decoder, decoder.error, bytes output⟩

/-- An error, which the decoder keeps. -/
def failed (decoder : Decoder) (consumed : Nat) (output : List Nat) (error : Error) : DecodeStep :=
  step { decoder with error := some error } consumed output

/-- Decodes the rest of a chunk, which starts at an index of it. -/
def decodeFrom (decoder : Decoder) : List UInt8 → Nat → List Nat → DecodeStep
  | [], index, output => step decoder index output
  | byte :: input, index, output =>
    if decoder.offset = maxInt then
      failed decoder index output (problem decoder .overflow "encoding input offset overflow")
    else if decoder.terminal then
      failed decoder index output
        (problem decoder .invalidPadding "data follows a padded final group")
    else if byte.toNat = 61 then
      if decoder.padding = .forbidPadding then
        failed decoder index output (problem decoder .invalidPadding "padding is forbidden")
      else if !validTail decoder.format decoder.count then
        failed decoder index output
          (problem decoder .invalidPadding "padding at an invalid position")
      else if !canonical decoder.format decoder.count decoder.word then
        failed decoder index output
          (located .nonCanonicalBits "unused trailing bits must be zero" (decoder.offset - 1))
      else
        let decoder := { decoder with offset := decoder.offset + 1, pads := decoder.pads + 1 }
        if decoder.count + decoder.pads = decoder.format.digits then
          decodeFrom { decoder with count := 0, pads := 0, terminal := true, word := 0 } input
            (index + 1) (push decoder.format decoder.count decoder.word output)
        else decodeFrom decoder input (index + 1) output
    else if decoder.pads > 0 then
      failed decoder index output (problem decoder .invalidPadding "expected remaining padding")
    else
      let digit := digit decoder.format decoder.foldCase byte.toNat
      if digit < 0 then
        failed decoder index output
          (problem decoder .invalidCharacter "character is outside the encoding alphabet")
      else
        let decoder := { decoder with
          count := decoder.count + 1
          offset := decoder.offset + 1
          word := (decoder.word <<< decoder.format.bits) ||| digit.toNat }
        if decoder.count = decoder.format.digits then
          decodeFrom { decoder with count := 0, word := 0 } input (index + 1)
            (push decoder.format decoder.count decoder.word output)
        else decodeFrom decoder input (index + 1) output

/-- Decodes a chunk; after an error, nothing. -/
def feedDecoder (decoder : Decoder) (input : List UInt8) : DecodeStep :=
  match decoder.error with
  | some _ => step decoder 0 []
  | none => decodeFrom decoder input 0 []

/-- The bytes of the unfinished group at the end of the input. -/
def finishDecoder (decoder : Decoder) : Except Error (List UInt8) :=
  match decoder.error with
  | some error => .error error
  | none =>
    if decoder.pads > 0 then .error (problem decoder .invalidPadding "incomplete padding")
    else if decoder.count = 0 then .ok []
    else if !validTail decoder.format decoder.count then
      .error (problem decoder .invalidLength "incomplete encoding group")
    else if decoder.padding = .requirePadding then
      .error (problem decoder .invalidPadding "required padding is missing")
    else if !canonical decoder.format decoder.count decoder.word then
      .error (located .nonCanonicalBits "unused trailing bits must be zero" (decoder.offset - 1))
    else .ok (bytes (push decoder.format decoder.count decoder.word []))

/-- Encodes a whole input. -/
def encode (encoder : Encoder) (input : List UInt8) : List Char :=
  let progress := feedEncoder encoder input
  progress.output ++ finishEncoder progress.encoder

/-- Decodes a whole input. -/
def decode (decoder : Decoder) (input : List UInt8) : Except Error (List UInt8) :=
  let progress := feedDecoder decoder input
  (finishDecoder progress.decoder).map (progress.output ++ ·)

/-- Encodes an input that comes in chunks. -/
def encodeChunks (encoder : Encoder) : List (List UInt8) → List Char
  | [] => finishEncoder encoder
  | chunk :: chunks =>
    let progress := feedEncoder encoder chunk
    progress.output ++ encodeChunks progress.encoder chunks

/-- Decodes an input that comes in chunks. -/
def decodeChunks (decoder : Decoder) : List (List UInt8) → Except Error (List UInt8)
  | [] => finishDecoder decoder
  | chunk :: chunks =>
    let progress := feedDecoder decoder chunk
    (decodeChunks progress.decoder chunks).map (progress.output ++ ·)

/-- The length of the encoding of so many bytes. -/
def lengthFor (format : Format) (padding : OutputPadding) (count : Int) : Except Error Int :=
  match encodedLength format (padding = .padded) count with
  | some length => .ok length
  | none => .error
    { kind := if count < 0 then .invalidLength else .overflow
      message := if count < 0 then "byte count must be nonnegative"
        else "encoded length exceeds Int range"
      offset := none }

end Fai.Encoding
