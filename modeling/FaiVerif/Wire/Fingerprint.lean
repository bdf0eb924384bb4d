import FaiVerif.Wire.RenderTy

/-!
# The fingerprint of a definition

`fai-core`'s `fingerprint.rs`: the text whose hash keys the artifact cache. Every node is written
with its operands and its canonical type, definitions by their backend symbol, arity and calling
convention, and the side tables of the definition before its functions.
-/

namespace Fai

namespace Wire

open Reading (Text str decimal joined)

/-- `runtime_symbol`. -/
def runtimeSymbol : Prim → String
  | .intAdd => "fai_int_add"
  | .intBox => "fai_box_int"
  | .intSub => "fai_int_sub"
  | .intMul => "fai_int_mul"
  | .intDiv => "fai_int_div"
  | .intRem => "fai_int_rem"
  | .intAnd => "fai_int_and"
  | .intOr => "fai_int_or"
  | .intXor => "fai_int_xor"
  | .intShl => "fai_int_shl"
  | .intShr => "fai_int_shr"
  | .intShrLogical => "fai_int_shr_logical"
  | .intComplement => "fai_int_complement"
  | .intLt => "fai_int_lt"
  | .intLe => "fai_int_le"
  | .intGt => "fai_int_gt"
  | .intGe => "fai_int_ge"
  | .floatAdd => "fai_float_add"
  | .floatSub => "fai_float_sub"
  | .floatNeg => "fai_float_neg"
  | .floatMul => "fai_float_mul"
  | .floatDiv => "fai_float_div"
  | .floatLt => "fai_float_lt"
  | .floatLe => "fai_float_le"
  | .floatGt => "fai_float_gt"
  | .floatGe => "fai_float_ge"
  | .compare => "fai_compare"
  | .hash => "fai_hash"
  | .eq => "fai_equal"
  | .strConcat => "fai_string_concat"
  | .intToString => "fai_int_to_string"
  | .floatToString => "fai_float_to_string"
  | .intToFloat => "fai_int_to_float"
  | .floatToInt => "fai_float_to_int"
  | .sqrt => "fai_sqrt"
  | .floatFromBits => "fai_float_from_bits"
  | .floatToBits => "fai_float_to_bits"
  | .charToString => "fai_char_to_string"
  | .charToCode => "fai_char_to_code"
  | .charFromCode => "fai_char_from_code"
  | .isValidCharCode => "fai_is_valid_char_code"
  | .stringLength => "fai_string_length"
  | .toUpper => "fai_to_upper"
  | .toLower => "fai_to_lower"
  | .trim => "fai_trim"
  | .stringContains => "fai_string_contains"
  | .stringFind => "fai_string_find"
  | .stringSplit => "fai_string_split"
  | .stringJoin => "fai_string_join"
  | .stringSubstring => "fai_string_substring"
  | .stringTake => "fai_string_take"
  | .stringDrop => "fai_string_drop"
  | .not => "fai_not"
  | .recordUpdate => "fai_record_update"
  | .arrayWithCapacity => "fai_array_with_capacity"
  | .arrayRepeat => "fai_array_repeat"
  | .arrayLength => "fai_array_length"
  | .arrayGet => "fai_array_get"
  | .arrayPeek => "fai_array_peek"
  | .dataPeek => "fai_data_peek"
  | .listReversePrefix => "fai_list_reverse_prefix"
  | .arraySet => "fai_array_set"
  | .arrayUnique => "fai_array_unique"
  | .arrayTake => "fai_array_take"
  | .arrayPut => "fai_array_put"
  | .arrayPush | .arrayPushReserved => "fai_array_push"
  | .arraySplit => "fai_array_split"
  | .arrayJoin => "fai_array_join"
  | .bytesLength => "fai_bytes_length"
  | .bytesGet => "fai_bytes_get"
  | .bytesFind => "fai_bytes_find"
  | .bytesFindUtf8 => "fai_bytes_find_utf8"
  | .bytesSpan => "fai_bytes_span"
  | .bytesConcat => "fai_bytes_concat"
  | .bytesConcatMany => "fai_bytes_concat_many"
  | .cryptoSha256 => "fai_crypto_sha256"
  | .cryptoHmacSha256 => "fai_crypto_hmac_sha256"
  | .cryptoPbkdf2Sha256 => "fai_crypto_pbkdf2_sha256"
  | .cryptoEqual => "fai_crypto_equal"
  | .cryptoScramPassword => "fai_crypto_scram_password"
  | .textGraphemes => "fai_text_graphemes"
  | .textWidth => "fai_text_width"
  | .pathOperation => "fai_path_operation"
  | .pathComponents => "fai_path_components"
  | .regexCompile => "fai_regex_compile"
  | .regexFindText => "fai_regex_find_text"
  | .regexFindBytes => "fai_regex_find_bytes"
  | .regexTestText => "fai_regex_test_text"
  | .regexTestBytes => "fai_regex_test_bytes"
  | .regexNames => "fai_regex_names"
  | .regexByteIndex => "fai_regex_byte_index"
  | .regexSlice => "fai_regex_slice"
  | .regexEscape => "fai_regex_escape"
  | .compressionCreate => "fai_compression_create"
  | .compressionStep => "fai_compression_step"
  | .textPairsFromList => "fai_text_pairs_from_list"
  | .textPairsFromRanges => "fai_text_pairs_from_ranges"
  | .textPairsToList => "fai_text_pairs_to_list"
  | .textPairsGet => "fai_text_pairs_get"
  | .textPairsGetAll => "fai_text_pairs_get_all"
  | .textPairsIsEmpty => "fai_text_pairs_is_empty"
  | .textPairsRenderList => "fai_text_pairs_render_list"
  | .textPairsRenderRows => "fai_text_pairs_render_rows"
  | .bytesSlice => "fai_bytes_slice"
  | .bytesFromList => "fai_bytes_from_list"
  | .bytesToList => "fai_bytes_to_list"
  | .bytesFromString => "fai_bytes_from_string"
  | .bytesToString => "fai_bytes_to_string"
  | .bytesIsUtf8 => "fai_bytes_is_utf8"

/-- `prim_tag`. -/
def primTag : Prim → String
  | .arrayPushReserved => "fai_array_push_reserved"
  | op => runtimeSymbol op

/-- The characters of backend symbols. -/
def symbolChar (c : Char) : Bool := c.isLower || c.isDigit || c == '_'

/-- What a definition is fingerprinted with: the symbol table of the process and the metadata of
definitions. Backend symbols are mangled to lower-case letters, digits and underscores. -/
structure Session where
  /-- The symbol table. -/
  interner : Interner
  /-- The backend symbol of a definition. -/
  namer : DefId → Text
  /-- The parameter count of a definition. -/
  arityOf : DefId → Nat
  /-- The calling convention of a definition. -/
  abiOf : DefId → FnAbi
  /-- Backend symbols are mangled. -/
  namer_mangled : ∀ d, ∀ c ∈ namer d, symbolChar c = true

/-! ## Parts of nodes -/

/-- A slot. -/
def localText (slot : LocalId) : Text := str "%" ++ decimal slot

/-- Slots with commas between them, in brackets. -/
def localsText (slots : List LocalId) : Text :=
  str "[" ++ (joined (str ",") (slots.map localText) ++ [']'])

/-- A flag as `{:?}` writes it. -/
def boolText : Bool → Text
  | true => str "true"
  | false => str "false"

/-- A list as `{:?}` writes it. -/
def debugList (items : List Text) : Text := str "[" ++ (joined (str ", ") items ++ [']'])

/-- A signed number. -/
def intText (value : Int) : Text :=
  if value < 0 then '-' :: decimal value.natAbs else decimal value.natAbs

/-- A literal. -/
def litText : Lit → Text
  | .int n => 'i' :: intText n.toInt
  | .float bits => 'f' :: decimal bits.toNat
  | .char c => 'c' :: decimal c.toNat
  | .bool b => 'b' :: boolText b
  | .str bytes => 's' :: debugList (bytes.map fun byte => decimal byte.toNat)
  | .unit => ['u']

mutual

/-- The representation of a parameter or a result in `abi_tag`. -/
def reprText : NativeRepr → Text
  | .uniform => ['u']
  | .scalarFloat => ['f']
  | .scalarInt => ['i']
  | .niche .a => ['a']
  | .niche .b => ['b']
  | .spread components => str "S" ++ (reprsText components ++ str ">")
  | .taggedResult first second =>
    str "R" ++ (decimal first ++ (str "," ++ (decimal second ++ str ">")))

/-- Representations in order. -/
def reprsText : List NativeRepr → Text
  | [] => []
  | head :: rest => reprText head ++ reprsText rest

end

/-- `abi_tag`. -/
def abiTag (abi : FnAbi) : Text :=
  str "p[" ++ (reprsText abi.params ++ (str "]r" ++ reprText abi.ret))

/-- `niche_tag`. -/
def nicheTag : Option NicheKind → Text
  | none => []
  | some .a => str "/na"
  | some .b => str "/nb"

/-- A forwarded reuse token. -/
def tokenText : Option LocalId → Text
  | some token => localText token
  | none => ['_']

/-- The forwarded reuse tokens of a call. -/
def tokensText (reuse : List (Option LocalId)) : Text :=
  if reuse.isEmpty then [] else str " @[" ++ (joined (str ",") (reuse.map tokenText) ++ [']'])

/-- The word of a closure. -/
def allocWord : ClosureAlloc → String
  | .static => "clos"
  | .stack => "clok"
  | .heap => "cloh"

/-- The mark of a stack-allocated partial application. -/
def stackText : ClosureAlloc → Text
  | .stack => str "stack "
  | .static | .heap => []

/-- The token of a construction. -/
def reuseText : Option LocalId → Text
  | some token => str "@" ++ localText token
  | none => []

/-- The word of a projection. -/
def fieldWord (scalar : Bool) : String := if scalar then "fieldf" else "field"

/-- The slot of a projection. -/
def fieldIndexText : FieldIndex → Text
  | .const n => decimal n
  | .dyn base evidence => decimal base ++ (str "+" ++ localText evidence)

/-- The word of a foreign call. -/
def foreignWord (marshalled : Bool) : String := if marshalled then "fgnm" else "fgnr"

/-- A part of a node after a blank. -/
def blank (text : Text) : Text := ' ' :: text

/-- A node in parentheses: its word and its parts. -/
def node (word : String) (text : Text) : Text := '(' :: (str word ++ (text ++ [')']))

section Write

variable (session : Session)

/-- The reference to a definition. -/
def globalText (d : DefId) : Text :=
  str "@" ++ (session.namer d ++ (str "/" ++ decimal (session.arityOf d) ++
    ((if (session.abiOf d).registerAbi then str "/reg" else []) ++
      if (session.abiOf d).isUniform then [] else str "/" ++ abiTag (session.abiOf d))))

/-- The type at the end of every node. -/
def typed (ty : Ty) : Text := ':' :: renderCanonical session.interner ty

mutual

/-- `write_expr`. -/
def writeExpr : CExpr → Text
  | .lit value ty => litText value ++ typed session ty
  | .loc slot ty => localText slot ++ typed session ty
  | .global d ty => globalText session d ++ typed session ty
  | .prim op args ty =>
    node "p" (str ":" ++ str (primTag op) ++ writeArgs args) ++ typed session ty
  | .foreign symbol args marshalled ty =>
    node (foreignWord marshalled) (str ":" ++ nameText session.interner symbol ++ writeArgs args) ++
      typed session ty
  | .app func args reuse alloc ty =>
    node "app" (blank (stackText alloc) ++ (writeExpr func ++ (writeArgs args ++
      tokensText reuse))) ++ typed session ty
  | .ite cond yes no ty =>
    node "if" (blank (writeExpr cond) ++ (blank (writeExpr yes) ++ blank (writeExpr no))) ++
      typed session ty
  | .letIn slot value body ty =>
    node "let" (blank (localText slot) ++ (blank (writeExpr value) ++ blank (writeExpr body))) ++
      typed session ty
  | .makeClosure func captures alloc ty =>
    node (allocWord alloc) (blank (str "fn" ++ decimal func) ++ blank (localsText captures)) ++
      typed session ty
  | .makeData tag args reuse scalars niche ty =>
    node "data" (reuseText reuse ++ (blank (decimal tag) ++ (str "/s" ++ decimal scalars ++
      (nicheTag niche ++ writeArgs args)))) ++ typed session ty
  | .dataTag base niche ty =>
    node "tag" (nicheTag niche ++ blank (writeExpr base)) ++ typed session ty
  | .dataField base index scalar niche ty =>
    node (fieldWord scalar) (nicheTag niche ++ (blank (fieldIndexText index) ++
      blank (writeExpr base))) ++ typed session ty
  | .spread components ty => node "spread" (writeArgs components) ++ typed session ty
  | .letMany slots value body ty =>
    node "letmany" (blank (localsText slots) ++ (blank (writeExpr value) ++
      blank (writeExpr body))) ++ typed session ty
  | .reset value token body ty =>
    node "reset" (blank (localText token) ++ (blank (writeExpr value) ++
      blank (writeExpr body))) ++ typed session ty
  | .freeReuse token body ty =>
    node "free-reuse" (blank (localText token) ++ blank (writeExpr body)) ++ typed session ty
  | .dup slot body ty =>
    node "dup" (blank (localText slot) ++ blank (writeExpr body)) ++ typed session ty
  | .drop slot body ty =>
    node "drop" (blank (localText slot) ++ blank (writeExpr body)) ++ typed session ty
  | .join params body ty =>
    node "join" (blank (localsText params) ++ blank (writeExpr body)) ++ typed session ty
  | .recur args ty => node "recur" (writeArgs args) ++ typed session ty
  | .holeStart hole body ty =>
    node "holestart" (blank (localText hole) ++ blank (writeExpr body)) ++ typed session ty
  | .holeFill hole cell field ty =>
    node "holefill" (blank (localText hole) ++ (blank (decimal field) ++
      blank (writeExpr cell))) ++ typed session ty
  | .holeClose hole base ty =>
    node "holeclose" (blank (localText hole) ++ blank (writeExpr base)) ++ typed session ty
  | .error ty => str "<err>" ++ typed session ty

/-- Operands, each after a blank. -/
def writeArgs : List CExpr → Text
  | [] => []
  | head :: rest => blank (writeExpr head) ++ writeArgs rest

end

/-! ## Definitions -/

/-- `borrows_any`. -/
def borrowsAny (d : EmitDef) : Bool := d.entryBorrowed.any id

/-- A slot as `{:?}` writes it. -/
def debugLocal (slot : LocalId) : Text := str "LocalId(" ++ (decimal slot ++ str ")")

/-- An optional value as `{:?}` writes it. -/
def debugOption {α : Type} (debug : α → Text) : Option α → Text
  | some value => str "Some(" ++ (debug value ++ str ")")
  | none => str "None"

/-- The component slots of a spread parameter as `{:?}` writes them. -/
def debugSpread (slots : Option (List LocalId)) : Text :=
  debugOption (fun slots => debugList (slots.map debugLocal)) slots

/-- A shape bound as `{:?}` writes it. -/
def debugShape (shape : DataShape) : Text :=
  str "DataShape \x7b max_tag: " ++ decimal shape.maxTag ++
    (str ", max_fields: " ++ decimal shape.maxFields ++
      (str ", scalars: " ++ decimal shape.scalars ++
        (str ", resource_free: " ++ boolText shape.resourceFree ++
          (str ", boxed_tag: " ++ debugOption decimal shape.boxedTag ++
            (str ", immediate_tag: " ++ debugOption decimal shape.immediateTag ++
              (str ", always_boxed: " ++ (boolText shape.alwaysBoxed ++ str " \x7d")))))))

/-- The shape bound of a local as `{:?}` writes it. -/
def debugEntry (entry : LocalId × DataShape) : Text :=
  str "(" ++ (debugLocal entry.1 ++ (str ", " ++ (debugShape entry.2 ++ str ")")))

/-- A line that is written under a condition. -/
def lineIf (written : Bool) (text : Text) : Text := if written then text ++ str "\n" else []

/-- The shape bounds of the function at a position. -/
def shapesAt (d : EmitDef) (index : Nat) : List (LocalId × DataShape) := d.dataShapes.getD index []

/-- The line of the function at a position. -/
def fnText (index : Nat) (fn : CoreFn) : Text :=
  str "fn" ++ decimal index ++ (str "(" ++ (joined (str ",") (fn.params.map localText) ++ [')']) ++
    (localsText fn.captures ++ (str " = " ++ (writeExpr session fn.body ++ str "\n"))))

/-- The lines of the function at a position, its shape bounds first. -/
def fnLines (d : EmitDef) (index : Nat) (fn : CoreFn) : Text :=
  lineIf (!(shapesAt d index).isEmpty)
      (str "data-shapes " ++ debugList ((shapesAt d index).map debugEntry)) ++
    fnText session index fn

/-- `fingerprint_def`. -/
def fingerprintDef (d : EmitDef) : Text :=
  str "def " ++ session.namer d.id ++ (str "/" ++ (decimal (session.arityOf d.id) ++ str "\n") ++
    (lineIf (borrowsAny d) (str "borrow " ++ debugList (d.entryBorrowed.map boolText)) ++
      (lineIf d.reuseEntry.isSome (str "export-lambdas") ++
        (lineIf (d.entrySpreadParams.any Option.isSome)
            (str "spread-params " ++ debugList (d.entrySpreadParams.map debugSpread)) ++
          (lineIf (session.abiOf d.id).registerAbi (str "regabi") ++
            (lineIf (!(session.abiOf d.id).isUniform)
                (str "abi " ++ abiTag (session.abiOf d.id)) ++
              (d.fns.mapIdx (fnLines session d)).flatten))))))

end Write

end Wire

end Fai
