import FaiVerif.Wire.Convert
import FaiVerif.Wire.Fingerprint
import FaiVerif.Wire.ReadTy

/-!
# Reading a fingerprint back

The text of an expression determines its wire form, with definitions referred to by what the text
says of them, once type names are told apart. So it does for the functions and the side tables of
a definition.
-/

namespace Fai

namespace Wire

namespace Fingerprint

open Reading

/-- What the fingerprint says of a definition: its backend symbol, arity and calling convention, a
uniform convention without its parameter count. -/
structure CalleeKey where
  /-- The backend symbol. -/
  symbol : Text
  /-- The parameter count. -/
  arity : Nat
  /-- Whether arguments are taken in registers. -/
  registerAbi : Bool
  /-- The representations of a convention that is not uniform. -/
  shape : Option (List NativeRepr × NativeRepr)

/-- The representations of a convention that is not uniform. -/
def abiShape (abi : FnAbi) : Option (List NativeRepr × NativeRepr) :=
  if abi.isUniform then none else some (abi.params, abi.ret)

/-- What the fingerprint says of a definition in a session. -/
def calleeKey (session : Session) (d : DefId) : CalleeKey :=
  ⟨session.namer d, session.arityOf d, (session.abiOf d).registerAbi, abiShape (session.abiOf d)⟩

/-! ## Primitives -/

/-- The primitives, in the order of the source. -/
def allPrims : List Prim := [
  .intAdd, .intBox, .intSub, .intMul, .intDiv, .intRem, .intAnd, .intOr, .intXor, .intShl,
  .intShr, .intShrLogical, .intComplement, .intLt, .intLe, .intGt, .intGe, .floatAdd,
  .floatSub, .floatNeg, .floatMul, .floatDiv, .floatLt, .floatLe, .floatGt, .floatGe,
  .compare, .hash, .eq, .strConcat, .intToString, .floatToString, .intToFloat, .floatToInt,
  .sqrt, .floatFromBits, .floatToBits, .charToString, .charToCode, .charFromCode,
  .isValidCharCode, .stringLength, .toUpper, .toLower, .trim, .stringContains, .stringFind,
  .stringSplit, .stringJoin, .stringSubstring, .stringTake, .stringDrop, .not, .recordUpdate,
  .arrayWithCapacity, .arrayRepeat, .arrayLength, .arrayGet, .arrayPeek, .dataPeek,
  .listReversePrefix, .arraySet, .arrayUnique, .arrayTake, .arrayPut, .arrayPush,
  .arrayPushReserved, .arraySplit, .arrayJoin, .bytesLength, .bytesGet, .bytesFind,
  .bytesFindUtf8, .bytesConcat, .bytesConcatMany, .bytesSlice, .bytesFromList, .bytesToList,
  .bytesFromString, .bytesToString, .bytesIsUtf8, .cryptoSha256, .cryptoHmacSha256,
  .cryptoPbkdf2Sha256, .cryptoEqual, .cryptoScramPassword, .textGraphemes, .textWidth,
  .pathOperation, .pathComponents, .regexCompile, .regexFindText, .regexFindBytes,
  .regexTestText, .regexTestBytes, .regexNames, .regexByteIndex, .regexSlice, .regexEscape,
  .compressionCreate, .compressionStep, .textPairsFromList, .textPairsFromRanges,
  .textPairsToList, .textPairsGet, .textPairsGetAll, .textPairsIsEmpty, .bytesSpan,
  .textPairsRenderList, .textPairsRenderRows]

/-- Every primitive is listed. -/
theorem mem_allPrims (op : Prim) : op ∈ allPrims := by
  have found : allPrims[op.ctorIdx]? = some op := by cases op <;> rfl
  exact List.mem_of_getElem? found

/-- The bytes of a name as one number. -/
def nameNumber (name : String) : Nat :=
  name.toByteArray.data.toList.foldl (fun number byte => number * 256 + byte.toNat) 0

/-- Whether no number is listed twice. -/
def distinct : List Nat → Bool
  | [] => true
  | n :: rest => rest.all (fun m => !Nat.beq n m) && distinct rest

/-- Numbers found distinct are listed once. -/
theorem nodup_of_distinct {numbers : List Nat} (apart : distinct numbers = true) :
    numbers.Nodup := by
  induction numbers with
  | nil => exact List.nodup_nil
  | cons n rest hypothesis =>
    rw [distinct, Bool.and_eq_true, List.all_eq_true] at apart
    refine List.nodup_cons.mpr ⟨fun member => ?_, hypothesis apart.2⟩
    have differs := apart.1 n member
    simp at differs

/-- No two primitives have the same tag. -/
theorem primTag_injective : Function.Injective primTag := by
  have apart : (allPrims.map fun op => nameNumber (primTag op)).Nodup := by
    apply nodup_of_distinct
    decide +kernel
  intro op op' same
  exact List.inj_on_of_nodup_map apart (mem_allPrims op) (mem_allPrims op') (by rw [same])

/-- The characters of foreign symbols and of tags: no blank and no closing parenthesis. -/
def plainChar (c : Char) : Bool := c != ' ' && c != ')'

/-- The bytes of a character of a name are bytes of the name. -/
theorem mem_bytes {name : String} {c : Char} {byte : UInt8} (member : c ∈ name.toList)
    (encoded : byte ∈ String.utf8EncodeChar c) : byte ∈ name.toByteArray.data.toList := by
  rw [← String.utf8Encode_toList, List.utf8Encode, List.data_toByteArray]
  exact List.mem_flatMap.mpr ⟨c, member, encoded⟩

/-- Tags have no blank and no closing parenthesis. -/
theorem primTag_plain (op : Prim) : ∀ c ∈ str (primTag op), plainChar c = true := by
  have plain : allPrims.all (fun op => (primTag op).toByteArray.data.toList.all fun byte =>
      !(Nat.beq byte.toNat 32 || Nat.beq byte.toNat 41)) = true := by decide +kernel
  have apart : ∀ byte ∈ (primTag op).toByteArray.data.toList, byte ≠ 32 ∧ byte ≠ 41 := by
    intro byte member
    have free := List.all_eq_true.mp (List.all_eq_true.mp plain op (mem_allPrims op)) byte member
    constructor <;>
    · rintro rfl
      cases free
  intro c member
  by_contra delimiter
  have either : c = ' ' ∨ c = ')' := by
    simpa [plainChar, or_iff_not_imp_left] using delimiter
  rcases either with rfl | rfl
  · exact (apart 32 (mem_bytes member (by decide))).1 rfl
  · exact (apart 41 (mem_bytes member (by decide))).2 rfl

/-- The primitive of a tag. -/
def primOf (tag : Text) : Option Prim := allPrims.find? fun op => str (primTag op) == tag

/-- A tag determines its primitive. -/
theorem primOf_primTag (op : Prim) : primOf (str (primTag op)) = some op := by
  cases found : primOf (str (primTag op)) with
  | none =>
    have missed := List.find?_eq_none.mp found op (mem_allPrims op)
    exact absurd (beq_self_eq_true _) missed
  | some op' =>
    have same := List.find?_some found
    rw [beq_iff_eq] at same
    rw [primTag_injective (String.toList_inj.mp same)]

/-! ## Parts of nodes -/

/-- Read a slot. -/
def readLocal : Reader Nat := number.lead (str "%")

/-- Read slots in brackets. -/
def readLocals : Reader (List Nat) := (readJoined (str ",") ']' readLocal).lead (str "[")

/-- Read a list as `{:?}` writes it. -/
def readList {α : Type} (item : Reader α) : Reader (List α) :=
  (readJoined (str ", ") ']' item).lead (str "[")

/-- Read a flag. -/
def readBool : Reader Bool := fun text =>
  match literal (str "true") text with
  | some text => some (true, text)
  | none => (literal (str "false") text).map fun text => (false, text)

/-- Read a signed number. -/
def readInt : Reader Int :=
  ((Reader.nothing.optional (str "-")).pair number).map fun (sign, value) =>
    if sign.isSome then -(value : Int) else value

section Parts

/-- A slot is read. -/
theorem reads_local (slot : LocalId) :
    Recovers readLocal (localText slot) slot (Stops Char.isDigit) :=
  (reads_number slot).lead (str "%")

/-- Slots in brackets are read. -/
theorem reads_locals (slots : List LocalId) :
    Recovers readLocals (localsText slots) slots fun _ => True := by
  have items : Recovers (readJoined (str ",") ']' readLocal)
      (joined (str ",") (slots.map localText) ++ [']']) (slots.map id) fun _ => True :=
    reads_joined (fun slot _ => reads_local slot) (fun rest => (stops_cons _ _ _).mpr rfl)
      (fun rest => (stops_cons _ _ _).mpr rfl) (fun rest => rfl) (by decide)
      fun slot _ => ⟨'%', _, rfl, by decide⟩
  rw [List.map_id] at items
  exact items.lead (str "[")

/-- A list is read when its items are. -/
theorem reads_list {α β : Type} {item : Reader α} {print : β → Text} {value : β → α}
    {follow : Text → Prop} {vs : List β}
    (each : ∀ v ∈ vs, Recovers item (print v) (value v) follow)
    (next : ∀ rest, follow (str ", " ++ rest)) (last : ∀ rest, follow (']' :: rest))
    (opens : ∀ v ∈ vs, ∃ c text, print v = c :: text ∧ c ≠ ']') :
    Recovers (readList item) (debugList (vs.map print)) (vs.map value) fun _ => True :=
  (reads_joined each next last (fun rest => rfl) (by decide) opens).lead (str "[")

/-- A flag is read. -/
theorem reads_bool (b : Bool) : Recovers readBool (boolText b) b fun _ => True := by
  intro rest _
  cases b <;> simp [readBool, boolText, str]

/-- A number begins with no sign. -/
theorem literal_minus_decimal (n : Nat) (rest : Text) :
    literal (str "-") (decimal n ++ rest) = none := by
  cases digits : decimal n with
  | nil => exact absurd digits (decimal_ne_nil n)
  | cons c more =>
    have digit : c.isDigit = true := isDigit_of_mem_decimal (n := n) (by simp [digits])
    have apart : '-' ≠ c := by
      rintro rfl
      cases digit
    simp [str, apart]

/-- A signed number is read. -/
theorem reads_int (value : Int) : Recovers readInt (intText value) value (Stops Char.isDigit) := by
  by_cases negative : value < 0
  · have read := ((reads_nothing.present (str "-")).pair (reads_number value.natAbs)
      fun _ _ => trivial).map fun (sign, value) =>
        if sign.isSome then -(value : Int) else value
    have back : -(value.natAbs : Int) = value := by omega
    simp only [Option.isSome_some, if_true, back, List.append_nil] at read
    rw [intText, if_pos negative]
    exact read
  · have read := ((reads_absent (str "-") Reader.nothing).pair (reads_number value.natAbs)
      fun rest _ => literal_minus_decimal _ rest).map fun (sign, value) =>
        if sign.isSome then -(value : Int) else value
    have back : (value.natAbs : Int) = value := by omega
    simp only [Option.isSome_none, Bool.false_eq_true, if_false, back, List.nil_append] at read
    rw [intText, if_neg negative]
    exact read

end Parts

/-! ## Calling conventions -/

/-- Read a representation by its first character. -/
def readRepr : Nat → Reader NativeRepr
  | 0, _ | _, [] => none
  | fuel + 1, c :: text =>
    if c = 'u' then some (.uniform, text)
    else if c = 'f' then some (.scalarFloat, text)
    else if c = 'i' then some (.scalarInt, text)
    else if c = 'a' then some (.niche .a, text)
    else if c = 'b' then some (.niche .b, text)
    else if c = 'S' then
      (((repeated (fun text => (literal (str ">") text).isNone) (readRepr fuel)).trail
        (str ">")).map .spread) text
    else (((number.trail (str ",")).pair (number.trail (str ">"))).map fun (first, second) =>
      .taggedResult first second) text

/-- Read the representations of a convention. -/
def readAbi (fuel : Nat) : Reader (List NativeRepr × NativeRepr) :=
  (((repeated (fun text => (literal (str "]") text).isNone) (readRepr fuel)).trail
    (str "]r")).pair (readRepr fuel)).lead (str "p[")

section Conventions

/-- Representations in order are written one after the other. -/
theorem reprsText_eq (reprs : List NativeRepr) : reprsText reprs = reprs.flatMap reprText := by
  induction reprs with
  | nil => rw [reprsText, List.flatMap_nil]
  | cons head rest inductionHypothesis =>
    rw [reprsText, inductionHypothesis, List.flatMap_cons]

/-- A representation begins with a letter. -/
theorem reprText_opens (repr : NativeRepr) :
    ∃ c text, reprText repr = c :: text ∧ c ≠ '>' ∧ c ≠ ']' := by
  cases repr with
  | uniform => exact ⟨'u', [], by rw [reprText], by decide, by decide⟩
  | scalarFloat => exact ⟨'f', [], by rw [reprText], by decide, by decide⟩
  | scalarInt => exact ⟨'i', [], by rw [reprText], by decide, by decide⟩
  | niche kind =>
    cases kind
    · exact ⟨'a', [], by rw [reprText], by decide, by decide⟩
    · exact ⟨'b', [], by rw [reprText], by decide, by decide⟩
  | spread components => exact ⟨'S', _, by rw [reprText]; rfl, by decide, by decide⟩
  | taggedResult first second => exact ⟨'R', _, by rw [reprText]; rfl, by decide, by decide⟩

/-- Representations up to a closing character are read when each is. -/
theorem reads_reprs {read : Reader NativeRepr} {close : Char} {reprs : List NativeRepr}
    (each : ∀ repr ∈ reprs, Recovers read (reprText repr) repr fun _ => True)
    (apart : ∀ repr : NativeRepr, ∃ c text, reprText repr = c :: text ∧ c ≠ close) :
    Recovers (repeated (fun text => (literal [close] text).isNone) read) (reprsText reprs) reprs
      fun rest => ∃ rest', rest = close :: rest' := by
  have items : Recovers (repeated (fun text => (literal [close] text).isNone) read)
      (reprs.flatMap reprText) (reprs.map id) fun rest => ∃ rest', rest = close :: rest' := by
    refine reads_repeated each ?_ (fun _ _ _ => trivial) (fun _ _ => trivial) ?_ ?_
    · intro repr _ rest
      obtain ⟨c, text, printed, differs⟩ := apart repr
      rw [printed, List.cons_append, literal_cons, if_neg fun same => differs same.symm]
      rfl
    · rintro _ ⟨rest, rfl⟩
      rw [literal_cons, if_pos rfl, literal_nil]
      rfl
    · intro repr _ nothing
      obtain ⟨c, text, printed, _⟩ := apart repr
      rw [nothing] at printed
      cases printed
  rw [List.map_id] at items
  rwa [reprsText_eq]

/-- A representation is read. -/
theorem reads_repr : ∀ (fuel : Nat) (repr : NativeRepr), sizeOf repr ≤ fuel →
    Recovers (readRepr fuel) (reprText repr) repr fun _ => True
  | 0, repr, small => by cases repr <;> simp at small
  | fuel + 1, .uniform, _ => fun rest _ => by rw [reprText]; rfl
  | fuel + 1, .scalarFloat, _ => fun rest _ => by rw [reprText]; rfl
  | fuel + 1, .scalarInt, _ => fun rest _ => by rw [reprText]; rfl
  | fuel + 1, .niche .a, _ => fun rest _ => by rw [reprText]; rfl
  | fuel + 1, .niche .b, _ => fun rest _ => by rw [reprText]; rfl
  | fuel + 1, .spread components, small => by
    have inside : ∀ component ∈ components, sizeOf component ≤ fuel := by
      intro component member
      have smaller := List.sizeOf_lt_of_mem member
      rw [NativeRepr.spread.sizeOf_spec] at small
      omega
    have items := reads_reprs (fun component member => reads_repr fuel component
      (inside component member)) fun repr => by
        obtain ⟨c, text, printed, differs, _⟩ := reprText_opens repr
        exact ⟨c, text, printed, differs⟩
    have whole := (items.trail (str ">") fun rest => ⟨rest, rfl⟩).map NativeRepr.spread
    intro rest _
    rw [reprText]
    exact whole rest trivial
  | fuel + 1, .taggedResult first second, _ => by
    have whole := (((reads_number first).trail (str ",")
        fun rest => (stops_cons _ _ _).mpr rfl).pair
      ((reads_number second).trail (str ">") fun rest => (stops_cons _ _ _).mpr rfl)
      fun _ _ => trivial).map fun (first, second) => NativeRepr.taggedResult first second
    intro rest _
    have shape : reprText (.taggedResult first second) ++ rest =
        'R' :: (decimal first ++ str "," ++ (decimal second ++ str ">") ++ rest) := by
      rw [reprText]
      simp [str]
    rw [shape]
    exact whole rest trivial

/-- The fuel that reads a convention. -/
noncomputable def abiSize (abi : FnAbi) : Nat := sizeOf abi.params + sizeOf abi.ret

/-- A convention is read. -/
theorem reads_abi {fuel : Nat} {abi : FnAbi} (small : abiSize abi ≤ fuel) :
    Recovers (readAbi fuel) (abiTag abi) (abi.params, abi.ret) fun _ => True := by
  unfold abiSize at small
  have inside : ∀ repr ∈ abi.params, sizeOf repr ≤ fuel := by
    intro repr member
    have smaller := List.sizeOf_lt_of_mem member
    omega
  have params := reads_reprs (fun repr member => reads_repr fuel repr (inside repr member))
    fun repr => by
      obtain ⟨c, text, printed, _, differs⟩ := reprText_opens repr
      exact ⟨c, text, printed, differs⟩
  have whole := ((params.trail (str "]r") fun rest => ⟨_, rfl⟩).pair
    (reads_repr fuel abi.ret (by omega)) fun _ _ => trivial).lead (str "p[")
  rw [List.append_assoc] at whole
  exact whole

end Conventions

/-- Read the reference to a definition. -/
def readCallee (fuel : Nat) : Reader CalleeKey :=
  ((token symbolChar).pair ((number.lead (str "/")).pair
    ((Reader.nothing.optional (str "/reg")).pair ((readAbi fuel).optional (str "/"))))).map
      fun (symbol, arity, register, shape) => ⟨symbol, arity, register.isSome, shape⟩

/-- The reference to a definition is read. -/
theorem reads_callee (session : Session) {d : DefId} {fuel : Nat}
    (small : abiSize (session.abiOf d) ≤ fuel) :
    Recovers ((readCallee fuel).lead (str "@")) (globalText session d) (calleeKey session d)
      fun rest => ∃ rest', rest = ':' :: rest' := by
  have shape : Recovers ((readAbi fuel).optional (str "/"))
      (if (session.abiOf d).isUniform then [] else str "/" ++ abiTag (session.abiOf d))
      (abiShape (session.abiOf d)) fun rest => ∃ rest', rest = ':' :: rest' := by
    by_cases uniform : (session.abiOf d).isUniform = true
    · rw [abiShape, if_pos uniform, if_pos uniform]
      refine (reads_absent (str "/") (readAbi fuel)).mono ?_
      rintro _ ⟨rest, rfl⟩
      rfl
    · rw [abiShape, if_neg uniform, if_neg uniform]
      exact ((reads_abi small).present (str "/")).mono fun _ _ => trivial
  have register : Recovers (Reader.nothing.optional (str "/reg"))
      (if (session.abiOf d).registerAbi then str "/reg" else [])
      (if (session.abiOf d).registerAbi then some () else none)
      fun rest => literal (str "/reg") rest = none := by
    by_cases inRegisters : (session.abiOf d).registerAbi = true
    · rw [if_pos inRegisters, if_pos inRegisters]
      exact (reads_nothing.present (str "/reg")).mono fun _ _ => trivial
    · rw [if_neg inRegisters, if_neg inRegisters]
      exact reads_absent (str "/reg") Reader.nothing
  have convention := register.pair shape fun rest last => by
    obtain ⟨rest, rfl⟩ := last
    by_cases uniform : (session.abiOf d).isUniform = true
    · rw [if_pos uniform]
      rfl
    · rw [if_neg uniform]
      rfl
  have arity := ((reads_number (session.arityOf d)).lead (str "/")).pair convention
    fun rest last => by
      obtain ⟨rest, rfl⟩ := last
      by_cases inRegisters : (session.abiOf d).registerAbi = true
      · rw [if_pos inRegisters]
        exact (stops_cons _ _ _).mpr rfl
      · by_cases uniform : (session.abiOf d).isUniform = true
        · rw [if_neg inRegisters, if_pos uniform]
          exact (stops_cons _ _ _).mpr rfl
        · rw [if_neg inRegisters, if_neg uniform]
          exact (stops_cons _ _ _).mpr rfl
  have symbol := (reads_token (session.namer_mangled d)).pair arity fun rest _ =>
    (stops_cons _ _ _).mpr rfl
  have whole := (symbol.map fun (symbol, arity, register, shape) =>
    (⟨symbol, arity, register.isSome, shape⟩ : CalleeKey)).lead (str "@")
  have flag : (if (session.abiOf d).registerAbi then some () else none).isSome =
      (session.abiOf d).registerAbi := by
    cases (session.abiOf d).registerAbi <;> rfl
  simp only [flag] at whole
  exact whole

/-! ## Nodes -/

/-- An expression without its type. -/
abbrev Node := WireTy → WireExpr CalleeKey

/-- Read the letter of a niche scheme. -/
def readNicheKind : Reader NicheKind
  | [] => none
  | c :: text => some (if c = 'a' then .a else .b, text)

/-- Read a niche scheme. -/
def readNiche : Reader (Option NicheKind) := readNicheKind.optional (str "/n")

/-- Read the slot of a projection. -/
def readFieldIndex : Reader WireFieldIndex :=
  (number.pair (readLocal.optional (str "+"))).map fun (base, evidence) =>
    evidence.elim (.const base) (.dyn base)

/-- Read a forwarded reuse token. -/
def readToken : Reader (Option Nat) := fun text =>
  match literal (str "_") text with
  | some text => some (none, text)
  | none => readLocal.map some text

/-- Read the forwarded reuse tokens of a call. -/
def readTokens : Reader (List (Option Nat)) :=
  ((readJoined (str ",") ']' readToken).optional (str " @[")).map (·.getD [])

/-- Whether an operand begins; a call's tokens are none. -/
def startsOperand (text : Text) : Bool :=
  (literal (str " ") text).isSome && (literal (str " @[") text).isNone

/-- The characters of words. -/
def wordChar (c : Char) : Bool := c.isLower || c == '-'

section Readers

variable (inner : Reader (WireExpr CalleeKey))

/-- Read operands. -/
def readArgs : Reader (List (WireExpr CalleeKey)) :=
  repeated startsOperand (inner.lead (str " "))

/-- Read an operand after a blank. -/
def operand : Reader (WireExpr CalleeKey) := inner.lead (str " ")

/-- Read a slot and a body. -/
def readSlotBody (make : Nat → WireExpr CalleeKey → Node) : Reader Node :=
  ((readLocal.lead (str " ")).pair (operand inner)).map fun (slot, body) => make slot body

/-- Read a slot, a value and a body. -/
def readSlotValue (make : Nat → WireExpr CalleeKey → WireExpr CalleeKey → Node) : Reader Node :=
  ((readLocal.lead (str " ")).pair ((operand inner).pair (operand inner))).map
    fun (slot, value, body) => make slot value body

/-- Read a closure. -/
def readClosure (alloc : WireClosureAlloc) : Reader Node :=
  (((number.lead (str "fn")).lead (str " ")).pair (readLocals.lead (str " "))).map
    fun (func, captures) => .makeClosure func captures alloc

/-- Read a projection. -/
def readProjection (scalar : Bool) : Reader Node :=
  (readNiche.pair ((readFieldIndex.lead (str " ")).pair (operand inner))).map
    fun (niche, index, base) => .dataField base index scalar niche

/-- Read a foreign call. -/
def readForeign (marshalled : Bool) : Reader Node :=
  (((token plainChar).lead (str ":")).pair (readArgs inner)).map fun (symbol, args) =>
    .foreign (String.ofList symbol) args marshalled

/-- How the parts after each word are read. -/
def words : List (Text × Reader Node) :=
  [(str "p", (((token plainChar).lead (str ":")).pair (readArgs inner)).map fun (tag, args) =>
      .prim ((primOf tag).getD .intAdd) args),
    (str "fgnm", readForeign inner true),
    (str "fgnr", readForeign inner false),
    (str "app", (((Reader.nothing.optional (str "stack ")).lead (str " ")).pair
      (inner.pair ((readArgs inner).pair readTokens))).map fun (stack, func, args, reuse) =>
        .app func args reuse (if stack.isSome then .stack else .heap)),
    (str "if", ((operand inner).pair ((operand inner).pair (operand inner))).map
      fun (cond, yes, no) => .ite cond yes no),
    (str "let", readSlotValue inner .letIn),
    (str "clos", readClosure .static),
    (str "clok", readClosure .stack),
    (str "cloh", readClosure .heap),
    (str "data", ((readLocal.optional (str "@")).pair ((number.lead (str " ")).pair
      ((number.lead (str "/s")).pair (readNiche.pair (readArgs inner))))).map
        fun (reuse, tag, scalars, niche, args) => .makeData tag args reuse scalars niche),
    (str "tag", (readNiche.pair (operand inner)).map fun (niche, base) => .dataTag base niche),
    (str "field", readProjection inner false),
    (str "fieldf", readProjection inner true),
    (str "spread", (readArgs inner).map .spread),
    (str "letmany", ((readLocals.lead (str " ")).pair ((operand inner).pair (operand inner))).map
      fun (slots, value, body) => .letMany slots value body),
    (str "reset", readSlotValue inner fun token value body => .reset value token body),
    (str "free-reuse", readSlotBody inner .freeReuse),
    (str "dup", readSlotBody inner .dup),
    (str "drop", readSlotBody inner .drop),
    (str "join", ((readLocals.lead (str " ")).pair (operand inner)).map fun (params, body) =>
      .join params body),
    (str "recur", (readArgs inner).map .recur),
    (str "holestart", readSlotBody inner .holeStart),
    (str "holefill", ((readLocal.lead (str " ")).pair ((number.lead (str " ")).pair
      (operand inner))).map fun (hole, field, cell) => .holeFill hole cell field),
    (str "holeclose", readSlotBody inner .holeClose)]

/-- Read the word and the parts of a node in parentheses. -/
def readParts : Reader Node := fun text => do
  let (word, text) ← token wordChar text
  let parts ← (words inner).lookup word
  parts.trail (str ")") text

/-- How what follows each first character is read. -/
def heads (conventions : Nat) : List (Char × Reader Node) :=
  [('i', readInt.map fun n => .lit (.int (Int64.ofInt n))),
    ('f', number.map fun bits => .lit (.float (UInt64.ofNat bits))),
    ('c', number.map fun c => .lit (.char (Char.ofNat c))),
    ('b', readBool.map fun b => .lit (.bool b)),
    ('s', (readList number).map fun bytes => .lit (.str (bytes.map UInt8.ofNat))),
    ('u', Reader.nothing.map fun _ => .lit .unit),
    ('%', number.map .loc),
    ('@', (readCallee conventions).map .global),
    ('<', (Reader.nothing.lead (str "err>")).map fun _ => .error),
    ('(', readParts inner)]

/-- Read an expression up to its type. -/
def readNode (conventions : Nat) : Reader Node
  | [] => none
  | c :: text => ((heads inner conventions).lookup c).bind fun read => read text

end Readers

/-- Read an expression. -/
def readExpr (named : Text → Ty) (conventions : Nat) : Nat → Reader (WireExpr CalleeKey)
  | 0, _ => none
  | fuel + 1, text => do
    let (node, text) ← readNode (readExpr named conventions fuel) conventions text
    let text ← literal (str ":") text
    let (ty, text) ← readTy named fuel text
    some (node (projectTy ty), text)

/-! ## What may follow -/

/-- A colon follows, as it does every expression without its type. -/
def Colon (rest : Text) : Prop := ∃ rest', rest = ':' :: rest'

/-- A closing parenthesis follows, as it does the parts of a node. -/
def Closes (rest : Text) : Prop := ∃ rest', rest = ')' :: rest'

section Follow

variable (session : Session)

/-- A type may be followed by a closing parenthesis. -/
theorem Closes.typeEnds {rest : Text} (closes : Closes rest) : TypeEnds rest := by
  obtain ⟨rest, rfl⟩ := closes
  exact typeEnds_cons rest rfl (by decide)

/-- A type may be followed by a node in parentheses, whose word begins no type. -/
theorem node_opens {word : String}
    (opens : (str word).head?.any (fun c => !opensType c && c != ')'))
    (text rest : Text) : TypeEnds (' ' :: (node word text ++ rest)) ∧
      literal (str " @[") (' ' :: (node word text ++ rest)) = none ∧
      literal (str "stack ") (node word text ++ rest) = none := by
  rw [node]
  refine ⟨typeEnds_blank _ ?_ (by decide) (by decide) (by decide), rfl, rfl⟩
  cases spelled : str word with
  | nil =>
    rw [spelled] at opens
    cases opens
  | cons c more =>
    rw [spelled] at opens
    have apart : opensType c = false ∧ c ≠ ')' := by simpa using opens
    simp [startsArg, opensBare, apart]

/-- A type may be followed by an operand, which begins no tokens of a call. -/
theorem operand_opens (e : CExpr) (rest : Text) :
    TypeEnds (' ' :: (writeExpr session e ++ rest)) ∧
      literal (str " @[") (' ' :: (writeExpr session e ++ rest)) = none ∧
      literal (str "stack ") (writeExpr session e ++ rest) = none := by
  cases e with
  | lit value ty =>
    rw [writeExpr]
    cases value <;> exact ⟨typeEnds_blank _ rfl (by decide) (by decide) (by decide), rfl, rfl⟩
  | loc slot ty =>
    rw [writeExpr]
    exact ⟨typeEnds_blank _ rfl (by decide) (by decide) (by decide), rfl, rfl⟩
  | global d ty =>
    have symbol : ∀ more, literal (str "[") (session.namer d ++ '/' :: more) = none := by
      intro more
      cases name : session.namer d with
      | nil => rfl
      | cons c name' =>
        have mangled := session.namer_mangled d c (by rw [name]; exact List.mem_cons_self)
        have apart : '[' ≠ c := by
          rintro rfl
          cases mangled
        rw [List.cons_append]
        show literal ['['] _ = none
        rw [literal_cons, if_neg apart]
    rw [writeExpr]
    refine ⟨typeEnds_blank _ rfl (by decide) (by decide) (by decide), ?_, rfl⟩
    have found := symbol ((decimal (session.arityOf d) ++
      ((if (session.abiOf d).registerAbi then str "/reg" else []) ++
        if (session.abiOf d).isUniform then [] else str "/" ++ abiTag (session.abiOf d))) ++
          (typed session ty ++ rest))
    simpa [globalText, str] using found
  | error ty =>
    rw [writeExpr]
    exact ⟨typeEnds_blank _ rfl (by decide) (by decide) (by decide), rfl, rfl⟩
  | foreign symbol args marshalled ty =>
    rw [writeExpr, List.append_assoc]
    exact node_opens (by cases marshalled <;> rfl) _ _
  | makeClosure func captures alloc ty =>
    rw [writeExpr, List.append_assoc]
    exact node_opens (by cases alloc <;> rfl) _ _
  | dataField base index scalar niche ty =>
    rw [writeExpr, List.append_assoc]
    exact node_opens (by cases scalar <;> rfl) _ _
  | _ =>
    rw [writeExpr, List.append_assoc]
    exact node_opens rfl _ _

/-- Operands are written one after the other. -/
theorem writeArgs_eq (args : List CExpr) :
    writeArgs session args = args.flatMap fun arg => str " " ++ writeExpr session arg := by
  induction args with
  | nil => rw [writeArgs, List.flatMap_nil]
  | cons head rest inductionHypothesis =>
    rw [writeArgs, inductionHypothesis, List.flatMap_cons]
    rfl

/-- A type may be followed by operands. -/
theorem typeEnds_args (args : List CExpr) {rest : Text} (ends : TypeEnds rest) :
    TypeEnds (writeArgs session args ++ rest) := by
  rw [writeArgs_eq]
  refine follow_flatMap ?_ (fun _ => id) rest ends
  intro arg _ rest
  rw [List.append_assoc]
  exact (operand_opens session arg rest).1

/-- What ends at a blank and at the rest ends at operands. -/
theorem follow_args (follow : Text → Prop) (next : ∀ rest, follow (' ' :: rest))
    (args : List CExpr) {rest : Text} (last : follow rest) :
    follow (writeArgs session args ++ rest) := by
  rw [writeArgs_eq]
  refine follow_flatMap ?_ (fun _ => id) rest last
  intro arg _ rest
  exact next _

end Follow

/-! ## Reading nodes back -/

/-- The wire form of operands is that of each. -/
theorem exprsToWire_eq {ref : Type} (interner : Interner) (refer : DefId → ref) (es : List CExpr) :
    exprsToWire interner refer es = es.map (exprToWire interner refer) := by
  induction es with
  | nil => rw [exprsToWire, List.map_nil]
  | cons head rest inductionHypothesis => rw [exprsToWire, inductionHypothesis, List.map_cons]

section Nodes

variable (session : Session) {inner : Reader (WireExpr CalleeKey)}

/-- The wire form an expression is read back as. -/
def keyed (e : CExpr) : WireExpr CalleeKey := exprToWire session.interner (calleeKey session) e

/-- An expression is read back. -/
def Readable (inner : Reader (WireExpr CalleeKey)) (e : CExpr) : Prop :=
  Recovers inner (writeExpr session e) (keyed session e) TypeEnds

variable {session}

/-- An operand is read. -/
theorem reads_operand {e : CExpr} (readable : Readable session inner e) :
    Recovers (operand inner) (blank (writeExpr session e)) (keyed session e) TypeEnds :=
  readable.lead (str " ")

/-- Operands are read. -/
theorem reads_args {args : List CExpr} (each : ∀ arg ∈ args, Readable session inner arg)
    {ends : Text → Prop} (last : ∀ rest, ends rest → TypeEnds rest)
    (stops : ∀ rest, ends rest → startsOperand rest = false) :
    Recovers (readArgs inner) (writeArgs session args)
      (exprsToWire session.interner (calleeKey session) args) ends := by
  rw [writeArgs_eq, exprsToWire_eq]
  refine reads_repeated (fun arg member => (each arg member).lead (str " ")) ?_ ?_ last stops ?_
  · intro arg _ rest
    have noTokens := (operand_opens session arg rest).2.1
    have begins : literal (str " ") (' ' :: (writeExpr session arg ++ rest)) =
        some (writeExpr session arg ++ rest) := by simp [str]
    rw [List.append_assoc]
    show startsOperand (' ' :: (writeExpr session arg ++ rest)) = true
    rw [startsOperand, noTokens, begins]
    rfl
  · intro arg _ rest
    rw [List.append_assoc]
    exact (operand_opens session arg rest).1
  · intro arg _ nothing
    cases nothing

/-- Operands up to a closing parenthesis are read. -/
theorem reads_args_closed {args : List CExpr} (each : ∀ arg ∈ args, Readable session inner arg) :
    Recovers (readArgs inner) (writeArgs session args)
      (exprsToWire session.interner (calleeKey session) args) Closes := by
  refine reads_args each (fun _ => Closes.typeEnds) ?_
  rintro _ ⟨rest, rfl⟩
  rfl

/-- A niche scheme is read. -/
theorem reads_niche (niche : Option NicheKind) :
    Recovers readNiche (nicheTag niche) niche fun rest => literal (str "/n") rest = none := by
  cases niche with
  | none => exact reads_absent (str "/n") readNicheKind
  | some kind => cases kind <;> exact fun rest _ => by simp [readNiche, Reader.optional, nicheTag,
      str, Reader.map, readNicheKind]

/-- The slot of a projection is read. -/
theorem reads_fieldIndex (index : FieldIndex) : Recovers readFieldIndex (fieldIndexText index)
    (fieldIndexToWire index) fun rest => ∃ rest', rest = ' ' :: rest' := by
  cases index with
  | const n =>
    have absent : Recovers (readLocal.optional (str "+")) [] none
        fun rest => ∃ rest', rest = ' ' :: rest' := by
      refine (reads_absent (str "+") readLocal).mono ?_
      rintro _ ⟨rest, rfl⟩
      rfl
    have read := ((reads_number n).pair absent fun rest last => by
      obtain ⟨rest, rfl⟩ := last
      exact (stops_cons _ _ _).mpr rfl).map fun (base, evidence) =>
        evidence.elim (WireFieldIndex.const base) (.dyn base)
    rw [List.append_nil] at read
    exact read
  | dyn base evidence =>
    have read := ((reads_number base).pair ((reads_local evidence).present (str "+"))
      fun rest _ => (stops_cons _ _ _).mpr rfl).map fun (base, evidence) =>
        evidence.elim (WireFieldIndex.const base) (.dyn base)
    refine read.mono ?_
    rintro _ ⟨rest, rfl⟩
    exact (stops_cons _ _ _).mpr rfl

/-- A forwarded reuse token is read. -/
theorem reads_reuse (token : Option LocalId) :
    Recovers readToken (tokenText token) token (Stops Char.isDigit) := by
  intro rest last
  cases token with
  | none => rfl
  | some slot => exact (reads_local slot).map some rest last

/-- The forwarded reuse tokens of a call are read. -/
theorem reads_tokens (reuse : List (Option LocalId)) :
    Recovers readTokens (tokensText reuse) reuse Closes := by
  cases reuse with
  | nil =>
    refine ((reads_absent (str " @[") (readJoined (str ",") ']' readToken)).map
      (·.getD [])).mono ?_
    rintro _ ⟨rest, rfl⟩
    rfl
  | cons first others =>
    have items : Recovers (readJoined (str ",") ']' readToken)
        (joined (str ",") ((first :: others).map tokenText) ++ [']']) ((first :: others).map id)
        fun _ => True := by
      refine reads_joined (fun token _ => reads_reuse token)
        (fun rest => (stops_cons _ _ _).mpr rfl) (fun rest => (stops_cons _ _ _).mpr rfl)
        (fun rest => rfl) (by decide) ?_
      intro token _
      cases token with
      | none => exact ⟨'_', [], rfl, by decide⟩
      | some slot => exact ⟨'%', _, rfl, by decide⟩
    rw [List.map_id] at items
    exact ((items.present (str " @[")).map (·.getD [])).mono fun _ _ => trivial

/-- A node in parentheses is read when its parts are. -/
theorem reads_word {conventions : Nat} {word : String} {parts : Reader Node} {text : Text}
    {value : Node} (within : (str word).all wordChar = true)
    (found : (words inner).lookup (str word) = some parts)
    (begins : ∀ rest, Stops wordChar (text ++ ')' :: rest))
    (reads : Recovers parts text value Closes) :
    Recovers (readNode inner conventions) (node word text) value Colon := by
  intro rest _
  have named := reads_token (List.all_eq_true.mp within) (text ++ ([')'] ++ rest)) (begins rest)
  have closed := reads.trail (str ")") (fun rest => ⟨rest, rfl⟩) rest trivial
  rw [List.append_assoc] at closed
  show readParts inner ((str word ++ (text ++ [')'])) ++ rest) = _
  rw [List.append_assoc, List.append_assoc, readParts, named]
  simp only [Option.bind_eq_bind, Option.bind_some, found]
  exact closed

/-- A slot and a body are read. -/
theorem reads_slotBody (slot : LocalId) {body : CExpr} (readable : Readable session inner body)
    (make : Nat → WireExpr CalleeKey → Node) : Recovers (readSlotBody inner make)
      (blank (localText slot) ++ blank (writeExpr session body)) (make slot (keyed session body))
      Closes := by
  have parts := ((reads_local slot).lead (str " ")).pair (reads_operand readable)
    fun rest _ => (stops_cons _ _ _).mpr rfl
  have read := parts.map fun (slot, body) => make slot body
  exact read.mono fun _ => Closes.typeEnds

/-- Two operands are read. -/
theorem reads_operands {value body : CExpr} (first : Readable session inner value)
    (second : Readable session inner body) : Recovers ((operand inner).pair (operand inner))
      (blank (writeExpr session value) ++ blank (writeExpr session body))
      (keyed session value, keyed session body) TypeEnds :=
  (reads_operand first).pair (reads_operand second)
    fun rest _ => (operand_opens session body rest).1

/-- A slot, a value and a body are read. -/
theorem reads_slotValue (slot : LocalId) {value body : CExpr}
    (first : Readable session inner value) (second : Readable session inner body)
    (make : Nat → WireExpr CalleeKey → WireExpr CalleeKey → Node) :
    Recovers (readSlotValue inner make) (blank (localText slot) ++
      (blank (writeExpr session value) ++ blank (writeExpr session body)))
      (make slot (keyed session value) (keyed session body)) Closes := by
  have parts := ((reads_local slot).lead (str " ")).pair (reads_operands first second)
    fun rest _ => (stops_cons _ _ _).mpr rfl
  have read := parts.map fun (slot, value, body) => make slot value body
  exact read.mono fun _ => Closes.typeEnds

/-- A literal is read. -/
theorem reads_lit (conventions : Nat) (value : Lit) :
    Recovers (readNode inner conventions) (litText value) (fun ty => .lit value ty) Colon := by
  have stops : ∀ rest, Colon rest → Stops Char.isDigit rest := by
    rintro _ ⟨rest, rfl⟩
    exact (stops_cons _ _ _).mpr rfl
  cases value with
  | int n =>
    have read := (reads_int n.toInt).map fun n => (fun ty => .lit (.int (Int64.ofInt n)) ty : Node)
    rw [Int64.ofInt_toInt] at read
    exact fun rest last => read rest (stops rest last)
  | float bits =>
    have read := (reads_number bits.toNat).map
      fun bits => (fun ty => .lit (.float (UInt64.ofNat bits)) ty : Node)
    rw [UInt64.ofNat_toNat] at read
    exact fun rest last => read rest (stops rest last)
  | char c =>
    have read := (reads_number c.toNat).map
      fun c => (fun ty => .lit (.char (Char.ofNat c)) ty : Node)
    rw [Char.ofNat_toNat] at read
    exact fun rest last => read rest (stops rest last)
  | bool b =>
    have read := (reads_bool b).map fun b => (fun ty => .lit (.bool b) ty : Node)
    exact fun rest _ => read rest trivial
  | str bytes =>
    have items : Recovers (readList number)
        (debugList (bytes.map fun byte => decimal byte.toNat)) (bytes.map UInt8.toNat)
        fun _ => True := by
      refine reads_list (fun byte _ => reads_number byte.toNat)
        (fun rest => (stops_cons _ _ _).mpr rfl) (fun rest => (stops_cons _ _ _).mpr rfl) ?_
      intro byte _
      cases digits : decimal byte.toNat with
      | nil => exact absurd digits (decimal_ne_nil _)
      | cons c more =>
        have digit : c.isDigit = true := isDigit_of_mem_decimal (n := byte.toNat) (by simp [digits])
        refine ⟨c, more, rfl, ?_⟩
        rintro rfl
        cases digit
    have read := items.map fun bytes => (fun ty => .lit (.str (bytes.map UInt8.ofNat)) ty : Node)
    have back : (bytes.map UInt8.toNat).map UInt8.ofNat = bytes := by simp [Function.comp_def]
    rw [back] at read
    exact fun rest _ => read rest trivial
  | unit => exact fun rest _ => rfl

/-- What the printer needs of a node: a foreign symbol has no blank and no closing parenthesis, as
a symbol to link against, and a partial application is not static, as none is. -/
def Plain (session : Session) : CExpr → Prop
  | .foreign symbol _ _ _ => ∀ c ∈ nameText session.interner symbol, plainChar c = true
  | .app _ _ _ alloc _ => alloc ≠ .static
  | _ => True

/-- A plain token may be followed by operands. -/
theorem stops_args (args : List CExpr) {rest : Text} (closes : Closes rest) :
    Stops plainChar (writeArgs session args ++ rest) := by
  obtain ⟨rest, rfl⟩ := closes
  exact follow_args session (Stops plainChar) (fun _ => (stops_cons _ _ _).mpr rfl) args
    ((stops_cons _ _ _).mpr rfl)

/-- A word may be followed by operands. -/
theorem stops_word_args (args : List CExpr) (rest : Text) :
    Stops wordChar (writeArgs session args ++ ')' :: rest) :=
  follow_args session (Stops wordChar) (fun _ => (stops_cons _ _ _).mpr rfl) args
    ((stops_cons _ _ _).mpr rfl)

/-- A token may be followed by a niche scheme and more. -/
theorem stops_niche {inside : Char → Bool} (slash : inside '/' = false) (niche : Option NicheKind)
    {rest : Text} (stops : Stops inside rest) : Stops inside (nicheTag niche ++ rest) := by
  cases niche with
  | none => exact stops
  | some kind => cases kind <;> exact (stops_cons _ _ _).mpr slash

/-- A primitive is read. -/
theorem reads_prim (conventions : Nat) (op : Prim) {args : List CExpr}
    (each : ∀ arg ∈ args, Readable session inner arg) : Recovers (readNode inner conventions)
      (node "p" (str ":" ++ str (primTag op) ++ writeArgs session args))
      (fun ty => .prim op (exprsToWire session.interner (calleeKey session) args) ty) Colon := by
  have parts := ((reads_token (primTag_plain op)).lead (str ":")).pair (reads_args_closed each)
    fun rest closes => stops_args args closes
  have read := parts.map fun (tag, args) =>
    (fun ty => .prim ((primOf tag).getD .intAdd) args ty : Node)
  simp only [primOf_primTag, Option.getD_some] at read
  exact reads_word rfl rfl (fun rest => (stops_cons _ _ _).mpr rfl) read

/-- A foreign call is read. -/
theorem reads_foreign (conventions : Nat) {symbol : Symbol} (marshalled : Bool)
    {args : List CExpr} (plain : ∀ c ∈ nameText session.interner symbol, plainChar c = true)
    (each : ∀ arg ∈ args, Readable session inner arg) : Recovers (readNode inner conventions)
      (node (foreignWord marshalled) (str ":" ++ nameText session.interner symbol ++
        writeArgs session args))
      (fun ty => .foreign (session.interner.text symbol)
        (exprsToWire session.interner (calleeKey session) args) marshalled ty) Colon := by
  have parts := ((reads_token plain).lead (str ":")).pair (reads_args_closed each)
    fun rest closes => stops_args args closes
  have read := parts.map fun (symbol, args) =>
    (fun ty => .foreign (String.ofList symbol) args marshalled ty : Node)
  have back : String.ofList (nameText session.interner symbol) = session.interner.text symbol :=
    String.ofList_toList
  simp only [back] at read
  cases marshalled
  · exact reads_word rfl rfl (fun rest => (stops_cons _ _ _).mpr rfl) read
  · exact reads_word rfl rfl (fun rest => (stops_cons _ _ _).mpr rfl) read

/-- A call is read. -/
theorem reads_app (conventions : Nat) {func : CExpr} {args : List CExpr}
    (reuse : List (Option LocalId)) {alloc : ClosureAlloc} (dynamic : alloc ≠ .static)
    (readable : Readable session inner func)
    (each : ∀ arg ∈ args, Readable session inner arg) : Recovers (readNode inner conventions)
      (node "app" (blank (stackText alloc) ++ (writeExpr session func ++
        (writeArgs session args ++ tokensText reuse))))
      (fun ty => .app (keyed session func) (exprsToWire session.interner (calleeKey session) args)
        reuse (allocToWire alloc) ty) Colon := by
  have tokensEnd : ∀ rest, Closes rest → TypeEnds (tokensText reuse ++ rest) ∧
      startsOperand (tokensText reuse ++ rest) = false := by
    rintro _ ⟨rest, rfl⟩
    cases reuse with
    | nil => exact ⟨typeEnds_cons rest rfl (by decide), rfl⟩
    | cons first others =>
      exact ⟨typeEnds_blank _ rfl (by decide) (by decide) (by decide), rfl⟩
  have items : Recovers (readArgs inner) (writeArgs session args)
      (exprsToWire session.interner (calleeKey session) args)
      fun rest => TypeEnds rest ∧ startsOperand rest = false :=
    reads_args each (fun _ last => last.1) fun _ last => last.2
  have operands := items.pair (reads_tokens reuse) tokensEnd
  have called := readable.pair operands fun rest closes => by
    rw [List.append_assoc]
    exact typeEnds_args session args (tokensEnd rest closes).1
  have stack : Recovers (Reader.nothing.optional (str "stack ")) (stackText alloc)
      (if alloc = .stack then some () else none)
      fun rest => literal (str "stack ") rest = none := by
    cases alloc with
    | static => exact absurd rfl dynamic
    | stack => exact (reads_nothing.present (str "stack ")).mono fun _ _ => trivial
    | heap => exact reads_absent (str "stack ") Reader.nothing
  have parts := (stack.lead (str " ")).pair called fun rest _ => by
    rw [List.append_assoc]
    exact (operand_opens session func _).2.2
  have read := parts.map fun (stack, func, args, reuse) =>
    (fun ty => .app func args reuse (if stack.isSome then .stack else .heap) ty : Node)
  have kind : (if (if alloc = .stack then some () else none).isSome then WireClosureAlloc.stack
      else .heap) = allocToWire alloc := by
    cases alloc with
    | static => exact absurd rfl dynamic
    | stack => rfl
    | heap => rfl
  simp only [kind] at read
  exact reads_word rfl rfl (fun rest => (stops_cons _ _ _).mpr rfl) read

/-- A closure is read. -/
theorem reads_closure (conventions : Nat) (func : Nat) (captures : List LocalId)
    (alloc : ClosureAlloc) : Recovers (readNode inner conventions)
      (node (allocWord alloc) (blank (str "fn" ++ decimal func) ++ blank (localsText captures)))
      (fun ty => .makeClosure func captures (allocToWire alloc) ty) Colon := by
  have parts := (((reads_number func).lead (str "fn")).lead (str " ")).pair
    ((reads_locals captures).lead (str " ")) fun rest _ => (stops_cons _ _ _).mpr rfl
  have read := (parts.map fun (func, captures) =>
    (fun ty => .makeClosure func captures (allocToWire alloc) ty : Node)).mono
      fun rest (_ : Closes rest) => trivial
  cases alloc <;> exact reads_word rfl rfl (fun rest => (stops_cons _ _ _).mpr rfl) read

/-- A construction is read. -/
theorem reads_data (conventions : Nat) (tag : Nat) {args : List CExpr} (reuse : Option LocalId)
    (scalars : Nat) (niche : Option NicheKind)
    (each : ∀ arg ∈ args, Readable session inner arg) : Recovers (readNode inner conventions)
      (node "data" (reuseText reuse ++ (blank (decimal tag) ++ (str "/s" ++ decimal scalars ++
        (nicheTag niche ++ writeArgs session args)))))
      (fun ty => .makeData tag (exprsToWire session.interner (calleeKey session) args) reuse
        scalars niche ty) Colon := by
  have marked := (reads_niche niche).pair (reads_args_closed each) fun rest closes => by
    obtain ⟨rest, rfl⟩ := closes
    exact follow_args session (fun rest => literal (str "/n") rest = none) (fun _ => rfl) args rfl
  have bitmap := ((reads_number scalars).lead (str "/s")).pair marked fun rest closes => by
    obtain ⟨rest, rfl⟩ := closes
    rw [List.append_assoc]
    exact stops_niche rfl niche (follow_args session (Stops Char.isDigit)
      (fun _ => (stops_cons _ _ _).mpr rfl) args ((stops_cons _ _ _).mpr rfl))
  have tagged := ((reads_number tag).lead (str " ")).pair bitmap
    fun rest _ => (stops_cons _ _ _).mpr rfl
  have token : Recovers (readLocal.optional (str "@")) (reuseText reuse) reuse
      fun rest => ∃ rest', rest = ' ' :: rest' := by
    cases reuse with
    | none =>
      refine (reads_absent (str "@") readLocal).mono ?_
      rintro _ ⟨rest, rfl⟩
      rfl
    | some slot =>
      refine ((reads_local slot).present (str "@")).mono ?_
      rintro _ ⟨rest, rfl⟩
      exact (stops_cons _ _ _).mpr rfl
  have parts := token.pair tagged fun rest _ => ⟨_, rfl⟩
  have read := parts.map fun (reuse, tag, scalars, niche, args) =>
    (fun ty => .makeData tag args reuse scalars niche ty : Node)
  refine reads_word rfl rfl ?_ read
  intro rest
  cases reuse with
  | none => exact (stops_cons _ _ _).mpr rfl
  | some slot => exact (stops_cons _ _ _).mpr rfl

/-- An operation on the tag of a value is read. -/
theorem reads_tag (conventions : Nat) {base : CExpr} (niche : Option NicheKind)
    (readable : Readable session inner base) : Recovers (readNode inner conventions)
      (node "tag" (nicheTag niche ++ blank (writeExpr session base)))
      (fun ty => .dataTag (keyed session base) niche ty) Colon := by
  have parts := (reads_niche niche).pair (reads_operand readable) fun _ _ => rfl
  have read := (parts.map fun (niche, base) => (fun ty => .dataTag base niche ty : Node)).mono
    fun _ => Closes.typeEnds
  refine reads_word rfl rfl (fun rest => ?_) read
  rw [List.append_assoc]
  exact stops_niche rfl niche ((stops_cons _ _ _).mpr rfl)

/-- A projection is read. -/
theorem reads_projection (conventions : Nat) {base : CExpr} (index : FieldIndex) (scalar : Bool)
    (niche : Option NicheKind) (readable : Readable session inner base) :
    Recovers (readNode inner conventions)
      (node (fieldWord scalar) (nicheTag niche ++ (blank (fieldIndexText index) ++
        blank (writeExpr session base))))
      (fun ty => .dataField (keyed session base) (fieldIndexToWire index) scalar niche ty)
      Colon := by
  have slot := ((reads_fieldIndex index).lead (str " ")).pair (reads_operand readable)
    fun _ _ => ⟨_, rfl⟩
  have parts := (reads_niche niche).pair slot fun _ _ => rfl
  have read := (parts.map fun (niche, index, base) =>
    (fun ty => .dataField base index scalar niche ty : Node)).mono fun _ => Closes.typeEnds
  have begins : ∀ rest, Stops wordChar ((nicheTag niche ++ (blank (fieldIndexText index) ++
      blank (writeExpr session base))) ++ ')' :: rest) := by
    intro rest
    rw [List.append_assoc]
    exact stops_niche rfl niche ((stops_cons _ _ _).mpr rfl)
  cases scalar
  · exact reads_word rfl rfl begins read
  · exact reads_word rfl rfl begins read

/-- A node is read up to its type when its operands are. -/
theorem reads_node (e : CExpr) {conventions : Nat} (plain : Plain session e)
    (each : ∀ child ∈ e.children, Readable session inner child)
    (small : ∀ d, e.target? = some d → abiSize (session.abiOf d) ≤ conventions) :
    ∃ (text : Text) (make : Node), writeExpr session e = text ++ typed session e.ty ∧
      keyed session e = make (projectTy e.ty) ∧
      Recovers (readNode inner conventions) text make Colon := by
  have word : ∀ first other rest : Text, Stops wordChar (blank first ++ other ++ ')' :: rest) :=
    fun _ _ _ => (stops_cons _ _ _).mpr rfl
  cases e with
  | lit value ty =>
    exact ⟨_, _, by rw [writeExpr]; rfl, by rw [keyed, exprToWire]; rfl,
      reads_lit conventions value⟩
  | loc slot ty =>
    have read := (reads_local slot).map fun slot => (fun ty => .loc slot ty : Node)
    refine ⟨localText slot, fun ty => .loc slot ty, by rw [writeExpr]; rfl,
      by rw [keyed, exprToWire]; rfl, ?_⟩
    rintro _ ⟨rest, rfl⟩
    exact read (':' :: rest) ((stops_cons _ _ _).mpr rfl)
  | global d ty =>
    have read := (reads_callee session (small d rfl)).map
      fun key => (fun ty => .global key ty : Node)
    exact ⟨globalText session d, fun ty => .global (calleeKey session d) ty,
      by rw [writeExpr]; rfl, by rw [keyed, exprToWire]; rfl, fun rest last => read rest last⟩
  | prim op args ty =>
    have operands : ∀ arg ∈ args, Readable session inner arg := each
    exact ⟨_, _, by rw [writeExpr]; rfl, by rw [keyed, exprToWire]; rfl,
      reads_prim conventions op operands⟩
  | foreign symbol args marshalled ty =>
    have operands : ∀ arg ∈ args, Readable session inner arg := each
    exact ⟨_, _, by rw [writeExpr]; rfl, by rw [keyed, exprToWire]; rfl,
      reads_foreign conventions marshalled plain operands⟩
  | app func args reuse alloc ty =>
    have operands : ∀ arg ∈ args, Readable session inner arg :=
      fun arg member => each arg (List.mem_cons_of_mem _ member)
    have tokens : reuse.map (·.map slot) = reuse := by
      have same : (fun token : Option LocalId => token.map slot) = id :=
        funext fun token => by cases token <;> rfl
      rw [same, List.map_id]
    exact ⟨_, _, by rw [writeExpr]; rfl, by rw [keyed, exprToWire, tokens]; rfl,
      reads_app conventions reuse plain (each func List.mem_cons_self) operands⟩
  | ite cond yes no ty =>
    have parts := (reads_operand (each cond (by simp [CExpr.children]))).pair
      (reads_operands (each yes (by simp [CExpr.children])) (each no (by simp [CExpr.children])))
      fun rest _ => by
        rw [List.append_assoc]
        exact (operand_opens session yes _).1
    have read := (parts.map fun (cond, yes, no) => (fun ty => .ite cond yes no ty : Node)).mono
      fun _ => Closes.typeEnds
    exact ⟨_, _, by rw [writeExpr]; rfl, by rw [keyed, exprToWire]; rfl,
      reads_word rfl rfl (word _ _) read⟩
  | letIn slot value body ty =>
    exact ⟨_, _, by rw [writeExpr]; rfl, by rw [keyed, exprToWire]; rfl,
      reads_word rfl rfl (word _ _) (reads_slotValue slot
        (each value (by simp [CExpr.children])) (each body (by simp [CExpr.children])) _)⟩
  | makeClosure func captures alloc ty =>
    have slots : captures.map slot = captures := List.map_id captures
    exact ⟨_, _, by rw [writeExpr]; rfl, by rw [keyed, exprToWire, slots]; rfl,
      reads_closure conventions func captures alloc⟩
  | makeData tag args reuse scalars niche ty =>
    have operands : ∀ arg ∈ args, Readable session inner arg := each
    have token : reuse.map slot = reuse := by cases reuse <;> rfl
    exact ⟨_, _, by rw [writeExpr]; rfl, by rw [keyed, exprToWire, token]; rfl,
      reads_data conventions tag reuse scalars niche operands⟩
  | dataTag base niche ty =>
    exact ⟨_, _, by rw [writeExpr]; rfl, by rw [keyed, exprToWire]; rfl,
      reads_tag conventions niche (each base (by simp [CExpr.children]))⟩
  | dataField base index scalar niche ty =>
    exact ⟨_, _, by rw [writeExpr]; rfl, by rw [keyed, exprToWire]; rfl,
      reads_projection conventions index scalar niche (each base (by simp [CExpr.children]))⟩
  | spread components ty =>
    have operands : ∀ arg ∈ components, Readable session inner arg := each
    have read := (reads_args_closed operands).map fun args => (fun ty => .spread args ty : Node)
    exact ⟨_, _, by rw [writeExpr]; rfl, by rw [keyed, exprToWire]; rfl,
      reads_word rfl rfl (stops_word_args components) read⟩
  | letMany slots value body ty =>
    have same : slots.map slot = slots := List.map_id slots
    have parts := ((reads_locals slots).lead (str " ")).pair
      (reads_operands (each value (by simp [CExpr.children]))
        (each body (by simp [CExpr.children]))) fun _ _ => trivial
    have read := (parts.map fun (slots, value, body) =>
      (fun ty => .letMany slots value body ty : Node)).mono fun _ => Closes.typeEnds
    exact ⟨_, _, by rw [writeExpr]; rfl, by rw [keyed, exprToWire, same]; rfl,
      reads_word rfl rfl (word _ _) read⟩
  | reset value token body ty =>
    exact ⟨_, _, by rw [writeExpr]; rfl, by rw [keyed, exprToWire]; rfl,
      reads_word rfl rfl (word _ _) (reads_slotValue token
        (each value (by simp [CExpr.children])) (each body (by simp [CExpr.children]))
        fun token value body ty => .reset value token body ty)⟩
  | freeReuse token body ty =>
    exact ⟨_, _, by rw [writeExpr]; rfl, by rw [keyed, exprToWire]; rfl,
      reads_word rfl rfl (word _ _) (reads_slotBody token
        (each body (by simp [CExpr.children])) _)⟩
  | dup slot body ty =>
    exact ⟨_, _, by rw [writeExpr]; rfl, by rw [keyed, exprToWire]; rfl,
      reads_word rfl rfl (word _ _) (reads_slotBody slot
        (each body (by simp [CExpr.children])) _)⟩
  | drop slot body ty =>
    exact ⟨_, _, by rw [writeExpr]; rfl, by rw [keyed, exprToWire]; rfl,
      reads_word rfl rfl (word _ _) (reads_slotBody slot
        (each body (by simp [CExpr.children])) _)⟩
  | join params body ty =>
    have same : params.map slot = params := List.map_id params
    have parts := ((reads_locals params).lead (str " ")).pair
      (reads_operand (each body (by simp [CExpr.children]))) fun _ _ => trivial
    have read := (parts.map fun (params, body) => (fun ty => .join params body ty : Node)).mono
      fun _ => Closes.typeEnds
    exact ⟨_, _, by rw [writeExpr]; rfl, by rw [keyed, exprToWire, same]; rfl,
      reads_word rfl rfl (word _ _) read⟩
  | recur args ty =>
    have operands : ∀ arg ∈ args, Readable session inner arg := each
    have read := (reads_args_closed operands).map fun args => (fun ty => .recur args ty : Node)
    exact ⟨_, _, by rw [writeExpr]; rfl, by rw [keyed, exprToWire]; rfl,
      reads_word rfl rfl (stops_word_args args) read⟩
  | holeStart hole body ty =>
    exact ⟨_, _, by rw [writeExpr]; rfl, by rw [keyed, exprToWire]; rfl,
      reads_word rfl rfl (word _ _) (reads_slotBody hole
        (each body (by simp [CExpr.children])) _)⟩
  | holeFill hole cell field ty =>
    have parts := ((reads_local hole).lead (str " ")).pair (((reads_number field).lead
      (str " ")).pair (reads_operand (each cell (by simp [CExpr.children])))
        fun _ _ => (stops_cons _ _ _).mpr rfl) fun _ _ => (stops_cons _ _ _).mpr rfl
    have read := (parts.map fun (hole, field, cell) =>
      (fun ty => .holeFill hole cell field ty : Node)).mono fun _ => Closes.typeEnds
    exact ⟨_, _, by rw [writeExpr]; rfl, by rw [keyed, exprToWire]; rfl,
      reads_word rfl rfl (word _ _) read⟩
  | holeClose hole base ty =>
    exact ⟨_, _, by rw [writeExpr]; rfl, by rw [keyed, exprToWire]; rfl,
      reads_word rfl rfl (word _ _) (reads_slotBody hole
        (each base (by simp [CExpr.children])) _)⟩
  | error ty =>
    exact ⟨str "<err>", fun ty => .error ty, by rw [writeExpr]; rfl, by rw [keyed, exprToWire]; rfl,
      fun rest _ => rfl⟩

end Nodes

/-! ## Expressions -/

section Expressions

variable {naming : Naming} {session : Session} {named : Text → Ty}

/-- An expression over the names: every node is plain and has a type of the names. -/
def Written (naming : Naming) (session : Session) (e : CExpr) : Prop :=
  ∀ node ∈ e.nodes, Plain session node ∧ Spelled naming session.interner node.ty

/-- The operands of an expression over the names are over them. -/
theorem Written.child {e child : CExpr} (written : Written naming session e)
    (member : child ∈ e.children) : Written naming session child := by
  intro node inside
  refine written node ?_
  rw [CExpr.nodes_eq]
  exact List.mem_cons_of_mem _ (List.mem_flatMap.mpr ⟨child, member, inside⟩)

/-- The operands of an expression refer to what it refers to. -/
theorem targets_child {e child : CExpr} (member : child ∈ e.children) {d : DefId}
    (target : d ∈ child.targets) : d ∈ e.targets := by
  rw [CExpr.targets, List.mem_filterMap] at target ⊢
  obtain ⟨node, inside, refers⟩ := target
  refine ⟨node, ?_, refers⟩
  rw [CExpr.nodes_eq]
  exact List.mem_cons_of_mem _ (List.mem_flatMap.mpr ⟨child, member, inside⟩)

/-- The type of an expression is smaller. -/
theorem sizeOf_ty (e : CExpr) : sizeOf e.ty < sizeOf e := by
  cases e <;> simp [CExpr.ty]

/-- The operands of an expression are smaller. -/
theorem sizeOf_child {e child : CExpr} (member : child ∈ e.children) :
    sizeOf child < sizeOf e := by
  cases e with
  | prim op args ty | foreign symbol args marshalled ty | spread args ty | recur args ty
  | makeData tag args reuse scalars niche ty =>
    have inside : child ∈ args := member
    have smaller := List.sizeOf_lt_of_mem inside
    simp
    omega
  | app func args reuse alloc ty =>
    simp only [CExpr.children, List.mem_cons] at member
    rcases member with rfl | member
    · simp
      omega
    · have smaller := List.sizeOf_lt_of_mem member
      simp
      omega
  | lit _ _ | loc _ _ | global _ _ | makeClosure _ _ _ _ | error _ => cases member
  | ite cond yes no ty =>
    simp only [CExpr.children, List.mem_cons, List.not_mem_nil, or_false] at member
    rcases member with rfl | rfl | rfl <;> simp <;> omega
  | letIn _ _ _ _ | letMany _ _ _ _ | reset _ _ _ _ =>
    simp only [CExpr.children, List.mem_cons, List.not_mem_nil, or_false] at member
    rcases member with rfl | rfl <;> simp <;> omega
  | _ =>
    simp only [CExpr.children, List.mem_cons, List.not_mem_nil, or_false] at member
    subst member
    simp
    omega

/-- The text of an expression is read back as its wire form. -/
theorem readable_expr (recognizes : Recognizes naming named) {conventions : Nat} :
    ∀ (fuel : Nat) (e : CExpr), sizeOf e ≤ fuel → Written naming session e →
      (∀ d ∈ e.targets, abiSize (session.abiOf d) ≤ conventions) →
      Readable session (readExpr named conventions fuel) e
  | 0, e, small, _, _ => by
    have positive := sizeOf_ty e
    omega
  | fuel + 1, e, small, written, known => by
    have typeSmaller := sizeOf_ty e
    have here : e ∈ e.nodes := by
      rw [CExpr.nodes_eq]
      exact List.mem_cons_self
    have each : ∀ child ∈ e.children, Readable session (readExpr named conventions fuel) child := by
      intro child member
      have smaller := sizeOf_child member
      exact readable_expr recognizes fuel child (by omega) (written.child member)
        fun d target => known d (targets_child member target)
    obtain ⟨text, make, shape, value, reads⟩ := reads_node e (written e here).1 each
      fun d target => known d (List.mem_filterMap.mpr ⟨e, here, target⟩)
    intro rest ends
    have nodeRead := reads (':' :: (renderCanonical session.interner e.ty ++ rest)) ⟨_, rfl⟩
    have typeRead := reads_renderCanonical recognizes (by omega : sizeOf e.ty ≤ fuel)
      (written e here).2 rest ends
    have colon : literal (str ":") (':' :: (renderCanonical session.interner e.ty ++ rest)) =
        some (renderCanonical session.interner e.ty ++ rest) := by simp [str]
    rw [shape, List.append_assoc, typed, List.cons_append, readExpr, nodeRead, value]
    simp only [Option.bind_eq_bind, Option.bind_some, colon, typeRead, projectTy_skeleton]

end Expressions

end Fingerprint

end Wire

end Fai
