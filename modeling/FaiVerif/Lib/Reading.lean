import Mathlib.Data.List.Basic
import Mathlib.Tactic.Common

/-!
# Reading printed text

A printer that puts no frame around what it writes is unambiguous when its text can be read back:
a reader returns the value at the front of a text and the text after it. What may follow a text
without becoming part of it is a condition on the rest. Literals, tokens, numbers and repetitions
are read here; a grammar composes them, and two values whose texts agree are then the same.
-/

namespace Reading

/-- A printed text. -/
abbrev Text := List Char

/-- A fixed text. -/
def str (s : String) : Text := s.toList

/-- A reader returns the value at the front of a text and the rest of the text. -/
abbrev Reader (α : Type) := Text → Option (α × Text)

/-- Reading a text, followed by anything that may follow it, returns a value. -/
def Recovers {α : Type} (read : Reader α) (text : Text) (value : α) (ends : Text → Prop) : Prop :=
  ∀ rest, ends rest → read (text ++ rest) = some (value, rest)

/-- Two values with the same text are the same. -/
theorem Recovers.unique {α : Type} {read : Reader α} {text : Text} {value value' : α}
    {ends : Text → Prop} (left : Recovers read text value ends)
    (right : Recovers read text value' ends)
    (last : ends []) : value = value' := by
  have both := (left [] last).symm.trans (right [] last)
  rw [Option.some.injEq, Prod.mk.injEq] at both
  exact both.1

/-- A reader that reads more after a text may be used where less may follow. -/
theorem Recovers.mono {α : Type} {read : Reader α} {text : Text} {value : α}
    {ends ends' : Text → Prop} (reads : Recovers read text value ends)
    (fewer : ∀ rest, ends' rest → ends rest) : Recovers read text value ends' :=
  fun rest last => reads rest (fewer rest last)

/-! ## Literals -/

/-- Read a given text. -/
def literal : Text → Text → Option Text
  | [], text => some text
  | _ :: _, [] => none
  | c :: lead, d :: text => if c = d then literal lead text else none

@[simp] theorem literal_nil (text : Text) : literal [] text = some text := by
  unfold literal
  rfl

@[simp] theorem literal_cons (c d : Char) (lead text : Text) :
    literal (c :: lead) (d :: text) = if c = d then literal lead text else none := rfl

/-- A literal reads itself. -/
@[simp] theorem literal_append (lead rest : Text) : literal lead (lead ++ rest) = some rest := by
  induction lead with
  | nil => simp
  | cons c lead inductionHypothesis => simp [inductionHypothesis]

/-! ## Sequences -/

namespace Reader

variable {α β : Type}

/-- Read a value as another. -/
def map (f : α → β) (read : Reader α) : Reader β := fun text => do
  let (value, text) ← read text
  some (f value, text)

/-- Read two values in order. -/
def pair (left : Reader α) (right : Reader β) : Reader (α × β) := fun text => do
  let (first, text) ← left text
  let (second, text) ← right text
  some ((first, second), text)

/-- Read a value after a literal. -/
def lead (before : Text) (read : Reader α) : Reader α := fun text => (literal before text).bind read

/-- Read a value before a literal. -/
def trail (behind : Text) (read : Reader α) : Reader α := fun text => do
  let (value, text) ← read text
  let text ← literal behind text
  some (value, text)

/-- Read a value when a literal comes before it. -/
def optional (before : Text) (read : Reader α) : Reader (Option α) := fun text =>
  match literal before text with
  | some text => read.map some text
  | none => some (none, text)

/-- Read nothing. -/
def nothing : Reader Unit := fun text => some ((), text)

end Reader

section Sequences

variable {α β : Type} {read : Reader α} {other : Reader β} {text more : Text} {value : α}
  {value' : β} {ends ends' : Text → Prop}

/-- A value read as another. -/
theorem Recovers.map (reads : Recovers read text value ends) (f : α → β) :
    Recovers (read.map f) text (f value) ends := by
  intro rest last
  rw [Reader.map, reads rest last]
  rfl

/-- Two values in order. -/
theorem Recovers.pair (left : Recovers read text value ends)
    (right : Recovers other more value' ends')
    (follows : ∀ rest, ends' rest → ends (more ++ rest)) :
    Recovers (read.pair other) (text ++ more) (value, value') ends' := by
  intro rest last
  have first := left (more ++ rest) (follows rest last)
  have second := right rest last
  rw [List.append_assoc, Reader.pair, first]
  simp only [Option.bind_eq_bind, Option.bind_some, second]

/-- A value after a literal. -/
theorem Recovers.lead (before : Text) (reads : Recovers read text value ends) :
    Recovers (read.lead before) (before ++ text) value ends := by
  intro rest last
  rw [List.append_assoc, Reader.lead, literal_append]
  exact reads rest last

/-- A value before a literal. -/
theorem Recovers.trail (behind : Text) (reads : Recovers read text value ends)
    (follows : ∀ rest, ends (behind ++ rest)) :
    Recovers (read.trail behind) (text ++ behind) value fun _ => True := by
  intro rest _
  rw [List.append_assoc, Reader.trail, reads _ (follows rest)]
  simp only [Option.bind_eq_bind, Option.bind_some, literal_append]

/-- A value whose literal is there. -/
theorem Recovers.present (before : Text) (reads : Recovers read text value ends) :
    Recovers (read.optional before) (before ++ text) (some value) ends := by
  intro rest last
  rw [List.append_assoc, Reader.optional, literal_append]
  exact reads.map some rest last

/-- A value whose literal is not there. -/
theorem reads_absent (before : Text) (read : Reader α) :
    Recovers (read.optional before) [] none fun rest => literal before rest = none := by
  intro rest last
  rw [List.nil_append, Reader.optional, last]

/-- Nothing is read from no text. -/
theorem reads_nothing : Recovers Reader.nothing [] () fun _ => True := fun _ _ => rfl

end Sequences

/-! ## Tokens -/

/-- A rest at which a token of the given characters ends. -/
def Stops (inside : Char → Bool) (rest : Text) : Prop := ∀ c ∈ rest.head?, inside c = false

@[simp] theorem stops_cons (inside : Char → Bool) (c : Char) (rest : Text) :
    Stops inside (c :: rest) ↔ inside c = false := by
  simp [Stops]

/-- Read the longest front of the given characters. -/
def token (inside : Char → Bool) : Reader Text :=
  fun text => some (text.takeWhile inside, text.dropWhile inside)

/-- A token reads itself. -/
theorem reads_token {inside : Char → Bool} {text : Text} (within : ∀ c ∈ text, inside c = true) :
    Recovers (token inside) text text (Stops inside) := by
  intro rest last
  have nothing : rest.takeWhile inside = [] ∧ rest.dropWhile inside = rest := by
    cases rest with
    | nil => exact ⟨rfl, rfl⟩
    | cons c rest =>
      rw [stops_cons] at last
      simp [last]
  have taken : (text ++ rest).takeWhile inside = text ++ rest.takeWhile inside :=
    List.takeWhile_append_of_pos within
  have dropped : (text ++ rest).dropWhile inside = rest.dropWhile inside :=
    List.dropWhile_append_of_pos within
  rw [token, taken, dropped, nothing.1, nothing.2, List.append_nil]

/-! ## Numbers -/

/-- A number in decimal. -/
def decimal (n : Nat) : Text := Nat.toDigits 10 n

/-- Read a number in decimal. -/
def number : Reader Nat :=
  fun text => some (Nat.ofDigitChars 10 (text.takeWhile Char.isDigit) 0,
    text.dropWhile Char.isDigit)

/-- A decimal number has only digits. -/
theorem isDigit_of_mem_decimal {n : Nat} {c : Char} (member : c ∈ decimal n) : c.isDigit = true :=
  Nat.isDigit_of_mem_toDigits (by decide) (by decide) member

/-- A decimal number has a digit. -/
theorem decimal_ne_nil (n : Nat) : decimal n ≠ [] := Nat.toDigits_ne_nil

/-- A decimal number reads itself. -/
theorem reads_number (n : Nat) : Recovers number (decimal n) n (Stops Char.isDigit) := by
  intro rest last
  have digits := reads_token (fun c => isDigit_of_mem_decimal (n := n) (c := c)) rest last
  rw [token, Option.some.injEq, Prod.mk.injEq] at digits
  have value : Nat.ofDigitChars 10 (decimal n) 0 = n := Nat.ofDigitChars_ten_toDigits
  rw [number, digits.1, digits.2, value]

/-! ## Repetition -/

section Repetition

variable {α β : Type}

/-- Read items as long as another begins, at most a given number of them. -/
def many (again : Text → Bool) (item : Reader α) : Nat → Reader (List α)
  | 0, text => some ([], text)
  | fuel + 1, text =>
    if again text then do
      let (first, text) ← item text
      let (others, text) ← many again item fuel text
      some (first :: others, text)
    else some ([], text)

/-- Read items as long as another begins. -/
def repeated (again : Text → Bool) (item : Reader α) : Reader (List α) :=
  fun text => many again item text.length text

variable {again : Text → Bool} {item : Reader α} {print : β → Text} {value : β → α}
  {follow ends : Text → Prop}

/-- A repetition may be followed by what follows its items. -/
theorem follow_flatMap {vs : List β} (next : ∀ v ∈ vs, ∀ rest, follow (print v ++ rest))
    (last : ∀ rest, ends rest → follow rest) (rest : Text) (after : ends rest) :
    follow (vs.flatMap print ++ rest) := by
  cases vs with
  | nil => exact last rest after
  | cons v vs =>
    rw [List.flatMap_cons, List.append_assoc]
    exact next v List.mem_cons_self _

/-- Items in order are read when there is fuel for each. -/
theorem many_flatMap {vs : List β} (each : ∀ v ∈ vs, Recovers item (print v) (value v) follow)
    (begins : ∀ v ∈ vs, ∀ rest, again (print v ++ rest) = true)
    (next : ∀ v ∈ vs, ∀ rest, follow (print v ++ rest)) (last : ∀ rest, ends rest → follow rest)
    (stops : ∀ rest, ends rest → again rest = false) :
    ∀ fuel rest, vs.length ≤ fuel → ends rest →
      many again item fuel (vs.flatMap print ++ rest) = some (vs.map value, rest) := by
  induction vs with
  | nil =>
    intro fuel rest _ after
    cases fuel with
    | zero => rfl
    | succ fuel =>
      rw [many, List.flatMap_nil, List.nil_append, stops rest after]
      rfl
  | cons v vs inductionHypothesis =>
    intro fuel rest room after
    cases fuel with
    | zero => cases room
    | succ fuel =>
      have later : ∀ w ∈ vs, w ∈ v :: vs := fun w => List.mem_cons_of_mem v
      have first := each v List.mem_cons_self _
        (follow_flatMap (fun w member => next w (later w member)) last rest after)
      have others := inductionHypothesis (fun w member => each w (later w member))
        (fun w member => begins w (later w member)) (fun w member => next w (later w member))
        fuel rest (Nat.le_of_succ_le_succ room) after
      rw [List.flatMap_cons, List.append_assoc, many, begins v List.mem_cons_self, if_pos rfl,
        first]
      simp [others]

/-- A text of nonempty items is at least as long as it has items. -/
theorem length_le_flatMap {vs : List β} (nonempty : ∀ v ∈ vs, print v ≠ []) :
    vs.length ≤ (vs.flatMap print).length := by
  induction vs with
  | nil => exact Nat.zero_le _
  | cons v vs inductionHypothesis =>
    have one : 0 < (print v).length := List.length_pos_iff.mpr (nonempty v List.mem_cons_self)
    have others := inductionHypothesis fun w member => nonempty w (List.mem_cons_of_mem v member)
    rw [List.flatMap_cons, List.length_append, List.length_cons]
    omega

/-- Items in order are read one after the other when each is read, another is seen to begin where
one does, and none is seen to begin in what may follow. -/
theorem reads_repeated {vs : List β} (each : ∀ v ∈ vs, Recovers item (print v) (value v) follow)
    (begins : ∀ v ∈ vs, ∀ rest, again (print v ++ rest) = true)
    (next : ∀ v ∈ vs, ∀ rest, follow (print v ++ rest)) (last : ∀ rest, ends rest → follow rest)
    (stops : ∀ rest, ends rest → again rest = false) (nonempty : ∀ v ∈ vs, print v ≠ []) :
    Recovers (repeated again item) (vs.flatMap print) (vs.map value) ends := by
  intro rest after
  refine many_flatMap each begins next last stops _ rest ?_ after
  have size := length_le_flatMap nonempty
  rw [List.length_append]
  omega

end Repetition

/-! ## Lists -/

section Lists

variable {α β : Type}

/-- Read items as long as a separator comes before one. -/
def after (sep : Text) (item : Reader α) : Reader (List α) :=
  repeated (fun text => (literal sep text).isSome) fun text => (literal sep text).bind item

/-- Items with a separator before each read themselves. -/
theorem reads_after {sep : Text} {item : Reader α} {print : β → Text} {value : β → α}
    {follow ends : Text → Prop} {vs : List β}
    (each : ∀ v ∈ vs, Recovers item (print v) (value v) follow)
    (next : ∀ rest, follow (sep ++ rest))
    (last : ∀ rest, ends rest → follow rest)
    (stops : ∀ rest, ends rest → literal sep rest = none) (nonempty : sep ≠ []) :
    Recovers (after sep item) (vs.flatMap fun v => sep ++ print v) (vs.map value) ends := by
  have single : ∀ v ∈ vs, Recovers (fun text => (literal sep text).bind item) (sep ++ print v)
      (value v) follow := by
    intro v member rest later
    show (literal sep _).bind item = _
    rw [List.append_assoc, literal_append]
    exact each v member rest later
  refine reads_repeated single ?_ ?_ last ?_ ?_
  · intro v _ rest
    rw [List.append_assoc, literal_append]
    rfl
  · intro v _ rest
    rw [List.append_assoc]
    exact next _
  · intro rest later
    rw [stops rest later]
    rfl
  · intro v _ nothing
    exact nonempty (List.append_eq_nil_iff.mp nothing).1

/-- Read an item and the items after separators. -/
def separated (sep : Text) (item : Reader α) : Reader (α × List α) := fun text => do
  let (first, text) ← item text
  let (others, text) ← after sep item text
  some ((first, others), text)

/-- Separated items read themselves. -/
theorem reads_separated {sep : Text} {item : Reader α} {print : β → Text} {value : β → α}
    {follow ends : Text → Prop} {head : β} {rest : List β}
    (each : ∀ v ∈ head :: rest, Recovers item (print v) (value v) follow)
    (next : ∀ text, follow (sep ++ text)) (last : ∀ text, ends text → follow text)
    (stops : ∀ text, ends text → literal sep text = none) (nonempty : sep ≠ []) :
    Recovers (separated sep item) (print head ++ rest.flatMap fun v => sep ++ print v)
      (value head, rest.map value) ends := by
  intro text later
  have others := reads_after (fun v member => each v (List.mem_cons_of_mem _ member)) next last
    stops nonempty text later
  have follows : follow ((rest.flatMap fun v => sep ++ print v) ++ text) := by
    refine follow_flatMap ?_ last text later
    intro v _ text
    rw [List.append_assoc]
    exact next _
  have first := each head List.mem_cons_self _ follows
  rw [List.append_assoc, separated, first]
  simp only [Option.bind_eq_bind, Option.bind_some, others]

/-- Texts in order with a separator between them. -/
def joined (sep : Text) : List Text → Text
  | [] => []
  | head :: rest => head ++ rest.flatMap (sep ++ ·)

/-- Read items with a separator between them up to a closing character. -/
def readJoined (sep : Text) (close : Char) (item : Reader α) : Reader (List α)
  | [] => none
  | c :: text =>
    if c = close then some ([], text)
    else do
      let ((first, others), text) ← separated sep item (c :: text)
      let text ← literal [close] text
      some (first :: others, text)

/-- A closed list reads itself. -/
theorem reads_joined {sep : Text} {close : Char} {item : Reader α} {print : β → Text}
    {value : β → α} {follow : Text → Prop} {vs : List β}
    (each : ∀ v ∈ vs, Recovers item (print v) (value v) follow)
    (next : ∀ rest, follow (sep ++ rest)) (last : ∀ rest, follow (close :: rest))
    (apart : ∀ rest, literal sep (close :: rest) = none) (nonempty : sep ≠ [])
    (opens : ∀ v ∈ vs, ∃ c text, print v = c :: text ∧ c ≠ close) :
    Recovers (readJoined sep close item) (joined sep (vs.map print) ++ [close]) (vs.map value)
      fun _ => True := by
  intro rest _
  cases vs with
  | nil => simp [joined, readJoined]
  | cons v vs =>
    have closes : ∀ text, text = close :: rest → follow text := fun _ same => same ▸ last rest
    have items := reads_separated each next closes (fun _ same => same ▸ apart rest) nonempty
      (close :: rest) rfl
    obtain ⟨c, text, printed, differs⟩ := opens v List.mem_cons_self
    rw [printed, List.cons_append, List.cons_append] at items
    simp only [List.map_cons, joined, List.flatMap_map, List.append_assoc, printed,
      List.cons_append, readJoined, if_neg differs, List.nil_append]
    rw [List.append_assoc] at items
    simp only [items, Option.bind_eq_bind, Option.bind_some, literal_cons, if_true, literal_nil]

end Lists

end Reading
