import Mathlib.Data.List.Basic

/-!
# UTF-8 windows

The incremental check of UTF-8: between two bytes it keeps how many bytes of a sequence are still to
come and the range the next one has to be in. The encoding of every text is accepted, and a byte
within ASCII stands only between two sequences.
-/

namespace Fai.Utf8

/-- The bytes that follow a leading byte beyond ASCII, or zero where none is one. -/
def following (code : Int) : Int :=
  if 194 ≤ code ∧ code ≤ 223 then 1
  else if 224 ≤ code ∧ code ≤ 239 then 2
  else if 240 ≤ code ∧ code ≤ 244 then 3
  else 0

/-- The least byte after a leading byte. -/
def lowest (code : Int) : Int := if code = 224 then 160 else if code = 240 then 144 else 128

/-- The greatest byte after a leading byte. -/
def highest (code : Int) : Int := if code = 237 then 159 else if code = 244 then 143 else 191

/-- The state of the check between two bytes. -/
structure Window where
  /-- The bytes still to come. -/
  remaining : Int
  /-- The least next one. -/
  low : Int
  /-- The greatest next one. -/
  high : Int
  deriving DecidableEq

/-- The check between two sequences. -/
def Window.start : Window := ⟨0, 128, 191⟩

/-- Checks a byte. -/
def Window.step (window : Window) (byte : UInt8) : Option Window :=
  let code : Int := byte.toNat
  if 0 < window.remaining then
    if code < window.low ∨ window.high < code then none
    else some ⟨window.remaining - 1, 128, 191⟩
  else if code ≤ 127 then some window
  else if following code = 0 then none
  else some ⟨following code, lowest code, highest code⟩

/-- Checks bytes in order. -/
def Window.run (window : Window) (bytes : List UInt8) : Option Window :=
  bytes.foldlM Window.step window

/-- The encoding of a text. -/
def encode (text : List Char) : List UInt8 := text.flatMap String.utf8EncodeChar

/-- A check of a first byte and of those after it. -/
theorem Window.run_cons (window : Window) (byte : UInt8) (bytes : List UInt8) :
    window.run (byte :: bytes) = (window.step byte).bind fun window => window.run bytes := rfl

/-- A check of two parts. -/
theorem Window.run_append (window : Window) (front back : List UInt8) :
    window.run (front ++ back) = (window.run front).bind fun window => window.run back := by
  simp only [Window.run, List.foldlM_append]
  rfl

/-- A byte within ASCII stands between two sequences, where it changes nothing. -/
theorem Window.step_ascii {window next : Window} {byte : UInt8} (ascii : byte.toNat ≤ 127)
    (bounded : 128 ≤ window.low) (accepted : window.step byte = some next) :
    ¬ 0 < window.remaining ∧ next = window := by
  have small : (byte.toNat : Int) ≤ 127 := by omega
  simp only [Window.step] at accepted
  by_cases inside : 0 < window.remaining
  · rw [if_pos inside, if_pos (Or.inl (by omega))] at accepted
    cases accepted
  · rw [if_neg inside, if_pos small, Option.some.injEq] at accepted
    exact ⟨inside, accepted.symm⟩

/-- The lower bound of a next byte is beyond ASCII. -/
theorem Window.step_low {window next : Window} {byte : UInt8} (bounded : 128 ≤ window.low)
    (accepted : window.step byte = some next) : 128 ≤ next.low := by
  simp only [Window.step] at accepted
  split at accepted
  · split at accepted
    · cases accepted
    · cases accepted
      exact Int.le_refl 128
  split at accepted
  · cases accepted
    exact bounded
  split at accepted
  · cases accepted
  · cases accepted
    simp only [lowest]
    split_ifs <;> omega

/-- A byte in the range of the window continues the sequence. -/
theorem Window.step_following {window : Window} {byte : UInt8} (inside : 0 < window.remaining)
    (low : window.low ≤ byte.toNat) (high : (byte.toNat : Int) ≤ window.high) :
    window.step byte = some ⟨window.remaining - 1, 128, 191⟩ := by
  have range : ¬ ((byte.toNat : Int) < window.low ∨ window.high < byte.toNat) := by omega
  simp only [Window.step, if_pos inside, if_neg range]

/-- A byte beyond ASCII between two sequences begins one. -/
theorem Window.step_leading {byte : UInt8} (beyond : 127 < byte.toNat)
    (leads : following byte.toNat ≠ 0) :
    Window.start.step byte =
      some ⟨following byte.toNat, lowest byte.toNat, highest byte.toNat⟩ := by
  have large : ¬ (byte.toNat : Int) ≤ 127 := by omega
  have between : ¬ 0 < Window.start.remaining := by decide
  simp only [Window.step, if_neg between, if_neg large, if_neg leads]

/-- Continuations are accepted when as many are to come. -/
theorem Window.run_following (bytes : List UInt8)
    (continued : ∀ byte ∈ bytes, 128 ≤ byte.toNat ∧ byte.toNat ≤ 191) :
    Window.run ⟨bytes.length, 128, 191⟩ bytes = some .start := by
  induction bytes with
  | nil => rfl
  | cons byte bytes hypothesis =>
    have range := continued byte List.mem_cons_self
    have step : Window.step ⟨(byte :: bytes).length, 128, 191⟩ byte =
        some ⟨bytes.length, 128, 191⟩ := by
      rw [Window.step_following] <;> simp <;> omega
    rw [Window.run_cons, step]
    exact hypothesis fun byte member => continued byte (List.mem_cons_of_mem _ member)

/-- A leading byte and its continuations are accepted. -/
theorem Window.run_sequence {lead first : UInt8} {rest : List UInt8} (beyond : 127 < lead.toNat)
    (leads : following lead.toNat = rest.length + 1) (low : lowest lead.toNat ≤ first.toNat)
    (high : (first.toNat : Int) ≤ highest lead.toNat)
    (continued : ∀ byte ∈ rest, 128 ≤ byte.toNat ∧ byte.toNat ≤ 191) :
    Window.start.run (lead :: first :: rest) = some .start := by
  have leading := Window.step_leading beyond (by omega)
  rw [leads] at leading
  have inside : 0 < (Window.mk (rest.length + 1) (lowest lead.toNat)
      (highest lead.toNat)).remaining := by
    simp only
    omega
  have second := Window.step_following inside low high
  simp only [Int.add_sub_cancel] at second
  rw [Window.run_cons, leading, Option.bind_some, Window.run_cons, second]
  exact Window.run_following rest continued

/-- The encoding of a character is accepted. -/
theorem Window.run_char (char : Char) :
    Window.start.run (String.utf8EncodeChar char) = some .start := by
  have valid := char.valid
  simp only [UInt32.isValidChar, Nat.isValidChar] at valid
  simp only [String.utf8EncodeChar]
  generalize char.val.toNat = code at valid
  have exact_byte : ∀ n, n < 256 → (UInt8.ofNat n).toNat = n := fun n small => by
    rw [UInt8.toNat_ofNat']
    omega
  split_ifs with one two three
  · simp [Window.run, Window.step, Window.start, exact_byte code (by omega)]
    omega
  · refine Window.run_sequence ?_ ?_ ?_ ?_ (by simp) <;>
      simp only [exact_byte (code / 64 % 32 + 192) (by omega),
        exact_byte (code % 64 + 128) (by omega), following, lowest, highest, List.length_nil]
    · omega
    · rw [if_pos (by omega)]
      rfl
    · split_ifs <;> omega
    · split_ifs <;> omega
  · refine Window.run_sequence ?_ ?_ ?_ ?_ ?_ <;>
      simp only [exact_byte (code / 4096 % 16 + 224) (by omega),
        exact_byte (code / 64 % 64 + 128) (by omega), following, lowest, highest,
        List.length_cons, List.length_nil, List.mem_singleton, forall_eq,
        exact_byte (code % 64 + 128) (by omega)]
    · omega
    · rw [if_neg (by omega), if_pos (by omega)]
      rfl
    · split_ifs <;> omega
    · split_ifs <;> omega
    · omega
  · refine Window.run_sequence ?_ ?_ ?_ ?_ ?_ <;>
      simp only [exact_byte (code / 262144 % 8 + 240) (by omega),
        exact_byte (code / 4096 % 64 + 128) (by omega), following, lowest, highest,
        List.length_cons, List.length_nil, List.mem_cons, List.not_mem_nil, or_false,
        forall_eq_or_imp, forall_eq, exact_byte (code % 64 + 128) (by omega),
        exact_byte (code / 64 % 64 + 128) (by omega)]
    · omega
    · rw [if_neg (by omega), if_neg (by omega), if_pos (by omega)]
      rfl
    · split_ifs <;> omega
    · split_ifs <;> omega
    · omega

/-- The encoding of a text is accepted. -/
theorem Window.run_encode (text : List Char) : Window.start.run (encode text) = some .start := by
  induction text with
  | nil => rfl
  | cons char text hypothesis =>
    rw [encode, List.flatMap_cons, Window.run_append, Window.run_char]
    exact hypothesis

end Fai.Utf8
