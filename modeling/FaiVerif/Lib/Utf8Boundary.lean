import FaiVerif.Lib.Spans
import FaiVerif.Lib.Utf8Bytes
import Mathlib.Data.List.GetD

/-!
# Character boundaries of encoded text

A position of an encoded text is between two characters, or at an end, when no continuation byte
stands there. Between two such positions stands an encoded text, whose characters are as many as
its bytes that continue nothing.
-/

namespace Fai.Utf8

/-- Whether a byte continues a sequence, by its two leading bits. -/
def continuation (byte : UInt8) : Bool := byte &&& 0xc0 == 0x80

/-- The bytes that begin a character. -/
def scalars (bytes : List UInt8) : Nat := bytes.countP fun byte => !continuation byte

instance (byte : UInt8) : Decidable (Continues byte) := inferInstanceAs (Decidable (_ ∧ _))

/-- The two leading bits of a byte tell whether it continues a sequence. -/
theorem continuation_iff (byte : UInt8) : continuation byte = true ↔ Continues byte := by
  have each : ∀ n < 256, continuation (UInt8.ofNat n) = true ↔ Continues (UInt8.ofNat n) := by
    decide +kernel
  have here := each byte.toNat byte.toNat_lt
  rwa [UInt8.ofNat_toNat] at here

/-- A character begins with a byte that continues nothing, and goes on with bytes that do. -/
theorem utf8EncodeChar_shape (char : Char) : ∃ lead rest,
    String.utf8EncodeChar char = lead :: rest ∧ continuation lead = false ∧
      ∀ byte ∈ rest, continuation byte = true := by
  have sequence := sequence_char char
  have lone {byte : UInt8} (low : byte.toNat ≤ 127 ∨ 192 ≤ byte.toNat) :
      continuation byte = false := by
    rw [Bool.eq_false_iff, Ne, continuation_iff, Continues]
    omega
  have later {byte : UInt8} (low : 128 ≤ byte.toNat) (high : byte.toNat ≤ 191) :
      continuation byte = true := (continuation_iff byte).mpr ⟨low, high⟩
  generalize String.utf8EncodeChar char = bytes at sequence
  rcases bytes with _ | ⟨a, _ | ⟨b, _ | ⟨c, _ | ⟨d, _ | ⟨e, rest⟩⟩⟩⟩⟩
  · exact absurd sequence id
  · exact ⟨a, [], rfl, lone (Or.inl sequence), by simp⟩
  · obtain ⟨lead, second⟩ := sequence
    refine ⟨a, [b], rfl, lone (by omega), ?_⟩
    simp only [List.mem_singleton, forall_eq]
    exact later second.1 second.2
  · obtain ⟨lead, third⟩ := sequence
    simp only [Continues] at lead
    refine ⟨a, [b, c], rfl, lone (by omega), ?_⟩
    simp only [List.mem_cons, List.not_mem_nil, or_false, forall_eq_or_imp, forall_eq]
    exact ⟨later (by omega) (by omega), later third.1 third.2⟩
  · obtain ⟨lead, third, fourth⟩ := sequence
    simp only [Continues] at lead
    refine ⟨a, [b, c, d], rfl, lone (by omega), ?_⟩
    simp only [List.mem_cons, List.not_mem_nil, or_false, forall_eq_or_imp, forall_eq]
    exact ⟨later (by omega) (by omega), later third.1 third.2, later fourth.1 fourth.2⟩
  · exact absurd sequence id

/-- Encoded characters are counted by the bytes that begin them. -/
theorem scalars_encode (text : List Char) : scalars (encode text) = text.length := by
  induction text with
  | nil => rfl
  | cons char text hypothesis =>
    obtain ⟨lead, rest, shape, begins, continues⟩ := utf8EncodeChar_shape char
    have none_begins : rest.countP (fun byte => !continuation byte) = 0 :=
      List.countP_eq_zero.mpr fun byte member => by simp [continues byte member]
    rw [scalars] at hypothesis ⊢
    rw [encode_cons, shape, List.countP_append, hypothesis, List.countP_cons, none_begins, begins,
      List.length_cons, Nat.add_comm]
    rfl

/-- A text is cut in two at an offset. -/
def Cut (text : List Char) (i : Nat) (front back : List Char) : Prop :=
  text = front ++ back ∧ i = (encode front).length

/-- Whether a position of bytes is their end, or a byte that continues nothing. -/
def boundary (bytes : List UInt8) (i : Nat) : Bool :=
  i == bytes.length || (decide (i < bytes.length) && !continuation (bytes.getD i 0))

/-- A boundary is the end, or a byte that continues nothing. -/
theorem boundary_iff {bytes : List UInt8} {i : Nat} : boundary bytes i = true ↔
    i = bytes.length ∨ i < bytes.length ∧ continuation (bytes.getD i 0) = false := by
  simp [boundary]

/-- The boundaries of an encoded text are where it is cut in two. -/
theorem boundary_encode {text : List Char} {i : Nat} :
    boundary (encode text) i = true ↔ ∃ front back, Cut text i front back := by
  rw [boundary_iff]
  induction text generalizing i with
  | nil =>
    simp only [encode_nil, List.length_nil, Nat.not_lt_zero, false_and, or_false]
    constructor
    · rintro rfl
      exact ⟨[], [], rfl, rfl⟩
    · rintro ⟨front, back, whole, rfl⟩
      rw [(List.append_eq_nil_iff.mp whole.symm).1]
      rfl
  | cons char text hypothesis =>
    obtain ⟨lead, rest, shape, begins, continues⟩ := utf8EncodeChar_shape char
    have total : (encode (char :: text)).length =
        (String.utf8EncodeChar char).length + (encode text).length := by
      rw [encode_cons, List.length_append]
    have size : (String.utf8EncodeChar char).length = rest.length + 1 := by
      rw [shape, List.length_cons]
    rcases Nat.lt_trichotomy i 0 with none | rfl | some_byte
    · exact absurd none (Nat.not_lt_zero i)
    · constructor
      · exact fun _ => ⟨[], char :: text, rfl, rfl⟩
      · intro _
        refine Or.inr ⟨by omega, ?_⟩
        rw [encode_cons, shape, List.cons_append, List.getD_cons_zero]
        exact begins
    by_cases inside : i < (String.utf8EncodeChar char).length
    · -- within the first character there is neither a boundary nor a cut
      obtain ⟨j, rfl⟩ := Nat.exists_eq_succ_of_ne_zero (Nat.ne_of_gt some_byte)
      have stop : continuation ((encode (char :: text)).getD (j + 1) 0) = true := by
        rw [encode_cons, shape, List.cons_append, List.getD_cons_succ,
          List.getD_append _ _ _ _ (by omega), List.getD_eq_getElem _ _ (by omega)]
        exact continues _ (List.getElem_mem _)
      rw [stop]
      constructor
      · rintro (final | ⟨-, impossible⟩)
        · omega
        · cases impossible
      · rintro ⟨front, back, whole, place⟩
        cases front with
        | nil => cases place
        | cons c front =>
          rw [List.cons_append, List.cons.injEq] at whole
          rw [encode_cons, List.length_append, ← whole.1] at place
          omega
    · obtain ⟨j, rfl⟩ := Nat.exists_eq_add_of_le (Nat.le_of_not_lt inside)
      have later : (encode (char :: text)).getD ((String.utf8EncodeChar char).length + j) 0 =
          (encode text).getD j 0 := by
        rw [encode_cons, List.getD_append_right _ _ _ _ (by omega), Nat.add_sub_cancel_left]
      rw [later, total, Nat.add_right_inj, Nat.add_lt_add_iff_left, hypothesis]
      constructor
      · rintro ⟨front, back, rfl, rfl⟩
        exact ⟨char :: front, back, rfl, by rw [encode_cons, List.length_append]⟩
      · rintro ⟨front, back, whole, place⟩
        cases front with
        | nil =>
          rw [encode_nil, List.length_nil] at place
          omega
        | cons c front =>
          rw [List.cons_append, List.cons.injEq] at whole
          obtain ⟨rfl, rest_whole⟩ := whole
          rw [encode_cons, List.length_append] at place
          exact ⟨front, back, rest_whole, by omega⟩

namespace Cut

variable {text front back front' back' middle : List Char} {i j : Nat}

/-- A cut lies inside the encoding. -/
theorem le (cut : Cut text i front back) : i ≤ (encode text).length := by
  obtain ⟨rfl, rfl⟩ := cut
  rw [encode_append, List.length_append]
  omega

/-- A later cut goes on from an earlier one. -/
theorem between (one : Cut text i front back) (other : Cut text j front' back') (order : i ≤ j) :
    ∃ middle, front' = front ++ middle ∧ back = middle ++ back' ∧
      Spans.slice i j (encode text) = encode middle := by
  obtain ⟨middle, ahead, behind⟩ : ∃ middle, front' = front ++ middle ∧ back = middle ++ back' := by
    rcases List.append_eq_append_iff.mp (one.1.symm.trans other.1) with
      ⟨middle, ahead, behind⟩ | ⟨middle, ahead, behind⟩
    · exact ⟨middle, ahead, behind⟩
    · have none_between : middle = [] := by
        cases middle with
        | nil => rfl
        | cons char more =>
          have bytes := length_encode_cons_pos char more
          have first := one.2
          have second := other.2
          rw [ahead, encode_append, List.length_append] at first
          omega
      subst none_between
      exact ⟨[], by simpa using ahead.symm, by simpa using behind.symm⟩
  refine ⟨middle, ahead, behind, ?_⟩
  have first := one.2
  have second := other.2
  rw [ahead, encode_append, List.length_append] at second
  rw [Spans.slice, one.1, behind, encode_append, encode_append, List.drop_left' first.symm,
    List.take_left' (by omega)]

end Cut

end Fai.Utf8
