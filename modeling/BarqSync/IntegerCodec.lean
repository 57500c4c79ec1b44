/-
The variable-length integers of the changeset format
(`integer_codec.hpp`).

# Spelling

A number is written in groups of seven bits, the lowest first, with the
high bit set in every byte but the last, which has six bits of the number
and the sign (`Spells`). Both encoders write such a spelling. The decoders
read it back whatever comes behind it, so no encoding is the beginning of
another one.

# Words

The words of a coefficient are natural numbers below `2 ^ 64`; a shift to
the left drops what does not fit.
-/
import Mathlib.Tactic.Ring
import BarqSync.Instructions

namespace BarqSync.IntegerCodec

-- ===== the codec

/-- An integer type with its value bits (`std::numeric_limits<T>`):
`int64_t` is `⟨true, 63⟩`, and `uint8_t` is `⟨false, 8⟩`. -/
structure IntType where
  signed : Bool
  digits : ℕ

namespace IntType

variable (T : IntType)

def min : ℤ := if T.signed then -2 ^ T.digits else 0

/-- The number is a value of the type. -/
def Holds (value : ℤ) : Prop := T.min ≤ value ∧ value < 2 ^ T.digits

/-- `encode_int_max_bytes`. -/
def maxBytes : ℕ := (1 + T.digits + (7 - 1)) / 7

end IntType

/-- The loop of `encode_int`, for at most so many turns. -/
def encodeGroups : ℕ → ℕ → Bytes × ℕ
  | 0, value => ([], value)
  | turns + 1, value =>
    if value >>> 6 = 0 then ([], value)
    else
      let rest := encodeGroups turns (value >>> 7)
      ((1 <<< 7 ||| value &&& 0x7F).toUInt8 :: rest.1, rest.2)

/-- `encode_int`. -/
def encodeInt (T : IntType) (value : ℤ) : Bytes :=
  let negative := T.signed && decide (value < 0)
  let out := encodeGroups T.maxBytes
    (if negative then -(value + 1) else value).toNat
  out.1 ++
    [if negative then (1 <<< 6 ||| out.2).toUInt8 else out.2.toUInt8]

/-- The loop of `decode_int`, from the byte `i` on: the bits, the last
byte and the rest of the input. -/
def decodeGroups (T : IntType) (i value : ℕ) :
    Bytes → Option (ℕ × ℕ × Bytes)
  | [] => none
  | c :: input =>
    let part := c.toNat
    if part &&& 0x80 = 0 then
      let p := part &&& 0x3F
      if (2 ^ T.digits - 1) >>> (i * 7) < p then none
      else some (value ||| p <<< (i * 7), part, input)
    else if i = T.maxBytes - 1 then none
    else
      decodeGroups T (i + 1) (value ||| (part &&& 0x7F) <<< (i * 7)) input

/-- `decode_int`. -/
def decodeInt (T : IntType) (input : Bytes) : Option (ℤ × Bytes) :=
  (decodeGroups T 0 0 input).bind fun (value, part, rest) =>
    if part &&& 0x40 = 0 then some (value, rest)
    else
      -- an unsigned number is negated modulo its range
      let negated : ℤ :=
        if T.signed then -value else -value % 2 ^ T.digits
      if negated - 1 < T.min then none else some (negated - 1, rest)

/-- `encode_int` of a coefficient. -/
def encodeWords (value0 value1 : ℕ) : Bytes :=
  if value0 >>> 6 ≠ 0 ∨ value1 ≠ 0 then
    (1 <<< 7 ||| value0 &&& 0x7F).toUInt8
      :: encodeWords
        (value0 >>> 7 ||| (value1 &&& 0x7F) <<< 57 % 2 ^ 64) (value1 >>> 7)
  else [value0.toUInt8]
termination_by (value1, value0)
decreasing_by
  rename_i h
  simp only [Nat.shiftRight_eq_div_pow] at h ⊢
  rcases Nat.eq_zero_or_pos value1 with rfl | hpos
  · apply Prod.Lex.right'
    · simp
    · simp
      omega
  · apply Prod.Lex.left
    omega

/-- The words after the bits of the byte `i`. -/
def addPart (i part : ℕ) (words : ℕ × ℕ) : ℕ × ℕ :=
  if i < 9 then (words.1 ||| part <<< (7 * i) % 2 ^ 64, words.2)
  else if i = 9 then
    (words.1 ||| part <<< 63 % 2 ^ 64, words.2 ||| part >>> 1)
  else (words.1, words.2 ||| part <<< (7 * i - 64) % 2 ^ 64)

/-- `decode_int` of a coefficient, from the byte `i` on. -/
def decodeWords (i : ℕ) (words : ℕ × ℕ) :
    Bytes → Option ((ℕ × ℕ) × Bytes)
  | [] => none
  | c :: input =>
    if 17 ≤ i then none
    else
      let words := addPart i (c.toNat &&& 0x7F) words
      if c.toNat &&& 0x80 = 0 then some (words, input)
      else decodeWords (i + 1) words input

-- ===== spellings

/-- The bytes of a number and its sign. -/
inductive Spells (negative : Bool) : ℕ → Bytes → Prop
  | last {n : ℕ} (h : n < 64) :
    Spells negative n [(n + if negative then 64 else 0).toUInt8]
  | more {n : ℕ} {bs : Bytes} (h : 64 ≤ n)
    (hrest : Spells negative (n / 128) bs) :
    Spells negative n ((n % 128 + 128).toUInt8 :: bs)

variable {negative : Bool} {n k i value : ℕ} {bs rest : Bytes}

theorem next_lt (hn : n < 2 ^ (7 * (k + 1) + 6)) :
    n / 128 < 2 ^ (7 * k + 6) := by
  have hpow : 2 ^ (7 * (k + 1) + 6) = 2 ^ (7 * k + 6) * 128 := by
    rw [show 7 * (k + 1) + 6 = 7 * k + 6 + 7 by omega, pow_add]
    rfl
  rw [Nat.div_lt_iff_lt_mul (by decide), ← hpow]
  exact hn

theorem Spells.length_le (h : Spells negative n bs)
    (hn : n < 2 ^ (7 * k + 6)) : bs.length ≤ k + 1 := by
  induction h generalizing k with
  | last => simp
  | more h _ ih =>
    obtain _ | k := k
    · simp only [Nat.mul_zero, Nat.zero_add] at hn
      omega
    · have := ih (next_lt hn)
      simp only [List.length_cons]
      omega

/-- The bits of a byte that is followed by others. -/
theorem group_eq (n : ℕ) :
    (1 <<< 7 ||| n &&& 0x7F).toUInt8 = (n % 128 + 128).toUInt8 := by
  rw [show n &&& 0x7F = n % 128 from Nat.and_two_pow_sub_one_eq_mod n 7,
    show 1 <<< 7 = 2 ^ 7 * 1 from rfl, ← Nat.two_pow_add_eq_or_of_lt
      (Nat.mod_lt n (by decide)) 1, Nat.add_comm]

theorem spells_encodeGroups (hn : n < 2 ^ (7 * k + 6)) :
    Spells negative n ((encodeGroups k n).1
      ++ [((encodeGroups k n).2 + if negative then 64 else 0).toUInt8])
    ∧ (encodeGroups k n).2 < 64 := by
  induction k generalizing n with
  | zero => exact ⟨.last hn, hn⟩
  | succ k ih =>
    have hshift : n >>> 6 = n / 64 := Nat.shiftRight_eq_div_pow n 6
    have hnext : n >>> 7 = n / 128 := Nat.shiftRight_eq_div_pow n 7
    rw [encodeGroups, hshift, hnext]
    by_cases h : n / 64 = 0
    · rw [if_pos h]
      exact ⟨.last (by omega), by simp only; omega⟩
    · rw [if_neg h]
      simp only [group_eq, List.cons_append]
      obtain ⟨hspells, hlast⟩ := ih (next_lt hn)
      exact ⟨.more (by omega) hspells, hlast⟩

-- ===== decoding

/-- What is read off the last byte, and off the others. -/
theorem last_byte : ∀ n < 64, ∀ negative : Bool,
    (n + if negative then 64 else 0).toUInt8.toNat &&& 0x80 = 0
    ∧ (n + if negative then 64 else 0).toUInt8.toNat &&& 0x3F = n
    ∧ ((n + if negative then 64 else 0).toUInt8.toNat &&& 0x40 = 0
      ↔ negative = false) := by
  decide

theorem group_byte : ∀ n < 128, (n + 128).toUInt8.toNat &&& 0x80 ≠ 0
    ∧ (n + 128).toUInt8.toNat &&& 0x7F = n := by
  decide

/-- Bits above those of a number are added to it. -/
theorem or_shift (h : value < 2 ^ k) :
    value ||| n <<< k = value + n * 2 ^ k := by
  rw [Nat.or_comm, ← Nat.shiftLeft_add_eq_or_of_lt h, Nat.shiftLeft_eq,
    Nat.add_comm]

/-- A group and the number above it. -/
theorem group_add (n a : ℕ) :
    n % 128 * a + n / 128 * (a * 128) = n * a := by
  calc n % 128 * a + n / 128 * (a * 128)
      = (n % 128 + 128 * (n / 128)) * a := by ring
    _ = n * a := by rw [Nat.mod_add_div]

theorem Spells.decodeGroups {T : IntType} (h : Spells negative n bs)
    (hvalue : value < 2 ^ (i * 7))
    (hfits : n * 2 ^ (i * 7) < 2 ^ T.digits) :
    ∃ part, decodeGroups T i value (bs ++ rest)
        = some (value + n * 2 ^ (i * 7), part, rest)
      ∧ (part &&& 0x40 = 0 ↔ negative = false) := by
  induction h generalizing i value with
  | @last n hn =>
    obtain ⟨hhigh, hbits, hsign⟩ := last_byte n hn negative
    refine ⟨_, ?_, hsign⟩
    have hshift : ¬ (2 ^ T.digits - 1) >>> (i * 7) < n := by
      rw [Nat.shiftRight_eq_div_pow, not_lt,
        Nat.le_div_iff_mul_le (Nat.two_pow_pos _)]
      omega
    rw [List.singleton_append, IntegerCodec.decodeGroups]
    simp only [hhigh, hbits, if_true, hshift, if_false, or_shift hvalue]
  | @more n bs hn _ ih =>
    obtain ⟨hhigh, hbits⟩ := group_byte (n % 128) (by omega)
    have hpow : 2 ^ ((i + 1) * 7) = 2 ^ (i * 7) * 128 := by
      rw [Nat.succ_mul, pow_add]
      rfl
    have hsum := group_add n (2 ^ (i * 7))
    have hi : i ≠ T.maxBytes - 1 := by
      have hlt : 2 ^ (i * 7 + 6) < 2 ^ T.digits := by
        refine lt_of_le_of_lt ?_ hfits
        rw [pow_add, Nat.mul_comm]
        exact Nat.mul_le_mul_right _ hn
      have := (Nat.pow_lt_pow_iff_right (by decide)).1 hlt
      simp only [IntType.maxBytes]
      omega
    have hgroup : n % 128 * 2 ^ (i * 7) ≤ 127 * 2 ^ (i * 7) :=
      Nat.mul_le_mul_right _ (by omega)
    obtain ⟨part, hdecode, hsign⟩ := @ih (i + 1)
      (value + n % 128 * 2 ^ (i * 7)) (by rw [hpow]; omega)
      (by rw [hpow]; omega)
    refine ⟨part, ?_, hsign⟩
    rw [List.cons_append, IntegerCodec.decodeGroups]
    simp only [hhigh, hbits, if_false, hi, or_shift hvalue]
    rw [hdecode, hpow, Nat.add_assoc, hsum]

section Words

variable {words : ℕ × ℕ} (hword : words.1 < 2 ^ 64)
  (hvalue : words.1 + 2 ^ 64 * words.2 < 2 ^ (7 * i))

include hword hvalue

/-- The bits of a byte are added above those that are there, also where
they go to both words. -/
theorem addPart_value (hi : i < 17) (hn : n < 128) :
    (addPart i n words).1 < 2 ^ 64
      ∧ (addPart i n words).1 + 2 ^ 64 * (addPart i n words).2
        = words.1 + 2 ^ 64 * words.2 + n * 2 ^ (7 * i) := by
  have hbits : ∀ a, n * a ≤ 127 * a :=
    fun a => Nat.mul_le_mul_right a (by omega)
  rcases lt_trichotomy i 9 with h | rfl | h
  · have hpow : 2 ^ (7 * i) ≤ 2 ^ 56 :=
      Nat.pow_le_pow_right (by decide) (by omega)
    have := hbits (2 ^ (7 * i))
    rw [addPart, if_pos h, Nat.mod_eq_of_lt
      (by rw [Nat.shiftLeft_eq]; omega), or_shift (by omega)]
    simp only
    omega
  · have hlow : n <<< 63 % 2 ^ 64 = (n % 2) <<< 63 := by
      simp only [Nat.shiftLeft_eq]
      omega
    have hhigh : words.2 = 0 := by omega
    rw [addPart, if_neg (by decide), if_pos rfl, hlow, or_shift (by omega),
      hhigh, Nat.zero_or, Nat.shiftRight_eq_div_pow]
    simp only
    omega
  · have hpow : 2 ^ (7 * i) = 2 ^ 64 * 2 ^ (7 * i - 64) := by
      rw [← pow_add]
      congr 1
      omega
    have hle : 2 ^ (7 * i - 64) ≤ 2 ^ 48 :=
      Nat.pow_le_pow_right (by decide) (by omega)
    have := hbits (2 ^ (7 * i - 64))
    rw [addPart, if_neg (by omega), if_neg (by omega), Nat.mod_eq_of_lt
      (by rw [Nat.shiftLeft_eq]; omega), or_shift (by omega), hpow]
    refine ⟨hword, ?_⟩
    simp only
    ring

theorem Spells.decodeWords (h : Spells false n bs)
    (hi : i + bs.length ≤ 17) :
    ∃ words', decodeWords i words (bs ++ rest) = some (words', rest)
      ∧ words'.1 < 2 ^ 64
      ∧ words'.1 + 2 ^ 64 * words'.2
        = words.1 + 2 ^ 64 * words.2 + n * 2 ^ (7 * i) := by
  induction h generalizing i words with
  | @last n hn =>
    obtain ⟨hhigh, -, -⟩ := last_byte n hn false
    have hbyte : ∀ n < 64, n.toUInt8.toNat &&& 0x7F = n := by decide
    simp only [List.length_singleton] at hi
    refine ⟨_, ?_, addPart_value hword hvalue (by omega)
      (show n < 128 by omega)⟩
    rw [List.singleton_append, IntegerCodec.decodeWords, if_neg (by omega)]
    simp only [Bool.false_eq_true, if_false, Nat.add_zero] at hhigh ⊢
    simp only [hhigh, if_true, hbyte n hn]
  | @more n bs hn _ ih =>
    obtain ⟨hhigh, hbits⟩ := group_byte (n % 128) (by omega)
    simp only [List.length_cons] at hi
    obtain ⟨hword', hvalue'⟩ := addPart_value hword hvalue
      (show i < 17 by omega) (show n % 128 < 128 by omega)
    have hpow : 2 ^ (7 * (i + 1)) = 2 ^ (7 * i) * 128 := by
      rw [Nat.mul_succ, pow_add]
      rfl
    have hgroup : n % 128 * 2 ^ (7 * i) ≤ 127 * 2 ^ (7 * i) :=
      Nat.mul_le_mul_right _ (by omega)
    obtain ⟨words', hdecode, hfits, hsum⟩ := ih hword'
      (by rw [hvalue', hpow]; omega) (show i + 1 + bs.length ≤ 17 by omega)
    refine ⟨words', ?_, hfits, ?_⟩
    · rw [List.cons_append, IntegerCodec.decodeWords, if_neg (by omega)]
      simp only [hhigh, hbits, if_false]
      exact hdecode
    · rw [hsum, hvalue', hpow, Nat.add_assoc, group_add]

end Words

-- ===== encodings

/-- The number whose bits are written, with the sign. -/
theorem spells_encodeInt {T : IntType} {value : ℤ} (h : T.Holds value) :
    ∃ negative n, Spells negative n (encodeInt T value)
      ∧ n < 2 ^ T.digits ∧ (negative = true → T.signed = true)
      ∧ value = if negative then -(n : ℤ) - 1 else n := by
  have hlast : ∀ r < 64, (1 <<< 6 ||| r).toUInt8 = (r + 64).toUInt8 := by
    decide
  obtain ⟨hmin, hmax⟩ := h
  rw [IntType.min] at hmin
  have hbytes : 2 ^ T.digits ≤ 2 ^ (7 * T.maxBytes + 6) := by
    refine Nat.pow_le_pow_right (by decide) ?_
    simp only [IntType.maxBytes]
    omega
  by_cases hneg : (T.signed && decide (value < 0)) = true
  · obtain ⟨hsigned, hlt⟩ := (Bool.and_eq_true _ _).mp hneg
    rw [decide_eq_true_eq] at hlt
    rw [if_pos hsigned] at hmin
    have hn : (-(value + 1)).toNat < 2 ^ T.digits := by
      rw [Int.toNat_lt (by omega)]
      push_cast
      omega
    obtain ⟨hspells, hr⟩ := @spells_encodeGroups true _ _
      (lt_of_lt_of_le hn hbytes)
    refine ⟨true, _, ?_, hn, fun _ => hsigned, ?_⟩
    · simpa only [encodeInt, hneg, if_true, hlast _ hr] using hspells
    · simp only [if_true]
      omega
  · have hpos : 0 ≤ value := by
      by_cases hs : T.signed = true
      · simp only [hs, Bool.true_and, decide_eq_true_eq] at hneg
        omega
      · simpa only [if_neg hs] using hmin
    have hn : value.toNat < 2 ^ T.digits := by
      rw [Int.toNat_lt hpos]
      push_cast
      exact hmax
    obtain ⟨hspells, -⟩ := @spells_encodeGroups false _ _
      (lt_of_lt_of_le hn hbytes)
    refine ⟨false, _, ?_, hn, nofun, ?_⟩
    · simpa only [encodeInt, hneg, Bool.false_eq_true, if_false,
        Nat.add_zero] using hspells
    · simp only [Bool.false_eq_true, if_false]
      omega

theorem spells_encodeWords {value0 value1 : ℕ} (h : value0 < 2 ^ 64) :
    Spells false (value0 + 2 ^ 64 * value1)
      (encodeWords value0 value1) := by
  induction value0, value1 using encodeWords.induct with
  | case1 value0 value1 hmore ih =>
    have hlow : value1 &&& 0x7F = value1 % 128 :=
      Nat.and_two_pow_sub_one_eq_mod value1 7
    have hword : value0 >>> 7 ||| (value1 &&& 0x7F) <<< 57 % 2 ^ 64
        = value0 / 128 + value1 % 128 * 2 ^ 57 := by
      rw [hlow, Nat.mod_eq_of_lt (by rw [Nat.shiftLeft_eq]; omega),
        Nat.shiftRight_eq_div_pow, or_shift (by omega)]
    have hnext : (value0 + 2 ^ 64 * value1) / 128
        = value0 / 128 + value1 % 128 * 2 ^ 57
          + 2 ^ 64 * value1 >>> 7 := by
      rw [Nat.shiftRight_eq_div_pow]
      omega
    have hbits : (value0 + 2 ^ 64 * value1) % 128 = value0 % 128 := by
      omega
    rw [encodeWords, if_pos hmore, group_eq, ← hbits]
    rw [Nat.shiftRight_eq_div_pow] at hmore
    refine .more (by omega) ?_
    rw [hnext, ← hword]
    exact ih (by rw [hword]; omega)
  | case2 value0 value1 hlast =>
    rw [encodeWords, if_neg hlast]
    simp only [Nat.shiftRight_eq_div_pow] at hlast
    obtain rfl : value1 = 0 := by omega
    exact .last (by omega)

/-- A spelling that begins another one is that spelling. -/
theorem Spells.eq_of_prefix {negative' : Bool} {n' : ℕ} {bs' : Bytes}
    (h : Spells negative n bs) (h' : Spells negative' n' bs')
    ( hprefix : bs <+: bs') : bs = bs' := by
  induction h generalizing n' bs' with
  | @last n hn =>
    cases h' with
    | last => exact hprefix.eq_of_length rfl
    | @more n' bs' hn' =>
      obtain ⟨heq, -⟩ := List.cons_prefix_cons.1 hprefix
      exact absurd (heq ▸ (last_byte n hn negative).1)
        (group_byte _ (Nat.mod_lt n' (by decide))).1
  | @more n bs hn _ ih =>
    cases h' with
    | @last n' hn' =>
      obtain ⟨heq, -⟩ := List.cons_prefix_cons.1 hprefix
      exact absurd (heq ▸ (last_byte n' hn' negative').1)
        (group_byte _ (Nat.mod_lt n (by decide))).1
    | more _ h' =>
      obtain ⟨heq, hrest⟩ := List.cons_prefix_cons.1 hprefix
      rw [heq, ih h' hrest]

/-- What one of the encoders writes for a value that it is for. -/
def Encoding (bs : Bytes) : Prop :=
  (∃ T value, IntType.Holds T value ∧ bs = encodeInt T value)
    ∨ ∃ value0 value1, value0 < 2 ^ 64 ∧ bs = encodeWords value0 value1

theorem Encoding.spells (h : Encoding bs) :
    ∃ negative n, Spells negative n bs := by
  rcases h with ⟨T, value, hvalue, rfl⟩ | ⟨value0, value1, hword, rfl⟩
  · obtain ⟨negative, n, h, -⟩ := spells_encodeInt hvalue
    exact ⟨negative, n, h⟩
  · exact ⟨false, _, spells_encodeWords hword⟩

/-- Every value of an integer type, and every coefficient below `2 ^ 113`,
is read back from its encoding whatever follows, no encoding has more
bytes than the decoder reads, and none begins another one. -/
theorem integerCodec_exact :
    (∀ T value, IntType.Holds T value →
      (encodeInt T value).length ≤ T.maxBytes
      ∧ ∀ rest, decodeInt T (encodeInt T value ++ rest)
        = some (value, rest))
    ∧ (∀ value0 value1, value0 < 2 ^ 64
      → value0 + 2 ^ 64 * value1 < 2 ^ 113 →
      (encodeWords value0 value1).length ≤ 17
      ∧ ∀ rest, decodeWords 0 (0, 0) (encodeWords value0 value1 ++ rest)
        = some ((value0, value1), rest))
    ∧ ∀ bs bs', Encoding bs → Encoding bs' → bs <+: bs' → bs = bs' := by
  refine ⟨fun T value hvalue => ?_, fun value0 value1 hword hvalue => ?_,
    fun bs bs' h h' hprefix => ?_⟩
  · obtain ⟨negative, n, h, hn, hsigned, hsign⟩ := spells_encodeInt hvalue
    refine ⟨?_, fun rest => ?_⟩
    · have hbytes : T.maxBytes = T.digits / 7 + 1 := by
        simp only [IntType.maxBytes]
        omega
      rw [hbytes]
      exact h.length_le (lt_of_lt_of_le hn
        (Nat.pow_le_pow_right (by decide) (by omega)))
    · obtain ⟨part, hdecode, hpart⟩ := h.decodeGroups (i := 0)
        Nat.one_pos (show n * 1 < 2 ^ T.digits by omega)
      rw [decodeInt, hdecode, Option.bind_some]
      simp only [Nat.zero_mul, pow_zero, Nat.mul_one, Nat.zero_add]
      cases negative with
      | false =>
        rw [if_pos (hpart.2 rfl), hsign]
        rfl
      | true =>
        simp only [if_true] at hsign
        rw [if_neg (fun h => nomatch hpart.1 h)]
        simp only [hsigned rfl, if_true, ← hsign]
        rw [if_neg (not_lt.2 hvalue.1)]
  · have h := @spells_encodeWords value0 value1 hword
    have hlen := h.length_le (k := 16) (hvalue.trans_le
      (Nat.pow_le_pow_right (by decide) (by decide)))
    refine ⟨hlen, fun rest => ?_⟩
    obtain ⟨words, hdecode, hfits, hsum⟩ := @Spells.decodeWords _ 0 _
      rest (0, 0) (by decide) (by decide) h (by omega)
    rw [hdecode]
    simp only [Nat.mul_zero, pow_zero, Nat.mul_one, Nat.zero_add] at hsum
    have hwords : words = (value0, value1) :=
      Prod.ext (by simp only; omega) (by simp only; omega)
    rw [hwords]
  · obtain ⟨_, _, h⟩ := h.spells
    obtain ⟨_, _, h'⟩ := h'.spells
    exact h.eq_of_prefix h' hprefix

end BarqSync.IntegerCodec
