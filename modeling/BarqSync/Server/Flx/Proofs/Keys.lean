/-
When two objects have the same visible object key.

A key is the table's name, a tab, and the primary key spelled with its
type in front. The spelling of a primary key can be read back, so keys
differ whenever the tab that ends the table's name can be told from
others: no table name contains one.
-/
import BarqSync.Server.Flx.Objects
import Mathlib.Data.Nat.Digits.Lemmas

namespace BarqSync.Flx

/-- What stands before and after a separator that occurs in neither of
the first parts. -/
theorem append_cons_inj_of_separator {α : Type*} {a : α} :
    ∀ {xs ys us vs : List α}, a ∉ xs → a ∉ ys →
      xs ++ a :: us = ys ++ a :: vs → xs = ys ∧ us = vs
  | [], [], _, _, _, _, h => ⟨rfl, (List.cons.inj h).2⟩
  | [], y :: ys, _, _, _, hys, h =>
    absurd ((List.cons.inj h).1 ▸ List.mem_cons_self) hys
  | x :: xs, [], _, _, hxs, _, h =>
    absurd ((List.cons.inj h).1 ▸ List.mem_cons_self) hxs
  | x :: xs, y :: ys, us, vs, hxs, hys, h => by
    obtain ⟨hhead, htail⟩ := List.cons.inj h
    obtain ⟨hxy, huv⟩ := append_cons_inj_of_separator
      (fun hmem => hxs (List.mem_cons_of_mem _ hmem))
      (fun hmem => hys (List.mem_cons_of_mem _ hmem)) htail
    exact ⟨by rw [hhead, hxy], huv⟩

-- ===== numbers

/-- A decimal can be read back. -/
theorem ofDigits_decimal (n : Nat) :
    Nat.ofDigits 10 ((decimal n).reverse.map fun c => c.toNat - 48)
      = n := by
  by_cases hn : n = 0
  · subst hn
    rfl
  have hdigits : ((decimal n).reverse.map fun c => c.toNat - 48)
      = Nat.digits 10 n := by
    rw [decimal, if_neg hn, ← List.map_reverse, List.reverse_reverse,
      List.map_map]
    refine (List.map_congr_left fun d hd => ?_).trans (List.map_id _)
    have hlt : d < 10 := Nat.digits_lt_base (by norm_num) hd
    interval_cases d <;> rfl
  rw [hdigits]
  exact Nat.ofDigits_digits 10 n

theorem decimal_injective : Function.Injective decimal := by
  intro n m h
  rw [← ofDigits_decimal n, ← ofDigits_decimal m, h]

/-- The characters of a decimal are digits. -/
theorem mem_decimal {n : Nat} {c : UInt8} (hc : c ∈ decimal n) :
    48 ≤ c.toNat ∧ c.toNat ≤ 57 := by
  by_cases hn : n = 0
  · simp only [decimal, hn, if_pos, List.mem_singleton] at hc
    subst hc
    decide
  · rw [decimal, if_neg hn] at hc
    obtain ⟨d, hd, rfl⟩ := List.mem_map.1 hc
    have hlt : d < 10 :=
      Nat.digits_lt_base (by norm_num) (List.mem_reverse.1 hd)
    interval_cases d <;> decide

/-- The sign is no digit. -/
theorem signedDecimal_injective : Function.Injective signedDecimal := by
  intro i j h
  unfold signedDecimal at h
  by_cases hi : i < 0
  · by_cases hj : j < 0
    · rw [if_pos hi, if_pos hj] at h
      have := decimal_injective (List.cons.inj h).2
      omega
    · rw [if_pos hi, if_neg hj] at h
      have hmem : (45 : UInt8) ∈ decimal j.natAbs := by
        rw [← h]
        exact List.mem_cons_self
      exact absurd (mem_decimal hmem).1 (by decide)
  · by_cases hj : j < 0
    · rw [if_neg hi, if_pos hj] at h
      have hmem : (45 : UInt8) ∈ decimal i.natAbs := by
        rw [h]
        exact List.mem_cons_self
      exact absurd (mem_decimal hmem).1 (by decide)
    · rw [if_neg hi, if_neg hj] at h
      have := decimal_injective h
      omega

-- ===== hexadecimal

/-- The value of a hexadecimal digit. -/
def hexValue (c : UInt8) : Nat :=
  if c.toNat < 58 then c.toNat - 48 else c.toNat - 87

theorem hexValue_hexDigit {d : Nat} (hd : d < 16) :
    hexValue (hexDigit d) = d := by
  interval_cases d <;> rfl

/-- A hexadecimal digit is neither a dash nor a brace. -/
theorem hexDigit_ne {d : Nat} (hd : d < 16) :
    hexDigit d ≠ 45 ∧ hexDigit d ≠ 125 := by
  interval_cases d <;> decide

theorem mem_hexWord {n : Nat} {c : UInt8} (hc : c ∈ hexWord n) :
    c ≠ 45 ∧ c ≠ 125 := by
  rcases List.mem_append.1 hc with hc | hc
  · rw [(List.mem_replicate.1 hc).2]
    decide
  · obtain ⟨d, hd, rfl⟩ := List.mem_map.1 hc
    exact hexDigit_ne
      (Nat.digits_lt_base (by norm_num) (List.mem_reverse.1 hd))

/-- A word can be read back: the zeros in front have no weight. -/
theorem ofDigits_hexWord (n : Nat) :
    Nat.ofDigits 16 ((hexWord n).reverse.map hexValue) = n := by
  have hdigits : ((Nat.digits 16 n).map hexDigit).map hexValue
      = Nat.digits 16 n := by
    rw [List.map_map]
    refine (List.map_congr_left fun d hd => ?_).trans (List.map_id _)
    exact hexValue_hexDigit (Nat.digits_lt_base (by norm_num) hd)
  rw [hexWord, List.reverse_append, List.map_append, ← List.map_reverse,
    List.reverse_reverse, hdigits, List.reverse_replicate,
    List.map_replicate]
  show Nat.ofDigits 16 (Nat.digits 16 n ++ List.replicate _ 0) = n
  rw [Nat.ofDigits_append_replicate_zero, Nat.ofDigits_digits]

theorem hexWord_injective : Function.Injective hexWord := by
  intro n m h
  rw [← ofDigits_hexWord n, ← ofDigits_hexWord m, h]

theorem hexBytes_cons (b : UInt8) (bs : Bytes) :
    hexBytes (b :: bs) = hexDigit (b.toNat / 16)
      :: hexDigit (b.toNat % 16) :: hexBytes bs := rfl

theorem hexBytes_append (as bs : Bytes) :
    hexBytes (as ++ bs) = hexBytes as ++ hexBytes bs :=
  List.flatMap_append

/-- A byte can be read back from its two digits. -/
theorem hexDigits_injective {a b : UInt8}
    (hhigh : hexDigit (a.toNat / 16) = hexDigit (b.toNat / 16))
    (hlow : hexDigit (a.toNat % 16) = hexDigit (b.toNat % 16)) :
    a = b := by
  have ha := a.toNat_lt
  have hb := b.toNat_lt
  have hdiv : a.toNat / 16 = b.toNat / 16 := by
    rw [← @hexValue_hexDigit (a.toNat / 16) (by omega), hhigh,
      hexValue_hexDigit (by omega)]
  have hmod : a.toNat % 16 = b.toNat % 16 := by
    rw [← @hexValue_hexDigit (a.toNat % 16) (by omega), hlow,
      hexValue_hexDigit (by omega)]
  apply UInt8.toNat_inj.1
  omega

theorem hexBytes_injective : Function.Injective hexBytes := by
  intro as
  induction as with
  | nil =>
    intro bs h
    cases bs with
    | nil => rfl
    | cons b bs => cases h
  | cons a as ih =>
    intro bs h
    cases bs with
    | nil => cases h
    | cons b bs =>
      rw [hexBytes_cons, hexBytes_cons] at h
      obtain ⟨hhigh, h⟩ := List.cons.inj h
      obtain ⟨hlow, h⟩ := List.cons.inj h
      rw [hexDigits_injective hhigh hlow, ih h]

/-- Hexadecimal has no dashes. -/
theorem filter_hexBytes (bs : Bytes) :
    (hexBytes bs).filter (· ≠ 45) = hexBytes bs := by
  refine List.filter_eq_self.2 fun c hc => ?_
  obtain ⟨b, -, hc⟩ := List.mem_flatMap.1 hc
  have hb := b.toNat_lt
  have hne : c ≠ 45 := by
    rcases List.mem_pair.1 hc with rfl | rfl
    · exact (hexDigit_ne (by omega)).1
    · exact (hexDigit_ne (by omega)).1
  exact decide_eq_true hne

/-- Without its dashes the string of a UUID is hexadecimal. -/
theorem filter_uuidString (bs : Bytes) :
    (uuidString bs).filter (· ≠ 45) = hexBytes bs := by
  have hsplit : bs = bs.take 4 ++ ((bs.drop 4).take 2
      ++ ((bs.drop 6).take 2 ++ ((bs.drop 8).take 2 ++ bs.drop 10))) := by
    have h8 := List.take_append_drop 2 (bs.drop 8)
    have h6 := List.take_append_drop 2 (bs.drop 6)
    have h4 := List.take_append_drop 2 (bs.drop 4)
    rw [List.drop_drop] at h8 h6 h4
    rw [h8, h6, h4, List.take_append_drop]
  conv_rhs => rw [hsplit]
  have hdash : (decide ((45 : UInt8) ≠ 45)) = false := by decide
  simp only [uuidString, List.append_assoc, List.filter_append,
    List.cons_append, List.filter_cons, hdash, hexBytes_append,
    filter_hexBytes, Bool.false_eq_true, if_false]

theorem uuidString_injective : Function.Injective uuidString := by
  intro as bs h
  apply hexBytes_injective
  rw [← filter_uuidString, ← filter_uuidString, h]

/-- The dash between the words is in neither of them. -/
theorem globalKeyString_injective :
    Function.Injective globalKeyString := by
  intro k k' h
  have hdash (n : Nat) : (45 : UInt8) ∉ hexWord n :=
    fun hmem => (mem_hexWord hmem).1 rfl
  simp only [globalKeyString, List.cons_append, List.append_assoc,
    List.cons.injEq, true_and] at h
  obtain ⟨hhi, hlo⟩ :=
    append_cons_inj_of_separator (hdash _) (hdash _) h
  have hlo := List.append_cancel_right hlo
  have hhi := UInt64.toNat_inj.1 (hexWord_injective hhi)
  have hlo := UInt64.toNat_inj.1 (hexWord_injective hlo)
  cases k
  cases k'
  exact congrArg₂ GlobalKey.mk hhi hlo

-- ===== keys

/-- The spelling of a primary key can be read back. -/
theorem flxPrimaryKeyPart_injective :
    Function.Injective flxPrimaryKeyPart := by
  -- the first letters of the six types differ
  intro k k' h
  cases k with
  | null =>
    cases k' with
    | null => rfl
    | _ => cases (List.cons.inj h).1
  | int i =>
    cases k' with
    | int j =>
      have h := signedDecimal_injective (List.append_cancel_left h)
      exact congrArg _ (Int64.toInt_inj.1 h)
    | _ => cases (List.cons.inj h).1
  | globalKey g =>
    cases k' with
    | globalKey g' =>
      have h := globalKeyString_injective (List.append_cancel_left h)
      exact congrArg _ h
    | _ => cases (List.cons.inj h).1
  | string s =>
    cases k' with
    | string t =>
      have hcolon (n : Nat) : (58 : UInt8) ∉ decimal n :=
        fun hmem => absurd (mem_decimal hmem).2 (by decide)
      simp only [flxPrimaryKeyPart, List.append_assoc] at h
      have h := List.append_cancel_left h
      exact congrArg _ (append_cons_inj_of_separator
        (hcolon _) (hcolon _) h).2
    | _ => cases (List.cons.inj h).1
  | objectId id =>
    cases k' with
    | objectId id' =>
      exact congrArg _ (hexBytes_injective (List.append_cancel_left h))
    | _ => cases (List.cons.inj h).1
  | uuid id =>
    cases k' with
    | uuid id' =>
      exact congrArg _ (uuidString_injective (List.append_cancel_left h))
    | _ => cases (List.cons.inj h).1

/-- Objects of tables whose names have no tab have different keys. -/
theorem flxVisibleObjectKey_inj {r r' : ObjectRef} (hr : 9 ∉ r.1)
    (hr' : 9 ∉ r'.1)
    (h : flxVisibleObjectKey r = flxVisibleObjectKey r') : r = r' := by
  obtain ⟨htable, hkey⟩ := append_cons_inj_of_separator hr hr' h
  exact Prod.ext htable (flxPrimaryKeyPart_injective hkey)

end BarqSync.Flx
