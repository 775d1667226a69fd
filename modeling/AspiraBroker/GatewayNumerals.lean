/-
**Decimal numerals on the wire.**

The gateway reads the numbers of the text protocol with the C library's `strtoull`, from a copy of
the value that is cut to thirty-one bytes.  This module says what that gives on decimal numerals:
the value of the numeral, unless the cut has taken digits off it.

Main definitions:

* `Gateway.Numeral` — a nonempty string of decimal digits;
* `Gateway.decimal` — the numeral that `printf` writes for a number.

Main results:

* `Gateway.digitsValue_append` — the value of a string of digits in two parts;
* `Gateway.textNumber_eq_iff` — **a numeral in range is read right exactly when it is short enough,
  or zero**;
* `Gateway.digitsValue_decimal`, `Gateway.length_decimal_le` — a number is read back from its
  numeral, which is short enough.
-/

import AspiraBroker.GatewayFields

set_option relaxedAutoImplicit false
set_option autoImplicit false

namespace Gateway

/-! ### Digits -/

/-- All bytes are decimal digits. -/
def Digits (bs : List UInt8) : Prop := ∀ b ∈ bs, isDigit b = true

/-- A decimal numeral: digits, and at least one. -/
def Numeral (bs : List UInt8) : Prop := bs ≠ [] ∧ Digits bs

instance (bs : List UInt8) : Decidable (Digits bs) :=
  decidable_of_iff (bs.all isDigit = true) List.all_eq_true

instance (bs : List UInt8) : Decidable (Numeral bs) :=
  inferInstanceAs (Decidable (bs ≠ [] ∧ Digits bs))

theorem isDigit_iff (b : UInt8) : isDigit b = true ↔ 48 ≤ b.toNat ∧ b.toNat ≤ 57 := by
  simp [isDigit, UInt8.le_iff_toNat_le]

/-- A digit is no white space and no sign. -/
theorem isSpace_of_isDigit {b : UInt8} (h : isDigit b = true) : isSpace b = false := by
  rw [isDigit_iff] at h
  have hne : b ≠ 32 := by
    rintro rfl
    revert h
    decide
  simp only [isSpace, Bool.or_eq_false_iff, decide_eq_false_iff_not, Bool.and_eq_false_iff,
    UInt8.le_iff_toNat_le]
  refine ⟨hne, Or.inr ?_⟩
  have hval : (13 : UInt8).toNat = 13 := rfl
  omega

theorem ne_sign_of_isDigit {b : UInt8} (h : isDigit b = true) :
    b ≠ ascii '-' ∧ b ≠ ascii '+' := by
  constructor <;>
  · rintro rfl
    revert h
    decide

/-- The fold behind `digitsValue`, started in the middle of a numeral. -/
theorem foldl_digits (bs : List UInt8) (acc : ℕ) :
    bs.foldl (fun acc b => 10 * acc + (b.toNat - 48)) acc =
      acc * 10 ^ bs.length + bs.foldl (fun acc b => 10 * acc + (b.toNat - 48)) 0 := by
  induction bs generalizing acc with
  | nil => simp
  | cons b bs ih =>
      rw [List.foldl_cons, List.foldl_cons, ih, ih (10 * 0 + (b.toNat - 48)), List.length_cons,
        Nat.pow_succ]
      have hmul : (10 * acc + (b.toNat - 48)) * 10 ^ bs.length =
          acc * (10 ^ bs.length * 10) + (b.toNat - 48) * 10 ^ bs.length := by
        rw [Nat.add_mul, Nat.mul_comm 10 acc, Nat.mul_assoc, Nat.mul_comm 10 (10 ^ bs.length)]
      rw [hmul, Nat.mul_zero, Nat.zero_add, Nat.add_assoc]

theorem digitsValue_eq {bs : List UInt8} (h : Digits bs) :
    digitsValue bs = bs.foldl (fun acc b => 10 * acc + (b.toNat - 48)) 0 := by
  rw [digitsValue, List.takeWhile_eq_self_iff.2 h]

theorem Digits.append {a b : List UInt8} (ha : Digits a) (hb : Digits b) : Digits (a ++ b) := by
  intro c hc
  rcases List.mem_append.1 hc with hc | hc
  · exact ha c hc
  · exact hb c hc

theorem Digits.take {bs : List UInt8} (h : Digits bs) (n : ℕ) : Digits (bs.take n) :=
  fun b hb => h b (List.mem_of_mem_take hb)

theorem Digits.drop {bs : List UInt8} (h : Digits bs) (n : ℕ) : Digits (bs.drop n) :=
  fun b hb => h b (List.mem_of_mem_drop hb)

/-- The value of a string of digits in two parts. -/
theorem digitsValue_append {a b : List UInt8} (ha : Digits a) (hb : Digits b) :
    digitsValue (a ++ b) = digitsValue a * 10 ^ b.length + digitsValue b := by
  rw [digitsValue_eq (ha.append hb), digitsValue_eq ha, digitsValue_eq hb, List.foldl_append,
    foldl_digits]

/-! ### Reading a numeral -/

/-- `strtoull` on digits. -/
theorem toNat_strtoull {bs : List UInt8} (h : Digits bs) (hlt : digitsValue bs < 2 ^ 64) :
    (strtoull bs).toNat = digitsValue bs := by
  have hspace : bs.dropWhile isSpace = bs := by
    cases bs with
    | nil => rfl
    | cons b bs =>
        exact List.dropWhile_cons_of_neg (by
          rw [isSpace_of_isDigit (h b List.mem_cons_self)]
          exact Bool.false_ne_true)
  have hsign : ∀ c, c = ascii '-' ∨ c = ascii '+' → bs.head? ≠ some c := by
    intro c hc hhead
    have hne := ne_sign_of_isDigit (h c (List.mem_of_mem_head? hhead))
    rcases hc with rfl | rfl
    · exact hne.1 rfl
    · exact hne.2 rfl
  simp only [strtoull, hspace, hsign _ (Or.inl rfl), hsign _ (Or.inr rfl), or_self, if_false,
    if_neg (Nat.not_le.2 hlt)]
  rw [UInt64.toNat_ofNat', Nat.mod_eq_of_lt hlt]

/-- Cutting digits off a numeral changes its value, unless it is zero. -/
theorem digitsValue_take_iff {bs : List UInt8} (h : Digits bs) (n : ℕ) :
    digitsValue (bs.take n) = digitsValue bs ↔ bs.length ≤ n ∨ digitsValue bs = 0 := by
  have hsplit := digitsValue_append (h.take n) (h.drop n)
  rw [List.take_append_drop, List.length_drop] at hsplit
  constructor
  · intro heq
    by_contra hnot
    obtain ⟨hlong, hpos⟩ := not_or.1 hnot
    have hpow : 10 ≤ 10 ^ (bs.length - n) :=
      Nat.le_self_pow (by omega) 10
    have hmul : digitsValue bs * 10 ≤ digitsValue bs * 10 ^ (bs.length - n) :=
      Nat.mul_le_mul_left _ hpow
    rw [heq] at hsplit
    omega
  · rintro (hshort | hzero)
    · rw [List.take_of_length_le hshort]
    · rw [hzero] at hsplit ⊢
      have hpos : 0 < 10 ^ (bs.length - n) := Nat.pow_pos (by decide)
      have hprod : digitsValue (bs.take n) * 10 ^ (bs.length - n) = 0 := by omega
      exact (Nat.mul_eq_zero.1 hprod).resolve_right hpos.ne'

/-- What is cut off does not make the value larger. -/
theorem digitsValue_take_le {bs : List UInt8} (h : Digits bs) (n : ℕ) :
    digitsValue (bs.take n) ≤ digitsValue bs := by
  have hsplit := digitsValue_append (h.take n) (h.drop n)
  rw [List.take_append_drop] at hsplit
  have hpos : 1 ≤ 10 ^ (bs.drop n).length := Nat.one_le_pow _ _ (by decide)
  have hmul := Nat.mul_le_mul_left (digitsValue (bs.take n)) hpos
  omega

theorem toNat_textNumber {v : List UInt8} (h : Digits v) (hlt : digitsValue v < 2 ^ 64) :
    (textNumber v).toNat = digitsValue (v.take 31) :=
  toNat_strtoull (h.take 31) (Nat.lt_of_le_of_lt (digitsValue_take_le h 31) hlt)

/-- **A numeral in range is read right exactly when** it has at most thirty-one digits, or is
zero. -/
theorem textNumber_eq_iff {v : List UInt8} (h : Digits v) (hlt : digitsValue v < 2 ^ 64) :
    (textNumber v).toNat = digitsValue v ↔ v.length ≤ 31 ∨ digitsValue v = 0 := by
  rw [toNat_textNumber h hlt, digitsValue_take_iff h]

/-- The same for the number cut to thirty-two bits. -/
theorem textNumber_toUInt32_eq_iff {v : List UInt8} (h : Digits v)
    (hlt : digitsValue v < 2 ^ 32) :
    (textNumber v).toUInt32.toNat = digitsValue v ↔ v.length ≤ 31 ∨ digitsValue v = 0 := by
  have hle := digitsValue_take_le h 31
  rw [UInt64.toNat_toUInt32, toNat_textNumber h (by omega), Nat.mod_eq_of_lt (by omega),
    digitsValue_take_iff h]

/-! ### Writing a numeral -/

/-- The byte of a decimal digit. -/
def digit (d : ℕ) : UInt8 := UInt8.ofNat (48 + d)

/-- `printf` with `%lu` or `%u`: the numeral without leading zeros. -/
def decimal (n : ℕ) : List UInt8 :=
  if n < 10 then [digit n] else decimal (n / 10) ++ [digit (n % 10)]

theorem toNat_digit {d : ℕ} (h : d < 10) : (digit d).toNat = 48 + d := by
  rw [digit, UInt8.toNat_ofNat', Nat.mod_eq_of_lt (by omega)]

theorem digits_digit {d : ℕ} (h : d < 10) : Digits [digit d] := by
  intro b hb
  obtain rfl := List.mem_singleton.1 hb
  rw [isDigit_iff, toNat_digit h]
  omega

theorem digitsValue_digit {d : ℕ} (h : d < 10) : digitsValue [digit d] = d := by
  rw [digitsValue_eq (digits_digit h), List.foldl_cons, List.foldl_nil, toNat_digit h]
  omega

theorem digits_decimal (n : ℕ) : Digits (decimal n) := by
  induction n using decimal.induct with
  | case1 n hlt =>
      rw [decimal, if_pos hlt]
      exact digits_digit hlt
  | case2 n hge ih =>
      rw [decimal, if_neg hge]
      exact ih.append (digits_digit (Nat.mod_lt _ (by decide)))

/-- **A number is read back from its numeral.** -/
theorem digitsValue_decimal (n : ℕ) : digitsValue (decimal n) = n := by
  induction n using decimal.induct with
  | case1 n hlt =>
      rw [decimal, if_pos hlt]
      exact digitsValue_digit hlt
  | case2 n hge ih =>
      have hmod : n % 10 < 10 := Nat.mod_lt _ (by decide)
      rw [decimal, if_neg hge, digitsValue_append (digits_decimal _) (digits_digit hmod), ih,
        digitsValue_digit hmod, List.length_singleton]
      omega

/-- A number below `10 ^ (k + 1)` has at most `k + 1` digits. -/
theorem length_decimal_le {n k : ℕ} (h : n < 10 ^ (k + 1)) : (decimal n).length ≤ k + 1 := by
  induction k generalizing n with
  | zero =>
      rw [decimal, if_pos (by omega)]
      exact Nat.le_refl _
  | succ k ih =>
      rw [decimal]
      split
      · simp
      · rw [List.length_append, List.length_singleton]
        have hdiv : n / 10 < 10 ^ (k + 1) := by
          rw [Nat.div_lt_iff_lt_mul (by decide), ← Nat.pow_succ]
          exact h
        have := ih hdiv
        omega

end Gateway
