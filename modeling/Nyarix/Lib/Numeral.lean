import Mathlib.Data.Nat.Digits.Defs

/-! Decimal numerals of a bounded unsigned type: which texts are read as a number, and which of them is the
shortest. -/

namespace Numeral

/-- Take in one digit after another, as long as the value stays below the limit. -/
def digits (limit : Nat) : List Char → Nat → Option Nat
  | [], n => some n
  | c :: cs, n =>
    if c.isDigit ∧ 10 * n + (c.toNat - '0'.toNat) < limit then digits limit cs (10 * n + (c.toNat - '0'.toNat))
    else none

/-- Read a number below the limit. It may begin with a plus sign; a minus sign is no digit. -/
def parse (limit : Nat) : List Char → Option Nat
  | [] => none
  | ['+'] | ['-'] => none
  | '+' :: cs => digits limit cs 0
  | cs => digits limit cs 0

/-- The text is a decimal numeral of the number, with or without a plus sign and leading zeros. -/
inductive Denotes : List Char → Nat → Prop
  | plain {cs : List Char} (hne : cs ≠ []) (hdigits : ∀ c ∈ cs, c.isDigit) : Denotes cs (Nat.ofDigitChars 10 cs 0)
  | plus {cs : List Char} (hne : cs ≠ []) (hdigits : ∀ c ∈ cs, c.isDigit) :
    Denotes ('+' :: cs) (Nat.ofDigitChars 10 cs 0)

variable {limit n : Nat} {text : List Char}

theorem le_ofDigitChars (cs : List Char) (n : Nat) : n ≤ Nat.ofDigitChars 10 cs n := by
  rw [Nat.ofDigitChars_eq_ofDigitChars_zero]
  exact (Nat.le_mul_of_pos_left n (Nat.pow_pos (by decide))).trans (Nat.le_add_right _ _)

theorem digits_eq_some {cs : List Char} {m : Nat} (hm : m < limit) :
    digits limit cs m = some n ↔ (∀ c ∈ cs, c.isDigit) ∧ Nat.ofDigitChars 10 cs m = n ∧ n < limit := by
  induction cs generalizing m with
  | nil =>
    rw [digits, Nat.ofDigitChars_nil, Option.some.injEq]
    constructor
    · rintro rfl
      exact ⟨List.forall_mem_nil _, rfl, hm⟩
    · rintro ⟨-, rfl, -⟩
      rfl
  | cons c cs ih =>
    rw [digits, Nat.ofDigitChars_cons, List.forall_mem_cons]
    split_ifs with h
    · rw [ih h.2, and_iff_right h.1]
    · refine iff_of_false not_false ?_
      -- Digits that follow only make the value larger.
      rintro ⟨⟨hc, -⟩, rfl, hlt⟩
      exact h ⟨hc, (le_ofDigitChars cs _).trans_lt hlt⟩

theorem Denotes.ne_nil (h : Denotes text n) : text ≠ [] := by
  cases h with
  | plain hne => exact hne
  | plus hne => exact List.cons_ne_nil _ _

theorem denotes_plus {cs : List Char} : Denotes ('+' :: cs) n ↔
    cs ≠ [] ∧ (∀ c ∈ cs, c.isDigit) ∧ Nat.ofDigitChars 10 cs 0 = n := by
  constructor
  · intro h
    cases h with
    | plain hne hdigits => exact absurd (hdigits '+' List.mem_cons_self) (by decide)
    | plus hne hdigits => exact ⟨hne, hdigits, rfl⟩
  · rintro ⟨hne, hdigits, rfl⟩
    exact .plus hne hdigits

theorem denotes_of_ne_plus (hplus : ∀ cs, text ≠ '+' :: cs) : Denotes text n ↔
    text ≠ [] ∧ (∀ c ∈ text, c.isDigit) ∧ Nat.ofDigitChars 10 text 0 = n := by
  constructor
  · intro h
    cases h with
    | plain hne hdigits => exact ⟨hne, hdigits, rfl⟩
    | plus => exact absurd rfl (hplus _)
  · rintro ⟨hne, hdigits, rfl⟩
    exact .plain hne hdigits

theorem parse_eq_some (hlimit : 0 < limit) : parse limit text = some n ↔ Denotes text n ∧ n < limit := by
  unfold parse
  split
  · exact iff_of_false (Option.some_ne_none n).symm fun h => h.1.ne_nil rfl
  · refine iff_of_false (Option.some_ne_none n).symm fun h => ?_
    exact (denotes_plus.mp h.1).1 rfl
  · refine iff_of_false (Option.some_ne_none n).symm fun h => ?_
    have hdigits := ((denotes_of_ne_plus (by simp)).mp h.1).2.1
    exact absurd (hdigits '-' List.mem_cons_self) (by decide)
  · next cs hne =>
    have hcs : cs ≠ [] := fun hnil => hne (by rw [hnil])
    rw [digits_eq_some hlimit, denotes_plus, and_iff_right hcs, and_assoc]
  · next hne _ _ hplus =>
    rw [digits_eq_some hlimit, denotes_of_ne_plus hplus, and_iff_right hne, and_assoc]

theorem digit_lt {c : Char} (h : c.isDigit) : c.toNat - '0'.toNat < 10 := by
  simp only [Char.isDigit, Bool.and_eq_true, decide_eq_true_eq] at h
  have hle : c.toNat ≤ 57 := UInt32.le_iff_toNat_le.mp h.2
  have hzero : '0'.toNat = 48 := rfl
  omega

theorem ofDigitChars_cons_zero (c : Char) (cs : List Char) : Nat.ofDigitChars 10 (c :: cs) 0 =
    10 ^ cs.length * (c.toNat - '0'.toNat) + Nat.ofDigitChars 10 cs 0 := by
  rw [Nat.ofDigitChars_cons, Nat.ofDigitChars_eq_ofDigitChars_zero, Nat.mul_zero, Nat.zero_add]

theorem ofDigitChars_lt {cs : List Char} (h : ∀ c ∈ cs, c.isDigit) : Nat.ofDigitChars 10 cs 0 < 10 ^ cs.length := by
  induction cs with
  | nil => exact Nat.one_pos
  | cons c cs ih =>
    obtain ⟨hc, hcs⟩ := List.forall_mem_cons.mp h
    have hrest := ih hcs
    have hdigit := digit_lt hc
    rw [ofDigitChars_cons_zero, List.length_cons, Nat.pow_succ]
    calc 10 ^ cs.length * (c.toNat - '0'.toNat) + Nat.ofDigitChars 10 cs 0
        < 10 ^ cs.length * (c.toNat - '0'.toNat) + 10 ^ cs.length := Nat.add_lt_add_left hrest _
      _ = 10 ^ cs.length * (c.toNat - '0'.toNat + 1) := (Nat.mul_succ _ _).symm
      _ ≤ 10 ^ cs.length * 10 := Nat.mul_le_mul_left _ hdigit

theorem isDigit_toDigits (n : Nat) : ∀ c ∈ Nat.toDigits 10 n, c.isDigit := fun _ hc =>
  Nat.isDigit_of_mem_toDigits (by decide) (by decide) hc

theorem denotes_toDigits (n : Nat) : Denotes (Nat.toDigits 10 n) n := by
  have hlength : 0 < (Nat.toDigits 10 n).length := Nat.length_toDigits_pos
  have h := Denotes.plain (List.ne_nil_of_length_pos hlength) (isDigit_toDigits n)
  rwa [Nat.ofDigitChars_ten_toDigits] at h

theorem digit_inj {c d : Char} (hc : c.isDigit) (hd : d.isDigit) (h : c.toNat - '0'.toNat = d.toNat - '0'.toNat) : c = d := by
  simp only [Char.isDigit, Bool.and_eq_true, decide_eq_true_eq] at hc hd
  have hc : 48 ≤ c.toNat := UInt32.le_iff_toNat_le.mp hc.1
  have hd : 48 ≤ d.toNat := UInt32.le_iff_toNat_le.mp hd.1
  have hzero : '0'.toNat = 48 := rfl
  have hsame : c.toNat = d.toNat := by omega
  exact Char.toNat_inj.mp hsame

theorem eq_of_ofDigitChars {cs ds : List Char} (hcs : ∀ c ∈ cs, c.isDigit) (hds : ∀ d ∈ ds, d.isDigit)
    (hlength : cs.length = ds.length) (h : Nat.ofDigitChars 10 cs 0 = Nat.ofDigitChars 10 ds 0) : cs = ds := by
  induction cs generalizing ds with
  | nil => exact (List.length_eq_zero_iff.mp hlength.symm).symm
  | cons c cs ih =>
    cases ds with
    | nil => cases hlength
    | cons d ds =>
      obtain ⟨hc, htail⟩ := List.forall_mem_cons.mp hcs
      obtain ⟨hd, htail'⟩ := List.forall_mem_cons.mp hds
      have hrest : cs.length = ds.length := Nat.succ.inj hlength
      have hv := ofDigitChars_lt htail
      have hw := ofDigitChars_lt htail'
      rw [ofDigitChars_cons_zero, ofDigitChars_cons_zero, ← hrest] at h
      rw [← hrest] at hw
      -- The rest is below the weight of the first digit, so a division leaves the first digit.
      have hfirst := congrArg (· / 10 ^ cs.length) h
      simp only [Nat.mul_add_div (Nat.pow_pos (by decide : 0 < 10)), Nat.div_eq_of_lt hv, Nat.div_eq_of_lt hw,
        Nat.add_zero] at hfirst
      obtain rfl := digit_inj hc hd hfirst
      rw [ih htail htail' hrest (Nat.add_left_cancel h)]

theorem Denotes.length_le (h : Denotes text n) : (Nat.toDigits 10 n).length ≤ text.length := by
  cases h with
  | plain hne hdigits =>
    exact (Nat.length_toDigits_le_iff (by decide) (List.length_pos_iff.mpr hne)).mpr (ofDigitChars_lt hdigits)
  | @plus cs hne hdigits =>
    have hcs := (Nat.length_toDigits_le_iff (by decide) (List.length_pos_iff.mpr hne)).mpr (ofDigitChars_lt hdigits)
    exact hcs.trans (Nat.le_succ _)

theorem Denotes.eq_toDigits (h : Denotes text n) (hlength : text.length = (Nat.toDigits 10 n).length) :
    text = Nat.toDigits 10 n := by
  cases h with
  | plain hne hdigits =>
    exact eq_of_ofDigitChars hdigits (isDigit_toDigits _) hlength Nat.ofDigitChars_ten_toDigits.symm
  | plus hne hdigits =>
    -- Without the sign it would be shorter than the shortest.
    have hle := (Denotes.plain hne hdigits).length_le
    rw [← hlength, List.length_cons] at hle
    exact absurd hle (Nat.not_succ_le_self _)

end Numeral
