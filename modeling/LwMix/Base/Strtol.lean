import LwMix.Base.CString
import LwMix.Base.Numeral
import Mathlib.Data.List.TakeWhile

/-!
# `strtol`, and the decimal text of a `long`

* `strtol`: as in C, in a base up to 16: white space, a sign, `0x` in base 16, digits, and the
  result cut to the range of `long`.
* `strtol_long2str`: the text of a `long` is read back.
-/

namespace LwMix

/-- `LONG_MAX`. -/
def longMax (lp64 : Bool) : Int := if lp64 then 9223372036854775807 else 2147483647

/-- `LONG_MIN`. -/
def longMin (lp64 : Bool) : Int := if lp64 then -9223372036854775808 else -2147483648

/-- `isspace`. -/
def isSpace (c : UInt8) : Bool := c = 0x20 ∨ 0x09 ≤ c ∧ c ≤ 0x0D

/-- `toupper`. -/
def toUpper (c : UInt8) : UInt8 := if 0x61 ≤ c ∧ c ≤ 0x7A then c - 0x20 else c

/-- A digit of the base `b`, which is a decimal digit or an upper-case letter. -/
def isDigit (b : ℕ) (c : UInt8) : Bool :=
  (0x30 ≤ c ∧ c ≤ 0x39 ∨ 0x41 ≤ c ∧ c ≤ 0x5A) ∧ digitVal c < b

/-- The digits that start a text, in the base `b`, as a number. -/
def readDigits (b : ℕ) (xs : List UInt8) : ℕ :=
  readNumeral b ((xs.map toUpper).takeWhile (isDigit b))

/-- The prefix `0x` in base 16. -/
def skipPrefix (b : ℕ) (xs : List UInt8) : List UInt8 :=
  if b = 16 ∧ (xs.take 2).map toUpper = ascii "0X" then xs.drop 2 else xs

/-- `strtol(xs, NULL, b)`. -/
def strtol (lp64 : Bool) (b : ℕ) (xs : List UInt8) : Int :=
  let xs := xs.dropWhile isSpace
  let v : Int :=
    match xs with
    | 0x2D :: xs => -readDigits b (skipPrefix b xs)
    | 0x2B :: xs => readDigits b (skipPrefix b xs)
    | xs => readDigits b (skipPrefix b xs)
  max (longMin lp64) (min (longMax lp64) v)

/-- The decimal text of a `long`. -/
def long2str (v : Int) : List UInt8 :=
  (if v < 0 then ascii "-" else []) ++ numeral 10 v.natAbs

/-! ## Reading a decimal text back -/

variable {lp64 : Bool} {v : Int} {n : ℕ}

/-- What `strtol` tests of a decimal digit. -/
theorem decimal_digit {d : ℕ} (hd : d < 10) : isSpace (digitChar d) = false ∧
    toUpper (digitChar d) = digitChar d ∧ isDigit 10 (digitChar d) = true ∧
      digitChar d ≠ 0x2D ∧ digitChar d ≠ 0x2B ∧ digitChar d ≠ 0x58 := by
  revert d
  decide

theorem readDigits_decimal (n : ℕ) : readDigits 10 (skipPrefix 10 (numeral 10 n)) = n := by
  have hupper : (numeral 10 n).map toUpper = numeral 10 n := by
    refine (List.map_congr_left fun c hc => ?_).trans (List.map_id _)
    obtain ⟨d, hd, rfl⟩ := mem_numeral (by decide) hc
    exact (decimal_digit hd).2.1
  have hdigits : ∀ c ∈ numeral 10 n, isDigit 10 c = true := fun c hc => by
    obtain ⟨d, hd, rfl⟩ := mem_numeral (by decide) hc
    exact (decimal_digit hd).2.2.1
  rw [skipPrefix, if_neg (by omega), readDigits, hupper, List.takeWhile_eq_self_iff.mpr hdigits]
  exact readNumeral_numeral (by decide) (by decide) n

/-- **The text of a `long` is read back.** -/
theorem strtol_long2str (h : longMin lp64 ≤ v ∧ v ≤ longMax lp64) :
    strtol lp64 10 (long2str v) = v := by
  have hcut : max (longMin lp64) (min (longMax lp64) v) = v := by
    rw [min_eq_right h.2, max_eq_right h.1]
  obtain ⟨c, cs, hcs⟩ := List.exists_cons_of_ne_nil (numeral_ne_nil 10 v.natAbs)
  obtain ⟨d, hd, rfl⟩ : ∃ d < 10, c = digitChar d := mem_numeral (by decide) (by rw [hcs]; simp)
  obtain ⟨hspace, -, -, hminus, hplus, -⟩ := decimal_digit hd
  have hread := readDigits_decimal v.natAbs
  unfold long2str
  by_cases hv : v < 0
  · have hdash : isSpace 0x2D = false := by decide
    rw [if_pos hv, strtol, show ascii "-" = [0x2D] from rfl, List.singleton_append,
      List.dropWhile_cons_of_neg (by simp [hdash])]
    show max _ (min _ (-(readDigits 10 (skipPrefix 10 (numeral 10 v.natAbs)) : Int))) = v
    rw [hread, show -(v.natAbs : Int) = v by omega, hcut]
  · rw [if_neg hv, List.nil_append, strtol, hcs, List.dropWhile_cons_of_neg (by simp [hspace])]
    split
    · rename_i heq
      exact absurd (List.cons.inj heq).1 hminus
    · rename_i heq
      exact absurd (List.cons.inj heq).1 hplus
    · rw [← hcs, hread, show (v.natAbs : Int) = v by omega, hcut]

/-- The second byte of a decimal text is no `x`. -/
theorem long2str_second (v : Int) : ∀ c ∈ (long2str v)[1]?, toUpper c ≠ 0x58 := by
  intro c hc
  have hmem := List.mem_of_getElem? hc
  unfold long2str at hmem
  rcases List.mem_append.mp hmem with hmem | hmem
  · split at hmem
    · obtain rfl : c = 0x2D := by simpa [ascii] using hmem
      decide
    · cases hmem
  · obtain ⟨d, hd, rfl⟩ := mem_numeral (by decide) hmem
    obtain ⟨-, hupper, -, -, -, hx⟩ := decimal_digit hd
    rwa [hupper]

/-- The text of an `int` has at most eleven bytes. -/
theorem long2str_length_le (h : intMin ≤ v ∧ v ≤ intMax) : (long2str v).length ≤ 11 := by
  have hlt : v.natAbs < 10 ^ 10 := by
    unfold intMin intMax at h
    omega
  have := numeral_length_le (by decide) (by decide) hlt
  unfold long2str
  split <;> simp [ascii] <;> omega

end LwMix
