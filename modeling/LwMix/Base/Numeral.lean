import Mathlib.Data.Nat.Digits.Lemmas

/-!
# Numerals in ASCII

`numeral b n` is the numeral of `n` in a base `b` up to 16, with the most significant digit first and
upper-case letters: `%X` for base 16, and `%u`, or `%d` of a number that is not negative, for base
10.

* `readNumeral_numeral`: a numeral is read back as its number.
* `mem_numeral`: a numeral has digits only, so it has no separator and no terminator.
* `numeral_length_le`: how long it is.
-/

namespace LwMix

variable {b n d k : ℕ} {c : UInt8}

/-- The digit `d`. -/
def digitChar (d : ℕ) : UInt8 :=
  if d < 10 then UInt8.ofNat (0x30 + d) else UInt8.ofNat (0x37 + d)

/-- The value of a digit. -/
def digitVal (c : UInt8) : ℕ := if c.toNat < 0x3A then c.toNat - 0x30 else c.toNat - 0x37

theorem digitVal_digitChar (hd : d < 16) : digitVal (digitChar d) = d := by
  revert d
  decide

/-- The numeral of `n` in the base `b`. -/
def numeral (b n : ℕ) : List UInt8 :=
  if n = 0 then [digitChar 0] else (Nat.digits b n).reverse.map digitChar

/-- The number of a numeral in the base `b`. -/
def readNumeral (b : ℕ) (xs : List UInt8) : ℕ := Nat.ofDigits b (xs.reverse.map digitVal)

/-- **Numerals are read back.** -/
theorem readNumeral_numeral (hb : 1 < b) (hb' : b ≤ 16) (n : ℕ) :
    readNumeral b (numeral b n) = n := by
  unfold readNumeral numeral
  split
  · rename_i h
    simp [h, digitVal_digitChar]
  · have hmap : (Nat.digits b n).map (fun d => digitVal (digitChar d)) = Nat.digits b n := by
      refine (List.map_congr_left fun d hd => ?_).trans (List.map_id _)
      exact digitVal_digitChar (Nat.lt_of_lt_of_le (Nat.digits_lt_base hb hd) hb')
    rw [← List.map_reverse, List.reverse_reverse, List.map_map]
    exact (congrArg _ hmap).trans (Nat.ofDigits_digits b n)

theorem numeral_ne_nil (b n : ℕ) : numeral b n ≠ [] := by
  unfold numeral
  split
  · simp
  · rename_i hn
    simpa [Nat.digits_eq_nil_iff_eq_zero] using hn

/-- A numeral consists of digits of its base. -/
theorem mem_numeral (hb : 1 < b) (hc : c ∈ numeral b n) : ∃ d < b, c = digitChar d := by
  unfold numeral at hc
  split at hc
  · exact ⟨0, by omega, List.mem_singleton.mp hc⟩
  · obtain ⟨d, hd, rfl⟩ := List.mem_map.mp hc
    exact ⟨d, Nat.digits_lt_base hb (List.mem_reverse.mp hd), rfl⟩

/-- No digit is a byte outside of `0` to `9` and `A` to `F`. -/
theorem not_mem_numeral (hb : 1 < b) (hb' : b ≤ 16) (h : ∀ d < 16, digitChar d ≠ c) :
    c ∉ numeral b n := by
  intro hc
  obtain ⟨d, hd, rfl⟩ := mem_numeral hb hc
  exact h d (by omega) rfl

theorem numeral_length_le (hb : 1 < b) (hk : 0 < k) (hn : n < b ^ k) :
    (numeral b n).length ≤ k := by
  unfold numeral
  split
  · exact hk
  · rw [List.length_map, List.length_reverse]
    exact (Nat.digits_length_le_iff hb n).mpr hn

end LwMix
