import LwMix.Base.Heap
import Mathlib.Data.List.TakeDrop
import Mathlib.Tactic.Cases

/-!
# C strings and byte arrays

* `CStr cap`: the contents of a `char[cap]` that is zero-terminated within its bounds.
* `Buf n`: a `char[n]` with its `n` bytes, terminated or not. `Buf.overwrite` writes bytes that fit,
  `Buf.write` writes at any offset, and a byte outside of the array is a fault.
* `strncmp`: as in C, over arrays whose bytes past the end of the list count as terminators.
  `strncmp_eq_zero`: against a string of at least `n` nonzero bytes it tests the first `n` bytes.
-/

namespace LwMix

/-- The bytes of an ASCII literal, without its terminator. -/
def ascii (s : String) : List UInt8 := s.toList.map fun c => c.toNat.toUInt8

/-- The bytes before a terminator. -/
theorem takeWhile_terminated {xs : List UInt8} (h0 : 0 ∉ xs) (ys : List UInt8) :
    (xs ++ 0 :: ys).takeWhile (· ≠ 0) = xs := by
  have hall : ∀ x ∈ xs, decide (x ≠ 0) = true := fun x hx => by
    simpa using fun heq : x = 0 => h0 (heq ▸ hx)
  rw [List.takeWhile_append_of_pos hall]
  simp

/-- A zero-terminated string that fits a `char[cap]`. -/
structure CStr (cap : ℕ) where
  bytes : List UInt8
  noNul : 0 ∉ bytes
  fits : bytes.length < cap
  deriving DecidableEq, Repr

/-- The empty string. -/
def CStr.empty {cap : ℕ} (h : 0 < cap) : CStr cap := ⟨[], List.not_mem_nil, h⟩

/-- A `char[n]`. -/
@[ext]
structure Buf (n : ℕ) where
  bytes : List UInt8
  size : bytes.length = n
  deriving DecidableEq, Repr

namespace Buf

variable {n off : ℕ} {xs : List UInt8}

/-- The array whose bytes are all `0`. -/
def zero (n : ℕ) : Buf n := ⟨List.replicate n 0, List.length_replicate⟩

/-- `b` with the bytes `xs` from `off` on. -/
def overwrite (b : Buf n) (off : ℕ) (xs : List UInt8) (h : off + xs.length ≤ n) : Buf n where
  bytes := b.bytes.take off ++ xs ++ b.bytes.drop (off + xs.length)
  size := by
    have := b.size
    simp only [List.length_append, List.length_take, List.length_drop]
    omega

/-- `b` with the bytes `xs` from `off` on; a byte outside of the array is a fault. -/
def write (b : Buf n) (off : Int) (xs : List UInt8) : Except Fault (Buf n) :=
  if h : 0 ≤ off ∧ off.toNat + xs.length ≤ n then .ok (b.overwrite off.toNat xs h.2)
  else .error .outOfBounds

theorem write_of_fits (b : Buf n) (h : off + xs.length ≤ n) :
    b.write off xs = .ok (b.overwrite off xs h) := by
  simp [write, h]

@[simp] theorem overwrite_zero_bytes (b : Buf n) (h : 0 + xs.length ≤ n) :
    (b.overwrite 0 xs h).bytes = xs ++ b.bytes.drop xs.length := by
  simp [overwrite]

/-- The string that starts the array: the bytes before its terminator. Without one, the bytes after
the array would be read. -/
def string (b : Buf n) : Except Fault (List UInt8) :=
  if 0 ∈ b.bytes then .ok (b.bytes.takeWhile (· ≠ 0)) else .error .outOfBounds

theorem string_of_mem (b : Buf n) (h : 0 ∈ b.bytes) :
    b.string = .ok (b.bytes.takeWhile (· ≠ 0)) := if_pos h

theorem string_of_not_mem (b : Buf n) (h : 0 ∉ b.bytes) : b.string = .error .outOfBounds := if_neg h

theorem mem_of_string (b : Buf n) {s : List UInt8} (h : b.string = .ok s) : 0 ∈ b.bytes := by
  by_contra h0
  rw [b.string_of_not_mem h0] at h
  cases h

theorem string_eq (b : Buf n) {ys : List UInt8} (h : b.bytes = xs ++ 0 :: ys) (h0 : 0 ∉ xs) :
    b.string = .ok xs := by
  rw [string, if_pos (by simp [h]), h, takeWhile_terminated h0]

/-- A string ends at the first terminator. -/
theorem string_length_le (b : Buf n) {ys s : List UInt8} (h : b.bytes = xs ++ 0 :: ys)
    (hs : b.string = .ok s) : s.length ≤ xs.length := by
  rw [string, if_pos (by simp [h])] at hs
  obtain rfl := Except.ok.inj hs
  rw [h]
  clear h
  induction xs with
  | nil => simp
  | cons x xs ih =>
    rw [List.cons_append, List.takeWhile_cons]
    split
    · simpa using ih
    · simp

/-- A string is shorter than its array. -/
theorem string_length_lt (b : Buf n) {s : List UInt8} (hs : b.string = .ok s) : s.length < n := by
  obtain ⟨xs, ys, hb⟩ := List.append_of_mem (b.mem_of_string hs)
  have hle := b.string_length_le hb hs
  have hsize := b.size
  rw [hb, List.length_append, List.length_cons] at hsize
  omega

end Buf

/-- `snprintf(b + off, size, …)` with the formatted text `text`: the text is cut to the size and
terminated, and the result is its whole length. -/
def snprintf {n : ℕ} (b : Buf n) (off : Int) (size : ℕ) (text : List UInt8) :
    Except Fault (Buf n × Int) := do
  let b ← if size = 0 then pure b else b.write off (text.take (size - 1) ++ [0])
  pure (b, text.length)

/-- The whole text is written. -/
theorem snprintf_eq_ok {n : ℕ} {b b' : Buf n} {off r : Int} {size : ℕ} {text : List UInt8}
    (hsize : text.length < size) : snprintf b off size text = .ok (b', r) ↔
      ∃ h : 0 ≤ off ∧ off.toNat + (text ++ [0]).length ≤ n,
        b' = b.overwrite off.toNat (text ++ [0]) h.2 ∧ r = text.length := by
  simp only [snprintf, show size ≠ 0 by omega, ↓reduceIte,
    List.take_of_length_le (show text.length ≤ size - 1 by omega), bind_eq_ok, pure_eq_ok,
    Prod.mk.injEq, Buf.write]
  constructor
  · rintro ⟨b₁, hb₁, rfl, rfl⟩
    split at hb₁
    · rename_i h
      exact ⟨h, (Except.ok.inj hb₁).symm, rfl⟩
    · cases hb₁
  · rintro ⟨h, rfl, rfl⟩
    exact ⟨_, dif_pos h, rfl, rfl⟩

/-- A text that fits is printed at the start of an array. -/
theorem snprintf_text {n : ℕ} (b : Buf n) {text : List UInt8} (h : text.length < n) :
    ∃ b', snprintf b 0 n text = .ok (b', text.length) ∧
      b'.bytes = text ++ [0] ++ b.bytes.drop (text.length + 1) := by
  have hfit : 0 + (text ++ [0]).length ≤ n := by
    rw [List.length_append, List.length_singleton]
    omega
  refine ⟨b.overwrite 0 (text ++ [0]) hfit, ?_, ?_⟩
  · exact (snprintf_eq_ok h).mpr ⟨⟨Int.le_refl 0, hfit⟩, rfl, rfl⟩
  · rw [Buf.overwrite_zero_bytes, List.length_append, List.length_singleton]

/-- `strncmp(xs, ys, n)`. -/
def strncmp : ℕ → List UInt8 → List UInt8 → Int
  | 0, _, _ => 0
  | n + 1, xs, ys =>
    let x := xs.headD 0
    let y := ys.headD 0
    if x ≠ y then (x.toNat : Int) - y.toNat
    else if x = 0 then 0
    else strncmp n xs.tail ys.tail

theorem strncmp_eq_zero {n : ℕ} {xs ys : List UInt8} (hn : n ≤ ys.length) (h0 : 0 ∉ ys) :
    strncmp n xs ys = 0 ↔ xs.take n = ys.take n := by
  induction n generalizing xs ys with
  | zero => simp [strncmp]
  | succ n ih =>
    cases ys with
    | nil => simp at hn
    | cons y ys =>
      simp only [List.mem_cons, not_or] at h0
      have hy : y ≠ 0 := Ne.symm h0.1
      have ih : strncmp n xs.tail ys = 0 ↔ xs.tail.take n = ys.take n :=
        ih (by simpa using hn) h0.2
      cases xs with
      | nil =>
        have : y.toNat ≠ 0 := fun h => hy (UInt8.toNat_inj.mp h)
        simp [strncmp, Ne.symm hy, this]
      | cons x xs =>
        by_cases hxy : x = y
        · subst hxy
          simpa [strncmp, hy] using ih
        · have : x.toNat ≠ y.toNat := fun h => hxy (UInt8.toNat_inj.mp h)
          simp only [strncmp, List.headD_cons, ne_eq, hxy, not_false_eq_true, ↓reduceIte,
            List.take_succ_cons, List.cons.injEq, false_and, iff_false]
          omega

end LwMix
