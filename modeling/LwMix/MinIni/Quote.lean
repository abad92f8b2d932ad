import LwMix.Base.CString
import LwMix.Base.Heap
import Mathlib.Data.List.DropRight

/-!
# The values of an INI file (`minIni.c`)

A `char *` is the list of its bytes before the terminator. A `char` may be signed: then the bytes
from `0x80` on count as blanks.

* `saveStrncpy`, `cleanstring`, `checkEnquote`: the code. `savedString` is what `save_strncpy` stores
  when its asserts hold.
* `readValue`: what is read of the text after the separator of a line.
* `readValue_quoted`, `readValue_plain`: a value that was written, quoted or not.
* `savedString_length_lt`, `enquoteLoop_eq_escape`: a value that does not fit is cut to a prefix.
-/

namespace LwMix.MinIni

/-- `*str <= ' '`. -/
def isBlank (signed : Bool) (c : UInt8) : Bool := c ≤ 0x20 ∨ signed ∧ 0x80 ≤ c

/-- `skipleading`. -/
def skipleading (signed : Bool) (str : List UInt8) : List UInt8 := str.dropWhile (isBlank signed)

/-- `striptrailing`: the text up to `skiptrailing`. -/
def striptrailing (signed : Bool) (str : List UInt8) : List UInt8 :=
  str.rdropWhile (isBlank signed)

/-- `enum quote_option`. -/
inductive QuoteOption where
  | none
  | enquote
  | dequote
  deriving DecidableEq, Repr

/-- The loop of `QUOTE_ENQUOTE`, with `d` bytes written. -/
def enquoteLoop (maxlen : ℕ) : ℕ → List UInt8 → List UInt8
  | _, [] => []
  | d, c :: source =>
    if d < maxlen - 2 then
      if c = 0x22 then
        if d ≥ maxlen - 3 then []
        else 0x5C :: c :: enquoteLoop maxlen (d + 2) source
      else c :: enquoteLoop maxlen (d + 1) source
    else []

/-- The loop of `QUOTE_DEQUOTE`, with room for `room` bytes. -/
def dequoteLoop : ℕ → List UInt8 → List UInt8
  | 0, _ => []
  | _ + 1, [] => []
  | room + 1, c :: source =>
    if (c = 0x22 ∨ c = 0x5C) ∧ source.head? = some 0x22 then 0x22 :: dequoteLoop room source.tail
    else c :: dequoteLoop room source

/-- The string that `save_strncpy` stores. -/
def savedString (source : List UInt8) (maxlen : ℕ) (option : QuoteOption) : List UInt8 :=
  let option := if option = .enquote ∧ maxlen < 3 then .none else option
  match option with
  | .none => source.take (maxlen - 1)
  | .enquote => 0x22 :: enquoteLoop maxlen 1 source ++ [0x22]
  | .dequote => dequoteLoop (maxlen - 1) source

/-- `dest <= source || dest >= source + maxlen`, for addresses counted from anywhere. -/
def Clear (dest source : Int) (maxlen : ℕ) : Prop := dest ≤ source ∨ source + maxlen ≤ dest

instance (dest source : Int) (maxlen : ℕ) : Decidable (Clear dest source maxlen) :=
  inferInstanceAs (Decidable (_ ∨ _))

/-- `save_strncpy`: the string in `dest`, for the text at `source`. -/
def saveStrncpy (dest source : Int) (text : List UInt8) (maxlen : ℕ) (option : QuoteOption) :
    Except Fault (List UInt8) :=
  if 0 < maxlen ∧ Clear dest source maxlen then .ok (savedString text maxlen option)
  else .error .assertion

/-- The loop of `cleanstring`: the text before a comment. `skip` is set after the first byte of a
pair. -/
def cutComment (isstring skip : Bool) : List UInt8 → List UInt8
  | [] => []
  | c :: string =>
    if skip then c :: cutComment isstring false string
    else if (c = 0x3B ∨ c = 0x23) ∧ ¬ isstring then []
    else if c = 0x22 then
      if string.head? = some 0x22 then c :: cutComment isstring true string
      else c :: cutComment (!isstring) false string
    else if c = 0x5C ∧ string.head? = some 0x22 then c :: cutComment isstring true string
    else c :: cutComment isstring false string

/-- `cleanstring`. -/
def cleanstring (signed : Bool) (string : List UInt8) : List UInt8 × QuoteOption :=
  let string := striptrailing signed (cutComment false false string)
  if string.head? = some 0x22 ∧ string.getLast? = some 0x22 then (string.tail.dropLast, .dequote)
  else (string, .none)

/-- `check_enquote`. -/
def checkEnquote (value : List UInt8) : QuoteOption :=
  if (0x22 ∈ value ∨ 0x3B ∈ value ∨ 0x23 ∈ value) ∨ value.getLast? = some 0x20 then .enquote
  else .none

/-- What is read of the text after a separator, into a buffer with room for all of it. -/
def readValue (signed : Bool) (text : List UInt8) : List UInt8 :=
  let r := cleanstring signed (skipleading signed text)
  savedString r.1 (r.1.length + 1) r.2

variable {signed isstring skip : Bool} {c : UInt8} {xs ys value source : List UInt8}
  {maxlen d n room : ℕ} {option : QuoteOption}

/-! ## `save_strncpy` -/

theorem enquoteLoop_length_le (maxlen d : ℕ) (source : List UInt8) (hd : d ≤ maxlen - 2) :
    (enquoteLoop maxlen d source).length ≤ maxlen - 2 - d := by
  induction source generalizing d with
  | nil => exact Nat.zero_le _
  | cons c source ih =>
    unfold enquoteLoop
    split
    · split
      · split
        · exact Nat.zero_le _
        · have := ih (d + 2) (by omega)
          simp only [List.length_cons]
          omega
      · have := ih (d + 1) (by omega)
        simp only [List.length_cons]
        omega
    · exact Nat.zero_le _

theorem dequoteLoop_length_le (room : ℕ) (source : List UInt8) :
    (dequoteLoop room source).length ≤ room := by
  induction room generalizing source with
  | zero => exact Nat.le_refl _
  | succ room ih =>
    cases source with
    | nil => exact Nat.zero_le _
    | cons c source =>
      unfold dequoteLoop
      split
      · exact Nat.succ_le_succ (ih source.tail)
      · exact Nat.succ_le_succ (ih source)

theorem savedString_none (source : List UInt8) (maxlen : ℕ) :
    savedString source maxlen .none = source.take (maxlen - 1) := rfl

theorem savedString_dequote (source : List UInt8) (maxlen : ℕ) :
    savedString source maxlen .dequote = dequoteLoop (maxlen - 1) source := rfl

theorem savedString_enquote (source : List UInt8) (h : 3 ≤ maxlen) :
    savedString source maxlen .enquote = 0x22 :: enquoteLoop maxlen 1 source ++ [0x22] := by
  unfold savedString
  rw [if_neg (by omega)]

theorem savedString_enquote_small (source : List UInt8) (h : maxlen < 3) :
    savedString source maxlen .enquote = source.take (maxlen - 1) := by
  unfold savedString
  rw [if_pos ⟨rfl, h⟩]

/-- The string and its terminator fit `dest`. -/
theorem savedString_length_lt (source : List UInt8) (h : 0 < maxlen) (option : QuoteOption) :
    (savedString source maxlen option).length < maxlen := by
  cases option with
  | none =>
    rw [savedString_none, List.length_take]
    omega
  | enquote =>
    by_cases hmax : maxlen < 3
    · rw [savedString_enquote_small source hmax, List.length_take]
      omega
    · have := enquoteLoop_length_le maxlen 1 source (by omega)
      rw [savedString_enquote source (by omega)]
      simp only [List.length_cons, List.length_append, List.length_nil]
      omega
  | dequote =>
    have := dequoteLoop_length_le (maxlen - 1) source
    rw [savedString_dequote]
    omega

/-- A byte as it stands between quotes. -/
def escapeByte (c : UInt8) : List UInt8 := if c = 0x22 then [0x5C, 0x22] else [c]

/-- A value as it stands between quotes. -/
def escape (value : List UInt8) : List UInt8 := value.flatMap escapeByte

theorem escape_cons (c : UInt8) (value : List UInt8) :
    escape (c :: value) = escapeByte c ++ escape value := rfl

/-- A quoted value is the escape of a prefix of the value. -/
theorem enquoteLoop_eq_escape (maxlen d : ℕ) (source : List UInt8) :
    ∃ n, enquoteLoop maxlen d source = escape (source.take n) := by
  induction source generalizing d with
  | nil => exact ⟨0, rfl⟩
  | cons c source ih =>
    unfold enquoteLoop
    by_cases hd : d < maxlen - 2
    · by_cases hc : c = 0x22
      · by_cases hd' : d ≥ maxlen - 3
        · exact ⟨0, by simp [hd, hc, hd', escape]⟩
        · obtain ⟨n, hn⟩ := ih (d + 2)
          exact ⟨n + 1, by simp [hd, hc, hd', escape_cons, escapeByte, hn]⟩
      · obtain ⟨n, hn⟩ := ih (d + 1)
        exact ⟨n + 1, by simp [hd, hc, escape_cons, escapeByte, hn]⟩
    · exact ⟨0, by simp [hd, escape]⟩

/-- A value that fits is quoted as a whole. -/
theorem enquoteLoop_of_fits (h : d + (escape source).length ≤ maxlen - 2) :
    enquoteLoop maxlen d source = escape source := by
  induction source generalizing d with
  | nil => rfl
  | cons c source ih =>
    rw [escape_cons, List.length_append] at h
    unfold enquoteLoop
    by_cases hc : c = 0x22
    · have hlen : (escapeByte c).length = 2 := by simp [escapeByte, hc]
      rw [if_pos (by omega), if_pos hc, if_neg (by omega), ih (by omega)]
      simp [escape_cons, escapeByte, hc]
    · have hlen : (escapeByte c).length = 1 := by simp [escapeByte, hc]
      rw [if_pos (by omega), if_neg hc, ih (by omega)]
      simp [escape_cons, escapeByte, hc]

/-- An escaped value starts with a quote only if it is followed by one. -/
theorem head_escape (value ys : List UInt8) (h : (escape value ++ ys).head? = some 0x22) :
    value = [] ∧ ys.head? = some 0x22 := by
  cases value with
  | nil => exact ⟨rfl, h⟩
  | cons c value =>
    by_cases hc : c = 0x22
    · simp [escape_cons, escapeByte, hc] at h
    · simp [escape_cons, escapeByte, hc] at h

/-- An escaped value is read back. -/
theorem dequoteLoop_escape (room : ℕ) (value : List UInt8) :
    dequoteLoop room (escape value) = value.take room := by
  induction value generalizing room with
  | nil => cases room <;> rfl
  | cons c value ih =>
    cases room with
    | zero => rfl
    | succ room =>
      by_cases hc : c = 0x22
      · simp [escape_cons, escapeByte, hc, dequoteLoop, ih]
      · have hnext : (escape value).head? ≠ some 0x22 := fun h => by
          have := head_escape value [] (by rwa [List.append_nil])
          cases this.2
        simp [escape_cons, escapeByte, hc, dequoteLoop, hnext, ih]

/-- A smaller buffer gets a prefix. -/
theorem dequoteLoop_take (room : ℕ) (source : List UInt8) (h : source.length ≤ n) :
    (dequoteLoop n source).take room = dequoteLoop room source := by
  induction room generalizing source n with
  | zero => rfl
  | succ room ih =>
    cases source with
    | nil => cases n <;> rfl
    | cons c source =>
      obtain ⟨n, rfl⟩ : ∃ k, n = k + 1 := ⟨n - 1, by simp at h; omega⟩
      simp only [List.length_cons, Nat.add_le_add_iff_right] at h
      unfold dequoteLoop
      split
      · rw [List.take_succ_cons, ih source.tail (by rw [List.length_tail]; omega)]
      · rw [List.take_succ_cons, ih source h]

/-! ## Comments, blanks and quotes -/

/-- A text without `;` and `#` has no comment. -/
theorem cutComment_of_not_mem (isstring skip : Bool) (h₁ : 0x3B ∉ xs) (h₂ : 0x23 ∉ xs) :
    cutComment isstring skip xs = xs := by
  induction xs generalizing isstring skip with
  | nil => rfl
  | cons c xs ih =>
    simp only [List.mem_cons, not_or] at h₁ h₂
    have ih := fun i s => ih i s h₁.2 h₂.2
    unfold cutComment
    simp only [Ne.symm h₁.1, Ne.symm h₂.1, ih, or_self, false_and, ↓reduceIte, ite_self]

/-- No comment starts between quotes. -/
theorem cutComment_escape (value : List UInt8) (h₁ : 0x3B ∉ ys) (h₂ : 0x23 ∉ ys) :
    cutComment true false (escape value ++ 0x22 :: ys) = escape value ++ 0x22 :: ys := by
  have hrest : ∀ i s, cutComment i s (0x22 :: ys) = 0x22 :: ys := fun i s =>
    cutComment_of_not_mem i s (by simp [h₁]) (by simp [h₂])
  induction value with
  | nil => exact hrest true false
  | cons c value ih =>
    by_cases hc : c = 0x22
    · simp [escape_cons, escapeByte, hc, cutComment, ih]
    · simp only [escape_cons, escapeByte, hc, ↓reduceIte, List.nil_append, List.cons_append,
        cutComment, Bool.false_eq_true, not_true_eq_false, and_false]
      by_cases hnext : c = 0x5C ∧ (escape value ++ 0x22 :: ys).head? = some 0x22
      · -- a backslash that ends the value hides the quote after it
        obtain rfl : value = [] := (head_escape value _ hnext.2).1
        rw [if_pos hnext]
        exact congrArg (c :: ·) (hrest true true)
      · rw [if_neg hnext, ih]

/-- Blanks around a value. -/
def strip (signed : Bool) (value : List UInt8) : List UInt8 :=
  striptrailing signed (skipleading signed value)

theorem isBlank_newline (signed : Bool) : isBlank signed 0x0A = true := by
  cases signed <;> decide

theorem striptrailing_newline (xs : List UInt8) :
    striptrailing signed (xs ++ [0x0A]) = striptrailing signed xs := by
  unfold striptrailing
  rw [List.rdropWhile_concat_pos _ _ _ (isBlank_newline signed)]

/-- A newline at the end is skipped with the blanks before it, or it stays. -/
theorem skipleading_newline (signed : Bool) (xs : List UInt8) :
    skipleading signed (xs ++ [0x0A]) = skipleading signed xs ∨
      skipleading signed (xs ++ [0x0A]) = skipleading signed xs ++ [0x0A] := by
  unfold skipleading
  rw [List.dropWhile_append]
  split
  · rename_i h
    rw [List.isEmpty_iff] at h
    exact .inl (by simp [h, isBlank_newline])
  · exact .inr rfl

/-- A comment cuts the newline with it, or it stays. -/
theorem cutComment_newline (isstring skip : Bool) (xs : List UInt8) :
    cutComment isstring skip (xs ++ [0x0A]) = cutComment isstring skip xs ∨
      cutComment isstring skip (xs ++ [0x0A]) = cutComment isstring skip xs ++ [0x0A] := by
  induction xs generalizing isstring skip with
  | nil => exact .inr (by cases skip <;> rfl)
  | cons c xs ih =>
    have hhead : (xs ++ [0x0A]).head? = some 0x22 ↔ xs.head? = some 0x22 := by
      cases xs <;> simp
    rw [List.cons_append]
    simp only [cutComment, hhead]
    split_ifs
    all_goals first
      | exact .inl rfl
      | exact (ih _ _).imp (congrArg (c :: ·)) (congrArg (c :: ·))

/-- A newline at the end of a line does not change its value. -/
theorem readValue_newline (xs : List UInt8) :
    readValue signed (xs ++ [0x0A]) = readValue signed xs := by
  have hclean : cleanstring signed (skipleading signed (xs ++ [0x0A])) =
      cleanstring signed (skipleading signed xs) := by
    rcases skipleading_newline signed xs with h | h
    · rw [h]
    · rw [h]
      unfold cleanstring
      rcases cutComment_newline false false (skipleading signed xs) with h' | h'
      · rw [h']
      · rw [h', striptrailing_newline]
  unfold readValue
  rw [hclean]

/-! ## Values that were written -/

theorem mem_of_mem_skipleading (h : c ∈ skipleading signed xs) : c ∈ xs :=
  (List.dropWhile_sublist _).mem h

theorem mem_of_mem_striptrailing (h : c ∈ striptrailing signed xs) : c ∈ xs :=
  (List.rdropWhile_prefix _ _).mem h

/-- A value without quotes and comments is read without the blanks around it. -/
theorem readValue_plain (h : 0x22 ∉ value) (h₁ : 0x3B ∉ value) (h₂ : 0x23 ∉ value) :
    readValue signed value = strip signed value := by
  have hcut : cutComment false false (skipleading signed value) = skipleading signed value :=
    cutComment_of_not_mem _ _ (fun hc => h₁ (mem_of_mem_skipleading hc))
      (fun hc => h₂ (mem_of_mem_skipleading hc))
  have hquote : 0x22 ∉ strip signed value := fun hc =>
    h (mem_of_mem_skipleading (mem_of_mem_striptrailing hc))
  have hclean : cleanstring signed (skipleading signed value) = (strip signed value, .none) := by
    unfold cleanstring
    rw [hcut, if_neg]
    · rfl
    · rintro ⟨hhead, -⟩
      exact hquote (List.mem_of_mem_head? hhead)
  unfold readValue
  rw [hclean, savedString_none, List.take_of_length_le (by simp)]

theorem length_le_escape (value : List UInt8) : value.length ≤ (escape value).length := by
  induction value with
  | nil => exact Nat.le_refl _
  | cons c value ih =>
    have : 1 ≤ (escapeByte c).length := by
      unfold escapeByte
      split <;> simp
    rw [escape_cons, List.length_append, List.length_cons]
    omega

/-- A value between quotes is not cut as a comment. -/
theorem cutComment_quoted (value : List UInt8) :
    cutComment false false (0x22 :: escape value ++ [0x22]) = 0x22 :: escape value ++ [0x22] := by
  have h : cutComment true false (escape value ++ [0x22]) = escape value ++ [0x22] :=
    cutComment_escape value List.not_mem_nil List.not_mem_nil
  rw [List.cons_append, cutComment]
  by_cases hnext : (escape value ++ [0x22]).head? = some 0x22
  · obtain rfl : value = [] := (head_escape value _ hnext).1
    rfl
  · rw [if_neg hnext]
    exact congrArg (0x22 :: ·) h

/-- A value that is quoted is read as it was. -/
theorem readValue_quoted (value : List UInt8) :
    readValue signed (0x22 :: escape value ++ [0x22]) = value := by
  have hblank : isBlank signed 0x22 = false := by
    cases signed <;> decide
  have hskip : skipleading signed (0x22 :: escape value ++ [0x22]) =
      0x22 :: escape value ++ [0x22] := by
    unfold skipleading
    rw [List.cons_append, List.dropWhile_cons_of_neg (by simp [hblank])]
  have hstrip : striptrailing signed (0x22 :: escape value ++ [0x22]) =
      0x22 :: escape value ++ [0x22] := by
    unfold striptrailing
    rw [List.rdropWhile_concat_neg _ _ _ (by simp [hblank])]
  have hclean : cleanstring signed (0x22 :: escape value ++ [0x22]) = (escape value, .dequote) := by
    unfold cleanstring
    rw [cutComment_quoted, hstrip, if_pos ⟨rfl, List.getLast?_concat⟩]
    simp
  unfold readValue
  rw [hskip, hclean, savedString_dequote, Nat.add_sub_cancel, dequoteLoop_escape,
    List.take_of_length_le (length_le_escape value)]

end LwMix.MinIni
