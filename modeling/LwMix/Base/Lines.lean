import Mathlib.Data.List.TakeWhile
import Mathlib.Tactic.Cases

/-!
# Reading a text line by line into a bounded buffer

A read takes the elements up to the first `nl`, and at most `m + 1` of them, so a long line comes in
pieces.

* `line`: what a read takes. `lines`: all reads.
* `Whole l`: the line `l` is read again, whatever follows it. Only the last line of a text may not be
  whole.
* `lines_append`: the lines of a text that starts with whole lines.
-/

namespace LwMix

variable {α : Type*} [DecidableEq α] {nl : α} {m n : ℕ} {l xs ys : List α} {ls ks : List (List α)}

/-- The elements up to the first `nl`, at most `n`. -/
def line (nl : α) : ℕ → List α → List α
  | 0, _ => []
  | _ + 1, [] => []
  | n + 1, x :: xs => if x = nl then [x] else x :: line nl n xs

/-- The lines of a text, if `r + 1` more elements fit the line in which it starts. -/
def linesFrom (nl : α) (m : ℕ) : ℕ → List α → List (List α)
  | _, [] => []
  | 0, x :: xs => [x] :: linesFrom nl m m xs
  | r + 1, x :: xs =>
    if x = nl then [x] :: linesFrom nl m m xs
    else
      match linesFrom nl m r xs with
      | [] => [[x]]
      | l :: ls => (x :: l) :: ls

/-- The lines of a text, each with at most `m + 1` elements. -/
def lines (nl : α) (m : ℕ) (xs : List α) : List (List α) := linesFrom nl m m xs

@[simp] theorem lines_nil : lines nl m [] = [] := by
  cases m <;> rfl

@[simp] theorem line_nil : line nl n [] = [] := by
  cases n <;> rfl

theorem line_start (nl : α) (n : ℕ) (xs : List α) : line nl n xs <+: xs := by
  induction n generalizing xs with
  | zero => exact List.nil_prefix
  | succ n ih =>
    cases xs with
    | nil => exact List.nil_prefix
    | cons x xs =>
      unfold line
      split
      · exact List.prefix_append [x] xs
      · exact List.cons_prefix_cons.mpr ⟨rfl, ih xs⟩

theorem line_append_drop (nl : α) (n : ℕ) (xs : List α) :
    line nl n xs ++ xs.drop (line nl n xs).length = xs :=
  List.prefix_iff_eq_append.mp (line_start nl n xs)

theorem line_length_le (nl : α) (n : ℕ) (xs : List α) : (line nl n xs).length ≤ n := by
  induction n generalizing xs with
  | zero => rfl
  | succ n ih =>
    cases xs with
    | nil => exact Nat.zero_le _
    | cons x xs =>
      have := ih xs
      unfold line
      split <;> simp only [List.length_cons, List.length_nil] <;> omega

/-- A smaller read takes a prefix of a larger one. -/
theorem line_take (h : n ≤ m) (xs : List α) : (line nl m xs).take n = line nl n xs := by
  induction n generalizing m xs with
  | zero => rfl
  | succ n ih =>
    obtain ⟨m, rfl⟩ : ∃ k, m = k + 1 := ⟨m - 1, by omega⟩
    cases xs with
    | nil => rfl
    | cons x xs =>
      unfold line
      split
      · simp
      · rw [List.take_succ_cons, ih (by omega)]

theorem line_ne_nil (h : xs ≠ []) : line nl (n + 1) xs ≠ [] := by
  cases xs with
  | nil => exact absurd rfl h
  | cons x xs =>
    unfold line
    split <;> simp

theorem linesFrom_cons (x : α) (xs : List α) (r : ℕ) : linesFrom nl m r (x :: xs) =
    line nl (r + 1) (x :: xs) ::
      lines nl m ((x :: xs).drop (line nl (r + 1) (x :: xs)).length) := by
  induction xs generalizing x r with
  | nil => cases r <;> simp [linesFrom, line]
  | cons y ys ih =>
    cases r with
    | zero => by_cases hx : x = nl <;> simp [linesFrom, line, lines, hx]
    | succ r =>
      by_cases hx : x = nl
      · simp [linesFrom, line, lines, hx]
      · rw [linesFrom, if_neg hx, ih y r]
        simp [line, hx]

/-- One read, and the reads of the rest. -/
theorem lines_of_ne_nil (h : xs ≠ []) : lines nl m xs =
    line nl (m + 1) xs :: lines nl m (xs.drop (line nl (m + 1) xs).length) := by
  cases xs with
  | nil => exact absurd rfl h
  | cons x xs => exact linesFrom_cons x xs m

theorem lines_eq_nil : lines nl m xs = [] ↔ xs = [] := by
  constructor
  · intro h
    by_contra hne
    rw [lines_of_ne_nil hne] at h
    cases h
  · rintro rfl
    exact lines_nil

/-- The text that the first read leaves. -/
theorem lines_eq_cons (h : lines nl m xs = l :: ls) :
    ∃ ys, xs = l ++ ys ∧ line nl (m + 1) xs = l ∧ l ≠ [] ∧ lines nl m ys = ls := by
  have hne : xs ≠ [] := fun hnil => by simp [hnil] at h
  rw [lines_of_ne_nil hne, List.cons.injEq] at h
  refine ⟨xs.drop l.length, ?_, h.1, ?_, h.1 ▸ h.2⟩
  · rw [← h.1, line_append_drop]
  · rw [← h.1]
    exact line_ne_nil hne

theorem lines_line (hne : l ≠ []) (h : line nl (m + 1) (l ++ ys) = l) :
    lines nl m (l ++ ys) = l :: lines nl m ys := by
  rw [lines_of_ne_nil (by simp [hne]), h, List.drop_left]

theorem flatten_lines (nl : α) (m : ℕ) (xs : List α) : (lines nl m xs).flatten = xs := by
  generalize h : lines nl m xs = ls
  induction ls generalizing xs with
  | nil => rw [lines_eq_nil.mp h, List.flatten_nil]
  | cons l ls ih =>
    obtain ⟨ys, rfl, -, -, hys⟩ := lines_eq_cons h
    rw [List.flatten_cons, ih ys hys]

theorem mem_of_mem_lines {x : α} (hl : l ∈ lines nl m xs) (hx : x ∈ l) : x ∈ xs := by
  rw [← flatten_lines nl m xs]
  exact List.mem_flatten.mpr ⟨l, hl, hx⟩

theorem ne_nil_of_mem_lines (h : l ∈ lines nl m xs) : l ≠ [] := by
  generalize hls : lines nl m xs = ls at h
  induction ls generalizing xs with
  | nil => cases h
  | cons k ls ih =>
    obtain ⟨ys, -, -, hne, hys⟩ := lines_eq_cons hls
    rcases List.mem_cons.mp h with rfl | h
    · exact hne
    · exact ih hys h

/-! ## Whole lines -/

/-- The line is read again, whatever follows it. -/
def Whole (nl : α) (m : ℕ) (l : List α) : Prop := l ≠ [] ∧ ∀ ys, line nl (m + 1) (l ++ ys) = l

theorem line_append_of_length_le (hl : nl ∉ l) (h : l.length ≤ n) :
    line nl n (l ++ ys) = l ++ line nl (n - l.length) ys := by
  induction l generalizing n with
  | nil => rfl
  | cons x l ih =>
    obtain ⟨n, rfl⟩ : ∃ k, n = k + 1 := ⟨n - 1, by simp at h; omega⟩
    simp only [List.mem_cons, not_or] at hl
    rw [List.cons_append, line, if_neg (Ne.symm hl.1), ih hl.2 (by simpa using h)]
    simp

/-- A text that ends with its only `nl`. -/
theorem whole_of_newline (hl : nl ∉ l) (h : l.length ≤ m) : Whole nl m (l ++ [nl]) := by
  refine ⟨by simp, fun ys => ?_⟩
  rw [List.append_assoc, line_append_of_length_le hl (by omega),
    show m + 1 - l.length = (m - l.length) + 1 by omega]
  simp [line]

/-- A line before other text is whole. -/
theorem whole_of_line (hne : l ≠ []) (hys : ys ≠ []) (h : line nl (m + 1) (l ++ ys) = l) :
    Whole nl m l := by
  refine ⟨hne, fun zs => ?_⟩
  generalize m + 1 = n at h
  clear hne
  induction l generalizing n with
  | nil =>
    cases n with
    | zero => rfl
    | succ n => exact absurd h (line_ne_nil (by simpa using hys))
  | cons x l ih =>
    cases n with
    | zero => simp [line] at h
    | succ n =>
      rw [List.cons_append, line] at h ⊢
      by_cases hx : x = nl
      · rwa [if_pos hx] at h ⊢
      · rw [if_neg hx, List.cons.injEq] at h ⊢
        exact ⟨rfl, ih n h.2⟩

theorem Whole.lines_append (h : Whole nl m l) (ys : List α) :
    lines nl m (l ++ ys) = l :: lines nl m ys :=
  lines_line h.1 (h.2 ys)

/-- The lines of a text that starts with whole lines. -/
theorem lines_append (h : ∀ l ∈ ls, Whole nl m l) (ys : List α) :
    lines nl m (ls.flatten ++ ys) = ls ++ lines nl m ys := by
  induction ls with
  | nil => rfl
  | cons l ls ih =>
    rw [List.flatten_cons, List.append_assoc, (h l (by simp)).lines_append,
      ih fun k hk => h k (by simp [hk]), List.cons_append]

/-- Only the last line of a text may not be whole. -/
theorem whole_of_lines_append (h : lines nl m xs = ls ++ ks) (hks : ks ≠ []) :
    ∀ l ∈ ls, Whole nl m l := by
  induction ls generalizing xs with
  | nil => simp
  | cons l ls ih =>
    obtain ⟨ys, rfl, hline, hne, hys⟩ := lines_eq_cons h
    intro k hk
    rcases List.mem_cons.mp hk with rfl | hk
    · refine whole_of_line hne (fun hnil => ?_) hline
      rw [hnil, lines_nil] at hys
      exact hks (List.append_eq_nil_iff.mp hys.symm).2
    · exact ih hys k hk

/-- A line with an `nl` ends with it. -/
theorem line_eq_of_mem (h : line nl n l = l) (hl : nl ∈ l) : ∃ ks, l = ks ++ [nl] ∧ nl ∉ ks := by
  induction l generalizing n with
  | nil => cases hl
  | cons x l ih =>
    cases n with
    | zero => cases h
    | succ n =>
      rw [line] at h
      by_cases hx : x = nl
      · rw [if_pos hx, List.cons.injEq] at h
        exact ⟨[], by simp [← h.2, hx], List.not_mem_nil⟩
      · rw [if_neg hx, List.cons.injEq] at h
        have hmem : nl ∈ l := (List.mem_cons.mp hl).resolve_left (Ne.symm hx)
        obtain ⟨ks, rfl, hks⟩ := ih h.2 hmem
        exact ⟨x :: ks, rfl, by simp [hks, Ne.symm hx]⟩

/-- The last line of a text is whole, or an `nl` makes it so. -/
theorem whole_or_of_line (hne : l ≠ []) (h : line nl (m + 1) l = l) :
    Whole nl m l ∨ nl ∉ l ∧ Whole nl m (l ++ [nl]) := by
  have hlen : l.length ≤ m + 1 := h ▸ line_length_le nl (m + 1) l
  by_cases hl : nl ∈ l
  · obtain ⟨ks, rfl, hks⟩ := line_eq_of_mem h hl
    rw [List.length_append, List.length_singleton] at hlen
    exact .inl (whole_of_newline hks (by omega))
  · by_cases hm : l.length ≤ m
    · exact .inr ⟨hl, whole_of_newline hl hm⟩
    · refine .inl ⟨hne, fun ys => ?_⟩
      rw [line_append_of_length_le hl hlen, show m + 1 - l.length = 0 by omega]
      simp [line]

theorem whole_or_of_lines (h : lines nl m xs = ls ++ [l]) :
    Whole nl m l ∨ nl ∉ l ∧ Whole nl m (l ++ [nl]) := by
  induction ls generalizing xs with
  | nil =>
    obtain ⟨ys, rfl, hline, hne, hys⟩ := lines_eq_cons h
    rw [lines_eq_nil.mp hys, List.append_nil] at hline
    exact whole_or_of_line hne hline
  | cons k ls ih =>
    obtain ⟨ys, -, -, -, hys⟩ := lines_eq_cons h
    exact ih hys

end LwMix
