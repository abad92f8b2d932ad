import Mathlib.Data.List.Infix

/-!
# Texts that are joined by markers

`cut sep xs` splits `xs` at the first occurrence of `sep`. A **marker** is a text whose first
element is not in the rest of it, so it does not overlap itself.

* `cut_append`: a text without the marker is cut off at the marker.
* `cut_none`: a text without the marker is not cut.
* `not_infix_append`, `not_infix_append_left`: when a marker is not across the end of a text.
-/

namespace LwMix

variable {α : Type*} {sep xs ys : List α}

/-- A prefix of `xs ++ ys` is a prefix of `xs`, or goes on into `ys`. -/
theorem prefix_append_cases (h : sep <+: xs ++ ys) :
    sep <+: xs ∨ ∃ v, v ≠ [] ∧ sep = xs ++ v ∧ v <+: ys := by
  rcases Nat.le_total sep.length xs.length with hle | hle
  · exact .inl (List.prefix_of_prefix_length_le h (List.prefix_append xs ys) hle)
  · obtain ⟨v, rfl⟩ := List.prefix_of_prefix_length_le (List.prefix_append xs ys) h hle
    rcases eq_or_ne v [] with rfl | hv
    · exact .inl (by simp)
    · exact .inr ⟨v, hv, rfl, (List.prefix_append_right_inj xs).mp h⟩

/-- What follows starts with an element that a marker has at its start only. -/
theorem not_prefix_append (hne : xs ≠ []) (hxs : ¬ sep <+: xs)
    (hys : ∀ c ∈ ys.head?, c ∉ sep.tail) :
    ¬ sep <+: xs ++ ys := by
  intro h
  rcases prefix_append_cases h with h | ⟨v, hv, rfl, w, rfl⟩
  · exact hxs h
  · obtain ⟨c, v, rfl⟩ := List.exists_cons_of_ne_nil hv
    obtain ⟨x, xs, rfl⟩ := List.exists_cons_of_ne_nil hne
    exact hys c (by simp) (by simp)

/-- A text without an element of the marker. -/
theorem not_infix_of_not_mem {c : α} (hsep : c ∈ sep) (hc : c ∉ xs) : ¬ sep <:+: xs :=
  fun h => hc (h.subset hsep)

/-- The marker is not in `ys`, and does not start in `xs`. -/
theorem not_infix_append_of (hys : ¬ sep <:+: ys)
    (h : ∀ u, u <:+ xs → u ≠ [] → ¬ sep <+: u ++ ys) : ¬ sep <:+: xs ++ ys := by
  induction xs with
  | nil => exact hys
  | cons x xs ih =>
    rw [List.cons_append, List.infix_cons_iff, not_or]
    exact ⟨h (x :: xs) (List.suffix_refl _) (by simp),
      ih fun u hu => h u (hu.trans (List.suffix_cons x xs))⟩

/-- No end of `xs` starts the marker. -/
theorem not_infix_append_left (hxs : ¬ sep <:+: xs) (hys : ¬ sep <:+: ys)
    (hu : ∀ u ∈ xs.tails, u ≠ [] → ¬ u <+: sep) : ¬ sep <:+: xs ++ ys := by
  refine not_infix_append_of hys fun u hsuf hne hpre => ?_
  rcases prefix_append_cases hpre with h | ⟨v, -, rfl, -⟩
  · exact hxs (h.isInfix.trans hsuf.isInfix)
  · exact hu u ((List.mem_tails u xs).mpr hsuf) hne (List.prefix_append u v)

/-- What follows starts with an element that the marker has at its start only. -/
theorem not_infix_append (hxs : ¬ sep <:+: xs) (hys : ¬ sep <:+: ys)
    (hc : ∀ c ∈ ys.head?, c ∉ sep.tail) : ¬ sep <:+: xs ++ ys := by
  refine not_infix_append_of hys fun u hsuf hne => ?_
  exact not_prefix_append hne (fun h => hxs (h.isInfix.trans hsuf.isInfix)) hc

variable [DecidableEq α]

/-- The parts of `xs` before and after the first `sep`. -/
def cut (sep : List α) : List α → Option (List α × List α)
  | [] => none
  | x :: xs =>
    if sep.isPrefixOf (x :: xs) then some ([], (x :: xs).drop sep.length)
    else (cut sep xs).map fun p => (x :: p.1, p.2)

/-- The first element of `sep` is not in the rest of it. -/
def isMarker : List α → Bool
  | [] => false
  | s :: t => s ∉ t

/-- **A text is cut off at the marker.** -/
theorem cut_append (hsep : isMarker sep) (hxs : ¬ sep <:+: xs) (rest : List α) :
    cut sep (xs ++ (sep ++ rest)) = some (xs, rest) := by
  obtain ⟨s, t, rfl⟩ : ∃ s t, sep = s :: t := by
    cases sep with
    | nil => cases hsep
    | cons s t => exact ⟨s, t, rfl⟩
  have hs : s ∉ t := by simpa [isMarker] using hsep
  induction xs with
  | nil =>
    rw [List.nil_append, List.cons_append, cut, if_pos (by simp)]
    simp
  | cons x xs ih =>
    rw [List.infix_cons_iff, not_or] at hxs
    have hpre : ¬ (s :: t) <+: (x :: xs) ++ ((s :: t) ++ rest) :=
      not_prefix_append (by simp) hxs.1 (by simpa using hs)
    rw [List.cons_append] at hpre ⊢
    rw [cut, if_neg (by rwa [List.isPrefixOf_iff_prefix]), ih hxs.2]
    rfl

/-- A text that starts with the marker. -/
theorem cut_prefix_of (hne : xs ≠ []) (h : sep <+: xs) : ∃ ys, cut sep xs = some ([], ys) := by
  obtain ⟨x, xs, rfl⟩ := List.exists_cons_of_ne_nil hne
  exact ⟨_, by rw [cut, if_pos (by rwa [List.isPrefixOf_iff_prefix])]⟩

theorem cut_none (hxs : ¬ sep <:+: xs) : cut sep xs = none := by
  induction xs with
  | nil => rfl
  | cons x xs ih =>
    rw [List.infix_cons_iff, not_or] at hxs
    rw [cut, if_neg (by rw [List.isPrefixOf_iff_prefix]; exact hxs.1), ih hxs.2]
    rfl

/-- A text is cut at its start. -/
theorem cut_start (hsep : isMarker sep) (rest : List α) :
    cut sep (sep ++ rest) = some ([], rest) := by
  have hne : ¬ sep <:+: [] := by
    rw [List.infix_nil]
    rintro rfl
    cases hsep
  exact cut_append hsep hne rest

end LwMix
