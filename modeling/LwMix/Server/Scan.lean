import LwMix.Server.Roster
import Mathlib.Data.Finset.Sort

/-!
# The order in which `serverLoop` serves its descriptors (`lwmix.c`)

* `reported`: what a `select` reports. `served`: the descriptor of an `accept` or a `recv`.
* `pending`: what the scan has still to visit.
* `served_of_run`: along every run the descriptors are served in the order of the reports, each of
  them once, whatever is accepted and closed in between.
-/

namespace LwMix

namespace Server

variable {π χ : Type} {P : PlayerOps π χ} {fdSetSize : ℕ} {w w' : Server π}

/-- The descriptors that a `select` reports. -/
def reported (_ : Server π) : ServerLabel χ → List ℕ
  | .loop (.select ready) => ready.sort
  | _ => []

/-- The descriptor at which `accept` or `recv` is called. -/
def served (w : Server π) : ServerLabel χ → List ℕ
  | .loop (.accept _ _) | .loop (.recv _ _) =>
    match w.loop.pc with
    | .scan i _ => [i]
    | _ => []
  | _ => []

/-- The descriptors that the scan has still to visit. -/
def pending (w : Server π) : List ℕ :=
  match w.loop.pc with
  | .scan i readFds => (readFds.filter (i ≤ ·)).sort
  | _ => []

/-- The scan is at a member. -/
theorem sort_of_mem {i : ℕ} {readFds : Finset ℕ} (hi : i ∈ readFds) :
    (readFds.filter (i ≤ ·)).sort = i :: (readFds.filter (i + 1 ≤ ·)).sort := by
  have hinsert : readFds.filter (i ≤ ·) = insert i (readFds.filter (i + 1 ≤ ·)) := by
    ext j
    simp only [Finset.mem_filter, Finset.mem_insert]
    constructor
    · rintro ⟨hj, hij⟩
      rcases Nat.eq_or_lt_of_le hij with rfl | hlt
      · exact .inl rfl
      · exact .inr ⟨hj, hlt⟩
    · rintro (rfl | ⟨hj, hij⟩)
      · exact ⟨hi, Nat.le_refl _⟩
      · exact ⟨hj, by omega⟩
  rw [hinsert]
  apply Finset.sort_insert
  · intro j hj
    have := (Finset.mem_filter.mp hj).2
    omega
  · simp

/-- The scan is not at a member. -/
theorem sort_of_not_mem {i : ℕ} {readFds : Finset ℕ} (hi : i ∉ readFds) :
    (readFds.filter (i ≤ ·)).sort = (readFds.filter (i + 1 ≤ ·)).sort := by
  congr 1
  apply Finset.filter_congr
  intro j hj
  have hne : j ≠ i := fun h => hi (h ▸ hj)
  omega

/-- **One step** takes what it serves from the front of what is pending. -/
theorem pending_step {l : ServerLabel χ} (hi : w.Inv) (hst : (sys P fdSetSize).step w l w') :
    w.pending ++ reported w l = served w l ++ w'.pending := by
  obtain ⟨o, rfl, -, rfl⟩ | ⟨a, loop, e, rfl, -, hs, rfl⟩ := step_cases hst
  · simp [reported, served, pending]
  cases hs with
  | stop hpc => simp [reported, served, pending, hpc]
  | select ready hpc => simp [reported, served, pending, hpc]
  | skip i readFds hpc hnot hm => simp [reported, served, pending, hpc, sort_of_not_mem hnot]
  | done i readFds hpc hlt =>
    have hempty : readFds.filter (i ≤ ·) = ∅ := by
      apply Finset.filter_eq_empty_iff.mpr
      intro j hj hij
      have := hi.fdmax j (hi.scan i readFds hpc j hj hij)
      omega
    simp [reported, served, pending, hpc, hempty]
  | refuse i readFds x hpc hr _ _ => simp [reported, served, pending, hpc, sort_of_mem hr]
  | accept i readFds fd x players hpc hr _ _ _ _ =>
    simp [reported, served, pending, hpc, sort_of_mem hr]
  | eof i readFds x players hpc hr _ _ _ => simp [reported, served, pending, hpc, sort_of_mem hr]
  | error i readFds x hpc hr _ _ => simp [reported, served, pending, hpc, sort_of_mem hr]
  | data i readFds x c hpc hr _ _ _ => simp [reported, served, pending, hpc, sort_of_mem hr]

/-- **The order of service.** Along every run the descriptors that are served are those that the
`select`s have reported, those of each one in ascending order and each of them once, but for those
that the last scan has still to visit. -/
theorem served_of_run {w₀ : Server π} {p : List (ServerLabel χ × Server π)} (h₀ : w₀.Initial)
    (h : (sys P fdSetSize).Run w₀ p) :
    Lts.along reported w₀ p = Lts.along served w₀ p ++ (Lts.last w₀ p).pending := by
  have hstart : w₀.pending = [] := by
    obtain ⟨buffer, players, hl⟩ := h₀.loop
    unfold pending
    rw [hl]
    rfl
  have hqueue := h.queue h₀.inv (fun _ _ _ hi hst => hi.step hst) fun _ _ _ hi hst =>
    pending_step hi hst
  rwa [hstart, List.nil_append] at hqueue

/-- A `select` reports two clients: the first one leaves, and the second one is still visited. -/
theorem served_of_run_two : ∃ p, (sys Roster.ops 1024).Run fresh p ∧
    Lts.along reported fresh p = [0, 0, 1] ++ (Lts.last fresh p).pending ∧
    (Lts.last fresh p).loop.pc = .scan 2 {1, 2} := by
  obtain ⟨p, hp, hserved, hpc⟩ : ∃ p, Lts.path Admits (step Roster.ops 1024) fresh
      (twoClients ++ [.loop (.select {1, 2}), .loop .next, .loop (.recv .eof ())]) = some p ∧
      Lts.along served fresh p = [0, 0, 1] ∧ (Lts.last fresh p).loop.pc = .scan 2 {1, 2} :=
    ⟨_, rfl, rfl, rfl⟩
  have h := Lts.run_of_path _ hp
  exact ⟨p, h, hserved ▸ served_of_run fresh_empty.1 h, hpc⟩

end Server

end LwMix
