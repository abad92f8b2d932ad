import Mathlib.Tactic.TypeStar

/-!
# Labelled transition systems and their runs

A system is a step relation `step s l s'` with a label `l`. A **run** from `s` is the list of its
labels, each with the state that the step reaches, so a property of every state that a run reaches
and a condition on every step that a run takes are both statements about that list.

* `Reach.invariant`: a property that every step preserves holds of every reachable state.
* `Run.always`, `Run.always_iff`: the rules for a property that not every step preserves. If the
  good steps preserve an invariant that implies `P`, and every other step leaves `P` false, then `P`
  holds of every state of a run exactly when every step of the run is good.
* `Run.simulate`: a run of good steps is simulated by another system.
* `Run.queue`: what comes in along a run goes out in the same order.
* `ofStep`, `path`, `exec`: the system of a step function with an admission test for its labels, and
  the run that a list of labels gives, or its last state, by evaluation.
-/

namespace LwMix

/-- A labelled transition system. -/
structure Lts (σ ι : Type*) where
  step : σ → ι → σ → Prop

namespace Lts

variable {σ ι ε : Type*} {S : Lts σ ι}

/-- The states that can be reached from `s₀`. -/
inductive Reach (S : Lts σ ι) (s₀ : σ) : σ → Prop
  | refl : Reach S s₀ s₀
  | tail {s s' : σ} {l : ι} : Reach S s₀ s → S.step s l s' → Reach S s₀ s'

/-- The runs from a state. -/
inductive Run (S : Lts σ ι) : σ → List (ι × σ) → Prop
  | nil (s : σ) : Run S s []
  | cons {s s' : σ} {l : ι} {p : List (ι × σ)} :
      S.step s l s' → Run S s' p → Run S s ((l, s') :: p)

/-- Every step of the run `p` from `s` satisfies `G`, a condition on the state before the step and
the label. -/
def AllSteps (G : σ → ι → Prop) : σ → List (ι × σ) → Prop
  | _, [] => True
  | s, (l, s') :: p => G s l ∧ AllSteps G s' p

@[simp] theorem allSteps_nil (G : σ → ι → Prop) (s : σ) : AllSteps G s [] := trivial

@[simp] theorem allSteps_cons {G : σ → ι → Prop} {s s' : σ} {l : ι} {p : List (ι × σ)} :
    AllSteps G s ((l, s') :: p) ↔ G s l ∧ AllSteps G s' p := Iff.rfl

instance instDecidableAllSteps {G : σ → ι → Prop} [∀ s l, Decidable (G s l)] :
    (s : σ) → (p : List (ι × σ)) → Decidable (AllSteps G s p)
  | _, [] => .isTrue trivial
  | s, (l, s') :: p =>
    haveI : Decidable (AllSteps G s' p) := instDecidableAllSteps s' p
    inferInstanceAs (Decidable (G s l ∧ AllSteps G s' p))

theorem AllSteps.mono {G G' : σ → ι → Prop} (hG : ∀ s l, G s l → G' s l) {s : σ}
    {p : List (ι × σ)} (h : AllSteps G s p) : AllSteps G' s p := by
  induction p generalizing s with
  | nil => trivial
  | cons x p ih => exact ⟨hG _ _ h.1, ih h.2⟩

theorem AllSteps.and {G G' : σ → ι → Prop} {s : σ} {p : List (ι × σ)} (h : AllSteps G s p)
    (h' : AllSteps G' s p) : AllSteps (fun s l => G s l ∧ G' s l) s p := by
  induction p generalizing s with
  | nil => trivial
  | cons x p ih => exact ⟨⟨h.1, h'.1⟩, ih h.2 h'.2⟩

/-- What holds of every state holds where the steps are made. -/
theorem AllSteps.of_forall {P : σ → Prop} {s : σ} {p : List (ι × σ)} (h₀ : P s)
    (h : ∀ x ∈ p, P x.2) : AllSteps (fun s _ => P s) s p := by
  induction p generalizing s with
  | nil => trivial
  | cons x p ih =>
    exact ⟨h₀, ih (h x List.mem_cons_self) fun y hy => h y (List.mem_cons_of_mem x hy)⟩

/-- An invariant of every step holds of every reachable state. -/
theorem Reach.invariant {I : σ → Prop} {s₀ s : σ} (h : S.Reach s₀ s) (h₀ : I s₀)
    (hI : ∀ s l s', I s → S.step s l s' → I s') : I s := by
  induction h with
  | refl => exact h₀
  | tail _ hst ih => exact hI _ _ _ ih hst

theorem Reach.trans {s₀ s s' : σ} (h : S.Reach s₀ s) (h' : S.Reach s s') : S.Reach s₀ s' := by
  induction h' with
  | refl => exact h
  | tail _ hst ih => exact .tail ih hst

/-- Every state of a run is reachable. -/
theorem Run.reach {s : σ} {p : List (ι × σ)} (h : S.Run s p) : ∀ x ∈ p, S.Reach s x.2 := by
  induction h with
  | nil => simp
  | cons hst _ ih =>
    intro x hx
    rcases List.mem_cons.mp hx with rfl | hx
    · exact .tail .refl hst
    · exact (Reach.tail .refl hst).trans (ih x hx)

/-- A run of a system whose steps are steps of another one. -/
theorem Run.mono {T : Lts σ ι} (hST : ∀ s l s', S.step s l s' → T.step s l s') {s : σ}
    {p : List (ι × σ)} (h : S.Run s p) : T.Run s p := by
  induction h with
  | nil s => exact .nil s
  | cons hst _ ih => exact .cons (hST _ _ _ hst) ih

/-- Good steps preserve `I`, so a run of good steps stays in `I`. -/
theorem Run.always {I : σ → Prop} {G : σ → ι → Prop} {s : σ} {p : List (ι × σ)} (h : S.Run s p)
    (h₀ : I s) (hI : ∀ s l s', I s → G s l → S.step s l s' → I s') (hG : AllSteps G s p) :
    ∀ x ∈ p, I x.2 := by
  induction h with
  | nil => simp
  | cons hst _ ih =>
    have hs' := hI _ _ _ h₀ hG.1 hst
    intro x hx
    rcases List.mem_cons.mp hx with rfl | hx
    · exact hs'
    · exact ih hs' hG.2 x hx

/-- **Exact runs.** Good steps preserve `I`, which implies `P`, and a step from `I` that is not good
ends outside `P`: then `P` holds all along a run iff all its steps are good. -/
theorem Run.always_iff {I P : σ → Prop} {G : σ → ι → Prop} {s : σ} {p : List (ι × σ)}
    (h : S.Run s p) (h₀ : I s) (hI : ∀ s l s', I s → G s l → S.step s l s' → I s')
    (hP : ∀ s, I s → P s) (hN : ∀ s l s', I s → ¬ G s l → S.step s l s' → ¬ P s') :
    (∀ x ∈ p, P x.2) ↔ AllSteps G s p := by
  constructor
  · intro hall
    induction h with
    | nil => trivial
    | @cons s s' l p hst _ ih =>
      have hg : G s l := Classical.byContradiction fun hg =>
        hN _ _ _ h₀ hg hst (hall _ List.mem_cons_self)
      exact ⟨hg, ih (hI _ _ _ h₀ hg hst) fun x hx => hall x (List.mem_cons_of_mem _ hx)⟩
  · intro hG x hx
    exact hP _ (h.always h₀ hI hG x hx)

/-- **Simulation.** If the good steps from related states are matched by steps of `T`, then every
state of a run of good steps is related to a reachable state of `T`. -/
theorem Run.simulate {τ κ : Type*} {T : Lts τ κ} {R : σ → τ → Prop} {G : σ → ι → Prop} {s : σ}
    {t : τ} {p : List (ι × σ)} (h : S.Run s p) (h₀ : R s t)
    (hR : ∀ s l s' t, R s t → G s l → S.step s l s' → ∃ l' t', T.step t l' t' ∧ R s' t')
    (hG : AllSteps G s p) : ∀ x ∈ p, ∃ t', T.Reach t t' ∧ R x.2 t' := by
  refine h.always (I := fun s => ∃ t', T.Reach t t' ∧ R s t') ⟨t, .refl, h₀⟩ ?_ hG
  rintro s l s' ⟨t', ht', hr⟩ hg hst
  obtain ⟨l', t'', hst', hr'⟩ := hR s l s' t' hr hg hst
  exact ⟨t'', ht'.tail hst', hr'⟩

/-! ## What a run gives -/

/-- The last state of a run. -/
def last : σ → List (ι × σ) → σ
  | s, [] => s
  | _, (_, s') :: p => last s' p

theorem Run.reach_last {s : σ} {p : List (ι × σ)} (h : S.Run s p) : S.Reach s (last s p) := by
  induction h with
  | nil => exact .refl
  | cons hst _ ih => exact (Reach.tail .refl hst).trans ih

/-- What the steps of a run give, in their order. -/
def along {α : Type*} (f : σ → ι → List α) : σ → List (ι × σ) → List α
  | _, [] => []
  | s, (l, s') :: p => f s l ++ along f s' p

theorem along_flatMap {α β : Type*} (f : σ → ι → List α) (g : α → List β) (s : σ)
    (p : List (ι × σ)) :
    along (fun s l => (f s l).flatMap g) s p = (along f s p).flatMap g := by
  induction p generalizing s with
  | nil => rfl
  | cons x p ih => rw [along, along, List.flatMap_append, ih]

theorem allSteps_of_along {α : Type*} {f : σ → ι → List α} {P : α → Prop} {s : σ}
    {p : List (ι × σ)} (h : ∀ x ∈ along f s p, P x) : AllSteps (fun s l => ∀ x ∈ f s l, P x) s p := by
  induction p generalizing s with
  | nil => trivial
  | cons y p ih =>
    simp only [along, List.mem_append] at h
    exact ⟨fun x hx => h x (.inl hx), ih fun x hx => h x (.inr hx)⟩

/-- **Queues.** If every step takes what it gives out from the front of a queue, and puts what comes in
behind it, then what comes in along a run goes out in the same order, but for what is left. -/
theorem Run.queue {α : Type*} {I : σ → Prop} {pending : σ → List α} {inp out : σ → ι → List α} {s : σ}
    {p : List (ι × σ)} (h : S.Run s p) (h₀ : I s) (hI : ∀ s l s', I s → S.step s l s' → I s')
    (hq : ∀ s l s', I s → S.step s l s' → pending s ++ inp s l = out s l ++ pending s') :
    pending s ++ along inp s p = along out s p ++ pending (last s p) := by
  induction h with
  | nil s => simp [along, last]
  | @cons s s' l p hst _ ih =>
    simp only [along, last]
    rw [← List.append_assoc, hq s l s' h₀ hst, List.append_assoc, ih (hI s l s' h₀ hst),
      List.append_assoc]

/-! ## Systems given by a step function -/

/-- The system of the step function `f`, which may fail, on the labels that `ok` admits. -/
def ofStep (ok : σ → ι → Prop) (f : σ → ι → Except ε σ) : Lts σ ι where
  step s l s' := ok s l ∧ f s l = .ok s'

@[simp] theorem ofStep_step {ok : σ → ι → Prop} {f : σ → ι → Except ε σ} {s s' : σ} {l : ι} :
    (ofStep ok f).step s l s' ↔ ok s l ∧ f s l = .ok s' := Iff.rfl

variable (ok : σ → ι → Prop) [∀ s l, Decidable (ok s l)] (f : σ → ι → Except ε σ)

/-- The run of the labels `ls` from `s`, if each is admitted and no step fails. -/
def path : σ → List ι → Option (List (ι × σ))
  | _, [] => some []
  | s, l :: ls =>
    if ok s l then
      match f s l with
      | .ok s' => (path s' ls).map ((l, s') :: ·)
      | .error _ => none
    else none

theorem run_of_path {ok : σ → ι → Prop} [∀ s l, Decidable (ok s l)] {f : σ → ι → Except ε σ}
    {s : σ} {p : List (ι × σ)} (ls : List ι) (h : path ok f s ls = some p) :
    (ofStep ok f).Run s p := by
  induction ls generalizing s p with
  | nil => cases h; exact .nil s
  | cons l ls ih =>
    simp only [path] at h
    split at h
    · rename_i hok
      split at h
      · rename_i s' hf
        obtain ⟨q, hq, rfl⟩ := Option.map_eq_some_iff.mp h
        exact .cons ⟨hok, hf⟩ (ih hq)
      · cases h
    · cases h

/-- The same for labels that are admitted in every state. -/
theorem run_of_path_of_forall {G : ι → Prop} {f : σ → ι → Except ε σ} {s : σ} {p : List (ι × σ)}
    {ls : List ι} (hG : ∀ l ∈ ls, G l) (h : path (fun _ _ => True) f s ls = some p) :
    (ofStep (fun _ l => G l) f).Run s p := by
  induction ls generalizing s p with
  | nil => cases h; exact .nil s
  | cons l ls ih =>
    obtain ⟨hl, hls⟩ := List.forall_mem_cons.mp hG
    rw [path, if_pos trivial] at h
    split at h
    · rename_i s' hf
      obtain ⟨q, hq, rfl⟩ := Option.map_eq_some_iff.mp h
      exact .cons ⟨hl, hf⟩ (ih hls hq)
    · cases h

/-- The state after the labels `ls`, if each is admitted and no step fails. -/
def exec : σ → List ι → Option σ
  | s, [] => some s
  | s, l :: ls =>
    if ok s l then
      match f s l with
      | .ok s' => exec s' ls
      | .error _ => none
    else none

theorem reach_of_exec {ok : σ → ι → Prop} [∀ s l, Decidable (ok s l)] {f : σ → ι → Except ε σ}
    {s s' : σ} {ls : List ι} (h : exec ok f s ls = some s') : (ofStep ok f).Reach s s' := by
  induction ls generalizing s with
  | nil => cases h; exact .refl
  | cons l ls ih =>
    simp only [exec] at h
    split at h
    · rename_i hok
      split at h
      · rename_i s₁ hf
        have hst : (ofStep ok f).step s l s₁ := ⟨hok, hf⟩
        exact (Reach.tail .refl hst).trans (ih h)
      · cases h
    · cases h

end Lts

end LwMix
