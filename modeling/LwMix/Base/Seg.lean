import Mathlib.Data.List.Nodup
import Mathlib.Tactic.TypeStar

/-!
# Segments of a linked structure

`Seg f a ns b`: following the partial successor function `f` from `a` visits the nodes `ns`, one
after the other, and arrives at `b`. The successor function is arbitrary: the `next` field of the
nodes of a heap, the edges of a functional graph, the transitions of a deterministic machine.

* `seg_append`: a segment splits at every node.
* `Seg.congr`: a segment depends on the successors of its own nodes only, so a change elsewhere
  keeps it.
* `Seg.unique`, `Seg.nodup`: a walk that arrives at a place without a successor is the only such
  walk, and visits no node twice.
-/

namespace LwMix

variable {α : Type*} {f g : α → Option α} {a b c n : α} {ns ms : List α}

/-- Following `f` from `a` visits `ns` and arrives at `b`. -/
def Seg (f : α → Option α) (a : α) : List α → α → Prop
  | [], b => a = b
  | n :: ns, b => n = a ∧ ∃ c, f a = some c ∧ Seg f c ns b

@[simp] theorem seg_nil : Seg f a [] b ↔ a = b := Iff.rfl

@[simp] theorem seg_cons : Seg f a (n :: ns) b ↔ n = a ∧ ∃ c, f a = some c ∧ Seg f c ns b := Iff.rfl

theorem seg_append : Seg f a (ns ++ ms) b ↔ ∃ c, Seg f a ns c ∧ Seg f c ms b := by
  induction ns generalizing a with
  | nil => simp
  | cons n ns ih =>
    simp only [List.cons_append, seg_cons, ih]
    constructor
    · rintro ⟨rfl, d, hd, c, h₁, h₂⟩
      exact ⟨c, ⟨rfl, d, hd, h₁⟩, h₂⟩
    · rintro ⟨c, ⟨rfl, d, hd, h₁⟩, h₂⟩
      exact ⟨rfl, d, hd, c, h₁, h₂⟩

/-- The last node of a segment. -/
theorem seg_concat : Seg f a (ns ++ [n]) b ↔ Seg f a ns n ∧ f n = some b := by
  rw [seg_append]
  constructor
  · rintro ⟨c, h, rfl, d, hd, rfl⟩
    exact ⟨h, hd⟩
  · rintro ⟨h, hb⟩
    exact ⟨n, h, rfl, b, hb, rfl⟩

/-- A segment depends on the successors of its nodes only. -/
theorem Seg.congr (h : Seg f a ns b) (hfg : ∀ n ∈ ns, g n = f n) : Seg g a ns b := by
  induction ns generalizing a with
  | nil => exact h
  | cons n ns ih =>
    obtain ⟨rfl, c, hc, hs⟩ := h
    exact ⟨rfl, c, by rw [hfg n List.mem_cons_self, hc],
      ih hs fun m hm => hfg m (List.mem_cons_of_mem _ hm)⟩

theorem Seg.head_eq (h : Seg f a (n :: ns) b) : n = a := h.1

/-- There is one walk to a place without a successor. -/
theorem Seg.unique (h : Seg f a ns b) (h' : Seg f a ms b) (hb : f b = none) : ns = ms := by
  induction ns generalizing a ms with
  | nil =>
    cases ms with
    | nil => rfl
    | cons m ms =>
      obtain ⟨rfl, c, hc, -⟩ := h'
      rw [seg_nil.mp h, hb] at hc
      cases hc
  | cons n ns ih =>
    obtain ⟨rfl, c, hc, hs⟩ := h
    cases ms with
    | nil => rw [seg_nil.mp h', hb] at hc; cases hc
    | cons m ms =>
      obtain ⟨rfl, c', hc', hs'⟩ := h'
      rw [hc] at hc'
      cases hc'
      rw [ih hs hs']

/-- A walk to a place without a successor visits no node twice. -/
theorem Seg.nodup (h : Seg f a ns b) (hb : f b = none) : ns.Nodup := by
  induction ns generalizing a with
  | nil => exact List.nodup_nil
  | cons n ns ih =>
    obtain ⟨rfl, c, hc, hs⟩ := h
    refine List.nodup_cons.mpr ⟨fun hm => ?_, ih hs⟩
    -- A second visit of `n` starts a shorter walk from `n` to `b`.
    obtain ⟨xs, ys, rfl⟩ := List.append_of_mem hm
    obtain ⟨d, -, h₂⟩ := seg_append.mp hs
    obtain rfl := h₂.head_eq
    have h₁ : Seg f n (n :: (xs ++ n :: ys)) b := ⟨rfl, c, hc, hs⟩
    have heq := h₁.unique h₂ hb
    have := congrArg List.length heq
    simp at this
    omega

end LwMix
