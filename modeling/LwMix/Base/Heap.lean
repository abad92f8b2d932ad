import Mathlib.Data.Nat.Notation
import Mathlib.Logic.Basic
import Mathlib.Tactic.TypeStar

/-!
# Heaps of typed blocks, and the faults of a C program

A C program here is a function into `Except Fault`. A `Fault` is undefined behaviour (an access to a
block that is not live, a signed overflow, a byte outside of an array), an `assert` that fails, an
answer that the environment cannot give (`notFresh`, `protocol`), or a loop that did not end within
its fuel. A run of such a program is a run of successful steps, so what is proved of the reached
states is proved of the executions with defined behaviour; that a step *is* defined is a statement of
its own.

A `Heap` maps the addresses of the live blocks to their contents. `NULL` (address `0`) is never
live. A freed address can be handed out again.
-/

namespace LwMix

/-- Why a step has no result. -/
inductive Fault where
  /-- `NULL`, a block that is not live, or a block of another type is accessed or freed. -/
  | badAccess (a : ℕ)
  /-- `malloc` cannot return `a`. -/
  | notFresh (a : ℕ)
  /-- Signed overflow. -/
  | overflow
  /-- A byte outside of an array is read or written. -/
  | outOfBounds
  /-- A descriptor outside of an `fd_set`. -/
  | fdRange (fd : ℕ)
  /-- An `assert` fails: the program is stopped. -/
  | assertion
  /-- The environment answers a call that is not the next one. -/
  | protocol
  /-- The loop did not end within its fuel. -/
  | fuel
  deriving DecidableEq, Repr

/-- The result of a bind is the result of its second part on a result of its first part. -/
theorem bind_eq_ok {ε α β : Type} {x : Except ε α} {f : α → Except ε β} {b : β} :
    x >>= f = .ok b ↔ ∃ a, x = .ok a ∧ f a = .ok b := by
  cases x <;> simp [bind, Except.bind]

theorem pure_eq_ok {ε α : Type} {a b : α} : (pure a : Except ε α) = .ok b ↔ b = a := by
  simp [pure, Except.pure, eq_comm]

/-! ## `int` -/

def intMax : Int := 2147483647

def intMin : Int := -2147483648

/-- The result of an `int` operation: signed overflow is undefined. -/
def checkedInt (x : Int) : Except Fault Int :=
  if intMin ≤ x ∧ x ≤ intMax then .ok x else .error .overflow

theorem checkedInt_eq_ok {x y : Int} :
    checkedInt x = .ok y ↔ (intMin ≤ x ∧ x ≤ intMax) ∧ y = x := by
  unfold checkedInt
  split <;> rename_i h
  · simp [h, eq_comm]
  · simp [h]

/-! ## Heaps -/

/-- The live blocks, with their contents. -/
structure Heap (β : Type*) where
  cells : ℕ → Option β
  null : cells 0 = none

namespace Heap

variable {β : Type*} {h h' : Heap β} {a x : ℕ} {b : β} {o : Option β}

/-- Only `NULL` is special: no block is live. -/
def empty : Heap β := ⟨fun _ => none, rfl⟩

theorem ne_null (h : Heap β) (ha : h.cells a = some b) : a ≠ 0 := by
  rintro rfl
  rw [h.null] at ha
  cases ha

/-- Addresses with different contents differ. -/
theorem ne_of_cells (h : Heap β) (hc : h.cells a ≠ h.cells x) : a ≠ x := fun heq => hc (heq ▸ rfl)

/-- `h` with the content `o` at `a`. `NULL` stays as it is. -/
def put (h : Heap β) (a : ℕ) (o : Option β) : Heap β where
  cells x := if x = a ∧ a ≠ 0 then o else h.cells x
  null := by
    rw [if_neg fun hc => hc.2 hc.1.symm]
    exact h.null

theorem put_self (ha : a ≠ 0) : (h.put a o).cells a = o := if_pos ⟨rfl, ha⟩

@[simp] theorem put_ne (hx : x ≠ a) : (h.put a o).cells x = h.cells x := if_neg fun hc => hx hc.1

@[simp] theorem put_put (o o' : Option β) : (h.put a o).put a o' = h.put a o' := by
  simp only [put, mk.injEq]
  funext x
  split <;> rfl

theorem put_comm {a' : ℕ} (ha : a ≠ a') (o o' : Option β) :
    (h.put a o).put a' o' = (h.put a' o').put a o := by
  simp only [put, mk.injEq]
  funext x
  by_cases hx : x = a
  · simp [hx, ha]
  · simp [hx]

/-- What `malloc` returns: an address, and the indeterminate content of the new block. -/
structure Malloc (γ : Type*) where
  addr : ℕ
  junk : γ

/-- A new block at `a`, an address that is not live. -/
def alloc (h : Heap β) (a : ℕ) (b : β) : Except Fault (Heap β) :=
  if a = 0 ∨ (h.cells a).isSome then .error (.notFresh a) else .ok (h.put a (some b))

theorem alloc_eq_ok :
    h.alloc a b = .ok h' ↔ (a ≠ 0 ∧ h.cells a = none) ∧ h' = h.put a (some b) := by
  unfold alloc
  split <;> rename_i hc
  · simp only [reduceCtorEq, false_iff, not_and]
    rintro ⟨h0, hn⟩
    simp [h0, hn] at hc
  · simp only [not_or, Option.isSome_iff_ne_none, ne_eq, not_not] at hc
    simp [hc, eq_comm]

/-- `free(a)`: nothing for `NULL`, and undefined for an address that is not live. -/
def free (h : Heap β) (a : ℕ) : Except Fault (Heap β) :=
  if a = 0 then .ok h
  else if (h.cells a).isSome then .ok (h.put a none) else .error (.badAccess a)

@[simp] theorem free_null : h.free 0 = .ok h := rfl

theorem free_of_live (ha : h.cells a = some b) : h.free a = .ok (h.put a none) := by
  simp [free, h.ne_null ha, ha]

end Heap

end LwMix
