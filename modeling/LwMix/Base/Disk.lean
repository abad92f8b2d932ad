import Mathlib.Data.Nat.Notation
import Mathlib.Logic.Function.Basic
import Mathlib.Tactic.TypeStar
import Mathlib.Tactic.Cases

/-!
# Files with names, and what a crash leaves of them

A disk maps names to contents. A program that writes a file sends its bytes one by one, so that a
prefix of its operations is what a crash leaves.

* `Disk.run`: a list of operations.
* `replace`: a new file is written under another name, the old one is removed, and the new one gets
  its name.
* `run_replace`: all operations. `run_replace_take`: a prefix of them.
-/

namespace LwMix

/-- The contents of the files. -/
abbrev Disk (ν β : Type*) := ν → Option (List β)

/-- An operation on a file. -/
inductive DiskOp (ν β : Type*) where
  /-- The file is created, or emptied. -/
  | create (n : ν)
  /-- A byte is written to the end of the file. -/
  | put (n : ν) (c : β)
  | remove (n : ν)
  | rename (source dest : ν)
  deriving DecidableEq, Repr

namespace Disk

variable {ν β : Type*} [DecidableEq ν] {d : Disk ν β} {name tmp x : ν} {bytes : List β}

/-- The disk after an operation. -/
def apply (d : Disk ν β) : DiskOp ν β → Disk ν β
  | .create n => Function.update d n (some [])
  | .put n c => Function.update d n ((d n).map (· ++ [c]))
  | .remove n => Function.update d n none
  | .rename source dest =>
    match d source with
    | none => d
    | some bytes => Function.update (Function.update d source none) dest (some bytes)

/-- The files that an operation may change. -/
def names : DiskOp ν β → List ν
  | .create n => [n]
  | .put n _ => [n]
  | .remove n => [n]
  | .rename source dest => [source, dest]

/-- The disk after some operations. -/
def run (d : Disk ν β) (ops : List (DiskOp ν β)) : Disk ν β := ops.foldl apply d

@[simp] theorem run_nil (d : Disk ν β) : d.run [] = d := rfl

@[simp] theorem run_cons (d : Disk ν β) (op : DiskOp ν β) (ops : List (DiskOp ν β)) :
    d.run (op :: ops) = (d.apply op).run ops := rfl

theorem run_append (d : Disk ν β) (ops ops' : List (DiskOp ν β)) :
    d.run (ops ++ ops') = (d.run ops).run ops' := List.foldl_append

/-- A file is created with these bytes. -/
def write (name : ν) (bytes : List β) : List (DiskOp ν β) := .create name :: bytes.map (.put name)

/-- The file gets a new content, which is written under another name. -/
def replace (tmp name : ν) (bytes : List β) : List (DiskOp ν β) :=
  write tmp bytes ++ [.remove name, .rename tmp name]

theorem run_put (d : Disk ν β) (name : ν) (old bytes : List β) :
    Disk.run (Function.update d name (some old)) (bytes.map (.put name)) =
      Function.update d name (some (old ++ bytes)) := by
  induction bytes generalizing old with
  | nil => simp
  | cons c bytes ih =>
    have hstep : Disk.apply (Function.update d name (some old)) (.put name c) =
        Function.update d name (some (old ++ [c])) := by
      simp [apply]
    rw [List.map_cons, run_cons, hstep, ih]
    simp

theorem run_write (d : Disk ν β) (name : ν) (bytes : List β) :
    d.run (write name bytes) = Function.update d name (some bytes) :=
  run_put d name [] bytes

/-- All operations: only the new file is left. -/
theorem run_replace (h : tmp ≠ name) (d : Disk ν β) (bytes : List β) :
    d.run (replace tmp name bytes) =
      Function.update (Function.update d tmp none) name (some bytes) := by
  unfold replace
  rw [run_append, run_write]
  funext x
  by_cases hx : x = name
  · subst hx
    simp [apply, h]
  · by_cases hx' : x = tmp <;> simp [apply, h, hx, hx']

theorem apply_of_not_mem {op : DiskOp ν β} (h : x ∉ names op) (d : Disk ν β) :
    d.apply op x = d x := by
  cases op with
  | create n => exact Function.update_of_ne (by simpa [names] using h) _ _
  | put n c => exact Function.update_of_ne (by simpa [names] using h) _ _
  | remove n => exact Function.update_of_ne (by simpa [names] using h) _ _
  | rename source dest =>
    simp only [names, List.mem_cons, List.not_mem_nil, or_false, not_or] at h
    cases hsource : d source <;> simp [apply, hsource, h]

/-- No operation changes the file. -/
theorem run_of_not_mem {ops : List (DiskOp ν β)} (h : ∀ op ∈ ops, x ∉ names op) (d : Disk ν β) :
    d.run ops x = d x := by
  induction ops generalizing d with
  | nil => rfl
  | cons op ops ih =>
    rw [run_cons, ih (fun op' hop => h op' (by simp [hop])), apply_of_not_mem (h op (by simp))]

omit [DecidableEq ν] in
theorem names_write {op : DiskOp ν β} (h : op ∈ write name bytes) : names op = [name] := by
  unfold write at h
  rcases List.mem_cons.mp h with rfl | h
  · rfl
  · obtain ⟨c, -, rfl⟩ := List.mem_map.mp h
    rfl

omit [DecidableEq ν] in
theorem length_replace (tmp name : ν) (bytes : List β) :
    (replace tmp name bytes).length = (write tmp bytes).length + 2 := by
  rw [replace, List.length_append]
  rfl

/-- A crash before the old file is removed. -/
theorem run_replace_early (h : tmp ≠ name) {n : ℕ} (hn : n ≤ (write tmp bytes).length)
    (d : Disk ν β) : d.run ((replace tmp name bytes).take n) name = d name := by
  unfold replace
  rw [List.take_append_of_le_length hn]
  refine run_of_not_mem (fun op hop => ?_) d
  rw [names_write (List.mem_of_mem_take hop)]
  simpa using Ne.symm h

/-- A crash between the removal and the renaming. -/
theorem run_replace_between (h : tmp ≠ name) (d : Disk ν β) (bytes : List β) :
    let d' := d.run ((replace tmp name bytes).take ((write tmp bytes).length + 1))
    d' name = none ∧ d' tmp = some bytes := by
  simp only
  unfold replace
  rw [List.take_length_add_append, run_append, run_write]
  simp [apply, h]

end Disk

end LwMix
