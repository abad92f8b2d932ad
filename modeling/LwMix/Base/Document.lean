import Mathlib.Data.Nat.Notation
import Mathlib.Data.List.Basic
import Mathlib.Tactic.TypeStar

/-!
# Documents of sections with values under keys

A document is a list of headings and entries. The area of a heading ends at the next heading; the
entries before the first heading are an area of their own. A heading may name no section: it ends an
area and opens none that can be found.

* `get`, `set`, `eraseSection`: the first section of a name counts, and in it the first entry of a
  key.
* `get_set_self`, `get_set_of_ne`, `get_eraseSection_of_ne`: what an operation changes.
* `set_of_get`: the value that is there is set again.
* `names`, `keysIn`, `rows`: what there is. `get_eq_find?`: a value is the first one among the rows.
-/

namespace LwMix

/-- A heading or an entry. -/
inductive Item (σ κ ν : Type*) where
  | head (s : Option σ)
  | entry (k : κ) (v : ν)
  deriving DecidableEq, Repr

/-- Other names and keys. -/
def Item.map {σ σ' κ κ' ν : Type*} (f : σ → σ') (g : κ → κ') : Item σ κ ν → Item σ' κ' ν
  | .head s => .head (s.map f)
  | .entry k v => .entry (g k) v

/-- A list of headings and entries. -/
abbrev Document (σ κ ν : Type*) := List (Item σ κ ν)

namespace Document

set_option linter.unusedSectionVars false

variable {σ κ ν : Type*} [DecidableEq σ] [DecidableEq κ] {s s' : σ} {k k' : κ} {v w : ν}
  {d d₁ : Document σ κ ν} {i : Item σ κ ν} {new : Option ν}

/-- The value of `k` in the area that starts the document. -/
def getKey (k : κ) : Document σ κ ν → Option ν
  | [] => none
  | .head _ :: _ => none
  | .entry k' v :: d => if k' = k then some v else getKey k d

/-- What follows the first heading `s`. -/
def area (s : σ) : Document σ κ ν → Option (Document σ κ ν)
  | [] => none
  | .head s' :: d => if s' = some s then some d else area s d
  | .entry _ _ :: d => area s d

/-- The value of `k` in the section `s`, or before all headings. -/
def get (s : Option σ) (k : κ) (d : Document σ κ ν) : Option ν :=
  match s with
  | none => getKey k d
  | some s => (area s d).bind (getKey k)

/-- The entry of `k` in the area that starts the document becomes `new`, which is nothing if the
entry is to be erased. A new entry ends the area. -/
def setKey (k : κ) (new : Option ν) : Document σ κ ν → Document σ κ ν
  | [] => (new.map (.entry k)).toList
  | .head s :: d => (new.map (.entry k)).toList ++ .head s :: d
  | .entry k' v :: d =>
    if k' = k then (new.map (.entry k)).toList ++ d else .entry k' v :: setKey k new d

/-- `setKey` in the section `s`. A new section ends the document. -/
def setIn (s : σ) (k : κ) (new : Option ν) : Document σ κ ν → Document σ κ ν
  | [] =>
    match new with
    | none => []
    | some v => [.head (some s), .entry k v]
  | .head s' :: d => if s' = some s then .head s' :: setKey k new d else .head s' :: setIn s k new d
  | .entry k' v :: d => .entry k' v :: setIn s k new d

/-- The value of `k` in the section `s`, or before all headings, becomes `new`. -/
def set (s : Option σ) (k : κ) (new : Option ν) (d : Document σ κ ν) : Document σ κ ν :=
  match s with
  | none => setKey k new d
  | some s => setIn s k new d

/-- The area that starts the document is dropped. -/
def dropArea : Document σ κ ν → Document σ κ ν
  | [] => []
  | .head s :: d => .head s :: d
  | .entry _ _ :: d => dropArea d

/-- The first section `s` is erased. -/
def eraseSection (s : σ) : Document σ κ ν → Document σ κ ν
  | [] => []
  | .head s' :: d => if s' = some s then dropArea d else .head s' :: eraseSection s d
  | .entry k v :: d => .entry k v :: eraseSection s d

/-! ## Items that an operation passes -/

/-- The item ends no area and is not the entry of `k`. -/
def Passes (k : κ) : Item σ κ ν → Prop
  | .head _ => False
  | .entry k' _ => k' ≠ k

theorem setKey_append (h : ∀ i ∈ d₁, Passes k i) :
    setKey k new (d₁ ++ d) = d₁ ++ setKey k new d := by
  induction d₁ with
  | nil => rfl
  | cons i d₁ ih =>
    have hi := h i (by simp)
    cases i with
    | head s => exact hi.elim
    | entry k' v =>
      rw [List.cons_append, setKey, if_neg hi, ih fun j hj => h j (by simp [hj]), List.cons_append]

theorem area_append (h : ∀ i ∈ d₁, i ≠ .head (some s)) : area s (d₁ ++ d) = area s d := by
  induction d₁ with
  | nil => rfl
  | cons i d₁ ih =>
    have ih := ih fun j hj => h j (by simp [hj])
    cases i with
    | head s' =>
      have hne : s' ≠ some s := fun heq => h (.head s') (by simp) (by rw [heq])
      rw [List.cons_append, area, if_neg hne, ih]
    | entry k v => exact ih

theorem setIn_append (h : ∀ i ∈ d₁, i ≠ .head (some s)) :
    setIn s k new (d₁ ++ d) = d₁ ++ setIn s k new d := by
  induction d₁ with
  | nil => rfl
  | cons i d₁ ih =>
    have ih := ih fun j hj => h j (by simp [hj])
    cases i with
    | head s' =>
      have hne : s' ≠ some s := fun heq => h (.head s') (by simp) (by rw [heq])
      rw [List.cons_append, setIn, if_neg hne, ih, List.cons_append]
    | entry k v => rw [List.cons_append, setIn, ih, List.cons_append]

theorem eraseSection_append (h : ∀ i ∈ d₁, i ≠ .head (some s)) :
    eraseSection s (d₁ ++ d) = d₁ ++ eraseSection s d := by
  induction d₁ with
  | nil => rfl
  | cons i d₁ ih =>
    have ih := ih fun j hj => h j (by simp [hj])
    cases i with
    | head s' =>
      have hne : s' ≠ some s := fun heq => h (.head s') (by simp) (by rw [heq])
      rw [List.cons_append, eraseSection, if_neg hne, ih, List.cons_append]
    | entry k v => rw [List.cons_append, eraseSection, ih, List.cons_append]

theorem dropArea_append (h : ∀ i ∈ d₁, ∀ s, i ≠ .head s) : dropArea (d₁ ++ d) = dropArea d := by
  induction d₁ with
  | nil => rfl
  | cons i d₁ ih =>
    cases i with
    | head s => exact absurd rfl (h (.head s) (by simp) s)
    | entry k v => exact ih fun j hj => h j (by simp [hj])

/-- A value that is found is in the document. -/
theorem mem_of_getKey (h : getKey k d = some v) : .entry k v ∈ d := by
  induction d with
  | nil => cases h
  | cons i d ih =>
    cases i with
    | head s => cases h
    | entry k' w =>
      rw [getKey] at h
      split at h
      · rename_i hk
        rw [hk, Option.some.inj h]
        exact List.mem_cons_self
      · exact List.mem_cons_of_mem _ (ih h)

theorem area_suffix (h : area s d = some d₁) : d₁ <:+ d := by
  induction d with
  | nil => cases h
  | cons i d ih =>
    cases i with
    | head s' =>
      rw [area] at h
      split at h
      · rw [Option.some.inj h]
        exact List.suffix_cons _ _
      · exact (ih h).trans (List.suffix_cons _ _)
    | entry k w => exact (ih h).trans (List.suffix_cons _ _)

theorem mem_of_get {s : Option σ} (h : get s k d = some v) : .entry k v ∈ d := by
  cases s with
  | none => exact mem_of_getKey h
  | some s =>
    obtain ⟨d₁, harea, hkey⟩ := Option.bind_eq_some_iff.mp h
    exact (area_suffix harea).mem (mem_of_getKey hkey)

/-! ## The key that was set -/

theorem getKey_setKey_self (k : κ) (v : ν) (d : Document σ κ ν) :
    getKey k (setKey k (some v) d) = some v := by
  induction d with
  | nil => simp [setKey, getKey]
  | cons i d ih =>
    cases i with
    | head s => simp [setKey, getKey]
    | entry k' w => by_cases h : k' = k <;> simp [setKey, getKey, h, ih]

theorem get_set_self (s : Option σ) (k : κ) (v : ν) (d : Document σ κ ν) :
    get s k (set s k (some v) d) = some v := by
  cases s with
  | none => exact getKey_setKey_self k v d
  | some s =>
    show (area s (setIn s k (some v) d)).bind (getKey k) = some v
    induction d with
    | nil => simp [setIn, area, getKey]
    | cons i d ih =>
      cases i with
      | head s' =>
        by_cases h : s' = some s
        · simp [setIn, area, h, getKey_setKey_self]
        · simpa [setIn, area, h] using ih
      | entry k' w => simpa [setIn, area] using ih

/-! ## Other keys, and other sections -/

theorem getKey_setKey_of_ne (h : k' ≠ k) (new : Option ν) (d : Document σ κ ν) :
    getKey k' (setKey k new d) = getKey k' d := by
  have hk : k ≠ k' := Ne.symm h
  induction d with
  | nil => cases new <;> simp [setKey, getKey, hk]
  | cons i d ih =>
    cases i with
    | head s => cases new <;> simp [setKey, getKey, hk]
    | entry k₁ w =>
      by_cases h₁ : k₁ = k
      · subst h₁
        cases new <;> simp [setKey, getKey, hk]
      · rw [setKey, if_neg h₁, getKey, getKey, ih]

/-- No heading is changed by a key that is set in the area before it. -/
theorem area_setKey (s : σ) (k : κ) (new : Option ν) (d : Document σ κ ν) :
    area s (setKey k new d) = area s d := by
  induction d with
  | nil => cases new <;> simp [setKey, area]
  | cons i d ih =>
    cases i with
    | head s' => cases new <;> simp [setKey, area]
    | entry k' w =>
      by_cases h : k' = k
      · cases new <;> simp [setKey, area, h]
      · simp [setKey, area, h, ih]

/-- The area that starts the document is not changed in a section. -/
theorem getKey_setIn (k' : κ) (s : σ) (k : κ) (new : Option ν) (d : Document σ κ ν) :
    getKey k' (setIn s k new d) = getKey k' d := by
  induction d with
  | nil => cases new <;> simp [setIn, getKey]
  | cons i d ih =>
    cases i with
    | head s' => by_cases h : s' = some s <;> simp [setIn, getKey, h]
    | entry k₁ w => rw [setIn, getKey, getKey, ih]

theorem get_setIn_of_ne (h : s' ≠ s) (k' k : κ) (new : Option ν) (d : Document σ κ ν) :
    (area s' (setIn s k new d)).bind (getKey k') = (area s' d).bind (getKey k') := by
  have hs : s ≠ s' := Ne.symm h
  induction d with
  | nil => cases new <;> simp [setIn, area, hs]
  | cons i d ih =>
    cases i with
    | head s₁ =>
      by_cases h₁ : s₁ = some s
      · subst h₁
        simp [setIn, area, hs, area_setKey]
      · by_cases h₂ : s₁ = some s'
        · subst h₂
          simp [setIn, area, h, getKey_setIn]
        · simpa [setIn, area, h₁, h₂] using ih
    | entry k₁ w => simpa [setIn, area] using ih

theorem get_setIn_of_ne_key (h : k' ≠ k) (s : σ) (new : Option ν) (d : Document σ κ ν) :
    (area s (setIn s k new d)).bind (getKey k') = (area s d).bind (getKey k') := by
  induction d with
  | nil => cases new <;> simp [setIn, area, getKey, Ne.symm h]
  | cons i d ih =>
    cases i with
    | head s₁ =>
      by_cases h₁ : s₁ = some s
      · simp [setIn, area, h₁, getKey_setKey_of_ne h]
      · simpa [setIn, area, h₁] using ih
    | entry k₁ w => simpa [setIn, area] using ih

/-- **Another value.** No other key of the section changes, and no key of another section. -/
theorem get_set_of_ne {s s' : Option σ} (h : s' ≠ s ∨ k' ≠ k) (new : Option ν)
    (d : Document σ κ ν) : get s' k' (set s k new d) = get s' k' d := by
  cases s with
  | none =>
    cases s' with
    | none => exact getKey_setKey_of_ne (by simpa using h) new d
    | some s' => exact congrArg (Option.bind · (getKey k')) (area_setKey s' k new d)
  | some s =>
    cases s' with
    | none => exact getKey_setIn k' s k new d
    | some s' =>
      by_cases hs : s' = s
      · subst hs
        exact get_setIn_of_ne_key (by simpa using h) s' new d
      · exact get_setIn_of_ne hs k' k new d

theorem getKey_dropArea (k : κ) (d : Document σ κ ν) : getKey k (dropArea d) = none := by
  induction d with
  | nil => rfl
  | cons i d ih =>
    cases i with
    | head s => rfl
    | entry k' w => exact ih

theorem area_dropArea (s : σ) (d : Document σ κ ν) : area s (dropArea d) = area s d := by
  induction d with
  | nil => rfl
  | cons i d ih =>
    cases i with
    | head s' => rfl
    | entry k w => exact ih

theorem getKey_eraseSection (k : κ) (s : σ) (d : Document σ κ ν) :
    getKey k (eraseSection s d) = getKey k d := by
  induction d with
  | nil => rfl
  | cons i d ih =>
    cases i with
    | head s' => by_cases h : s' = some s <;> simp [eraseSection, h, getKey, getKey_dropArea]
    | entry k' w => rw [eraseSection, getKey, getKey, ih]

/-- An erased section leaves the values of the others. -/
theorem get_eraseSection_of_ne {s' : Option σ} (h : s' ≠ some s) (k : κ) (d : Document σ κ ν) :
    get s' k (eraseSection s d) = get s' k d := by
  cases s' with
  | none => exact getKey_eraseSection k s d
  | some s' =>
    show (area s' (eraseSection s d)).bind (getKey k) = (area s' d).bind (getKey k)
    induction d with
    | nil => rfl
    | cons i d ih =>
      cases i with
      | head s₁ =>
        by_cases h₁ : s₁ = some s
        · have hs : s₁ ≠ some s' := fun heq => h (by rw [← heq, h₁])
          rw [eraseSection, if_pos h₁, area_dropArea, area, if_neg hs]
        · by_cases h₂ : s₁ = some s'
          · simp [eraseSection, h₂, area, h, getKey_eraseSection]
          · simpa [eraseSection, h₁, h₂, area] using ih
      | entry k' w => exact ih

/-! ## A value that is set again -/

theorem setKey_of_getKey (h : getKey k d = some v) : setKey k (some v) d = d := by
  induction d with
  | nil => cases h
  | cons i d ih =>
    cases i with
    | head s => cases h
    | entry k' w =>
      rw [getKey] at h
      by_cases hk : k' = k
      · rw [if_pos hk, Option.some.injEq] at h
        rw [setKey, if_pos hk, ← h, ← hk]
        rfl
      · rw [if_neg hk] at h
        rw [setKey, if_neg hk, ih h]

/-- The value that is there is set: nothing changes. -/
theorem set_of_get {s : Option σ} (h : get s k d = some v) : set s k (some v) d = d := by
  cases s with
  | none => exact setKey_of_getKey h
  | some s =>
    show setIn s k (some v) d = d
    replace h : (area s d).bind (getKey k) = some v := h
    induction d with
    | nil => cases h
    | cons i d ih =>
      cases i with
      | head s' =>
        by_cases hs : s' = some s
        · rw [area, if_pos hs] at h
          rw [setIn, if_pos hs, setKey_of_getKey h]
        · rw [area, if_neg hs] at h
          rw [setIn, if_neg hs, ih h]
      | entry k' w => rw [setIn, ih h]

/-! ## What there is -/

/-- The name of a heading. -/
def name? : Item σ κ ν → Option σ
  | .head s => s
  | .entry _ _ => none

/-- The names of the sections. -/
def names (d : Document σ κ ν) : List σ := d.filterMap name?

/-- The keys in the area that starts the document. -/
def keys : Document σ κ ν → List κ
  | [] => []
  | .head _ :: _ => []
  | .entry k _ :: d => k :: keys d

/-- The keys in the section `s`, or before all headings. -/
def keysIn (s : Option σ) (d : Document σ κ ν) : List κ :=
  match s with
  | none => keys d
  | some s => (area s d).elim [] keys

/-- The entries, each with its section. The entries before a heading are in the section `s`. -/
def rows (s : Option σ) : Document σ κ ν → List (Option σ × κ × ν)
  | [] => []
  | .head s' :: d => rows s' d
  | .entry k v :: d => (s, k, v) :: rows s d

/-- A row is in the first area, or under a heading. -/
theorem mem_rows {r : Option σ × κ × ν} {t : Option σ} (h : r ∈ rows t d) :
    r.1 = t ∨ .head r.1 ∈ d := by
  induction d generalizing t with
  | nil => cases h
  | cons i d ih =>
    cases i with
    | head s =>
      rcases ih h with hs | hs
      · exact .inr (by rw [hs]; exact List.mem_cons_self)
      · exact .inr (List.mem_cons_of_mem _ hs)
    | entry k v =>
      rcases List.mem_cons.mp h with rfl | h
      · exact .inl rfl
      · exact (ih h).imp_right (List.mem_cons_of_mem _)

/-- Other names and keys in the rows. -/
theorem rows_map {σ' κ' : Type*} (f : σ → σ') (g : κ → κ') (t : Option σ) (d : Document σ κ ν) :
    rows (t.map f) (d.map (Item.map f g)) =
      (rows t d).map fun r => (r.1.map f, g r.2.1, r.2.2) := by
  induction d generalizing t with
  | nil => rfl
  | cons i d ih =>
    cases i with
    | head s => exact ih s
    | entry k v => exact congrArg ((t.map f, g k, v) :: ·) (ih t)

/-- The row is the entry of `k` in the section `s`. -/
def isRow (s : Option σ) (k : κ) (r : Option σ × κ × ν) : Bool := r.1 = s ∧ r.2.1 = k

/-- Without a heading `s` no row is in the section `s`. -/
theorem find?_rows_of_ne {s t : Option σ} (ht : t ≠ s) (hs : .head s ∉ d) (k : κ) :
    (rows t d).find? (isRow s k) = none := by
  induction d generalizing t with
  | nil => rfl
  | cons i d ih =>
    simp only [List.mem_cons, not_or] at hs
    cases i with
    | head s' => exact ih (fun h => hs.1 (by rw [h])) hs.2
    | entry k' v =>
      rw [rows, List.find?_cons_of_neg (by simp [isRow, ht])]
      exact ih ht hs.2

theorem getKey_eq_find? {s : Option σ} (hs : .head s ∉ d) (k : κ) :
    getKey k d = ((rows s d).find? (isRow s k)).map (·.2.2) := by
  induction d with
  | nil => rfl
  | cons i d ih =>
    simp only [List.mem_cons, not_or] at hs
    cases i with
    | head s' => rw [rows, find?_rows_of_ne (fun h => hs.1 (by rw [h])) hs.2]; rfl
    | entry k' v =>
      by_cases hk : k' = k
      · rw [rows, List.find?_cons_of_pos (by simp [isRow, hk]), getKey, if_pos hk]
        rfl
      · rw [rows, List.find?_cons_of_neg (by simp [isRow, hk]), getKey, if_neg hk, ih hs.2]

/-- **A value is the first one among the rows**, if every heading has a name of its own. -/
theorem get_eq_find? (hd : .head none ∉ d) (hnd : (names d).Nodup) (s : Option σ) (k : κ) :
    get s k d = ((rows none d).find? (isRow s k)).map (·.2.2) := by
  cases s with
  | none => exact getKey_eq_find? hd k
  | some s =>
    show (area s d).bind (getKey k) = _
    have hne : (none : Option σ) ≠ some s := nofun
    generalize (none : Option σ) = t at hne
    clear hd
    induction d generalizing t with
    | nil => rfl
    | cons i d ih =>
      cases i with
      | head s' =>
        by_cases hs : s' = some s
        · subst hs
          have hnot : s ∉ names d := (List.nodup_cons.mp hnd).1
          rw [area, if_pos rfl, rows]
          exact getKey_eq_find? (fun h => hnot (List.mem_filterMap.mpr ⟨_, h, rfl⟩)) k
        · rw [area, if_neg hs, rows]
          refine ih ?_ s' hs
          cases s' with
          | none => exact hnd
          | some s' => exact (List.nodup_cons.mp hnd).2
      | entry k' v =>
        rw [area, rows, List.find?_cons_of_neg (by simp [isRow, hne])]
        exact ih hnd t hne

end Document

end LwMix
