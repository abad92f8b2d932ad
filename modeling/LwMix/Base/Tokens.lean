import LwMix.Base.CString

/-!
# Tokens of a string in an array (`strtok`)

A `Scan` is an array with the pointer that `strtok` keeps between its calls, and a bound of what was
accessed: every index that was read or written so far is below `hi`.

* `strtok`, `scanTokens`: a call, and the loop over the tokens of a string.
* `fields`: the non-empty parts of a text between separators.
* `scanTokens_eq_ok`: over a terminated string, the loop visits the fields of the string, and
  accesses the array up to the terminator.
* `scanTokens_zero`: the loop ends at a terminator that was in the array before.
-/

namespace LwMix

/-- The byte at `i` is read. -/
def Buf.get {n : ℕ} (b : Buf n) (i : ℕ) : Except Fault UInt8 :=
  match b.bytes[i]? with
  | some c => .ok c
  | none => .error .outOfBounds

/-- The index of the first byte from `i` on that does not satisfy `p`. -/
def Buf.span {n : ℕ} (b : Buf n) (p : UInt8 → Bool) (i : ℕ) : Except Fault ℕ :=
  match (b.bytes.drop i).findIdx? fun c => !p c with
  | some k => .ok (i + k)
  | none => .error .outOfBounds

/-- The string at `i`. -/
def Buf.stringAt {n : ℕ} (b : Buf n) (i : ℕ) : Except Fault (List UInt8) :=
  if 0 ∈ b.bytes.drop i then .ok ((b.bytes.drop i).takeWhile (· ≠ 0)) else .error .outOfBounds

/-- An array, the pointer of `strtok`, and a bound of the indices that were accessed. -/
structure Scan (n : ℕ) where
  buf : Buf n
  save : ℕ
  hi : ℕ

/-- The bytes up to `i` were accessed. -/
def Scan.touch {n : ℕ} (s : Scan n) (i : ℕ) : Scan n := { s with hi := max s.hi (i + 1) }

/-- `strtok`, from `start`, or from `save` if its argument is `NULL`. -/
def strtok {n : ℕ} (sep : UInt8) (start : ℕ) (s : Scan n) : Except Fault (Option ℕ × Scan n) := do
  let i ← s.buf.span (· = sep) start
  let c ← s.buf.get i
  let s := s.touch i
  if c = 0 then pure (none, { s with save := i })
  else do
    let j ← s.buf.span (fun c => c ≠ sep ∧ c ≠ 0) i
    let c ← s.buf.get j
    let s := s.touch j
    if c = 0 then pure (some i, { s with save := j })
    else do
      let buf ← s.buf.write j [0]
      pure (some i, { s with buf, save := j + 1 })

/-- The loop `for (t = strtok(p, sep); t != NULL; t = strtok(NULL, sep))`, with its body on the
string of each token. -/
def scanTokens {n : ℕ} {σ : Type} (sep : UInt8) (body : σ → List UInt8 → σ) :
    ℕ → ℕ → Scan n → σ → Except Fault (σ × Scan n)
  | 0, _, _, _ => .error .fuel
  | fuel + 1, start, s, acc => do
    let (token, s) ← strtok sep start s
    match token with
    | none => pure (acc, s)
    | some i => do
      let text ← s.buf.stringAt i
      let s := s.touch (i + text.length)
      scanTokens sep body fuel s.save s (body acc text)

/-! ## Fields -/

/-- The non-empty parts of `xs` between separators. -/
def fields (sep : UInt8) (xs : List UInt8) : List (List UInt8) :=
  (xs.splitOn sep).filter (· ≠ [])

section Fields

variable {sep : UInt8} {xs seps w : List UInt8}

theorem fields_nil : fields sep [] = [] := by simp [fields]

theorem fields_append_cons (xs ys : List UInt8) :
    fields sep (xs ++ sep :: ys) = fields sep xs ++ fields sep ys := by
  unfold fields
  rw [List.splitOn_append_cons_self, List.filter_append]

/-- Separators at the start are skipped. -/
theorem fields_seps (hseps : ∀ c ∈ seps, c = sep) (xs : List UInt8) :
    fields sep (seps ++ xs) = fields sep xs := by
  induction seps with
  | nil => rfl
  | cons c seps ih =>
    obtain rfl := hseps c List.mem_cons_self
    have hcons : fields c ([] ++ c :: (seps ++ xs)) = fields c [] ++ fields c (seps ++ xs) :=
      fields_append_cons [] _
    rw [List.nil_append, fields_nil, List.nil_append] at hcons
    rw [List.cons_append, hcons]
    exact ih fun x hx => hseps x (List.mem_cons_of_mem _ hx)

/-- A text without a separator is one field. -/
theorem fields_word (hne : w ≠ []) (hw : sep ∉ w) : fields sep w = [w] := by
  unfold fields
  rw [List.splitOn_eq_singleton hw]
  simp [hne]

/-- The first field of a text. -/
theorem exists_field (sep : UInt8) (xs : List UInt8) : (∀ x ∈ xs, x = sep) ∨
    ∃ seps w, (∀ x ∈ seps, x = sep) ∧ w ≠ [] ∧ sep ∉ w ∧
      (xs = seps ++ w ∨ ∃ rest, xs = seps ++ (w ++ sep :: rest)) := by
  induction xs with
  | nil => exact .inl (by simp)
  | cons x xs ih =>
    by_cases hx : x = sep
    · subst hx
      rcases ih with hall | ⟨seps, w, hseps, hne, hw, rfl | ⟨rest, rfl⟩⟩
      · exact .inl (by simpa using hall)
      · exact .inr ⟨x :: seps, w, by simpa using hseps, hne, hw, .inl rfl⟩
      · exact .inr ⟨x :: seps, w, by simpa using hseps, hne, hw, .inr ⟨rest, rfl⟩⟩
    · right
      by_cases hmem : sep ∈ xs
      · obtain ⟨as, bs, rfl, has⟩ := List.eq_append_cons_of_mem hmem
        exact ⟨[], x :: as, by simp, by simp, by simp [has, Ne.symm hx], .inr ⟨bs, rfl⟩⟩
      · exact ⟨[], x :: xs, by simp, by simp, by simp [hmem, Ne.symm hx], .inl rfl⟩

end Fields

/-! ## One call -/

section Call

variable {n i k : ℕ} {b : Buf n} {p : UInt8 → Bool} {sep c : UInt8} {s s' : Scan n}
  {pre xs ys seps w rest : List UInt8}

theorem span_eq_ok (hb : b.bytes = pre ++ (xs ++ c :: ys)) (hxs : ∀ x ∈ xs, p x = true)
    (hc : p c = false) : b.span p pre.length = .ok (pre.length + xs.length) := by
  have hfind : (xs ++ c :: ys).findIdx? (fun c => !p c) = some xs.length := by
    have hnone : xs.findIdx? (fun c => !p c) = none := by
      rw [List.findIdx?_eq_none_iff]
      simpa using hxs
    simp [List.findIdx?_append, hnone, List.findIdx?_cons, hc]
  simp only [Buf.span, hb, List.drop_left, hfind]

theorem get_eq_ok (hb : b.bytes = pre ++ c :: ys) : b.get pre.length = .ok c := by
  simp [Buf.get, hb]

/-- The first byte of an array. -/
theorem get_first (hb : b.bytes = c :: ys) : b.get 0 = .ok c :=
  get_eq_ok (show b.bytes = [] ++ c :: ys from hb)

/-- Only separators before the terminator: there is no token. -/
theorem strtok_none (hb : s.buf.bytes = pre ++ (seps ++ 0 :: rest))
    (hseps : ∀ c ∈ seps, c = sep) (hsep : sep ≠ 0) : strtok sep pre.length s =
      .ok (none, ⟨s.buf, pre.length + seps.length,
        max s.hi (pre.length + seps.length + 1)⟩) := by
  have hspan : s.buf.span (· = sep) pre.length = .ok (pre.length + seps.length) :=
    span_eq_ok hb (by simpa using hseps) (by simpa using Ne.symm hsep)
  have hget : s.buf.get (pre.length + seps.length) = .ok 0 := by
    rw [← List.length_append]
    exact get_eq_ok (by rw [hb, List.append_assoc])
  simp only [strtok, hspan, hget, bind, Except.bind, ↓reduceIte, pure, Except.pure, Scan.touch]

/-- A token, up to the byte `c` that ends it. -/
theorem strtok_token (hb : s.buf.bytes = pre ++ (seps ++ (w ++ c :: rest)))
    (hseps : ∀ x ∈ seps, x = sep) (hne : w ≠ []) (hw : ∀ x ∈ w, x ≠ sep ∧ x ≠ 0)
    (hc : c = sep ∨ c = 0) (hi : i = pre.length + seps.length) (hk : k = i + w.length) :
    strtok sep pre.length s =
      if c = 0 then .ok (some i, ⟨s.buf, k, max s.hi (k + 1)⟩)
      else s.buf.write k [0] >>= fun buf => .ok (some i, ⟨buf, k + 1, max s.hi (k + 1)⟩) := by
  obtain ⟨x, w', rfl⟩ := List.exists_cons_of_ne_nil hne
  obtain ⟨hx, hx0⟩ := hw x List.mem_cons_self
  have hb' : s.buf.bytes = (pre ++ seps) ++ ((x :: w') ++ c :: rest) := by
    rw [hb, List.append_assoc]
  have hb'' : s.buf.bytes = (pre ++ seps ++ (x :: w')) ++ c :: rest := by
    rw [hb', List.append_assoc (pre ++ seps)]
  have hspan : s.buf.span (· = sep) pre.length = .ok i :=
    hi ▸ span_eq_ok hb (by simpa using hseps) (by simpa using hx)
  have hlen : (pre ++ seps).length = i := by rw [List.length_append, hi]
  have hspan' : s.buf.span (fun c => c ≠ sep ∧ c ≠ 0) i = .ok k := by
    rw [← hlen, hk, ← hlen]
    refine span_eq_ok hb' (by simpa using hw) ?_
    rcases hc with rfl | rfl <;> simp
  have hget : s.buf.get i = .ok x := hlen ▸ get_eq_ok hb'
  have hlen' : (pre ++ seps ++ (x :: w')).length = k := by rw [List.length_append, hlen, hk]
  have hget' : s.buf.get k = .ok c := hlen' ▸ get_eq_ok hb''
  have hmax : max (max s.hi (i + 1)) (k + 1) = max s.hi (k + 1) := by omega
  simp only [strtok, hspan, hget, bind, Except.bind, hx0, ↓reduceIte, Scan.touch, hspan', hget',
    hmax, pure, Except.pure]

/-- A token that the terminator ends. -/
theorem strtok_last (hb : s.buf.bytes = pre ++ (seps ++ (w ++ 0 :: rest)))
    (hseps : ∀ x ∈ seps, x = sep) (hne : w ≠ []) (hw : ∀ x ∈ w, x ≠ sep ∧ x ≠ 0)
    (hi : i = pre.length + seps.length) (hk : k = i + w.length) :
    strtok sep pre.length s = .ok (some i, ⟨s.buf, k, max s.hi (k + 1)⟩) := by
  rw [strtok_token hb hseps hne hw (.inr rfl) hi hk, if_pos rfl]

/-- A token that a separator ends: the separator is overwritten. -/
theorem strtok_more (hb : s.buf.bytes = pre ++ (seps ++ (w ++ sep :: rest)))
    (hseps : ∀ x ∈ seps, x = sep) (hne : w ≠ []) (hw : ∀ x ∈ w, x ≠ sep ∧ x ≠ 0) (hsep : sep ≠ 0)
    (hi : i = pre.length + seps.length) (hk : k = i + w.length) :
    ∃ b' : Buf n, b'.bytes = pre ++ (seps ++ (w ++ 0 :: rest)) ∧
      strtok sep pre.length s = .ok (some i, ⟨b', k + 1, max s.hi (k + 1)⟩) := by
  have hb' : s.buf.bytes = (pre ++ seps ++ w) ++ sep :: rest := by
    rw [hb, List.append_assoc, List.append_assoc]
  have hlen : (pre ++ seps ++ w).length = k := by
    rw [List.length_append, List.length_append, hk, hi]
  have hfit : k + [(0 : UInt8)].length ≤ n := by
    have hsize := s.buf.size
    rw [hb', List.length_append, hlen, List.length_cons] at hsize
    rw [List.length_singleton]
    omega
  refine ⟨s.buf.overwrite k [0] hfit, ?_, ?_⟩
  · simp only [Buf.overwrite, hb', ← hlen, List.take_left, List.length_singleton]
    rw [← List.drop_drop, List.drop_left]
    simp
  · rw [strtok_token hb hseps hne hw (.inl rfl) hi hk, if_neg hsep, Buf.write_of_fits s.buf hfit]
    rfl

theorem le_of_span {j : ℕ} (h : b.span p i = .ok j) : i ≤ j := by
  unfold Buf.span at h
  split at h
  · cases h
    omega
  · cases h

/-- A byte at or after `i` is one of the bytes from `i` on. -/
theorem mem_drop_of_get {j : ℕ} (hij : i ≤ j) (h : b.get j = .ok c) : c ∈ b.bytes.drop i := by
  unfold Buf.get at h
  split at h
  · rename_i x hx
    cases h
    refine List.mem_of_getElem? (i := j - i) ?_
    rw [List.getElem?_drop, show i + (j - i) = j by omega, hx]
  · cases h

/-- What is after a byte that was written is as before. -/
theorem drop_write {b' : Buf n} (h : b.write k [c] = .ok b') :
    b'.bytes.drop (k + 1) = b.bytes.drop (k + 1) := by
  unfold Buf.write at h
  split at h
  · rename_i hfit
    cases h
    have hk : (b.bytes.take k).length = k := by
      have := b.size
      have := hfit.2
      simp only [List.length_singleton, Int.toNat_natCast] at this
      rw [List.length_take]
      omega
    have hlen : (b.bytes.take k ++ [c]).length = k + 1 := by
      rw [List.length_append, hk, List.length_singleton]
    simp only [Buf.overwrite, Int.toNat_natCast, List.length_singleton]
    rw [← hlen, List.drop_left, hlen]
  · cases h

/-- A call finds a terminator, or what the next call sees was there before. -/
theorem strtok_zero {t : Option ℕ} (h : strtok sep i s = .ok (t, s')) :
    0 ∈ s.buf.bytes.drop i ∨ t.isSome ∧ i ≤ s'.save ∧
      s'.buf.bytes.drop s'.save = s.buf.bytes.drop s'.save := by
  obtain ⟨j, hj, h⟩ := bind_eq_ok.mp h
  obtain ⟨x, hx, h⟩ := bind_eq_ok.mp h
  have hij := le_of_span hj
  split at h
  · rename_i h0
    exact .inl (mem_drop_of_get hij (h0 ▸ hx))
  · obtain ⟨l, hl, h⟩ := bind_eq_ok.mp h
    obtain ⟨y, hy, h⟩ := bind_eq_ok.mp h
    have hjl := le_of_span hl
    split at h
    · rename_i h0
      exact .inl (mem_drop_of_get (b := s.buf) (by omega) (h0 ▸ hy))
    · obtain ⟨b, hb, h⟩ := bind_eq_ok.mp h
      cases h
      exact .inr ⟨rfl, show i ≤ l + 1 by omega, drop_write hb⟩

end Call

/-! ## The loop -/

section Loop

variable {n start fuel : ℕ} {σ : Type} {sep : UInt8} {body : σ → List UInt8 → σ} {s s' : Scan n}
  {a : σ} {pre xs rest : List UInt8}

/-- A terminated string is its bytes before the terminator. -/
theorem stringAt_eq_ok {b : Buf n} (hb : b.bytes = pre ++ (xs ++ 0 :: rest)) (h0 : 0 ∉ xs) :
    b.stringAt pre.length = .ok xs := by
  rw [Buf.stringAt, hb, List.drop_left, if_pos (by simp), takeWhile_terminated h0]

/-- An iteration, on a token that starts at `i`, after which `strtok` goes on at `k`. -/
theorem scanTokens_succ {b : Buf n} {w : List UInt8} {i k l : ℕ}
    (hs : strtok sep start s = .ok (some i, ⟨b, l, max s.hi (k + 1)⟩))
    (hb : b.bytes = pre ++ (w ++ 0 :: rest)) (h0 : 0 ∉ w) (hi : i = pre.length)
    (hk : k = i + w.length) : scanTokens sep body (fuel + 1) start s a =
      scanTokens sep body fuel l ⟨b, l, max s.hi (k + 1)⟩ (body a w) := by
  have hmax : max (max s.hi (k + 1)) (i + w.length + 1) = max s.hi (k + 1) := by omega
  have hstr : b.stringAt i = .ok w := hi ▸ stringAt_eq_ok hb h0
  simp only [scanTokens, hs, bind, Except.bind, hstr, Scan.touch, hmax]

/-- **The loop over a terminated string** visits its fields, and accesses nothing after its
terminator. -/
theorem scanTokens_eq_ok (body : σ → List UInt8 → σ) (a : σ) (hsep : sep ≠ 0)
    (hb : s.buf.bytes = pre ++ (xs ++ 0 :: rest)) (h0 : 0 ∉ xs) (hf : xs.length < fuel) :
    ∃ s', scanTokens sep body fuel pre.length s a = .ok ((fields sep xs).foldl body a, s') ∧
      s'.hi = max s.hi (pre.length + xs.length + 1) := by
  induction fuel generalizing s a pre xs rest with
  | zero => omega
  | succ fuel ih =>
    rcases exists_field sep xs with hall | ⟨seps, w, hseps, hne, hw, hxs⟩
    · -- No token.
      have hnil : fields sep xs = [] := by
        have := fields_seps hall []
        rwa [List.append_nil, fields_nil] at this
      rw [hnil, scanTokens, strtok_none hb hall hsep]
      exact ⟨_, rfl, rfl⟩
    · have hw0 : 0 ∉ w := fun h => h0 (by rcases hxs with rfl | ⟨_, rfl⟩ <;> simp [h])
      have hwne : ∀ x ∈ w, x ≠ sep ∧ x ≠ 0 := fun x hx =>
        ⟨fun heq => hw (heq ▸ hx), fun heq => hw0 (heq ▸ hx)⟩
      have hlen := List.length_pos_iff.mpr hne
      rcases hxs with rfl | ⟨tail, rfl⟩
      · -- The last token: the next call sees the terminator.
        rw [List.append_assoc] at hb
        rw [fields_seps hseps, fields_word hne hw,
          scanTokens_succ (strtok_last hb hseps hne hwne rfl rfl)
            (show s.buf.bytes = (pre ++ seps) ++ (w ++ 0 :: rest) by rw [hb, List.append_assoc]) hw0
            (by simp) rfl]
        have hb' : s.buf.bytes = (pre ++ seps ++ w) ++ ([] ++ 0 :: rest) := by
          rw [hb, List.nil_append, List.append_assoc, List.append_assoc]
        simp only [List.length_append] at hf
        obtain ⟨s', hrun, hhi⟩ := ih (body a w) (s := ⟨s.buf, pre.length + seps.length + w.length,
          max s.hi (pre.length + seps.length + w.length + 1)⟩) hb' (by simp) (by simp; omega)
        rw [List.length_append, List.length_append] at hrun hhi
        refine ⟨s', by simpa [fields_nil] using hrun, ?_⟩
        simp only [List.length_append, List.length_nil] at hhi ⊢
        omega
      · -- A token with more after it.
        rw [List.append_assoc, List.append_assoc, List.cons_append] at hb
        obtain ⟨b, hb', hstrtok⟩ := strtok_more hb hseps hne hwne hsep rfl rfl
        rw [fields_seps hseps, fields_append_cons, fields_word hne hw,
          scanTokens_succ hstrtok
            (show b.bytes = (pre ++ seps) ++ (w ++ 0 :: (tail ++ 0 :: rest)) by
              rw [hb', List.append_assoc]) hw0 (by simp) rfl]
        have hb'' : b.bytes = (pre ++ seps ++ w ++ [0]) ++ (tail ++ 0 :: rest) := by
          rw [hb']
          simp
        simp only [List.length_append, List.length_cons] at hf
        obtain ⟨s', hrun, hhi⟩ := ih (body a w) (s := ⟨b, pre.length + seps.length + w.length + 1,
          max s.hi (pre.length + seps.length + w.length + 1)⟩) hb''
          (fun h => h0 (by simp [h])) (by omega)
        simp only [List.length_append, List.length_cons, List.length_nil] at hrun hhi ⊢
        exact ⟨s', hrun, by omega⟩

/-- **The loop ends at a terminator** that was in the array before. -/
theorem scanTokens_zero {r : σ × Scan n} (h : scanTokens sep body fuel start s a = .ok r) :
    0 ∈ s.buf.bytes.drop start := by
  induction fuel generalizing start s a with
  | zero => cases h
  | succ fuel ih =>
    obtain ⟨⟨t, s₁⟩, hs, h⟩ := bind_eq_ok.mp h
    rcases strtok_zero hs with h0 | ⟨ht, hle, hdrop⟩
    · exact h0
    · cases t with
      | none => cases ht
      | some i =>
        obtain ⟨text, -, h⟩ := bind_eq_ok.mp h
        have hmem := ih h
        simp only [Scan.touch] at hmem
        rw [hdrop, show s₁.save = start + (s₁.save - start) by omega, ← List.drop_drop] at hmem
        exact List.mem_of_mem_drop hmem

/-- More fuel gives the same result. -/
theorem scanTokens_mono {r : σ × Scan n} (h : scanTokens sep body fuel start s a = .ok r)
    (k : ℕ) : scanTokens sep body (fuel + k) start s a = .ok r := by
  induction fuel generalizing start s a with
  | zero => cases h
  | succ fuel ih =>
    obtain ⟨⟨t, s₁⟩, hs, h⟩ := bind_eq_ok.mp h
    rw [Nat.add_right_comm]
    refine bind_eq_ok.mpr ⟨(t, s₁), hs, ?_⟩
    cases t with
    | none => exact h
    | some i =>
      obtain ⟨text, ht, h⟩ := bind_eq_ok.mp h
      exact bind_eq_ok.mpr ⟨text, ht, ih h⟩

end Loop

end LwMix
