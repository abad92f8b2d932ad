import LwMix.MinIni.Read

/-!
# The line cache of `ini_puts` (`minIni.c`)

The lines that were read and not yet copied are not kept in memory. Their number of bytes is counted,
and they are read again from the mark when they are copied.

* `cacheAccum`, `cacheFlush`: the code. `cacheLine`: the lines of `ini_puts` that copy a line.
* `Cached st ps`: the lines `ps` are between the mark and the read position.
* `cacheFlush_eq`, `cacheLine_eq`: the cache writes the lines that were put into it.
* `Copied`: all that was read is written, or is in the cache.
-/

namespace LwMix.MinIni

/-- The two files of an `ini_puts`, and its cache. -/
structure Streams where
  /-- What is left of `rfp`. -/
  rest : List UInt8
  /-- What was left of `rfp` at the mark. -/
  mark : List UInt8
  /-- What was written to `wfp`. -/
  out : List UInt8
  cachelen : ℕ
  deriving DecidableEq, Repr

/-- `cache_accum`: the new size, or no room. -/
def cacheAccum (string : List UInt8) (size : ℕ) : Option ℕ :=
  if size + string.length ≥ iniBuffersize then none else some (size + string.length)

/-- The loop of `cache_flush`: the string in the buffer, which ends at `pos`. -/
def rereadCache (size : ℕ) : ℕ → List UInt8 → List UInt8 → Except Fault (List UInt8 × List UInt8)
  | 0, _, _ => .error .fuel
  | fuel + 1, buffer, rest =>
    let pos := buffer.length
    if pos < size then
      match iniRead (iniBuffersize - pos) rest with
      | none => rereadCache size fuel buffer rest
      | some (string, rest) =>
        -- assert(pos <= *size)
        if pos + string.length ≤ size then rereadCache size fuel (buffer ++ string) rest
        else .error .assertion
    else .ok (buffer, rest)

/-- `cache_flush`: whether the buffer ended with a line termination, and the buffer. The byte `below`
is the one before the buffer, which is compared if nothing was in the cache. -/
def cacheFlush (below : UInt8) (st : Streams) : Except Fault (Bool × List UInt8 × Streams) := do
  let (buffer, rest) ← rereadCache st.cachelen (st.cachelen + 1) [] st.mark
  pure (buffer.getLastD below = 0x0A, buffer,
    { rest, mark := rest, out := st.out ++ buffer, cachelen := 0 })

/-- `ini_read` into `LocalBuffer`, which is left as it is at the end of the file. -/
def Streams.read (st : Streams) (localBuffer : List UInt8) : List UInt8 × Streams :=
  match iniRead iniBuffersize st.rest with
  | none => (localBuffer, st)
  | some (localBuffer, rest) => (localBuffer, { st with rest })

/-- `cache_accum`, with its result ignored. -/
def Streams.accum (st : Streams) (localBuffer : List UInt8) : Streams :=
  { st with cachelen := (cacheAccum localBuffer st.cachelen).getD st.cachelen }

/-- A line is put into the cache, which is flushed if there is no room. -/
def cacheLine (below : UInt8) (localBuffer : List UInt8) (st : Streams) : Except Fault Streams :=
  match cacheAccum localBuffer st.cachelen with
  | some cachelen => pure { st with cachelen }
  | none => do
    let (_, localBuffer, st) ← cacheFlush below st
    let (localBuffer, st) := st.read localBuffer
    pure (st.accum localBuffer)

/-! ## The lines in the cache -/

/-- The lines `ps` are between the mark and the read position. -/
structure Cached (st : Streams) (ps : List (List UInt8)) : Prop where
  lines : lines 0x0A 510 st.mark = ps ++ lines 0x0A 510 st.rest
  len : st.cachelen = ps.flatten.length
  fits : ps.flatten.length < 512
  noNul : 0 ∉ st.mark

variable {st st' : Streams} {ps : List (List UInt8)} {buffer rest rest' old new : List UInt8}
  {below : UInt8} {size fuel : ℕ}

theorem Cached.mark_eq (h : Cached st ps) : st.mark = ps.flatten ++ st.rest := by
  have := congrArg List.flatten h.lines
  rwa [List.flatten_append, flatten_lines, flatten_lines] at this

theorem Cached.rest_noNul (h : Cached st ps) : 0 ∉ st.rest := fun hz =>
  h.noNul (by rw [h.mark_eq]; exact List.mem_append_right _ hz)

/-- A read takes the same line if the line fits what is left of the buffer. -/
theorem iniRead_of_fits {p : List UInt8} (h0 : 0 ∉ rest)
    (h : lines 0x0A 510 rest = p :: lines 0x0A 510 rest') (hp : p.length < size)
    (hsize : size ≤ iniBuffersize) : iniRead size rest = some (p, rest') ∧ rest = p ++ rest' := by
  obtain ⟨ys, rfl, hline, hne, hys⟩ := lines_eq_cons h
  obtain rfl : ys = rest' := by
    have := congrArg List.flatten hys
    rwa [flatten_lines, flatten_lines] at this
  have hp0 : 0 ∉ p := fun hz => h0 (List.mem_append_left _ hz)
  have hread : line 0x0A (size - 1) (p ++ ys) = p := by
    rw [← line_take (m := 511) (by unfold iniBuffersize at hsize; omega), hline,
      List.take_of_length_le (by omega)]
  refine ⟨?_, rfl⟩
  unfold iniRead
  rw [if_neg (by simp [hne])]
  simp only [hread, cstr_eq_self hp0, List.drop_left]

/-- The cached lines are read again. -/
theorem rereadCache_eq (h0 : 0 ∉ rest) (h : lines 0x0A 510 rest = ps ++ lines 0x0A 510 rest')
    (hsize : buffer.length + ps.flatten.length = size) (hmax : size < iniBuffersize)
    (hf : ps.flatten.length < fuel) :
    rereadCache size fuel buffer rest = .ok (buffer ++ ps.flatten, rest') := by
  induction ps generalizing rest buffer fuel with
  | nil =>
    obtain rfl : rest = rest' := by
      have := congrArg List.flatten h
      rwa [List.nil_append, flatten_lines, flatten_lines] at this
    obtain ⟨fuel, rfl⟩ : ∃ k, fuel = k + 1 := ⟨fuel - 1, by omega⟩
    simp only [List.flatten_nil, List.length_nil, Nat.add_zero] at hsize
    simp [rereadCache, hsize]
  | cons p ps ih =>
    obtain ⟨fuel, rfl⟩ : ∃ k, fuel = k + 1 := ⟨fuel - 1, by omega⟩
    rw [List.cons_append] at h
    obtain ⟨rest₁, -, -, hne, hrest₁⟩ := lines_eq_cons h
    have hpos := List.length_pos_iff.mpr hne
    rw [List.flatten_cons, List.length_append] at hsize hf
    rw [← hrest₁] at h
    have hroom : p.length < iniBuffersize - buffer.length := by omega
    obtain ⟨hread, happ⟩ := iniRead_of_fits h0 h hroom (Nat.sub_le _ _)
    have h0' : 0 ∉ rest₁ := fun hz => h0 (by rw [happ]; exact List.mem_append_right _ hz)
    simp only [rereadCache, hread]
    rw [if_pos (by omega), if_pos (by omega), ih h0' hrest₁ (by rw [List.length_append]; omega)
      (by omega)]
    simp

/-- **A flush.** The cached lines are written, and reading goes on after them. -/
theorem cacheFlush_eq (h : Cached st ps) (below : UInt8) : cacheFlush below st =
    .ok (ps.flatten.getLastD below = 0x0A, ps.flatten,
      { rest := st.rest, mark := st.rest, out := st.out ++ ps.flatten, cachelen := 0 }) := by
  have hlen : ([] : List UInt8).length + ps.flatten.length = st.cachelen := by
    rw [h.len, List.length_nil, Nat.zero_add]
  unfold cacheFlush
  rw [rereadCache_eq h.noNul h.lines hlen (by rw [h.len]; exact h.fits) (by rw [h.len]; omega)]
  rfl

/-! ## What was read is written, or in the cache -/

/-- The text `old ++ new` is written or in the cache. Since `old` was written there was no flush but
for want of room, so the last byte of `new` is still in the cache. -/
def Copied (below : UInt8) (st : Streams) (old new : List UInt8) : Prop :=
  ∃ ps, Cached st ps ∧ st.out ++ ps.flatten = old ++ new ∧
    ps.flatten.getLastD below = new.getLastD below

/-- Nothing is in the cache. -/
theorem copied_start (h0 : 0 ∉ rest) (below : UInt8) (out : List UInt8) :
    Copied below { rest, mark := rest, out, cachelen := 0 } out [] :=
  ⟨[], ⟨rfl, rfl, by simp, h0⟩, rfl, rfl⟩

theorem Copied.rest_noNul (h : Copied below st old new) : 0 ∉ st.rest := by
  obtain ⟨ps, hps, -⟩ := h
  exact hps.rest_noNul

theorem Copied.flush (h : Copied below st old new) : ∃ buffer, cacheFlush below st =
    .ok (new.getLastD below = 0x0A, buffer,
      { rest := st.rest, mark := st.rest, out := old ++ new, cachelen := 0 }) := by
  obtain ⟨ps, hps, hout, hlast⟩ := h
  exact ⟨ps.flatten, by rw [cacheFlush_eq hps, hout, hlast]⟩

theorem getLastD_append (xs : List UInt8) (hne : buffer ≠ []) :
    (xs ++ buffer).getLastD below = buffer.getLastD below := by
  rw [List.getLastD_eq_getLast?, List.getLastD_eq_getLast?, List.getLast?_append]
  obtain ⟨x, hx⟩ : ∃ x, buffer.getLast? = some x := ⟨_, List.getLast?_eq_some_getLast hne⟩
  simp [hx]

/-- **A line that is copied.** -/
theorem Copied.line (h : Copied below st old new)
    (hlines : lines 0x0A 510 st.rest = buffer :: lines 0x0A 510 rest) :
    ∃ st', cacheLine below buffer { st with rest } = .ok st' ∧ st'.rest = rest ∧
      Copied below st' old (new ++ buffer) := by
  obtain ⟨ps, hps, hout, -⟩ := h
  obtain ⟨ys, happ, hline, hne, -⟩ := lines_eq_cons hlines
  have hlast : (new ++ buffer).getLastD below = buffer.getLastD below := getLastD_append _ hne
  have hlen : buffer.length < iniBuffersize := by
    have := line_length_le 0x0A 511 st.rest
    rw [hline] at this
    exact Nat.lt_succ_of_le this
  have hroom₀ : cacheAccum buffer 0 = some buffer.length := by
    unfold cacheAccum
    rw [if_neg (by omega), Nat.zero_add]
  unfold cacheLine
  by_cases hroom : ps.flatten.length + buffer.length ≥ iniBuffersize
  · -- the flush goes back to before the line, which is read again
    have hread := (iniRead_of_fits hps.rest_noNul hlines hlen (Nat.le_refl _)).1
    have hflush : cacheFlush below { st with rest } = .ok (_, _, _) := cacheFlush_eq hps below
    have haccum : cacheAccum buffer st.cachelen = none := by
      unfold cacheAccum
      rw [hps.len, if_pos hroom]
    refine ⟨{ rest, mark := st.rest, out := st.out ++ ps.flatten, cachelen := buffer.length },
      ?_, rfl, [buffer], ⟨hlines, by simp, by simpa [iniBuffersize] using hlen, hps.rest_noNul⟩,
      ?_, ?_⟩
    · simp only [haccum, hflush]
      show Except.ok _ = _
      simp [Streams.read, Streams.accum, hread, hroom₀]
    · simp [hout]
    · rw [hlast, List.flatten_singleton]
  · have haccum : cacheAccum buffer st.cachelen = some (st.cachelen + buffer.length) := by
      unfold cacheAccum
      rw [hps.len, if_neg hroom]
    refine ⟨{ st with rest := rest, cachelen := st.cachelen + buffer.length }, ?_, rfl,
      ps ++ [buffer], ⟨?_, ?_, ?_, hps.noNul⟩, ?_, ?_⟩
    · simp only [haccum]
      rfl
    · simp [hps.lines, hlines]
    · simp [hps.len]
    · simp only [List.flatten_append, List.flatten_singleton, List.length_append]
      unfold iniBuffersize at hroom
      omega
    · rw [List.flatten_append, List.flatten_singleton, ← List.append_assoc, hout, List.append_assoc]
    · rw [hlast, List.flatten_append, List.flatten_singleton, getLastD_append _ hne]

end LwMix.MinIni
