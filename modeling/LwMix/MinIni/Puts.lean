import LwMix.MinIni.Cache

/-!
# `ini_puts` (`minIni.c`)

* `copyToSection`, `copyToKey`, `copyRest`: the loops. `iniRewrite`: the part of `ini_puts` between
  the two files.
* `editLines`: the lines of the new file, as a function of the lines of the old one.
* `iniRewrite_eq`: for every text file, section, key and value, no fault is reached, and the new file
  has these lines.
* `eraseLines`, `iniRewrite_erase`: without a key, the section is erased.
-/

namespace LwMix.MinIni

/-- `ini_write`. -/
def Streams.write (st : Streams) (text : List UInt8) : Streams := { st with out := st.out ++ text }

/-- The loop of `ini_puts` up to the heading of the section: whether there was one. The heading of a
section that is erased is not put into the cache. -/
def copyToSection (signed : Bool) (below : UInt8) (sect : List UInt8) (key : Option (List UInt8)) :
    ℕ → Streams → Except Fault (Bool × Streams)
  | 0, _ => .error .fuel
  | fuel + 1, st =>
    match iniRead iniBuffersize st.rest with
    | none => pure (false, st)
    | some (localBuffer, rest) => do
      let st := { st with rest }
      let found := matchSection signed sect localBuffer
      let st ← if !found || key.isSome then cacheLine below localBuffer st else pure st
      if found then pure (true, st) else copyToSection signed below sect key fuel st

/-- The loop of `ini_puts` up to the entry of the key, or to the next heading: whether it was a
heading, or nothing at the end of the file. -/
def copyToKey (signed : Bool) (below : UInt8) (key : Option (List UInt8)) :
    ℕ → Streams → Except Fault (Option Bool × Streams)
  | 0, _ => .error .fuel
  | fuel + 1, st =>
    match iniRead iniBuffersize st.rest with
    | none => pure (none, st)
    | some (localBuffer, rest) =>
      let st := { st with rest }
      let heading := isHeading signed localBuffer
      if key.any (matchKey signed · localBuffer) || heading then pure (some heading, st)
      else
        match key with
        | none => copyToKey signed below key fuel { st with mark := st.rest }
        | some _ => do copyToKey signed below key fuel (← cacheLine below localBuffer st)

/-- The loop of `ini_puts` over the rest of the file. -/
def copyRest (below : UInt8) : ℕ → Streams → Except Fault Streams
  | 0, _ => .error .fuel
  | fuel + 1, st =>
    match iniRead iniBuffersize st.rest with
    | none => pure st
    | some (localBuffer, rest) => do
      copyRest below fuel (← cacheLine below localBuffer { st with rest })

/-- `ini_puts` from the first line of the area of the section on: what is written to the new file. -/
def rewriteArea (signed : Bool) (below : UInt8) (key value : Option (List UInt8)) (st : Streams) :
    Except Fault (List UInt8) := do
  let (stop, st) ← copyToKey signed below key (st.rest.length + 1) st
  match stop with
  | none =>
    -- the end of the file without an entry, so one is made
    let (flag, _, st) ← cacheFlush below st
    match key, value with
    | some key, some value =>
      let st := if flag then st else st.write [0x0A]
      let st := st.write (← writekey key value)
      pure st.out
    | _, _ => pure st.out
  | some heading =>
    let (_, localBuffer, st) ← cacheFlush below st
    let (localBuffer, st) ←
      match key, value with
      | some key, some value => do
        let localBuffer ← writekey key value
        pure (localBuffer, st.write localBuffer)
      | _, _ => pure (localBuffer, st)
    -- the line is read again: a heading is copied, the old line of the key is forgotten
    let (localBuffer, st) := st.read localBuffer
    let st := if heading then st.accum localBuffer else { st with mark := st.rest }
    let st ← copyRest below (st.rest.length + 1) st
    let (_, _, st) ← cacheFlush below st
    pure st.out

/-- `ini_puts` once both files are open: what is written to the new one. A section that is `NULL` is
empty; `NULL` for the key or the value is `none`. -/
def iniRewrite (signed : Bool) (below : UInt8) (file sect : List UInt8)
    (key value : Option (List UInt8)) : Except Fault (List UInt8) := do
  let st : Streams := { rest := file, mark := file, out := [], cachelen := 0 }
  let (found, st) ←
    if sect = [] then pure (true, st)
    else copyToSection signed below sect key (st.rest.length + 1) st
  if !found then
    -- failed to find the section, so one is added to the end
    let (flag, _, st) ← cacheFlush below st
    match key, value with
    | some key, some value =>
      let st := if flag then st else st.write [0x0A]
      let st := st.write (← writesection sect)
      let st := st.write (← writekey key value)
      pure st.out
    | _, _ => pure st.out
  else
    let (_, localBuffer, st) ← cacheFlush below st
    let st :=
      if key = none then
        -- the heading of the erased section is skipped
        let (_, st) := st.read localBuffer
        { st with mark := st.rest }
      else st
    rewriteArea signed below key value st

/-! ## The lines of the new file -/

/-- The line ends the search for the key. -/
def isStop (signed : Bool) (key line : List UInt8) : Bool :=
  matchKey signed key line || isHeading signed line

/-- Lines that are added at the end of the file, behind a line termination if the lines before them
do not end with one. -/
def addLines (below : UInt8) (ls new : List (List UInt8)) : List (List UInt8) :=
  if new = [] ∨ ls.flatten.getLastD below = 0x0A then new else [0x0A] :: new

/-- The line of the key in the area that starts with these lines becomes `new`. -/
def editArea (signed : Bool) (below : UInt8) (key : List UInt8) (new ls : List (List UInt8)) :
    List (List UInt8) :=
  let before := ls.takeWhile (!isStop signed key ·)
  match ls.dropWhile (!isStop signed key ·) with
  | [] => before ++ addLines below before new
  | l :: after => before ++ new ++ (if isHeading signed l then l :: after else after)

/-- The line that is written for the key. -/
def newLine (key : List UInt8) (value : Option (List UInt8)) : List (List UInt8) :=
  (value.map (keyLine (key.take 508))).toList

/-- The lines of the new file. -/
def editLines (signed : Bool) (below : UInt8) (sect key : List UInt8)
    (value : Option (List UInt8)) (ls : List (List UInt8)) : List (List UInt8) :=
  if sect = [] then editArea signed below key (newLine key value) ls
  else
    match ls.dropWhile (!matchSection signed sect ·) with
    | [] =>
      let new := if value = none then [] else sectionLines (sect.take 507) ++ newLine key value
      ls ++ addLines below ls new
    | l :: after =>
      ls.takeWhile (!matchSection signed sect ·) ++
        l :: editArea signed below key (newLine key value) after

/-- The lines of the file without the first section of this name. -/
def eraseLines (signed : Bool) (sect : List UInt8) (ls : List (List UInt8)) : List (List UInt8) :=
  if sect = [] then (ls.drop 1).dropWhile (!isHeading signed ·)
  else
    ls.takeWhile (!matchSection signed sect ·) ++
      ((ls.dropWhile (!matchSection signed sect ·)).drop 1).dropWhile (!isHeading signed ·)

variable {signed : Bool} {below : UInt8} {st st' : Streams} {file sect key rest old new : List UInt8}
  {value : Option (List UInt8)} {ls : List (List UInt8)} {fuel : ℕ}

/-! ## The loops -/

/-- One read of a loop. -/
theorem iniRead_cases (h0 : 0 ∉ rest) (ls : List (List UInt8)) (hls : lines 0x0A 510 rest = ls) :
    match ls with
    | [] => rest = []
    | l :: ls => ∃ rest', iniRead iniBuffersize rest = some (l, rest') ∧ rest = l ++ rest' ∧
        lines 0x0A 510 rest = l :: lines 0x0A 510 rest' ∧ lines 0x0A 510 rest' = ls ∧
          rest'.length < rest.length := by
  cases ls with
  | nil => exact lines_eq_nil.mp hls
  | cons l ls =>
    have hne : rest ≠ [] := fun hnil => by simp [hnil] at hls
    obtain ⟨buffer, rest', hread, happ, hlines, hb, -⟩ := iniRead_of_ne_nil h0 hne
    rw [hls, List.cons.injEq] at hlines
    obtain ⟨rfl, rfl⟩ := hlines
    have hpos := List.length_pos_iff.mpr hb
    refine ⟨rest', hread, happ, hls, rfl, ?_⟩
    rw [happ, List.length_append]
    omega

theorem copyRest_eq (h : Copied below st old new) (hf : st.rest.length < fuel) :
    ∃ st', copyRest below fuel st = .ok st' ∧ st'.rest = [] ∧
      Copied below st' old (new ++ st.rest) := by
  generalize hls : lines 0x0A 510 st.rest = ls
  induction ls generalizing st fuel new with
  | nil =>
    have hnil : st.rest = [] := iniRead_cases h.rest_noNul [] hls
    obtain ⟨fuel, rfl⟩ : ∃ k, fuel = k + 1 := ⟨fuel - 1, by omega⟩
    refine ⟨st, ?_, hnil, by simpa [hnil] using h⟩
    simp only [copyRest, hnil, iniRead_nil]
    rfl
  | cons l ls ih =>
    obtain ⟨rest', hread, happ, hlines, hls', hlt⟩ := iniRead_cases h.rest_noNul (l :: ls) hls
    obtain ⟨fuel, rfl⟩ : ∃ k, fuel = k + 1 := ⟨fuel - 1, by omega⟩
    obtain ⟨st₁, hline, hrest, hcopied⟩ := h.line hlines
    have hfuel : st₁.rest.length < fuel := by
      rw [hrest]
      omega
    obtain ⟨st', hok, hend, hcopied'⟩ := ih hcopied hfuel (by rw [hrest, hls'])
    refine ⟨st', ?_, hend, ?_⟩
    · simp only [copyRest, hread, hline]
      exact hok
    · rwa [hrest, List.append_assoc, ← happ] at hcopied'

/-- The line at which a loop stops is read, but not copied. -/
def StopsAt (below : UInt8) (old new l : List UInt8) (after : List (List UInt8)) (st : Streams)
    (rest : List UInt8) : Prop :=
  Copied below st old new ∧ lines 0x0A 510 st.rest = l :: lines 0x0A 510 rest ∧
    lines 0x0A 510 rest = after

theorem copyToSection_eq (signed : Bool) (sect : List UInt8) (key : Option (List UInt8))
    (h : Copied below st old new) (hf : st.rest.length < fuel) (hls : lines 0x0A 510 st.rest = ls) :
    match ls.dropWhile (!matchSection signed sect ·) with
    | [] => ∃ st', copyToSection signed below sect key fuel st = .ok (false, st') ∧ st'.rest = [] ∧
        Copied below st' old (new ++ ls.flatten)
    | l :: after => ∃ st₀ rest, copyToSection signed below sect key fuel st =
          (do pure (true, ← if key.isSome then cacheLine below l { st₀ with rest }
            else pure { st₀ with rest })) ∧
        StopsAt below old (new ++ (ls.takeWhile (!matchSection signed sect ·)).flatten) l after
          st₀ rest := by
  induction ls generalizing st fuel new with
  | nil =>
    have hnil : st.rest = [] := iniRead_cases h.rest_noNul [] hls
    obtain ⟨fuel, rfl⟩ : ∃ k, fuel = k + 1 := ⟨fuel - 1, by omega⟩
    refine ⟨st, ?_, hnil, by simpa using h⟩
    simp only [copyToSection, hnil, iniRead_nil]
    rfl
  | cons l ls ih =>
    obtain ⟨rest', hread, happ, hlines, hls', hlt⟩ := iniRead_cases h.rest_noNul (l :: ls) hls
    obtain ⟨fuel, rfl⟩ : ∃ k, fuel = k + 1 := ⟨fuel - 1, by omega⟩
    by_cases hm : matchSection signed sect l = true
    · simp only [List.dropWhile_cons, List.takeWhile_cons, hm, Bool.not_true, Bool.false_eq_true,
        ↓reduceIte, List.flatten_nil, List.append_nil]
      refine ⟨st, rest', ?_, h, hlines, hls'⟩
      simp only [copyToSection, hread, hm, Bool.not_true, Bool.false_or, ↓reduceIte]
    · obtain ⟨st₁, hline, hrest, hcopied⟩ := h.line hlines
      have hfuel : st₁.rest.length < fuel := by
        rw [hrest]
        omega
      have ih := ih hcopied hfuel (by rw [hrest, hls'])
      have hstep : copyToSection signed below sect key (fuel + 1) st =
          copyToSection signed below sect key fuel st₁ := by
        simp only [copyToSection, hread, hm, Bool.not_false, Bool.true_or, ↓reduceIte, hline]
        rfl
      simp only [List.dropWhile_cons, List.takeWhile_cons, hm, Bool.not_false, ↓reduceIte,
        List.flatten_cons, hstep]
      simpa only [List.append_assoc] using ih

theorem copyToKey_eq (signed : Bool) (key : List UInt8) (h : Copied below st old new)
    (hf : st.rest.length < fuel) (hls : lines 0x0A 510 st.rest = ls) :
    match ls.dropWhile (!isStop signed key ·) with
    | [] => ∃ st', copyToKey signed below (some key) fuel st = .ok (none, st') ∧ st'.rest = [] ∧
        Copied below st' old (new ++ ls.flatten)
    | l :: after => ∃ st₀ rest, copyToKey signed below (some key) fuel st =
          .ok (some (isHeading signed l), { st₀ with rest }) ∧
        StopsAt below old (new ++ (ls.takeWhile (!isStop signed key ·)).flatten) l after
          st₀ rest := by
  induction ls generalizing st fuel new with
  | nil =>
    have hnil : st.rest = [] := iniRead_cases h.rest_noNul [] hls
    obtain ⟨fuel, rfl⟩ : ∃ k, fuel = k + 1 := ⟨fuel - 1, by omega⟩
    refine ⟨st, ?_, hnil, by simpa using h⟩
    simp only [copyToKey, hnil, iniRead_nil]
    rfl
  | cons l ls ih =>
    obtain ⟨rest', hread, happ, hlines, hls', hlt⟩ := iniRead_cases h.rest_noNul (l :: ls) hls
    obtain ⟨fuel, rfl⟩ : ∃ k, fuel = k + 1 := ⟨fuel - 1, by omega⟩
    by_cases hm : isStop signed key l = true
    · simp only [List.dropWhile_cons, List.takeWhile_cons, hm, Bool.not_true, Bool.false_eq_true,
        ↓reduceIte, List.flatten_nil, List.append_nil]
      refine ⟨st, rest', ?_, h, hlines, hls'⟩
      unfold isStop at hm
      simp only [copyToKey, hread, Option.any_some, hm, ↓reduceIte]
      rfl
    · obtain ⟨st₁, hline, hrest, hcopied⟩ := h.line hlines
      have hfuel : st₁.rest.length < fuel := by
        rw [hrest]
        omega
      have ih := ih hcopied hfuel (by rw [hrest, hls'])
      have hstep : copyToKey signed below (some key) (fuel + 1) st =
          copyToKey signed below (some key) fuel st₁ := by
        unfold isStop at hm
        simp only [copyToKey, hread, Option.any_some, hm, Bool.false_eq_true, ↓reduceIte, hline]
        rfl
      simp only [List.dropWhile_cons, List.takeWhile_cons, hm, Bool.not_false, ↓reduceIte,
        List.flatten_cons, hstep]
      simpa only [List.append_assoc] using ih

/-! ## The new file -/

/-- The line at which a loop stopped is read again after the flush. -/
theorem StopsAt.flush {l : List UInt8} {after : List (List UInt8)}
    (h : StopsAt below old new l after st rest) :
    (∃ buffer, cacheFlush below { st with rest } = .ok (new.getLastD below = 0x0A, buffer,
        { rest := st.rest, mark := st.rest, out := old ++ new, cachelen := 0 })) ∧
      iniRead iniBuffersize st.rest = some (l, rest) ∧ 0 ∉ rest ∧ after.flatten = rest := by
  obtain ⟨hcopied, hlines, rfl⟩ := h
  obtain ⟨rest', hread, happ, hlines', -⟩ := iniRead_cases hcopied.rest_noNul _ hlines
  obtain rfl : rest' = rest := by
    have := congrArg List.flatten (List.cons.inj (hlines'.symm.trans hlines)).2
    rwa [flatten_lines, flatten_lines] at this
  have hr : 0 ∉ rest' := fun hz =>
    hcopied.rest_noNul (by rw [happ]; exact List.mem_append_right _ hz)
  exact ⟨hcopied.flush, hread, hr, flatten_lines _ _ _⟩

/-- The heading that was read again is in the cache. -/
theorem copied_accum {l mark : List UInt8} (h0 : 0 ∉ mark)
    (hlines : lines 0x0A 510 mark = l :: lines 0x0A 510 rest) (below : UInt8) (out : List UInt8) :
    Copied below (Streams.accum { rest, mark, out, cachelen := 0 } l) out l := by
  obtain ⟨ys, -, hline, -, -⟩ := lines_eq_cons hlines
  have hlen : l.length < 512 := by
    have := line_length_le 0x0A 511 mark
    rw [hline] at this
    omega
  have haccum : cacheAccum l 0 = some l.length := by
    unfold cacheAccum iniBuffersize
    rw [if_neg (by omega), Nat.zero_add]
  refine ⟨[l], ⟨hlines, ?_, by simpa using hlen, h0⟩, ?_, ?_⟩
  · simp [Streams.accum, haccum]
  · rw [List.flatten_singleton]
    rfl
  · rw [List.flatten_singleton]

theorem flatten_addLines (below : UInt8) (ls : List (List UInt8)) {new : List (List UInt8)}
    (hne : new ≠ []) : (addLines below ls new).flatten =
      (if ls.flatten.getLastD below = 0x0A then [] else [0x0A]) ++ new.flatten := by
  unfold addLines
  generalize ls.flatten.getLastD below = c
  by_cases h : c = 0x0A <;> simp [h, hne]

/-- The lines that are written for the key. -/
theorem flatten_newLine (key : List UInt8) (value : List UInt8) :
    (newLine key (some value)).flatten = keyLine (key.take 508) value := by
  simp [newLine]

/-- The line of the key is written before the line at which the loop stopped. -/
theorem write_before (h : Copied below st old new) : (do
      let st ← copyRest below (st.rest.length + 1) st
      let (_, _, st) ← cacheFlush below st
      pure st.out : Except Fault _) = .ok (old ++ (new ++ st.rest)) := by
  obtain ⟨st', hok, -, hcopied⟩ := copyRest_eq h (Nat.lt_succ_self _)
  obtain ⟨buffer, hflush⟩ := hcopied.flush
  rw [hok]
  show (do let (_, _, st) ← cacheFlush below st'; pure st.out) = _
  rw [hflush]
  rfl

/-- **The area of the section.** It is copied with the line of the key in its place. -/
theorem rewriteArea_eq (h0 : 0 ∉ rest) (out : List UInt8) :
    rewriteArea signed below (some key) value { rest, mark := rest, out, cachelen := 0 } =
      .ok (out ++
        (editArea signed below key (newLine key value) (lines 0x0A 510 rest)).flatten) := by
  have hkey := copyToKey_eq signed key (copied_start h0 below out)
    (Nat.lt_succ_self _) rfl
  have hsplit := List.takeWhile_append_dropWhile (p := (!isStop signed key ·))
    (l := lines 0x0A 510 rest)
  unfold rewriteArea editArea
  simp only [List.nil_append] at hkey
  generalize (lines 0x0A 510 rest).takeWhile (!isStop signed key ·) = before at hkey hsplit
  cases hd : (lines 0x0A 510 rest).dropWhile (!isStop signed key ·) with
  | nil =>
    simp only [hd] at hkey
    rw [hd, List.append_nil] at hsplit
    obtain ⟨st', hok, -, hcopied⟩ := hkey
    obtain ⟨buffer, hflush⟩ := hcopied.flush
    simp only [hok, ← hsplit] at hflush ⊢
    show (do let (flag, _, st) ← cacheFlush below st'; _) = _
    rw [hflush]
    cases value with
    | none =>
      show Except.ok _ = _
      simp [newLine, addLines]
    | some value =>
      show (do let line ← writekey key value; _) = _
      rw [writekey_eq, List.flatten_append, flatten_addLines below _ (by simp [newLine]),
        flatten_newLine]
      show Except.ok _ = _
      generalize before.flatten.getLastD below = c
      by_cases hlast : c = 0x0A <;> simp [hlast, Streams.write]
  | cons l after =>
    simp only [hd] at hkey
    obtain ⟨st₀, rest₀, hok, hstop⟩ := hkey
    obtain ⟨⟨buffer, hflush⟩, hread, hr, hafter⟩ := hstop.flush
    obtain ⟨hcopied, hlines, -⟩ := hstop
    have h₀ := hcopied.rest_noNul
    simp only [hok]
    show (do let (_, localBuffer, st) ← cacheFlush below { st₀ with rest := rest₀ }; _) = _
    rw [hflush]
    have hrest : ∀ buffer out' : List UInt8, (do
        let (localBuffer, st) := Streams.read
          { rest := st₀.rest, mark := st₀.rest, out := out', cachelen := 0 } buffer
        let st := if isHeading signed l then st.accum localBuffer else { st with mark := st.rest }
        let st ← copyRest below (st.rest.length + 1) st
        let (_, _, st) ← cacheFlush below st
        pure st.out : Except Fault _) =
        .ok (out' ++ (if isHeading signed l then l :: after else after).flatten) := by
      intro buffer out'
      simp only [Streams.read, hread]
      by_cases hh : isHeading signed l = true
      · simp only [hh, ↓reduceIte]
        rw [write_before (copied_accum h₀ hlines below out')]
        simp [Streams.accum, hafter]
      · simp only [hh, Bool.false_eq_true, ↓reduceIte]
        rw [write_before (copied_start hr below out'), hafter]
        rfl
    cases value with
    | none => exact (hrest buffer (out ++ before.flatten)).trans (by simp [newLine])
    | some value =>
      show (do let localBuffer ← writekey key value; _) = _
      rw [writekey_eq]
      refine (hrest _ (out ++ before.flatten ++ keyLine (key.take 508) value)).trans ?_
      simp [newLine]

/-- **The new file.** For every text file, section, key and value no fault is reached, and the new
file has the lines `editLines`. -/
theorem iniRewrite_eq (h0 : 0 ∉ file) (value : Option (List UInt8)) :
    iniRewrite signed below file sect (some key) value =
      .ok (editLines signed below sect key value (lines 0x0A 510 file)).flatten := by
  have hstart := copied_start h0 below []
  unfold iniRewrite editLines
  by_cases hnil : sect = []
  · simp only [hnil, ↓reduceIte]
    obtain ⟨buffer, hflush⟩ := hstart.flush
    show (do
      let (_, localBuffer, st) ← cacheFlush below
        { rest := file, mark := file, out := [], cachelen := 0 }
      _) = _
    rw [hflush]
    exact rewriteArea_eq h0 []
  · have hsect := copyToSection_eq signed sect (some key) hstart (Nat.lt_succ_self _) rfl
    have hsplit := List.takeWhile_append_dropWhile (p := (!matchSection signed sect ·))
      (l := lines 0x0A 510 file)
    simp only [hnil, ↓reduceIte, List.nil_append] at hsect ⊢
    generalize (lines 0x0A 510 file).takeWhile (!matchSection signed sect ·) = before
      at hsect hsplit ⊢
    cases hd : (lines 0x0A 510 file).dropWhile (!matchSection signed sect ·) with
    | nil =>
      simp only [hd] at hsect
      rw [hd, List.append_nil] at hsplit
      obtain ⟨st', hok, -, hcopied⟩ := hsect
      obtain ⟨buffer, hflush⟩ := hcopied.flush
      simp only [hok]
      show (do let (flag, _, st) ← cacheFlush below st'; _) = _
      rw [hflush]
      cases value with
      | none =>
        show Except.ok _ = _
        simp [addLines]
      | some value =>
        show (do let text ← writesection sect; _) = _
        rw [writesection_eq]
        show (do let line ← writekey key value; _) = _
        rw [writekey_eq, if_neg (Option.some_ne_none value), List.flatten_append,
          flatten_addLines below _ (by simp [newLine]), List.flatten_append, flatten_newLine]
        show Except.ok _ = _
        generalize (lines 0x0A 510 file).flatten.getLastD below = c
        by_cases hlast : c = 0x0A <;> simp [hlast, Streams.write]
    | cons l after =>
      simp only [hd] at hsect
      obtain ⟨st₀, rest₀, hok, hcopied, hlines, hafter⟩ := hsect
      obtain ⟨st₁, hline, hrest, hcopied'⟩ := hcopied.line hlines
      obtain ⟨buffer, hflush⟩ := hcopied'.flush
      simp only [hok, Option.isSome_some, ↓reduceIte, hline]
      show (do let (_, localBuffer, st) ← cacheFlush below st₁; _) = _
      rw [hflush]
      refine (rewriteArea_eq hcopied'.rest_noNul _).trans ?_
      simp [hrest, hafter]

/-! ## An erased section -/

/-- The lines of the area are skipped, and nothing is in the cache. -/
theorem copyToKey_erase (signed : Bool) (below : UInt8) (h0 : 0 ∉ rest) (out : List UInt8)
    (hf : rest.length < fuel) (hls : lines 0x0A 510 rest = ls) :
    match ls.dropWhile (!isHeading signed ·) with
    | [] => copyToKey signed below none fuel { rest, mark := rest, out, cachelen := 0 } =
        .ok (none, { rest := [], mark := [], out, cachelen := 0 })
    | l :: after => ∃ mark rest',
        copyToKey signed below none fuel { rest, mark := rest, out, cachelen := 0 } =
          .ok (some true, { rest := rest', mark, out, cachelen := 0 }) ∧
        StopsAt below out [] l after { rest := mark, mark, out, cachelen := 0 } rest' := by
  induction ls generalizing rest fuel with
  | nil =>
    obtain rfl : rest = [] := iniRead_cases h0 [] hls
    obtain ⟨fuel, rfl⟩ : ∃ k, fuel = k + 1 := ⟨fuel - 1, by omega⟩
    rfl
  | cons l ls ih =>
    obtain ⟨rest', hread, happ, hlines, hls', hlt⟩ := iniRead_cases h0 (l :: ls) hls
    obtain ⟨fuel, rfl⟩ : ∃ k, fuel = k + 1 := ⟨fuel - 1, by omega⟩
    by_cases hm : isHeading signed l = true
    · simp only [List.dropWhile_cons, hm, Bool.not_true, Bool.false_eq_true, ↓reduceIte]
      refine ⟨rest, rest', ?_, copied_start h0 below out, hlines, hls'⟩
      simp only [copyToKey, hread, Option.any_none, Bool.false_or, hm, ↓reduceIte]
      rfl
    · have h0' : 0 ∉ rest' := fun hz => h0 (by rw [happ]; exact List.mem_append_right _ hz)
      have hfuel : rest'.length < fuel := by omega
      have ih := ih h0' hfuel hls'
      have hstep : copyToKey signed below none (fuel + 1) { rest, mark := rest, out, cachelen := 0 } =
          copyToKey signed below none fuel { rest := rest', mark := rest', out, cachelen := 0 } := by
        simp only [copyToKey, hread, Option.any_none, Bool.false_or, hm, Bool.false_eq_true,
          ↓reduceIte]
      simp only [List.dropWhile_cons, hm, Bool.not_false, ↓reduceIte, hstep]
      exact ih

theorem rewriteArea_erase (h0 : 0 ∉ rest) (out : List UInt8) :
    rewriteArea signed below none value { rest, mark := rest, out, cachelen := 0 } =
      .ok (out ++ ((lines 0x0A 510 rest).dropWhile (!isHeading signed ·)).flatten) := by
  have hkey := copyToKey_erase signed below h0 out (Nat.lt_succ_self _) rfl
  unfold rewriteArea
  cases hd : (lines 0x0A 510 rest).dropWhile (!isHeading signed ·) with
  | nil =>
    simp only [hd] at hkey
    have hstart : Copied below { rest := [], mark := [], out, cachelen := 0 } out [] :=
      copied_start List.not_mem_nil below out
    obtain ⟨buffer, hflush⟩ := hstart.flush
    simp only [hkey]
    show (do
      let (flag, _, st) ← cacheFlush below { rest := [], mark := [], out, cachelen := 0 }
      _) = _
    rw [hflush]
    rfl
  | cons l after =>
    simp only [hd] at hkey
    obtain ⟨mark, rest', hok, hstop⟩ := hkey
    obtain ⟨⟨buffer, hflush⟩, hread, -, hafter⟩ := hstop.flush
    obtain ⟨hcopied, hlines, -⟩ := hstop
    simp only [hok]
    show (do
      let (_, localBuffer, st) ← cacheFlush below { rest := rest', mark, out, cachelen := 0 }
      _) = _
    rw [hflush]
    show (do
      let (localBuffer, st) := Streams.read { rest := mark, mark, out := out ++ [], cachelen := 0 }
        buffer
      let st ← copyRest below ((st.accum localBuffer).rest.length + 1) (st.accum localBuffer)
      let (_, _, st) ← cacheFlush below st
      pure st.out) = _
    simp only [Streams.read, hread]
    rw [write_before (copied_accum hcopied.rest_noNul hlines below _)]
    simp [Streams.accum, hafter]

/-- **An erased section.** No fault is reached, and the new file has the lines `eraseLines`. -/
theorem iniRewrite_erase (h0 : 0 ∉ file) (value : Option (List UInt8)) :
    iniRewrite signed below file sect none value =
      .ok (eraseLines signed sect (lines 0x0A 510 file)).flatten := by
  have hstart := copied_start h0 below []
  unfold iniRewrite eraseLines
  by_cases hnil : sect = []
  · simp only [hnil, ↓reduceIte]
    obtain ⟨buffer, hflush⟩ := hstart.flush
    show (do
      let (_, localBuffer, st) ← cacheFlush below
        { rest := file, mark := file, out := [], cachelen := 0 }
      _) = _
    rw [hflush]
    show rewriteArea signed below none value
      (let (_, st) := Streams.read { rest := file, mark := file, out := [], cachelen := 0 } buffer
      { st with mark := st.rest }) = _
    cases hls : lines 0x0A 510 file with
    | nil =>
      obtain rfl : file = [] := lines_eq_nil.mp hls
      exact (rewriteArea_erase h0 []).trans (by simp)
    | cons l ls =>
      obtain ⟨rest', hread, happ, -, hls', -⟩ := iniRead_cases h0 (l :: ls) hls
      have h0' : 0 ∉ rest' := fun hz => h0 (by rw [happ]; exact List.mem_append_right _ hz)
      simp only [Streams.read, hread]
      exact (rewriteArea_erase h0' []).trans (by simp [hls'])
  · have hsect := copyToSection_eq signed sect none hstart (Nat.lt_succ_self _) rfl
    have hsplit := List.takeWhile_append_dropWhile (p := (!matchSection signed sect ·))
      (l := lines 0x0A 510 file)
    simp only [hnil, ↓reduceIte, List.nil_append] at hsect ⊢
    generalize (lines 0x0A 510 file).takeWhile (!matchSection signed sect ·) = before
      at hsect hsplit ⊢
    cases hd : (lines 0x0A 510 file).dropWhile (!matchSection signed sect ·) with
    | nil =>
      simp only [hd] at hsect
      rw [hd, List.append_nil] at hsplit
      obtain ⟨st', hok, -, hcopied⟩ := hsect
      obtain ⟨buffer, hflush⟩ := hcopied.flush
      simp only [hok]
      show (do let (flag, _, st) ← cacheFlush below st'; _) = _
      rw [hflush]
      show Except.ok _ = _
      simp [hsplit]
    | cons l after =>
      simp only [hd] at hsect
      obtain ⟨st₀, rest₀, hok, hstop⟩ := hsect
      obtain ⟨⟨buffer, hflush⟩, hread, hr, -⟩ := hstop.flush
      obtain ⟨-, -, hafter⟩ := hstop
      simp only [hok, Option.isSome_none, Bool.false_eq_true, ↓reduceIte]
      show (do let (_, localBuffer, st) ← cacheFlush below { st₀ with rest := rest₀ }; _) = _
      rw [hflush]
      show rewriteArea signed below none value
        (let (_, st) := Streams.read
          { rest := st₀.rest, mark := st₀.rest, out := before.flatten, cachelen := 0 } buffer
        { st with mark := st.rest }) = _
      simp only [Streams.read, hread]
      rw [rewriteArea_erase hr, hafter]
      simp

end LwMix.MinIni
