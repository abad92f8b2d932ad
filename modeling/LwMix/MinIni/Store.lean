import LwMix.MinIni.Puts

/-!
# A file that `ini_puts` has written (`minIni.c`)

* `lines_of_suffix`, `document_addLines`: the new file is read in the lines that were written.
* `document_editArea`, `document_editLines`: the document of the new file is the old one with the
  value set.
* `document_eraseLines`: or without the section.
-/

namespace LwMix.MinIni

variable {signed : Bool} {below : UInt8} {file sect key rest xs l : List UInt8}
  {value : Option (List UInt8)} {ls ks new : List (List UInt8)}

/-! ## The lines of the new file -/

/-- The last lines of a text are the lines of its end. -/
theorem lines_of_suffix (h : lines 0x0A 510 xs = ks ++ ls) : lines 0x0A 510 ls.flatten = ls := by
  induction ks generalizing xs with
  | nil => rw [List.nil_append] at h; rw [← h, flatten_lines]
  | cons k ks ih =>
    obtain ⟨ys, -, -, -, hys⟩ := lines_eq_cons h
    exact ih hys

/-- The document of a file that starts with whole lines. -/
theorem document_append (h : ∀ l ∈ ls, Whole 0x0A 510 l) (rest : List UInt8) :
    document signed (ls.flatten ++ rest) = ls.filterMap (view signed) ++ document signed rest := by
  unfold document
  rw [lines_append h, List.filterMap_append]

theorem document_flatten (h : ∀ l ∈ ls, Whole 0x0A 510 l) :
    document signed ls.flatten = ls.filterMap (view signed) := by
  have happ : document signed (ls.flatten ++ []) =
      ls.filterMap (view signed) ++ document signed [] := document_append h []
  rwa [List.append_nil, document_nil, List.append_nil] at happ

theorem view_newline_nil : view signed [0x0A] = none := by
  cases signed <;> decide

/-- The text is empty or ends with a line termination, or the byte before the buffer is none. -/
def Terminated (below : UInt8) (xs : List UInt8) : Prop :=
  below ≠ 0x0A ∨ xs = [] ∨ xs.getLast? = some 0x0A

theorem filterMap_addLines (below : UInt8) (ls new : List (List UInt8)) :
    (addLines below ls new).filterMap (view signed) = new.filterMap (view signed) := by
  unfold addLines
  split
  · rfl
  · rw [List.filterMap_cons_none view_newline_nil]

theorem whole_addLines (hnew : ∀ l ∈ new, Whole 0x0A 510 l) :
    ∀ l ∈ addLines below ls new, Whole 0x0A 510 l := by
  unfold addLines
  split
  · exact hnew
  · intro l hl
    rcases List.mem_cons.mp hl with rfl | hl
    · exact whole_of_newline (l := []) List.not_mem_nil (Nat.zero_le _)
    · exact hnew l hl

theorem getLastD_mem (c : UInt8) (hne : l ≠ []) : l.getLastD c ∈ l := by
  rw [List.getLastD_eq_getLast?, List.getLast?_eq_some_getLast hne, Option.getD_some]
  exact List.getLast_mem hne

/-- Behind a line without a line termination the flag of `cache_flush` is not set. -/
theorem getLastD_ne {ini : List (List UInt8)} {last : List UInt8} (hall : ks ++ ls = ini ++ [last])
    (hne : last ≠ []) (hlast : 0x0A ∉ last)
    (hb : Terminated below (ks ++ ls).flatten) : ls.flatten.getLastD below ≠ 0x0A := by
  have hin : ∀ xs : List UInt8, (xs ++ last).getLastD below ≠ 0x0A := fun xs h => by
    rw [getLastD_append xs hne] at h
    exact hlast (h ▸ getLastD_mem below hne)
  rcases List.eq_nil_or_concat ls with rfl | ⟨ls, l, rfl⟩
  · rcases hb with hb | hb | hb
    · exact hb
    · rw [hall, List.flatten_append, List.flatten_singleton] at hb
      exact absurd (List.append_eq_nil_iff.mp hb).2 hne
    · rw [hall, List.flatten_append, List.flatten_singleton] at hb
      refine absurd ?_ (hin ini.flatten)
      rw [List.getLastD_eq_getLast?, hb, Option.getD_some]
  · rw [List.concat_eq_append, ← List.append_assoc] at hall
    obtain rfl : l = last := List.singleton_inj.mp (List.append_inj' hall rfl).2
    rw [List.concat_eq_append, List.flatten_append, List.flatten_singleton]
    exact hin ls.flatten

/-- Lines that are added to the end of a file. -/
theorem document_addLines (h : lines 0x0A 510 xs = ks ++ ls) (hnew : ∀ l ∈ new, Whole 0x0A 510 l)
    (hb : Terminated below xs) :
    document signed (ks ++ ls ++ addLines below ls new).flatten =
      (ks ++ ls).filterMap (view signed) ++ new.filterMap (view signed) := by
  have hxs : (ks ++ ls).flatten = xs := by rw [← h, flatten_lines]
  by_cases hnil : new = []
  · subst hnil
    rw [addLines, if_pos (.inl rfl), List.append_nil, hxs, document, h]
    simp
  by_cases hwhole : ∀ l ∈ ks ++ ls, Whole 0x0A 510 l
  · rw [List.flatten_append, document_append hwhole, document_flatten (whole_addLines hnew),
      filterMap_addLines]
  · -- the last line has no line termination, so one is written
    rcases List.eq_nil_or_concat (ks ++ ls) with hall | ⟨ini, last, hall⟩
    · exact absurd (by simp [hall]) hwhole
    · rw [List.concat_eq_append] at hall
      have hini := whole_of_lines_append (h.trans hall) (by simp)
      have hne : last ≠ [] := ne_nil_of_mem_lines (by rw [h, hall]; simp)
      have hlast : 0x0A ∉ last ∧ Whole 0x0A 510 (last ++ [0x0A]) := by
        refine (whole_or_of_lines (h.trans hall)).resolve_left fun hw => hwhole fun l hl => ?_
        rw [hall] at hl
        rcases List.mem_append.mp hl with hl | hl
        · exact hini l hl
        · rwa [List.mem_singleton.mp hl]
      have hflag := getLastD_ne hall hne hlast.1 (by rwa [hxs])
      have hflat : (ks ++ ls ++ addLines below ls new).flatten =
          (ini ++ [last ++ [0x0A]] ++ new).flatten := by
        rw [addLines, if_neg (not_or.mpr ⟨hnil, hflag⟩), hall]
        simp
      have hview : [last ++ [0x0A]].filterMap (view signed) = [last].filterMap (view signed) := by
        simp only [List.filterMap_cons, view_newline]
      rw [hflat, document_flatten, hall, List.filterMap_append, List.filterMap_append, hview,
        ← List.filterMap_append]
      · intro l hl
        rcases List.mem_append.mp hl with hl | hl
        · rcases List.mem_append.mp hl with hl | hl
          · exact hini l hl
          · rw [List.mem_singleton.mp hl]
            exact hlast.2
        · exact hnew l hl

/-! ## The document of the new file -/

/-- A line that does not end the search for a key. -/
theorem passes_of_not_isStop (h0 : 0 ∉ key) (h : isStop signed key l = false) :
    ∀ i ∈ view signed l, Document.Passes (lower key) i := by
  intro i hi
  unfold isStop at h
  rw [Bool.or_eq_false_iff] at h
  cases i with
  | head s => exact absurd (isHeading_iff.mpr ⟨s, hi⟩) (by simp [h.2])
  | entry k v =>
    rintro rfl
    by_cases hc : isComment signed l = true
    · rw [view_comment hc] at hi
      cases hi
    · rw [view_of_entry h.2 (by simpa using hc)] at hi
      obtain ⟨r, hr, hentry⟩ := Option.map_eq_some_iff.mp hi
      rw [Item.entry.injEq] at hentry
      exact absurd ((matchKey_iff h0).mpr ⟨r, hr, hentry.1⟩) (by simp [h.1])

theorem toLower_eq_mark {c d : UInt8} (hd : d = 0x3B ∨ d = 0x23) (h : toLower c = d) : c = d := by
  unfold toLower at h
  split at h
  · rename_i hc
    have h₁ := UInt8.le_iff_toNat_le.mp hc.1
    have h₂ := UInt8.le_iff_toNat_le.mp hc.2
    have h₃ := congrArg UInt8.toNat h
    rcases hd with rfl | rfl <;>
      simp only [UInt8.toNat_add, UInt8.reduceToNat] at h₁ h₂ h₃ <;> omega
  · exact h

/-- The name before the separator starts as the line does. -/
theorem splitEntry_cons {d : UInt8} (h₁ : d ≠ 0x3D) (h₂ : d ≠ 0x3A) (xs : List UInt8) :
    splitEntry (d :: xs) = (splitEntry xs).map fun r => (d :: r.1, r.2) := by
  have hcut : ∀ c, d ≠ c → strchr (d :: xs) c = (strchr xs c).map fun r => (d :: r.1, r.2) := by
    intro c hc
    by_cases hmem : c ∈ xs
    · simp [strchr, hmem, hc]
    · simp [strchr, hmem, Ne.symm hc]
  unfold splitEntry
  rw [hcut 0x3D h₁, hcut 0x3A h₂]
  cases strchr xs 0x3D <;> rfl

theorem striptrailing_cons {d : UInt8} (h : isBlank signed d = false) (xs : List UInt8) :
    striptrailing signed (d :: xs) = d :: striptrailing signed xs := by
  unfold striptrailing List.rdropWhile
  rw [List.reverse_cons, List.dropWhile_append]
  split
  · rename_i hnil
    rw [List.isEmpty_iff] at hnil
    simp [hnil, h]
  · simp

/-- A key that can be found again is not found in a comment. -/
theorem not_isComment_of_matchKey (hk : KeyOk signed key) (h : matchKey signed key l = true) :
    isComment signed l = false := by
  obtain ⟨r, hr, hlow⟩ := (matchKey_iff hk.noNul).mp h
  by_contra hc
  rw [Bool.not_eq_false] at hc
  unfold isComment at hc
  simp only [decide_eq_true_eq] at hc
  obtain ⟨d, hd, hhead⟩ : ∃ d, (d = 0x3B ∨ d = 0x23) ∧
      (skipleading signed l).head? = some d := by
    rcases hc with hc | hc
    · exact ⟨0x3B, .inl rfl, hc⟩
    · exact ⟨0x23, .inr rfl, hc⟩
  obtain ⟨hblank, h₁, h₂⟩ : isBlank signed d = false ∧ d ≠ 0x3D ∧ d ≠ 0x3A := by
    rcases hd with rfl | rfl <;> cases signed <;> decide
  -- the name before the separator starts with the mark, and so does the key
  obtain ⟨sp, hsp⟩ := List.head?_eq_some_iff.mp hhead
  rw [hsp, splitEntry_cons h₁ h₂] at hr
  obtain ⟨r', -, rfl⟩ := Option.map_eq_some_iff.mp hr
  rw [striptrailing_cons hblank] at hlow
  cases hkey : key with
  | nil => simp [hkey, lower] at hlow
  | cons x xs =>
    have hx : toLower d = toLower x := by
      rw [hkey, lower, lower, List.map_cons, List.map_cons, List.cons.injEq] at hlow
      exact hlow.1
    have hmark : toLower d = d := by
      rcases hd with rfl | rfl <;> decide
    obtain rfl : x = d := toLower_eq_mark hd (hx.symm.trans hmark)
    obtain ⟨-, -, h₃, h₄⟩ := hk.start x (by rw [hkey]; rfl)
    rcases hd with rfl | rfl
    · exact h₃ rfl
    · exact h₄ rfl

/-- A line that ends the search for a key, and is no heading, is the entry of the key. -/
theorem view_of_isStop (hk : KeyOk signed key) (h : isStop signed key l = true)
    (hh : isHeading signed l = false) : ∃ v, view signed l = some (.entry (lower key) v) := by
  unfold isStop at h
  rw [hh, Bool.or_false] at h
  obtain ⟨r, hr, hlow⟩ := (matchKey_iff hk.noNul).mp h
  rw [view_of_entry hh (not_isComment_of_matchKey hk h), hr]
  exact ⟨readValue signed r.2, by simp [hlow]⟩

/-- The lines before the first one that ends the search. -/
theorem takeWhile_passes (signed : Bool) (h0 : 0 ∉ key) (ls : List (List UInt8)) :
    ∀ i ∈ (ls.takeWhile (!isStop signed key ·)).filterMap (view signed),
      Document.Passes (lower key) i := by
  intro i hi
  obtain ⟨l, hl, hview⟩ := List.mem_filterMap.mp hi
  exact passes_of_not_isStop h0 (by simpa using List.mem_takeWhile_imp hl) i hview

/-- **The area of the section.** -/
theorem document_editArea (h : lines 0x0A 510 xs = ks ++ ls) (hk : KeyOk signed key)
    {entry : Option (List UInt8)} (hnew : ∀ l ∈ new, Whole 0x0A 510 l)
    (hview : new.filterMap (view signed) = (entry.map (Item.entry (lower key))).toList)
    (hb : Terminated below xs) :
    document signed (ks ++ editArea signed below key new ls).flatten =
      ks.filterMap (view signed) ++
        Document.setKey (lower key) entry (ls.filterMap (view signed)) := by
  have hsplit := List.takeWhile_append_dropWhile (p := (!isStop signed key ·)) (l := ls)
  have hpasses := takeWhile_passes signed hk.noNul ls
  unfold editArea
  generalize ls.takeWhile (!isStop signed key ·) = before at hsplit hpasses ⊢
  cases hd : ls.dropWhile (!isStop signed key ·) with
  | nil =>
    obtain rfl : before = ls := by rwa [hd, List.append_nil] at hsplit
    have hset : Document.setKey (lower key) entry (before.filterMap (view signed) ++ []) =
        before.filterMap (view signed) ++ Document.setKey (lower key) entry [] :=
      Document.setKey_append hpasses
    rw [List.append_nil] at hset
    simp only
    rw [← List.append_assoc, document_addLines h hnew hb, List.filterMap_append, hset, hview,
      List.append_assoc]
    rfl
  | cons l after =>
    rw [hd] at hsplit
    have hstop : isStop signed key l = true := by
      have := List.head_dropWhile_not (!isStop signed key ·) (l := ls) (by simp [hd])
      simpa [hd] using this
    have hlines : lines 0x0A 510 xs = (ks ++ before) ++ (l :: after) := by
      rw [h, ← hsplit, List.append_assoc]
    have hwhole := whole_of_lines_append hlines (by simp)
    have hend : lines 0x0A 510 (l :: after).flatten = l :: after := lines_of_suffix hlines
    have hlines' : lines 0x0A 510 xs = (ks ++ before ++ [l]) ++ after := by
      rw [hlines, List.append_assoc (ks ++ before), List.singleton_append]
    have hafter : lines 0x0A 510 after.flatten = after := lines_of_suffix hlines'
    have hwhole' : ∀ k ∈ ks ++ before ++ new, Whole 0x0A 510 k := by
      intro k hk
      rcases List.mem_append.mp hk with hk | hk
      · exact hwhole k hk
      · exact hnew k hk
    rw [← hsplit, List.filterMap_append, Document.setKey_append hpasses]
    simp only
    rw [← List.append_assoc, ← List.append_assoc, List.flatten_append, document_append hwhole',
      List.filterMap_append, List.filterMap_append, hview]
    by_cases hh : isHeading signed l = true
    · obtain ⟨s, hs⟩ := isHeading_iff.mp hh
      rw [if_pos hh, document, hend, List.filterMap_cons_some hs, Document.setKey]
      simp
    · obtain ⟨v, hv⟩ := view_of_isStop hk hstop (by simpa using hh)
      rw [if_neg hh, document, hafter, List.filterMap_cons_some hv, Document.setKey, if_pos rfl]
      simp

/-- The line that is written is the entry that is set. -/
theorem filterMap_newLine (hk : KeyOk signed key) (value : Option (List UInt8)) :
    (newLine key value).filterMap (view signed) =
      ((value.map (stored signed key)).map (Item.entry (lower key))).toList := by
  cases value with
  | none => rfl
  | some value =>
    unfold newLine
    rw [List.take_of_length_le hk.fits]
    simp [view_keyLine hk]

theorem whole_newLine (hk : KeyOk signed key) (hv : ∀ v ∈ value, 0x0A ∉ v) :
    ∀ l ∈ newLine key value, Whole 0x0A 510 l := by
  intro l hl
  cases value with
  | none => cases hl
  | some value =>
    unfold newLine at hl
    rw [List.take_of_length_le hk.fits] at hl
    obtain rfl : l = keyLine key value := by simpa using hl
    exact whole_keyLine hk.fits hk.noNewline (hv value rfl)

/-- **The document of the new file** is the one of the old file with the value set. -/
theorem document_editLines (hs : SectionOk sect) (hk : KeyOk signed key)
    (hv : ∀ v ∈ value, 0x0A ∉ v) (hb : Terminated below file) :
    document signed (editLines signed below sect key value (lines 0x0A 510 file)).flatten =
      Document.set (sectionName sect) (lower key) (value.map (stored signed key))
        (document signed file) := by
  have hnew := whole_newLine hk hv
  have hview := filterMap_newLine hk value
  unfold editLines sectionName
  by_cases hnil : sect = []
  · rw [if_pos hnil, if_pos hnil]
    exact document_editArea (List.nil_append _).symm hk hnew hview hb
  · rw [if_neg hnil, if_neg hnil]
    have hsplit := List.takeWhile_append_dropWhile (p := (!matchSection signed sect ·))
      (l := lines 0x0A 510 file)
    have hbefore : ∀ i ∈ ((lines 0x0A 510 file).takeWhile
        (!matchSection signed sect ·)).filterMap (view signed),
          i ≠ .head (some (lower sect)) := by
      rintro i hi rfl
      obtain ⟨l, hl, hv⟩ := List.mem_filterMap.mp hi
      have := List.mem_takeWhile_imp hl
      rw [(matchSection_iff hs.noNul).mpr hv] at this
      cases this
    generalize (lines 0x0A 510 file).takeWhile (!matchSection signed sect ·) = before
      at hsplit hbefore ⊢
    have hdoc : document signed file = before.filterMap (view signed) ++
        ((lines 0x0A 510 file).dropWhile (!matchSection signed sect ·)).filterMap (view signed) := by
      rw [document, ← List.filterMap_append, hsplit]
    show _ = Document.setIn (lower sect) (lower key) _ (document signed file)
    rw [hdoc, Document.setIn_append hbefore]
    cases hd : (lines 0x0A 510 file).dropWhile (!matchSection signed sect ·) with
    | nil =>
      obtain rfl : before = lines 0x0A 510 file := by rwa [hd, List.append_nil] at hsplit
      have hsect : sectionLines (sect.take 507) = [0x5B :: sect ++ [0x5D] ++ [0x0A]] := by
        rw [List.take_of_length_le hs.fits, sectionLines, if_neg hnil]
      cases value with
      | none =>
        have hnone : ∀ l ∈ ([] : List (List UInt8)), Whole 0x0A 510 l := by simp
        refine (document_addLines (List.nil_append _).symm hnone hb).trans ?_
        simp [Document.setIn]
      | some value =>
        have hwhole : ∀ l ∈ sectionLines (sect.take 507) ++ newLine key (some value),
            Whole 0x0A 510 l := by
          intro l hl
          rcases List.mem_append.mp hl with hl | hl
          · rw [List.take_of_length_le hs.fits] at hl
            exact whole_sectionLines hs.fits hs.noNewline l hl
          · exact hnew l hl
        refine (document_addLines (List.nil_append _).symm hwhole hb).trans ?_
        rw [List.filterMap_append (l := sectionLines _), hview, hsect, List.filterMap_cons_some
          (view_sectionLine hs.noBracket)]
        rfl
    | cons l after =>
      rw [hd] at hsplit
      have hm : matchSection signed sect l = true := by
        have := List.head_dropWhile_not (!matchSection signed sect ·) (l := lines 0x0A 510 file)
          (by simp [hd])
        simpa [hd] using this
      have hl := (matchSection_iff hs.noNul).mp hm
      have hlines : lines 0x0A 510 file = (before ++ [l]) ++ after := by
        rw [← hsplit, List.append_assoc, List.singleton_append]
      have harea := document_editArea hlines hk hnew hview hb
      rw [List.filterMap_cons_some hl, Document.setIn, if_pos rfl]
      simpa [hl] using harea

/-- **The document without the section.** -/
theorem document_eraseLines (h0 : 0 ∉ sect) (hnil : sect ≠ []) :
    document signed (eraseLines signed sect (lines 0x0A 510 file)).flatten =
      Document.eraseSection (lower sect) (document signed file) := by
  have hsplit := List.takeWhile_append_dropWhile (p := (!matchSection signed sect ·))
    (l := lines 0x0A 510 file)
  have hbefore : ∀ i ∈ ((lines 0x0A 510 file).takeWhile
      (!matchSection signed sect ·)).filterMap (view signed), i ≠ .head (some (lower sect)) := by
    rintro i hi rfl
    obtain ⟨l, hl, hv⟩ := List.mem_filterMap.mp hi
    have := List.mem_takeWhile_imp hl
    rw [(matchSection_iff h0).mpr hv] at this
    cases this
  unfold eraseLines
  rw [if_neg hnil]
  generalize (lines 0x0A 510 file).takeWhile (!matchSection signed sect ·) = before
    at hsplit hbefore ⊢
  have hdoc : document signed file = before.filterMap (view signed) ++
      ((lines 0x0A 510 file).dropWhile (!matchSection signed sect ·)).filterMap (view signed) := by
    rw [document, ← List.filterMap_append, hsplit]
  rw [hdoc, Document.eraseSection_append hbefore]
  cases hd : (lines 0x0A 510 file).dropWhile (!matchSection signed sect ·) with
  | nil =>
    rw [hd, List.append_nil] at hsplit
    rw [hsplit]
    simp [flatten_lines, document, Document.eraseSection]
  | cons l after =>
    rw [hd] at hsplit
    have hm : matchSection signed sect l = true := by
      have := List.head_dropWhile_not (!matchSection signed sect ·) (l := lines 0x0A 510 file)
        (by simp [hd])
      simpa [hd] using this
    have harea := List.takeWhile_append_dropWhile (p := (!isHeading signed ·)) (l := after)
    have hskip : ∀ i ∈ (after.takeWhile (!isHeading signed ·)).filterMap (view signed),
        ∀ s, i ≠ .head s := by
      rintro i hi s rfl
      obtain ⟨k, hk, hv⟩ := List.mem_filterMap.mp hi
      have := List.mem_takeWhile_imp hk
      rw [isHeading_iff.mpr ⟨s, hv⟩] at this
      cases this
    rw [List.filterMap_cons_some ((matchSection_iff h0).mp hm), Document.eraseSection, if_pos rfl,
      List.drop_one, List.tail_cons]
    generalize hend : after.dropWhile (!isHeading signed ·) = rest at harea
    have hlines : lines 0x0A 510 file =
        before ++ (l :: after.takeWhile (!isHeading signed ·) ++ rest) := by
      rw [← hsplit, List.cons_append, harea]
    have hwhole := whole_of_lines_append hlines (by simp)
    have hrest : lines 0x0A 510 rest.flatten = rest := by
      rw [← List.append_assoc] at hlines
      exact lines_of_suffix hlines
    rw [List.flatten_append, document_append hwhole, document, hrest, ← harea,
      List.filterMap_append, Document.dropArea_append hskip]
    cases hrest' : rest with
    | nil => rfl
    | cons k rest' =>
      have hk : isHeading signed k = true := by
        have := List.head_dropWhile_not (!isHeading signed ·) (l := after) (by simp [hend, hrest'])
        simpa [hend, hrest'] using this
      obtain ⟨s, hs⟩ := isHeading_iff.mp hk
      rw [List.filterMap_cons_some hs]
      rfl

/-! ## Text files -/

/-- A file that can be read and written again: it has no NUL byte, and its last line has its line
termination. -/
structure TextFile (file : List UInt8) : Prop where
  noNul : 0 ∉ file
  closed : file = [] ∨ file.getLast? = some 0x0A

theorem TextFile.terminated (h : TextFile file) (below : UInt8) : Terminated below file :=
  .inr h.closed

theorem getLast?_keyLine (key value : List UInt8) : (keyLine key value).getLast? = some 0x0A := by
  rw [keyLine, List.getLast?_concat]

theorem getLast?_flatten_append {c : UInt8} (ks : List (List UInt8))
    (h : ls.flatten.getLast? = some c) : (ks ++ ls).flatten.getLast? = some c := by
  rw [List.flatten_append, List.getLast?_append, h, Option.some_or]

/-- The last line of a text file, if there are lines left. -/
theorem TextFile.getLast?_suffix (h : TextFile file) (hlines : lines 0x0A 510 file = ks ++ ls)
    (hne : ls ≠ []) : ls.flatten.getLast? = some 0x0A := by
  have hnil : ls.flatten ≠ [] := fun hnil => by
    have := lines_of_suffix hlines
    rw [hnil, lines_nil] at this
    exact hne this.symm
  have hfile : file = ks.flatten ++ ls.flatten := by
    rw [← List.flatten_append, ← hlines, flatten_lines]
  rcases h.closed with h | h
  · rw [hfile] at h
    exact absurd (List.append_eq_nil_iff.mp h).2 hnil
  · rw [hfile, List.getLast?_append, List.getLast?_eq_some_getLast hnil, Option.some_or] at h
    rw [List.getLast?_eq_some_getLast hnil, h]

theorem getLast?_addLines {v : List UInt8} (below : UInt8) (ls ks : List (List UInt8)) :
    (addLines below ls (ks ++ [keyLine key v])).flatten.getLast? = some 0x0A := by
  have hline : [keyLine key v].flatten.getLast? = some 0x0A := by
    rw [List.flatten_singleton]
    exact getLast?_keyLine key v
  have h := getLast?_flatten_append ks hline
  unfold addLines
  split
  · exact h
  · exact getLast?_flatten_append [[0x0A]] h

theorem getLast?_editArea {v : List UInt8} (h : TextFile file)
    (hlines : lines 0x0A 510 file = ks ++ ls) :
    (editArea signed below key [keyLine (key.take 508) v] ls).flatten.getLast? = some 0x0A := by
  have hsplit := List.takeWhile_append_dropWhile (p := (!isStop signed key ·)) (l := ls)
  unfold editArea
  generalize ls.takeWhile (!isStop signed key ·) = before at hsplit ⊢
  cases hd : ls.dropWhile (!isStop signed key ·) with
  | nil => exact getLast?_flatten_append _ (getLast?_addLines below _ [])
  | cons l after =>
    rw [hd] at hsplit
    have hall : lines 0x0A 510 file = ks ++ before ++ l :: after := by
      rw [hlines, ← hsplit, List.append_assoc]
    have hend : (l :: after).flatten.getLast? = some 0x0A := h.getLast?_suffix hall (by simp)
    by_cases hh : isHeading signed l = true
    · simp only [if_pos hh]
      exact getLast?_flatten_append _ hend
    · simp only [if_neg hh]
      by_cases hnil : after = []
      · subst hnil
        rw [List.append_nil]
        refine getLast?_flatten_append _ ?_
        rw [List.flatten_singleton]
        exact getLast?_keyLine _ v
      · have hafter : lines 0x0A 510 file = (ks ++ before ++ [l]) ++ after := by
          rw [hall, List.append_assoc (ks ++ before), List.singleton_append]
        exact getLast?_flatten_append _ (h.getLast?_suffix hafter hnil)

theorem getLast?_editLines {v : List UInt8} (h : TextFile file) :
    (editLines signed below sect key (some v) (lines 0x0A 510 file)).flatten.getLast? =
      some 0x0A := by
  unfold editLines
  split
  · exact getLast?_editArea h (List.nil_append _).symm
  · have hsplit := List.takeWhile_append_dropWhile (p := (!matchSection signed sect ·))
      (l := lines 0x0A 510 file)
    cases hd : (lines 0x0A 510 file).dropWhile (!matchSection signed sect ·) with
    | nil => exact getLast?_flatten_append _ (getLast?_addLines below _ _)
    | cons l after =>
      rw [hd] at hsplit
      simp only
      rw [List.append_cons] at hsplit ⊢
      exact getLast?_flatten_append _ (getLast?_editArea h hsplit.symm)

theorem mem_addLines (hl : l ∈ addLines below ls new) : l ∈ new ∨ l = [0x0A] := by
  unfold addLines at hl
  split at hl
  · exact .inl hl
  · exact (List.mem_cons.mp hl).symm

/-- The lines of the new file are lines of the old one, or were written. -/
theorem mem_editArea (hl : l ∈ editArea signed below key new ls) : l ∈ ls ∨ l ∈ new ∨ l = [0x0A] := by
  have hsplit := List.takeWhile_append_dropWhile (p := (!isStop signed key ·)) (l := ls)
  have hbefore : ∀ k ∈ ls.takeWhile (!isStop signed key ·), k ∈ ls := fun k hk =>
    (List.takeWhile_prefix _).mem hk
  have hafter : ∀ k ∈ ls.dropWhile (!isStop signed key ·), k ∈ ls := fun k hk =>
    (List.dropWhile_suffix _).mem hk
  unfold editArea at hl
  cases hd : ls.dropWhile (!isStop signed key ·) with
  | nil =>
    simp only [hd] at hl
    rcases List.mem_append.mp hl with hl | hl
    · exact .inl (hbefore l hl)
    · exact .inr (mem_addLines hl)
  | cons k after =>
    simp only [hd] at hl hafter
    rcases List.mem_append.mp hl with hl | hl
    · rcases List.mem_append.mp hl with hl | hl
      · exact .inl (hbefore l hl)
      · exact .inr (.inl hl)
    · split at hl
      · exact .inl (hafter l hl)
      · exact .inl (hafter l (List.mem_cons_of_mem k hl))

theorem noNul_keyLine {v : List UInt8} (hk : 0 ∉ key) (hv : 0 ∉ v) : 0 ∉ keyLine key v := by
  intro h
  rcases mem_keyLine h with h | h | h
  · exact hk h
  · exact hv h
  · revert h
    decide

theorem noNul_sectionLines (hs : 0 ∉ sect) : ∀ l ∈ sectionLines sect, 0 ∉ l := by
  intro l hl
  unfold sectionLines at hl
  split at hl
  · cases hl
  · obtain rfl := List.mem_singleton.mp hl
    simp [hs]

theorem noNul_editLines {v : List UInt8} (hf : 0 ∉ file) (hs : 0 ∉ sect) (hk : 0 ∉ key)
    (hv : 0 ∉ v) :
    0 ∉ (editLines signed below sect key (some v) (lines 0x0A 510 file)).flatten := by
  have hnew : ∀ l ∈ newLine key (some v), 0 ∉ l := by
    intro l hl
    obtain rfl : l = keyLine (key.take 508) v := by simpa [newLine] using hl
    exact noNul_keyLine (fun h => hk (List.mem_of_mem_take h)) hv
  have hend : 0 ∉ [(0x0A : UInt8)] := by decide
  have hold : ∀ l ∈ lines 0x0A 510 file, 0 ∉ l := fun l hl h => hf (mem_of_mem_lines hl h)
  have hsect : ∀ l ∈ sectionLines (sect.take 507), 0 ∉ l :=
    noNul_sectionLines fun h => hs (List.mem_of_mem_take h)
  have hbefore : ∀ l ∈ (lines 0x0A 510 file).takeWhile (!matchSection signed sect ·), 0 ∉ l :=
    fun l hl => hold l ((List.takeWhile_prefix _).mem hl)
  have hdrop : ∀ l ∈ (lines 0x0A 510 file).dropWhile (!matchSection signed sect ·), 0 ∉ l :=
    fun l hl => hold l ((List.dropWhile_suffix _).mem hl)
  have harea : ∀ ls : List (List UInt8), (∀ l ∈ ls, 0 ∉ l) →
      ∀ l ∈ editArea signed below key (newLine key (some v)) ls, 0 ∉ l := by
    intro ls hls l hl
    rcases mem_editArea hl with hl | hl | rfl
    · exact hls l hl
    · exact hnew l hl
    · exact hend
  suffices h : ∀ l ∈ editLines signed below sect key (some v) (lines 0x0A 510 file), 0 ∉ l by
    intro hmem
    obtain ⟨l, hl, h0⟩ := List.mem_flatten.mp hmem
    exact h l hl h0
  unfold editLines
  split
  · exact harea _ hold
  · cases hd : (lines 0x0A 510 file).dropWhile (!matchSection signed sect ·) with
    | nil =>
      intro l hl
      rcases List.mem_append.mp hl with hl | hl
      · exact hold l hl
      · rcases mem_addLines hl with hl | rfl
        · rw [if_neg (Option.some_ne_none v)] at hl
          rcases List.mem_append.mp hl with hl | hl
          · exact hsect l hl
          · exact hnew l hl
        · exact hend
    | cons k after =>
      rw [hd] at hdrop
      intro l hl
      rcases List.mem_append.mp hl with hl | hl
      · exact hbefore l hl
      · rcases List.mem_cons.mp hl with rfl | hl
        · exact hdrop l (by simp)
        · exact harea after (fun k hk => hdrop k (by simp [hk])) l hl

/-- A text file stays one. -/
theorem textFile_editLines {v : List UInt8} (h : TextFile file) (hs : 0 ∉ sect) (hk : 0 ∉ key)
    (hv : 0 ∉ v) :
    TextFile (editLines signed below sect key (some v) (lines 0x0A 510 file)).flatten :=
  ⟨noNul_editLines h.noNul hs hk hv, .inr (getLast?_editLines h)⟩

end LwMix.MinIni
