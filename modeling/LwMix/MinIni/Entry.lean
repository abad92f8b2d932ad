import LwMix.MinIni.Quote
import LwMix.Base.Document
import LwMix.Base.Lines

/-!
# The lines of an INI file (`minIni.c`)

* `matchSection`, `isHeading`, `isComment`, `matchKey`: the tests of the loops on a line.
* `writesection`, `writekey`: the code. `writesection_eq`, `writekey_eq`: they stay in `LocalBuffer`.
* `view`: what a line means, a heading, an entry or nothing. `matchSection_iff` and `matchKey_iff`
  are the tests on it.
* `portableStrnicmp_eq_zero`: the `strnicmp` of the library agrees with the one of the platform.
* `view_sectionLine`, `view_keyLine`: the meaning of a line that was written.
* `stored_eq_iff`: the values that are read as they were written.
-/

namespace LwMix.MinIni

/-- `INI_BUFFERSIZE`. -/
def iniBuffersize : ℕ := 512

/-- `tolower`. -/
def toLower (c : UInt8) : UInt8 := if 0x41 ≤ c ∧ c ≤ 0x5A then c + 0x20 else c

/-- `strnicmp`, which is `strncasecmp`. -/
def strnicmp (n : ℕ) (xs ys : List UInt8) : Int := strncmp n (xs.map toLower) (ys.map toLower)

/-- The value of a `char` as an `int`. -/
def charInt (signed : Bool) (c : UInt8) : Int :=
  if signed then (c.toNat : Int).bmod 256 else c.toNat

/-- The loop of `strnicmp` turns small letters into capital ones. -/
def foldCase (c : Int) : Int := if 0x61 ≤ c ∧ c ≤ 0x7A then c + (0x41 - 0x61) else c

/-- `strnicmp` with `PORTABLE_STRNICMP`. -/
def portableStrnicmp (signed : Bool) : ℕ → List UInt8 → List UInt8 → Int
  | 0, _, _ => 0
  | n + 1, s1, s2 =>
    if s1.headD 0 ≠ 0 ∨ s2.headD 0 ≠ 0 then
      let c1 := foldCase (charInt signed (s1.headD 0))
      let c2 := foldCase (charInt signed (s2.headD 0))
      if c1 ≠ c2 then c1 - c2 else portableStrnicmp signed n s1.tail s2.tail
    else 0

/-- `strchr`: the text before the first `c` and the text after it. -/
def strchr (str : List UInt8) (c : UInt8) : Option (List UInt8 × List UInt8) :=
  if c ∈ str then some (str.takeWhile (· ≠ c), (str.dropWhile (· ≠ c)).tail) else none

/-! ## The tests on a line -/

/-- The line is the heading of the section. -/
def matchSection (signed : Bool) (sect buffer : List UInt8) : Bool :=
  let sp := skipleading signed buffer
  match strchr sp 0x5D with
  | none => false
  | some (name, _) => sp.head? = some 0x5B ∧ name.length - 1 = sect.length ∧
      strnicmp sect.length sp.tail sect = 0

/-- `*sp == '['`. -/
def isHeading (signed : Bool) (buffer : List UInt8) : Bool :=
  (skipleading signed buffer).head? = some 0x5B

/-- `*sp == ';' || *sp == '#'`. -/
def isComment (signed : Bool) (buffer : List UInt8) : Bool :=
  let sp := skipleading signed buffer
  sp.head? = some 0x3B ∨ sp.head? = some 0x23

/-- `ep`: the text before the separator and the text after it. -/
def splitEntry (sp : List UInt8) : Option (List UInt8 × List UInt8) :=
  match strchr sp 0x3D with
  | some r => some r
  | none => strchr sp 0x3A

/-- The line has the key before its separator. -/
def matchKey (signed : Bool) (key buffer : List UInt8) : Bool :=
  let sp := skipleading signed buffer
  match splitEntry sp with
  | none => false
  | some (name, _) =>
    (striptrailing signed name).length = key.length ∧ strnicmp key.length sp key = 0

/-! ## Writing a line

The section, the key and the value are strings of the caller of `ini_puts`: none of them ends in the
`INI_BUFFERSIZE` bytes below its `LocalBuffer`, so `save_strncpy` may copy them there. -/

/-- A string in `LocalBuffer`, with its terminator. -/
def inLocalBuffer (str : List UInt8) : Except Fault (List UInt8) :=
  if str.length < iniBuffersize then .ok str else .error .outOfBounds

/-- `writesection`: what is written. -/
def writesection (sect : List UInt8) : Except Fault (List UInt8) :=
  if sect = [] then .ok []
  else inLocalBuffer (0x5B :: savedString sect (iniBuffersize - 4) .none ++ [0x5D] ++ [0x0A])

/-- `writekey`: what is written. `save_strncpy` asserts that there is room for the value. -/
def writekey (key value : List UInt8) : Except Fault (List UInt8) :=
  let option := checkEnquote value
  let p := savedString key (iniBuffersize - 3) .none ++ [0x3D]
  let maxlen := iniBuffersize - p.length - 2
  if maxlen = 0 then .error .assertion
  else inLocalBuffer (p ++ savedString value maxlen option ++ [0x0A])

/-! ## What a line means -/

/-- A text in lower case. -/
def lower (xs : List UInt8) : List UInt8 := xs.map toLower

/-- A line of a file: a heading, an entry, or nothing that is read. -/
def view (signed : Bool) (buffer : List UInt8) :
    Option (Item (List UInt8) (List UInt8) (List UInt8)) :=
  let sp := skipleading signed buffer
  if sp.head? = some 0x5B then
    some (.head ((strchr sp 0x5D).map fun r => lower r.1.tail))
  else if sp.head? = some 0x3B ∨ sp.head? = some 0x23 then none
  else (splitEntry sp).map fun r =>
    .entry (lower (striptrailing signed r.1)) (readValue signed r.2)

variable {signed : Bool} {c : UInt8} {xs ys buffer key sect value : List UInt8} {n : ℕ}

theorem strchr_append (h : c ∉ xs) (ys : List UInt8) : strchr (xs ++ c :: ys) c = some (xs, ys) := by
  have hall : ∀ x ∈ xs, decide (x ≠ c) = true := fun x hx => by
    simpa using fun heq : x = c => h (heq ▸ hx)
  unfold strchr
  rw [if_pos (by simp), List.takeWhile_append_of_pos hall, List.dropWhile_append_of_pos hall]
  simp

theorem strchr_of_not_mem (h : c ∉ xs) : strchr xs c = none := if_neg h

theorem strchr_eq_some (h : strchr xs c = some (buffer, ys)) :
    xs = buffer ++ c :: ys ∧ c ∉ buffer := by
  by_cases hc : c ∈ xs
  · obtain ⟨as, bs, rfl, has⟩ := List.eq_append_cons_of_mem hc
    rw [strchr_append has, Option.some.injEq, Prod.mk.injEq] at h
    obtain ⟨rfl, rfl⟩ := h
    exact ⟨rfl, has⟩
  · rw [strchr_of_not_mem hc] at h
    cases h

/-! ## The tests on what a line means -/

theorem toLower_ne_zero (hc : c ≠ 0) : toLower c ≠ 0 := by
  unfold toLower
  intro h
  split at h <;> rename_i hc'
  · have h₁ := UInt8.le_iff_toNat_le.mp hc'.1
    have h₂ := UInt8.le_iff_toNat_le.mp hc'.2
    have h₃ := congrArg UInt8.toNat h
    simp only [UInt8.toNat_add, UInt8.reduceToNat] at h₁ h₂ h₃
    omega
  · exact hc h

theorem zero_not_mem_lower (h : 0 ∉ xs) : 0 ∉ lower xs := by
  intro hmem
  obtain ⟨c, hc, hlow⟩ := List.mem_map.mp hmem
  exact toLower_ne_zero (fun hzero => h (hzero ▸ hc)) hlow

/-- The comparison of a name with the text that has it in front. -/
theorem strnicmp_iff (h0 : 0 ∉ ys) (zs : List UInt8) :
    xs.length = ys.length ∧ strnicmp ys.length (xs ++ zs) ys = 0 ↔ lower xs = lower ys := by
  have hcmp : strnicmp ys.length (xs ++ zs) ys = 0 ↔
      (lower (xs ++ zs)).take ys.length = (lower ys).take ys.length :=
    strncmp_eq_zero (by simp) (zero_not_mem_lower h0)
  have hys : (lower ys).take ys.length = lower ys := List.take_of_length_le (by simp [lower])
  have hxs : xs.length = ys.length → (lower (xs ++ zs)).take ys.length = lower xs := fun h => by
    rw [← h, lower, List.map_append, List.take_left' (by simp), lower]
  rw [hcmp, hys]
  constructor
  · rintro ⟨hlen, h⟩
    rwa [hxs hlen] at h
  · intro h
    have hlen : xs.length = ys.length := by simpa [lower] using congrArg List.length h
    exact ⟨hlen, by rw [hxs hlen, h]⟩

theorem toLower_toNat (c : UInt8) :
    (toLower c).toNat = if 65 ≤ c.toNat ∧ c.toNat ≤ 90 then c.toNat + 32 else c.toNat := by
  unfold toLower
  simp only [UInt8.le_iff_toNat_le, UInt8.reduceToNat]
  split
  · simp only [UInt8.toNat_add, UInt8.reduceToNat]
    omega
  · rfl

/-- Both ways to fold the case identify the same letters. -/
theorem foldCase_charInt (signed : Bool) (a b : UInt8) :
    foldCase (charInt signed a) = foldCase (charInt signed b) ↔ toLower a = toLower b := by
  have ha := a.toNat_lt
  have hb := b.toNat_lt
  rw [← UInt8.toNat_inj, toLower_toNat, toLower_toNat]
  have hchar : ∀ c : UInt8, charInt signed c =
      if signed ∧ 128 ≤ c.toNat then (c.toNat : Int) - 256 else c.toNat := fun c => by
    have := c.toNat_lt
    unfold charInt
    cases signed
    · simp
    · simp [Int.bmod_def]
      omega
  rw [hchar, hchar]
  unfold foldCase
  cases signed <;> simp only [Bool.false_eq_true, false_and, true_and, ↓reduceIte] <;>
    split_ifs <;> omega

theorem toLower_eq_zero {c : UInt8} : toLower c = 0 ↔ c = 0 :=
  ⟨fun h => Classical.byContradiction fun hc => toLower_ne_zero hc h, fun h => by rw [h]; rfl⟩

/-- **The two `strnicmp`** find the same names equal. -/
theorem portableStrnicmp_eq_zero (signed : Bool) (n : ℕ) (xs ys : List UInt8) :
    portableStrnicmp signed n xs ys = 0 ↔ strnicmp n xs ys = 0 := by
  have hhead : ∀ xs : List UInt8, (xs.map toLower).headD 0 = toLower (xs.headD 0) := fun xs => by
    cases xs <;> rfl
  unfold strnicmp
  induction n generalizing xs ys with
  | zero => simp [portableStrnicmp, strncmp]
  | succ n ih =>
    simp only [portableStrnicmp, strncmp, hhead, ← List.map_tail]
    by_cases hfold : toLower (xs.headD 0) = toLower (ys.headD 0)
    · rw [← hfold]
      by_cases hend : xs.headD 0 = 0
      · have hend' : ys.headD 0 = 0 :=
          toLower_eq_zero.mp (hfold ▸ toLower_eq_zero.mpr hend)
        have hzero : toLower (xs.headD 0) = 0 := toLower_eq_zero.mpr hend
        rw [if_neg (by simp only [hend, hend', ne_eq, not_true_eq_false, or_self, not_false_eq_true]),
          if_neg (not_not.mpr rfl), if_pos hzero]
      · have hnot := mt toLower_eq_zero.mp hend
        simp only [hend, hnot, (foldCase_charInt signed _ _).mpr hfold, ne_eq, not_true_eq_false,
          not_false_eq_true, true_or, ↓reduceIte, ih]
    · have hne := mt (foldCase_charInt signed _ _).mp hfold
      have hend : xs.headD 0 ≠ 0 ∨ ys.headD 0 ≠ 0 := by
        by_cases h : xs.headD 0 = 0
        · exact .inr fun h' => hfold (by rw [h, h'])
        · exact .inl h
      have hnat : (toLower (xs.headD 0)).toNat ≠ (toLower (ys.headD 0)).toNat :=
        fun h => hfold (UInt8.toNat_inj.mp h)
      rw [if_pos hend, if_pos hne, if_pos hfold]
      omega

/-- A heading is found exactly if the line means it. -/
theorem matchSection_iff (h0 : 0 ∉ sect) : matchSection signed sect buffer = true ↔
    view signed buffer = some (.head (some (lower sect))) := by
  unfold matchSection view
  generalize skipleading signed buffer = sp
  by_cases hhead : sp.head? = some 0x5B
  · obtain ⟨sp, rfl⟩ : ∃ ks, sp = 0x5B :: ks := by
      cases sp with
      | nil => cases hhead
      | cons x sp => exact ⟨sp, by rw [Option.some.inj hhead]⟩
    by_cases hend : 0x5D ∈ sp
    · obtain ⟨name, rest, rfl, hname⟩ := List.eq_append_cons_of_mem hend
      have hcut : strchr (0x5B :: (name ++ 0x5D :: rest)) 0x5D = some (0x5B :: name, rest) :=
        strchr_append (show 0x5D ∉ 0x5B :: name by simp [hname]) rest
      simpa [hcut] using strnicmp_iff h0 (0x5D :: rest)
    · have hcut : strchr (0x5B :: sp) 0x5D = none := strchr_of_not_mem (by simp [hend])
      simp [hcut]
  · simp only [hhead, ↓reduceIte]
    split
    · split <;> simp
    · split <;> simp

/-- A heading ends an area, whether it names a section or not. -/
theorem isHeading_iff : isHeading signed buffer = true ↔ ∃ s, view signed buffer = some (.head s) := by
  unfold isHeading view
  generalize skipleading signed buffer = sp
  by_cases hhead : sp.head? = some 0x5B
  · simp [hhead]
  · simp only [hhead, decide_false, Bool.false_eq_true, ↓reduceIte, false_iff]
    rintro ⟨s, h⟩
    split at h
    · cases h
    · cases hsplit : splitEntry sp <;> simp [hsplit] at h

theorem splitEntry_fst {r : List UInt8 × List UInt8} (h : splitEntry xs = some r) :
    r.1 <+: xs := by
  unfold splitEntry at h
  split at h
  · rename_i r' hr
    obtain rfl := Option.some.inj h
    rw [(strchr_eq_some hr).1]
    exact List.prefix_append _ _
  · rw [(strchr_eq_some h).1]
    exact List.prefix_append _ _

theorem splitEntry_snd {r : List UInt8 × List UInt8} (h : splitEntry xs = some r) (hc : c ∈ r.2) :
    c ∈ xs := by
  unfold splitEntry at h
  split at h
  · rename_i r' hr
    obtain rfl := Option.some.inj h
    rw [(strchr_eq_some hr).1]
    simp [hc]
  · rw [(strchr_eq_some h).1]
    simp [hc]

/-- A key is found before a separator exactly if the key of the entry is the same but for the case
of its letters. -/
theorem matchKey_iff (h0 : 0 ∉ key) : matchKey signed key buffer = true ↔
    ∃ r, splitEntry (skipleading signed buffer) = some r ∧
      lower (striptrailing signed r.1) = lower key := by
  unfold matchKey
  generalize skipleading signed buffer = sp
  cases hsplit : splitEntry sp with
  | none => simp [hsplit]
  | some r =>
    obtain ⟨name, rest⟩ := r
    obtain ⟨ys, hys⟩ : striptrailing signed name <+: sp :=
      (List.rdropWhile_prefix _ _).trans (splitEntry_fst hsplit)
    have h : (striptrailing signed name).length = key.length ∧
        strnicmp key.length (striptrailing signed name ++ ys) key = 0 ↔
          lower (striptrailing signed name) = lower key := strnicmp_iff h0 ys
    rw [hys] at h
    simpa [hsplit] using h

/-- A line that is no heading and no comment is an entry, if it has a separator. -/
theorem view_of_entry (hh : isHeading signed buffer = false) (hc : isComment signed buffer = false) :
    view signed buffer = (splitEntry (skipleading signed buffer)).map fun r =>
      .entry (lower (striptrailing signed r.1)) (readValue signed r.2) := by
  unfold isHeading at hh
  unfold isComment at hc
  unfold view
  simp only [decide_eq_false_iff_not] at hh hc
  rw [if_neg hh, if_neg hc]

/-- A comment means nothing. -/
theorem view_comment (h : isComment signed buffer = true) : view signed buffer = none := by
  unfold isComment at h
  unfold view
  simp only [decide_eq_true_eq] at h
  have hh : (skipleading signed buffer).head? ≠ some 0x5B := by
    rcases h with h | h <;> rw [h] <;> decide
  rw [if_neg hh, if_pos h]

/-- A newline at the end of a line does not change what it means. -/
theorem view_newline (buffer : List UInt8) :
    view signed (buffer ++ [0x0A]) = view signed buffer := by
  have hsplit : ∀ sp c, c ≠ 0x0A → strchr (sp ++ [0x0A]) c =
      (strchr sp c).map fun r => (r.1, r.2 ++ [0x0A]) := fun sp c hne => by
    by_cases hc : c ∈ sp
    · obtain ⟨as, bs, rfl, has⟩ := List.eq_append_cons_of_mem hc
      rw [List.append_assoc, List.cons_append, strchr_append has, strchr_append has]
      rfl
    · rw [strchr_of_not_mem hc, strchr_of_not_mem (by simp [hc, hne])]
      rfl
  rcases skipleading_newline signed buffer with h | h
  · simp only [view, h]
  · unfold view
    rw [h]
    generalize skipleading signed buffer = sp
    have hhead : ∀ c, c ≠ 0x0A → ((sp ++ [0x0A]).head? = some c ↔ sp.head? = some c) :=
      fun c hne => by
        cases sp with
        | nil => simp [Ne.symm hne]
        | cons x sp => simp
    have hentry : splitEntry (sp ++ [0x0A]) =
        (splitEntry sp).map fun r => (r.1, r.2 ++ [0x0A]) := by
      unfold splitEntry
      rw [hsplit sp 0x3D (by decide), hsplit sp 0x3A (by decide)]
      cases strchr sp 0x3D <;> rfl
    simp only [hhead 0x5B (by decide), hhead 0x3B (by decide), hhead 0x23 (by decide), hentry,
      hsplit sp 0x5D (by decide), Option.map_map]
    simp only [Function.comp_def, readValue_newline]

/-! ## Lines that are written -/

/-- A key that can be found again. -/
structure KeyOk (signed : Bool) (key : List UInt8) : Prop where
  noNul : 0 ∉ key
  noNewline : 0x0A ∉ key
  noSeparator : 0x3D ∉ key
  start : ∀ c ∈ key.head?, isBlank signed c = false ∧ c ≠ 0x5B ∧ c ≠ 0x3B ∧ c ≠ 0x23
  stop : ∀ c ∈ key.getLast?, isBlank signed c = false
  fits : key.length ≤ 508

/-- A section name that can be found again. -/
structure SectionOk (sect : List UInt8) : Prop where
  noNul : 0 ∉ sect
  noNewline : 0x0A ∉ sect
  noBracket : 0x5D ∉ sect
  fits : sect.length ≤ 507

/-- The text of a value in the line of a key. -/
def valueText (key value : List UInt8) : List UInt8 :=
  savedString value (509 - key.length) (checkEnquote value)

/-- The line of a key. -/
def keyLine (key value : List UInt8) : List UInt8 :=
  key ++ 0x3D :: valueText key value ++ [0x0A]

/-- The lines that start a section, of which there is one, or none without a name. -/
def sectionLines (sect : List UInt8) : List (List UInt8) :=
  if sect = [] then [] else [0x5B :: sect ++ [0x5D] ++ [0x0A]]

/-- The value that is read from the line of a key. -/
def stored (signed : Bool) (key value : List UInt8) : List UInt8 :=
  readValue signed (valueText key value)

theorem valueText_length_le (hk : key.length ≤ 508) (value : List UInt8) :
    (valueText key value).length + key.length ≤ 508 := by
  have := savedString_length_lt value (show 0 < 509 - key.length by omega) (checkEnquote value)
  unfold valueText
  omega

/-- The line of a key stays in `LocalBuffer`, whatever the key and the value. -/
theorem writekey_eq (key value : List UInt8) :
    writekey key value = .ok (keyLine (key.take 508) value) := by
  have hk : (key.take 508).length ≤ 508 := List.length_take_le 508 key
  have hlen := valueText_length_le hk value
  have hmax : iniBuffersize - (key.take 508 ++ [0x3D]).length - 2 = 509 - (key.take 508).length := by
    simp only [iniBuffersize, List.length_append, List.length_singleton]
    omega
  have hline : key.take 508 ++ [0x3D] ++ valueText (key.take 508) value ++ [0x0A] =
      keyLine (key.take 508) value := by
    simp [keyLine]
  unfold writekey
  simp only [savedString_none, show iniBuffersize - 3 - 1 = 508 from rfl, hmax]
  rw [if_neg (by omega), ← valueText, hline, inLocalBuffer, if_pos]
  simp only [keyLine, iniBuffersize, List.length_append, List.length_cons, List.length_nil]
  omega

/-- The line of a section stays in `LocalBuffer`, whatever its name. -/
theorem writesection_eq (sect : List UInt8) :
    writesection sect = .ok (sectionLines (sect.take 507)).flatten := by
  have hnil : sect.take 507 = [] ↔ sect = [] := by simp
  unfold writesection sectionLines
  by_cases h : sect = []
  · rw [if_pos h, if_pos (hnil.mpr h)]
    rfl
  · have hlen : (sect.take 507).length ≤ 507 := List.length_take_le 507 sect
    rw [if_neg h, if_neg (mt hnil.mp h), savedString_none, show iniBuffersize - 4 - 1 = 507 from rfl,
      inLocalBuffer, if_pos]
    · simp
    · simp only [iniBuffersize, List.length_append, List.length_cons, List.length_nil]
      omega

theorem skipleading_eq_self_iff :
    skipleading signed xs = xs ↔ ∀ c ∈ xs.head?, isBlank signed c = false := by
  unfold skipleading
  cases xs with
  | nil => simp
  | cons x xs =>
    by_cases hx : isBlank signed x = true
    · have hlen := (List.dropWhile_suffix (l := xs) (isBlank signed)).length_le
      simp only [List.dropWhile_cons_of_pos hx, List.head?_cons, Option.mem_some_iff, forall_eq', hx,
        Bool.true_eq_false, iff_false]
      intro h
      rw [h, List.length_cons] at hlen
      omega
    · simp [List.dropWhile_cons_of_neg hx, hx]

theorem striptrailing_eq_self_iff :
    striptrailing signed xs = xs ↔ ∀ c ∈ xs.getLast?, isBlank signed c = false := by
  unfold striptrailing
  rw [List.rdropWhile_eq_self_iff]
  constructor
  · intro h c hc
    obtain ⟨hne, rfl⟩ := List.mem_getLast?_eq_getLast hc
    simpa using h hne
  · intro h hne
    rw [h _ (List.getLast?_eq_some_getLast hne)]
    exact Bool.false_ne_true

/-- The line of a key is its entry. -/
theorem view_keyLine (hk : KeyOk signed key) (value : List UInt8) :
    view signed (keyLine key value) = some (.entry (lower key) (stored signed key value)) := by
  have hstart : ∀ c ∈ (key ++ 0x3D :: valueText key value).head?,
      isBlank signed c = false ∧ c ≠ 0x5B ∧ c ≠ 0x3B ∧ c ≠ 0x23 := by
    intro c hc
    cases hkey : key with
    | nil =>
      obtain rfl : 0x3D = c := by simpa [hkey] using hc
      cases signed <;> decide
    | cons x xs =>
      obtain rfl : x = c := by simpa [hkey] using hc
      exact hk.start x (by rw [hkey]; rfl)
  have hhead : ∀ c, c = 0x5B ∨ c = 0x3B ∨ c = 0x23 →
      (key ++ 0x3D :: valueText key value).head? ≠ some c := by
    rintro c hc h
    obtain ⟨-, h₁, h₂, h₃⟩ := hstart c h
    rcases hc with rfl | rfl | rfl
    · exact h₁ rfl
    · exact h₂ rfl
    · exact h₃ rfl
  have hsplit : splitEntry (key ++ 0x3D :: valueText key value) =
      some (key, valueText key value) := by
    unfold splitEntry
    rw [strchr_append hk.noSeparator]
  unfold keyLine
  rw [view_newline]
  unfold view
  rw [skipleading_eq_self_iff.mpr fun c hc => (hstart c hc).1]
  simp only [hhead 0x5B (by simp), hhead 0x3B (by simp), hhead 0x23 (by simp), or_self, ↓reduceIte,
    hsplit, Option.map_some, striptrailing_eq_self_iff.mpr hk.stop, stored]

/-- The line of a section is its heading. -/
theorem view_sectionLine (hs : 0x5D ∉ sect) :
    view signed (0x5B :: sect ++ [0x5D] ++ [0x0A]) = some (.head (some (lower sect))) := by
  have hskip : skipleading signed (0x5B :: sect ++ [0x5D]) = 0x5B :: sect ++ [0x5D] := by
    refine skipleading_eq_self_iff.mpr fun c hc => ?_
    obtain rfl : 0x5B = c := by simpa using hc
    cases signed <;> decide
  have hcut : strchr (0x5B :: sect ++ [0x5D]) 0x5D = some (0x5B :: sect, []) :=
    strchr_append (show 0x5D ∉ 0x5B :: sect by simp [hs]) []
  rw [view_newline]
  unfold view
  simp only [hskip, hcut]
  simp

/-! ## Values that are read as they were written -/

/-- A value as it is written, if it fits. -/
def encode (value : List UInt8) : List UInt8 :=
  if checkEnquote value = .enquote then 0x22 :: escape value ++ [0x22] else value

/-- The value and the key fit a line. -/
def Fits (key value : List UInt8) : Prop := key.length + (encode value).length ≤ 508

theorem checkEnquote_plain (h : checkEnquote value ≠ .enquote) :
    checkEnquote value = .none ∧ 0x22 ∉ value ∧ 0x3B ∉ value ∧ 0x23 ∉ value := by
  unfold checkEnquote at h ⊢
  split at h
  · exact absurd rfl h
  · rename_i hn
    simp only [not_or] at hn
    exact ⟨if_neg (by simp [hn]), hn.1⟩

theorem valueText_of_fits (h : Fits key value) : valueText key value = encode value := by
  unfold Fits encode at h
  unfold valueText encode
  by_cases hq : checkEnquote value = .enquote
  · rw [if_pos hq] at h ⊢
    simp only [List.length_cons, List.length_append, List.length_nil] at h
    rw [hq, savedString_enquote value (by omega), enquoteLoop_of_fits (by omega)]
  · rw [if_neg hq] at h ⊢
    rw [(checkEnquote_plain hq).1, savedString_none, List.take_of_length_le (by omega)]

/-- Quotes keep a value; without them the blanks around it are lost. -/
theorem stored_of_fits (h : Fits key value) : stored signed key value =
    if checkEnquote value = .enquote then value else strip signed value := by
  unfold stored
  rw [valueText_of_fits h]
  unfold encode
  by_cases hq : checkEnquote value = .enquote
  · rw [if_pos hq, if_pos hq, readValue_quoted]
  · obtain ⟨-, h₁, h₂, h₃⟩ := checkEnquote_plain hq
    rw [if_neg hq, if_neg hq, readValue_plain h₁ h₂ h₃]

/-- A value that is quoted, or has no blanks around it. -/
def Restorable (signed : Bool) (value : List UInt8) : Prop :=
  checkEnquote value = .enquote ∨ (∀ c ∈ value.head?, isBlank signed c = false) ∧
    ∀ c ∈ value.getLast?, isBlank signed c = false

theorem strip_eq_self_iff : strip signed value = value ↔
    (∀ c ∈ value.head?, isBlank signed c = false) ∧
      ∀ c ∈ value.getLast?, isBlank signed c = false := by
  rw [← skipleading_eq_self_iff, ← striptrailing_eq_self_iff]
  unfold strip
  constructor
  · intro h
    have hsuffix : skipleading signed value <:+ value := List.dropWhile_suffix _
    have hprefix : striptrailing signed (skipleading signed value) <+: skipleading signed value :=
      List.rdropWhile_prefix _ _
    have hskip : skipleading signed value = value := by
      have := hprefix.length_le
      rw [h] at this
      exact hsuffix.eq_of_length_le this
    exact ⟨hskip, by rwa [hskip] at h⟩
  · rintro ⟨hskip, hlast⟩
    rw [hskip, hlast]

/-- **Round trip of a value.** A value that fits is read as it was written exactly if it is quoted
or has no blanks around it. -/
theorem stored_eq_iff (h : Fits key value) :
    stored signed key value = value ↔ Restorable signed value := by
  rw [stored_of_fits h]
  unfold Restorable
  by_cases hq : checkEnquote value = .enquote
  · simp [hq]
  · rw [if_neg hq, strip_eq_self_iff]
    simp [hq]

/-! ## A written line is one line of the file -/

theorem mem_valueText (h : c ∈ valueText key value) : c ∈ value ∨ c = 0x22 ∨ c = 0x5C := by
  unfold valueText at h
  by_cases hq : checkEnquote value = .enquote
  · rw [hq] at h
    by_cases hmax : 509 - key.length < 3
    · rw [savedString_enquote_small value hmax] at h
      exact .inl (List.mem_of_mem_take h)
    · obtain ⟨n, hn⟩ := enquoteLoop_eq_escape (509 - key.length) 1 value
      rw [savedString_enquote value (by omega), hn] at h
      simp only [List.mem_cons, List.mem_append, List.not_mem_nil, or_false, List.cons_append] at h
      rcases h with h | h | h
      · exact .inr (.inl h)
      · obtain ⟨x, hx, hc⟩ := List.mem_flatMap.mp h
        unfold escapeByte at hc
        split at hc
        · rcases List.mem_pair.mp hc with rfl | rfl
          · exact .inr (.inr rfl)
          · exact .inr (.inl rfl)
        · obtain rfl := List.mem_singleton.mp hc
          exact .inl (List.mem_of_mem_take hx)
      · exact .inr (.inl h)
  · rw [(checkEnquote_plain hq).1, savedString_none] at h
    exact .inl (List.mem_of_mem_take h)

theorem mem_keyLine (h : c ∈ keyLine key value) :
    c ∈ key ∨ c ∈ value ∨ c = 0x3D ∨ c = 0x22 ∨ c = 0x5C ∨ c = 0x0A := by
  unfold keyLine at h
  simp only [List.mem_append, List.mem_cons, List.not_mem_nil, or_false] at h
  rcases h with (h | h | h) | h
  · exact .inl h
  · exact .inr (.inr (.inl h))
  · rcases mem_valueText h with h | h | h <;> simp [h]
  · simp [h]

theorem whole_keyLine (hk : key.length ≤ 508) (hn : 0x0A ∉ key) (hv : 0x0A ∉ value) :
    Whole 0x0A 510 (keyLine key value) := by
  have hlen := valueText_length_le hk value
  refine whole_of_newline ?_ ?_
  · intro h
    simp only [List.mem_append, List.mem_cons] at h
    rcases h with h | h | h
    · exact hn h
    · exact absurd h (by decide)
    · rcases mem_valueText h with h | h | h
      · exact hv h
      · exact absurd h (by decide)
      · exact absurd h (by decide)
  · rw [List.length_append, List.length_cons]
    omega

theorem whole_sectionLines (hs : sect.length ≤ 507) (hn : 0x0A ∉ sect) :
    ∀ l ∈ sectionLines sect, Whole 0x0A 510 l := by
  intro l hl
  unfold sectionLines at hl
  split at hl
  · cases hl
  · obtain rfl := List.mem_singleton.mp hl
    refine whole_of_newline (by simp [hn]) ?_
    simp only [List.length_append, List.length_cons, List.length_nil]
    omega

end LwMix.MinIni
