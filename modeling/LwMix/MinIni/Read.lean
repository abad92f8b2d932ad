import LwMix.MinIni.Entry
import LwMix.Base.Strtol

/-!
# Reading an INI file (`minIni.c`)

A file that is open for reading is the list of the bytes that were not read. Files without NUL bytes
are text files; a NUL byte ends the string in `LocalBuffer`, but not the line in the file.

* `iniRead`, `getkeystring`, `iniGets`, `iniGetl`, `iniGetbool`: the code.
* `document`: what the lines of a file mean.
* `getkeystring_eq`, `iniGets_eq`: the value is the one of the document, cut to the buffer.
* `sourceOf`: where the text starts that is copied. `iniGets_abort`: a buffer that begins too close
  behind it.
-/

namespace LwMix.MinIni

/-- The string that starts a buffer. -/
def cstr (buffer : List UInt8) : List UInt8 := buffer.takeWhile (· ≠ 0)

/-- `ini_read`, which is `fgets`: the string in the buffer, and what is left. -/
def iniRead (size : ℕ) (rest : List UInt8) : Option (List UInt8 × List UInt8) :=
  if rest = [] then none
  else
    let buffer := line 0x0A (size - 1) rest
    some (cstr buffer, rest.drop buffer.length)

/-- The loop of `getkeystring` that looks for the section. -/
def findSection (signed : Bool) (sect : List UInt8) :
    ℕ → List UInt8 → Except Fault (Option (List UInt8))
  | 0, _ => .error .fuel
  | fuel + 1, rest =>
    match iniRead iniBuffersize rest with
    | none => .ok none
    | some (localBuffer, rest) =>
      if matchSection signed sect localBuffer then .ok (some rest)
      else findSection signed sect fuel rest

/-- An entry that was found: its line, and the text after its separator. -/
structure Found where
  localBuffer : List UInt8
  ep : List UInt8
  deriving DecidableEq, Repr

/-- The loop of `getkeystring` that looks for the key. -/
def findKey (signed : Bool) (key : List UInt8) : ℕ → List UInt8 → Except Fault (Option Found)
  | 0, _ => .error .fuel
  | fuel + 1, rest =>
    match iniRead iniBuffersize rest with
    | none => .ok none
    | some (localBuffer, rest) =>
      if isHeading signed localBuffer then .ok none
      else if isComment signed localBuffer then findKey signed key fuel rest
      else
        match splitEntry (skipleading signed localBuffer) with
        | none => findKey signed key fuel rest
        | some (_, ep) =>
          if matchKey signed key localBuffer then .ok (some ⟨localBuffer, ep⟩)
          else findKey signed key fuel rest

/-- Both loops of `getkeystring`, with `idxSection` and `idxKey` `-1`. A section that is `NULL` is
empty. -/
def findEntry (signed : Bool) (file sect key : List UInt8) : Except Fault (Option Found) := do
  let start ← if sect = [] then pure (some file) else findSection signed sect (file.length + 1) file
  match start with
  | none => pure none
  | some rest => findKey signed key (rest.length + 1) rest

/-- Where the value starts in `LocalBuffer`: `cleanstring` skips an opening quote. -/
def valueOffset (signed : Bool) (found : Found) : ℕ :=
  let sp := skipleading signed found.ep
  let start := found.localBuffer.length - sp.length
  if (cleanstring signed sp).2 = .dequote then start + 1 else start

/-- `getkeystring`. Addresses are counted from its `LocalBuffer`, and `buffer` is the one of
`Buffer`. -/
def getkeystring (signed : Bool) (file sect key : List UInt8) (buffer : Int) (bufferSize : ℕ) :
    Except Fault (Option (List UInt8)) := do
  match ← findEntry signed file sect key with
  | none => pure none
  | some found =>
    let (sp, quotes) := cleanstring signed (skipleading signed found.ep)
    let value ← saveStrncpy buffer (valueOffset signed found) sp bufferSize quotes
    pure (some value)

/-- The addresses of `Buffer` and `DefValue`, counted from the `LocalBuffer` of `getkeystring`. -/
structure Place where
  buffer : Int
  defValue : Int
  deriving DecidableEq, Repr

/-- `ini_gets`: the characters that are copied into `Buffer`. A file that cannot be opened is
`none`. -/
def iniGets (signed : Bool) (place : Place) (file : Option (List UInt8))
    (sect key defValue : List UInt8) (bufferSize : Int) : Except Fault (List UInt8) := do
  if bufferSize ≤ 0 then pure []
  else
    let found ←
      match file with
      | none => pure none
      | some file => getkeystring signed file sect key place.buffer bufferSize.toNat
    match found with
    | none => saveStrncpy place.buffer place.defValue defValue bufferSize.toNat .none
    | some buffer => pure buffer

/-- `ini_getl`, with the addresses in its call of `ini_gets`. -/
def iniGetl (signed lp64 : Bool) (place : Place) (file : Option (List UInt8))
    (sect key : List UInt8) (defValue : Int) : Except Fault Int := do
  let localBuffer ← iniGets signed place file sect key [] 64
  if localBuffer.length = 0 then pure defValue
  else if localBuffer.length ≥ 2 ∧ localBuffer[1]?.map toUpper = some 0x58 then
    pure (strtol lp64 16 localBuffer)
  else pure (strtol lp64 10 localBuffer)

/-- `ini_getbool`, with the addresses in its call of `ini_gets`. -/
def iniGetbool (signed : Bool) (place : Place) (file : Option (List UInt8))
    (sect key : List UInt8) (defValue : Bool) : Except Fault Bool := do
  let localBuffer ← iniGets signed place file sect key [] 2
  let c := toUpper (localBuffer.headD 0)
  if c = 0x59 ∨ c = 0x31 ∨ c = 0x54 then pure true
  else if c = 0x4E ∨ c = 0x30 ∨ c = 0x46 then pure false
  else pure defValue

/-! ## The document of a file -/

/-- The headings and entries of a file. -/
def document (signed : Bool) (file : List UInt8) :
    Document (List UInt8) (List UInt8) (List UInt8) :=
  (lines 0x0A 510 file).filterMap (view signed)

/-- The name of a section in a document. -/
def sectionName (sect : List UInt8) : Option (List UInt8) :=
  if sect = [] then none else some (lower sect)

/-- Where the value of the key starts in `LocalBuffer`, if the file has one. -/
def offsetOf (signed : Bool) (file sect key : List UInt8) : Option ℕ :=
  match findEntry signed file sect key with
  | .ok found => found.map (valueOffset signed)
  | .error _ => none

/-- The address of the text that `ini_gets` copies. -/
def sourceOf (signed : Bool) (place : Place) (file : Option (List UInt8)) (sect key : List UInt8) :
    Int :=
  match file.bind fun file => offsetOf signed file sect key with
  | none => place.defValue
  | some k => k

/-- A buffer that `save_strncpy` can fill from anywhere in `LocalBuffer`. -/
def ApartLocal (buffer bufferSize : Int) : Prop := buffer ≤ 0 ∨ 511 + bufferSize ≤ buffer

/-- A buffer that can be filled from `LocalBuffer` and from `DefValue`. -/
def Place.Apart (place : Place) (bufferSize : Int) : Prop :=
  ApartLocal place.buffer bufferSize ∧
    (place.buffer ≤ place.defValue ∨ place.defValue + bufferSize ≤ place.buffer)

instance (buffer bufferSize : Int) : Decidable (ApartLocal buffer bufferSize) :=
  inferInstanceAs (Decidable (_ ∨ _))

instance (place : Place) (bufferSize : Int) : Decidable (place.Apart bufferSize) :=
  inferInstanceAs (Decidable (_ ∧ _))

variable {signed lp64 : Bool} {rest rest' file sect key buffer defValue : List UInt8}
  {fuel : ℕ} {bufferSize : Int} {place : Place} {found : Found}

theorem cstr_eq_self (h : 0 ∉ buffer) : cstr buffer = buffer := by
  unfold cstr
  rw [List.takeWhile_eq_self_iff]
  intro c hc
  simpa using fun hzero : c = 0 => h (hzero ▸ hc)

theorem iniRead_nil (size : ℕ) : iniRead size [] = none := rfl

/-- A read takes a line. -/
theorem iniRead_of_ne_nil (h0 : 0 ∉ rest) (hne : rest ≠ []) : ∃ buffer rest',
    iniRead iniBuffersize rest = some (buffer, rest') ∧ rest = buffer ++ rest' ∧
      lines 0x0A 510 rest = buffer :: lines 0x0A 510 rest' ∧ buffer ≠ [] ∧ 0 ∉ buffer ∧
        0 ∉ rest' := by
  have happ := line_append_drop 0x0A 511 rest
  have hmem : ∀ c, c ∈ line 0x0A 511 rest ++ rest.drop (line 0x0A 511 rest).length → c ∈ rest :=
    fun c hc => by rwa [happ] at hc
  have h₁ : 0 ∉ line 0x0A 511 rest := fun h => h0 (hmem 0 (List.mem_append_left _ h))
  have h₂ : 0 ∉ rest.drop (line 0x0A 511 rest).length :=
    fun h => h0 (hmem 0 (List.mem_append_right _ h))
  refine ⟨_, _, ?_, happ.symm, lines_of_ne_nil hne, line_ne_nil hne, h₁, h₂⟩
  unfold iniRead
  rw [if_neg hne]
  simp only [iniBuffersize, Nat.add_one_sub_one, cstr_eq_self h₁]

theorem document_nil : document signed [] = [] := by
  unfold document
  rw [lines_nil, List.filterMap_nil]

theorem document_of_lines (h : lines 0x0A 510 rest = buffer :: lines 0x0A 510 rest') :
    document signed rest = (view signed buffer).toList ++ document signed rest' := by
  unfold document
  rw [h]
  cases hv : view signed buffer <;> simp [hv]

/-- The lines that the loop passes, and the heading that it stops at. -/
theorem findSection_lines (signed : Bool) (sect : List UInt8) (hr : 0 ∉ rest)
    (hf : rest.length < fuel) :
    ∃ r ls, findSection signed sect fuel rest = .ok r ∧
      (∀ l ∈ ls, matchSection signed sect l = false) ∧
      (r = none ∧ lines 0x0A 510 rest = ls ∨
        ∃ l rest', r = some rest' ∧ matchSection signed sect l = true ∧ 0 ∉ rest' ∧
          lines 0x0A 510 rest = ls ++ l :: lines 0x0A 510 rest') := by
  induction fuel generalizing rest with
  | zero => omega
  | succ fuel ih =>
    by_cases hne : rest = []
    · subst hne
      exact ⟨none, [], rfl, by simp, .inl ⟨rfl, lines_nil⟩⟩
    · obtain ⟨buffer, rest', hread, happ, hlines, hb, -, hr'⟩ := iniRead_of_ne_nil hr hne
      have hlen : rest'.length < fuel := by
        have := List.length_pos_iff.mpr hb
        rw [happ, List.length_append] at hf
        omega
      simp only [findSection, hread]
      by_cases hm : matchSection signed sect buffer = true
      · exact ⟨some rest', [], if_pos hm, by simp, .inr ⟨buffer, rest', rfl, hm, hr', hlines⟩⟩
      · obtain ⟨r, ls, hok, hpass, hcases⟩ := ih hr' hlen
        refine ⟨r, buffer :: ls, by rw [if_neg hm, hok], ?_, ?_⟩
        · exact List.forall_mem_cons.mpr ⟨by simpa using hm, hpass⟩
        · rw [hlines]
          rcases hcases with ⟨rfl, hrest⟩ | ⟨l, rest₁, rfl, hl, hr₁, hrest⟩
          · exact .inl ⟨rfl, by rw [hrest]⟩
          · exact .inr ⟨l, rest₁, rfl, hl, hr₁, by rw [hrest, List.cons_append]⟩

/-- **The section.** Whatever the lines mean, if the loop stops at the headings `s`, it finds the area
of the first of them. -/
theorem findSection_area {κ ν : Type} [DecidableEq κ] {s : List UInt8}
    {f : List UInt8 → Option (Item (List UInt8) κ ν)}
    (hs : ∀ l, matchSection signed sect l = true ↔ f l = some (.head (some s))) (hr : 0 ∉ rest)
    (hf : rest.length < fuel) :
    ∃ r, findSection signed sect fuel rest = .ok r ∧
      (r.map fun rest => (lines 0x0A 510 rest).filterMap f) =
        Document.area s ((lines 0x0A 510 rest).filterMap f) ∧
      ∀ rest' ∈ r, 0 ∉ rest' := by
  obtain ⟨r, ls, hok, hpass, hcases⟩ := findSection_lines signed sect hr hf
  have hne : ∀ i ∈ ls.filterMap f, i ≠ .head (some s) := by
    rintro i hi rfl
    obtain ⟨l, hl, hfl⟩ := List.mem_filterMap.mp hi
    exact Bool.false_ne_true ((hpass l hl).symm.trans ((hs l).mpr hfl))
  refine ⟨r, hok, ?_⟩
  rcases hcases with ⟨rfl, hrest⟩ | ⟨l, rest', rfl, hl, hr', hrest⟩
  · refine ⟨?_, by simp⟩
    rw [hrest, ← List.append_nil (ls.filterMap f), Document.area_append hne]
    rfl
  · refine ⟨?_, by simpa using hr'⟩
    rw [hrest, List.filterMap_append, Document.area_append hne,
      List.filterMap_cons_some ((hs l).mp hl), Document.area, if_pos rfl]
    rfl

/-- The area of the document. -/
theorem findSection_eq (signed : Bool) (h0 : 0 ∉ sect) (hr : 0 ∉ rest) (hf : rest.length < fuel) :
    ∃ r, findSection signed sect fuel rest = .ok r ∧
      r.map (document signed) = Document.area (lower sect) (document signed rest) ∧
        ∀ rest' ∈ r, 0 ∉ rest' :=
  findSection_area (fun _ => matchSection_iff h0) hr hf

/-- **The key.** The loop finds the first entry of this key before the next heading. -/
theorem findKey_eq (signed : Bool) (h0 : 0 ∉ key) (hr : 0 ∉ rest) (hf : rest.length < fuel) :
    ∃ r, findKey signed key fuel rest = .ok r ∧ (r.map fun found => readValue signed found.ep) =
      Document.getKey (lower key) (document signed rest) := by
  induction fuel generalizing rest with
  | zero => omega
  | succ fuel ih =>
    by_cases hne : rest = []
    · subst hne
      refine ⟨none, rfl, ?_⟩
      rw [document_nil]
      rfl
    · obtain ⟨buffer, rest', hread, happ, hlines, hb, -, hr'⟩ := iniRead_of_ne_nil hr hne
      have hlen : rest'.length < fuel := by
        have := List.length_pos_iff.mpr hb
        rw [happ, List.length_append] at hf
        omega
      obtain ⟨r, hok, hget⟩ := ih hr' hlen
      simp only [findKey, hread]
      rw [document_of_lines hlines]
      by_cases hh : isHeading signed buffer = true
      · obtain ⟨s, hs⟩ := isHeading_iff.mp hh
        exact ⟨none, if_pos hh, by simp [hs, Document.getKey]⟩
      · rw [if_neg hh]
        by_cases hc : isComment signed buffer = true
        · refine ⟨r, by rw [if_pos hc, hok], ?_⟩
          simpa [view_comment hc] using hget
        · rw [if_neg hc]
          have hview := view_of_entry (by simpa using hh) (by simpa using hc)
          cases hsplit : splitEntry (skipleading signed buffer) with
          | none =>
            refine ⟨r, hok, ?_⟩
            simpa [hview, hsplit] using hget
          | some p =>
            obtain ⟨name, ep⟩ := p
            by_cases hm : matchKey signed key buffer = true
            · obtain ⟨_, hr, hlow⟩ := (matchKey_iff h0).mp hm
              rw [hsplit, Option.some.injEq] at hr
              subst hr
              exact ⟨some ⟨buffer, ep⟩, if_pos hm, by simp [hview, hsplit, Document.getKey, hlow]⟩
            · refine ⟨r, by simp only [if_neg hm, hok], ?_⟩
              have hlow : lower (striptrailing signed name) ≠ lower key := fun hlow =>
                hm ((matchKey_iff h0).mpr ⟨_, hsplit, hlow⟩)
              simpa [hview, hsplit, Document.getKey, hlow] using hget

/-- **The entry.** Its value is the one of the document. -/
theorem findEntry_eq (signed : Bool) (hs : 0 ∉ sect) (hk : 0 ∉ key) (hf : 0 ∉ file) :
    ∃ r, findEntry signed file sect key = .ok r ∧ (r.map fun found => readValue signed found.ep) =
      (document signed file).get (sectionName sect) (lower key) := by
  unfold findEntry sectionName Document.get
  by_cases hnil : sect = []
  · simp only [hnil, ↓reduceIte]
    exact findKey_eq signed hk hf (Nat.lt_succ_self _)
  · obtain ⟨r, hok, harea, hr⟩ := findSection_eq signed hs hf (Nat.lt_succ_self _)
    simp only [hnil, ↓reduceIte, hok, ← harea]
    cases r with
    | none => exact ⟨none, rfl, rfl⟩
    | some rest => exact findKey_eq signed hk (hr rest rfl) (Nat.lt_succ_self _)

/-! ## The places of the texts -/

theorem length_iniRead (h : iniRead iniBuffersize rest = some (buffer, rest')) :
    buffer.length ≤ 511 := by
  unfold iniRead at h
  split at h
  · cases h
  · obtain rfl := congrArg Prod.fst (Option.some.inj h)
    exact (List.takeWhile_prefix _).length_le.trans (line_length_le _ _ _)

/-- The line of an entry is a string in `LocalBuffer`. -/
theorem findKey_length (h : findKey signed key fuel rest = .ok (some found)) :
    found.localBuffer.length ≤ 511 := by
  induction fuel generalizing rest with
  | zero => cases h
  | succ fuel ih =>
    unfold findKey at h
    cases hread : iniRead iniBuffersize rest with
    | none => simp [hread] at h
    | some r =>
      obtain ⟨buffer, rest'⟩ := r
      simp only [hread] at h
      by_cases hh : isHeading signed buffer = true
      · simp [hh] at h
      · rw [if_neg hh] at h
        by_cases hc : isComment signed buffer = true
        · rw [if_pos hc] at h
          exact ih h
        · rw [if_neg hc] at h
          cases hsplit : splitEntry (skipleading signed buffer) with
          | none =>
            simp only [hsplit] at h
            exact ih h
          | some p =>
            simp only [hsplit] at h
            split at h
            · obtain rfl := Option.some.inj (Except.ok.inj h)
              exact length_iniRead hread
            · exact ih h

theorem findEntry_length (h : findEntry signed file sect key = .ok (some found)) :
    found.localBuffer.length ≤ 511 := by
  unfold findEntry at h
  by_cases hnil : sect = []
  · simp only [hnil, ↓reduceIte] at h
    exact findKey_length h
  · rw [if_neg hnil] at h
    obtain ⟨start, -, h⟩ := bind_eq_ok.mp h
    cases start with
    | none => cases h
    | some rest => exact findKey_length h

/-- The value starts before the terminator. -/
theorem valueOffset_le (h : found.localBuffer.length ≤ 511) : valueOffset signed found ≤ 511 := by
  unfold valueOffset
  simp only
  split
  · rename_i hquotes
    have hne : skipleading signed found.ep ≠ [] := fun hnil => by
      rw [hnil] at hquotes
      cases hquotes
    have := List.length_pos_iff.mpr hne
    omega
  · omega

theorem offsetOf_le {k : ℕ} (h : k ∈ offsetOf signed file sect key) : k ≤ 511 := by
  unfold offsetOf at h
  split at h
  · rename_i r hr
    obtain ⟨found, rfl, rfl⟩ := Option.map_eq_some_iff.mp h
    exact valueOffset_le (findEntry_length hr)
  · cases h

/-- A key without a value has no place. -/
theorem offsetOf_eq_none (hs : 0 ∉ sect) (hk : 0 ∉ key) (hf : 0 ∉ file)
    (h : (document signed file).get (sectionName sect) (lower key) = none) :
    offsetOf signed file sect key = none := by
  obtain ⟨r, hok, hget⟩ := findEntry_eq signed hs hk hf
  rw [h, Option.map_eq_none_iff] at hget
  unfold offsetOf
  rw [hok, hget]
  rfl

theorem ApartLocal.clear {buffer : Int} {k : ℕ} (h : ApartLocal buffer bufferSize) (hk : k ≤ 511)
    (hsize : 0 < bufferSize) : Clear buffer k bufferSize.toNat := by
  unfold ApartLocal at h
  unfold Clear
  omega

/-- Such a buffer is clear of the text that is copied. -/
theorem Place.Apart.clear (h : place.Apart bufferSize) (hsize : 0 < bufferSize)
    (signed : Bool) (file : Option (List UInt8)) (sect key : List UInt8) :
    Clear place.buffer (sourceOf signed place file sect key) bufferSize.toNat := by
  obtain ⟨hlocal, hdefault⟩ := h
  unfold sourceOf
  split
  · unfold Clear
    omega
  · rename_i k hk
    obtain ⟨bytes, -, hk⟩ := Option.bind_eq_some_iff.mp hk
    exact hlocal.clear (offsetOf_le hk) hsize

/-! ## The value in the buffer -/

theorem cleanstring_ne_enquote (signed : Bool) (string : List UInt8) :
    (cleanstring signed string).2 ≠ .enquote := by
  unfold cleanstring
  simp only
  split <;> simp

/-- A smaller buffer gets a prefix of the value. -/
theorem savedString_cleanstring (text : List UInt8) (bufferSize : ℕ) :
    savedString (cleanstring signed (skipleading signed text)).1 bufferSize
        (cleanstring signed (skipleading signed text)).2 =
      (readValue signed text).take (bufferSize - 1) := by
  have hq := cleanstring_ne_enquote signed (skipleading signed text)
  unfold readValue
  generalize cleanstring signed (skipleading signed text) = r at hq
  obtain ⟨sp, quotes⟩ := r
  cases quotes with
  | none => simp only [savedString_none, Nat.add_sub_cancel, List.take_length]
  | enquote => exact absurd rfl hq
  | dequote => simp only [savedString_dequote, Nat.add_sub_cancel, dequoteLoop_take _ _ (Nat.le_refl _)]

theorem saveStrncpy_eq {dest source : Int} {maxlen : ℕ} (hmax : 0 < maxlen)
    (h : Clear dest source maxlen) (text : List UInt8) (option : QuoteOption) :
    saveStrncpy dest source text maxlen option = .ok (savedString text maxlen option) :=
  if_pos ⟨hmax, h⟩

theorem saveStrncpy_abort {dest source : Int} {maxlen : ℕ} (h : ¬ Clear dest source maxlen)
    (text : List UInt8) (option : QuoteOption) :
    saveStrncpy dest source text maxlen option = .error .assertion :=
  if_neg fun hc => h hc.2

/-- The copy of a value that was found. -/
theorem getkeystring_found (h : findEntry signed file sect key = .ok (some found)) (buffer : Int)
    (size : ℕ) : getkeystring signed file sect key buffer size =
      (saveStrncpy buffer (valueOffset signed found)
        (cleanstring signed (skipleading signed found.ep)).1 size
        (cleanstring signed (skipleading signed found.ep)).2).map some := by
  unfold getkeystring
  rw [h]
  rfl

/-- **The value in the file.** It is the one of the document, cut to a buffer that is clear of it. -/
theorem getkeystring_eq (hs : 0 ∉ sect) (hk : 0 ∉ key) (hf : 0 ∉ file) {buffer : Int} {size : ℕ}
    (hsize : 0 < size) (hc : ∀ k ∈ offsetOf signed file sect key, Clear buffer k size) :
    getkeystring signed file sect key buffer size =
      .ok (((document signed file).get (sectionName sect) (lower key)).map
        (·.take (size - 1))) := by
  obtain ⟨r, hok, hget⟩ := findEntry_eq signed hs hk hf
  unfold offsetOf at hc
  simp only [hok] at hc
  rw [← hget]
  cases r with
  | none =>
    unfold getkeystring
    rw [hok]
    rfl
  | some found =>
    rw [getkeystring_found hok, saveStrncpy_eq hsize (hc _ rfl), savedString_cleanstring]
    rfl

/-- A buffer that is not clear of the value. -/
theorem getkeystring_abort {buffer : Int} {size k : ℕ} (hk : k ∈ offsetOf signed file sect key)
    (hc : ¬ Clear buffer k size) :
    getkeystring signed file sect key buffer size = .error .assertion := by
  unfold offsetOf at hk
  split at hk
  · rename_i r hr
    obtain ⟨found, rfl, rfl⟩ := Option.map_eq_some_iff.mp hk
    rw [getkeystring_found hr, saveStrncpy_abort hc]
    rfl
  · cases hk

/-- The value that `ini_gets` stores, for a file that can be opened or not. -/
def lookup (signed : Bool) (file : Option (List UInt8)) (sect key : List UInt8) :
    Option (List UInt8) :=
  file.bind fun file => (document signed file).get (sectionName sect) (lower key)

/-- **`ini_gets`.** The value of the document or the default, cut to a buffer that is clear of the
text. -/
theorem iniGets_eq {file : Option (List UInt8)} (hs : 0 ∉ sect) (hk : 0 ∉ key)
    (hf : ∀ bytes ∈ file, 0 ∉ bytes) (defValue : List UInt8)
    (hc : 0 < bufferSize → Clear place.buffer (sourceOf signed place file sect key)
      bufferSize.toNat) :
    iniGets signed place file sect key defValue bufferSize =
      .ok (((lookup signed file sect key).getD defValue).take (bufferSize.toNat - 1)) := by
  unfold iniGets lookup
  by_cases hsize : bufferSize ≤ 0
  · rw [if_pos hsize, show bufferSize.toNat - 1 = 0 by omega]
    rfl
  · have hc := hc (by omega)
    have hpos : 0 < bufferSize.toNat := by omega
    rw [if_neg hsize]
    unfold sourceOf at hc
    cases file with
    | none => exact saveStrncpy_eq hpos hc defValue .none
    | some file =>
      rw [Option.bind_some] at hc
      have hget : getkeystring signed file sect key place.buffer bufferSize.toNat = _ :=
        getkeystring_eq hs hk (hf file rfl) hpos fun k hk => by
          rw [Option.mem_def.mp hk] at hc
          exact hc
      simp only [hget, Option.bind_some]
      cases hv : (document signed file).get (sectionName sect) (lower key) with
      | none =>
        rw [offsetOf_eq_none hs hk (hf file rfl) hv] at hc
        exact saveStrncpy_eq hpos hc defValue .none
      | some v => rfl

theorem Place.Apart.iniGets_eq {file : Option (List UInt8)} (h : place.Apart bufferSize)
    (hs : 0 ∉ sect) (hk : 0 ∉ key) (hf : ∀ bytes ∈ file, 0 ∉ bytes) (defValue : List UInt8) :
    iniGets signed place file sect key defValue bufferSize =
      .ok (((lookup signed file sect key).getD defValue).take (bufferSize.toNat - 1)) :=
  MinIni.iniGets_eq hs hk hf defValue fun hsize => h.clear hsize signed file sect key

/-- **An abort.** The buffer begins behind the text that is copied, within its size. -/
theorem iniGets_abort {file : Option (List UInt8)} (hs : 0 ∉ sect) (hk : 0 ∉ key)
    (hf : ∀ bytes ∈ file, 0 ∉ bytes) (defValue : List UInt8) (hsize : 0 < bufferSize)
    (hc : ¬ Clear place.buffer (sourceOf signed place file sect key) bufferSize.toNat) :
    iniGets signed place file sect key defValue bufferSize = .error .assertion := by
  unfold iniGets
  rw [if_neg (by omega)]
  unfold sourceOf at hc
  cases file with
  | none => exact saveStrncpy_abort hc defValue .none
  | some file =>
    rw [Option.bind_some] at hc
    cases hoff : offsetOf signed file sect key with
    | some k =>
      rw [hoff] at hc
      simp only [getkeystring_abort hoff hc]
      rfl
    | none =>
      rw [hoff] at hc
      obtain ⟨r, hok, -⟩ := findEntry_eq signed hs hk (hf file rfl)
      unfold offsetOf at hoff
      simp only [hok, Option.map_eq_none_iff] at hoff
      unfold getkeystring
      simp only [hok, hoff]
      exact saveStrncpy_abort hc defValue .none

/-! ## Values without NUL bytes -/

theorem mem_dequoteLoop {c : UInt8} {room : ℕ} {source : List UInt8}
    (h : c ∈ dequoteLoop room source) : c ∈ source ∨ c = 0x22 := by
  induction room generalizing source with
  | zero => cases h
  | succ room ih =>
    cases source with
    | nil => cases h
    | cons x source =>
      unfold dequoteLoop at h
      split at h
      · rcases List.mem_cons.mp h with h | h
        · exact .inr h
        · exact (ih h).imp_left fun h => List.mem_cons_of_mem x (List.mem_of_mem_tail h)
      · rcases List.mem_cons.mp h with h | h
        · exact .inl (h ▸ List.mem_cons_self)
        · exact (ih h).imp_left (List.mem_cons_of_mem x)

theorem mem_cutComment {c : UInt8} {isstring skip : Bool} {string : List UInt8}
    (h : c ∈ cutComment isstring skip string) : c ∈ string := by
  induction string generalizing isstring skip with
  | nil => cases h
  | cons x string ih =>
    unfold cutComment at h
    split_ifs at h
    · rcases List.mem_cons.mp h with h | h
      · exact h ▸ List.mem_cons_self
      · exact List.mem_cons_of_mem x (ih h)
    · cases h
    all_goals
      rcases List.mem_cons.mp h with h | h
      · exact h ▸ List.mem_cons_self
      · exact List.mem_cons_of_mem x (ih h)

theorem mem_cleanstring {c : UInt8} {string : List UInt8} (h : c ∈ (cleanstring signed string).1) :
    c ∈ string := by
  have hstrip : ∀ c ∈ striptrailing signed (cutComment false false string), c ∈ string :=
    fun c hc => mem_cutComment (mem_of_mem_striptrailing hc)
  unfold cleanstring at h
  simp only at h
  split at h
  · exact hstrip c (List.mem_of_mem_tail (List.mem_of_mem_dropLast h))
  · exact hstrip c h

theorem mem_readValue {c : UInt8} {text : List UInt8} (h : c ∈ readValue signed text) :
    c ∈ text ∨ c = 0x22 := by
  have hclean : ∀ c ∈ (cleanstring signed (skipleading signed text)).1, c ∈ text :=
    fun c hc => mem_of_mem_skipleading (mem_cleanstring hc)
  have hq := cleanstring_ne_enquote signed (skipleading signed text)
  unfold readValue at h
  generalize cleanstring signed (skipleading signed text) = r at h hclean hq
  obtain ⟨sp, quotes⟩ := r
  cases quotes with
  | none =>
    rw [savedString_none] at h
    exact .inl (hclean c (List.mem_of_mem_take h))
  | enquote => exact absurd rfl hq
  | dequote =>
    rw [savedString_dequote] at h
    exact (mem_dequoteLoop h).imp_left (hclean c)

/-- The values of a text file have no NUL byte. -/
theorem noNul_of_lookup {file : Option (List UInt8)} {v : List UInt8}
    (hf : ∀ bytes ∈ file, 0 ∉ bytes) (h : lookup signed file sect key = some v) : 0 ∉ v := by
  obtain ⟨bytes, rfl, hget⟩ := Option.bind_eq_some_iff.mp h
  obtain ⟨l, hl, hview⟩ := List.mem_filterMap.mp (Document.mem_of_get hget)
  have hl0 : 0 ∉ l := fun h0 => hf bytes rfl (mem_of_mem_lines hl h0)
  unfold view at hview
  simp only at hview
  split_ifs at hview
  · cases hview
  · obtain ⟨r, hr, hentry⟩ := Option.map_eq_some_iff.mp hview
    rw [Item.entry.injEq] at hentry
    intro h0
    rw [← hentry.2] at h0
    rcases mem_readValue h0 with h0 | h0
    · exact hl0 (mem_of_mem_skipleading (splitEntry_snd hr h0))
    · revert h0
      decide

/-- **A read of a file.** For every text file, section and key: if the buffer is clear of the text that
is copied, no fault is reached, and the buffer gets the value that the file means, or the default, cut
to the buffer and terminated in it. Else the call aborts. -/
theorem iniGets_spec {file : Option (List UInt8)} (hs : 0 ∉ sect) (hk : 0 ∉ key)
    (hf : ∀ bytes ∈ file, 0 ∉ bytes) (hd : 0 ∉ defValue) (hsize : 0 < bufferSize) :
    (Clear place.buffer (sourceOf signed place file sect key) bufferSize.toNat →
      ∃ buffer, iniGets signed place file sect key defValue bufferSize = .ok buffer ∧
        buffer = ((lookup signed file sect key).getD defValue).take (bufferSize.toNat - 1) ∧
          0 ∉ buffer ∧ (buffer.length : Int) < bufferSize) ∧
    (¬ Clear place.buffer (sourceOf signed place file sect key) bufferSize.toNat →
      iniGets signed place file sect key defValue bufferSize = .error .assertion) := by
  refine ⟨fun hc => ⟨_, iniGets_eq hs hk hf defValue fun _ => hc, rfl, fun h0 => ?_, ?_⟩,
    iniGets_abort hs hk hf defValue hsize⟩
  · have h0 := List.mem_of_mem_take h0
    cases hl : lookup signed file sect key with
    | none =>
      rw [hl] at h0
      exact hd h0
    | some v =>
      rw [hl] at h0
      exact noNul_of_lookup hf hl h0
  · rw [List.length_take]
    omega

/-- A file with a value in quotes. -/
def quotedFile : List UInt8 := ascii "[Server]\nNAME = \"a; \\\"b\" ; c\n"

/-- The value, in a buffer that is too small for it; and in one that is too large to lie where it does,
16 bytes behind `LocalBuffer`. -/
theorem iniGets_quoted :
    (∃ buffer, iniGets true ⟨528, -4096⟩ (some quotedFile) (ascii "server") (ascii "name") [] 6 =
      .ok buffer ∧ buffer = ascii "a; \"b") ∧
    iniGets true ⟨528, -4096⟩ (some quotedFile) (ascii "server") (ascii "name") [] 1024 =
      .error .assertion := by
  have hf : ∀ bytes ∈ some quotedFile, 0 ∉ bytes := fun _ hb =>
    Option.some.inj hb ▸ (by decide)
  refine ⟨Exists.imp (fun _ h => ⟨h.1, h.2.1.trans ?_⟩) ((iniGets_spec (by decide) (by decide) hf
    List.not_mem_nil (by decide)).1 (by decide)), (iniGets_spec (by decide) (by decide) hf
    List.not_mem_nil (by decide)).2 (by decide)⟩
  decide

end LwMix.MinIni
