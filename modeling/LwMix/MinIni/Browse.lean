import LwMix.MinIni.Read

/-!
# Browsing an INI file (`minIni.c`)

`ini_getsection` and `ini_getkey` count the headings of a file and the keys of a section, and
`ini_browse` calls a function for each entry.

* `iniGetsection`, `iniGetkey`, `iniBrowse`: the code. A callback with its data is a function that
  returns the data, and whether to continue.
* `contents`: what the lines of a file mean, in the letters of the file.
* `iniGetsection_iff`, `iniGetkey_iff`: when all names and keys are found.
* `iniBrowse_spec`: the calls. `iniGets_browse`: `ini_gets` as a search among them.
-/

namespace LwMix.MinIni

/-- The loop of `getkeystring` that counts headings, for a `Section` that is `NULL`: the name, with
where it starts in `LocalBuffer`. -/
def findSectionAt (signed : Bool) (idxSection : Int) :
    ℕ → Int → List UInt8 → Except Fault (Option (ℕ × List UInt8))
  | 0, _, _ => .error .fuel
  | fuel + 1, idx, rest =>
    match iniRead iniBuffersize rest with
    | none => .ok none
    | some (localBuffer, rest) =>
      let sp := skipleading signed localBuffer
      match strchr sp 0x5D with
      | none => findSectionAt signed idxSection fuel idx rest
      | some (name, _) =>
        let found := (localBuffer.length - sp.length + 1, name.tail)
        if sp.head? ≠ some 0x5B then findSectionAt signed idxSection fuel idx rest
        -- an empty name has the length of `NULL`: the loop ends, and `idx` is not counted up
        else if name.length - 1 = 0 then .ok (if idx = idxSection then some found else none)
        else if idx + 1 = idxSection then .ok (some found)
        else findSectionAt signed idxSection fuel (idx + 1) rest

/-- `ini_getsection`: the characters that are copied into `Buffer`, at the address `buffer`. -/
def iniGetsection (signed : Bool) (buffer idx bufferSize : Int) (file : Option (List UInt8)) :
    Except Fault (List UInt8) := do
  if bufferSize ≤ 0 ∨ idx < 0 then pure []
  else
    let found ←
      match file with
      | none => pure none
      | some file => findSectionAt signed idx (file.length + 1) (-1) file
    match found with
    | none => pure []
    | some (source, name) => saveStrncpy buffer source name bufferSize.toNat .none

/-- The loop of `getkeystring` that counts entries, for a `Key` that is `NULL`: the key, with where it
starts in `LocalBuffer`. -/
def findKeyAt (signed : Bool) (idxKey : Int) :
    ℕ → Int → List UInt8 → Except Fault (Option (ℕ × List UInt8))
  | 0, _, _ => .error .fuel
  | fuel + 1, idx, rest =>
    match iniRead iniBuffersize rest with
    | none => .ok none
    | some (localBuffer, rest) =>
      if isHeading signed localBuffer then .ok none
      else if isComment signed localBuffer then findKeyAt signed idxKey fuel idx rest
      else
        match splitEntry (skipleading signed localBuffer) with
        | none => findKeyAt signed idxKey fuel idx rest
        | some (name, _) =>
          let sp := striptrailing signed name
          let found := (localBuffer.length - (skipleading signed localBuffer).length, sp)
          -- an empty key, as an empty name above
          if sp.length = 0 then .ok (if idx = idxKey then some found else none)
          else if idx + 1 = idxKey then .ok (some found)
          else findKeyAt signed idxKey fuel (idx + 1) rest

/-- Both loops of `getkeystring`, with `idxSection` `-1`, for a `Key` that is `NULL`. -/
def findEntryAt (signed : Bool) (file sect : List UInt8) (idxKey : Int) :
    Except Fault (Option (ℕ × List UInt8)) := do
  let start ← if sect = [] then pure (some file) else findSection signed sect (file.length + 1) file
  match start with
  | none => pure none
  | some rest => findKeyAt signed idxKey (rest.length + 1) (-1) rest

/-- `ini_getkey`: the characters that are copied into `Buffer`, at the address `buffer`. -/
def iniGetkey (signed : Bool) (buffer : Int) (sect : List UInt8) (idx bufferSize : Int)
    (file : Option (List UInt8)) : Except Fault (List UInt8) := do
  if bufferSize ≤ 0 ∨ idx < 0 then pure []
  else
    let found ←
      match file with
      | none => pure none
      | some file => findEntryAt signed file sect idx
    match found with
    | none => pure []
    | some (source, key) => saveStrncpy buffer source key bufferSize.toNat .none

/-- What `ini_browse` does with a line. -/
inductive Browsed where
  | ignored
  | newSection (sect : List UInt8)
  | setting (key value : List UInt8)
  deriving DecidableEq, Repr

/-- A line that starts no section, behind the section in `LocalBuffer`, which has `lenSec - 1` bytes.
The key and the value are copied towards the start of `LocalBuffer`, which `save_strncpy` allows; it
asserts that there is room for the value. -/
def browseEntry (signed : Bool) (lenSec : ℕ) (sp : List UInt8) : Except Fault Browsed :=
  match splitEntry sp with
  | none => .ok .ignored
  | some (name, ep) =>
    let key := savedString (striptrailing signed name) (iniBuffersize - lenSec) .none
    let maxlen := iniBuffersize - lenSec - (key.length + 1)
    let (sp, quotes) := cleanstring signed (skipleading signed ep)
    if maxlen = 0 then .error .assertion
    else .ok (.setting key (savedString sp maxlen quotes))

/-- A line that `ini_browse` has read. -/
def browseLine (signed : Bool) (lenSec : ℕ) (line : List UInt8) : Except Fault Browsed :=
  let sp := skipleading signed line
  if sp = [] ∨ sp.head? = some 0x3B ∨ sp.head? = some 0x23 then .ok .ignored
  else
    match if sp.head? = some 0x5B then strchr sp 0x5D else none with
    | some (name, _) => .ok (.newSection (savedString name.tail iniBuffersize .none))
    | none => browseEntry signed lenSec sp

section Browse

variable {τ : Type} (signed : Bool)
  (callback : τ → List UInt8 → List UInt8 → List UInt8 → τ × Bool)

/-- The loop of `ini_browse`. -/
def browseLoop : ℕ → List UInt8 → τ → List UInt8 → Except Fault τ
  | 0, _, _, _ => .error .fuel
  | fuel + 1, sect, data, rest =>
    match iniRead (iniBuffersize - (sect.length + 1)) rest with
    | none => .ok data
    | some (line, rest) => do
      match ← browseLine signed (sect.length + 1) line with
      | .ignored => browseLoop fuel sect data rest
      | .newSection sect => browseLoop fuel sect data rest
      | .setting key value =>
        match callback data sect key value with
        | (data, true) => browseLoop fuel sect data rest
        | (data, false) => .ok data

/-- `ini_browse`: whether the file can be opened, and the data of the callback. -/
def iniBrowse (data : τ) (file : Option (List UInt8)) : Except Fault (Bool × τ) :=
  match file with
  | none => .ok (false, data)
  | some file => do
    let data ← browseLoop signed callback (file.length + 1) [] data file
    pure (true, data)

/-- The callback is called for each entry, until it says to stop. -/
def visit : τ → List (Option (List UInt8) × List UInt8 × List UInt8) → τ
  | data, [] => data
  | data, (s, key, value) :: rows =>
    match callback data (s.getD []) key value with
    | (data, true) => visit data rows
    | (data, false) => data

end Browse

/-! ## The contents of a file -/

/-- `view`, in the letters of the file. -/
def item (signed : Bool) (buffer : List UInt8) :
    Option (Item (List UInt8) (List UInt8) (List UInt8)) :=
  let sp := skipleading signed buffer
  if sp.head? = some 0x5B then some (.head ((strchr sp 0x5D).map fun r => r.1.tail))
  else if sp.head? = some 0x3B ∨ sp.head? = some 0x23 then none
  else (splitEntry sp).map fun r => .entry (striptrailing signed r.1) (readValue signed r.2)

/-- The headings and entries of a file. -/
def contents (signed : Bool) (file : List UInt8) :
    Document (List UInt8) (List UInt8) (List UInt8) :=
  (lines 0x0A 510 file).filterMap (item signed)

variable {signed : Bool} {rest rest' file sect key buffer : List UInt8}
  {fuel lenSec size n : ℕ} {dest bufferSize : Int}

theorem view_eq_item (signed : Bool) (buffer : List UInt8) :
    view signed buffer = (item signed buffer).map (Item.map lower lower) := by
  unfold view item
  simp only
  split
  · simp [Item.map, Function.comp_def]
  · split
    · rfl
    · simp [Item.map, Function.comp_def]

theorem document_eq_contents (signed : Bool) (file : List UInt8) :
    document signed file = (contents signed file).map (Item.map lower lower) := by
  unfold document contents
  rw [List.map_filterMap]
  exact congrArg (List.filterMap · _) (funext fun l => view_eq_item signed l)

/-- What the tests of the loops say of a line. -/
theorem item_eq (signed : Bool) (buffer : List UInt8) : item signed buffer =
    if isHeading signed buffer then
      some (.head ((strchr (skipleading signed buffer) 0x5D).map fun r => r.1.tail))
    else if isComment signed buffer then none
    else (splitEntry (skipleading signed buffer)).map fun r =>
      .entry (striptrailing signed r.1) (readValue signed r.2) := by
  unfold item isHeading isComment
  simp only [decide_eq_true_eq]

theorem contents_of_lines (signed : Bool) (h : lines 0x0A 510 rest = buffer :: lines 0x0A 510 rest') :
    contents signed rest = (item signed buffer).toList ++ contents signed rest' := by
  unfold contents
  rw [h]
  cases hi : item signed buffer <;> simp [hi]

/-! ## Counted names and keys -/

theorem getD_of_forall_nil {xs : List (List UInt8)} (h : ∀ x ∈ xs, x = []) (idx : ℕ) :
    xs.getD idx [] = [] := by
  rw [List.getD_eq_getElem?_getD]
  cases hx : xs[idx]? with
  | none => rfl
  | some x => exact h x (List.mem_of_getElem? hx)

/-- The list is found up to its first empty text, so all of it exactly if nothing but empty texts
follows one. -/
theorem getD_takeWhile_iff (xs : List (List UInt8)) (hn : 0 < n) :
    (∀ idx, ((xs.takeWhile (· ≠ [])).getD idx []).take n = (xs.getD idx []).take n) ↔
      xs.Pairwise fun x y => x = [] → y = [] := by
  induction xs with
  | nil => simp
  | cons x xs ih =>
    rw [List.pairwise_cons, ← ih]
    by_cases hx : x = []
    · subst hx
      constructor
      · intro h
        have hall : ∀ y ∈ xs, y = [] := by
          intro y hy
          obtain ⟨idx, hidx, rfl⟩ := List.mem_iff_getElem.mp hy
          have htake := (h (idx + 1)).symm
          simp only [List.getD_cons_succ] at htake
          simpa [hidx, Nat.ne_of_gt hn] using htake
        refine ⟨fun y hy _ => hall y hy, fun idx => ?_⟩
        rw [getD_of_forall_nil fun y hy => hall y ((List.takeWhile_sublist _).mem hy),
          getD_of_forall_nil hall]
      · rintro ⟨hall, -⟩ idx
        rw [getD_of_forall_nil (List.forall_mem_cons.mpr ⟨rfl, fun y hy => hall y hy rfl⟩) idx]
        rfl
    · rw [List.takeWhile_cons_of_pos (by simpa using hx)]
      constructor
      · intro h
        exact ⟨fun _ _ hnil => absurd hnil hx, fun idx => h (idx + 1)⟩
      · rintro ⟨-, h⟩ idx
        cases idx with
        | zero => rfl
        | succ idx => exact h idx

theorem names_of_lines (h : lines 0x0A 510 rest = buffer :: lines 0x0A 510 rest') :
    Document.names (contents signed rest) =
      ((item signed buffer).bind Document.name?).toList ++
        Document.names (contents signed rest') := by
  rw [contents_of_lines signed h, Document.names, List.filterMap_append, Document.names]
  cases item signed buffer with
  | none => rfl
  | some i => cases h : Document.name? i <;> simp [h]

theorem name?_item (signed : Bool) (buffer : List UInt8) :
    (item signed buffer).bind Document.name? =
      if (skipleading signed buffer).head? = some 0x5B then
        (strchr (skipleading signed buffer) 0x5D).map fun r => r.1.tail
      else none := by
  unfold item
  simp only
  split
  · rfl
  · split
    · rfl
    · cases splitEntry (skipleading signed buffer) <;> rfl

/-- The headings are counted up to the first empty name. -/
theorem findSectionAt_eq (signed : Bool) (hr : 0 ∉ rest) (hf : rest.length < fuel) (n : Int)
    (k : ℕ) : (findSectionAt signed (n + 1 + k) fuel n rest).map (Option.map Prod.snd) =
      .ok ((Document.names (contents signed rest)).takeWhile (· ≠ []))[k]? := by
  induction fuel generalizing rest n k with
  | zero => omega
  | succ fuel ih =>
    by_cases hne : rest = []
    · subst hne
      rfl
    · obtain ⟨buffer, rest', hread, happ, hlines, hb, -, hr'⟩ := iniRead_of_ne_nil hr hne
      have hlen : rest'.length < fuel := by
        have := List.length_pos_iff.mpr hb
        rw [happ, List.length_append] at hf
        omega
      have ih := ih hr' hlen
      simp only [findSectionAt, hread]
      rw [names_of_lines hlines, name?_item]
      generalize skipleading signed buffer = sp
      cases hend : strchr sp 0x5D with
      | none => simpa using ih n k
      | some r =>
        obtain ⟨name, ep⟩ := r
        by_cases hhead : sp.head? = some 0x5B
        · by_cases hname : name.tail = []
          · have hne : n ≠ n + 1 + k := by omega
            simp [Except.map, hhead, ← List.length_tail, hname, hne]
          · have hlen' : name.length - 1 ≠ 0 := by
              rw [← List.length_tail]
              exact mt List.length_eq_zero_iff.mp hname
            cases k with
            | zero => simp [Except.map, hhead, hname, hlen']
            | succ k =>
              have hne : n + 1 ≠ n + 1 + 1 + k := by omega
              have hidx : n + 1 + ((k : Int) + 1) = n + 1 + 1 + k := by omega
              simpa [hhead, hname, hlen', hne, hidx] using ih (n + 1) k
        · simpa [hhead] using ih n k

/-- The keys of an area are counted up to the first empty one. -/
theorem findKeyAt_eq (signed : Bool) (hr : 0 ∉ rest) (hf : rest.length < fuel) (n : Int) (k : ℕ) :
    (findKeyAt signed (n + 1 + k) fuel n rest).map (Option.map Prod.snd) =
      .ok ((Document.keys (contents signed rest)).takeWhile (· ≠ []))[k]? := by
  induction fuel generalizing rest n k with
  | zero => omega
  | succ fuel ih =>
    by_cases hne : rest = []
    · subst hne
      rfl
    · obtain ⟨buffer, rest', hread, happ, hlines, hb, -, hr'⟩ := iniRead_of_ne_nil hr hne
      have hlen : rest'.length < fuel := by
        have := List.length_pos_iff.mpr hb
        rw [happ, List.length_append] at hf
        omega
      have ih := ih hr' hlen
      simp only [findKeyAt, hread]
      rw [contents_of_lines signed hlines, item_eq]
      by_cases hh : isHeading signed buffer = true
      · simp [Except.map, hh, Document.keys]
      · by_cases hc : isComment signed buffer = true
        · simpa [hh, hc] using ih n k
        · cases splitEntry (skipleading signed buffer) with
          | none => simpa [hh, hc] using ih n k
          | some r =>
            obtain ⟨name, ep⟩ := r
            by_cases hname : striptrailing signed name = []
            · have hne : n ≠ n + 1 + k := by omega
              simp [Except.map, hh, hc, hname, hne, Document.keys]
            · cases k with
              | zero => simp [Except.map, hh, hc, hname, Document.keys]
              | succ k =>
                have hne : n + 1 ≠ n + 1 + 1 + k := by omega
                have hidx : n + 1 + ((k : Int) + 1) = n + 1 + 1 + k := by omega
                simpa [hh, hc, hname, hne, hidx, Document.keys] using ih (n + 1) k

/-- The keys of a section, in the letters of the file. -/
def sectionKeys (signed : Bool) (sect file : List UInt8) : List (List UInt8) :=
  Document.keysIn (sectionName sect) ((contents signed file).map (Item.map lower id))

theorem keys_map {σ σ' κ ν : Type} (f : σ → σ') (d : Document σ κ ν) :
    Document.keys (d.map (Item.map f id)) = Document.keys d := by
  induction d with
  | nil => rfl
  | cons i d ih =>
    cases i with
    | head s => rfl
    | entry k v => exact congrArg (k :: ·) ih

/-- A name starts before the terminator of `LocalBuffer`. -/
theorem findSectionAt_offset {idx m : Int} {source : ℕ} {name : List UInt8}
    (h : findSectionAt signed idx fuel m rest = .ok (some (source, name))) : source ≤ 511 := by
  induction fuel generalizing rest m with
  | zero => cases h
  | succ fuel ih =>
    unfold findSectionAt at h
    cases hread : iniRead iniBuffersize rest with
    | none => simp [hread] at h
    | some r =>
      obtain ⟨buffer, rest'⟩ := r
      simp only [hread] at h
      cases hend : strchr (skipleading signed buffer) 0x5D with
      | none =>
        simp only [hend] at h
        exact ih h
      | some r =>
        have hlen := length_iniRead hread
        have hpos := congrArg List.length (strchr_eq_some hend).1
        rw [List.length_append, List.length_cons] at hpos
        have hfound : ∀ b : Bool, (if b then some (buffer.length -
            (skipleading signed buffer).length + 1, r.1.tail) else none) = some (source, name) →
            source ≤ 511 := by
          rintro (_ | _) hb
          · cases hb
          · obtain rfl := congrArg Prod.fst (Option.some.inj hb)
            dsimp only
            omega
        simp only [hend] at h
        split_ifs at h
        · exact ih h
        · exact hfound true (Except.ok.inj h)
        · cases h
        · exact hfound true (Except.ok.inj h)
        · exact ih h

/-- A key starts before the terminator of `LocalBuffer`. -/
theorem findKeyAt_offset {idx m : Int} {source : ℕ} {name : List UInt8}
    (h : findKeyAt signed idx fuel m rest = .ok (some (source, name))) : source ≤ 511 := by
  induction fuel generalizing rest m with
  | zero => cases h
  | succ fuel ih =>
    unfold findKeyAt at h
    cases hread : iniRead iniBuffersize rest with
    | none => simp [hread] at h
    | some r =>
      obtain ⟨buffer, rest'⟩ := r
      have hlen := length_iniRead hread
      simp only [hread] at h
      by_cases hh : isHeading signed buffer = true
      · simp [hh] at h
      · rw [if_neg hh] at h
        by_cases hc : isComment signed buffer = true
        · rw [if_pos hc] at h
          exact ih h
        · rw [if_neg hc] at h
          cases hsplit : splitEntry (skipleading signed buffer) with
          | none =>
            simp only [hsplit] at h
            exact ih h
          | some r =>
            simp only [hsplit] at h
            split_ifs at h
            · obtain rfl := congrArg Prod.fst (Option.some.inj (Except.ok.inj h))
              dsimp only
              omega
            · cases h
            · obtain rfl := congrArg Prod.fst (Option.some.inj (Except.ok.inj h))
              dsimp only
              omega
            · exact ih h

/-- What is found is copied into a buffer that is clear of it, and else the buffer is empty. -/
theorem bind_found {found : Except Fault (Option (ℕ × List UInt8))} {r : Option (List UInt8)}
    (h : found.map (Option.map Prod.snd) = .ok r)
    (hoff : ∀ source text, found = .ok (some (source, text)) → source ≤ 511)
    (happ : ApartLocal dest bufferSize) (hsize : 0 < bufferSize) : (do
      match ← found with
      | none => pure []
      | some (source, text) => saveStrncpy dest source text bufferSize.toNat .none :
        Except Fault (List UInt8)) =
    .ok ((r.getD []).take (bufferSize.toNat - 1)) := by
  cases found with
  | error e => cases h
  | ok found =>
    obtain rfl := Except.ok.inj h
    cases found with
    | none => exact congrArg Except.ok List.take_nil.symm
    | some x =>
      obtain ⟨source, text⟩ := x
      exact saveStrncpy_eq (by omega) (happ.clear (hoff source text rfl) hsize) text .none

/-- **`ini_getsection`.** The name with this number, as long as no name before it is empty. -/
theorem iniGetsection_eq (hf : 0 ∉ file) (happ : ApartLocal dest bufferSize)
    (hsize : 0 < bufferSize) (idx : ℕ) :
    iniGetsection signed dest idx bufferSize (some file) =
      .ok ((((Document.names (contents signed file)).takeWhile (· ≠ [])).getD idx []).take
        (bufferSize.toNat - 1)) := by
  have hfind := findSectionAt_eq signed hf (Nat.lt_succ_self _) (-1) idx
  rw [show (-1 : Int) + 1 + idx = idx by omega] at hfind
  unfold iniGetsection
  rw [if_neg (by omega), List.getD_eq_getElem?_getD]
  exact bind_found hfind (fun _ _ h => findSectionAt_offset h) happ hsize

/-- The headings at which the search for a section stops. -/
theorem matchSection_iff_item (hs : 0 ∉ sect) : matchSection signed sect buffer = true ↔
    (item signed buffer).map (Item.map lower id) = some (.head (some (lower sect))) := by
  rw [matchSection_iff hs, view_eq_item]
  cases item signed buffer with
  | none => simp
  | some i => cases i <;> simp [Item.map]

theorem findEntryAt_eq (hs : 0 ∉ sect) (hf : 0 ∉ file) (idx : ℕ) :
    (findEntryAt signed file sect idx).map (Option.map Prod.snd) =
        .ok ((sectionKeys signed sect file).takeWhile (· ≠ []))[idx]? ∧
      ∀ source key, findEntryAt signed file sect idx = .ok (some (source, key)) → source ≤ 511 := by
  have hkeys : ∀ rest, 0 ∉ rest →
      (findKeyAt signed idx (rest.length + 1) (-1) rest).map (Option.map Prod.snd) =
        .ok ((Document.keys (contents signed rest)).takeWhile (· ≠ []))[idx]? := by
    intro rest hr
    have hfind := findKeyAt_eq signed hr (Nat.lt_succ_self _) (-1) idx
    rwa [show (-1 : Int) + 1 + idx = idx by omega] at hfind
  unfold findEntryAt sectionKeys sectionName Document.keysIn
  by_cases hnil : sect = []
  · simp only [hnil, ↓reduceIte, keys_map]
    exact ⟨hkeys file hf, fun _ _ h => findKeyAt_offset h⟩
  · obtain ⟨r, hok, harea, hr⟩ :=
      findSection_area (fun _ => matchSection_iff_item hs) hf (Nat.lt_succ_self _)
    simp only [hnil, ↓reduceIte, contents, List.map_filterMap]
    rw [← harea, hok]
    cases r with
    | none => exact ⟨rfl, fun _ _ h => nomatch h⟩
    | some rest =>
      refine ⟨(hkeys rest (hr rest rfl)).trans ?_, fun _ _ h => findKeyAt_offset h⟩
      rw [← keys_map lower, contents, List.map_filterMap]
      rfl

/-- **`ini_getkey`.** The key with this number, as long as no key before it is empty. -/
theorem iniGetkey_eq (hs : 0 ∉ sect) (hf : 0 ∉ file) (happ : ApartLocal dest bufferSize)
    (hsize : 0 < bufferSize) (idx : ℕ) :
    iniGetkey signed dest sect idx bufferSize (some file) =
      .ok ((((sectionKeys signed sect file).takeWhile (· ≠ [])).getD idx []).take
        (bufferSize.toNat - 1)) := by
  unfold iniGetkey
  rw [if_neg (by omega), List.getD_eq_getElem?_getD]
  exact bind_found (findEntryAt_eq hs hf idx).1 (findEntryAt_eq hs hf idx).2 happ hsize

/-- **All sections.** Every heading is got under its number exactly if no named heading follows one
without a name. -/
theorem iniGetsection_iff (hf : 0 ∉ file) (hsize : 2 ≤ bufferSize)
    (happ : ApartLocal dest bufferSize) :
    (∀ idx : ℕ, iniGetsection signed dest idx bufferSize (some file) =
      .ok (((Document.names (contents signed file)).getD idx []).take (bufferSize.toNat - 1))) ↔
        (Document.names (contents signed file)).Pairwise fun s t => s = [] → t = [] := by
  rw [← getD_takeWhile_iff _ (show 0 < bufferSize.toNat - 1 by omega)]
  refine forall_congr' fun idx => ?_
  rw [iniGetsection_eq hf happ (by omega), Except.ok.injEq]

/-- The heading without a name hides the one after it. -/
theorem iniGetsection_iff_hidden : ¬ ∀ idx : ℕ, iniGetsection true 528 idx 16
    (some (ascii "[a]\n[]\n[b]\n")) =
      .ok (((Document.names (contents true (ascii "[a]\n[]\n[b]\n"))).getD idx []).take 15) :=
  mt (iniGetsection_iff (by decide) (by decide) (by decide)).mp (by decide)

/-- **All keys.** Every key of a section is got under its number exactly if no key follows an entry
without one. -/
theorem iniGetkey_iff (hs : 0 ∉ sect) (hf : 0 ∉ file) (hsize : 2 ≤ bufferSize)
    (happ : ApartLocal dest bufferSize) :
    (∀ idx : ℕ, iniGetkey signed dest sect idx bufferSize (some file) =
      .ok (((sectionKeys signed sect file).getD idx []).take (bufferSize.toNat - 1))) ↔
        (sectionKeys signed sect file).Pairwise fun k l => k = [] → l = [] := by
  rw [← getD_takeWhile_iff _ (show 0 < bufferSize.toNat - 1 by omega)]
  refine forall_congr' fun idx => ?_
  rw [iniGetkey_eq hs hf happ (by omega), Except.ok.injEq]

/-- The entry without a key hides the one after it. -/
theorem iniGetkey_iff_hidden : ¬ ∀ idx : ℕ, iniGetkey true 528 (ascii "a") idx 16
    (some (ascii "[A]\nx=1\n=2\ny=3\n")) =
      .ok (((sectionKeys true (ascii "a") (ascii "[A]\nx=1\n=2\ny=3\n")).getD idx []).take 15) :=
  mt (iniGetkey_iff (by decide) (by decide) (by decide) (by decide)).mp (by decide)

/-! ## The calls of `ini_browse` -/

/-- What a line means to `ini_browse`. -/
def Browsed.toItem : Browsed → Option (Item (List UInt8) (List UInt8) (List UInt8))
  | .ignored => none
  | .newSection sect => some (.head (some sect))
  | .setting key value => some (.entry key value)

theorem cutComment_start (isstring skip : Bool) (string : List UInt8) :
    cutComment isstring skip string <+: string := by
  induction string generalizing isstring skip with
  | nil => exact List.nil_prefix
  | cons c string ih =>
    unfold cutComment
    split_ifs
    case pos => exact List.cons_prefix_cons.mpr ⟨rfl, ih _ _⟩
    all_goals first
      | exact List.nil_prefix
      | exact List.cons_prefix_cons.mpr ⟨rfl, ih _ _⟩

theorem length_cleanstring_le (signed : Bool) (string : List UInt8) :
    (cleanstring signed string).1.length ≤ string.length := by
  have hstrip : (striptrailing signed (cutComment false false string)).length ≤ string.length :=
    (List.rdropWhile_prefix _ _).length_le.trans (cutComment_start _ _ _).length_le
  unfold cleanstring
  simp only
  split
  · simp only [List.length_dropLast, List.length_tail]
    omega
  · exact hstrip

theorem length_readValue_le (signed : Bool) (text : List UInt8) :
    (readValue signed text).length ≤ text.length := by
  have hclean := length_cleanstring_le signed (skipleading signed text)
  have hskip : (skipleading signed text).length ≤ text.length :=
    (List.dropWhile_suffix _).length_le
  have := savedString_length_lt (cleanstring signed (skipleading signed text)).1
    (show 0 < (cleanstring signed (skipleading signed text)).1.length + 1 by omega)
    (cleanstring signed (skipleading signed text)).2
  unfold readValue
  simp only
  omega

theorem splitEntry_length {sp name ep : List UInt8} (h : splitEntry sp = some (name, ep)) :
    name.length + 1 + ep.length = sp.length := by
  unfold splitEntry at h
  split at h
  · rename_i r hr
    obtain rfl := Option.some.inj h
    rw [(strchr_eq_some hr).1]
    simp only [List.length_append, List.length_cons]
    omega
  · rw [(strchr_eq_some h).1]
    simp only [List.length_append, List.length_cons]
    omega

/-- The strings of an entry that fits behind the section are not cut. -/
theorem browseEntry_eq (signed : Bool) {sp : List UInt8} (h : sp.length + lenSec < iniBuffersize) :
    ∃ b, browseEntry signed lenSec sp = .ok b ∧ (∀ sect, b ≠ .newSection sect) ∧
      ((splitEntry sp).map fun r => .entry (striptrailing signed r.1) (readValue signed r.2)) =
        b.toItem := by
  unfold browseEntry
  cases hsplit : splitEntry sp with
  | none => exact ⟨.ignored, rfl, nofun, rfl⟩
  | some r =>
    obtain ⟨name, ep⟩ := r
    have hlen := splitEntry_length hsplit
    have hkey : (striptrailing signed name).length ≤ name.length :=
      (List.rdropWhile_prefix _ _).length_le
    have hvalue := length_readValue_le signed ep
    refine ⟨.setting (striptrailing signed name) (readValue signed ep), ?_, nofun, rfl⟩
    simp only
    rw [savedString_none, List.take_of_length_le (by omega), if_neg (by omega),
      savedString_cleanstring, List.take_of_length_le (by omega)]

/-- A line that fits behind the section is read without a fault, and as `ini_gets` reads it, but for a
heading that does not end. -/
theorem browseLine_eq (signed : Bool) (h : buffer.length + lenSec < iniBuffersize) :
    ∃ b, browseLine signed lenSec buffer = .ok b ∧
      (∀ sect, b = .newSection sect → sect.length + 2 ≤ buffer.length) ∧
      (item signed buffer ≠ some (.head none) → item signed buffer = b.toItem) := by
  have hskip : (skipleading signed buffer).length ≤ buffer.length :=
    (List.dropWhile_suffix _).length_le
  unfold browseLine item
  generalize skipleading signed buffer = sp at hskip
  simp only
  by_cases hcom : sp = [] ∨ sp.head? = some 0x3B ∨ sp.head? = some 0x23
  · refine ⟨.ignored, if_pos hcom, nofun, fun _ => ?_⟩
    rcases hcom with rfl | hcom | hcom
    · rfl
    · simp [hcom, Browsed.toItem]
    · simp [hcom, Browsed.toItem]
  · obtain ⟨b, hok, hno, hitem⟩ :=
      browseEntry_eq signed (show sp.length + lenSec < iniBuffersize by omega)
    rw [if_neg hcom]
    by_cases hhead : sp.head? = some 0x5B
    · simp only [hhead, ↓reduceIte]
      cases hend : strchr sp 0x5D with
      | none => exact ⟨b, hok, fun sect hb => absurd hb (hno sect), fun hne => absurd rfl hne⟩
      | some r =>
        obtain ⟨name, ep⟩ := r
        have hsp := (strchr_eq_some hend).1
        have hname : name ≠ [] := by
          rintro rfl
          rw [hsp, List.nil_append, List.head?_cons] at hhead
          cases hhead
        have hlen := congrArg List.length hsp
        have hpos := List.length_pos_iff.mpr hname
        have htail := List.length_tail (l := name)
        rw [List.length_append, List.length_cons] at hlen
        refine ⟨.newSection name.tail, ?_, ?_, fun _ => rfl⟩
        · simp only
          rw [savedString_none, List.take_of_length_le (by omega)]
        · rintro _ ⟨⟩
          omega
    · rw [if_neg hhead, if_neg hhead, if_neg fun h => hcom (.inr h)]
      exact ⟨b, hok, fun sect hb => absurd hb (hno sect), fun _ => hitem⟩

/-- A read into the rest of `LocalBuffer` takes something of the file. -/
theorem iniRead_size (hsize : 2 ≤ size) (h0 : 0 ∉ rest) (hne : rest ≠ []) : ∃ rest',
    iniRead size rest = some (line 0x0A (size - 1) rest, rest') ∧
      rest = line 0x0A (size - 1) rest ++ rest' ∧ rest'.length < rest.length ∧ 0 ∉ rest' := by
  obtain ⟨m, rfl⟩ : ∃ m, size = m + 2 := ⟨size - 2, by omega⟩
  have happ := line_append_drop 0x0A (m + 1) rest
  have hpos := List.length_pos_iff.mpr (show line 0x0A (m + 1) rest ≠ [] from line_ne_nil hne)
  have hlen := congrArg List.length happ
  rw [List.length_append] at hlen
  refine ⟨rest.drop (line 0x0A (m + 1) rest).length, ?_, happ.symm, by omega,
    fun h => h0 (List.mem_of_mem_drop h)⟩
  have h₁ : 0 ∉ line 0x0A (m + 1) rest := fun h => h0 ((line_start _ _ _).mem h)
  unfold iniRead
  rw [if_neg hne]
  simp only [show m + 2 - 1 = m + 1 from rfl, cstr_eq_self h₁]

variable {τ : Type}

/-- One iteration, with any room that the section leaves. -/
theorem browseLoop_step (signed : Bool)
    (callback : τ → List UInt8 → List UInt8 → List UInt8 → τ × Bool) (hr : 0 ∉ rest)
    (hne : rest ≠ []) (hsect : sect.length ≤ 508) (fuel : ℕ) (data : τ) :
    ∃ (b : Browsed) (rest' : List UInt8), rest = line 0x0A (510 - sect.length) rest ++ rest' ∧
      rest'.length < rest.length ∧ 0 ∉ rest' ∧ (∀ s, b = .newSection s → s.length ≤ 508) ∧
      (item signed (line 0x0A (510 - sect.length) rest) ≠ some (.head none) →
        item signed (line 0x0A (510 - sect.length) rest) = b.toItem) ∧
      browseLoop signed callback (fuel + 1) sect data rest =
        match b with
        | .ignored => browseLoop signed callback fuel sect data rest'
        | .newSection s => browseLoop signed callback fuel s data rest'
        | .setting key value =>
          match callback data sect key value with
          | (data, true) => browseLoop signed callback fuel sect data rest'
          | (data, false) => .ok data := by
  have hsize : iniBuffersize - (sect.length + 1) - 1 = 510 - sect.length := by
    unfold iniBuffersize
    omega
  obtain ⟨rest', hread, happ, hlen, hr'⟩ :=
    iniRead_size (show 2 ≤ iniBuffersize - (sect.length + 1) by omega) hr hne
  rw [hsize] at hread happ
  have hline := line_length_le 0x0A (510 - sect.length) rest
  obtain ⟨b, hb, hname, hitem⟩ := browseLine_eq signed
    (show (line 0x0A (510 - sect.length) rest).length + (sect.length + 1) < iniBuffersize by
      unfold iniBuffersize
      omega)
  refine ⟨b, rest', happ, hlen, hr', fun s hs => ?_, hitem, ?_⟩
  · have := hname s hs
    omega
  · simp only [browseLoop, hread]
    rw [hb]
    cases b <;> rfl

/-- The loop ends, whatever the lengths of the lines are, and the section leaves room in
`LocalBuffer`. -/
theorem browseLoop_ok (signed : Bool)
    (callback : τ → List UInt8 → List UInt8 → List UInt8 → τ × Bool) (hr : 0 ∉ rest)
    (hf : rest.length < fuel) (hsect : sect.length ≤ 508) (data : τ) :
    ∃ data', browseLoop signed callback fuel sect data rest = .ok data' := by
  induction fuel generalizing rest sect data with
  | zero => omega
  | succ fuel ih =>
    by_cases hne : rest = []
    · subst hne
      exact ⟨data, rfl⟩
    · obtain ⟨b, rest', -, hlen, hr', hname, -, hstep⟩ :=
        browseLoop_step signed callback hr hne hsect fuel data
      have hlen' : rest'.length < fuel := by omega
      rw [hstep]
      cases b with
      | ignored => exact ih hr' hlen' hsect data
      | newSection s => exact ih hr' hlen' (hname s rfl) data
      | setting key value =>
        simp only
        rcases callback data sect key value with ⟨data', _ | _⟩
        · exact ⟨data', rfl⟩
        · exact ih hr' hlen' hsect data'

/-- Every line fits behind the section. -/
def FitsBehind (sect rest : List UInt8) : Prop :=
  ∀ l ∈ lines 0x0A 510 rest, l.length + sect.length ≤ 510

/-- A line that fits is read as a whole. -/
theorem FitsBehind.lines_eq (hfit : FitsBehind sect rest) (hne : rest ≠ [])
    (happ : rest = line 0x0A (510 - sect.length) rest ++ rest') :
    lines 0x0A 510 rest = line 0x0A (510 - sect.length) rest :: lines 0x0A 510 rest' := by
  have hlines : lines 0x0A 510 rest = line 0x0A 511 rest ::
      lines 0x0A 510 (rest.drop (line 0x0A 511 rest).length) := lines_of_ne_nil hne
  have hlen := hfit (line 0x0A 511 rest) (by rw [hlines]; exact List.mem_cons_self)
  have hline : line 0x0A (510 - sect.length) rest = line 0x0A 511 rest := by
    rw [← line_take (show 510 - sect.length ≤ 511 by omega), List.take_of_length_le (by omega)]
  rw [hline] at happ ⊢
  have hdrop : rest.drop (line 0x0A 511 rest).length = rest' :=
    List.append_cancel_left ((line_append_drop 0x0A 511 rest).trans happ)
  rw [hlines, hdrop]

/-- If the lines fit behind all sections, the calls are those for the rows. -/
theorem browseLoop_eq (t : Option (List UInt8))
    (callback : τ → List UInt8 → List UInt8 → List UInt8 → τ × Bool) (hr : 0 ∉ rest)
    (hf : rest.length < fuel)
    (hsect : (t.getD []).length ≤ 508) (hfit : FitsBehind (t.getD []) rest)
    (hfits : ∀ s ∈ Document.names (contents signed rest), FitsBehind s rest)
    (hhead : .head none ∉ contents signed rest) (data : τ) :
    browseLoop signed callback fuel (t.getD []) data rest =
      .ok (visit callback data (Document.rows t (contents signed rest))) := by
  induction fuel generalizing rest t data with
  | zero => omega
  | succ fuel ih =>
    by_cases hne : rest = []
    · subst hne
      rfl
    · obtain ⟨b, rest', happ, hlen, hr', hname, hitem, hstep⟩ :=
        browseLoop_step signed callback hr hne hsect fuel data
      have hlen' : rest'.length < fuel := by omega
      have hlines := hfit.lines_eq hne happ
      generalize line 0x0A (510 - (t.getD []).length) rest = l at happ hitem hlines
      have hcont := contents_of_lines signed hlines
      have hb := hitem fun h => hhead (by rw [hcont, h]; exact List.mem_cons_self)
      rw [hb] at hcont
      rw [hcont] at hhead hfits ⊢
      -- what holds of all lines holds of those that are left
      have hrest : ∀ s, FitsBehind s rest → FitsBehind s rest' := fun s h k hk =>
        h k (by rw [hlines]; exact List.mem_cons_of_mem l hk)
      have hhead' : .head none ∉ contents signed rest' := fun h =>
        hhead (List.mem_append_right _ h)
      have hfits' : ∀ s ∈ Document.names (contents signed rest'), FitsBehind s rest' := by
        intro s hs
        refine hrest s (hfits s ?_)
        rw [Document.names, List.filterMap_append]
        exact List.mem_append_right _ hs
      rw [hstep]
      cases b with
      | ignored => exact ih t hr' hlen' hsect (hrest _ hfit) hfits' hhead' data
      | newSection s =>
        exact ih (some s) hr' hlen' (hname s rfl) (hrest s (hfits s List.mem_cons_self))
          hfits' hhead' data
      | setting key value =>
        simp only [Browsed.toItem, Option.toList_some, List.singleton_append, Document.rows, visit]
        rcases callback data (t.getD []) key value with ⟨data', _ | _⟩
        · rfl
        · exact ih t hr' hlen' hsect (hrest _ hfit) hfits' hhead' data'

/-- Every heading ends, and every line fits behind every section. -/
structure Browsable (signed : Bool) (file : List UInt8) : Prop where
  closed : .head none ∉ contents signed file
  start : FitsBehind [] file
  fits : ∀ s ∈ Document.names (contents signed file), FitsBehind s file

theorem iniBrowse_eq (signed : Bool)
    (callback : τ → List UInt8 → List UInt8 → List UInt8 → τ × Bool) (hf : 0 ∉ file)
    (h : Browsable signed file) (data : τ) : iniBrowse signed callback data (some file) =
      .ok (true, visit callback data (Document.rows none (contents signed file))) :=
  bind_eq_ok.mpr ⟨_, browseLoop_eq none callback hf (Nat.lt_succ_self _)
    (show ([] : List UInt8).length ≤ 508 by simp) h.start h.fits h.closed data, rfl⟩

/-- **`ini_browse`.** For every text file and every callback it ends without a fault. If the lines fit,
it calls the callback for the entries of the file in their order, until the callback says to stop. -/
theorem iniBrowse_spec (signed : Bool)
    (callback : τ → List UInt8 → List UInt8 → List UInt8 → τ × Bool) (hf : 0 ∉ file)
    (data : τ) : ∃ data',
    iniBrowse signed callback data (some file) = .ok (true, data') ∧
      (Browsable signed file →
        data' = visit callback data (Document.rows none (contents signed file))) := by
  obtain ⟨data', hok⟩ := browseLoop_ok signed callback hf
    (Nat.lt_succ_self _) (show ([] : List UInt8).length ≤ 508 by simp) data
  have hbrowse : iniBrowse signed callback data (some file) = .ok (true, data') :=
    bind_eq_ok.mpr ⟨data', hok, rfl⟩
  refine ⟨data', hbrowse, fun h => ?_⟩
  rw [iniBrowse_eq signed callback hf h, Except.ok.injEq, Prod.mk.injEq] at hbrowse
  exact hbrowse.2.symm

/-- Two sections with the same key. -/
def twoSections : List UInt8 := ascii "k=1\n[a]\nk = 2 ; two\n; none\n[b]\nk=3\n"

theorem browsable_twoSections : Browsable true twoSections := by
  have hfits : ∀ s : List UInt8, s.length ≤ 1 → FitsBehind s twoSections := by
    intro s hs l hl
    have hall : (lines 0x0A 510 twoSections).all (·.length ≤ 12) = true := by decide
    have := of_decide_eq_true (List.all_eq_true.mp hall l hl)
    omega
  have hnames : Document.names (contents true twoSections) = [ascii "a", ascii "b"] := by decide
  refine ⟨by decide, hfits [] (by simp), fun s hs => hfits s ?_⟩
  rw [hnames, List.mem_cons, List.mem_singleton] at hs
  rcases hs with rfl | rfl <;> decide

/-- The callback stops in the first section. -/
theorem iniBrowse_spec_two : ∃ data',
    iniBrowse true (fun d s k v => (d ++ [(s, k, v)], s = [])) [] (some twoSections) =
      .ok (true, data') ∧
    data' = [([], ascii "k", ascii "1"), (ascii "a", ascii "k", ascii "2")] :=
  Exists.imp (fun _ h => ⟨h.1, (h.2 browsable_twoSections).trans (by decide)⟩)
    (iniBrowse_spec true _ (by decide) _)

/-! ## A search by browsing -/

/-- The callback stops at the first entry of the key in the section. -/
def firstCall (sect key : List UInt8) (found : Option (List UInt8)) (s k value : List UInt8) :
    Option (List UInt8) × Bool :=
  if lower s = lower sect ∧ lower k = lower key then (some value, false) else (found, true)

theorem lower_eq_nil {xs : List UInt8} : lower xs = [] ↔ xs = [] := List.map_eq_nil_iff

/-- The section that is passed, and the one that is looked for. -/
theorem lower_getD_iff (sect : List UInt8) {s : Option (List UInt8)} (hs : s ≠ some []) :
    lower (s.getD []) = lower sect ↔ s.map lower = sectionName sect := by
  unfold sectionName
  cases s with
  | none =>
    rw [Option.getD_none, Option.map_none, eq_comm, show lower [] = [] from rfl, lower_eq_nil]
    by_cases h : sect = [] <;> simp [h]
  | some s =>
    have hne : s ≠ [] := fun h => hs (by rw [h])
    rw [Option.getD_some, Option.map_some]
    split
    · rename_i hnil
      rw [hnil, show lower [] = [] from rfl, lower_eq_nil]
      simp [hne]
    · rw [Option.some.injEq]

theorem visit_firstCall {rows : List (Option (List UInt8) × List UInt8 × List UInt8)}
    (h : ∀ r ∈ rows, r.1 ≠ some []) : visit (firstCall sect key) none rows =
      ((rows.map fun r => (r.1.map lower, lower r.2.1, r.2.2)).find?
        (Document.isRow (sectionName sect) (lower key))).map (·.2.2) := by
  induction rows with
  | nil => rfl
  | cons r rows ih =>
    obtain ⟨s, k, value⟩ := r
    have hsame := lower_getD_iff sect (h _ List.mem_cons_self)
    have ih := ih fun r hr => h r (List.mem_cons_of_mem _ hr)
    rw [visit, firstCall, List.map_cons]
    by_cases hrow : s.map lower = sectionName sect ∧ lower k = lower key
    · rw [if_pos (by rwa [hsame]), List.find?_cons_of_pos (by simpa [Document.isRow] using hrow)]
      rfl
    · rw [if_neg (by rwa [hsame]), List.find?_cons_of_neg (by simpa [Document.isRow] using hrow)]
      exact ih

/-- **`ini_gets` as a search.** If the sections have different names, `ini_gets` gets the value that
`ini_browse` passes first for the key in the section. -/
theorem iniGets_browse (hs : 0 ∉ sect) (hk : 0 ∉ key) (hf : 0 ∉ file) (hb : Browsable signed file)
    (hnd : (Document.names (document signed file)).Nodup)
    (hne : [] ∉ Document.names (document signed file)) :
    ∃ r, iniBrowse signed (firstCall sect key) none (some file) = .ok (true, r) ∧
      ∀ place defValue bufferSize, place.Apart bufferSize →
        iniGets signed place (some file) sect key defValue bufferSize =
          .ok ((r.getD defValue).take (bufferSize.toNat - 1)) := by
  refine ⟨_, iniBrowse_eq signed _ hf hb none, fun place defValue bufferSize happ => ?_⟩
  have hclosed : .head none ∉ document signed file := by
    rw [document_eq_contents]
    intro h
    obtain ⟨i, hi, hmap⟩ := List.mem_map.mp h
    cases i with
    | entry k v => cases hmap
    | head s =>
      cases s with
      | none => exact hb.closed hi
      | some s => cases hmap
  have hrows : ∀ r ∈ Document.rows none (contents signed file), r.1 ≠ some [] := by
    intro r hr hnil
    rcases Document.mem_rows hr with h | h
    · rw [h] at hnil
      cases hnil
    · rw [hnil] at h
      refine hne (List.mem_filterMap.mpr ⟨.head (some []), ?_, rfl⟩)
      rw [document_eq_contents]
      exact List.mem_map.mpr ⟨_, h, rfl⟩
  rw [happ.iniGets_eq hs hk (by simpa using hf), visit_firstCall hrows]
  unfold lookup
  rw [Option.bind_some, Document.get_eq_find? hclosed hnd, ← Document.rows_map,
    document_eq_contents]
  rfl

theorem iniGets_browse_two : ∃ r,
    iniBrowse true (firstCall (ascii "B") (ascii "K")) none (some twoSections) = .ok (true, r) ∧
      ∀ place defValue bufferSize, place.Apart bufferSize →
        iniGets true place (some twoSections) (ascii "B") (ascii "K") defValue bufferSize =
          .ok ((r.getD defValue).take (bufferSize.toNat - 1)) :=
  iniGets_browse (by decide) (by decide) (by decide) browsable_twoSections (by decide) (by decide)

end LwMix.MinIni
