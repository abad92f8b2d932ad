import LwMix.MinIni.Store
import LwMix.Base.Disk

/-!
# `ini_puts` on the disk (`minIni.c`)

* `iniTempname`, `closeRename`, `iniPuts`: the code, with its operations on files in their order.
* `Spared`: an old value that the bail-out can copy. `PutOk`: a section, a key and a value that can be
  read again.
* `iniPuts_ops`, `run_ops`: the operations, and the file afterwards.
* `iniGets_iniPuts`: a value that is put is got, and the others stay.
* `iniGets_iniPuts_iff`: the values that come back as they were put.
-/

namespace LwMix.MinIni

/-- The operations on files. -/
abbrev FileOp := DiskOp (List UInt8) UInt8

/-- `ini_tempname`, into `LocalBuffer`. The last character is replaced, which the empty name does not
have. -/
def iniTempname (source : List UInt8) (maxlength : ℕ) : Except Fault (List UInt8) :=
  let dest := savedString source maxlength .none
  if dest = [] then .error .outOfBounds else .ok (dest.dropLast ++ [0x7E])

/-- `close_rename`. -/
def closeRename (filename : List UInt8) : Except Fault (List FileOp) := do
  let buffer ← iniTempname filename iniBuffersize
  pure [.remove filename, .rename buffer filename]

/-- The early bail-out of `ini_puts`: the file has this value. `LocalBuffer` is `dist` bytes above the
one of `getkeystring`. -/
def bailOut (signed : Bool) (dist : Int) (file sect : List UInt8)
    (key value : Option (List UInt8)) : Except Fault Bool :=
  match key, value with
  | some key, some value => do
    let localBuffer ← getkeystring signed file sect key dist iniBuffersize
    pure (localBuffer = some value)
  | _, _ => pure false

/-- How a call of `ini_puts` ends. -/
inductive PutEnd where
  | returned (result : Bool)
  /-- An `assert` has failed. -/
  | aborted
  deriving DecidableEq, Repr

/-- `ini_puts`: how it ends, and the operations on files. A file that cannot be opened for reading is
absent; `canWrite` are the files that can be opened for writing. The temporary file must not be the
file itself. -/
def iniPuts (signed : Bool) (dist : Int) (below : UInt8) (canWrite : List UInt8 → Bool)
    (sect : List UInt8) (key value : Option (List UInt8)) (filename : List UInt8)
    (disk : Disk (List UInt8) UInt8) : Except Fault (PutEnd × List FileOp) :=
  match disk filename with
  | none =>
    match key, value with
    | some key, some value =>
      if !canWrite filename then pure (.returned false, [])
      else do
        let heading ← writesection sect
        let line ← writekey key value
        pure (.returned true, Disk.write filename (heading ++ line))
    | _, _ => pure (.returned true, [])
  | some file =>
    match bailOut signed dist file sect key value with
    | .error .assertion => pure (.aborted, [])
    | .error fault => .error fault
    | .ok true => pure (.returned true, [])
    | .ok false => do
      let tempname ← iniTempname filename iniBuffersize
      if !canWrite tempname then pure (.returned false, [])
      else if tempname = filename then .error .protocol
      else
        let out ← iniRewrite signed below file sect key value
        let ops ← closeRename filename
        pure (.returned true, Disk.write tempname out ++ ops)

/-- The name of the temporary file. -/
def tempname (filename : List UInt8) : List UInt8 := (filename.take 511).dropLast ++ [0x7E]

/-- A file that has another temporary file. -/
structure NameOk (filename : List UInt8) : Prop where
  nonempty : filename ≠ []
  other : tempname filename ≠ filename

/-- A value that the bail-out can copy: it starts `INI_BUFFERSIZE` bytes below `LocalBuffer`, or there
is none. -/
def Spared (signed : Bool) (dist : Int) (file sect key : List UInt8) : Prop :=
  ∀ k ∈ offsetOf signed file sect key, Clear dist k iniBuffersize

instance (signed : Bool) (dist : Int) (file sect key : List UInt8) :
    Decidable (Spared signed dist file sect key) :=
  inferInstanceAs (Decidable (∀ _ ∈ offsetOf signed file sect key, _))

/-- A section, a key and a value that fit a line. -/
structure PutFits (signed : Bool) (sect key value : List UInt8) : Prop where
  sectionOk : SectionOk sect
  keyOk : KeyOk signed key
  noNul : 0 ∉ value
  noNewline : 0x0A ∉ value
  fits : Fits key value

/-- A section, a key and a value that can be read again. -/
structure PutOk (signed : Bool) (sect key value : List UInt8) : Prop extends
    PutFits signed sect key value where
  restorable : Restorable signed value

variable {signed : Bool} {dist bufferSize : Int} {below : UInt8} {canWrite : List UInt8 → Bool}
  {sect key value filename file : List UInt8} {disk : Disk (List UInt8) UInt8} {place : Place}

theorem iniTempname_eq (h : filename ≠ []) :
    iniTempname filename iniBuffersize = .ok (tempname filename) := by
  unfold iniTempname
  have hne : savedString filename iniBuffersize .none ≠ [] := by
    rw [savedString_none]
    simpa [iniBuffersize] using h
  rw [if_neg hne]
  rfl

theorem closeRename_eq (h : filename ≠ []) :
    closeRename filename = .ok [.remove filename, .rename (tempname filename) filename] := by
  unfold closeRename
  rw [iniTempname_eq h]
  rfl

theorem iniBuffersize_pos : 0 < iniBuffersize := by decide

/-- The bail-out compares with the value that is stored. -/
theorem bailOut_eq (hs : 0 ∉ sect) (hk : 0 ∉ key) (hf : 0 ∉ file) (hlen : value.length < 511)
    (hspare : Spared signed dist file sect key) :
    bailOut signed dist file sect (some key) (some value) =
      .ok (decide ((document signed file).get (sectionName sect) (lower key) = some value)) := by
  unfold bailOut
  simp only [getkeystring_eq hs hk hf iniBuffersize_pos hspare]
  refine congrArg Except.ok (decide_eq_decide.mpr ?_)
  cases (document signed file).get (sectionName sect) (lower key) with
  | none => simp
  | some v =>
    simp only [Option.map_some, Option.some.injEq, iniBuffersize]
    constructor
    · rintro rfl
      rw [List.length_take] at hlen
      rw [List.take_of_length_le (by omega)]
    · rintro rfl
      rw [List.take_of_length_le (by omega)]

/-- The bail-out does not get a value that starts too close below `LocalBuffer`. -/
theorem bailOut_abort (h : ¬ Spared signed dist file sect key) (value : List UInt8) :
    bailOut signed dist file sect (some key) (some value) = .error .assertion := by
  obtain ⟨k, hk, hc⟩ : ∃ k ∈ offsetOf signed file sect key, ¬ Clear dist k iniBuffersize := by
    simpa [Spared] using h
  unfold bailOut
  simp only [getkeystring_abort hk hc]
  rfl

/-- An abort is before the first operation. -/
theorem iniPuts_abort (h : ¬ Spared signed dist file sect key) (hfile : disk filename = some file)
    (value : List UInt8) :
    iniPuts signed dist below canWrite sect (some key) (some value) filename disk =
      .ok (.aborted, []) := by
  unfold iniPuts
  simp only [hfile, bailOut_abort h]
  rfl

/-- A file with this value is left as it is. -/
theorem iniPuts_noop (hs : 0 ∉ sect) (hk : 0 ∉ key) (hf : 0 ∉ file)
    (hspare : Spared signed dist file sect key)
    (hfile : disk filename = some file) (hlen : value.length < 511)
    (h : (document signed file).get (sectionName sect) (lower key) = some value) :
    iniPuts signed dist below canWrite sect (some key) (some value) filename disk =
      .ok (.returned true, []) := by
  unfold iniPuts
  simp only [hfile, bailOut_eq hs hk hf hlen hspare, h, decide_true]
  rfl

/-- Without the bail-out a new file is written, which replaces the old one. -/
theorem iniPuts_rewrite {key value : Option (List UInt8)} {out : List UInt8} (hn : NameOk filename)
    (hfile : disk filename = some file) (hw : canWrite (tempname filename) = true)
    (hb : bailOut signed dist file sect key value = .ok false)
    (hout : iniRewrite signed below file sect key value = .ok out) :
    iniPuts signed dist below canWrite sect key value filename disk =
      .ok (.returned true, Disk.replace (tempname filename) filename out) := by
  unfold iniPuts
  simp only [hfile, hb]
  show (do
    let tempname ← iniTempname filename iniBuffersize
    _) = _
  rw [iniTempname_eq hn.nonempty]
  show (if !canWrite (tempname filename) then pure (PutEnd.returned false, []) else _) = _
  rw [hw, Bool.not_true, if_neg Bool.false_ne_true, if_neg hn.other, hout]
  show (do
    let ops ← closeRename filename
    _) = _
  rw [closeRename_eq hn.nonempty]
  rfl

/-- Another value is written. -/
theorem iniPuts_replace (hs : 0 ∉ sect) (hk : 0 ∉ key) (hf : 0 ∉ file)
    (hspare : Spared signed dist file sect key) (hn : NameOk filename)
    (hfile : disk filename = some file) (hlen : value.length < 511)
    (hw : canWrite (tempname filename) = true)
    (h : (document signed file).get (sectionName sect) (lower key) ≠ some value) :
    iniPuts signed dist below canWrite sect (some key) (some value) filename disk =
      .ok (.returned true, Disk.replace (tempname filename) filename
        (editLines signed below sect key (some value) (lines 0x0A 510 file)).flatten) := by
  refine iniPuts_rewrite hn hfile hw ?_ (iniRewrite_eq hf (some value))
  rw [bailOut_eq hs hk hf hlen hspare, decide_eq_false h]

/-- The lines of a new file. -/
def firstLines (sect key value : List UInt8) : List (List UInt8) :=
  sectionLines sect ++ [keyLine key value]

/-- A file that is absent is written with its first entry. -/
theorem iniPuts_create (hs : SectionOk sect) (hk : KeyOk signed key) (hfile : disk filename = none)
    (hw : canWrite filename = true) (value : List UInt8) :
    iniPuts signed dist below canWrite sect (some key) (some value) filename disk =
      .ok (.returned true, Disk.write filename (firstLines sect key value).flatten) := by
  unfold iniPuts
  simp only [hfile, hw, Bool.not_true, Bool.false_eq_true, ↓reduceIte, writesection_eq, writekey_eq,
    List.take_of_length_le hs.fits, List.take_of_length_le hk.fits]
  show Except.ok _ = _
  simp [firstLines]

theorem document_firstLines (hs : SectionOk sect) (hk : KeyOk signed key) (hv : 0x0A ∉ value) :
    document signed (firstLines sect key value).flatten =
      Document.set (sectionName sect) (lower key) (some (stored signed key value)) [] := by
  have hwhole : ∀ l ∈ firstLines sect key value, Whole 0x0A 510 l := by
    intro l hl
    rcases List.mem_append.mp hl with hl | hl
    · exact whole_sectionLines hs.fits hs.noNewline l hl
    · rw [List.mem_singleton.mp hl]
      exact whole_keyLine hk.fits hk.noNewline hv
  rw [document_flatten hwhole]
  unfold firstLines sectionLines sectionName
  by_cases hnil : sect = []
  · simp [hnil, view_keyLine hk, Document.set, Document.setKey]
  · rw [if_neg hnil, if_neg hnil, List.singleton_append,
      List.filterMap_cons_some (view_sectionLine hs.noBracket),
      List.filterMap_cons_some (view_keyLine hk value)]
    rfl

theorem textFile_firstLines (hs : 0 ∉ sect) (hk : 0 ∉ key) (hv : 0 ∉ value) :
    TextFile (firstLines sect key value).flatten where
  noNul h := by
    obtain ⟨l, hl, h0⟩ := List.mem_flatten.mp h
    rcases List.mem_append.mp hl with hl | hl
    · exact noNul_sectionLines hs l hl h0
    · rw [List.mem_singleton.mp hl] at h0
      exact noNul_keyLine hk hv h0
  closed := by
    refine .inr (getLast?_flatten_append _ ?_)
    rw [List.flatten_singleton]
    exact getLast?_keyLine key value

/-! ## Plain values -/

/-- A value of visible characters, without quotes and comment marks. -/
def Plain (signed : Bool) (value : List UInt8) : Prop :=
  ∀ c ∈ value, isBlank signed c = false ∧ c ≠ 0 ∧ c ≠ 0x22 ∧ c ≠ 0x3B ∧ c ≠ 0x23

theorem plain_of_all (h : value.all fun c =>
    isBlank signed c = false ∧ c ≠ 0 ∧ c ≠ 0x22 ∧ c ≠ 0x3B ∧ c ≠ 0x23) : Plain signed value := by
  unfold Plain
  simpa using h

theorem Plain.checkEnquote_eq (h : Plain signed value) : checkEnquote value = .none := by
  unfold checkEnquote
  rw [if_neg]
  rintro ((hc | hc | hc) | hc)
  · exact (h _ hc).2.2.1 rfl
  · exact (h _ hc).2.2.2.1 rfl
  · exact (h _ hc).2.2.2.2 rfl
  · have := (h _ (List.mem_of_getLast? hc)).1
    revert this
    cases signed <;> decide

theorem putOk_of_plain (hs : SectionOk sect) (hk : KeyOk signed key) (h : Plain signed value)
    (hlen : key.length + value.length ≤ 508) : PutOk signed sect key value where
  sectionOk := hs
  keyOk := hk
  noNul h0 := (h _ h0).2.1 rfl
  noNewline h0 := by
    have := (h _ h0).1
    rw [isBlank_newline] at this
    cases this
  fits := by
    unfold Fits encode
    rwa [if_neg (by rw [h.checkEnquote_eq]; decide)]
  restorable := .inr ⟨fun c hc => (h c (List.mem_of_mem_head? hc)).1,
    fun c hc => (h c (List.mem_of_getLast? hc)).1⟩

/-! ## A file with one value -/

/-- The file. -/
def sampleFile : List UInt8 := ascii "[server]\nname=Bob\n"

/-- The disk with this file. -/
def sampleDisk : Disk (List UInt8) UInt8 := fun x =>
  if x = ascii "mix.cfg" then some sampleFile else none

/-- Every file can be opened for writing. -/
def allWritable : List UInt8 → Bool := fun _ => true

theorem sampleDisk_file : sampleDisk (ascii "mix.cfg") = some sampleFile := rfl

theorem textFile_sample : TextFile sampleFile := ⟨by decide, .inr (by decide)⟩

theorem sampleDisk_text : ∀ file ∈ sampleDisk (ascii "mix.cfg"), TextFile file := fun _ hf =>
  Option.some.inj hf ▸ textFile_sample

/-- The `LocalBuffer` of `ini_puts` is 128 bytes above the end of the other. -/
theorem sampleDisk_spared :
    ∀ file ∈ sampleDisk (ascii "mix.cfg"), Spared true 640 file (ascii "server") (ascii "name") :=
  fun _ hf => Option.some.inj hf ▸ (by decide)

theorem nameOk_sample : NameOk (ascii "mix.cfg") := ⟨by decide, by decide⟩

theorem sectionOk_server : SectionOk (ascii "server") := by
  constructor <;> decide

/-- A key of visible characters, without separators and marks. -/
theorem keyOk_of_all (h : key.all fun c =>
    0x20 < c ∧ c < 0x80 ∧ c ≠ 0x3D ∧ c ≠ 0x5B ∧ c ≠ 0x3B ∧ c ≠ 0x23) (hlen : key.length ≤ 508) :
    KeyOk signed key := by
  simp only [List.all_eq_true, decide_eq_true_eq] at h
  have hblank : ∀ c ∈ key, isBlank signed c = false := by
    intro c hc
    obtain ⟨hlo, hhi, -⟩ := h c hc
    simp [isBlank, hlo, hhi]
  exact {
    noNul := fun h0 => absurd (h _ h0).1 (by decide)
    noNewline := fun h0 => absurd (h _ h0).1 (by decide)
    noSeparator := fun h0 => (h _ h0).2.2.1 rfl
    start := fun c hc => ⟨hblank c (List.mem_of_mem_head? hc), (h c (List.mem_of_mem_head? hc)).2.2.2⟩
    stop := fun c hc => hblank c (List.mem_of_getLast? hc)
    fits := hlen }

theorem keyOk_name (signed : Bool) : KeyOk signed (ascii "name") :=
  keyOk_of_all (by decide) (by decide)

theorem putOk_sample : PutOk true (ascii "server") (ascii "name") (ascii "Eve") :=
  putOk_of_plain sectionOk_server (keyOk_name true) (plain_of_all (by decide)) (by decide)

/-- A value that starts with a blank fits, but does not come back. -/
theorem putFits_blank : PutFits true (ascii "server") (ascii "name") (ascii " x") where
  sectionOk := sectionOk_server
  keyOk := keyOk_name true
  noNul := by decide
  noNewline := by decide
  fits := by
    unfold Fits
    decide

theorem not_restorable_blank : ¬ Restorable true (ascii " x") := by
  rintro (h | ⟨h, -⟩)
  · exact absurd h (by decide)
  · exact absurd (h 0x20 rfl) (by decide)

/-! ## One call -/

/-- The file after an `ini_puts`. -/
def newFile (signed : Bool) (below : UInt8) (sect key value : List UInt8)
    (old : Option (List UInt8)) : List UInt8 :=
  match old with
  | none => (firstLines sect key value).flatten
  | some file =>
    if (document signed file).get (sectionName sect) (lower key) = some value then file
    else (editLines signed below sect key (some value) (lines 0x0A 510 file)).flatten

/-- The document of the file. An absent file has an empty one. -/
def diskDocument (signed : Bool) (file : Option (List UInt8)) :
    Document (List UInt8) (List UInt8) (List UInt8) :=
  document signed (file.getD [])

theorem PutOk.stored_eq (h : PutOk signed sect key value) : stored signed key value = value :=
  (stored_eq_iff h.fits).mpr h.restorable

theorem PutFits.length_lt (h : PutFits signed sect key value) : value.length < 511 := by
  have hfits := h.fits
  have hlen : value.length ≤ (encode value).length := by
    have := length_le_escape value
    unfold encode
    split
    · simp only [List.length_cons, List.length_append, List.length_nil]
      omega
    · exact Nat.le_refl _
  unfold Fits at hfits
  omega

/-- A value that the file does not have is stored. -/
theorem document_newFile_of_ne (below : UInt8) (h : PutFits signed sect key value)
    {old : Option (List UInt8)} (hold : ∀ file ∈ old, TextFile file)
    (hne : (diskDocument signed old).get (sectionName sect) (lower key) ≠ some value) :
    document signed (newFile signed below sect key value old) =
      Document.set (sectionName sect) (lower key) (some (stored signed key value))
        (diskDocument signed old) := by
  unfold newFile diskDocument at *
  cases old with
  | none =>
    rw [Option.getD_none, document_nil]
    exact document_firstLines h.sectionOk h.keyOk h.noNewline
  | some file =>
    rw [Option.getD_some] at hne
    simp only [hne, ↓reduceIte, Option.getD_some]
    rw [document_editLines h.sectionOk h.keyOk (by simpa using h.noNewline)
      ((hold file rfl).terminated below), Option.map_some]

theorem document_newFile (below : UInt8) (h : PutOk signed sect key value)
    {old : Option (List UInt8)} (hold : ∀ file ∈ old, TextFile file) :
    document signed (newFile signed below sect key value old) =
      Document.set (sectionName sect) (lower key) (some value) (diskDocument signed old) := by
  by_cases hget : (diskDocument signed old).get (sectionName sect) (lower key) = some value
  · rw [Document.set_of_get hget]
    cases old with
    | none =>
      unfold diskDocument Document.get at hget
      rw [Option.getD_none, document_nil] at hget
      cases hs : sectionName sect <;> rw [hs] at hget <;> cases hget
    | some file =>
      unfold diskDocument at hget
      rw [Option.getD_some] at hget
      simp only [newFile, hget, ↓reduceIte]
      rfl
  · rw [document_newFile_of_ne below h.toPutFits hold hget, h.stored_eq]

theorem textFile_newFile (below : UInt8) (h : PutFits signed sect key value)
    {old : Option (List UInt8)} (hold : ∀ file ∈ old, TextFile file) :
    TextFile (newFile signed below sect key value old) := by
  unfold newFile
  cases old with
  | none => exact textFile_firstLines h.sectionOk.noNul h.keyOk.noNul h.noNul
  | some file =>
    by_cases hget : (document signed file).get (sectionName sect) (lower key) = some value
    · simp only [hget, ↓reduceIte]
      exact hold file rfl
    · simp only [hget, ↓reduceIte]
      exact textFile_editLines (hold file rfl) h.sectionOk.noNul h.keyOk.noNul h.noNul

/-- **The operations of an `ini_puts`.** -/
theorem iniPuts_ops (below : UInt8) (h : PutFits signed sect key value) (hn : NameOk filename)
    (hw : canWrite filename = true) (hw' : canWrite (tempname filename) = true)
    (hfile : ∀ file ∈ disk filename, TextFile file)
    (hspare : ∀ file ∈ disk filename, Spared signed dist file sect key) :
    ∃ ops, iniPuts signed dist below canWrite sect (some key) (some value) filename disk =
        .ok (.returned true, ops) ∧
      (ops = [] ∧ disk filename = some (newFile signed below sect key value (disk filename)) ∨
        disk filename = none ∧
          ops = Disk.write filename (newFile signed below sect key value (disk filename)) ∨
        ops = Disk.replace (tempname filename) filename
          (newFile signed below sect key value (disk filename))) := by
  cases hold : disk filename with
  | none => exact ⟨_, iniPuts_create h.sectionOk h.keyOk hold hw value, .inr (.inl ⟨rfl, rfl⟩)⟩
  | some file =>
    have hf : 0 ∉ file := (hfile file hold).noNul
    unfold newFile
    by_cases hget : (document signed file).get (sectionName sect) (lower key) = some value
    · simp only [hget, ↓reduceIte]
      exact ⟨_, iniPuts_noop h.sectionOk.noNul h.keyOk.noNul hf (hspare file hold) hold h.length_lt hget,
        .inl ⟨rfl, trivial⟩⟩
    · simp only [hget, ↓reduceIte]
      exact ⟨_, iniPuts_replace h.sectionOk.noNul h.keyOk.noNul hf (hspare file hold) hn hold h.length_lt hw'
        hget,
        .inr (.inr rfl)⟩

/-- The file after all operations. -/
theorem run_ops (below : UInt8) (h : PutFits signed sect key value) (hn : NameOk filename)
    (hw : canWrite filename = true) (hw' : canWrite (tempname filename) = true)
    (hfile : ∀ file ∈ disk filename, TextFile file)
    (hspare : ∀ file ∈ disk filename, Spared signed dist file sect key) :
    ∃ ops, iniPuts signed dist below canWrite sect (some key) (some value) filename disk =
        .ok (.returned true, ops) ∧
      disk.run ops filename = some (newFile signed below sect key value (disk filename)) ∧
        ∀ x, x ≠ filename → x ≠ tempname filename → disk.run ops x = disk x := by
  obtain ⟨ops, hok, hops⟩ := iniPuts_ops below h hn hw hw' hfile hspare
  refine ⟨ops, hok, ?_, fun x hx hx' => ?_⟩
  · rcases hops with ⟨rfl, heq⟩ | ⟨-, rfl⟩ | rfl
    · exact heq
    · rw [Disk.run_write, Function.update_self]
    · rw [Disk.run_replace hn.other, Function.update_self]
  · rcases hops with ⟨rfl, -⟩ | ⟨-, rfl⟩ | rfl
    · rfl
    · rw [Disk.run_write, Function.update_of_ne hx]
    · rw [Disk.run_replace hn.other, Function.update_of_ne hx, Function.update_of_ne hx']

theorem lookup_eq (signed : Bool) (file : Option (List UInt8)) (sect key : List UInt8) :
    lookup signed file sect key =
      (diskDocument signed file).get (sectionName sect) (lower key) := by
  cases file with
  | none =>
    unfold diskDocument Document.get
    rw [Option.getD_none, document_nil]
    cases sectionName sect <;> rfl
  | some file => rfl

/-- The values after an `ini_puts`. -/
theorem lookup_iniPuts (below : UInt8) (h : PutOk signed sect key value) (hn : NameOk filename)
    (hw : canWrite filename = true) (hw' : canWrite (tempname filename) = true)
    (hfile : ∀ file ∈ disk filename, TextFile file)
    (hspare : ∀ file ∈ disk filename, Spared signed dist file sect key) :
    ∃ ops, iniPuts signed dist below canWrite sect (some key) (some value) filename disk =
        .ok (.returned true, ops) ∧
      (∀ file ∈ disk.run ops filename, TextFile file) ∧
      ∀ sect' key', lookup signed (disk.run ops filename) sect' key' =
        if sectionName sect' = sectionName sect ∧ lower key' = lower key then some value
        else lookup signed (disk filename) sect' key' := by
  obtain ⟨ops, hok, hrun, -⟩ := run_ops below h.toPutFits hn hw hw' hfile hspare
  have htext := textFile_newFile below h.toPutFits hfile
  have hdoc := document_newFile below h hfile
  refine ⟨ops, hok, by simpa [hrun] using htext, fun sect' key' => ?_⟩
  rw [hrun, lookup_eq, lookup_eq]
  unfold diskDocument at hdoc ⊢
  rw [Option.getD_some, hdoc]
  by_cases hsame : sectionName sect' = sectionName sect ∧ lower key' = lower key
  · rw [if_pos hsame, hsame.1, hsame.2, Document.get_set_self]
  · rw [if_neg hsame, Document.get_set_of_ne (not_and_or.mp hsame)]

/-- **A value that is put is got**, from any buffer, under any name with the same letters; and every
other value is what it was. -/
theorem iniGets_iniPuts (below : UInt8) (h : PutOk signed sect key value) (hn : NameOk filename)
    (hw : canWrite filename = true) (hw' : canWrite (tempname filename) = true)
    (hfile : ∀ file ∈ disk filename, TextFile file)
    (hspare : ∀ file ∈ disk filename, Spared signed dist file sect key) :
    ∃ ops, iniPuts signed dist below canWrite sect (some key) (some value) filename disk =
        .ok (.returned true, ops) ∧
      ∀ place sect' key' defValue bufferSize, place.Apart bufferSize → 0 ∉ sect' → 0 ∉ key' →
        iniGets signed place (disk.run ops filename) sect' key' defValue bufferSize =
          if sectionName sect' = sectionName sect ∧ lower key' = lower key then
            .ok (value.take (bufferSize.toNat - 1))
          else iniGets signed place (disk filename) sect' key' defValue bufferSize := by
  obtain ⟨ops, hok, htext, hlookup⟩ := lookup_iniPuts below h hn hw hw' hfile hspare
  refine ⟨ops, hok, fun place sect' key' defValue bufferSize happ hs hk => ?_⟩
  rw [happ.iniGets_eq hs hk (fun file hf => (htext file hf).noNul),
    happ.iniGets_eq hs hk (fun file hf => (hfile file hf).noNul), hlookup]
  split <;> rfl

/-- Another name is put under `name`, and got under `NAME`. -/
theorem iniGets_iniPuts_sample : ∃ ops,
    iniPuts true 640 0 allWritable (ascii "server") (some (ascii "name")) (some (ascii "Eve"))
      (ascii "mix.cfg") sampleDisk = .ok (.returned true, ops) ∧
    iniGets true ⟨640, -4096⟩ (sampleDisk.run ops (ascii "mix.cfg")) (ascii "Server") (ascii "NAME")
      [] 32 = .ok (ascii "Eve") := by
  refine Exists.imp (fun ops h => ⟨h.1, ?_⟩)
    (iniGets_iniPuts 0 putOk_sample nameOk_sample rfl rfl sampleDisk_text sampleDisk_spared)
  rw [h.2 ⟨640, -4096⟩ (ascii "Server") (ascii "NAME") [] 32 (by decide) (by decide) (by decide)]
  decide

/-- **Exactly the values that come back.** A value that fits, and that the file does not have yet, is
got as it was put exactly if it is quoted or has no blanks around it. -/
theorem iniGets_iniPuts_iff (below : UInt8) (h : PutFits signed sect key value) (hn : NameOk filename)
    (hw : canWrite filename = true) (hw' : canWrite (tempname filename) = true)
    (hfile : ∀ file ∈ disk filename, TextFile file)
    (hspare : ∀ file ∈ disk filename, Spared signed dist file sect key)
    (hne : lookup signed (disk filename) sect key ≠ some value) (happ : place.Apart 512)
    (defValue : List UInt8) :
    ∃ ops, iniPuts signed dist below canWrite sect (some key) (some value) filename disk =
        .ok (.returned true, ops) ∧
      (iniGets signed place (disk.run ops filename) sect key defValue 512 = .ok value ↔
        Restorable signed value) := by
  obtain ⟨ops, hok, hrun, -⟩ := run_ops below h hn hw hw' hfile hspare
  refine ⟨ops, hok, ?_⟩
  have htext := textFile_newFile below h hfile
  rw [lookup_eq] at hne
  have hdoc := document_newFile_of_ne below h hfile hne
  have hlen := h.length_lt
  rw [hrun, happ.iniGets_eq h.sectionOk.noNul h.keyOk.noNul (by simpa using htext.noNul), lookup_eq,
    ← stored_eq_iff h.fits]
  unfold diskDocument at hdoc ⊢
  rw [Option.getD_some, hdoc, Document.get_set_self, Option.getD_some, Except.ok.injEq,
    show Int.toNat 512 - 1 = 511 from rfl]
  constructor
  · intro heq
    rw [← heq, List.length_take] at hlen
    rwa [List.take_of_length_le (by omega)] at heq
  · intro heq
    rw [heq, List.take_of_length_le (by omega)]

theorem iniGets_iniPuts_blank : ∃ ops,
    iniPuts true 640 0 allWritable (ascii "server") (some (ascii "name")) (some (ascii " x"))
      (ascii "mix.cfg") sampleDisk = .ok (.returned true, ops) ∧
    iniGets true ⟨1024, -4096⟩ (sampleDisk.run ops (ascii "mix.cfg")) (ascii "server") (ascii "name")
      [] 512 ≠ .ok (ascii " x") :=
  Exists.imp (fun _ h => ⟨h.1, mt h.2.mp not_restorable_blank⟩)
    (iniGets_iniPuts_iff 0 putFits_blank nameOk_sample rfl rfl sampleDisk_text sampleDisk_spared
      (by decide) (by decide) [])

end LwMix.MinIni
