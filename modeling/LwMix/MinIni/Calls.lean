import LwMix.MinIni.Files

/-!
# Every `ini_puts` on a file (`minIni.c`)

A key that is `NULL` erases the section, a value that is `NULL` erases the key.

* `rewritten`: the new file. `iniPuts_file`: a call aborts, writes nothing, or replaces the file by it.
* `iniPuts_crash`: what is left after any number of the operations.
* `iniPuts_deleteKey`, `iniPuts_eraseSection`: the values after an entry or a section is erased.
* `iniPuts_twice_iff`: when the second of two equal calls returns without a write.
-/

namespace LwMix.MinIni

/-- The new file. -/
def rewritten (signed : Bool) (below : UInt8) (sect : List UInt8) (key value : Option (List UInt8))
    (file : List UInt8) : List UInt8 :=
  match key with
  | some key => (editLines signed below sect key value (lines 0x0A 510 file)).flatten
  | none => (eraseLines signed sect (lines 0x0A 510 file)).flatten

/-- The file has the value already, as `ini_gets` reads it into `LocalBuffer`. -/
def HasEntry (signed : Bool) (sect : List UInt8) (key value : Option (List UInt8))
    (file : List UInt8) : Prop :=
  ∃ k ∈ key, ∃ v ∈ value,
    ((document signed file).get (sectionName sect) (lower k)).map (·.take 511) = some v

/-- A call whose bail-out can copy the old value, or that has no bail-out. -/
def SparedCall (signed : Bool) (dist : Int) (sect : List UInt8) (key value : Option (List UInt8))
    (file : List UInt8) : Prop :=
  ∀ k ∈ key, value ≠ none → Spared signed dist file sect k

variable {signed : Bool} {dist dist' : Int} {below below' : UInt8} {canWrite : List UInt8 → Bool}
  {sect filename file k v : List UInt8} {key value : Option (List UInt8)}
  {disk : Disk (List UInt8) UInt8}

theorem iniRewrite_rewritten (h0 : 0 ∉ file) :
    iniRewrite signed below file sect key value =
      .ok (rewritten signed below sect key value file) := by
  cases key with
  | none => exact iniRewrite_erase h0 value
  | some k => exact iniRewrite_eq h0 value

theorem bailOut_file (signed : Bool) (hs : 0 ∉ sect) (hk : ∀ k ∈ key, 0 ∉ k) (hf : 0 ∉ file)
    (hspare : SparedCall signed dist sect key value file) :
    ∃ b, bailOut signed dist file sect key value = .ok b ∧
      (b = true ↔ HasEntry signed sect key value file) := by
  unfold bailOut HasEntry
  cases key with
  | none => exact ⟨false, rfl, by simp⟩
  | some k =>
    cases value with
    | none => exact ⟨false, rfl, by simp⟩
    | some v =>
      have hspare : Spared signed dist file sect k := hspare k rfl (Option.some_ne_none v)
      simp only [getkeystring_eq hs (hk k rfl) hf iniBuffersize_pos hspare]
      exact ⟨_, rfl, by simp [iniBuffersize]⟩

/-- **A call** on a file that can be replaced. -/
theorem iniPuts_file (signed : Bool) (dist : Int) (below : UInt8) (value : Option (List UInt8))
    (hs : 0 ∉ sect) (hk : ∀ k ∈ key, 0 ∉ k) (hf : 0 ∉ file) (hn : NameOk filename)
    (hfile : disk filename = some file) (hw : canWrite (tempname filename) = true) :
    ∃ e ops, iniPuts signed dist below canWrite sect key value filename disk = .ok (e, ops) ∧
      (¬ SparedCall signed dist sect key value file ∧ e = .aborted ∧ ops = [] ∨
        SparedCall signed dist sect key value file ∧ e = .returned true ∧
          (HasEntry signed sect key value file ∧ ops = [] ∨
            ¬ HasEntry signed sect key value file ∧
              ops = Disk.replace (tempname filename) filename
                (rewritten signed below sect key value file))) := by
  by_cases hspare : SparedCall signed dist sect key value file
  · obtain ⟨b, hb, hiff⟩ := bailOut_file signed hs hk hf hspare
    cases b with
    | true =>
      refine ⟨.returned true, [], ?_, .inr ⟨hspare, rfl, .inl ⟨hiff.mp rfl, rfl⟩⟩⟩
      unfold iniPuts
      simp only [hfile, hb]
      rfl
    | false =>
      have hno : ¬ HasEntry signed sect key value file := fun h => Bool.false_ne_true (hiff.mpr h)
      exact ⟨_, _, iniPuts_rewrite hn hfile hw hb (iniRewrite_rewritten hf),
        .inr ⟨hspare, rfl, .inr ⟨hno, rfl⟩⟩⟩
  · obtain ⟨k, rfl, v, rfl, h⟩ :
        ∃ k, key = some k ∧ ∃ v, value = some v ∧ ¬ Spared signed dist file sect k := by
      simp only [SparedCall, not_forall] at hspare
      obtain ⟨k, hkey, hvalue, h⟩ := hspare
      obtain ⟨v, hv⟩ := Option.ne_none_iff_exists'.mp hvalue
      exact ⟨k, hkey, v, hv, h⟩
    exact ⟨_, _, iniPuts_abort h hfile v, .inl ⟨hspare, rfl, rfl⟩⟩

/-- The file after a call that erases something. -/
theorem run_erase (signed : Bool) (dist : Int) (below : UInt8) (hs : 0 ∉ sect)
    (hk : ∀ k ∈ key, 0 ∉ k) (hf : 0 ∉ file) (hn : NameOk filename)
    (hfile : disk filename = some file) (hw : canWrite (tempname filename) = true)
    (hv : key = none ∨ value = none) :
    ∃ ops, iniPuts signed dist below canWrite sect key value filename disk =
        .ok (.returned true, ops) ∧
      disk.run ops filename = some (rewritten signed below sect key value file) := by
  obtain ⟨e, ops, hok, ⟨hspare, -⟩ | ⟨-, rfl, ⟨⟨k, hk', v, hv', -⟩, -⟩ | ⟨-, rfl⟩⟩⟩ :=
    iniPuts_file signed dist below value hs hk hf hn hfile hw
  · refine absurd (fun k hk hvalue => ?_) hspare
    rcases hv with rfl | rfl
    · cases hk
    · exact absurd rfl hvalue
  · rcases hv with rfl | rfl
    · cases hk'
    · cases hv'
  · exact ⟨_, hok, by rw [Disk.run_replace hn.other, Function.update_self]⟩

/-! ## Crashes -/

/-- **An erased key.** The first entry of the key in the area of the section is gone, and every other
value is what it was. -/
theorem iniPuts_deleteKey (hs : SectionOk sect) (hk : KeyOk signed k) (hn : NameOk filename)
    (hfile : disk filename = some file) (htext : TextFile file)
    (hw : canWrite (tempname filename) = true) :
    ∃ ops, iniPuts signed dist below canWrite sect (some k) none filename disk =
        .ok (.returned true, ops) ∧
      diskDocument signed (disk.run ops filename) =
        Document.set (sectionName sect) (lower k) none (document signed file) ∧
      ∀ sect' k', sectionName sect' ≠ sectionName sect ∨ lower k' ≠ lower k →
        lookup signed (disk.run ops filename) sect' k' =
          lookup signed (disk filename) sect' k' := by
  have hkey : ∀ key ∈ some k, 0 ∉ key := by simpa using hk.noNul
  obtain ⟨ops, hok, hrun⟩ := run_erase signed dist below hs.noNul hkey htext.noNul hn hfile hw
    (.inr rfl)
  have hdoc : diskDocument signed (disk.run ops filename) =
      Document.set (sectionName sect) (lower k) none (document signed file) := by
    rw [hrun, diskDocument, Option.getD_some]
    exact document_editLines hs hk (by simp) (htext.terminated below)
  refine ⟨ops, hok, hdoc, fun sect' k' hne => ?_⟩
  rw [lookup_eq, hdoc, lookup_eq, hfile, Document.get_set_of_ne hne]
  rfl

theorem iniPuts_deleteKey_sample : ∃ ops,
    iniPuts true 640 0 allWritable (ascii "server") (some (ascii "name")) none (ascii "mix.cfg")
      sampleDisk = .ok (.returned true, ops) ∧
    diskDocument true (sampleDisk.run ops (ascii "mix.cfg")) = [.head (some (ascii "server"))] :=
  Exists.imp (fun _ h => ⟨h.1, h.2.1.trans (by decide)⟩)
    (iniPuts_deleteKey sectionOk_server (keyOk_name true) nameOk_sample sampleDisk_file
      textFile_sample rfl)

/-- **An erased section.** The first section of the name is gone, and the values of the other sections
are what they were. -/
theorem iniPuts_eraseSection (h0 : 0 ∉ sect) (hne : sect ≠ []) (hn : NameOk filename)
    (hfile : disk filename = some file) (hf : 0 ∉ file)
    (hw : canWrite (tempname filename) = true) :
    ∃ ops, iniPuts signed dist below canWrite sect none value filename disk =
        .ok (.returned true, ops) ∧
      diskDocument signed (disk.run ops filename) =
        Document.eraseSection (lower sect) (document signed file) ∧
      ∀ sect' k', sectionName sect' ≠ sectionName sect →
        lookup signed (disk.run ops filename) sect' k' =
          lookup signed (disk filename) sect' k' := by
  have hkey : ∀ key ∈ (none : Option (List UInt8)), 0 ∉ key := by simp
  obtain ⟨ops, hok, hrun⟩ := run_erase signed dist below h0 hkey hf hn hfile hw (.inl rfl)
  have hdoc : diskDocument signed (disk.run ops filename) =
      Document.eraseSection (lower sect) (document signed file) := by
    rw [hrun, diskDocument, Option.getD_some]
    exact document_eraseLines h0 hne
  refine ⟨ops, hok, hdoc, fun sect' k' hne' => ?_⟩
  rw [sectionName, sectionName, if_neg hne, ← sectionName] at hne'
  rw [lookup_eq, hdoc, lookup_eq, hfile, Document.get_eraseSection_of_ne hne']
  rfl

theorem iniPuts_eraseSection_sample : ∃ ops,
    iniPuts true 640 0 allWritable (ascii "server") none none (ascii "mix.cfg") sampleDisk =
      .ok (.returned true, ops) ∧
    diskDocument true (sampleDisk.run ops (ascii "mix.cfg")) = [] :=
  Exists.imp (fun _ h => ⟨h.1, h.2.1.trans (by decide)⟩)
    (iniPuts_eraseSection (by decide) (by decide) nameOk_sample sampleDisk_file
      textFile_sample.noNul rfl)

/-! ## Two equal calls -/

/-- **Twice.** After a put of a value that the file did not have, a second put of the same value
returns without a write exactly if the value is quoted or has no blanks around it, and the bail-out
can copy it. -/
theorem iniPuts_twice_iff (h : PutFits signed sect k v) (hn : NameOk filename)
    (hw : canWrite filename = true) (hw' : canWrite (tempname filename) = true)
    (hfile : ∀ file ∈ disk filename, TextFile file)
    (hspare : ∀ file ∈ disk filename, Spared signed dist file sect k)
    (hne : lookup signed (disk filename) sect k ≠ some v) :
    ∃ ops, iniPuts signed dist below canWrite sect (some k) (some v) filename disk =
        .ok (.returned true, ops) ∧
      (iniPuts signed dist' below' canWrite sect (some k) (some v) filename (disk.run ops) =
        .ok (.returned true, []) ↔
          Restorable signed v ∧ ∀ file ∈ disk.run ops filename, Spared signed dist' file sect k) := by
  obtain ⟨ops, hok, hrun, -⟩ := run_ops below h hn hw hw' hfile hspare
  have htext := textFile_newFile below h hfile
  rw [lookup_eq] at hne
  have hdoc := document_newFile_of_ne below h hfile hne
  refine ⟨ops, hok, ?_⟩
  have hget : (document signed (newFile signed below sect k v (disk filename))).get
      (sectionName sect) (lower k) = some (stored signed k v) := by
    rw [hdoc, Document.get_set_self]
  have hmem : (∀ file ∈ disk.run ops filename, Spared signed dist' file sect k) ↔
      Spared signed dist' (newFile signed below sect k v (disk filename)) sect k := by
    simp [hrun]
  rw [← stored_eq_iff h.fits, hmem]
  constructor
  · intro hnil
    by_cases hspare' : Spared signed dist' (newFile signed below sect k v (disk filename)) sect k
    · refine ⟨?_, hspare'⟩
      by_contra hstored
      rw [iniPuts_replace h.sectionOk.noNul h.keyOk.noNul htext.noNul hspare' hn hrun h.length_lt hw'
        (by rw [hget]; simpa using hstored), Except.ok.injEq, Prod.mk.injEq] at hnil
      have hlen := Disk.length_replace (tempname filename) filename
        (editLines signed below' sect k (some v) (lines 0x0A 510
          (newFile signed below sect k v (disk filename)))).flatten
      rw [hnil.2] at hlen
      simp at hlen
    · rw [iniPuts_abort hspare' hrun, Except.ok.injEq, Prod.mk.injEq] at hnil
      cases hnil.1
  · rintro ⟨hstored, hspare'⟩
    exact iniPuts_noop h.sectionOk.noNul h.keyOk.noNul htext.noNul hspare' hrun h.length_lt
      (by rw [hget, hstored])

theorem iniPuts_twice_blank : ∃ ops,
    iniPuts true 640 0 allWritable (ascii "server") (some (ascii "name")) (some (ascii " x"))
      (ascii "mix.cfg") sampleDisk = .ok (.returned true, ops) ∧
    iniPuts true 640 0 allWritable (ascii "server") (some (ascii "name")) (some (ascii " x"))
      (ascii "mix.cfg") (sampleDisk.run ops) ≠ .ok (.returned true, []) :=
  Exists.imp (fun _ h => ⟨h.1, mt h.2.mp fun hr => not_restorable_blank hr.1⟩)
    (iniPuts_twice_iff putFits_blank nameOk_sample rfl rfl sampleDisk_text sampleDisk_spared
      (by decide))

end LwMix.MinIni
