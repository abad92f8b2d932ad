import LwMix.MinIni.Files
import LwMix.Base.Lts

/-!
# Runs of `ini_puts`, with crashes

A step is an `ini_puts` of which some operations on files are done before the program is stopped, or
all of them. A put that aborts has none.

* `puts`: the system. `CutAtRename`: a crash between the removal of the file and the renaming of the
  new one.
* `file_stays_iff`: a run keeps the file exactly if no crash is of this kind.
* `values_of_run`: then the values are those of the puts that were completed.
-/

namespace LwMix.MinIni

/-- An `ini_puts`, and the number of its operations on files that are done. -/
structure Put where
  sect : List UInt8
  key : List UInt8
  value : List UInt8
  below : UInt8
  cut : ℕ
  deriving DecidableEq, Repr

/-- The values of a file: of a section, or of the area before the headings, and a key. -/
abbrev Values := Option (List UInt8) → List UInt8 → Option (List UInt8)

section Runs

variable (signed : Bool) (dist : Int) (canWrite : List UInt8 → Bool) (filename : List UInt8)

/-- The call. -/
def Put.call (l : Put) (disk : Disk (List UInt8) UInt8) : Except Fault (PutEnd × List FileOp) :=
  iniPuts signed dist l.below canWrite l.sect (some l.key) (some l.value) filename disk

/-- The disk after the operations that are done. -/
def putStep (disk : Disk (List UInt8) UInt8) (l : Put) : Except Fault (Disk (List UInt8) UInt8) := do
  let (_, ops) ← l.call signed dist canWrite filename disk
  pure (disk.run (ops.take l.cut))

/-- The puts of values that can be read again. -/
def puts : Lts (Disk (List UInt8) UInt8) Put :=
  .ofStep (fun _ l => PutOk signed l.sect l.key l.value) (putStep signed dist canWrite filename)

/-- All operations are done but the last. -/
def CutAtRename (disk : Disk (List UInt8) UInt8) (l : Put) : Prop :=
  ((l.call signed dist canWrite filename disk).toOption.map fun r => r.2.length) = some (l.cut + 1)

instance (disk : Disk (List UInt8) UInt8) (l : Put) :
    Decidable (CutAtRename signed dist canWrite filename disk l) :=
  inferInstanceAs (Decidable (_ = _))

/-- The call does not abort, and all operations are done. -/
def completed (disk : Disk (List UInt8) UInt8) (l : Put) : Bool :=
  match l.call signed dist canWrite filename disk with
  | .ok (.returned _, ops) => ops.length ≤ l.cut
  | _ => false

/-- The values after a put. -/
def Values.put (t : Values) (l : Put) : Values := fun s k =>
  if s = sectionName l.sect ∧ k = lower l.key then some l.value else t s k

/-- The values after the completed puts of a run. -/
def valuesAfter : Disk (List UInt8) UInt8 → Values → List (Put × Disk (List UInt8) UInt8) → Values
  | _, t, [] => t
  | disk, t, (l, disk') :: p =>
    valuesAfter disk' (if completed signed dist canWrite filename disk l then t.put l else t) p

/-- The last disk of a run. -/
def lastDisk : Disk (List UInt8) UInt8 → List (Put × Disk (List UInt8) UInt8) →
    Disk (List UInt8) UInt8
  | disk, [] => disk
  | _, (_, disk') :: p => lastDisk disk' p

/-- The file can be replaced. -/
structure PlaceOk : Prop where
  name : NameOk filename
  file : canWrite filename = true
  temp : canWrite (tempname filename) = true

end Runs

variable {signed : Bool} {dist : Int} {canWrite : List UInt8 → Bool} {filename file : List UInt8}
  {disk disk' : Disk (List UInt8) UInt8} {l : Put} {p : List (Put × Disk (List UInt8) UInt8)}

/-- There is a text file. -/
def HasFile (filename : List UInt8) (disk : Disk (List UInt8) UInt8) : Prop :=
  ∃ file, disk filename = some file ∧ TextFile file

/-- The values of the file. -/
def fileValues (signed : Bool) (filename : List UInt8) (disk : Disk (List UInt8) UInt8) : Values :=
  fun s k => (diskDocument signed (disk filename)).get s k

/-- One step: the operations, and what is done of them. -/
theorem putStep_cases (hp : PlaceOk canWrite filename) (hfile : HasFile filename disk)
    (hl : PutOk signed l.sect l.key l.value)
    (hst : putStep signed dist canWrite filename disk l = .ok disk') :
    (CutAtRename signed dist canWrite filename disk l ∧ disk' filename = none) ∨
      (¬ CutAtRename signed dist canWrite filename disk l ∧
        completed signed dist canWrite filename disk l = true ∧
        disk' filename = some (newFile signed l.below l.sect l.key l.value (disk filename))) ∨
      (¬ CutAtRename signed dist canWrite filename disk l ∧
        completed signed dist canWrite filename disk l = false ∧ disk' filename = disk filename) := by
  obtain ⟨file, hsome, htext⟩ := hfile
  -- an abort, or the operations of a put
  obtain ⟨e, ops, hcall, hend⟩ : ∃ e ops, l.call signed dist canWrite filename disk = .ok (e, ops) ∧
      (e = .aborted ∧ ops = [] ∨ e = .returned true ∧
        (ops = [] ∧ disk filename = some (newFile signed l.below l.sect l.key l.value (disk filename)) ∨
          ops = Disk.replace (tempname filename) filename
            (newFile signed l.below l.sect l.key l.value (disk filename)))) := by
    by_cases hspare : Spared signed dist file l.sect l.key
    · have hfile : ∀ file ∈ disk filename, TextFile file := by simpa [hsome] using htext
      obtain ⟨ops, hok, hops⟩ := iniPuts_ops l.below hl.toPutFits hp.name hp.file hp.temp hfile
        (by simpa [hsome] using hspare)
      refine ⟨_, ops, hok, .inr ⟨rfl, ?_⟩⟩
      rcases hops with h | ⟨hnone, -⟩ | h
      · exact .inl h
      · rw [hsome] at hnone
        cases hnone
      · exact .inr h
    · exact ⟨_, _, iniPuts_abort hspare hsome l.value, .inl ⟨rfl, rfl⟩⟩
  obtain rfl : disk' = disk.run (ops.take l.cut) := by
    unfold putStep at hst
    rw [hcall] at hst
    exact (Except.ok.inj hst).symm
  have hcut : CutAtRename signed dist canWrite filename disk l ↔ ops.length = l.cut + 1 := by
    unfold CutAtRename
    rw [hcall]
    simp [Except.toOption]
  rw [hcut]
  unfold completed
  rw [hcall]
  generalize newFile signed l.below l.sect l.key l.value (disk filename) = new at hend ⊢
  rcases hend with ⟨rfl, rfl⟩ | ⟨rfl, ⟨rfl, heq⟩ | rfl⟩
  · refine .inr (.inr ⟨by simp, rfl, ?_⟩)
    simp
  · refine .inr (.inl ⟨by simp, by simp, ?_⟩)
    simpa using heq
  · have hlen := Disk.length_replace (tempname filename) filename new
    rcases lt_trichotomy ((Disk.replace (tempname filename) filename new).length) (l.cut + 1)
      with hlt | heq | hgt
    · refine .inr (.inl ⟨by omega, by simp; omega, ?_⟩)
      rw [List.take_of_length_le (by omega), Disk.run_replace hp.name.other, Function.update_self]
    · refine .inl ⟨heq, ?_⟩
      have := (Disk.run_replace_between hp.name.other disk new).1
      rwa [show (Disk.write (tempname filename) new).length + 1 = l.cut by omega] at this
    · refine .inr (.inr ⟨by omega, by simp; omega, ?_⟩)
      exact Disk.run_replace_early hp.name.other (by omega) disk

/-- Another step than one that is cut there keeps the file. -/
theorem HasFile.step (hp : PlaceOk canWrite filename) (hfile : HasFile filename disk)
    (hl : PutOk signed l.sect l.key l.value)
    (hst : putStep signed dist canWrite filename disk l = .ok disk')
    (hc : ¬ CutAtRename signed dist canWrite filename disk l) : HasFile filename disk' := by
  rcases putStep_cases hp hfile hl hst with ⟨h, -⟩ | ⟨-, -, h⟩ | ⟨-, -, h⟩
  · exact absurd h hc
  · obtain ⟨file, hsome, htext⟩ := hfile
    exact ⟨_, h, textFile_newFile _ hl.toPutFits (by simpa [hsome] using htext)⟩
  · obtain ⟨file, hsome, htext⟩ := hfile
    exact ⟨file, by rw [h, hsome], htext⟩

/-! ## Runs of several puts -/

theorem placeOk_sample : PlaceOk allWritable (ascii "mix.cfg") := ⟨nameOk_sample, rfl, rfl⟩

theorem hasFile_sample : HasFile (ascii "mix.cfg") sampleDisk :=
  ⟨sampleFile, sampleDisk_file, textFile_sample⟩

/-- A put of which the first `cut` operations are done. -/
def samplePut (key value : List UInt8) (cut : ℕ) : Put := ⟨ascii "server", key, value, 0, cut⟩

/-- The run of some puts. The `LocalBuffer` of `ini_puts` is 4 bytes above the end of the other, so
that an old value behind `name=` makes the call abort. -/
def sampleRun (ls : List Put) : List (Put × Disk (List UInt8) UInt8) :=
  (Lts.path (fun _ _ => True) (putStep true 516 allWritable (ascii "mix.cfg")) sampleDisk ls).getD []

theorem keyOk_id (signed : Bool) : KeyOk signed (ascii "id") :=
  keyOk_of_all (by decide) (by decide)

theorem putOk_id {value : List UInt8} (h : Plain true value) (hlen : value.length ≤ 500) :
    PutOk true (ascii "server") (ascii "id") value :=
  putOk_of_plain sectionOk_server (keyOk_id true) h
    (show (ascii "id").length + value.length ≤ 508 by simp [ascii]; omega)

theorem run_sample {ls : List Put} (h : ∀ l ∈ ls, PutOk true l.sect l.key l.value)
    (hp : Lts.path (fun _ _ => True) (putStep true 516 allWritable (ascii "mix.cfg")) sampleDisk ls =
      some (sampleRun ls)) :
    (puts true 516 allWritable (ascii "mix.cfg")).Run sampleDisk (sampleRun ls) :=
  Lts.run_of_path_of_forall h hp

/-! ## Runs -/

/-- **The file stays.** In a run of puts that may be cut by crashes, the file is there in every state
exactly if no put is cut between the removal of the file and the renaming of the new one. -/
theorem file_stays_iff (hp : PlaceOk canWrite filename) (hfile : HasFile filename disk)
    (hrun : (puts signed dist canWrite filename).Run disk p) :
    (∀ x ∈ p, x.2 filename ≠ none) ↔
      Lts.AllSteps (fun disk l => ¬ CutAtRename signed dist canWrite filename disk l) disk p := by
  refine hrun.always_iff (I := HasFile filename) (P := fun disk => disk filename ≠ none)
    hfile ?_ ?_ ?_
  · rintro s l s' hs hc ⟨hl, hst⟩
    exact hs.step hp hl hst hc
  · rintro s ⟨file, hsome, -⟩ hnone
    rw [hsome] at hnone
    cases hnone
  · rintro s l s' hs hc ⟨hl, hst⟩ hne
    rcases putStep_cases hp hs hl hst with ⟨-, h⟩ | ⟨h, -⟩ | ⟨h, -⟩
    · exact hne h
    · exact hc h
    · exact hc h

/-- Two puts are completed, and the third one is cut. -/
def lostPuts : List Put :=
  [samplePut (ascii "id") (ascii "7") 99, samplePut (ascii "id") (ascii "8") 99,
    samplePut (ascii "id") (ascii "9") 25]

theorem lostPuts_ok : ∀ l ∈ lostPuts, PutOk true l.sect l.key l.value := by
  simp only [lostPuts, List.forall_mem_cons]
  exact ⟨putOk_id (plain_of_all (by decide)) (by decide),
    putOk_id (plain_of_all (by decide)) (by decide),
    putOk_id (plain_of_all (by decide)) (by decide), by simp⟩

/-- The third put loses the file, until the new one is renamed. -/
theorem file_stays_iff_sample :
    (puts true 516 allWritable (ascii "mix.cfg")).Run sampleDisk (sampleRun lostPuts) ∧
      (sampleRun lostPuts).length = 3 ∧
      ¬ ∀ x ∈ sampleRun lostPuts, x.2 (ascii "mix.cfg") ≠ none := by
  have hrun := run_sample lostPuts_ok rfl
  exact ⟨hrun, by decide, mt (file_stays_iff placeOk_sample hasFile_sample hrun).mp (by decide)⟩

/-- The values after one step. -/
theorem fileValues_step (hp : PlaceOk canWrite filename) (hfile : HasFile filename disk)
    (hl : PutOk signed l.sect l.key l.value)
    (hst : putStep signed dist canWrite filename disk l = .ok disk')
    (hc : ¬ CutAtRename signed dist canWrite filename disk l) :
    fileValues signed filename disk' =
      if completed signed dist canWrite filename disk l then (fileValues signed filename disk).put l
      else fileValues signed filename disk := by
  rcases putStep_cases hp hfile hl hst with ⟨h, -⟩ | ⟨-, hdone, h⟩ | ⟨-, hdone, h⟩
  · exact absurd h hc
  · obtain ⟨file, hsome, htext⟩ := hfile
    have hold : ∀ file ∈ disk filename, TextFile file := by simpa [hsome] using htext
    have hdoc := document_newFile l.below hl hold
    rw [if_pos hdone]
    funext s k
    unfold fileValues Values.put diskDocument
    rw [h, Option.getD_some, hdoc]
    by_cases hsame : s = sectionName l.sect ∧ k = lower l.key
    · rw [if_pos hsame, hsame.1, hsame.2, Document.get_set_self]
    · rw [if_neg hsame, Document.get_set_of_ne (not_and_or.mp hsame)]
      rfl
  · rw [hdone, if_neg Bool.false_ne_true]
    unfold fileValues
    rw [h]

/-- **The values of a run.** If no put is cut between the removal and the renaming, the values in the
file are those of the puts that were completed, on top of the first ones. -/
theorem values_of_run (hp : PlaceOk canWrite filename) (hfile : HasFile filename disk)
    (hrun : (puts signed dist canWrite filename).Run disk p)
    (hc : Lts.AllSteps (fun disk l => ¬ CutAtRename signed dist canWrite filename disk l) disk p) :
    fileValues signed filename (lastDisk disk p) =
      valuesAfter signed dist canWrite filename disk (fileValues signed filename disk) p := by
  induction hrun with
  | nil disk => rfl
  | @cons disk disk' l p hst _ ih =>
    obtain ⟨hl, hst⟩ := hst
    rw [lastDisk, valuesAfter, ← fileValues_step hp hfile hl hst hc.1]
    exact ih (hfile.step hp hl hst hc.1) hc.2

/-- The first put is completed, the second one is cut, and the third one aborts. -/
def keptPuts : List Put :=
  [samplePut (ascii "id") (ascii "7") 99, samplePut (ascii "id") (ascii "8") 5,
    samplePut (ascii "name") (ascii "Eve") 99]

theorem keptPuts_ok : ∀ l ∈ keptPuts, PutOk true l.sect l.key l.value := by
  simp only [keptPuts, List.forall_mem_cons]
  exact ⟨putOk_id (plain_of_all (by decide)) (by decide),
    putOk_id (plain_of_all (by decide)) (by decide), putOk_sample, by simp⟩

theorem values_of_run_sample :
    (puts true 516 allWritable (ascii "mix.cfg")).Run sampleDisk (sampleRun keptPuts) ∧
      fileValues true (ascii "mix.cfg") (lastDisk sampleDisk (sampleRun keptPuts))
        (some (ascii "server")) (ascii "id") = some (ascii "7") ∧
      fileValues true (ascii "mix.cfg") (lastDisk sampleDisk (sampleRun keptPuts))
        (some (ascii "server")) (ascii "name") = some (ascii "Bob") := by
  have hrun := run_sample keptPuts_ok rfl
  have h := values_of_run placeOk_sample hasFile_sample hrun (by decide)
  rw [h]
  exact ⟨hrun, by decide, by decide⟩

end LwMix.MinIni
