import LwMix.Config.File

/-!
# The configuration of `lwmaster.c`

`main` of `lwmaster.c` sets up and loads its own config file as `loadLWMIXConfig` does, but for the
key `public`: it writes it with `ini_putl`, and a server without it is public.

* `setupConfig`, `readConfig`, `loadConfig`: the code.
* `readConfig_of_new`: a new file is loaded as it was set up.
* `new_installation`: what all starts of both programs load, if there is no config file at first.
-/

namespace LwMix.LwMaster

open OnDisk (Env Files Leaves NoNul storeOf)

/-- The setup of a new file. -/
def setupConfig (e : Env) (now : BitVec 32) (disk : Files) : Except Fault Files := do
  let disk ← OnDisk.setupValues e now disk
  OnDisk.iniPutl e .isPublic 1 disk

/-- The load of the file into `server_info`. -/
def readConfig (e : Env) (now : BitVec 32) (disk : Files) (info : ServInfo) :
    Except Fault ServInfo := do
  let info ← OnDisk.readValues e now disk info
  let isPublic ← OnDisk.iniGetbool e .isPublic true disk
  pure { info with isPublic }

/-- The part of `main` that sets up and loads the configuration. -/
def loadConfig (e : Env) (clock : Clock) (disk : Files) (info : ServInfo) :
    Except Fault (Files × ServInfo) := do
  let disk ←
    match disk e.filename with
    | none => setupConfig e clock.setup disk
    | some _ => pure disk
  pure (disk, ← readConfig e clock.load disk info)

/-- Starts of the program, one after the other: what each of them loads. -/
def startAll (e : Env) : List Clock → Files → Except Fault (List ServInfo)
  | [], _ => pure []
  | clock :: clocks, disk => do
    let (disk, info) ← loadConfig e clock disk .blank
    pure (info :: (← startAll e clocks disk))

/-! ## A new file -/

section New

variable {e : Env} {disk : Files} {rand : Rand} {now now' id : BitVec 32} {lp64 : Bool}
  {f : ConfigFile} {key : ConfigKey}

/-- A server that was just set up. -/
def newInfo (isPublic : Bool) (id : BitVec 32) : ServInfo :=
  { ServInfo.blank with
    name := ⟨ascii "lwMIX", OnDisk.noNul_name, by decide⟩
    port := ⟨ascii "8888", OnDisk.noNul_port, by decide⟩
    game := ⟨ascii "WoS", OnDisk.noNul_game, by decide⟩
    id
    isPublic }

/-- An `int` that was put is loaded. -/
theorem iniGetl_int (hf : f key = some ⟨long2str id.toInt, zero_not_mem_long2str _⟩) (d : Int) :
    BitVec.ofInt 32 (iniGetl lp64 f key d) = id := by
  have hrange : intMin ≤ id.toInt ∧ id.toInt ≤ intMax := by
    have h₁ := BitVec.le_toInt id
    have h₂ := BitVec.toInt_lt (x := id)
    unfold intMin intMax
    omega
  rw [iniGetl_long2str hrange hf, BitVec.ofInt_toInt]

/-- The values of a new file are loaded, whatever the default id of the load. -/
theorem readConfig_new (v : IniValue) : LwMix.readConfig lp64 rand now'
    (LwMix.iniPuts .isPublic v (OnDisk.newValues rand now)) .blank =
      newInfo (iniGetbool (LwMix.iniPuts .isPublic v (OnDisk.newValues rand now)) .isPublic false)
        (generateServerID rand now) := by
  have hid : BitVec.ofInt 32 (iniGetl lp64 (LwMix.iniPuts .isPublic v (OnDisk.newValues rand now)) .id
      (generateServerID rand now').toInt) = generateServerID rand now :=
    iniGetl_int (by simp [OnDisk.newValues, LwMix.iniPuts, LwMix.iniPutl]) _
  have hgameId : BitVec.ofInt 32 (iniGetl lp64 (LwMix.iniPuts .isPublic v (OnDisk.newValues rand now))
      .gameId 0) = 0 :=
    iniGetl_int (by simp [OnDisk.newValues, LwMix.iniPuts, LwMix.iniPutl]) _
  unfold LwMix.readConfig
  simp only [hid, hgameId]
  rfl

/-- A flag that was put is loaded. -/
theorem iniGetbool_put {v : IniValue} {isPublic d : Bool} (f : ConfigFile)
    (h : iniGetbool (fun _ => some v) .isPublic d = isPublic) :
    iniGetbool (LwMix.iniPuts .isPublic v f) .isPublic d = isPublic := by
  rw [← h]
  simp only [iniGetbool, iniGets, LwMix.iniPuts, Function.update_self]
  rfl

/-- A load of a file with these values. -/
theorem readConfig_of_new (h : NoNul e disk)
    (hstore : storeOf e disk = LwMix.iniPutl .isPublic 1 (OnDisk.newValues e.rand now))
    (now' : BitVec 32) :
    readConfig e now' disk .blank = .ok (newInfo true (generateServerID e.rand now)) := by
  refine (OnDisk.readValues_storeOf h now' .blank true).trans ?_
  have hpublic : iniGetbool (LwMix.iniPutl .isPublic 1 (OnDisk.newValues e.rand now)) .isPublic true =
      true := iniGetbool_put _ (by decide)
  rw [hstore, hpublic, LwMix.iniPutl, readConfig_new]
  rfl

theorem setupConfig_storeOf (hp : MinIni.PlaceOk e.canWrite e.filename)
    (h : disk e.filename = none) (now : BitVec 32) :
    Leaves e (setupConfig e now disk)
      (LwMix.iniPutl .isPublic 1 (OnDisk.newValues e.rand now)) :=
  (OnDisk.setupValues_storeOf hp h now).putl hp .isPublic rfl 1

/-- Every start on a file with these values loads them. -/
theorem startAll_of_new (hthere : MinIni.HasFile e.filename disk)
    (hstore : storeOf e disk = LwMix.iniPutl .isPublic 1 (OnDisk.newValues e.rand now))
    (clocks : List Clock) : startAll e clocks disk =
      .ok (List.replicate clocks.length (newInfo true (generateServerID e.rand now))) := by
  induction clocks with
  | nil => rfl
  | cons clock clocks ih =>
    have hread := readConfig_of_new (OnDisk.textOrAbsent_of_hasFile hthere).noNul hstore clock.load
    obtain ⟨file, hfile⟩ := Option.ne_none_iff_exists'.mp (OnDisk.ne_none_of_hasFile hthere)
    unfold startAll loadConfig
    rw [hfile]
    show (do
      let (disk, info) ← (do pure (disk, ← readConfig e clock.load disk .blank))
      pure (info :: (← startAll e clocks disk))) = _
    rw [hread]
    show (do pure (_ :: (← startAll e clocks disk))) = _
    rw [ih]
    rfl

/-- The same of `lwmix`. -/
theorem readConfig_lwmix : LwMix.readConfig lp64 rand now' (LwMix.setupConfig rand now) .blank =
    newInfo false (generateServerID rand now) := by
  have hpublic : iniGetbool (LwMix.iniPuts .isPublic ⟨ascii "0", by decide⟩
      (OnDisk.newValues rand now)) .isPublic false = false := iniGetbool_put _ (by decide)
  refine (readConfig_new _).trans ?_
  rw [hpublic]

/-- **A new installation.** If there is no config file at first, every start of a program loads the
values of the setup, whatever the clock and `rand`: the id is the one that the first start has
generated, `lwmix` is not public, and `lwmaster` is. -/
theorem new_installation (hp : MinIni.PlaceOk e.canWrite e.filename) (h : disk e.filename = none)
    (clock : Clock) (clocks : List Clock) :
    OnDisk.startAll e (clock :: clocks) disk = .ok (List.replicate (clocks.length + 1)
      (newInfo false (generateServerID e.rand clock.setup))) ∧
    startAll e (clock :: clocks) disk = .ok (List.replicate (clocks.length + 1)
      (newInfo true (generateServerID e.rand clock.setup))) := by
  constructor
  · have hnul : NoNul e disk := fun file hfile => by
      rw [h] at hfile
      cases hfile
    obtain ⟨disk', info', hok, hthere, hnul', hstore⟩ :=
      OnDisk.loadLWMIXConfig_storeOf hp hnul clock .blank
    rw [h] at hstore
    have hfile : storeOf e disk' = LwMix.setupConfig e.rand clock.setup := congrArg Prod.fst hstore
    have hinfo : info' = LwMix.readConfig e.lp64 e.rand clock.load
      (LwMix.setupConfig e.rand clock.setup) .blank := congrArg Prod.snd hstore
    rw [OnDisk.startAll, hok]
    show (do pure (info' :: (← OnDisk.startAll e clocks disk'))) = _
    rw [OnDisk.startAll_file hnul' hthere, hfile, hinfo]
    simp only [readConfig_lwmix]
    rw [List.map_const']
    rfl
  · obtain ⟨disk', hok, hthere, hstore⟩ := setupConfig_storeOf hp h clock.setup
    have hread := readConfig_of_new (OnDisk.textOrAbsent_of_hasFile hthere).noNul hstore clock.load
    unfold startAll loadConfig
    simp only [h, hok]
    show (do
      let (disk, info) ← (do pure (disk', ← readConfig e clock.load disk' .blank))
      pure (info :: (← startAll e clocks disk))) = _
    rw [hread]
    show (do pure (_ :: (← startAll e clocks disk'))) = _
    rw [startAll_of_new hthere hstore]
    rfl

/-- Two starts of `lwmaster`, on a machine on which the generated id is the time. -/
theorem new_installation_two : startAll OnDisk.sampleEnv [⟨5, 6⟩, ⟨7, 8⟩] (fun _ => none) =
    .ok [newInfo true 5, newInfo true 5] :=
  (new_installation ⟨MinIni.nameOk_sample, rfl, rfl⟩ rfl ⟨5, 6⟩ [⟨7, 8⟩]).2

end New

end LwMix.LwMaster
