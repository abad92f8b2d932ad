import LwMix.Config.Load
import LwMix.MinIni.Long2str
import LwMix.MinIni.Runs

/-!
# The configuration on the disk (`common.c`, over `minIni.c`)

`loadLWMIXConfig` again, with the config file as bytes on a disk and every call of `minIni` as its
code runs.

* `setupConfig`, `readConfig`, `loadLWMIXConfig`: the code.
* `storeOf`: the values that the file has under the keys of `[server]`.
* `iniPuts_storeOf`, `iniGets_storeOf`: the calls are those of the store.
* `loadLWMIXConfig_storeOf`: so is the load of the configuration.
* `starts_refine`: so are starts of the server, one after the other. `starts_same_iff`: when they load
  the same `server_info`.
-/

namespace LwMix

/-- The keys of the section `[server]`. -/
def ConfigKey.text : ConfigKey → List UInt8
  | .name => ascii "name"
  | .port => ascii "port"
  | .serverRules => ascii "server_rules"
  | .id => ascii "id"
  | .gameId => ascii "game_id"
  | .gameName => ascii "game_name"
  | .game => ascii "game"
  | .info => ascii "info"
  | .world => ascii "world"
  | .isPublic => ascii "public"

/-- The size of the buffer that a value is read into: a field of `server_info`, or the `LocalBuffer`
of `ini_getl` or `ini_getbool`. -/
def ConfigKey.size : ConfigKey → ℕ
  | .name => 32
  | .port => 16
  | .serverRules => 128
  | .id => 64
  | .gameId => 64
  | .gameName => 5
  | .game => 5
  | .info => 128
  | .world => 64
  | .isPublic => 2

namespace OnDisk

/-- The machine with its stack, the results of `rand`, and the file. In each call, `dist` and `below`
are what `ini_puts` has around its `LocalBuffer`, and `place` are the addresses in `ini_gets`. -/
structure Env where
  signed : Bool
  lp64 : Bool
  rand : Rand
  dist : Int
  below : ConfigKey → UInt8
  place : ConfigKey → MinIni.Place
  canWrite : List UInt8 → Bool
  filename : List UInt8
  /-- The buffers are clear of the strings that are copied. -/
  apart : ∀ key, (place key).Apart key.size

/-- The files. -/
abbrev Files := Disk (List UInt8) UInt8

/-- The disk after a call of `ini_puts` that returns. -/
def returned (disk : Files) : MinIni.PutEnd × List MinIni.FileOp → Except Fault Files
  | (.aborted, _) => .error .assertion
  | (.returned _, ops) => .ok (disk.run ops)

/-- `ini_puts` in the section `[server]`. -/
def iniPuts (e : Env) (key : ConfigKey) (value : List UInt8) (disk : Files) :
    Except Fault Files := do
  returned disk (← MinIni.iniPuts e.signed e.dist (e.below key) e.canWrite (ascii "server")
    (some key.text) (some value) e.filename disk)

/-- `ini_putl` in the section `[server]`. -/
def iniPutl (e : Env) (key : ConfigKey) (value : Int) (disk : Files) : Except Fault Files := do
  returned disk (← MinIni.iniPutl e.signed e.dist (e.below key) e.canWrite (ascii "server")
    key.text value e.filename disk)

/-- `ini_gets` in the section `[server]`, into a `char[cap]`. -/
def iniGets {cap : ℕ} (e : Env) (key : ConfigKey) (defValue : List UInt8) (disk : Files) :
    Except Fault (CStr cap) := do
  let bytes ← MinIni.iniGets e.signed (e.place key) (disk e.filename) (ascii "server") key.text
    defValue cap
  if h : 0 ∉ bytes ∧ bytes.length < cap then pure ⟨bytes, h.1, h.2⟩ else .error .outOfBounds

/-- `ini_getl` in the section `[server]`. -/
def iniGetl (e : Env) (key : ConfigKey) (defValue : Int) (disk : Files) : Except Fault Int :=
  MinIni.iniGetl e.signed e.lp64 (e.place key) (disk e.filename) (ascii "server") key.text defValue

/-- `ini_getbool` in the section `[server]`. -/
def iniGetbool (e : Env) (key : ConfigKey) (defValue : Bool) (disk : Files) : Except Fault Bool :=
  MinIni.iniGetbool e.signed (e.place key) (disk e.filename) (ascii "server") key.text defValue

/-- The setup of a new file, up to the key `public`. -/
def setupValues (e : Env) (now : BitVec 32) (disk : Files) : Except Fault Files := do
  let disk ← iniPuts e .name (ascii "lwMIX") disk
  let disk ← iniPuts e .port (ascii "8888") disk
  let disk ← iniPuts e .serverRules [] disk
  let disk ← iniPutl e .id (generateServerID e.rand now).toInt disk
  let disk ← iniPutl e .gameId 0 disk
  let disk ← iniPuts e .gameName (ascii "WoS") disk
  let disk ← iniPuts e .game (ascii "WoS") disk
  let disk ← iniPuts e .info [] disk
  iniPuts e .world [] disk

/-- The setup of a new file. -/
def setupConfig (e : Env) (now : BitVec 32) (disk : Files) : Except Fault Files := do
  let disk ← setupValues e now disk
  iniPuts e .isPublic (ascii "0") disk

/-- The load of the file into `server_info`, up to the key `public`. -/
def readValues (e : Env) (now : BitVec 32) (disk : Files) (info : ServInfo) :
    Except Fault ServInfo := do
  let info := { info with name := ← iniGets e .name (ascii "lwMIX") disk }
  let info := { info with port := ← iniGets e .port (ascii "8888") disk }
  let info := { info with serverRules := ← iniGets e .serverRules [] disk }
  let id ← iniGetl e .id (generateServerID e.rand now).toInt disk
  let info := { info with id := BitVec.ofInt 32 id }
  let gameId ← iniGetl e .gameId 0 disk
  let info := { info with gameId := BitVec.ofInt 32 gameId }
  let info := { info with game := ← iniGets e .gameName (ascii "WoS") disk }
  let info := { info with game := ← iniGets e .game (ascii "WoS") disk }
  let info := { info with info := ← iniGets e .info [] disk }
  pure { info with world := ← iniGets e .world [] disk }

/-- The load of the file into `server_info`. -/
def readConfig (e : Env) (now : BitVec 32) (disk : Files) (info : ServInfo) :
    Except Fault ServInfo := do
  let info ← readValues e now disk info
  let isPublic ← iniGetbool e .isPublic false disk
  pure { info with isPublic }

/-- `loadLWMIXConfig`. -/
def loadLWMIXConfig (e : Env) (clock : Clock) (disk : Files) (info : ServInfo) :
    Except Fault (Files × ServInfo) := do
  let disk ←
    match disk e.filename with
    | none => setupConfig e clock.setup disk
    | some _ => pure disk
  pure (disk, ← readConfig e clock.load disk info)

/-- Starts of the server, one after the other: what each of them loads. -/
def startAll (e : Env) : List Clock → Files → Except Fault (List ServInfo)
  | [], _ => pure []
  | clock :: clocks, disk => do
    let (disk, info) ← loadLWMIXConfig e clock disk .blank
    pure (info :: (← startAll e clocks disk))

/-! ## The values of the file -/

/-- The values that the file has. -/
def storeOf (e : Env) (disk : Files) : ConfigFile := fun key =>
  (MinIni.lookup e.signed (disk e.filename) (ascii "server") key.text).bind fun bytes =>
    if h : 0 ∉ bytes then some ⟨bytes, h⟩ else none

/-- The file is absent, or has no NUL bytes. -/
def NoNul (e : Env) (disk : Files) : Prop := ∀ file ∈ disk e.filename, 0 ∉ file

/-- The file is absent, or a text file that `ini_puts` can write to. -/
def TextOrAbsent (e : Env) (disk : Files) : Prop := ∀ file ∈ disk e.filename, MinIni.TextFile file

variable {e : Env} {disk disk' : Files} {key key' : ConfigKey} {value defValue : List UInt8}
  {now : BitVec 32} {info : ServInfo} {clock : Clock} {r : Except Fault Files} {f : ConfigFile}

theorem keyOk_text (signed : Bool) (key : ConfigKey) : MinIni.KeyOk signed key.text := by
  cases key <;> exact MinIni.keyOk_of_all (by decide) (by decide)

theorem text_length_le (key : ConfigKey) : key.text.length ≤ 12 := by
  cases key <;> decide

theorem lower_text_inj (key key' : ConfigKey) :
    MinIni.lower key.text = MinIni.lower key'.text ↔ key = key' := by
  cases key <;> cases key' <;> decide

theorem TextOrAbsent.noNul (h : TextOrAbsent e disk) : NoNul e disk :=
  fun file hf => (h file hf).noNul

theorem bytes_injective : Function.Injective IniValue.bytes := fun v w h => by
  cases v
  cases w
  simpa using h

/-- The values are those that are looked up. -/
theorem storeOf_bytes (h : NoNul e disk) (key : ConfigKey) :
    (storeOf e disk key).map IniValue.bytes =
      MinIni.lookup e.signed (disk e.filename) (ascii "server") key.text := by
  unfold storeOf
  cases hl : MinIni.lookup e.signed (disk e.filename) (ascii "server") key.text with
  | none => rfl
  | some bytes =>
    have hbytes := MinIni.noNul_of_lookup h hl
    simp [hbytes]

/-! ## `minIni` on the file -/

/-- The bytes that `ini_gets` stores. -/
theorem gets_storeOf (h : NoNul e disk) (key : ConfigKey) (d : IniValue) {n : ℕ}
    (hsize : key.size = n + 1) :
    MinIni.iniGets e.signed (e.place key) (disk e.filename) (ascii "server") key.text d.bytes
      (n + 1 : ℕ) = .ok (LwMix.iniGets (storeOf e disk) key d : CStr (n + 1)).bytes := by
  have happ := e.apart key
  rw [hsize] at happ
  rw [happ.iniGets_eq MinIni.sectionOk_server.noNul (keyOk_text e.signed key).noNul h,
    ← storeOf_bytes h, Option.getD_map]
  rfl

/-- **`ini_gets`** is the one of the store. -/
theorem iniGets_storeOf (h : NoNul e disk) (key : ConfigKey) (d : IniValue) {n : ℕ}
    (hsize : key.size = n + 1) : (iniGets e key d.bytes disk : Except Fault (CStr (n + 1))) =
      .ok (LwMix.iniGets (storeOf e disk) key d) := by
  unfold iniGets
  rw [gets_storeOf h key d hsize]
  exact dif_pos ⟨CStr.noNul _, CStr.fits _⟩

theorem iniGetl_storeOf (h : NoNul e disk) (key : ConfigKey) (d : Int) (hsize : key.size = 64) :
    iniGetl e key d disk = .ok (LwMix.iniGetl e.lp64 (storeOf e disk) key d) := by
  unfold iniGetl MinIni.iniGetl LwMix.iniGetl
  have hgets := gets_storeOf h key .empty hsize
  rw [show IniValue.empty.bytes = [] from rfl] at hgets
  rw [show (64 : Int) = (63 + 1 : ℕ) from rfl, hgets]
  generalize (LwMix.iniGets (storeOf e disk) key .empty : CStr _) = localBuffer
  show (if _ then _ else if _ then _ else _) = _
  dsimp only
  split_ifs <;> rfl

theorem iniGetbool_storeOf (h : NoNul e disk) (key : ConfigKey) (d : Bool) (hsize : key.size = 2) :
    iniGetbool e key d disk = .ok (LwMix.iniGetbool (storeOf e disk) key d) := by
  unfold iniGetbool MinIni.iniGetbool LwMix.iniGetbool
  have hgets := gets_storeOf h key .empty hsize
  rw [show IniValue.empty.bytes = [] from rfl] at hgets
  rw [show (2 : Int) = (1 + 1 : ℕ) from rfl, hgets]
  generalize (LwMix.iniGets (storeOf e disk) key .empty : CStr _) = localBuffer
  show (if _ then _ else if _ then _ else _) = _
  dsimp only
  split_ifs <;> rfl

/-- The bail-out has nothing to copy for a key without a value. -/
theorem spared_of_none (h : NoNul e disk) (key : ConfigKey) (hnone : storeOf e disk key = none) :
    ∀ file ∈ disk e.filename, MinIni.Spared e.signed e.dist file (ascii "server") key.text := by
  intro file hfile k hk
  have hget := storeOf_bytes h key
  rw [hnone, Option.mem_def.mp hfile, MinIni.lookup, Option.bind_some] at hget
  rw [MinIni.offsetOf_eq_none MinIni.sectionOk_server.noNul (keyOk_text e.signed key).noNul
    (h file hfile) hget.symm] at hk
  cases hk

/-- The file is there afterwards, with these values. -/
def Leaves (e : Env) (r : Except Fault Files) (f : ConfigFile) : Prop :=
  ∃ disk', r = .ok disk' ∧ MinIni.HasFile e.filename disk' ∧ storeOf e disk' = f

/-- The file after a put under a key that has no value yet. -/
theorem puts_storeOf (hp : MinIni.PlaceOk e.canWrite e.filename) (h : TextOrAbsent e disk)
    (key : ConfigKey) (hnone : storeOf e disk key = none) (v : IniValue)
    (hv : MinIni.PutOk e.signed (ascii "server") key.text v.bytes) :
    Leaves e (iniPuts e key v.bytes disk) (LwMix.iniPuts key v (storeOf e disk)) := by
  obtain ⟨ops, hok, hrun, -⟩ := MinIni.run_ops (e.below key) hv.toPutFits hp.name hp.file
    hp.temp h (spared_of_none h.noNul key hnone)
  have htext := MinIni.textFile_newFile (e.below key) hv.toPutFits h
  have hdoc := MinIni.document_newFile (e.below key) hv h
  have hfile : MinIni.HasFile e.filename (disk.run ops) := ⟨_, hrun, htext⟩
  refine ⟨disk.run ops, ?_, hfile, ?_⟩
  · unfold iniPuts
    rw [hok]
    rfl
  · have hto : TextOrAbsent e (disk.run ops) := fun file hf => by
      rw [hrun] at hf
      exact Option.mem_some_iff.mp hf ▸ htext
    funext key'
    apply Option.map_injective bytes_injective
    rw [storeOf_bytes hto.noNul, MinIni.lookup_eq, hrun, MinIni.diskDocument, Option.getD_some, hdoc]
    unfold LwMix.iniPuts
    by_cases hkey : key' = key
    · subst hkey
      rw [Document.get_set_self, Function.update_self]
      rfl
    · rw [Document.get_set_of_ne (.inr (mt (lower_text_inj _ _).mp hkey)),
        Function.update_of_ne hkey, storeOf_bytes h.noNul, MinIni.lookup_eq]

/-- A short value of visible characters can be put under every key. -/
theorem putOk_text (key : ConfigKey) (hv : MinIni.Plain e.signed value)
    (hlen : value.length ≤ 496) : MinIni.PutOk e.signed (ascii "server") key.text value := by
  have := text_length_le key
  exact MinIni.putOk_of_plain MinIni.sectionOk_server (keyOk_text e.signed key) hv (by omega)

theorem textOrAbsent_of_hasFile (h : MinIni.HasFile e.filename disk) : TextOrAbsent e disk := by
  obtain ⟨bytes, hsome, htext⟩ := h
  intro file hf
  rw [hsome] at hf
  exact Option.mem_some_iff.mp hf ▸ htext

theorem ne_none_of_hasFile (h : MinIni.HasFile e.filename disk) : disk e.filename ≠ none := by
  obtain ⟨bytes, hsome, -⟩ := h
  rw [hsome]
  exact Option.some_ne_none bytes

theorem toInt_long (v : BitVec 32) :
    longMin true ≤ v.toInt ∧ v.toInt ≤ longMax true := by
  have h₁ := BitVec.le_toInt v
  have h₂ := BitVec.toInt_lt (x := v)
  simp only [longMin, longMax, ↓reduceIte]
  omega

/-- **`ini_puts`** is the one of the store. -/
theorem iniPuts_storeOf (hp : MinIni.PlaceOk e.canWrite e.filename) (h : TextOrAbsent e disk)
    (key : ConfigKey) (hnone : storeOf e disk key = none) (v : IniValue)
    (hv : MinIni.Plain e.signed v.bytes) (hlen : v.bytes.length ≤ 496) :
    Leaves e (iniPuts e key v.bytes disk) (LwMix.iniPuts key v (storeOf e disk)) :=
  puts_storeOf hp h key hnone v (putOk_text key hv hlen)

/-- **`ini_putl`** of an `int` is the one of the store. -/
theorem iniPutl_storeOf (hp : MinIni.PlaceOk e.canWrite e.filename) (h : TextOrAbsent e disk)
    (key : ConfigKey) (hnone : storeOf e disk key = none) (v : BitVec 32) :
    Leaves e (iniPutl e key v.toInt disk) (LwMix.iniPutl key v.toInt (storeOf e disk)) := by
  have hlen := MinIni.length_long2str_le (toInt_long v)
  have hput := iniPuts_storeOf hp h key hnone ⟨long2str v.toInt, zero_not_mem_long2str _⟩
    (MinIni.plain_long2str e.signed _) (show (long2str v.toInt).length ≤ 496 by omega)
  unfold iniPutl MinIni.iniPutl
  rw [MinIni.long2strBuffer_eq (toInt_long v)]
  exact hput

theorem Leaves.puts (h : Leaves e r f) (hp : MinIni.PlaceOk e.canWrite e.filename)
    (key : ConfigKey) (hnone : f key = none) (v : IniValue) (hv : MinIni.Plain e.signed v.bytes)
    (hlen : v.bytes.length ≤ 496) :
    Leaves e (do iniPuts e key v.bytes (← r)) (LwMix.iniPuts key v f) := by
  obtain ⟨disk, rfl, hfile, rfl⟩ := h
  exact iniPuts_storeOf hp (textOrAbsent_of_hasFile hfile) key hnone v hv hlen

theorem Leaves.putl (h : Leaves e r f) (hp : MinIni.PlaceOk e.canWrite e.filename)
    (key : ConfigKey) (hnone : f key = none) (v : BitVec 32) :
    Leaves e (do iniPutl e key v.toInt (← r)) (LwMix.iniPutl key v.toInt f) := by
  obtain ⟨disk, rfl, hfile, rfl⟩ := h
  exact iniPutl_storeOf hp (textOrAbsent_of_hasFile hfile) key hnone v

/-! ## The load -/

theorem plain_nil (signed : Bool) : MinIni.Plain signed [] := fun _ h => nomatch h

theorem storeOf_absent (h : disk e.filename = none) : storeOf e disk = fun _ => none := by
  funext key
  simp [storeOf, h, MinIni.lookup]

theorem noNul_name : (0 : UInt8) ∉ ascii "lwMIX" := by decide

theorem noNul_port : (0 : UInt8) ∉ ascii "8888" := by decide

theorem noNul_game : (0 : UInt8) ∉ ascii "WoS" := by decide

/-- The values of a new file, up to the key `public`. -/
def newValues (rand : Rand) (now : BitVec 32) : ConfigFile :=
  let f : ConfigFile := fun _ => none
  let f := LwMix.iniPuts .name ⟨ascii "lwMIX", noNul_name⟩ f
  let f := LwMix.iniPuts .port ⟨ascii "8888", noNul_port⟩ f
  let f := LwMix.iniPuts .serverRules .empty f
  let f := LwMix.iniPutl .id (generateServerID rand now).toInt f
  let f := LwMix.iniPutl .gameId 0 f
  let f := LwMix.iniPuts .gameName ⟨ascii "WoS", noNul_game⟩ f
  let f := LwMix.iniPuts .game ⟨ascii "WoS", noNul_game⟩ f
  let f := LwMix.iniPuts .info .empty f
  LwMix.iniPuts .world .empty f

theorem plain_ascii (signed : Bool) :
    ∀ s ∈ ["lwMIX", "8888", "WoS", "0"], MinIni.Plain signed (ascii s) := by
  intro s hs
  apply MinIni.plain_of_all
  revert s
  cases signed <;> decide

/-- The setup of an absent file is the one of the store. -/
theorem setupValues_storeOf (hp : MinIni.PlaceOk e.canWrite e.filename)
    (h : disk e.filename = none) (now : BitVec 32) :
    Leaves e (setupValues e now disk) (newValues e.rand now) := by
  have hlwmix := plain_ascii e.signed "lwMIX" (by simp)
  have hport := plain_ascii e.signed "8888" (by simp)
  have hwos := plain_ascii e.signed "WoS" (by simp)
  have habsent : TextOrAbsent e disk := by
    intro file hf
    rw [h] at hf
    cases hf
  have hfirst := iniPuts_storeOf hp habsent .name (by rw [storeOf_absent h]) ⟨ascii "lwMIX", by decide⟩ hlwmix (by decide)
  rw [storeOf_absent h] at hfirst
  unfold setupValues
  simp only [← bind_assoc]
  exact hfirst
    |>.puts hp .port rfl ⟨ascii "8888", by decide⟩ hport (by decide)
    |>.puts hp .serverRules rfl .empty (plain_nil _) (by decide)
    |>.putl hp .id rfl (generateServerID e.rand now)
    |>.putl hp .gameId rfl 0
    |>.puts hp .gameName rfl ⟨ascii "WoS", by decide⟩ hwos (by decide)
    |>.puts hp .game rfl ⟨ascii "WoS", by decide⟩ hwos (by decide)
    |>.puts hp .info rfl .empty (plain_nil _) (by decide)
    |>.puts hp .world rfl .empty (plain_nil _) (by decide)

theorem setupConfig_storeOf (hp : MinIni.PlaceOk e.canWrite e.filename)
    (h : disk e.filename = none) (now : BitVec 32) :
    Leaves e (setupConfig e now disk) (LwMix.setupConfig e.rand now) :=
  (setupValues_storeOf hp h now).puts hp .isPublic rfl ⟨ascii "0", by decide⟩
    (plain_ascii e.signed "0" (by simp)) (by decide)

/-- The load of a file, with the key `public` and its default. -/
theorem readValues_storeOf (h : NoNul e disk) (now : BitVec 32) (info : ServInfo)
    (isPublic : Bool) : (do
      let info ← readValues e now disk info
      let isPublic ← iniGetbool e .isPublic isPublic disk
      pure { info with isPublic }) =
      .ok { LwMix.readConfig e.lp64 e.rand now (storeOf e disk) info with
        isPublic := LwMix.iniGetbool (storeOf e disk) .isPublic isPublic } := by
  have hname := iniGets_storeOf (n := 31) h .name ⟨ascii "lwMIX", by decide⟩ rfl
  have hport := iniGets_storeOf (n := 15) h .port ⟨ascii "8888", by decide⟩ rfl
  have hrules := iniGets_storeOf (n := 127) h .serverRules .empty rfl
  have hgameName := iniGets_storeOf (n := 4) h .gameName ⟨ascii "WoS", by decide⟩ rfl
  have hgame := iniGets_storeOf (n := 4) h .game ⟨ascii "WoS", by decide⟩ rfl
  have hinfo := iniGets_storeOf (n := 127) h .info .empty rfl
  have hworld := iniGets_storeOf (n := 63) h .world .empty rfl
  unfold readValues
  simp only [IniValue.empty, Nat.reduceAdd] at hname hport hrules hgameName hgame hinfo hworld
  simp only [hname, hport, hrules, hgameName, hgame, hinfo, hworld, iniGetl_storeOf h .id _ rfl,
    iniGetl_storeOf h .gameId _ rfl, iniGetbool_storeOf h .isPublic _ rfl]
  rfl

/-- The load of a file is the one of the store. -/
theorem readConfig_storeOf (h : NoNul e disk) (now : BitVec 32) (info : ServInfo) :
    readConfig e now disk info =
      .ok (LwMix.readConfig e.lp64 e.rand now (storeOf e disk) info) :=
  readValues_storeOf h now info false

/-- **The load of the configuration** from the bytes of the file is the one of the store. -/
theorem loadLWMIXConfig_storeOf (hp : MinIni.PlaceOk e.canWrite e.filename)
    (h : NoNul e disk) (clock : Clock) (info : ServInfo) :
    ∃ disk' info', loadLWMIXConfig e clock disk info = .ok (disk', info') ∧
      disk' e.filename ≠ none ∧ NoNul e disk' ∧
        (storeOf e disk', info') = LwMix.loadLWMIXConfig e.lp64 e.rand clock
          ((disk e.filename).map fun _ => storeOf e disk) info := by
  unfold loadLWMIXConfig LwMix.loadLWMIXConfig
  cases hfile : disk e.filename with
  | none =>
    obtain ⟨disk', hok, hthere, hstore⟩ := setupConfig_storeOf hp hfile clock.setup
    have hread := readConfig_storeOf (textOrAbsent_of_hasFile hthere).noNul clock.load info
    refine ⟨disk', LwMix.readConfig e.lp64 e.rand clock.load (storeOf e disk') info, ?_,
      ne_none_of_hasFile hthere, (textOrAbsent_of_hasFile hthere).noNul, ?_⟩
    · simp only [hok]
      show (do pure (disk', ← readConfig e clock.load disk' info)) = _
      rw [hread]
      rfl
    · rw [hstore]
      rfl
  | some file =>
    have hread := readConfig_storeOf h clock.load info
    refine ⟨disk, LwMix.readConfig e.lp64 e.rand clock.load (storeOf e disk) info, ?_,
      by simp [hfile], h, ?_⟩
    · show (do pure (disk, ← readConfig e clock.load disk info)) = _
      rw [hread]
      rfl
    · rfl

/-! ## Starts -/

theorem sampleEnv_apart (key : ConfigKey) : (⟨1024, -4096⟩ : MinIni.Place).Apart key.size := by
  cases key <;> decide

/-- A machine with `mix.cfg`, on which the generated id is the time. -/
def sampleEnv : Env where
  signed := true
  lp64 := true
  rand := seedRand
  dist := 640
  below := fun _ => 0
  place := fun _ => ⟨1024, -4096⟩
  canWrite := MinIni.allWritable
  filename := ascii "mix.cfg"
  apart := sampleEnv_apart

theorem noNul_sample : NoNul sampleEnv MinIni.sampleDisk := fun _ hf =>
  (MinIni.sampleDisk_text _ hf).noNul

/-- Starts of the server on the store. -/
def storeStarts (lp64 : Bool) (rand : Rand) : List Clock → Option ConfigFile → List ServInfo
  | [], _ => []
  | clock :: clocks, file =>
    let (f, info) := LwMix.loadLWMIXConfig lp64 rand clock file .blank
    info :: storeStarts lp64 rand clocks (some f)

/-- **Starts refine those on the store**: whatever the bytes of the file, no start reaches a fault,
and each of them loads what the values of the file say. -/
theorem starts_refine (hp : MinIni.PlaceOk e.canWrite e.filename) (h : NoNul e disk)
    (clocks : List Clock) : startAll e clocks disk =
      .ok (storeStarts e.lp64 e.rand clocks ((disk e.filename).map fun _ => storeOf e disk)) := by
  induction clocks generalizing disk with
  | nil => rfl
  | cons clock clocks ih =>
    obtain ⟨disk', info', hok, hthere, hnul, hstore⟩ := loadLWMIXConfig_storeOf hp h clock .blank
    obtain ⟨file, hfile⟩ := Option.ne_none_iff_exists'.mp hthere
    have hrest := ih hnul
    rw [hfile, Option.map_some] at hrest
    rw [startAll, hok]
    show (do pure (info' :: (← startAll e clocks disk'))) = _
    rw [hrest, storeStarts, ← hstore]
    rfl

/-- The file has a name, but no id. -/
theorem starts_refine_sample :
    (startAll sampleEnv [⟨0, 0⟩, ⟨1, 1⟩] MinIni.sampleDisk).toOption.map
      (·.map fun info => (info.name.bytes, info.id)) = some [(ascii "Bob", 0), (ascii "Bob", 1)] := by
  rw [starts_refine ⟨MinIni.nameOk_sample, rfl, rfl⟩ noNul_sample]
  decide

/-- Every start on a file that is there loads its values. -/
theorem startAll_file (h : NoNul e disk) (hthere : disk e.filename ≠ none)
    (clocks : List Clock) : startAll e clocks disk = .ok (clocks.map fun clock =>
      LwMix.readConfig e.lp64 e.rand clock.load (storeOf e disk) .blank) := by
  induction clocks with
  | nil => rfl
  | cons clock clocks ih =>
    obtain ⟨file, hfile⟩ := Option.ne_none_iff_exists'.mp hthere
    unfold startAll loadLWMIXConfig
    rw [hfile]
    show (do
      let (disk, info) ← (do pure (disk, ← readConfig e clock.load disk .blank))
      pure (info :: (← startAll e clocks disk))) = _
    rw [readConfig_storeOf h]
    show (do pure (_ :: (← startAll e clocks disk))) = _
    rw [ih]
    rfl

/-- The file has an id, or there is no file. -/
def HasId (e : Env) (disk : Files) : Prop :=
  disk e.filename = none ∨ HasValue (storeOf e disk) .id

/-- **Starts.** All of them load the same `server_info` exactly if the file is absent at first or has
an id, or all of them generate the same one. -/
theorem starts_same_iff (hp : MinIni.PlaceOk e.canWrite e.filename) (h : NoNul e disk)
    (clock : Clock) (clocks : List Clock) :
    ∃ info infos, startAll e (clock :: clocks) disk = .ok (info :: infos) ∧
      ((∀ info' ∈ infos, info' = info) ↔ HasId e disk ∨ ∀ clock' ∈ clocks,
        generateServerID e.rand clock'.load = generateServerID e.rand clock.load) := by
  obtain ⟨disk', info', hok, hthere, hnul, hstore⟩ := loadLWMIXConfig_storeOf hp h clock .blank
  rw [LwMix.loadLWMIXConfig.eq_def, Prod.mk.injEq] at hstore
  refine ⟨info', clocks.map fun clock =>
    LwMix.readConfig e.lp64 e.rand clock.load (storeOf e disk') .blank, ?_, ?_⟩
  · rw [startAll, hok]
    show (do pure (info' :: (← startAll e clocks disk'))) = _
    rw [startAll_file hnul hthere]
    rfl
  · have hid : HasValue (storeOf e disk') .id ↔ HasId e disk := by
      unfold HasId
      rw [hstore.1]
      cases hd : disk e.filename with
      | none => simp [hasValue_setup]
      | some file => simp
    rw [hstore.2, ← hstore.1, ← hid]
    simp only [List.mem_map, forall_exists_index, and_imp, forall_apply_eq_imp_iff₂,
      readConfig_eq_iff]
    by_cases hv : HasValue (storeOf e disk') .id
    · simp [hv]
    · simp [hv, eq_comm]

theorem starts_same_iff_sample : ∃ info infos,
    startAll sampleEnv [⟨0, 0⟩, ⟨1, 1⟩] (fun _ => none) = .ok (info :: infos) ∧
      ∀ info' ∈ infos, info' = info :=
  Exists.imp (fun _ => Exists.imp fun _ h => ⟨h.1, h.2.mpr (.inl (.inl rfl))⟩)
    (starts_same_iff ⟨MinIni.nameOk_sample, rfl, rfl⟩ (fun _ hf => by cases hf) ⟨0, 0⟩ [⟨1, 1⟩])

end OnDisk

end LwMix
