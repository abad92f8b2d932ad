import LwMix.Base.Strtol
import LwMix.Types
import Mathlib.Logic.Function.Basic

/-!
# The configuration (`common.c`, over `minIni.c`)

The config file is a store of values under the keys of the section `[server]`. The clock readings of
a call and the results of `rand` after each `srand` are arguments.

* `iniGets`, `iniGetl`, `iniGetbool`, `iniPuts`, `iniPutl`: the operations of `minIni` on the store.
* `generateServerID`, `loadLWMIXConfig`: the code.
* `load_first_run`: the id of a first run is the one that was put into the file.
* `load_twice_iff`, `loadsSame_iff`: when a second load leaves the same `server_info`.
-/

namespace LwMix

/-- The keys of the section `[server]`. -/
inductive ConfigKey where
  | name
  | port
  | serverRules
  | id
  | gameId
  | gameName
  | game
  | info
  | world
  | isPublic
  deriving DecidableEq, Repr

/-- A value of the file. -/
structure IniValue where
  bytes : List UInt8
  noNul : 0 ∉ bytes
  deriving Repr

theorem zero_not_mem_nil : (0 : UInt8) ∉ [] := List.not_mem_nil

/-- The empty value. -/
def IniValue.empty : IniValue := ⟨[], zero_not_mem_nil⟩

/-- The config file. -/
abbrev ConfigFile := ConfigKey → Option IniValue

theorem zero_not_mem_long2str (v : Int) : 0 ∉ long2str v := by
  unfold long2str
  intro h
  rcases List.mem_append.mp h with h | h
  · split at h
    · revert h
      decide
    · cases h
  · exact not_mem_numeral (by decide) (by decide) (by decide) h

/-! ## `minIni` -/

/-- `ini_puts`. -/
def iniPuts (key : ConfigKey) (v : IniValue) (f : ConfigFile) : ConfigFile :=
  Function.update f key (some v)

/-- `ini_putl`. -/
def iniPutl (key : ConfigKey) (v : Int) (f : ConfigFile) : ConfigFile :=
  iniPuts key ⟨long2str v, zero_not_mem_long2str v⟩ f

/-- `ini_gets`: the value, or the default if the key is missing, cut to the buffer. -/
def iniGets {n : ℕ} (f : ConfigFile) (key : ConfigKey) (defValue : IniValue) : CStr (n + 1) where
  bytes := ((f key).getD defValue).bytes.take n
  noNul h := ((f key).getD defValue).noNul (List.mem_of_mem_take h)
  fits := by
    rw [List.length_take]
    omega

/-- `ini_getl`, with a `char[64]` for the value. -/
def iniGetl (lp64 : Bool) (f : ConfigFile) (key : ConfigKey) (defValue : Int) : Int :=
  let localBuffer : CStr 64 := iniGets f key .empty
  if localBuffer.bytes.length = 0 then defValue
  else if localBuffer.bytes.length ≥ 2 ∧ localBuffer.bytes[1]?.map toUpper = some 0x58 then
    strtol lp64 16 localBuffer.bytes
  else strtol lp64 10 localBuffer.bytes

/-- `ini_getbool`, with a `char[2]` for the value. -/
def iniGetbool (f : ConfigFile) (key : ConfigKey) (defValue : Bool) : Bool :=
  let localBuffer : CStr 2 := iniGets f key .empty
  let c := toUpper (localBuffer.bytes.headD 0)
  if c = 0x59 ∨ c = 0x31 ∨ c = 0x54 then true
  else if c = 0x4E ∨ c = 0x30 ∨ c = 0x46 then false
  else defValue

/-! ## `common.c` -/

/-- The results of `rand` after `srand(seed)`, which are not negative. -/
abbrev Rand := BitVec 32 → ℕ → BitVec 31

/-- `generateServerID`. The shifts of an `int` wrap. -/
def generateServerID (rand : Rand) (now : BitVec 32) : BitVec 32 :=
  let rand := fun i => (rand now i).setWidth 32
  let id := rand 0
  let id := id <<< 4
  let id := id ^^^ rand 1
  let id := id <<< 4
  let id := id ^^^ (rand 2 <<< 10)
  let id := id ^^^ rand 3
  let id := id <<< 4
  let id := id ^^^ (rand 4 <<< 10)
  let id := id ^^^ rand 5
  id

/-- The clock readings of a call: at the setup of a new file, and at the load. -/
structure Clock where
  setup : BitVec 32
  load : BitVec 32
  deriving DecidableEq, Repr

/-- The setup of a new file. -/
def setupConfig (rand : Rand) (now : BitVec 32) : ConfigFile :=
  let f : ConfigFile := fun _ => none
  let f := iniPuts .name ⟨ascii "lwMIX", by decide⟩ f
  let f := iniPuts .port ⟨ascii "8888", by decide⟩ f
  let f := iniPuts .serverRules .empty f
  let f := iniPutl .id (generateServerID rand now).toInt f
  let f := iniPutl .gameId 0 f
  let f := iniPuts .gameName ⟨ascii "WoS", by decide⟩ f
  let f := iniPuts .game ⟨ascii "WoS", by decide⟩ f
  let f := iniPuts .info .empty f
  let f := iniPuts .world .empty f
  iniPuts .isPublic ⟨ascii "0", by decide⟩ f

/-- The load of the file into `server_info`. -/
def readConfig (lp64 : Bool) (rand : Rand) (now : BitVec 32) (f : ConfigFile) (info : ServInfo) :
    ServInfo :=
  let info := { info with name := iniGets f .name ⟨ascii "lwMIX", by decide⟩ }
  let info := { info with port := iniGets f .port ⟨ascii "8888", by decide⟩ }
  let info := { info with serverRules := iniGets f .serverRules .empty }
  let info := { info with
    id := BitVec.ofInt 32 (iniGetl lp64 f .id (generateServerID rand now).toInt) }
  let info := { info with gameId := BitVec.ofInt 32 (iniGetl lp64 f .gameId 0) }
  let info := { info with game := iniGets f .gameName ⟨ascii "WoS", by decide⟩ }
  let info := { info with game := iniGets f .game ⟨ascii "WoS", by decide⟩ }
  let info := { info with info := iniGets f .info .empty }
  let info := { info with world := iniGets f .world .empty }
  { info with isPublic := iniGetbool f .isPublic false }

/-- `loadLWMIXConfig`, on a file that is absent and can be created, or on a file with values. -/
def loadLWMIXConfig (lp64 : Bool) (rand : Rand) (clock : Clock) (file : Option ConfigFile)
    (info : ServInfo) : ConfigFile × ServInfo :=
  let f := match file with
    | none => setupConfig rand clock.setup
    | some f => f
  (f, readConfig lp64 rand clock.load f info)

/-! ## Loading twice -/

section Load

variable {lp64 : Bool} {rand : Rand} {clock clock' : Clock} {f : ConfigFile} {key : ConfigKey}
  {info : ServInfo} {file : Option ConfigFile} {now now' : BitVec 32}

/-- The key is in the file, with a value that is not empty. -/
def HasValue (f : ConfigFile) (key : ConfigKey) : Prop := ∃ v, f key = some v ∧ v.bytes ≠ []

/-- `ini_getl` returns its default exactly if there is no value. -/
theorem iniGetl_default (h : ¬ HasValue f key) (d : Int) : iniGetl lp64 f key d = d := by
  have hnil : ((f key).getD .empty).bytes = [] := by
    cases hf : f key with
    | none => rfl
    | some v => exact Classical.byContradiction fun hv => h ⟨v, hf, hv⟩
  simp [iniGetl, iniGets, hnil]

theorem iniGetl_value (h : HasValue f key) (d d' : Int) :
    iniGetl lp64 f key d = iniGetl lp64 f key d' := by
  obtain ⟨v, hf, hv⟩ := h
  have hne : (v.bytes.take 63).length ≠ 0 := by
    have := List.length_pos_iff.mpr hv
    rw [List.length_take]
    omega
  simp only [iniGetl, iniGets, hf, Option.getD_some, hne, ↓reduceIte]

/-- The text of an `int` is read back. -/
theorem iniGetl_long2str {v : Int} (h : intMin ≤ v ∧ v ≤ intMax)
    (hf : f key = some ⟨long2str v, zero_not_mem_long2str v⟩) (d : Int) :
    iniGetl lp64 f key d = v := by
  have hlen := long2str_length_le h
  have htake : (long2str v).take 63 = long2str v := List.take_of_length_le (by omega)
  have hne : (long2str v).length ≠ 0 := by
    have := numeral_ne_nil 10 v.natAbs
    simp [long2str, this]
  have hx : ¬ ((long2str v).length ≥ 2 ∧ (long2str v)[1]?.map toUpper = some 0x58) := by
    rintro ⟨-, hx⟩
    obtain ⟨c, hc, hup⟩ := Option.map_eq_some_iff.mp hx
    exact long2str_second v c hc hup
  have hrange : longMin lp64 ≤ v ∧ v ≤ longMax lp64 := by
    unfold intMin intMax at h
    cases lp64 <;> simp only [longMin, longMax, Bool.false_eq_true, ↓reduceIte] <;> omega
  simp only [iniGetl, iniGets, hf, Option.getD_some, htake, hne, hx, ↓reduceIte,
    strtol_long2str hrange]

/-- The loaded id. -/
theorem readConfig_id : (readConfig lp64 rand now f info).id =
    BitVec.ofInt 32 (iniGetl lp64 f .id (generateServerID rand now).toInt) := rfl

/-- The id that the setup stores. -/
theorem setupConfig_id : setupConfig rand now .id =
    some ⟨long2str (generateServerID rand now).toInt, zero_not_mem_long2str _⟩ := by
  simp [setupConfig, iniPuts, iniPutl]

/-- **A first run.** The id is the one that the setup has put into the file. -/
theorem load_first_run :
    (loadLWMIXConfig lp64 rand clock none info).2.id = generateServerID rand clock.setup := by
  have hrange : intMin ≤ (generateServerID rand clock.setup).toInt ∧
      (generateServerID rand clock.setup).toInt ≤ intMax := by
    have h₁ := BitVec.le_toInt (generateServerID rand clock.setup)
    have h₂ := BitVec.toInt_lt (x := generateServerID rand clock.setup)
    unfold intMin intMax
    omega
  show (readConfig lp64 rand clock.load (setupConfig rand clock.setup) info).id = _
  rw [readConfig_id, iniGetl_long2str hrange setupConfig_id, BitVec.ofInt_toInt]

/-- A second load of the same file replaces everything that the first one has set. -/
theorem readConfig_readConfig : readConfig lp64 rand now' f (readConfig lp64 rand now f info) =
    readConfig lp64 rand now' f info := rfl

/-- Two loads of a file differ in the default id only. -/
theorem readConfig_eq_iff :
    readConfig lp64 rand now' f info = readConfig lp64 rand now f info ↔
      HasValue f .id ∨ generateServerID rand now = generateServerID rand now' := by
  constructor
  · intro h
    by_cases hv : HasValue f .id
    · exact .inl hv
    · have hid := congrArg ServInfo.id h
      simp only [readConfig_id, iniGetl_default hv, BitVec.ofInt_toInt] at hid
      exact .inr hid.symm
  · rintro (hv | heq)
    · unfold readConfig
      rw [iniGetl_value hv (generateServerID rand now').toInt (generateServerID rand now).toInt]
    · unfold readConfig
      rw [heq]

/-- A second call leaves the same `server_info` as the first one. -/
def LoadsSame (lp64 : Bool) (rand : Rand) (clock clock' : Clock) (file : Option ConfigFile)
    (info : ServInfo) : Prop :=
  let r := loadLWMIXConfig lp64 rand clock file info
  let r' := loadLWMIXConfig lp64 rand clock' (some r.1) r.2
  r'.2 = r.2

/-- The file of a first run has an id. -/
theorem hasValue_setup : HasValue (setupConfig rand now) .id := by
  refine ⟨_, setupConfig_id, ?_⟩
  have := numeral_ne_nil 10 (generateServerID rand now).toInt.natAbs
  simp [long2str, this]

/-- For given clock readings, only a generated default makes a difference. -/
theorem load_twice_iff : LoadsSame lp64 rand clock clock' file info ↔
    (∀ f ∈ file, HasValue f .id) ∨
      generateServerID rand clock.load = generateServerID rand clock'.load := by
  unfold LoadsSame loadLWMIXConfig
  simp only [readConfig_readConfig, readConfig_eq_iff]
  cases file with
  | none => simp [hasValue_setup]
  | some f => simp

/-- The results of `rand` that make the generated id the seed. -/
def seedRand : Rand := fun seed i => if i = 5 then seed.setWidth 31 else 0

/-- **Loading twice.** For all clock readings and all results of `rand` the second load leaves the
same `server_info`, exactly if the file is absent or has an id. -/
theorem loadsSame_iff (lp64 : Bool) (file : Option ConfigFile) (info : ServInfo) :
    (∀ rand clock clock', LoadsSame lp64 rand clock clock' file info) ↔
      file = none ∨ ∃ f, file = some f ∧ HasValue f .id := by
  constructor
  · intro h
    rcases load_twice_iff.mp (h seedRand ⟨0, 0⟩ ⟨1, 1⟩) with hv | heq
    · cases file with
      | none => exact .inl rfl
      | some f => exact .inr ⟨f, rfl, hv f rfl⟩
    · exact absurd heq (by decide)
  · rintro h rand clock clock'
    refine load_twice_iff.mpr (.inl fun f hf => ?_)
    rcases h with rfl | ⟨_, rfl, hv⟩
    · cases hf
    · cases hf
      exact hv

/-- A file without an id: the id of the second load is another one. -/
theorem not_loadsSame_empty : ∃ rand clock clock', ¬ LoadsSame true rand clock clock'
    (some fun _ => none) ServInfo.blank := by
  refine ⟨seedRand, ⟨0, 0⟩, ⟨1, 1⟩, fun h => ?_⟩
  have hid : (1 : BitVec 32) = 0 := congrArg ServInfo.id h
  exact absurd hid (by decide)

end Load

end LwMix
