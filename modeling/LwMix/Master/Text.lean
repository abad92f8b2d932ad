import LwMix.Base.Cut
import LwMix.Master.CheckIn

/-!
# Reading the text of a check-in

The nine fields of a check-in are joined by `,` and `=`, and nothing is escaped.

* `readCheckIn`: the reader that cuts the text at the first marker of each field.
* `readCheckIn_text`, `checkInText_injective`: it reads every text whose fields do not contain the
  marker of the next field, so these texts determine what they report.
* `checkInText_collisions`: for each of the three fields that can contain that marker, two values
  with one text.
-/

namespace LwMix

/-- What a check-in reports. -/
structure CheckInReport where
  versionInt : BitVec 32
  playerCount : Int
  gameId : BitVec 32
  game : List UInt8
  host : List UInt8
  id : BitVec 32
  port : List UInt8
  info : List UInt8
  name : List UInt8
  deriving DecidableEq, Repr

/-- The fields of `server_info` that a check-in reports. -/
def ServInfo.report (info : ServInfo) : CheckInReport where
  versionInt := info.versionInt
  playerCount := info.playerCount
  gameId := info.gameId
  game := info.game.bytes
  host := info.host.bytes
  id := info.id
  port := info.port.bytes
  info := info.info.bytes
  name := info.name.bytes

/-- The reader of a check-in. -/
def readCheckIn (text : List UInt8) : Option CheckInReport := do
  let (_, text) ← cut (ascii "!version=") text
  let (version, text) ← cut (ascii ",nump=") text
  let (nump, text) ← cut (ascii ",gameid=") text
  let (gameId, text) ← cut (ascii ",game=") text
  let (game, text) ← cut (ascii ",host=") text
  let (host, text) ← cut (ascii ",id=") text
  let (id, text) ← cut (ascii ",port=") text
  let (port, text) ← cut (ascii ",info=") text
  let (info, name) ← cut (ascii ",name=") text
  pure {
    versionInt := BitVec.ofNat 32 (readNumeral 10 version)
    playerCount := (BitVec.ofNat 32 (readNumeral 10 nump)).toInt
    gameId := BitVec.ofNat 32 (readNumeral 10 gameId)
    game, host
    id := BitVec.ofNat 32 (readNumeral 16 id)
    port, info, name }

/-- No free text contains the marker of the field after it, and the counter is an `int`. -/
structure Separable (info : ServInfo) : Prop where
  count : intMin ≤ info.playerCount ∧ info.playerCount ≤ intMax
  host : ¬ ascii ",id=" <:+: info.host.bytes
  port : ¬ ascii ",info=" <:+: info.port.bytes
  info : ¬ ascii ",name=" <:+: info.info.bytes

variable {info info' : ServInfo}

theorem comma_not_mem_decimal (n : ℕ) : 0x2C ∉ numeral 10 n :=
  not_mem_numeral (by decide) (by decide) (by decide)

theorem comma_not_mem_hex (n : ℕ) : 0x2C ∉ numeral 16 n :=
  not_mem_numeral (by decide) (by decide) (by decide)

/-- An `int` that was printed with `%u`. -/
theorem toInt_ofNat_emod {c : Int} (h : intMin ≤ c ∧ c ≤ intMax) :
    (BitVec.ofNat 32 (c % 2 ^ 32).toNat).toInt = c := by
  unfold intMin intMax at h
  have hnat : ((c % 2 ^ 32).toNat : Int) = c % 2 ^ 32 := Int.toNat_of_nonneg (by omega)
  rw [BitVec.toInt_ofNat', hnat, Int.bmod_def]
  omega

/-- **The text of a check-in is read back.** -/
theorem readCheckIn_text (h : Separable info) :
    readCheckIn (checkInText info) = some info.report := by
  have hgame : ¬ ascii ",host=" <:+: info.game.bytes := fun hin => by
    have hlen := hin.length_le
    have := info.game.fits
    rw [show (ascii ",host=").length = 6 from rfl] at hlen
    omega
  unfold readCheckIn checkInText
  simp only [List.append_assoc]
  rw [cut_start (by decide)]
  simp only [Option.bind_eq_bind, Option.bind_some]
  rw [cut_append (by decide) (not_infix_of_not_mem (by decide) (comma_not_mem_decimal _))]
  simp only [Option.bind_some]
  rw [cut_append (by decide) (not_infix_of_not_mem (by decide) (comma_not_mem_decimal _))]
  simp only [Option.bind_some]
  rw [cut_append (by decide) (not_infix_of_not_mem (by decide) (comma_not_mem_decimal _))]
  simp only [Option.bind_some]
  rw [cut_append (by decide) hgame]
  simp only [Option.bind_some]
  rw [cut_append (by decide) h.host]
  simp only [Option.bind_some]
  rw [cut_append (by decide) (not_infix_of_not_mem (by decide) (comma_not_mem_hex _))]
  simp only [Option.bind_some]
  rw [cut_append (by decide) h.port]
  simp only [Option.bind_some]
  rw [cut_append (by decide) h.info]
  simp only [Option.bind_some, readNumeral_numeral (show 1 < 10 by decide) (show 10 ≤ 16 by decide),
    readNumeral_numeral (show 1 < 16 by decide) (show 16 ≤ 16 by decide), BitVec.ofNat_toNat,
    BitVec.setWidth_eq, toInt_ofNat_emod h.count]
  rfl

/-- **A check-in determines what it reports**, if no field contains the marker of the next one. -/
theorem checkInText_injective (h : Separable info) (h' : Separable info')
    (heq : checkInText info = checkInText info') : info.report = info'.report := by
  have hread := readCheckIn_text h
  rw [heq, readCheckIn_text h'] at hread
  exact (Option.some.inj hread).symm

/-- Two check-ins with commas and markers of other fields. -/
theorem checkInText_injective_commas : ∃ info info' : ServInfo,
    info.host.bytes = ascii "a,port=1" ∧ info'.host.bytes = ascii "a,port=2" ∧
      checkInText info ≠ checkInText info' := by
  let one : ServInfo := { ServInfo.blank with host := ⟨ascii "a,port=1", by decide, by decide⟩ }
  let two : ServInfo := { ServInfo.blank with host := ⟨ascii "a,port=2", by decide, by decide⟩ }
  have h₁ : Separable one := ⟨by decide, by decide, by decide, by decide⟩
  have h₂ : Separable two := ⟨by decide, by decide, by decide, by decide⟩
  refine ⟨one, two, rfl, rfl, fun heq => ?_⟩
  have hhost := congrArg CheckInReport.host (checkInText_injective h₁ h₂ heq)
  exact absurd hhost (by decide)

/-- **One text for two values**: the marker `,name=` in the text `info`, `,id=` in the text `host`,
and `,info=` in the text `port`. -/
theorem checkInText_collisions :
    (∃ info info' : ServInfo, info.info.bytes = ascii "a,name=b" ∧ info'.info.bytes = ascii "a" ∧
      info.name.bytes = ascii "c" ∧ info'.name.bytes = ascii "b,name=c" ∧
      checkInText info = checkInText info') ∧
    (∃ info info' : ServInfo, info.host.bytes = ascii "a,id=1,port=1" ∧
      info'.host.bytes = ascii "a" ∧ info.id = 2 ∧ info'.id = 1 ∧
      checkInText info = checkInText info') ∧
    (∃ info info' : ServInfo, info.port.bytes = ascii "1,info=a" ∧ info'.port.bytes = ascii "1" ∧
      checkInText info = checkInText info') := by
  refine ⟨⟨{ ServInfo.blank with
      info := ⟨ascii "a,name=b", by decide, by decide⟩, name := ⟨ascii "c", by decide, by decide⟩ },
    { ServInfo.blank with
      info := ⟨ascii "a", by decide, by decide⟩
      name := ⟨ascii "b,name=c", by decide, by decide⟩ }, rfl, rfl, rfl, rfl, by decide⟩,
    ⟨{ ServInfo.blank with
      host := ⟨ascii "a,id=1,port=1", by decide, by decide⟩, id := 2
      port := ⟨ascii "3", by decide, by decide⟩ },
    { ServInfo.blank with
      host := ⟨ascii "a", by decide, by decide⟩, id := 1
      port := ⟨ascii "1,id=2,port=3", by decide, by decide⟩ }, rfl, rfl, rfl, rfl, by decide⟩,
    ⟨{ ServInfo.blank with
      port := ⟨ascii "1,info=a", by decide, by decide⟩
      info := ⟨ascii "b", by decide, by decide⟩ },
    { ServInfo.blank with
      port := ⟨ascii "1", by decide, by decide⟩
      info := ⟨ascii "a,info=b", by decide, by decide⟩ }, rfl, rfl, by decide⟩⟩

end LwMix
