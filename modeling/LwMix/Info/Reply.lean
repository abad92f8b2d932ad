import LwMix.Base.Cut
import LwMix.Base.Numeral
import LwMix.Types

/-!
# The `'P'` reply of `serverInfoProvider` (`lwmix.c`)

The reply has two forms, with a world and without.

* `infoText`, `infoReply`: the code.
* `readInfo`: the reader that cuts a reply at the markers of its fields.
* `readInfo_plain`: it reads the form without a world.
* `infoReply_iff`: it reads a reply exactly if the world is empty. The other form has a space before
  the rules.
-/

namespace LwMix

/-- The end of both forms. -/
def hexTail (id now : BitVec 32) : List UInt8 :=
  ascii " //ID:" ++ numeral 16 id.toNat ++ ascii " //TM:" ++ numeral 16 now.toNat ++
    ascii " //US:1.1.26"

/-- The text of the reply. -/
def infoText (info : ServInfo) (now : BitVec 32) : List UInt8 :=
  if strncmp 64 info.world.bytes (ascii "") ≠ 0 then
    ascii "#name=" ++ info.name.bytes ++ ascii " [world=" ++ info.world.bytes ++
      ascii "] //Rules: " ++ info.serverRules.bytes ++ hexTail info.id now
  else
    ascii "#name=" ++ info.name.bytes ++ ascii " //Rules:" ++ info.serverRules.bytes ++
      hexTail info.id now

/-- `buffer` and `len` after the `'P'` branch. -/
def infoReply (info : ServInfo) (now : BitVec 32) (buffer : Buf 1024) :
    Except Fault (Buf 1024 × Int) := do
  let (buffer, len) ← snprintf buffer 0 1024 (infoText info now)
  pure (buffer, len + 1)

/-! ## The reader -/

/-- What a reply reports. -/
structure InfoReport where
  name : List UInt8
  world : List UInt8
  serverRules : List UInt8
  id : BitVec 32
  time : BitVec 32
  deriving DecidableEq, Repr

/-- The name and the world, and the text after the marker of the rules. -/
def readNames (text : List UInt8) : Option ((List UInt8 × List UInt8) × List UInt8) := do
  let (_, text) ← cut (ascii "#name=") text
  match cut (ascii " [world=") text with
  | some (name, text) => do
    let (world, text) ← cut (ascii "] //Rules:") text
    pure ((name, world), text)
  | none => do
    let (name, text) ← cut (ascii " //Rules:") text
    pure ((name, []), text)

/-- The rules, the id and the time. -/
def readRules (text : List UInt8) : Option (List UInt8 × BitVec 32 × BitVec 32) := do
  let (rules, text) ← cut (ascii " //ID:") text
  let (id, text) ← cut (ascii " //TM:") text
  let (time, _) ← cut (ascii " //US:") text
  pure (rules, BitVec.ofNat 32 (readNumeral 16 id), BitVec.ofNat 32 (readNumeral 16 time))

/-- The reader of a reply. -/
def readInfo (text : List UInt8) : Option InfoReport := do
  let (names, text) ← readNames text
  let (rules, id, time) ← readRules text
  pure ⟨names.1, names.2, rules, id, time⟩

/-- What a reply stands for. -/
def ServInfo.infoReport (info : ServInfo) (now : BitVec 32) : InfoReport :=
  ⟨info.name.bytes, info.world.bytes, info.serverRules.bytes, info.id, now⟩

/-- The markers of a reply. -/
def infoMarkers : List (List UInt8) :=
  [ascii " [world=", ascii "] //Rules:", ascii " //Rules:", ascii " //ID:", ascii " //TM:",
    ascii " //US:"]

/-- No free text contains a marker. -/
def NoMarkers (info : ServInfo) : Prop :=
  ∀ s ∈ infoMarkers, ¬ s <:+: info.name.bytes ∧ ¬ s <:+: info.world.bytes ∧
    ¬ s <:+: info.serverRules.bytes

/-! ## The two forms -/

section Forms

variable {name world rules text : List UInt8} {id now : BitVec 32}

theorem space_not_mem_hex (n : ℕ) : 0x20 ∉ numeral 16 n :=
  not_mem_numeral (by decide) (by decide) (by decide)

/-- No marker with a space is in the digits. -/
theorem not_infix_hex {sep : List UInt8} (hsep : 0x20 ∈ sep) (n : ℕ) : ¬ sep <:+: numeral 16 n :=
  not_infix_of_not_mem hsep (space_not_mem_hex n)

/-- The rules, the id and the time are read back. -/
theorem readRules_hexTail (h : ¬ ascii " //ID:" <:+: rules) :
    readRules (rules ++ hexTail id now) = some (rules, id, now) := by
  unfold readRules hexTail
  simp only [List.append_assoc]
  rw [cut_append (by decide) h]
  simp only [Option.bind_eq_bind, Option.bind_some]
  rw [cut_append (by decide) (not_infix_hex (by decide) _)]
  simp only [Option.bind_some]
  rw [show ascii " //US:1.1.26" = ascii " //US:" ++ ascii "1.1.26" from rfl,
    cut_append (by decide) (not_infix_hex (by decide) _)]
  simp only [Option.bind_some, readNumeral_numeral (show 1 < 16 by decide) (Nat.le_refl 16),
    BitVec.ofNat_toNat, BitVec.setWidth_eq]
  rfl

/-- The form with a world, up to the rules. -/
theorem readNames_world (hname : ¬ ascii " [world=" <:+: name)
    (hworld : ¬ ascii "] //Rules:" <:+: world) (text : List UInt8) :
    readNames (ascii "#name=" ++ name ++ ascii " [world=" ++ world ++ ascii "] //Rules:" ++ text) =
      some ((name, world), text) := by
  unfold readNames
  simp only [List.append_assoc]
  rw [cut_start (by decide)]
  simp only [Option.bind_eq_bind, Option.bind_some]
  rw [cut_append (by decide) hname]
  simp only
  rw [cut_append (by decide) hworld]
  rfl

/-- The marker of a world is not in the form without one. -/
theorem not_infix_world (hname : ¬ ascii " [world=" <:+: name)
    (hrules : ¬ ascii " [world=" <:+: rules) :
    ¬ ascii " [world=" <:+: name ++ (ascii " //Rules:" ++ (rules ++ hexTail id now)) := by
  -- After a free text or digits there is a space, which the marker has at its start only.
  have hspace : ∀ {s : List UInt8} {rest : List UInt8}, s.head? = some 0x20 →
      ∀ c ∈ (s ++ rest).head?, c ∉ (ascii " [world=").tail := by
    intro s rest hs c hc
    rw [List.head?_append, hs] at hc
    obtain rfl : 0x20 = c := by simpa using hc
    decide
  unfold hexTail
  simp only [List.append_assoc]
  refine not_infix_append hname (not_infix_append_left (by decide) ?_ (by decide)) (hspace rfl)
  refine not_infix_append hrules (not_infix_append_left (by decide) ?_ (by decide)) (hspace rfl)
  refine not_infix_append (not_infix_hex (by decide) _)
    (not_infix_append_left (by decide) ?_ (by decide)) (hspace rfl)
  have hlast : ∀ c ∈ (ascii " //US:1.1.26" ++ []).head?, c ∉ (ascii " [world=").tail := hspace rfl
  rw [List.append_nil] at hlast
  exact not_infix_append (not_infix_hex (by decide) _) (by decide) hlast

/-- **The form without a world is read back.** -/
theorem readInfo_plain (hname : ¬ ascii " [world=" <:+: name ∧ ¬ ascii " //Rules:" <:+: name)
    (hrules : ¬ ascii " [world=" <:+: rules ∧ ¬ ascii " //ID:" <:+: rules) :
    readInfo (ascii "#name=" ++ name ++ ascii " //Rules:" ++ rules ++ hexTail id now) =
      some ⟨name, [], rules, id, now⟩ := by
  have hnames : readNames (ascii "#name=" ++ name ++ ascii " //Rules:" ++ rules ++
      hexTail id now) = some ((name, []), rules ++ hexTail id now) := by
    unfold readNames
    simp only [List.append_assoc]
    rw [cut_start (by decide)]
    simp only [Option.bind_eq_bind, Option.bind_some]
    rw [cut_none (not_infix_world hname.1 hrules.1)]
    simp only
    rw [cut_append (by decide) hname.2]
    rfl
  unfold readInfo
  rw [hnames]
  simp only [Option.bind_eq_bind, Option.bind_some, readRules_hexTail hrules.2]
  rfl

/-- The form with a world, whatever stands between its marker and the rules. -/
theorem readInfo_world (hname : ¬ ascii " [world=" <:+: name)
    (hworld : ¬ ascii "] //Rules:" <:+: world) (text : List UInt8) :
    readInfo (ascii "#name=" ++ name ++ ascii " [world=" ++ world ++ ascii "] //Rules:" ++ text) =
      (readRules text).map fun r => ⟨name, world, r.1, r.2.1, r.2.2⟩ := by
  unfold readInfo
  rw [readNames_world hname hworld]
  simp only [Option.bind_eq_bind, Option.bind_some, Option.map_eq_bind]
  rfl

/-- The rules are not read back with a space before them. -/
theorem readRules_space (h : ¬ ascii " //ID:" <:+: rules) :
    ∀ r ∈ readRules (ascii " " ++ rules ++ hexTail id now), r.1 ≠ rules := by
  intro r hr heq
  by_cases hin : ascii " //ID:" <:+: ascii " " ++ rules
  · -- The marker is made of the space and the start of the rules: nothing is read.
    have hpre : ascii " //ID:" <+: ascii " " ++ rules := by
      rcases List.infix_cons_iff.mp hin with hpre | hin
      · exact hpre
      · exact absurd hin h
    obtain ⟨ys, hcut⟩ := cut_prefix_of (by simp [ascii])
      (hpre.trans (List.prefix_append _ (hexTail id now)))
    have hnil : rules = [] := by
      unfold readRules at hr
      rw [hcut] at hr
      simp only [Option.bind_eq_bind, Option.bind_some, Option.mem_def, Option.bind_eq_some_iff,
        Option.pure_def] at hr
      obtain ⟨_, -, _, -, hr⟩ := hr
      rw [← heq, ← Option.some.inj hr]
    rw [hnil] at hpre
    revert hpre
    decide
  · rw [readRules_hexTail hin] at hr
    have hlen := congrArg List.length ((congrArg Prod.fst (Option.some.inj hr)).trans heq)
    simp [ascii] at hlen

end Forms

/-! ## The reply -/

section Reply

variable {info : ServInfo} {now : BitVec 32} {buffer : Buf 1024}

/-- The test of the world. -/
theorem strncmp_world (w : CStr 64) : strncmp 64 w.bytes (ascii "") = 0 ↔ w.bytes = [] := by
  obtain ⟨bytes, noNul, -⟩ := w
  cases bytes with
  | nil => simp [strncmp, ascii]
  | cons x xs =>
    have hx : x ≠ 0 := fun h => noNul (by simp [h])
    have : x.toNat ≠ 0 := fun h => hx (UInt8.toNat_inj.mp h)
    simp [strncmp, ascii, hx, this]

theorem infoText_plain (h : info.world.bytes = []) : infoText info now =
    ascii "#name=" ++ info.name.bytes ++ ascii " //Rules:" ++ info.serverRules.bytes ++
      hexTail info.id now := by
  unfold infoText
  rw [if_neg (not_not.mpr ((strncmp_world info.world).mpr h))]

theorem infoText_world (h : info.world.bytes ≠ []) : infoText info now =
    ascii "#name=" ++ info.name.bytes ++ ascii " [world=" ++ info.world.bytes ++
      ascii "] //Rules:" ++ (ascii " " ++ info.serverRules.bytes ++ hexTail info.id now) := by
  unfold infoText
  rw [if_pos (mt (strncmp_world info.world).mp h)]
  simp only [List.append_assoc]
  rfl

theorem hexTail_length_le (id now : BitVec 32) : (hexTail id now).length ≤ 40 := by
  have hid : id.toNat < 16 ^ 8 := id.isLt
  have hnow : now.toNat < 16 ^ 8 := now.isLt
  have h₁ := numeral_length_le (by decide) (by decide) hid
  have h₂ := numeral_length_le (by decide) (by decide) hnow
  unfold hexTail
  simp only [List.length_append, show (ascii " //ID:").length = 6 from rfl,
    show (ascii " //TM:").length = 6 from rfl, show (ascii " //US:1.1.26").length = 12 from rfl]
  omega

/-- The text fits the buffer. -/
theorem infoText_length_le (info : ServInfo) (now : BitVec 32) :
    (infoText info now).length ≤ 287 := by
  have := hexTail_length_le info.id now
  have := info.name.fits
  have := info.world.fits
  have := info.serverRules.fits
  unfold infoText
  split <;> simp only [List.length_append, show (ascii "#name=").length = 6 from rfl,
    show (ascii " [world=").length = 8 from rfl, show (ascii "] //Rules: ").length = 11 from rfl,
    show (ascii " //Rules:").length = 9 from rfl] <;> omega

theorem zero_not_mem_hexTail (id now : BitVec 32) : 0 ∉ hexTail id now := by
  have h : ∀ n, 0 ∉ numeral 16 n := fun n => not_mem_numeral (by decide) (by decide) (by decide)
  unfold hexTail
  simp only [List.mem_append, not_or]
  exact ⟨⟨⟨⟨by decide, h _⟩, by decide⟩, h _⟩, by decide⟩

theorem zero_not_mem_infoText (info : ServInfo) (now : BitVec 32) : 0 ∉ infoText info now := by
  unfold infoText
  split <;> simp only [List.mem_append, not_or, info.name.noNul, info.world.noNul,
    info.serverRules.noNul, zero_not_mem_hexTail, not_false_eq_true, and_true] <;> decide

/-- The whole text and its terminator are put into the buffer. -/
theorem infoReply_eq_ok (info : ServInfo) (now : BitVec 32) (buffer : Buf 1024) :
    ∃ buffer', infoReply info now buffer = .ok (buffer', (infoText info now).length + 1) ∧
      buffer'.bytes = infoText info now ++ [0] ++ buffer.bytes.drop
        ((infoText info now).length + 1) := by
  have hlen := infoText_length_le info now
  obtain ⟨b, hprint, hbytes⟩ := snprintf_text buffer (show (infoText info now).length < 1024 by omega)
  exact ⟨b, bind_eq_ok.mpr ⟨_, hprint, rfl⟩, hbytes⟩

/-- The datagram of a reply is a text that is read back, its length is that of the text and its
terminator, and it is within the buffer. -/
def InfoReplyLaw (info : ServInfo) (now : BitVec 32) (buffer : Buf 1024) : Prop :=
  ∃ buffer' len text, infoReply info now buffer = .ok (buffer', len) ∧
    buffer'.bytes.take len.toNat = text ++ [0] ∧ 0 ∉ text ∧ len = text.length + 1 ∧ len ≤ 1024 ∧
    readInfo text = some (info.infoReport now)

/-- The law is about the text. -/
theorem infoReplyLaw_iff_text :
    InfoReplyLaw info now buffer ↔ readInfo (infoText info now) = some (info.infoReport now) := by
  obtain ⟨buffer', hrun, hbytes⟩ := infoReply_eq_ok info now buffer
  have hlen := infoText_length_le info now
  have htake : buffer'.bytes.take ((infoText info now).length + 1 : Int).toNat =
      infoText info now ++ [0] := by
    rw [hbytes, show ((infoText info now).length + 1 : Int).toNat =
      (infoText info now ++ [0]).length by simp, List.take_left]
  constructor
  · rintro ⟨b, len, text, h, hd, -, -, -, hread⟩
    rw [hrun] at h
    cases h
    rw [htake] at hd
    rwa [List.append_cancel_right hd]
  · intro hread
    exact ⟨buffer', _, _, hrun, htake, zero_not_mem_infoText info now, rfl, by omega, hread⟩

/-- **The `'P'` reply.** It is read back exactly if the world is empty. -/
theorem infoReply_iff (hm : NoMarkers info) :
    InfoReplyLaw info now buffer ↔ info.world.bytes = [] := by
  rw [infoReplyLaw_iff_text]
  have hworld := hm (ascii " [world=") (by decide)
  have hrulesW := hm (ascii "] //Rules:") (by decide)
  have hrules := hm (ascii " //Rules:") (by decide)
  have hid := hm (ascii " //ID:") (by decide)
  constructor
  · intro hread
    by_cases hw : info.world.bytes = []
    · exact hw
    · rw [infoText_world hw, readInfo_world hworld.1 hrulesW.2.1] at hread
      obtain ⟨r, hr, heq⟩ := Option.map_eq_some_iff.mp hread
      exact absurd (congrArg InfoReport.serverRules heq) (readRules_space hid.2.2 r hr)
  · intro hw
    rw [infoText_plain hw, readInfo_plain ⟨hworld.1, hrules.1⟩ ⟨hworld.2.2, hid.2.2⟩,
      ServInfo.infoReport, hw]

/-- A server with rules, and without a world. -/
theorem infoReply_plain : ∃ info : ServInfo, info.name.bytes = ascii "lwMIX" ∧
    info.serverRules.bytes = ascii "no swearing" ∧ InfoReplyLaw info 0x4F000000 (.zero 1024) := by
  let info : ServInfo := { ServInfo.blank with
    name := ⟨ascii "lwMIX", by decide, by decide⟩
    serverRules := ⟨ascii "no swearing", by decide, by decide⟩ }
  have hm : NoMarkers info := by
    unfold NoMarkers
    decide
  exact ⟨info, rfl, rfl, (infoReply_iff hm).mpr rfl⟩

/-- A server with a world: the rules are read with a space before them. -/
theorem not_infoReply_world : ∃ info : ServInfo, info.world.bytes = ascii "W" ∧
    info.serverRules.bytes = ascii "R" ∧ NoMarkers info ∧
    readInfo (infoText info 1) = some { info.infoReport 1 with serverRules := ascii " R" } ∧
      ∀ buffer, ¬ InfoReplyLaw info 1 buffer := by
  let info : ServInfo := { ServInfo.blank with
    world := ⟨ascii "W", by decide, by decide⟩, serverRules := ⟨ascii "R", by decide, by decide⟩ }
  have hm : NoMarkers info := by
    unfold NoMarkers
    decide
  have hread : readInfo (infoText info 1) =
      some { info.infoReport 1 with serverRules := ascii " R" } := by
    rw [infoText_world (by decide), readInfo_world (by decide) (by decide),
      readRules_hexTail (by decide)]
    rfl
  refine ⟨info, rfl, rfl, hm, hread, fun buffer hlaw => ?_⟩
  rw [infoReplyLaw_iff_text, hread] at hlaw
  exact absurd (congrArg InfoReport.serverRules (Option.some.inj hlaw)) (by decide)

end Reply

end LwMix
