import LwMix.Base.Numeral
import LwMix.Types

/-!
# The check-in thread (`masterCheckInTimer` of `lwmix.c`, `network.c`)

`masterCheckIn` and `masterCheckOut` are functions of the buffer and of what the environment answers,
and they return the buffer and their `MasterEvent`s. `masterCheckInTimer` is a loop over what it
observes in its passes, until `running` is `0`.

* `checkInText`: the text of a check-in.
* `masterCheckIn_eq_ok`, `masterCheckOut_eq_ok`: what is sent and received.
* `session_iff`: a session ends with a check-out exactly if it had no check-in.

What is only printed is left out.
-/

namespace LwMix

/-- `sizeof` of a pointer. -/
def sizeofPointer (lp64 : Bool) : ℕ := if lp64 then 8 else 4

/-- `struct sockaddr_in`. -/
structure SockAddr where
  ip : BitVec 32
  port : BitVec 16
  deriving DecidableEq, Repr

/-- An entry of the list of `getaddrinfo`. -/
structure AddrInfo where
  family : ℕ
  addr : SockAddr
  deriving DecidableEq, Repr

/-- `AF_INET`. -/
def afInet : ℕ := 2

/-- What the check-in thread does with the master socket and with address lists. A datagram without
an address goes to the peer that the socket is connected to. -/
inductive MasterEvent where
  | resolved (addrs : List AddrInfo)
  | freed
  | sent (dest : Option SockAddr) (datagram : List UInt8)
  | sendFailed
  | received (reply : List UInt8)
  | closed
  deriving DecidableEq, Repr

/-- The first `len` bytes of an array are read. -/
def Buf.read {n : ℕ} (b : Buf n) (len : Int) : Except Fault (List UInt8) :=
  if 0 ≤ len ∧ len ≤ n then .ok (b.bytes.take len.toNat) else .error .outOfBounds

/-- The text of a check-in: `%u` of an `int` prints it modulo `2 ^ 32`. -/
def checkInText (info : ServInfo) : List UInt8 :=
  ascii "!version=" ++ numeral 10 info.versionInt.toNat ++
  ascii ",nump=" ++ numeral 10 (info.playerCount % 2 ^ 32).toNat ++
  ascii ",gameid=" ++ numeral 10 info.gameId.toNat ++
  ascii ",game=" ++ info.game.bytes ++
  ascii ",host=" ++ info.host.bytes ++
  ascii ",id=" ++ numeral 16 info.id.toNat ++
  ascii ",port=" ++ info.port.bytes ++
  ascii ",info=" ++ info.info.bytes ++
  ascii ",name=" ++ info.name.bytes

/-- A `send` or `sendto` of a datagram, and whether it succeeds. -/
def sendDatagram (dest : Option SockAddr) (msg : List UInt8) (sendOk : Bool) : MasterEvent :=
  if sendOk then .sent dest msg else .sendFailed

/-- `masterCheckOut`. -/
def masterCheckOut {n : ℕ} (sendOk : Bool) (buffer : Buf n) :
    Except Fault (Buf n × List MasterEvent) := do
  let buffer ← buffer.write 0 [0x58]
  let buffer ← buffer.write 1 [0x00]
  let msg ← buffer.read 2
  pure (buffer, [sendDatagram none msg sendOk])

/-- The datagram of a check-in is sent to the first IPv4 entry of the list of `getaddrinfo`, if it
succeeds. -/
def sendCheckIn {n : ℕ} (addrs : Option (List AddrInfo)) (sendOk : Bool) (len : Int)
    (buffer : Buf n) : Except Fault (List MasterEvent) :=
  match addrs with
  | some res =>
    match res.find? (·.family = afInet) with
    | some p => do
      let msg ← buffer.read len
      pure [.resolved res, sendDatagram (some p.addr) msg sendOk]
    | none => pure [.resolved res]
  | none => pure []

/-- The `recv` of a reply, for `sizeof(buffer)` bytes, where `buffer` is a pointer. -/
def recvReply {n : ℕ} (lp64 : Bool) (reply : Option (List UInt8)) (buffer : Buf n) :
    Except Fault (Buf n × List MasterEvent) :=
  match reply with
  | some bytes => do
    let bytes := bytes.take (sizeofPointer lp64)
    let buffer ← buffer.write 0 bytes
    pure (buffer, [.received bytes])
  | none => pure (buffer, [])

/-- `masterCheckIn`, with the list of `getaddrinfo` and the reply of the master, if there are any. -/
def masterCheckIn {n : ℕ} (lp64 : Bool) (info : ServInfo) (addrs : Option (List AddrInfo))
    (sendOk : Bool) (reply : Option (List UInt8)) (bufferSize : ℕ) (buffer : Buf n) :
    Except Fault (Buf n × List MasterEvent) := do
  let (buffer, len) ← snprintf buffer 0 bufferSize (checkInText info)
  let len := len + 1
  let sends ← sendCheckIn addrs sendOk len buffer
  let (buffer, replies) ← recvReply lp64 reply buffer
  pure (buffer, sends ++ replies)

/-- What a pass of the loop observes: `server_info` (with the flag `public`), the address list,
whether the `sendto` succeeds, and the reply. -/
structure Pass where
  info : ServInfo
  addrs : Option (List AddrInfo)
  sendOk : Bool
  reply : Option (List UInt8)

/-- The loop of `masterCheckInTimer`: one pass for each test that finds `running` set. -/
def masterCheckInTimer (lp64 : Bool) : List Pass → Buf 1024 → Except Fault (List MasterEvent)
  | [], _ => pure [.closed]
  | p :: ps, buffer =>
    if p.info.isPublic then do
      let (buffer, es) ← masterCheckIn lp64 p.info p.addrs p.sendOk p.reply 1024 buffer
      let es' ← masterCheckInTimer lp64 ps buffer
      pure (es ++ es')
    else masterCheckInTimer lp64 ps buffer

/-! ## Check-ins and check-outs -/

theorem decimal_length_le {v : ℕ} (h : v < 2 ^ 32) : (numeral 10 v).length ≤ 10 :=
  numeral_length_le (by decide) (by decide) (by omega)

/-- The text of a check-in fits the buffer of the thread. -/
theorem checkInText_length_le (info : ServInfo) : (checkInText info).length ≤ 527 := by
  have h₁ := decimal_length_le info.versionInt.isLt
  have h₂ : (numeral 10 (info.playerCount % 2 ^ 32).toNat).length ≤ 10 :=
    decimal_length_le (by omega)
  have h₃ := decimal_length_le info.gameId.isLt
  have hid : info.id.toNat < 16 ^ 8 := info.id.isLt
  have h₄ := numeral_length_le (by decide) (by decide) hid
  have := info.game.fits
  have := info.host.fits
  have := info.port.fits
  have := info.info.fits
  have := info.name.fits
  unfold checkInText
  simp only [List.length_append]
  simp only [show (ascii "!version=").length = 9 from rfl, show (ascii ",nump=").length = 6 from rfl,
    show (ascii ",gameid=").length = 8 from rfl, show (ascii ",game=").length = 6 from rfl,
    show (ascii ",host=").length = 6 from rfl, show (ascii ",id=").length = 4 from rfl,
    show (ascii ",port=").length = 6 from rfl, show (ascii ",info=").length = 6 from rfl,
    show (ascii ",name=").length = 6 from rfl]
  omega

/-- The datagram of a check-out. -/
def checkOut : List UInt8 := [0x58, 0x00]

theorem masterCheckOut_eq_ok {n : ℕ} (hn : 2 ≤ n) (sendOk : Bool) (buffer : Buf n) :
    ∃ buffer', masterCheckOut sendOk buffer =
      .ok (buffer', [sendDatagram none checkOut sendOk]) := by
  have h₁ : 0 + [(0x58 : UInt8)].length ≤ n := by simp; omega
  have h₂ : 1 + [(0x00 : UInt8)].length ≤ n := by simp; omega
  refine ⟨(buffer.overwrite 0 [0x58] h₁).overwrite 1 [0x00] h₂, ?_⟩
  refine bind_eq_ok.mpr ⟨_, Buf.write_of_fits buffer h₁, bind_eq_ok.mpr ⟨_, Buf.write_of_fits _ h₂,
    bind_eq_ok.mpr ⟨[0x58, 0x00], ?_, rfl⟩⟩⟩
  rw [Buf.read, if_pos ⟨by omega, by omega⟩]
  simp [Buf.overwrite]

/-- The datagrams that are sent, in order. -/
def datagrams (tr : List MasterEvent) : List (List UInt8) :=
  tr.filterMap fun e =>
    match e with
    | .sent _ d => some d
    | _ => none

theorem datagrams_append (tr tr' : List MasterEvent) :
    datagrams (tr ++ tr') = datagrams tr ++ datagrams tr' := List.filterMap_append

/-- The address list has an IPv4 entry. -/
def HasInet (addrs : Option (List AddrInfo)) : Prop :=
  ∃ res, addrs = some res ∧ ∃ a ∈ res, a.family = afInet

/-- The check-in of a pass: the flag `public` is set, there is an IPv4 address to send to, and the
`sendto` succeeds. -/
def Pass.ChecksIn (p : Pass) : Prop :=
  p.info.isPublic = true ∧ HasInet p.addrs ∧ p.sendOk = true

/-- The text is sent once if there is an IPv4 address, with its terminator. -/
theorem sendCheckIn_eq_ok {n : ℕ} {buffer : Buf n} {len : Int} {msg : List UInt8}
    (h : buffer.read len = .ok msg) (addrs : Option (List AddrInfo)) (sendOk : Bool) :
    ∃ es, sendCheckIn addrs sendOk len buffer = .ok es ∧ .closed ∉ es ∧
      ((HasInet addrs ∧ sendOk = true) ∧ datagrams es = [msg] ∨
        ¬ (HasInet addrs ∧ sendOk = true) ∧ datagrams es = []) := by
  cases addrs with
  | none => exact ⟨[], rfl, by simp, .inr ⟨by simp [HasInet], rfl⟩⟩
  | some res =>
    cases hfind : res.find? (·.family = afInet) with
    | none =>
      refine ⟨[.resolved res], by simp [sendCheckIn, hfind, pure, Except.pure], by simp,
        .inr ⟨?_, rfl⟩⟩
      rintro ⟨⟨_, ⟨⟩, a, ha, hfam⟩, -⟩
      simpa [hfam] using List.find?_eq_none.mp hfind a ha
    | some a =>
      have hinet : HasInet (some res) :=
        ⟨res, rfl, a, List.mem_of_find?_eq_some hfind, by simpa using List.find?_some hfind⟩
      refine ⟨[.resolved res, sendDatagram (some a.addr) msg sendOk],
        by simp [sendCheckIn, hfind, h, bind, Except.bind, pure, Except.pure], ?_, ?_⟩
      · cases sendOk <;> simp [sendDatagram]
      · cases sendOk with
        | true => exact .inl ⟨⟨hinet, rfl⟩, rfl⟩
        | false => exact .inr ⟨by simp, rfl⟩

/-- The reply fits the buffer. -/
theorem recvReply_eq_ok (lp64 : Bool) (reply : Option (List UInt8)) (buffer : Buf 1024) :
    ∃ buffer' es, recvReply lp64 reply buffer = .ok (buffer', es) ∧ .closed ∉ es ∧
      datagrams es = [] := by
  cases reply with
  | none => exact ⟨buffer, [], rfl, by simp, rfl⟩
  | some bytes =>
    have h8 : sizeofPointer lp64 ≤ 8 := by cases lp64 <;> decide
    have hfit : 0 + (bytes.take (sizeofPointer lp64)).length ≤ 1024 := by simp; omega
    exact ⟨_, _, bind_eq_ok.mpr ⟨_, Buf.write_of_fits buffer hfit, rfl⟩, by simp, rfl⟩

/-- What starts a buffer is read from it. -/
theorem read_prefix {n : ℕ} {b : Buf n} {xs ys : List UInt8} (hb : b.bytes = xs ++ ys) :
    b.read xs.length = .ok xs := by
  have hlen := b.size
  rw [hb, List.length_append] at hlen
  rw [Buf.read, if_pos ⟨by omega, by omega⟩, hb, Int.toNat_natCast, List.take_left]

/-- A text and its terminator are read back from the buffer. -/
theorem read_text {n : ℕ} {b : Buf n} {text rest : List UInt8}
    (hb : b.bytes = text ++ [0] ++ rest) : b.read (text.length + 1) = .ok (text ++ [0]) := by
  have hread := read_prefix hb
  rwa [List.length_append, List.length_singleton, Int.natCast_add] at hread

/-- **A check-in.** The thread's buffer holds the text, which is sent if there is an IPv4 address. -/
theorem masterCheckIn_eq_ok (lp64 : Bool) (p : Pass) (hp : p.info.isPublic = true)
    (buffer : Buf 1024) :
    ∃ buffer' es, masterCheckIn lp64 p.info p.addrs p.sendOk p.reply 1024 buffer = .ok (buffer', es) ∧
      .closed ∉ es ∧ (p.ChecksIn ∧ datagrams es = [checkInText p.info ++ [0]] ∨
        ¬ p.ChecksIn ∧ datagrams es = []) := by
  have hlen := checkInText_length_le p.info
  obtain ⟨b, hprint, hbytes⟩ :=
    snprintf_text buffer (show (checkInText p.info).length < 1024 by omega)
  obtain ⟨es, hs, hclosed, hds⟩ := sendCheckIn_eq_ok (read_text hbytes) p.addrs p.sendOk
  obtain ⟨buffer', es', hr, hclosed', hds'⟩ := recvReply_eq_ok lp64 p.reply b
  refine ⟨buffer', es ++ es', bind_eq_ok.mpr ⟨_, hprint, bind_eq_ok.mpr ⟨es, hs,
    bind_eq_ok.mpr ⟨_, hr, rfl⟩⟩⟩, by simp [hclosed, hclosed'], ?_⟩
  rw [datagrams_append, hds', List.append_nil]
  exact hds.imp (fun h => ⟨⟨hp, h.1⟩, h.2⟩) fun h => ⟨fun hc => h.1 hc.2, h.2⟩

/-! ## Sessions -/

/-- The datagram of a check-in. -/
def IsCheckIn (d : List UInt8) : Prop := ascii "!version=" <+: d

/-- A session: check-ins, then one check-out if there was a check-in, and then the socket is
closed. -/
def Session (tr : List MasterEvent) : Prop :=
  ∃ pre, tr = pre ++ [.closed] ∧ .closed ∉ pre ∧ ∃ ins, (∀ d ∈ ins, IsCheckIn d) ∧
    datagrams pre = ins ++ if ins = [] then [] else [checkOut]

theorem isCheckIn_text (info : ServInfo) : IsCheckIn (checkInText info ++ [0]) := by
  unfold IsCheckIn checkInText
  simp only [List.append_assoc]
  exact List.prefix_append _ _

theorem not_isCheckIn_checkOut : ¬ IsCheckIn checkOut := by
  unfold IsCheckIn
  decide

/-- The thread sends the check-ins of its passes, and nothing else. -/
theorem masterCheckInTimer_eq_ok (lp64 : Bool) (ps : List Pass) (buffer : Buf 1024) :
    ∃ pre, masterCheckInTimer lp64 ps buffer = .ok (pre ++ [.closed]) ∧ .closed ∉ pre ∧
      (∀ d ∈ datagrams pre, IsCheckIn d) ∧ (datagrams pre = [] ↔ ∀ p ∈ ps, ¬ p.ChecksIn) := by
  induction ps generalizing buffer with
  | nil => exact ⟨[], rfl, by simp, by simp [datagrams], by simp [datagrams]⟩
  | cons p ps ih =>
    by_cases hp : p.info.isPublic = true
    · obtain ⟨buffer', es, hc, hclosed, hds⟩ := masterCheckIn_eq_ok lp64 p hp buffer
      obtain ⟨pre, hrun, hclosed', hins, hnone⟩ := ih buffer'
      refine ⟨es ++ pre, ?_, by simp [hclosed, hclosed'], ?_, ?_⟩
      · rw [masterCheckInTimer, if_pos hp, List.append_assoc]
        exact bind_eq_ok.mpr ⟨_, hc, bind_eq_ok.mpr ⟨_, hrun, rfl⟩⟩
      · rw [datagrams_append]
        intro d hd
        rcases List.mem_append.mp hd with hd | hd
        · rcases hds with ⟨-, hds⟩ | ⟨-, hds⟩
          · rw [hds, List.mem_singleton] at hd
            exact hd ▸ isCheckIn_text p.info
          · rw [hds] at hd
            cases hd
        · exact hins d hd
      · rw [datagrams_append, List.append_eq_nil_iff, hnone, List.forall_mem_cons]
        refine and_congr_left fun _ => ?_
        rcases hds with ⟨hin, hds⟩ | ⟨hin, hds⟩ <;> simp [hds, hin]
    · obtain ⟨pre, hrun, hclosed, hins, hnone⟩ := ih buffer
      refine ⟨pre, by rw [masterCheckInTimer, if_neg hp, hrun], hclosed, hins, ?_⟩
      rw [hnone, List.forall_mem_cons]
      exact (and_iff_right fun hc => hp hc.1).symm

/-- Check-ins without a check-out are no session. -/
theorem session_append_closed {pre : List MasterEvent} (hclosed : .closed ∉ pre)
    (hins : ∀ d ∈ datagrams pre, IsCheckIn d) :
    Session (pre ++ [.closed]) ↔ datagrams pre = [] := by
  constructor
  · rintro ⟨pre', heq, -, ins, -, hds⟩
    obtain ⟨rfl, -⟩ := List.append_inj' heq rfl
    by_cases hnil : ins = []
    · simpa [hnil] using hds
    · rw [if_neg hnil] at hds
      exact absurd (hins checkOut (by simp [hds])) not_isCheckIn_checkOut
  · intro hds
    exact ⟨pre, rfl, hclosed, [], by simp, by simpa using hds⟩

/-- **The master session.** Every terminating run of the check-in thread is a session exactly if no
pass checks in. -/
theorem session_iff (lp64 : Bool) (ps : List Pass) (buffer : Buf 1024) :
    ∃ tr, masterCheckInTimer lp64 ps buffer = .ok tr ∧ (Session tr ↔ ∀ p ∈ ps, ¬ p.ChecksIn) := by
  obtain ⟨pre, hrun, hclosed, hins, hnone⟩ := masterCheckInTimer_eq_ok lp64 ps buffer
  exact ⟨_, hrun, (session_append_closed hclosed hins).trans hnone⟩

/-- One check-in of a public server. -/
def onePass : Pass where
  info := { ServInfo.blank with isPublic := true }
  addrs := some [⟨afInet, ⟨0x3FC5404E, 23999⟩⟩]
  sendOk := true
  reply := none

/-- The server has checked in, and stops without a check-out. -/
theorem not_session_one : ∃ tr, masterCheckInTimer true [onePass] (.zero 1024) = .ok tr ∧
    (∃ d ∈ datagrams tr, IsCheckIn d) ∧ checkOut ∉ datagrams tr ∧ ¬ Session tr := by
  obtain ⟨pre, hrun, hclosed, hins, hnone⟩ := masterCheckInTimer_eq_ok true [onePass] (.zero 1024)
  have hin : onePass.ChecksIn := ⟨rfl, ⟨_, rfl, _, List.mem_singleton_self _, rfl⟩, rfl⟩
  have hne : datagrams pre ≠ [] := fun h => hnone.mp h onePass (by simp) hin
  have htr : datagrams (pre ++ [.closed]) = datagrams pre := by
    rw [datagrams_append]
    exact List.append_nil _
  refine ⟨_, hrun, ?_, fun hmem => ?_, mt (session_append_closed hclosed hins).mp hne⟩
  · obtain ⟨d, hd⟩ := List.exists_mem_of_ne_nil _ hne
    exact ⟨d, htr ▸ hd, hins d hd⟩
  · rw [htr] at hmem
    exact not_isCheckIn_checkOut (hins _ hmem)

end LwMix
