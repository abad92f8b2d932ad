import LwMix.Master.CheckIn

/-!
# One exchange with the master

* `CheckInLaw`: a check-in sends its text to the first IPv4 address, releases the address list, and
  receives the whole reply.
* `masterCheckIn_leaves`: what a check-in does and leaves in the buffer.
* `not_checkInLaw`: no check-in satisfies the law, since none releases the address list.
-/

namespace LwMix

variable {n : ℕ} {lp64 sendOk : Bool} {info : ServInfo} {res : List AddrInfo} {a : AddrInfo}
  {reply : List UInt8} {buffer buffer' : Buf n} {tr : List MasterEvent}

/-- What is sent, and to whom. -/
def sends (tr : List MasterEvent) : List (Option SockAddr × List UInt8) :=
  tr.filterMap fun e =>
    match e with
    | .sent dest d => some (dest, d)
    | _ => none

/-- The law of a check-in, for an address list, a reply and a buffer of `n` bytes. -/
def CheckInLaw (lp64 sendOk : Bool) (info : ServInfo) (res : List AddrInfo) (reply : List UInt8)
    (buffer : Buf n) : Prop :=
  ∃ buffer' tr, masterCheckIn lp64 info (some res) sendOk (some reply) n buffer =
      .ok (buffer', tr) ∧
    (∃ a, res.find? (·.family = afInet) = some a ∧
      sends tr = [(some a.addr, checkInText info ++ [0])]) ∧
    tr.count .freed = 1 ∧
    buffer'.bytes.take (min reply.length n) = reply.take (min reply.length n)

/-- No event of a check-in is a `freeaddrinfo`. -/
theorem sendCheckIn_freed {addrs : Option (List AddrInfo)} {len : Int}
    (h : sendCheckIn addrs sendOk len buffer = .ok tr) : .freed ∉ tr := by
  unfold sendCheckIn at h
  split at h
  · split at h
    · obtain ⟨msg, -, h⟩ := bind_eq_ok.mp h
      obtain rfl := pure_eq_ok.mp h
      cases sendOk <;> simp [sendDatagram]
    · obtain rfl := pure_eq_ok.mp h
      simp
  · obtain rfl := pure_eq_ok.mp h
    simp

theorem recvReply_freed {reply : Option (List UInt8)}
    (h : recvReply lp64 reply buffer = .ok (buffer', tr)) : .freed ∉ tr := by
  unfold recvReply at h
  split at h
  · obtain ⟨b, -, h⟩ := bind_eq_ok.mp h
    cases h
    simp
  · cases h
    simp

theorem masterCheckIn_freed {addrs : Option (List AddrInfo)} {reply : Option (List UInt8)}
    {bufferSize : ℕ}
    (h : masterCheckIn lp64 info addrs sendOk reply bufferSize buffer = .ok (buffer', tr)) :
    .freed ∉ tr := by
  obtain ⟨⟨b, len⟩, -, h⟩ := bind_eq_ok.mp h
  obtain ⟨ss, hs, h⟩ := bind_eq_ok.mp h
  obtain ⟨⟨b', rs⟩, hr, h⟩ := bind_eq_ok.mp h
  cases h
  exact List.not_mem_append (sendCheckIn_freed hs) (recvReply_freed hr)

/-- **No check-in satisfies its law**: the address list is never released. -/
theorem not_checkInLaw (lp64 sendOk : Bool) (info : ServInfo) (res : List AddrInfo)
    (reply : List UInt8) (buffer : Buf n) :
    ¬ CheckInLaw lp64 sendOk info res reply buffer := by
  rintro ⟨buffer', tr, hrun, -, hfreed, -⟩
  rw [List.count_eq_zero.mpr (masterCheckIn_freed hrun)] at hfreed
  cases hfreed

/-- **What a check-in does.** The text is sent to the first IPv4 address, and the first
`sizeof(char *)` bytes of the reply are put over the text in the buffer. -/
theorem masterCheckIn_leaves (hn : 1024 ≤ n) (hinet : res.find? (·.family = afInet) = some a)
    (lp64 : Bool) (info : ServInfo) (reply : List UInt8) (buffer : Buf n) :
    ∃ buffer', masterCheckIn lp64 info (some res) true (some reply) n buffer =
        .ok (buffer', [.resolved res, .sent (some a.addr) (checkInText info ++ [0]),
          .received (reply.take (sizeofPointer lp64))]) ∧
      buffer'.bytes = reply.take (sizeofPointer lp64) ++ (checkInText info ++ [0] ++
        buffer.bytes.drop ((checkInText info).length + 1)).drop
          (reply.take (sizeofPointer lp64)).length := by
  have hlen := checkInText_length_le info
  have h8 : sizeofPointer lp64 ≤ 8 := by cases lp64 <;> decide
  have hfit : 0 + (reply.take (sizeofPointer lp64)).length ≤ n := by simp; omega
  obtain ⟨b, hprint, hbytes⟩ := snprintf_text buffer (show (checkInText info).length < n by omega)
  have hread := read_text hbytes
  refine ⟨b.overwrite 0 (reply.take (sizeofPointer lp64)) hfit, ?_,
    by rw [Buf.overwrite_zero_bytes, hbytes]⟩
  refine bind_eq_ok.mpr ⟨_, hprint, bind_eq_ok.mpr ⟨[.resolved res, _], ?_, bind_eq_ok.mpr ⟨_,
    bind_eq_ok.mpr ⟨_, Buf.write_of_fits _ hfit, rfl⟩, rfl⟩⟩⟩
  simp only [sendCheckIn, hinet, hread, bind, Except.bind, sendDatagram, ↓reduceIte, pure,
    Except.pure]

/-- A reply of ten bytes to `masterCheckIn`: the address list is not released, and the first byte of
the port is the `=` of the text that was sent. -/
theorem not_checkInLaw_ten : ∃ (buffer' : Buf 1024) (tr : List MasterEvent),
    masterCheckIn true onePass.info (some [⟨afInet, ⟨0x3FC5404E, 23999⟩⟩]) true
        (some (List.replicate 10 7)) 1024 (.zero 1024) = .ok (buffer', tr) ∧
      tr.count .freed = 0 ∧ buffer'.bytes[8]? = some 0x3D ∧
      ¬ CheckInLaw true true onePass.info [⟨afInet, ⟨0x3FC5404E, 23999⟩⟩] (List.replicate 10 7)
        (.zero 1024) := by
  have hinet : [(⟨afInet, ⟨0x3FC5404E, 23999⟩⟩ : AddrInfo)].find? (·.family = afInet) =
      some ⟨afInet, ⟨0x3FC5404E, 23999⟩⟩ := rfl
  obtain ⟨buffer', hrun, hbytes⟩ := masterCheckIn_leaves (n := 1024) (by decide) hinet true
    onePass.info (List.replicate 10 7) (.zero 1024)
  have htext : ∃ rest, checkInText onePass.info = ascii "!version=" ++ rest := by
    unfold checkInText
    simp only [List.append_assoc]
    exact ⟨_, rfl⟩
  obtain ⟨rest, htext⟩ := htext
  refine ⟨buffer', _, hrun, List.count_eq_zero.mpr (masterCheckIn_freed hrun), ?_, ?_⟩
  · rw [hbytes, htext]
    rfl
  · rintro ⟨b, tr, h, -, hfreed, -⟩
    rw [List.count_eq_zero.mpr (masterCheckIn_freed h)] at hfreed
    cases hfreed

end LwMix
