import LwMix.LwMaster.CheckIn
import LwMix.Master.Exchange

/-!
# The check-in threads, step by step

The check-in threads of both programs, cut at the `recv` in which they wait for the reply.

* `sendPart`, `recvPart`: the two parts of a check-in. `masterCheckIn_parts` and `checkInLoop_parts`:
  together they are the check-in of the program.
* `Timer.act`, `Timer.recv`: the steps of a thread.
* `Timer.act_sends`: a thread sends check-ins and check-outs.
* `Timer.Rest.act`, `Timer.Rest.recv`: the steps of a thread are those of an execution.
-/

namespace LwMix.LwMaster

/-- The program of a check-in thread. -/
inductive Program where
  | lwmix
  | lwmaster
  deriving DecidableEq

/-- Where a thread is: at the test of its loop, in the `recv` of a check-in, or after the loop. -/
inductive TimerPc where
  | top
  | receiving
  | stopped
  deriving DecidableEq

/-- A check-in thread, whose socket is connected to the master. -/
structure Timer where
  program : Program
  pc : TimerPc
  buffer : Buf 1024

/-- A check-in up to the `recv`. `lwmaster` sends over the connection. -/
def sendPart (program : Program) (info : ServInfo) (addrs : Option (List AddrInfo)) (sendOk : Bool)
    (buffer : Buf 1024) : Except Fault (Buf 1024 × List MasterEvent) := do
  let (buffer, len) ← snprintf buffer 0 1024 (checkInText info)
  match program with
  | .lwmix => do
    let es ← sendCheckIn addrs sendOk (len + 1) buffer
    pure (buffer, es)
  | .lwmaster => do
    let msg ← buffer.read (len + 1)
    pure (buffer, [sendDatagram none msg sendOk])

/-- The `recv` of a check-in. -/
def recvPart (lp64 : Bool) (program : Program) (reply : Option (List UInt8)) (buffer : Buf 1024) :
    Except Fault (Buf 1024 × List MasterEvent) :=
  match program with
  | .lwmix => recvReply lp64 reply buffer
  | .lwmaster => pure (recvMaster reply buffer)

/-- What a thread does without a reply. The environment answers `server_info`, the address list and
whether the `send` succeeds. -/
inductive TimerAct where
  | checkIn (info : ServInfo) (addrs : Option (List AddrInfo)) (sendOk : Bool)
  | recvFails
  | leave (sendOk : Bool)

/-- A step without a reply. Only `lwmaster` checks out. -/
def Timer.act (lp64 : Bool) (t : Timer) : TimerAct → Except Fault (Timer × List MasterEvent)
  | .checkIn info addrs sendOk =>
    if t.pc = .top ∧ info.isPublic then do
      let (buffer, es) ← sendPart t.program info addrs sendOk t.buffer
      pure ({ t with pc := .receiving, buffer }, es)
    else .error .protocol
  | .recvFails =>
    if t.pc = .receiving then do
      let (buffer, es) ← recvPart lp64 t.program none t.buffer
      pure ({ t with pc := .top, buffer }, es)
    else .error .protocol
  | .leave sendOk =>
    if t.pc = .top then
      match t.program with
      | .lwmix => pure ({ t with pc := .stopped }, [.closed])
      | .lwmaster => do
        let (buffer, es) ← masterCheckOut sendOk t.buffer
        pure ({ t with pc := .stopped, buffer }, es ++ [.closed])
    else .error .protocol

/-- The `recv` of a reply. -/
def Timer.recv (lp64 : Bool) (t : Timer) (bytes : List UInt8) :
    Except Fault (Timer × List MasterEvent) :=
  if t.pc = .receiving then do
    let (buffer, es) ← recvPart lp64 t.program (some bytes) t.buffer
    pure ({ t with pc := .top, buffer }, es)
  else .error .protocol

/-- The two parts are the check-in of `lwmix`. -/
theorem masterCheckIn_parts (lp64 : Bool) (info : ServInfo) (addrs : Option (List AddrInfo))
    (sendOk : Bool) (reply : Option (List UInt8)) (buffer : Buf 1024) :
    masterCheckIn lp64 info addrs sendOk reply 1024 buffer = (do
      let (b, es) ← sendPart .lwmix info addrs sendOk buffer
      let (b, es') ← recvPart lp64 .lwmix reply b
      pure (b, es ++ es')) := by
  unfold masterCheckIn sendPart recvPart
  simp only [bind_assoc, pure_bind]

/-- The two parts are a pass of `lwmaster`. -/
theorem checkInLoop_parts (lp64 : Bool) (p : Pass) (ps : List Pass) (buffer : Buf 1024) :
    checkInLoop (p :: ps) buffer = (do
      let (b, es) ← sendPart .lwmaster p.info none p.sendOk buffer
      let (b, es') ← recvPart lp64 .lwmaster p.reply b
      let (b, es'') ← checkInLoop ps b
      pure (b, es ++ es' ++ es'')) := by
  simp only [checkInLoop, sendPart, recvPart, bind_assoc, pure_bind]
  rfl

/-! ## What is sent -/

/-- The datagrams of a check-in thread. -/
def FromServer (d : List UInt8) : Prop :=
  (∃ info, d = checkInText info ++ [0]) ∨ d = checkOut

theorem FromServer.start {d : List UInt8} (h : FromServer d) :
    (∃ ds, d = 0x21 :: ds) ∨ ∃ ds, d = 0x58 :: ds := by
  rcases h with ⟨info, hd⟩ | hd
  · obtain ⟨ds, hds⟩ := isCheckIn_text info
    exact .inl ⟨_, hd.trans (hds.symm.trans (List.cons_append ..))⟩
  · exact .inr ⟨_, hd⟩

theorem mem_datagrams_of_sends {es : List MasterEvent} {x : Option SockAddr × List UInt8}
    (h : x ∈ sends es) : x.2 ∈ datagrams es := by
  obtain ⟨e, he, hx⟩ := List.mem_filterMap.mp h
  refine List.mem_filterMap.mpr ⟨e, he, ?_⟩
  cases e <;> simp_all
  rw [← hx]

/-- A check-in sends its text. -/
theorem sendPart_eq_ok (program : Program) (info : ServInfo) (addrs : Option (List AddrInfo))
    (sendOk : Bool) (buffer : Buf 1024) : ∃ b es,
      sendPart program info addrs sendOk buffer = .ok (b, es) ∧
        ∀ d ∈ datagrams es, d = checkInText info ++ [0] := by
  have hlen := checkInText_length_le info
  obtain ⟨b, hprint, hbytes⟩ :=
    snprintf_text buffer (show (checkInText info).length < 1024 by omega)
  have hread := read_text hbytes
  cases program with
  | lwmix =>
    obtain ⟨es, hs, -, hds⟩ := sendCheckIn_eq_ok hread addrs sendOk
    refine ⟨b, es, bind_eq_ok.mpr ⟨_, hprint, bind_eq_ok.mpr ⟨_, hs, rfl⟩⟩, fun d hd => ?_⟩
    rcases hds with ⟨-, hds⟩ | ⟨-, hds⟩
    · exact List.mem_singleton.mp (hds ▸ hd)
    · rw [hds] at hd
      cases hd
  | lwmaster =>
    refine ⟨b, _, bind_eq_ok.mpr ⟨_, hprint, bind_eq_ok.mpr ⟨_, hread, rfl⟩⟩, fun d hd => ?_⟩
    rw [datagrams_send] at hd
    cases sendOk with
    | true => exact List.mem_singleton.mp hd
    | false => cases hd

/-- A thread sends check-ins and check-outs. -/
theorem Timer.act_sends {lp64 : Bool} {t t' : Timer} {act : TimerAct} {es : List MasterEvent}
    (h : t.act lp64 act = .ok (t', es)) : ∀ d ∈ datagrams es, FromServer d := by
  cases act with
  | checkIn info addrs sendOk =>
    obtain ⟨b, es', hsend, hds⟩ := sendPart_eq_ok t.program info addrs sendOk t.buffer
    simp only [Timer.act, hsend] at h
    split at h
    · cases h
      exact fun d hd => .inl ⟨info, hds d hd⟩
    · cases h
  | recvFails =>
    simp only [Timer.act] at h
    split at h
    · cases ht : t.program <;> rw [ht] at h <;> cases h <;> exact fun d hd => nomatch hd
    · cases h
  | leave sendOk =>
    obtain ⟨b, hout⟩ := masterCheckOut_eq_ok (by decide) sendOk t.buffer
    simp only [Timer.act, hout] at h
    split at h
    · split at h
      · cases h
        exact fun d hd => nomatch hd
      · cases h
        rw [datagrams_append, datagrams_send]
        intro d hd
        cases sendOk with
        | true => exact .inr (List.mem_singleton.mp hd)
        | false => cases hd
    · cases h

/-- A thread that waits can receive every reply. -/
theorem Timer.recv_ok {t : Timer} (ht : t.pc = .receiving) (lp64 : Bool) (bytes : List UInt8) :
    ∃ r, t.recv lp64 bytes = .ok r := by
  unfold Timer.recv
  rw [if_pos ht]
  cases hp : t.program with
  | lwmix =>
    obtain ⟨b, es, hr, -, -⟩ := recvReply_eq_ok lp64 (some bytes) t.buffer
    exact ⟨_, bind_eq_ok.mpr ⟨_, hr, rfl⟩⟩
  | lwmaster => exact ⟨_, rfl⟩

/-! ## Executions -/

section Trace

variable {lp64 : Bool} {t t' : Timer} {es es' : List MasterEvent}

/-- The events of an execution of the program, from the test of its loop on. -/
def Program.Trace (lp64 : Bool) (program : Program) (buffer : Buf 1024) (es : List MasterEvent) :
    Prop :=
  match program with
  | .lwmix => ∃ ps, LwMix.masterCheckInTimer lp64 ps buffer = .ok es
  | .lwmaster => ∃ ps sendOk, masterCheckInTimer true ps sendOk buffer = .ok es

/-- The events that an execution has after the state of a thread. -/
def Timer.Rest (lp64 : Bool) (t : Timer) (es : List MasterEvent) : Prop :=
  match t.pc with
  | .top => t.program.Trace lp64 t.buffer es
  | .receiving => ∃ reply b es₁ es₂, recvPart lp64 t.program reply t.buffer = .ok (b, es₁) ∧
      t.program.Trace lp64 b es₂ ∧ es = es₁ ++ es₂
  | .stopped => es = []

/-- A check-in, its reply, and the rest of the loop. -/
theorem Program.Trace.checkIn {program : Program} {info : ServInfo}
    {addrs : Option (List AddrInfo)} {sendOk : Bool} {reply : Option (List UInt8)}
    {b₀ b₁ b₂ : Buf 1024} {es₁ es₂ : List MasterEvent} (hpublic : info.isPublic = true)
    (hsend : sendPart program info addrs sendOk b₀ = .ok (b₁, es₁))
    (hrecv : recvPart lp64 program reply b₁ = .ok (b₂, es₂)) (h : program.Trace lp64 b₂ es) :
    program.Trace lp64 b₀ (es₁ ++ (es₂ ++ es)) := by
  cases program with
  | lwmix =>
    obtain ⟨ps, hps⟩ := h
    refine ⟨⟨info, addrs, sendOk, reply⟩ :: ps, ?_⟩
    have hin : masterCheckIn lp64 info addrs sendOk reply 1024 b₀ = .ok (b₂, es₁ ++ es₂) := by
      rw [masterCheckIn_parts]
      exact bind_eq_ok.mpr ⟨_, hsend, bind_eq_ok.mpr ⟨_, hrecv, rfl⟩⟩
    rw [LwMix.masterCheckInTimer, if_pos hpublic, ← List.append_assoc]
    exact bind_eq_ok.mpr ⟨_, hin, bind_eq_ok.mpr ⟨_, hps, rfl⟩⟩
  | lwmaster =>
    obtain ⟨ps, sendOk', hps⟩ := h
    refine ⟨⟨info, sendOk, reply⟩ :: ps, sendOk', ?_⟩
    unfold masterCheckInTimer at hps ⊢
    rw [if_pos rfl] at hps ⊢
    obtain ⟨⟨b, es₃⟩, hloop, hps⟩ := bind_eq_ok.mp hps
    obtain ⟨⟨b', es₄⟩, hout, hps⟩ := bind_eq_ok.mp hps
    cases pure_eq_ok.mp hps
    have hpass : checkInLoop (⟨info, sendOk, reply⟩ :: ps) b₀ = .ok (b, es₁ ++ es₂ ++ es₃) := by
      rw [checkInLoop_parts lp64]
      exact bind_eq_ok.mpr ⟨_, hsend, bind_eq_ok.mpr ⟨_, hrecv, bind_eq_ok.mpr ⟨_, hloop, rfl⟩⟩⟩
    refine bind_eq_ok.mpr ⟨_, hpass, bind_eq_ok.mpr ⟨_, hout, ?_⟩⟩
    simp only [List.append_assoc]
    rfl

/-- A step of a thread is a step of its program. -/
theorem Timer.Rest.act {act : TimerAct} (hact : t.act lp64 act = .ok (t', es))
    (h : t'.Rest lp64 es') : t.Rest lp64 (es ++ es') := by
  obtain ⟨program, pc, buffer⟩ := t
  cases act with
  | checkIn info addrs sendOk =>
    simp only [Timer.act] at hact
    split at hact
    · rename_i hpc
      obtain ⟨⟨b, es₁⟩, hsend, hact⟩ := bind_eq_ok.mp hact
      cases pure_eq_ok.mp hact
      obtain ⟨rfl, hpublic⟩ := hpc
      obtain ⟨reply, b', es₂, es₃, hrecv, htrace, rfl⟩ := h
      exact .checkIn hpublic hsend hrecv htrace
    · cases hact
  | recvFails =>
    simp only [Timer.act] at hact
    split at hact
    · rename_i hpc
      obtain ⟨⟨b, es₁⟩, hrecv, hact⟩ := bind_eq_ok.mp hact
      cases pure_eq_ok.mp hact
      obtain rfl := hpc
      exact ⟨none, b, es₁, es', hrecv, h, rfl⟩
    · cases hact
  | leave sendOk =>
    simp only [Timer.act] at hact
    split at hact
    · rename_i hpc
      obtain rfl := hpc
      cases program with
      | lwmix =>
        cases pure_eq_ok.mp hact
        obtain rfl : es' = [] := h
        exact ⟨[], rfl⟩
      | lwmaster =>
        obtain ⟨⟨b, es₁⟩, hout, hact⟩ := bind_eq_ok.mp hact
        cases pure_eq_ok.mp hact
        obtain rfl : es' = [] := h
        refine ⟨[], sendOk, bind_eq_ok.mpr ⟨_, rfl, bind_eq_ok.mpr ⟨_, hout, ?_⟩⟩⟩
        rw [List.append_nil]
        rfl
    · cases hact

theorem Timer.Rest.recv {bytes : List UInt8} (hrecv : t.recv lp64 bytes = .ok (t', es))
    (h : t'.Rest lp64 es') : t.Rest lp64 (es ++ es') := by
  obtain ⟨program, pc, buffer⟩ := t
  simp only [Timer.recv] at hrecv
  split at hrecv
  · rename_i hpc
    obtain ⟨⟨b, es₁⟩, hpart, hrecv⟩ := bind_eq_ok.mp hrecv
    cases pure_eq_ok.mp hrecv
    obtain rfl := hpc
    exact ⟨some bytes, b, es₁, es', hpart, h, rfl⟩
  · cases hrecv

end Trace

end LwMix.LwMaster
