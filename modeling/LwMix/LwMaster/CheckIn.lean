import LwMix.Info.Datagram
import LwMix.Master.CheckIn

/-!
# The check-in thread of `lwmaster.c`

The older `masterCheckInTimer` tests `public` instead of `running`, prints the text of a check-in into
its own buffer, and checks out when it leaves the loop.

* `masterCheckInTimer`: the code, over what its passes observe.
* `session_sent`: the datagrams of every terminating run, and when they are a session.
-/

namespace LwMix.LwMaster

/-- What a pass of the loop observes: `server_info`, whether the `send` succeeds, and the reply. -/
structure Pass where
  info : ServInfo
  sendOk : Bool
  reply : Option (List UInt8)

/-- The `recv` of a reply. -/
def recvMaster (reply : Option (List UInt8)) (buffer : Buf 1024) : Buf 1024 × List MasterEvent :=
  match reply with
  | some bytes => (buffer.recv bytes, [.received (bytes.take 1024)])
  | none => (buffer, [])

/-- The loop: one pass for each test that finds `public` set. -/
def checkInLoop : List Pass → Buf 1024 → Except Fault (Buf 1024 × List MasterEvent)
  | [], buffer => pure (buffer, [])
  | p :: ps, buffer => do
    let (buffer, len) ← snprintf buffer 0 1024 (checkInText p.info)
    let msg ← buffer.read (len + 1)
    let (buffer, es) := recvMaster p.reply buffer
    let (buffer, es') ← checkInLoop ps buffer
    pure (buffer, sendDatagram none msg p.sendOk :: es ++ es')

/-- `masterCheckInTimer`: without `public` it does nothing. The check-out is written and sent by the
statements of `masterCheckOut`. -/
def masterCheckInTimer (isPublic : Bool) (ps : List Pass) (sendOk : Bool) (buffer : Buf 1024) :
    Except Fault (List MasterEvent) :=
  if isPublic then do
    let (buffer, es) ← checkInLoop ps buffer
    let (_, es') ← masterCheckOut sendOk buffer
    pure (es ++ es' ++ [.closed])
  else pure []

/-- The check-ins that are sent. -/
def checkIns (ps : List Pass) : List (List UInt8) :=
  (ps.filter (·.sendOk)).map fun p => checkInText p.info ++ [0]

theorem recvMaster_events (reply : Option (List UInt8)) (buffer : Buf 1024) :
    .closed ∉ (recvMaster reply buffer).2 ∧ datagrams (recvMaster reply buffer).2 = [] := by
  cases reply <;> exact ⟨by simp [recvMaster], rfl⟩

theorem datagrams_send (msg : List UInt8) (sendOk : Bool) :
    datagrams [sendDatagram none msg sendOk] = if sendOk then [msg] else [] := by
  cases sendOk <;> rfl

theorem closed_not_mem_send (msg : List UInt8) (sendOk : Bool) :
    .closed ∉ [sendDatagram none msg sendOk] := by
  cases sendOk <;> simp [sendDatagram]

/-- The loop sends a whole text in each pass, from any content of the buffer. -/
theorem checkInLoop_eq_ok (ps : List Pass) (buffer : Buf 1024) :
    ∃ buffer' es, checkInLoop ps buffer = .ok (buffer', es) ∧ .closed ∉ es ∧
      datagrams es = checkIns ps := by
  induction ps generalizing buffer with
  | nil => exact ⟨buffer, [], rfl, by simp, rfl⟩
  | cons p ps ih =>
    have hlen := checkInText_length_le p.info
    obtain ⟨b, hprint, hbytes⟩ :=
      snprintf_text buffer (show (checkInText p.info).length < 1024 by omega)
    obtain ⟨hclosed, hds⟩ := recvMaster_events p.reply b
    obtain ⟨buffer', es, hrest, hclosed', hds'⟩ := ih (recvMaster p.reply b).1
    refine ⟨buffer', sendDatagram none (checkInText p.info ++ [0]) p.sendOk ::
      (recvMaster p.reply b).2 ++ es, ?_, ?_, ?_⟩
    · exact bind_eq_ok.mpr ⟨_, hprint, bind_eq_ok.mpr ⟨_, read_text hbytes,
        bind_eq_ok.mpr ⟨_, hrest, rfl⟩⟩⟩
    · have := closed_not_mem_send (checkInText p.info ++ [0]) p.sendOk
      simp only [List.mem_singleton] at this
      simp [hclosed, hclosed', this]
    · rw [← List.singleton_append, datagrams_append, datagrams_append, datagrams_send, hds, hds',
        List.append_nil]
      unfold checkIns
      cases hp : p.sendOk <;> simp [hp]

/-- **The datagrams of a run.** Every terminating run of a public server sends a whole check-in in each
pass whose `send` succeeds, then the check-out, and closes the socket. So it is a session exactly if
the check-out is sent when, and only when, a check-in was. -/
theorem session_sent (ps : List Pass) (sendOk : Bool) (buffer : Buf 1024) :
    ∃ pre, masterCheckInTimer true ps sendOk buffer = .ok (pre ++ [.closed]) ∧ .closed ∉ pre ∧
      datagrams pre = checkIns ps ++ (if sendOk then [checkOut] else []) ∧
      (Session (pre ++ [.closed]) ↔ (sendOk = true ↔ checkIns ps ≠ [])) := by
  obtain ⟨b, es, hloop, hclosed, hds⟩ := checkInLoop_eq_ok ps buffer
  obtain ⟨b', hout⟩ := masterCheckOut_eq_ok (by decide) sendOk b
  have hins : ∀ d ∈ checkIns ps, IsCheckIn d := by
    intro d hd
    obtain ⟨p, -, rfl⟩ := List.mem_map.mp hd
    exact isCheckIn_text p.info
  have hpre : datagrams (es ++ [sendDatagram none checkOut sendOk]) =
      checkIns ps ++ if sendOk then [checkOut] else [] := by
    rw [datagrams_append, hds, datagrams_send]
  have hnot : .closed ∉ es ++ [sendDatagram none checkOut sendOk] := by
    intro h
    rcases List.mem_append.mp h with h | h
    · exact hclosed h
    · exact closed_not_mem_send checkOut sendOk h
  refine ⟨es ++ [sendDatagram none checkOut sendOk], ?_, hnot, hpre, ?_⟩
  · unfold masterCheckInTimer
    rw [if_pos rfl]
    exact bind_eq_ok.mpr ⟨_, hloop, bind_eq_ok.mpr ⟨_, hout, rfl⟩⟩
  · constructor
    · rintro ⟨pre', heq, -, ins, hall, hsess⟩
      obtain ⟨rfl, -⟩ := List.append_inj' heq rfl
      rw [hpre] at hsess
      cases sendOk with
      | true =>
        refine ⟨fun _ hnil => ?_, fun _ => rfl⟩
        -- without a check-in the check-out stands first, and no session starts with it
        rw [hnil] at hsess
        cases ins with
        | nil => simp at hsess
        | cons d ins =>
          obtain ⟨rfl, -⟩ := List.cons.inj hsess
          exact not_isCheckIn_checkOut (hall _ List.mem_cons_self)
      | false =>
        refine ⟨by simp, fun hne => ?_⟩
        -- a session that has a check-in ends with the check-out, which is not among the check-ins
        have hmem : checkOut ∈ checkIns ps := by
          by_cases hnil : ins = []
          · simp [hnil] at hsess
            exact absurd hsess hne
          · have hsess : checkIns ps = ins ++ [checkOut] := by simpa [hnil] using hsess
            simp [hsess]
        exact absurd (hins _ hmem) not_isCheckIn_checkOut
    · intro h
      refine ⟨_, rfl, hnot, checkIns ps, hins, ?_⟩
      rw [hpre]
      by_cases hnil : checkIns ps = []
      · have : sendOk = false := by simpa [hnil] using h
        simp [hnil, this]
      · simp [hnil, h.mpr hnil]

end LwMix.LwMaster
