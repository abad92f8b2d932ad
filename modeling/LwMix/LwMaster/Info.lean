import LwMix.Base.Tokens
import LwMix.Info.Datagram
import LwMix.Info.Reply

/-!
# The info loop of `lwmaster.c`

The older `serverInfoProvider` of `lwmaster.c` dispatches on the first byte of its buffer without a
look at the result of `recvfrom`, and its `'?'` case sets neither the buffer nor the length.

* `iteration`, `run`: the code, over the results of `recvfrom`.
* `readInfo_replyText`: the reply is read back by the reader of the replies of `lwmix.c`.
* `determined_iff`: when the action of an iteration does not depend on what was before it.
-/

namespace LwMix.LwMaster

/-- The locals that the loop keeps. -/
structure Locals where
  buffer : Buf 1024
  len : Int
  sendResponse : Bool
  theirAddr : SockAddr

/-- The text of the reply. -/
def replyText (info : ServInfo) (now : BitVec 32) : List UInt8 :=
  ascii "#name=" ++ info.name.bytes ++ ascii " [world=" ++ info.world.bytes ++
    ascii "] //Rules:" ++ info.serverRules.bytes ++ hexTail info.id now

/-- The `switch` over the first byte of the buffer. -/
def dispatch (info : ServInfo) (now : BitVec 32) (s : Locals) : Except Fault Locals := do
  let c ← s.buffer.get 0
  if c = 0x21 then do
    let (buffer, len) ← snprintf s.buffer 0 1024 (replyText info now)
    pure { s with buffer, len := len + 1, sendResponse := true }
  else if c = 0x58 then pure { s with sendResponse := false }
  else if c = 0x3F then pure { s with sendResponse := true }
  else do
    -- The packet is printed as a string.
    let _ ← s.buffer.string
    pure { s with sendResponse := false }

/-- The end of an iteration. -/
def send (s : Locals) : Except Fault (Locals × List Sent) :=
  if s.sendResponse then do
    let msg ← s.buffer.read s.len
    pure (s, [⟨s.theirAddr, msg⟩])
  else pure (s, [])

/-- An iteration of the loop. The result of `recvfrom` is not looked at. -/
def iteration (info : ServInfo) (now : BitVec 32) (r : RecvFromResult) (s : Locals) :
    Except Fault (Locals × List Sent) := do
  let (_, buffer, theirAddr) := recvFrom r s.buffer s.theirAddr
  let s := { s with buffer, theirAddr, sendResponse := false }
  let s ← dispatch info now s
  send s

/-- What an iteration observes. -/
structure Input where
  info : ServInfo
  now : BitVec 32
  recv : RecvFromResult

/-- The locals after a history. -/
def run : List Input → Locals → Except Fault Locals
  | [], s => pure s
  | x :: xs, s => do
    let (s, _) ← iteration x.info x.now x.recv s
    run xs s

/-! ## The reply -/

/-- The reply is read back. -/
theorem readInfo_replyText {info : ServInfo} (hm : NoMarkers info) (now : BitVec 32) :
    readInfo (replyText info now) = some (info.infoReport now) := by
  have hname := (hm (ascii " [world=") (by decide)).1
  have hworld := (hm (ascii "] //Rules:") (by decide)).2.1
  have hrules := (hm (ascii " //ID:") (by decide)).2.2
  rw [replyText, List.append_assoc _ info.serverRules.bytes, readInfo_world hname hworld,
    readRules_hexTail hrules]
  rfl

theorem replyText_length_le (info : ServInfo) (now : BitVec 32) :
    (replyText info now).length ≤ 287 := by
  have := hexTail_length_le info.id now
  have := info.name.fits
  have := info.world.fits
  have := info.serverRules.fits
  unfold replyText
  simp only [List.length_append, show (ascii "#name=").length = 6 from rfl,
    show (ascii " [world=").length = 8 from rfl, show (ascii "] //Rules:").length = 10 from rfl]
  omega

/-! ## One iteration -/

section Iteration

variable {info : ServInfo} {now : BitVec 32} {s : Locals} {src : SockAddr} {c : UInt8}
  {ds rest : List UInt8} {r : RecvFromResult}

/-- A buffer that starts with `'!'`: the reply is sent to `their_addr`. -/
theorem dispatch_checkIn (info : ServInfo) (now : BitVec 32)
    (hb : s.buffer.bytes = 0x21 :: rest) : ∃ s',
    dispatch info now s >>= send = .ok (s', [⟨s.theirAddr, replyText info now ++ [0]⟩]) := by
  have hlen := replyText_length_le info now
  obtain ⟨b, hprint, hbytes⟩ :=
    snprintf_text s.buffer (show (replyText info now).length < 1024 by omega)
  have hc : s.buffer.get 0 = .ok 0x21 := get_first hb
  have hread := read_text hbytes
  refine ⟨{ s with
    buffer := b
    len := (replyText info now).length + 1
    sendResponse := true }, ?_⟩
  simp only [dispatch, hc, bind, Except.bind, ↓reduceIte, hprint, pure, Except.pure, send, hread]

/-- A buffer that starts with `X`: nothing is sent. -/
theorem dispatch_checkOut (hb : s.buffer.bytes = 0x58 :: rest) :
    ∃ s', dispatch info now s >>= send = .ok (s', []) := by
  have hc : s.buffer.get 0 = .ok 0x58 := get_first hb
  refine ⟨{ s with sendResponse := false }, ?_⟩
  simp only [dispatch, hc, bind, Except.bind]
  rfl

/-- A buffer that starts with `'?'`: whatever is in the buffer is sent. -/
theorem dispatch_list (hb : s.buffer.bytes = 0x3F :: rest) : dispatch info now s >>= send =
    s.buffer.read s.len >>= fun msg =>
      .ok ({ s with sendResponse := true }, [⟨s.theirAddr, msg⟩]) := by
  have hc : s.buffer.get 0 = .ok 0x3F := get_first hb
  simp only [dispatch, hc, bind, Except.bind]
  rfl

/-- Any other buffer is printed, and nothing is sent. -/
theorem dispatch_unknown (hb : s.buffer.bytes = c :: rest) (h₁ : c ≠ 0x21) (h₂ : c ≠ 0x58)
    (h₃ : c ≠ 0x3F) {p : Locals × List Sent} : dispatch info now s >>= send = .ok p ↔
      0 ∈ s.buffer.bytes ∧ p = ({ s with sendResponse := false }, []) := by
  have hc : s.buffer.get 0 = .ok c := get_first hb
  simp only [dispatch, hc, bind, Except.bind, h₁, h₂, h₃, ↓reduceIte, Buf.string]
  by_cases hzero : 0 ∈ s.buffer.bytes
  · simp only [hzero, ↓reduceIte, send, pure, Except.pure, Bool.false_eq_true, Except.ok.injEq,
      true_and]
    exact eq_comm
  · simp [hzero]

/-- The locals at the `switch`. -/
def received (r : RecvFromResult) (s : Locals) : Locals :=
  { s with
    buffer := (recvFrom r s.buffer s.theirAddr).2.1
    theirAddr := (recvFrom r s.buffer s.theirAddr).2.2
    sendResponse := false }

theorem iteration_eq : iteration info now r s = dispatch info now (received r s) >>= send := rfl

theorem received_cons (s : Locals) (src : SockAddr) (c : UInt8) (ds : List UInt8) :
    ∃ rest, (received (.datagram src (c :: ds)) s).buffer.bytes = c :: rest :=
  recv_cons (by decide)

end Iteration

/-! ## Two histories -/

/-- After any two histories, from any initial values of the locals, an iteration takes the same
action: at most one reply, to the source of the packet, and none if there is no packet. -/
def Determined (info : ServInfo) (now : BitVec 32) (r : RecvFromResult) : Prop :=
  ∀ init₁ init₂ xs₁ xs₂ s₁ s₂, run xs₁ init₁ = .ok s₁ → run xs₂ init₂ = .ok s₂ →
    ∃ s₁' s₂' sent, iteration info now r s₁ = .ok (s₁', sent) ∧
      iteration info now r s₂ = .ok (s₂', sent) ∧ sent.length ≤ 1 ∧
      match r with
      | .datagram src (_ :: _) => ∀ m ∈ sent, m.dest = src
      | _ => sent = []

/-- A packet of a known type other than `'?'`, or one of an unknown type with a terminator. -/
def Answerable (r : RecvFromResult) : Prop :=
  match r with
  | .datagram _ (c :: ds) => c = 0x21 ∨ c = 0x58 ∨ c ≠ 0x3F ∧ 0 ∈ (c :: ds).take 1024
  | _ => False

section Determined

variable {info : ServInfo} {now : BitVec 32} {r : RecvFromResult} {src : SockAddr} {c : UInt8}
  {ds : List UInt8}

/-- The same is sent from every state. -/
theorem determined_of_forall (sent : List Sent)
    (h : ∀ s, ∃ s', iteration info now (.datagram src (c :: ds)) s = .ok (s', sent))
    (hlen : sent.length ≤ 1) (hdest : ∀ m ∈ sent, m.dest = src) :
    Determined info now (.datagram src (c :: ds)) := by
  intro _ _ _ _ s₁ s₂ _ _
  obtain ⟨s₁', h₁⟩ := h s₁
  obtain ⟨s₂', h₂⟩ := h s₂
  exact ⟨s₁', s₂', sent, h₁, h₂, hlen, hdest⟩

/-- The action is determined for the packets that are answerable. -/
theorem determined_of_answerable (h : Answerable r) : Determined info now r := by
  match r, h with
  | .datagram src (c :: ds), h =>
    by_cases h₁ : c = 0x21
    · subst h₁
      refine determined_of_forall [⟨src, replyText info now ++ [0]⟩] (fun s => ?_)
        (by simp) (by simp)
      obtain ⟨rest, hb⟩ := received_cons s src 0x21 ds
      exact dispatch_checkIn info now hb
    · by_cases h₂ : c = 0x58
      · subst h₂
        refine determined_of_forall [] (fun s => ?_) (by simp) (by simp)
        obtain ⟨rest, hb⟩ := received_cons s src 0x58 ds
        exact dispatch_checkOut hb
      · obtain ⟨h₃, hzero⟩ := (h.resolve_left h₁).resolve_left h₂
        refine determined_of_forall [] (fun s => ?_) (by simp) (by simp)
        obtain ⟨rest, hb⟩ := received_cons s src c ds
        refine ⟨_, (dispatch_unknown hb h₁ h₂ h₃).mpr ⟨?_, rfl⟩⟩
        show 0 ∈ (s.buffer.recv (c :: ds)).bytes
        rw [Buf.recv, Buf.overwrite_zero_bytes]
        exact List.mem_append_left _ hzero

/-- Locals with a given buffer and length. -/
def locals (buffer : Buf 1024) (len : Int) : Locals := ⟨buffer, len, false, ⟨0, 0⟩⟩

/-- Without a packet, a `'!'` that was left in the buffer is answered. -/
theorem not_determined_stale (hr : r = .failed ∨ ∃ src, r = .datagram src []) :
    ¬ Determined info now r := by
  intro h
  let s := locals ((Buf.zero 1024).recv [0x21]) 0
  obtain ⟨s', -, sent, hsent, -, -, hnone⟩ := h s s [] [] s s rfl rfl
  obtain ⟨rest, hb⟩ : ∃ rest, (received r s).buffer.bytes = 0x21 :: rest := by
    rcases hr with rfl | ⟨src, rfl⟩
    · exact recv_cons (by decide)
    · show ∃ rest, (s.buffer.recv []).bytes = 0x21 :: rest
      rw [recv_bytes (by decide)]
      exact recv_cons (by decide)
  obtain ⟨s'', hreply⟩ := dispatch_checkIn info now hb
  rw [iteration_eq, hreply] at hsent
  obtain ⟨-, rfl⟩ := Prod.mk.inj (Except.ok.inj hsent)
  rcases hr with rfl | ⟨src, rfl⟩
  · cases hnone
  · cases hnone

/-- The answer to `'?'` has the length of an earlier reply. -/
theorem not_determined_list : ¬ Determined info now (.datagram src (0x3F :: ds)) := by
  intro h
  -- Two values of `len`.
  let s₁ := locals (.zero 1024) 0
  let s₂ := locals (.zero 1024) 1
  obtain ⟨s₁', s₂', sent, h₁, h₂, -, -⟩ := h s₁ s₂ [] [] s₁ s₂ rfl rfl
  obtain ⟨rest₁, hb₁⟩ := received_cons s₁ src 0x3F ds
  obtain ⟨rest₂, hb₂⟩ := received_cons s₂ src 0x3F ds
  rw [iteration_eq, dispatch_list hb₁] at h₁
  rw [iteration_eq, dispatch_list hb₂] at h₂
  have hread₁ : (received (.datagram src (0x3F :: ds)) s₁).buffer.read 0 = .ok [] :=
    read_prefix (List.nil_append _).symm
  have hread₂ : (received (.datagram src (0x3F :: ds)) s₂).buffer.read 1 = .ok [0x3F] :=
    read_prefix (show _ = [0x3F] ++ rest₂ from hb₂)
  obtain ⟨msg₁, hm₁, h₁⟩ := bind_eq_ok.mp h₁
  obtain ⟨msg₂, hm₂, h₂⟩ := bind_eq_ok.mp h₂
  obtain rfl : [] = msg₁ := Except.ok.inj (hread₁.symm.trans hm₁)
  obtain rfl : [0x3F] = msg₂ := Except.ok.inj (hread₂.symm.trans hm₂)
  have hsent := (congrArg Prod.snd (Except.ok.inj h₁)).trans
    (congrArg Prod.snd (Except.ok.inj h₂)).symm
  simp at hsent

/-- A packet of an unknown type is printed up to a terminator that is not in it. -/
theorem not_determined_unknown (h₁ : c ≠ 0x21) (h₂ : c ≠ 0x58) (h₃ : c ≠ 0x3F)
    (hzero : 0 ∉ (c :: ds).take 1024) : ¬ Determined info now (.datagram src (c :: ds)) := by
  intro h
  let s := locals ⟨List.replicate 1024 1, List.length_replicate⟩ 0
  obtain ⟨s', -, sent, hsent, -, -, -⟩ := h s s [] [] s s rfl rfl
  obtain ⟨rest, hb⟩ := received_cons s src c ds
  rw [iteration_eq, dispatch_unknown hb h₁ h₂ h₃] at hsent
  have hmem : 0 ∈ (s.buffer.recv (c :: ds)).bytes := hsent.1
  rw [Buf.recv, Buf.overwrite_zero_bytes, List.mem_append] at hmem
  rcases hmem with hmem | hmem
  · exact hzero hmem
  · exact absurd (List.eq_of_mem_replicate (List.mem_of_mem_drop hmem)) (by decide)

/-- **Replies of the info loop of `lwmaster.c`.** The action of an iteration depends on the current
packet only, exactly for the packets that are answerable. -/
theorem determined_iff : Determined info now r ↔ Answerable r := by
  refine ⟨fun h => ?_, determined_of_answerable⟩
  match r, h with
  | .failed, h => exact absurd h (not_determined_stale (.inl rfl))
  | .datagram src [], h => exact absurd h (not_determined_stale (.inr ⟨src, rfl⟩))
  | .datagram src (c :: ds), h =>
    by_cases h₁ : c = 0x21
    · exact .inl h₁
    · by_cases h₂ : c = 0x58
      · exact .inr (.inl h₂)
      · by_cases h₃ : c = 0x3F
        · subst h₃
          exact absurd h not_determined_list
        · by_cases hzero : 0 ∈ (c :: ds).take 1024
          · exact .inr (.inr ⟨h₃, hzero⟩)
          · exact absurd h (not_determined_unknown h₁ h₂ h₃ hzero)

/-- A request `'?'` as the first packet: all bytes of the buffer are sent, whatever they were. -/
theorem not_determined_first : ¬ Determined .blank 0 (.datagram ⟨0x7F000001, 8888⟩ (ascii "?")) ∧
    ∀ buffer : Buf 1024, ∃ s sent, iteration .blank 0 (.datagram ⟨0x7F000001, 8888⟩ (ascii "?"))
        (locals buffer 1024) = .ok (s, [sent]) ∧ sent.bytes = ascii "?" ++ buffer.bytes.drop 1 := by
  refine ⟨not_determined_list, fun buffer => ?_⟩
  obtain ⟨rest, hb⟩ := received_cons (locals buffer 1024) ⟨0x7F000001, 8888⟩ 0x3F []
  have hbytes : (received (.datagram ⟨0x7F000001, 8888⟩ [0x3F]) (locals buffer 1024)).buffer.bytes =
      ascii "?" ++ buffer.bytes.drop 1 := recv_bytes (by decide)
  have hread : (received (.datagram ⟨0x7F000001, 8888⟩ [0x3F]) (locals buffer 1024)).buffer.read
      1024 = .ok (ascii "?" ++ buffer.bytes.drop 1) := by
    rw [Buf.read, if_pos (by decide), ← hbytes]
    exact congrArg Except.ok (List.take_of_length_le (Buf.size _).le)
  exact ⟨_, _, (dispatch_list hb).trans (bind_eq_ok.mpr ⟨_, hread, rfl⟩), rfl⟩

end Determined

end LwMix.LwMaster
