import LwMix.Info.ListReply
import LwMix.Info.Reply
import LwMix.Info.Request

/-!
# The info service (`serverInfoProvider` of `lwmix.c`)

The loop of the info thread, over the results of its `recvfrom`. The locals of the loop keep their
values from one iteration to the next, and `server_info` and the clock change in between.

* `infoIteration`, `serverInfoProvider`: the code.
* `InfoInput.answer`: what is sent, as a function of the first byte, `server_info`, the list and the
  clock.
* `infoIteration_eq_ok`, `infoIteration_terminated`: one iteration answers exactly if the strings
  that it reads are terminated in the buffer.
* `serverInfoProvider_iff`: the same of whole runs.
-/

namespace LwMix

/-- The locals that the loop keeps. -/
structure InfoLocals where
  buffer : Buf 1024
  len : Int
  sendResponse : Bool
  theirAddr : SockAddr
  playerListBuffer : Buf 576

/-- The `switch` over the first byte of a packet. -/
def dispatch (signed : Bool) (fuel : ℕ) (m : Mem) (now : BitVec 32) (s : InfoLocals) :
    Except Fault InfoLocals := do
  let c ← s.buffer.get 0
  if c = 0x50 then do
    let (_, scan) ← parseRequest fuel s.buffer
    let (buffer, len) ← infoReply m.info now scan.buf
    pure { s with buffer, len, sendResponse := true }
  else if c = 0x51 then do
    let r ← listReply signed fuel s.playerListBuffer s.buffer m
    pure { s with
      playerListBuffer := r.playerListBuffer
      buffer := r.buffer
      len := r.len
      sendResponse := true }
  else if c = 0x47 then pure { s with sendResponse := false }
  else do
    -- The packet is printed as a string.
    let _ ← s.buffer.string
    pure { s with sendResponse := false }

/-- An iteration of the loop. -/
def infoIteration (signed : Bool) (fuel : ℕ) (m : Mem) (now : BitVec 32) (r : RecvFromResult)
    (s : InfoLocals) : Except Fault (InfoLocals × List Sent) := do
  let (bytesRecv, buffer, theirAddr) := recvFrom r s.buffer s.theirAddr
  let s := { s with buffer, theirAddr, sendResponse := false }
  let s ← if bytesRecv > 1 then dispatch signed fuel m now s else pure s
  if s.sendResponse then do
    let msg ← s.buffer.read s.len
    pure (s, [⟨s.theirAddr, msg⟩])
  else pure (s, [])

/-- What an iteration observes: the memory, with a list on which the cursor of the `'Q'` reply does
not wrap, the clock, and the result of `recvfrom`. -/
structure InfoInput (signed : Bool) where
  mem : Mem
  entries : List Entry
  chain : Chain mem.heap mem.info.playerList entries
  short : (render (sernums entries).dropLast).length ≤ charMax signed
  now : BitVec 32
  recv : RecvFromResult

/-- The loop: what is sent in each iteration. -/
def serverInfoProvider {signed : Bool} (fuel : ℕ) :
    List (InfoInput signed) → InfoLocals → Except Fault (List (List Sent))
  | [], _ => pure []
  | x :: xs, s => do
    let (s, sent) ← infoIteration signed fuel x.mem x.now x.recv s
    let rest ← serverInfoProvider fuel xs s
    pure (sent :: rest)

/-! ## What is sent -/

/-- The answer to a packet with the first byte `c`. -/
def infoAnswer (c : UInt8) (info : ServInfo) (vs : List (BitVec 32)) (now : BitVec 32) :
    Option (List UInt8) :=
  if c = 0x50 then some (infoText info now ++ [0])
  else if c = 0x51 then some (ascii "Q" ++ render vs ++ [0])
  else none

/-- The answer goes to the source of the packet, which has at least two bytes. -/
def InfoInput.answer {signed : Bool} (x : InfoInput signed) : List Sent :=
  match x.recv with
  | .datagram src (c :: _ :: _) =>
    ((infoAnswer c x.mem.info (sernums x.entries) x.now).map (Sent.mk src)).toList
  | _ => []

/-- The strings that the `switch` reads are terminated in the buffer: the one after the first byte of
a `'P'` packet, and a packet of an unknown type. -/
def Terminated (buffer : Buf 1024) (r : RecvFromResult) : Prop :=
  match r with
  | .datagram _ (c :: d :: ds) =>
    if c = 0x50 then 0 ∈ (buffer.recv (c :: d :: ds)).bytes.drop 1
    else c = 0x51 ∨ c = 0x47 ∨ 0 ∈ (buffer.recv (c :: d :: ds)).bytes
  | _ => True

section Iteration

variable {signed : Bool} {fuel : ℕ} {s s' : InfoLocals} {x : InfoInput signed} {sent : List Sent}
  {m : Mem} {now : BitVec 32}

/-- The reply to a `'P'` packet. -/
theorem dispatch_P (m : Mem) (now : BitVec 32) (hc : s.buffer.get 0 = .ok 0x50)
    (hzero : 0 ∈ s.buffer.bytes.drop 1) (hf : 1024 ≤ fuel) :
    ∃ s', dispatch signed fuel m now s = .ok s' ∧ s'.sendResponse = true ∧
      s'.theirAddr = s.theirAddr ∧ s'.buffer.read s'.len = .ok (infoText m.info now ++ [0]) := by
  obtain ⟨c, ys, hb⟩ : ∃ c ys, s.buffer.bytes = c :: ys := by
    refine List.exists_cons_of_ne_nil fun hnil => ?_
    simp [hnil] at hzero
  rw [hb, List.drop_one, List.tail_cons] at hzero
  obtain ⟨xs, rest, rfl, h0⟩ := List.eq_append_cons_of_mem hzero
  have hsize := s.buffer.size
  rw [hb, List.length_cons, List.length_append] at hsize
  obtain ⟨scan, hparse, -⟩ := parseRequest_eq_ok hb h0 (show xs.length < fuel by omega)
  obtain ⟨buffer, hreply, hbytes⟩ := infoReply_eq_ok m.info now scan.buf
  refine ⟨{ s with
    buffer := buffer
    len := (infoText m.info now).length + 1
    sendResponse := true }, ?_, rfl, rfl, ?_⟩
  · simp only [dispatch, hc, bind, Except.bind, ↓reduceIte, hparse, hreply, pure, Except.pure]
  · exact read_text hbytes

/-- The reply to a `'Q'` packet. -/
theorem dispatch_Q {es : List Entry} (now : BitVec 32) (hc : s.buffer.get 0 = .ok 0x51)
    (hm : Chain m.heap m.info.playerList es)
    (hshort : (render (sernums es).dropLast).length ≤ charMax signed) (hf : es.length < fuel) :
    ∃ s', dispatch signed fuel m now s = .ok s' ∧ s'.sendResponse = true ∧
      s'.theirAddr = s.theirAddr ∧
        s'.buffer.read s'.len = .ok (ascii "Q" ++ render (sernums es) ++ [0]) := by
  obtain ⟨k, r, hrun, hd⟩ : ∃ k r,
      listReply signed k s.playerListBuffer s.buffer m = .ok r ∧
        r.datagram = ascii "Q" ++ render (sernums es) ++ [0] :=
    datagram_of_cursor hm (render_length_of_short hshort) hshort
  have hrun := listReply_fuel hm hf hrun
  obtain ⟨h0, hle⟩ := listReply_len hrun
  refine ⟨{ s with
    playerListBuffer := r.playerListBuffer
    buffer := r.buffer
    len := r.len
    sendResponse := true }, ?_, rfl, rfl, ?_⟩
  · simp only [dispatch, hc, bind, Except.bind, hrun, pure, Except.pure]
    rfl
  · rw [Buf.read, if_pos ⟨h0, hle⟩]
    exact congrArg Except.ok hd

/-- The other packets are not answered. -/
theorem dispatch_other {c : UInt8} (hc : s.buffer.get 0 = .ok c) (hP : c ≠ 0x50) (hQ : c ≠ 0x51)
    (hzero : c = 0x47 ∨ 0 ∈ s.buffer.bytes) :
    dispatch signed fuel m now s = .ok { s with sendResponse := false } := by
  simp only [dispatch, hc, bind, Except.bind, hP, hQ, ↓reduceIte]
  by_cases hG : c = 0x47
  · rw [if_pos hG]
    rfl
  · rw [if_neg hG, Buf.string, if_pos (hzero.resolve_left hG)]
    rfl

/-- A `switch` that ends has read terminated strings. -/
theorem dispatch_terminated {c : UInt8} (hc : s.buffer.get 0 = .ok c)
    (h : dispatch signed fuel m now s = .ok s') : if c = 0x50 then 0 ∈ s.buffer.bytes.drop 1
      else c = 0x51 ∨ c = 0x47 ∨ 0 ∈ s.buffer.bytes := by
  obtain ⟨c', hc', h⟩ := bind_eq_ok.mp h
  rw [hc] at hc'
  obtain rfl := Except.ok.inj hc'
  by_cases hP : c = 0x50
  · rw [if_pos hP] at h ⊢
    obtain ⟨r, hr, -⟩ := bind_eq_ok.mp h
    exact scanTokens_zero hr
  · rw [if_neg hP] at h ⊢
    by_cases hQ : c = 0x51
    · exact .inl hQ
    · rw [if_neg hQ] at h
      by_cases hG : c = 0x47
      · exact .inr (.inl hG)
      · rw [if_neg hG] at h
        obtain ⟨text, ht, -⟩ := bind_eq_ok.mp h
        unfold Buf.string at ht
        split at ht
        · rename_i hzero
          exact .inr (.inr hzero)
        · cases ht

/-- The locals at the `switch`, after a packet was received. -/
def InfoLocals.received (s : InfoLocals) (src : SockAddr) (d : List UInt8) : InfoLocals :=
  { s with buffer := s.buffer.recv d, theirAddr := src, sendResponse := false }

theorem InfoLocals.received_cons (s : InfoLocals) (src : SockAddr) (c : UInt8) (ds : List UInt8) :
    ∃ rest, (s.received src (c :: ds)).buffer.bytes = c :: rest :=
  recv_cons (by decide)

/-- The end of an iteration. -/
def InfoLocals.send (s : InfoLocals) : Except Fault (InfoLocals × List Sent) :=
  if s.sendResponse then do
    let msg ← s.buffer.read s.len
    pure (s, [⟨s.theirAddr, msg⟩])
  else pure (s, [])

/-- The reply of a `switch` is sent to `their_addr`. -/
theorem InfoLocals.send_reply {msg : List UInt8} (hsend : s.sendResponse = true)
    (hread : s.buffer.read s.len = .ok msg) : s.send = .ok (s, [⟨s.theirAddr, msg⟩]) := by
  rw [InfoLocals.send, if_pos hsend, hread]
  rfl

theorem infoIteration_packet {src : SockAddr} {c d : UInt8} {ds : List UInt8} :
    infoIteration signed fuel m now (.datagram src (c :: d :: ds)) s =
      dispatch signed fuel m now (s.received src (c :: d :: ds)) >>= InfoLocals.send := by
  have hlen : (((c :: d :: ds).take 1024).length : Int) > 1 := by
    rw [List.length_take, List.length_cons, List.length_cons]
    omega
  simp only [infoIteration, recvFrom, hlen, ↓reduceIte]
  rfl

/-- Nothing is sent when the receive failed, or for a packet of one byte or none. -/
theorem infoIteration_skip {r : RecvFromResult}
    (hr : r = .failed ∨ ∃ src d, r = .datagram src d ∧ d.length ≤ 1) :
    ∃ s', infoIteration signed fuel m now r s = .ok (s', []) := by
  rcases hr with rfl | ⟨src, d, rfl, hd⟩
  · exact ⟨_, rfl⟩
  · have hlen : ¬ ((d.take 1024).length : Int) > 1 := by
      rw [List.length_take]
      omega
    refine ⟨{ s with buffer := s.buffer.recv d, theirAddr := src, sendResponse := false }, ?_⟩
    simp only [infoIteration, recvFrom, hlen, ↓reduceIte]
    rfl

/-- **An iteration** on terminated strings sends the answer. -/
theorem infoIteration_eq_ok (ht : Terminated s.buffer x.recv) (hf : 1024 ≤ fuel)
    (hf' : x.entries.length < fuel) :
    ∃ s', infoIteration signed fuel x.mem x.now x.recv s = .ok (s', x.answer) := by
  obtain ⟨m, es, hm, hshort, now, r⟩ := x
  match r, ht with
  | .failed, _ => exact infoIteration_skip (.inl rfl)
  | .datagram src [], _ => exact infoIteration_skip (.inr ⟨src, [], rfl, by simp⟩)
  | .datagram src [c], _ => exact infoIteration_skip (.inr ⟨src, [c], rfl, by simp⟩)
  | .datagram src (c :: d :: ds), ht =>
    have hc : (s.received src (c :: d :: ds)).buffer.get 0 = .ok c := by
      obtain ⟨rest, hrest⟩ := s.received_cons src c (d :: ds)
      exact get_first hrest
    simp only [Terminated] at ht
    simp only [InfoInput.answer, infoAnswer]
    rw [infoIteration_packet]
    by_cases hP : c = 0x50
    · subst hP
      rw [if_pos rfl] at ht ⊢
      obtain ⟨s', hrun, hsend, haddr, hread⟩ := dispatch_P m now hc ht hf
      refine ⟨s', bind_eq_ok.mpr ⟨s', hrun, ?_⟩⟩
      rw [InfoLocals.send_reply hsend hread, haddr]
      rfl
    · rw [if_neg hP] at ht ⊢
      by_cases hQ : c = 0x51
      · subst hQ
        rw [if_pos rfl]
        obtain ⟨s', hrun, hsend, haddr, hread⟩ := dispatch_Q now hc hm hshort hf'
        refine ⟨s', bind_eq_ok.mpr ⟨s', hrun, ?_⟩⟩
        rw [InfoLocals.send_reply hsend hread, haddr]
        rfl
      · rw [if_neg hQ]
        exact ⟨_, bind_eq_ok.mpr
          ⟨_, dispatch_other hc hP hQ (ht.resolve_left hQ), rfl⟩⟩

/-- An iteration that ends has read terminated strings. -/
theorem infoIteration_terminated {r : RecvFromResult} {p : InfoLocals × List Sent}
    (h : infoIteration signed fuel m now r s = .ok p) : Terminated s.buffer r := by
  match r, h with
  | .failed, _ => trivial
  | .datagram _ [], _ => trivial
  | .datagram _ [_], _ => trivial
  | .datagram src (c :: d :: ds), h =>
    rw [infoIteration_packet] at h
    obtain ⟨s', hs', -⟩ := bind_eq_ok.mp h
    obtain ⟨rest, hrest⟩ := s.received_cons src c (d :: ds)
    exact dispatch_terminated (get_first hrest) hs'

end Iteration

/-! ## Runs -/

section Run

variable {signed : Bool} {fuel : ℕ} {s : InfoLocals} {xs : List (InfoInput signed)}

/-- In every iteration of the run, the strings that are read are terminated. -/
def TerminatedRun {signed : Bool} (fuel : ℕ) : List (InfoInput signed) → InfoLocals → Prop
  | [], _ => True
  | x :: xs, s => Terminated s.buffer x.recv ∧ ∀ s' sent,
      infoIteration signed fuel x.mem x.now x.recv s = .ok (s', sent) → TerminatedRun fuel xs s'

/-- **The info service.** Every run ends and sends its answers, which are functions of the first
byte, `server_info`, the list and the clock, exactly if in every iteration the strings that are read
are terminated. -/
theorem serverInfoProvider_iff (hf : 1024 ≤ fuel) (hf' : ∀ x ∈ xs, x.entries.length < fuel) :
    serverInfoProvider fuel xs s = .ok (xs.map InfoInput.answer) ↔ TerminatedRun fuel xs s := by
  induction xs generalizing s with
  | nil => simp [serverInfoProvider, TerminatedRun, pure, Except.pure]
  | cons x xs ih =>
    have hx := hf' x List.mem_cons_self
    have ih := fun s => ih (s := s) fun y hy => hf' y (List.mem_cons_of_mem _ hy)
    constructor
    · intro h
      obtain ⟨⟨s', sent⟩, hstep, h⟩ := bind_eq_ok.mp h
      obtain ⟨rest, hrest, h⟩ := bind_eq_ok.mp h
      obtain ⟨-, rfl⟩ := List.cons.inj (pure_eq_ok.mp h)
      refine ⟨infoIteration_terminated hstep, fun s'' sent' hstep' => ?_⟩
      rw [hstep] at hstep'
      cases hstep'
      exact (ih s').mp hrest
    · rintro ⟨ht, hrun⟩
      obtain ⟨s', hstep⟩ := infoIteration_eq_ok ht hf hx
      exact bind_eq_ok.mpr ⟨_, hstep, bind_eq_ok.mpr ⟨_, (ih s').mpr (hrun _ _ hstep), rfl⟩⟩

/-- A packet with a terminator after its first byte is terminated in every buffer. -/
theorem terminated_of_zero {buffer : Buf 1024} {src : SockAddr} {d : List UInt8}
    (hd : d.length ≤ 1024) (hzero : 0 ∈ d.drop 1) : Terminated buffer (.datagram src d) := by
  match d, hd, hzero with
  | c :: d :: ds, hd, hzero =>
    have hmem : 0 ∈ d :: ds ++ buffer.bytes.drop (c :: d :: ds).length :=
      List.mem_append_left _ hzero
    simp only [Terminated, recv_bytes hd, List.cons_append, List.drop_one, List.tail_cons]
    split
    · exact hmem
    · exact .inr (.inr (List.mem_cons_of_mem _ hmem))

theorem terminated_Q (buffer : Buf 1024) (src : SockAddr) (d : UInt8) (ds : List UInt8) :
    Terminated buffer (.datagram src (0x51 :: d :: ds)) := by
  unfold Terminated
  simp

/-- A `'P'` packet that fills the buffer without a terminator. -/
theorem not_terminated_full {buffer : Buf 1024} {src : SockAddr} {d : UInt8} {ds : List UInt8}
    (hlen : (0x50 :: d :: ds).length = 1024) (h0 : 0 ∉ d :: ds) :
    ¬ Terminated buffer (.datagram src (0x50 :: d :: ds)) := by
  have hnil : buffer.bytes.drop 1024 = [] := List.drop_eq_nil_of_le buffer.size.le
  unfold Terminated
  simp only [↓reduceIte, recv_bytes hlen.le, hlen, hnil, List.append_nil, List.drop_one,
    List.tail_cons]
  exact h0

/-- An iteration of a server without players. -/
def noPlayers (r : RecvFromResult) : InfoInput true where
  mem := ⟨.empty, .blank⟩
  entries := []
  chain := Chain.nil_iff.mpr rfl
  short := by decide
  now := 0x4F000000
  recv := r

/-- The address of a client. -/
def client : SockAddr := ⟨0x7F000001, 8888⟩

/-- A request, a failed receive, an empty packet and a request for the list. -/
theorem serverInfoProvider_four : serverInfoProvider 1024
    [noPlayers (.datagram client (ascii "Palias=Newb" ++ [0])), noPlayers .failed,
      noPlayers (.datagram client []), noPlayers (.datagram client (ascii "QQ"))]
    ⟨.zero 1024, 0, false, ⟨0, 0⟩, .zero 576⟩ =
      .ok [[⟨client, infoText .blank 0x4F000000 ++ [0]⟩], [], [], [⟨client, ascii "Q" ++ [0]⟩]] :=
  (serverInfoProvider_iff (le_refl _) (by simp [noPlayers])).mpr
    ⟨terminated_of_zero (by decide) (by decide), fun _ _ _ => ⟨trivial, fun _ _ _ =>
      ⟨trivial, fun _ _ _ => ⟨terminated_Q _ _ _ _, fun _ _ _ => trivial⟩⟩⟩⟩

/-- A `'P'` packet of 1024 bytes without a terminator: the parse leaves the buffer. -/
theorem not_serverInfoProvider_full : ∃ x : InfoInput true,
    x.recv = .datagram client (0x50 :: 0x61 :: List.replicate 1022 0x61) ∧
      ∀ fuel s sent, serverInfoProvider fuel [x] s ≠ .ok sent := by
  refine ⟨noPlayers (.datagram _ (0x50 :: 0x61 :: List.replicate 1022 0x61)), rfl,
    fun fuel s sent h => ?_⟩
  obtain ⟨p, hstep, -⟩ := bind_eq_ok.mp h
  refine not_terminated_full ?_ ?_ (infoIteration_terminated hstep)
  · rw [List.length_cons, List.length_cons, List.length_replicate]
  · intro hzero
    rcases List.mem_cons.mp hzero with h0 | h0
    · exact absurd h0 (by decide)
    · exact absurd (List.eq_of_mem_replicate h0) (by decide)

end Run

end LwMix
