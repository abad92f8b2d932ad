import LwMix.Base.Network
import LwMix.Info.Provider

/-!
# The info service and its clients

The info loop of `lwmix.c` with any number of clients, over a network that loses, copies and reorders
datagrams. A client sends what it likes from its own address, and a `recvfrom` can fail. The player
list is what the loop finds at each packet (`InfoInput`). The loop receives from its own socket.

* `infoHosts`: the loop and its clients.
* `provider_of_run`: the loop of the network is `serverInfoProvider`.
* `requests_balance`: every request is answered once, whatever the network and the others do.
* `requests_served`: what the answers say, and that terminated requests are always served.
-/

namespace LwMix

abbrev Dgram := Packet SockAddr (List UInt8)

/-- What the host at `a` sends. -/
def replies (a : SockAddr) (sent : List Sent) : List Dgram :=
  sent.map fun m => ⟨a, m.dest, m.bytes⟩

/-- What happens without a packet: a client sends a datagram, or a `recvfrom` fails. -/
inductive InfoAct (signed : Bool) where
  | client (p : Dgram)
  | recvfromFails (x : InfoInput signed)

/-- The packet that is received. -/
def InfoInput.from {signed : Bool} (x : InfoInput signed) (p : Dgram) : InfoInput signed :=
  { x with recv := .datagram p.src p.msg }

/-- An iteration of the loop, with fuel for its player list. -/
def serve {signed : Bool} (fuel : ℕ) (server : SockAddr) (x : InfoInput signed) (s : InfoLocals) :
    Except Fault (InfoLocals × List Dgram) :=
  if x.entries.length < 1024 + fuel then do
    let (s, sent) ← infoIteration signed (1024 + fuel) x.mem x.now x.recv s
    pure (s, replies server sent)
  else .error .fuel

/-- The loop at `server`, and its clients. -/
def infoHosts (signed : Bool) (fuel : ℕ) (server : SockAddr) :
    Hosts InfoLocals (InfoAct signed) (InfoInput signed) Dgram Fault where
  act s
    | .client p => if p.src ≠ server then pure (s, [p]) else .error .protocol
    | .recvfromFails x => serve fuel server { x with recv := .failed } s
  recv s x p := if p.dest = server then serve fuel server (x.from p) s else pure (s, [])

section

variable {signed : Bool} {fuel : ℕ} {server a : SockAddr} {x : InfoInput signed}
  {s s' : InfoLocals} {p : Dgram} {ps : List Dgram}

/-- **What an iteration sends** is the answer to its packet. -/
theorem serve_eq_ok (h : serve fuel server x s = .ok (s', ps)) :
    infoIteration signed (1024 + fuel) x.mem x.now x.recv s = .ok (s', x.answer) ∧
      ps = replies server x.answer := by
  unfold serve at h
  split at h
  · rename_i hlen
    obtain ⟨⟨s₁, sent⟩, hit, h⟩ := bind_eq_ok.mp h
    cases pure_eq_ok.mp h
    obtain ⟨s₂, hanswer⟩ := infoIteration_eq_ok (infoIteration_terminated hit)
      (show 1024 ≤ 1024 + fuel by omega) hlen
    obtain rfl : sent = x.answer := (Prod.mk.inj (Except.ok.inj (hit.symm.trans hanswer))).2
    exact ⟨hit, rfl⟩
  · cases h

/-- **What a client or a failed `recvfrom` does.** -/
theorem infoHosts_act {i : InfoAct signed} (h : (infoHosts signed fuel server).act s i = .ok (s', ps)) :
    (∃ p, i = .client p ∧ p.src ≠ server ∧ s' = s ∧ ps = [p]) ∨
      ∃ x, i = .recvfromFails x ∧ ps = [] ∧
        infoIteration signed (1024 + fuel) x.mem x.now .failed s = .ok (s', []) := by
  cases i with
  | client p =>
    simp only [infoHosts] at h
    split at h
    · rename_i hsrc
      cases pure_eq_ok.mp h
      exact .inl ⟨p, rfl, hsrc, rfl, rfl⟩
    · cases h
  | recvfromFails x =>
    obtain ⟨hit, rfl⟩ := serve_eq_ok h
    exact .inr ⟨x, rfl, rfl, hit⟩

/-- **What a packet does.** -/
theorem infoHosts_recv (h : (infoHosts signed fuel server).recv s x p = .ok (s', ps)) :
    p.dest = server ∧ ps = replies server (x.from p).answer ∧
        infoIteration signed (1024 + fuel) x.mem x.now (.datagram p.src p.msg) s =
          .ok (s', (x.from p).answer) ∨
      p.dest ≠ server ∧ s' = s ∧ ps = [] := by
  simp only [infoHosts] at h
  split at h
  · rename_i hdest
    obtain ⟨hit, rfl⟩ := serve_eq_ok h
    exact .inl ⟨hdest, rfl, hit⟩
  · rename_i hdest
    cases pure_eq_ok.mp h
    exact .inr ⟨hdest, rfl, rfl⟩

/-! ## Requests and their answers -/

/-- A request that is answered. -/
def IsRequest (d : List UInt8) : Prop :=
  match d with
  | c :: _ :: _ => c = 0x50 ∨ c = 0x51
  | _ => False

instance : (d : List UInt8) → Decidable (IsRequest d)
  | c :: _ :: _ => inferInstanceAs (Decidable (c = 0x50 ∨ c = 0x51))
  | [] | [_] => .isFalse id

/-- A request of `a` to the server. -/
def RequestOf (server a : SockAddr) (p : Dgram) : Prop :=
  p.src = a ∧ p.dest = server ∧ IsRequest p.msg

/-- An answer of the server to `a`. -/
def AnswerTo (server a : SockAddr) (p : Dgram) : Prop := p.src = server ∧ p.dest = a

instance : DecidablePred (RequestOf server a) := fun p =>
  inferInstanceAs (Decidable (p.src = a ∧ p.dest = server ∧ IsRequest p.msg))

instance : DecidablePred (AnswerTo server a) := fun p =>
  inferInstanceAs (Decidable (p.src = server ∧ p.dest = a))

/-- A request has one answer, which goes back to its source. -/
theorem InfoInput.answer_request (hr : x.recv = .datagram a d) (hd : IsRequest d) :
    ∃ msg, x.answer = [⟨a, msg⟩] := by
  match d, hd with
  | c :: _ :: _, hd =>
    unfold InfoInput.answer
    rw [hr]
    rcases hd with rfl | rfl <;> exact ⟨_, rfl⟩

/-- The whole text of an answer. -/
def IsAnswer (d : List UInt8) : Prop :=
  (∃ info now, d = infoText info now ++ [0]) ∨ ∃ vs, d = ascii "Q" ++ render vs ++ [0]

/-- Only requests have an answer. -/
theorem InfoInput.answer_eq {m : Sent} (hm : m ∈ x.answer) :
    (∃ d, x.recv = .datagram m.dest d ∧ IsRequest d) ∧ IsAnswer m.bytes := by
  unfold InfoInput.answer at hm
  split at hm
  · rename_i src c _ _ hr
    unfold infoAnswer at hm
    split at hm
    · rename_i hc
      obtain rfl := List.mem_singleton.mp hm
      exact ⟨⟨_, hr, .inl hc⟩, .inl ⟨_, _, rfl⟩⟩
    · split at hm
      · rename_i hc
        obtain rfl := List.mem_singleton.mp hm
        exact ⟨⟨_, hr, .inr hc⟩, .inr ⟨_, rfl⟩⟩
      · cases hm
  · cases hm

/-- What is sent by the server is an answer. -/
def FromService (server : SockAddr) (p : Dgram) : Prop := p.src = server → IsAnswer p.msg

theorem fromService_replies (x : InfoInput signed) :
    ∀ p ∈ replies server x.answer, FromService server p := by
  intro p hp _
  obtain ⟨m, hm, rfl⟩ := List.mem_map.mp hp
  exact (InfoInput.answer_eq hm).2

theorem infoHosts_keeps :
    (infoHosts signed fuel server).Keeps (fun _ => True) (FromService server) where
  act := by
    intro s s' i ps _ h
    refine ⟨trivial, fun p hp => ?_⟩
    obtain ⟨p', -, hsrc, -, rfl⟩ | ⟨x, -, rfl, -⟩ := infoHosts_act h
    · obtain rfl := List.mem_singleton.mp hp
      exact fun hs => absurd hs hsrc
    · cases hp
  recv := by
    intro s s' x p ps _ _ h
    refine ⟨trivial, fun p' hp' => ?_⟩
    obtain ⟨-, rfl, -⟩ | ⟨-, -, rfl⟩ := infoHosts_recv h
    · exact fromService_replies _ p' hp'
    · cases hp'

/-- **The service answers** every request once, and sends nothing else. -/
theorem infoHosts_answers :
    (infoHosts signed fuel server).Answers (fun _ => True) (FromService server) (RequestOf server a)
      (AnswerTo server a) where
  act := by
    intro s s' i ps _ h m hm hans
    obtain ⟨p, -, hsrc, -, rfl⟩ | ⟨x, -, rfl, -⟩ := infoHosts_act h
    · exact hsrc (List.mem_singleton.mp hm ▸ hans.1)
    · cases hm
  request := by
    rintro s s' x ⟨src, dest, msg⟩ ps _ _ ⟨rfl, rfl, hreq⟩ h
    obtain ⟨-, rfl, -⟩ | ⟨hdest, -⟩ := infoHosts_recv h
    · obtain ⟨text, hans⟩ := InfoInput.answer_request (x := x.from ⟨src, dest, msg⟩) rfl hreq
      rw [hans]
      exact ⟨_, rfl, rfl, rfl⟩
    · exact absurd rfl hdest
  other := by
    intro s s' x p ps _ _ hq h m hm hans
    obtain ⟨hdest, rfl, -⟩ | ⟨-, -, rfl⟩ := infoHosts_recv h
    · obtain ⟨m', hm', rfl⟩ := List.mem_map.mp hm
      obtain ⟨⟨d, hr, hreq⟩, -⟩ := InfoInput.answer_eq hm'
      obtain ⟨hsrc, rfl⟩ := RecvFromResult.datagram.inj hr
      exact hq ⟨hsrc.trans hans.2, hdest, hreq⟩
    · cases hm

variable {w₀ w : Network InfoLocals Dgram}

/-- **Every request is accounted for.** In every reachable state, the requests that a client sent, and
the copies of requests and answers, are the ones that are in flight or lost and the answers that the
client received. -/
theorem requests_balance (h₀ : w₀.flow = .empty)
    (h : (infoHosts signed fuel server).network.Reach w₀ w) (a : SockAddr) :
    w.flow.sent.countP (RequestOf server a) +
        (w.flow.copied.countP (RequestOf server a) + w.flow.copied.countP (AnswerTo server a)) =
      (w.flow.flight.countP (RequestOf server a) + w.flow.flight.countP (AnswerTo server a)) +
        w.flow.received.countP (AnswerTo server a) +
        (w.flow.lost.countP (RequestOf server a) + w.flow.lost.countP (AnswerTo server a)) :=
  Hosts.Reach.balance h infoHosts_keeps infoHosts_answers trivial h₀

/-- A request for the list. -/
def sampleRequest : Dgram := ⟨client, ⟨0, 8888⟩, ascii "QQ"⟩

/-- The locals at first, without packets. -/
def sampleService : Network InfoLocals Dgram :=
  ⟨⟨.zero 1024, 0, false, ⟨0, 0⟩, .zero 576⟩, .empty⟩

/-- The request is copied, and one of the two is answered. -/
theorem reach_copiedRequest : ∃ w,
    (infoHosts true 0 ⟨0, 8888⟩).network.Reach sampleService w ∧
    w.flow.sent.countP (RequestOf ⟨0, 8888⟩ client) = 1 ∧
    w.flow.copied.countP (RequestOf ⟨0, 8888⟩ client) = 1 ∧
    w.flow.copied.countP (AnswerTo ⟨0, 8888⟩ client) = 0 ∧
    w.flow.received.countP (AnswerTo ⟨0, 8888⟩ client) = 0 ∧ w.flow.lost = 0 := by
  obtain ⟨w, hw, h⟩ : ∃ w, Lts.exec Hosts.Admits (infoHosts true 0 ⟨0, 8888⟩).step sampleService
      [.act (.client sampleRequest), .copy sampleRequest,
        .recv (noPlayers .failed) sampleRequest] = some w ∧
      w.flow.sent.countP (RequestOf ⟨0, 8888⟩ client) = 1 ∧
      w.flow.copied.countP (RequestOf ⟨0, 8888⟩ client) = 1 ∧
      w.flow.copied.countP (AnswerTo ⟨0, 8888⟩ client) = 0 ∧
      w.flow.received.countP (AnswerTo ⟨0, 8888⟩ client) = 0 ∧
      w.flow.lost = 0 := ⟨_, rfl, rfl, rfl, rfl, rfl, rfl⟩
  exact ⟨w, Lts.reach_of_exec hw, h⟩

/-- The one copy is in flight, and so is the answer to the other one. -/
theorem requests_balance_copied : ∃ w,
    (infoHosts true 0 ⟨0, 8888⟩).network.Reach sampleService w ∧
    w.flow.flight.countP (RequestOf ⟨0, 8888⟩ client) +
      w.flow.flight.countP (AnswerTo ⟨0, 8888⟩ client) = 2 := by
  obtain ⟨w, hw, hsent, hrequests, hanswers, hreceived, hlost⟩ := reach_copiedRequest
  have hbalance := requests_balance rfl hw client
  rw [hsent, hrequests, hanswers, hreceived, hlost] at hbalance
  simp only [Multiset.countP_zero] at hbalance
  exact ⟨w, hw, by omega⟩

/-- **The service never stops** at a terminated request, whatever it received before, and whatever is
sent by it is a whole text. -/
theorem requests_served (h₀ : w₀.flow = .empty)
    (h : (infoHosts signed fuel server).network.Reach w₀ w) :
    (∀ p ∈ w.flow.sent, FromService server p) ∧
    ∀ p ∈ w.flow.flight, p.dest = server → p.msg.length ≤ 1024 → 0 ∈ p.msg.drop 1 →
      ∀ x : InfoInput signed, x.entries.length < 1024 + fuel →
        ∃ s ps, (infoHosts signed fuel server).network.step w (.recv x p)
          ⟨s, (w.flow.receive p).send ps⟩ ∧ ps = replies server (x.from p).answer := by
  have hkeeps := Hosts.Reach.keeps h infoHosts_keeps (h₀ ▸ .empty) trivial
    (by rw [h₀]; exact fun p hp => absurd hp (Multiset.notMem_zero p))
  refine ⟨hkeeps.2, fun p hp hdest hlen hzero x hx => ?_⟩
  obtain ⟨s', hit⟩ := infoIteration_eq_ok (x := x.from p) (terminated_of_zero hlen hzero)
    (show 1024 ≤ 1024 + fuel by omega) hx
  have hserve : serve fuel server (x.from p) w.hosts = .ok (s', replies server (x.from p).answer) :=
    (if_pos hx).trans (bind_eq_ok.mpr ⟨_, hit, rfl⟩)
  exact ⟨s', _, Hosts.step_of_recv hp ((if_pos hdest).trans hserve), rfl⟩

/-- A terminated request that was just sent. -/
theorem requests_served_terminated : ∃ (w : Network InfoLocals Dgram) (p : Dgram) (s : InfoLocals)
    (ps : List Dgram), p.msg = ascii "Palias=Newb" ++ [0] ∧
      (infoHosts true 0 ⟨0, 8888⟩).network.step w (.recv (noPlayers .failed) p)
        ⟨s, (w.flow.receive p).send ps⟩ ∧
      ps = [⟨⟨0, 8888⟩, client, infoText .blank 0x4F000000 ++ [0]⟩] := by
  let p : Dgram := ⟨client, ⟨0, 8888⟩, ascii "Palias=Newb" ++ [0]⟩
  have hst : (infoHosts true 0 ⟨0, 8888⟩).network.step sampleService (.act (.client p))
      ⟨sampleService.hosts, sampleService.flow.send [p]⟩ := ⟨trivial, rfl⟩
  obtain ⟨s, ps, hrecv, hps⟩ := (requests_served rfl (.tail .refl hst)).2 p
    (Multiset.mem_singleton_self p) rfl (by decide) (by decide) (noPlayers .failed) (by decide)
  exact ⟨_, p, s, ps, rfl, hrecv, hps⟩

/-! ## The loop in the network -/

variable {l : NetLabel (InfoAct signed) (InfoInput signed) Dgram} {w' : Network InfoLocals Dgram}
  {q : List (NetLabel (InfoAct signed) (InfoInput signed) Dgram × Network InfoLocals Dgram)}

/-- What the loop observes in a step. -/
def infoInputs (server : SockAddr) (_ : Network InfoLocals Dgram) :
    NetLabel (InfoAct signed) (InfoInput signed) Dgram → List (InfoInput signed)
  | .recv x p => if p.dest = server then [x.from p] else []
  | .act (.recvfromFails x) => [{ x with recv := .failed }]
  | _ => []

/-- A step of the network is an iteration, or does not touch the locals. -/
theorem provider_of_step (h : (infoHosts signed fuel server).network.step w l w')
    {xs : List (InfoInput signed)} {r : List (List Sent)}
    (hr : serverInfoProvider (1024 + fuel) xs w'.hosts = .ok r) :
    serverInfoProvider (1024 + fuel) (infoInputs server w l ++ xs) w.hosts =
      .ok ((infoInputs server w l).map InfoInput.answer ++ r) := by
  cases Hosts.step_cases h with
  | act i s ps hact =>
    obtain ⟨p, rfl, -, rfl, -⟩ | ⟨x, rfl, -, hit⟩ := infoHosts_act hact
    · exact hr
    · exact bind_eq_ok.mpr ⟨_, hit, bind_eq_ok.mpr ⟨_, hr, rfl⟩⟩
  | recv x p s ps _ hrecv =>
    simp only [infoInputs]
    obtain ⟨hdest, -, hit⟩ | ⟨hdest, rfl, -⟩ := infoHosts_recv hrecv
    · rw [if_pos hdest]
      exact bind_eq_ok.mpr ⟨_, hit, bind_eq_ok.mpr ⟨_, hr, rfl⟩⟩
    · rw [if_neg hdest]
      exact hr
  | lose | copy => exact hr

/-- **The loop of the network** is `serverInfoProvider`: along every run it sends the answers to the
packets that it receives, in their order. -/
theorem provider_of_run (h : (infoHosts signed fuel server).network.Run w q) :
    serverInfoProvider (1024 + fuel) (Lts.along (infoInputs server) w q) w.hosts =
      .ok ((Lts.along (infoInputs server) w q).map InfoInput.answer) := by
  induction h with
  | nil => rfl
  | cons hst _ ih =>
    rw [Lts.along, List.map_append]
    exact provider_of_step hst ih

end

end LwMix
