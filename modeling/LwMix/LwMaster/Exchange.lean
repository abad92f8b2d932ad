import LwMix.LwMaster.Network

/-!
# The exchange of a server with its master

* `iteration_cases`: what an iteration of the master does.
* `Site.Inv`: the invariant of the hosts. `Site.Texts`: what a datagram says.
* `Site.keeps`, `Site.answers`: the hosts keep the invariant, and the master answers each check-in once.
* `exchange_balance`: so every check-in is accounted for, whatever the network and the others do.
* `exchange_texts`: what the parties read, and that none of them stops the other one.
-/

namespace LwMix.LwMaster

/-! ## The loop of the master -/

section Iteration

variable {info : ServInfo} {now : BitVec 32} {s s' : Locals} {r : RecvFromResult} {sent : List Sent}

/-- After a reply, the buffer has its text. -/
theorem dispatch_reply {rest : List UInt8} (info : ServInfo) (now : BitVec 32)
    (hb : s.buffer.bytes = 0x21 :: rest) : ∃ s' rest',
      dispatch info now s >>= send = .ok (s', [⟨s.theirAddr, replyText info now ++ [0]⟩]) ∧
        s'.theirAddr = s.theirAddr ∧ s'.buffer.bytes = 0x23 :: rest' := by
  have hlen := replyText_length_le info now
  obtain ⟨b, hprint, hbytes⟩ :=
    snprintf_text s.buffer (show (replyText info now).length < 1024 by omega)
  have hc : s.buffer.get 0 = .ok 0x21 := get_first hb
  have hread := read_text hbytes
  refine ⟨{ s with
    buffer := b
    len := (replyText info now).length + 1
    sendResponse := true }, _, ?_, rfl, hbytes.trans rfl⟩
  simp only [dispatch, hc, bind, Except.bind, ↓reduceIte, hprint, pure, Except.pure, send, hread]

/-- **What an iteration does.** It answers a `'!'` that starts the buffer, it sends whatever is in a
buffer that starts with `'?'`, and otherwise it sends nothing. -/
theorem iteration_cases (h : iteration info now r s = .ok (s', sent)) :
    s'.theirAddr = (received r s).theirAddr ∧
      ∃ c rest, (received r s).buffer.bytes = c :: rest ∧
        (c = 0x21 ∧ sent = [⟨s'.theirAddr, replyText info now ++ [0]⟩] ∧
            (∃ rest', s'.buffer.bytes = 0x23 :: rest') ∨
          s'.buffer = (received r s).buffer ∧
            (c = 0x3F ∧ (∃ msg, sent = [⟨s'.theirAddr, msg⟩]) ∨
              c ≠ 0x21 ∧ c ≠ 0x3F ∧ sent = [])) := by
  rw [iteration_eq] at h
  generalize received r s = s₀ at h ⊢
  obtain ⟨c, rest, hb⟩ : ∃ c rest, s₀.buffer.bytes = c :: rest := by
    refine List.exists_cons_of_ne_nil fun hnil => ?_
    have := s₀.buffer.size
    simp [hnil] at this
  by_cases h₁ : c = 0x21
  · subst h₁
    obtain ⟨s₁, rest', hok, haddr, hfirst⟩ := dispatch_reply info now hb
    rw [hok] at h
    cases h
    exact ⟨haddr, _, _, hb, .inl ⟨rfl, by rw [haddr], _, hfirst⟩⟩
  · by_cases h₃ : c = 0x3F
    · subst h₃
      rw [dispatch_list hb] at h
      obtain ⟨msg, -, h⟩ := bind_eq_ok.mp h
      cases h
      exact ⟨rfl, _, _, hb, .inr ⟨rfl, .inl ⟨rfl, _, rfl⟩⟩⟩
    · suffices hs : s' = { s₀ with sendResponse := false } ∧ sent = [] by
        obtain ⟨rfl, rfl⟩ := hs
        exact ⟨rfl, _, _, hb, .inr ⟨rfl, .inr ⟨h₁, h₃, rfl⟩⟩⟩
      by_cases h₂ : c = 0x58
      · subst h₂
        have hc : s₀.buffer.get 0 = .ok 0x58 := get_first hb
        simp only [dispatch, hc, bind, Except.bind] at h
        cases h
        exact ⟨rfl, rfl⟩
      · exact Prod.mk.inj ((dispatch_unknown hb h₁ h₂ h₃).mp h).2

end Iteration

/-! ## The invariant of the hosts -/

section Exchange

variable {site : Site} {servers : SockAddr → Prop} {s s' : Peers} {now : BitVec 32} {a : SockAddr}
  {p : Dgram} {ps : List Dgram}

/-- The check-in threads are those of `servers`, and if one of them was heard last, the buffer of the
master starts with nothing that is answered. -/
structure Site.Inv (site : Site) (servers : SockAddr → Prop) (s : Peers) : Prop where
  timers : ∀ a, servers a ↔ s.timers a ≠ none
  master : ¬ servers site.master
  quiet : servers s.locals.theirAddr →
    ∃ c rest, s.locals.buffer.bytes = c :: rest ∧ c ≠ 0x21 ∧ c ≠ 0x3F

/-- A server sends check-ins and check-outs, and gets replies. -/
structure Site.Texts (site : Site) (servers : SockAddr → Prop) (p : Dgram) : Prop where
  server : servers p.src → FromServer p.msg
  reply : p.src = site.master → servers p.dest → ∃ now, p.msg = replyText site.info now ++ [0]

/-- The master at the `switch`, with a server's address: the server has just sent a `'!'`, or nothing
is answered. -/
theorem Site.Inv.heard (hi : site.Inv servers s) {r : RecvFromResult}
    (hr : ∀ src d, r = .datagram src d → servers src → FromServer d) {c : UInt8}
    {rest : List UInt8} (hb : (received r s.locals).buffer.bytes = c :: rest)
    (hs : servers (received r s.locals).theirAddr) :
    (∃ ds, r = .datagram (received r s.locals).theirAddr (0x21 :: ds)) ∨ c ≠ 0x21 ∧ c ≠ 0x3F := by
  cases r with
  | failed =>
    obtain ⟨c', rest', hb', hc⟩ := hi.quiet hs
    obtain ⟨rfl, -⟩ := List.cons.inj (hb.symm.trans hb')
    exact .inr hc
  | datagram src d =>
    rcases (hr src d rfl hs).start with ⟨ds, rfl⟩ | ⟨ds, rfl⟩
    · exact .inl ⟨ds, rfl⟩
    · obtain ⟨rest', hb'⟩ := received_cons s.locals src 0x58 ds
      obtain ⟨rfl, -⟩ := List.cons.inj (hb.symm.trans hb')
      exact .inr ⟨by decide, by decide⟩

/-- An iteration of the master sends to a server only the reply to its check-in. -/
theorem Site.Inv.iterate (hi : site.Inv servers s) {r : RecvFromResult} {l : Locals}
    {sent : List Sent} (hr : ∀ src d, r = .datagram src d → servers src → FromServer d)
    (h : iteration site.info now r s.locals = .ok (l, sent)) :
    site.Inv servers { s with locals := l } ∧ ∀ m ∈ sent, servers m.dest →
      (∃ ds, r = .datagram m.dest (0x21 :: ds)) ∧ m.bytes = replyText site.info now ++ [0] := by
  obtain ⟨haddr, c, rest, hb, hcase⟩ := iteration_cases h
  have hheard := hi.heard hr hb
  rw [← haddr] at hheard
  refine ⟨⟨hi.timers, hi.master, fun hs => ?_⟩, fun m hm hs => ?_⟩
  · show ∃ c rest, l.buffer.bytes = c :: rest ∧ c ≠ 0x21 ∧ c ≠ 0x3F
    rcases hcase with ⟨-, -, rest', hfirst⟩ | ⟨hbuf, hcase⟩
    · exact ⟨_, _, hfirst, by decide, by decide⟩
    · refine ⟨c, rest, hbuf ▸ hb, ?_⟩
      rcases hheard hs with ⟨ds, rfl⟩ | hc
      · obtain ⟨rest', hb'⟩ := received_cons s.locals l.theirAddr 0x21 ds
        obtain ⟨rfl, -⟩ := List.cons.inj (hb.symm.trans hb')
        rcases hcase with ⟨hc, -⟩ | ⟨hc, -⟩
        · exact absurd hc (by decide)
        · exact absurd rfl hc
      · exact hc
  · rcases hcase with ⟨rfl, rfl, -⟩ | ⟨-, ⟨rfl, msg, rfl⟩ | ⟨-, -, rfl⟩⟩
    · obtain rfl := List.mem_singleton.mp hm
      exact ⟨(hheard hs).resolve_right fun hc => hc.1 rfl, rfl⟩
    · obtain rfl := List.mem_singleton.mp hm
      -- The buffer would start with both marks.
      obtain ⟨ds, rfl⟩ := (hheard hs).resolve_right fun hc => hc.2 rfl
      obtain ⟨rest', hb'⟩ := received_cons s.locals l.theirAddr 0x21 ds
      obtain ⟨hc, -⟩ := List.cons.inj (hb.symm.trans hb')
      exact absurd hc (by decide)
    · cases hm

/-- A step of a thread keeps the invariant. -/
theorem Site.Inv.update {t : Timer} (hi : site.Inv servers s) (ht : s.timers a = some t)
    (t' : Timer) :
    site.Inv servers { s with timers := Function.update s.timers a (some t') } := by
  refine ⟨fun b => ?_, hi.master, hi.quiet⟩
  rw [hi.timers]
  by_cases hb : b = a
  · subst hb
    simp [ht]
  · show _ ↔ Function.update s.timers a (some t') b ≠ none
    rw [Function.update_of_ne hb]

theorem Site.Inv.server {t : Timer} (hi : site.Inv servers s) (ht : s.timers a = some t) :
    servers a := (hi.timers a).mpr (by simp [ht])

/-- The replies of an iteration. -/
theorem Site.Inv.replies (hi : site.Inv servers s) {sent : List Sent}
    (h : ∀ m ∈ sent, servers m.dest → m.bytes = replyText site.info now ++ [0]) :
    ∀ p ∈ replies site.master sent, site.Texts servers p := by
  intro p hp
  obtain ⟨m, hm, rfl⟩ := List.mem_map.mp hp
  exact ⟨fun hs => absurd hs hi.master, fun _ hs => ⟨now, h m hm hs⟩⟩

/-- **The hosts keep the invariant**, as long as the datagrams have their texts, and send such
datagrams. -/
theorem Site.keeps (site : Site) (servers : SockAddr → Prop) :
    site.hosts.Keeps (site.Inv servers) (site.Texts servers) where
  act := by
    intro s s' i ps hi h
    cases Site.act_cases h with
    | timer a act t t' es ht hact =>
      refine ⟨hi.update ht t', fun p hp => ?_⟩
      obtain ⟨x, hx, rfl⟩ := List.mem_map.mp hp
      refine ⟨fun _ => Timer.act_sends hact _ (mem_datagrams_of_sends hx), fun hsrc _ => ?_⟩
      -- A thread does not send from the address of the master.
      obtain rfl : a = site.master := hsrc
      exact absurd (hi.server ht) hi.master
    | recvfromFails now l sent hit =>
      obtain ⟨hi', hsent⟩ := hi.iterate (fun _ _ hr => by cases hr) hit
      exact ⟨hi', hi.replies fun m hm hs => (hsent m hm hs).2⟩
    | other p hsrc hnone =>
      refine ⟨hi, fun p' hp' => ?_⟩
      obtain rfl := List.mem_singleton.mp hp'
      exact ⟨fun hs => absurd hnone ((hi.timers _).mp hs), fun h => absurd h hsrc⟩
  recv := by
    intro s s' now p ps hi ht h
    cases Site.recv_cases h with
    | master l sent hdest hit =>
      obtain ⟨hi', hsent⟩ := hi.iterate (fun _ _ hr hs => by cases hr; exact ht.server hs) hit
      exact ⟨hi', hi.replies fun m hm hs => (hsent m hm hs).2⟩
    | timer t t' es hdest hsrc htimer hrecv =>
      exact ⟨hi.update htimer t', fun p hp => nomatch hp⟩
    | other => exact ⟨hi, fun p hp => nomatch hp⟩

/-! ## The exchange of a server -/

/-- A check-in of `a` for the master. -/
def Site.CheckInOf (site : Site) (a : SockAddr) (p : Dgram) : Prop :=
  p.src = a ∧ p.dest = site.master ∧ p.msg.head? = some 0x21

/-- A reply of the master for `a`. -/
def Site.ReplyTo (site : Site) (a : SockAddr) (p : Dgram) : Prop :=
  p.src = site.master ∧ p.dest = a

instance (site : Site) (a : SockAddr) : DecidablePred (site.CheckInOf a) := fun p =>
  inferInstanceAs (Decidable (p.src = a ∧ p.dest = site.master ∧ p.msg.head? = some 0x21))

instance (site : Site) (a : SockAddr) : DecidablePred (site.ReplyTo a) := fun p =>
  inferInstanceAs (Decidable (p.src = site.master ∧ p.dest = a))

/-- **The master answers** every check-in of a server once, and sends nothing else to it. -/
theorem Site.answers (ha : servers a) :
    site.hosts.Answers (site.Inv servers) (site.Texts servers) (site.CheckInOf a)
      (site.ReplyTo a) where
  act := by
    intro s s' i ps hi h m hm hreply
    cases Site.act_cases h with
    | timer b act t t' es ht hact =>
      obtain ⟨x, -, rfl⟩ := List.mem_map.mp hm
      obtain rfl : b = site.master := hreply.1
      exact hi.master (hi.server ht)
    | recvfromFails now l sent hit =>
      obtain ⟨x, hx, rfl⟩ := List.mem_map.mp hm
      have hs : servers x.dest := (show x.dest = a from hreply.2) ▸ ha
      obtain ⟨⟨ds, hr⟩, -⟩ := (hi.iterate (fun _ _ hr => by cases hr) hit).2 x hx hs
      cases hr
    | other p hsrc =>
      obtain rfl := List.mem_singleton.mp hm
      exact hsrc hreply.1
  request := by
    rintro s s' now ⟨src, dest, msg⟩ ps hi ht ⟨rfl, rfl, hmsg⟩ h
    cases Site.recv_cases h with
    | master l sent hdest hit =>
      obtain ⟨ds, rfl⟩ : ∃ ds, msg = 0x21 :: ds := List.head?_eq_some_iff.mp hmsg
      obtain ⟨haddr, c, rest, hb, hcase⟩ := iteration_cases hit
      obtain ⟨rest', hb'⟩ := received_cons s.locals src 0x21 ds
      obtain ⟨rfl, -⟩ := List.cons.inj (hb.symm.trans hb')
      rcases hcase with ⟨-, rfl, -⟩ | ⟨-, ⟨hc, -⟩ | ⟨hc, -⟩⟩
      · exact ⟨_, rfl, rfl, haddr⟩
      · exact absurd hc (by decide)
      · exact absurd rfl hc
    | timer t t' es hdest => exact absurd rfl hdest
    | other hdest => exact absurd rfl hdest
  other := by
    intro s s' now p ps hi ht hq h m hm hreply
    cases Site.recv_cases h with
    | master l sent hdest hit =>
      obtain ⟨x, hx, rfl⟩ := List.mem_map.mp hm
      have hs : servers x.dest := (show x.dest = a from hreply.2) ▸ ha
      have hr : ∀ src d, RecvFromResult.datagram p.src p.msg = .datagram src d → servers src →
          FromServer d := fun _ _ hr hs => by cases hr; exact ht.server hs
      obtain ⟨⟨ds, hr⟩, -⟩ := (hi.iterate hr hit).2 x hx hs
      obtain ⟨hsrc, hmsg⟩ := RecvFromResult.datagram.inj hr
      exact hq ⟨hsrc.trans hreply.2, hdest, by rw [hmsg]; rfl⟩
    | timer | other => cases hm

/-- At first nothing is in the network, and the uninitialised locals of the master do not show a
request of a server. -/
structure Site.Start (site : Site) (w : Network Peers Dgram) : Prop where
  flow : w.flow = .empty
  master : w.hosts.timers site.master = none
  quiet : w.hosts.timers w.hosts.locals.theirAddr ≠ none →
    ∃ c rest, w.hosts.locals.buffer.bytes = c :: rest ∧ c ≠ 0x21 ∧ c ≠ 0x3F

variable {w₀ w : Network Peers Dgram}

theorem Site.Start.inv (h₀ : site.Start w₀) :
    site.Inv (fun a => w₀.hosts.timers a ≠ none) w₀.hosts :=
  ⟨fun _ => Iff.rfl, fun h => h h₀.master, h₀.quiet⟩

theorem start_sample : sampleSite.Start sampleStart where
  flow := rfl
  master := by decide
  quiet h := absurd (by decide) h

/-- The check-in is copied, and one of the two is received. -/
def copiedCheckIn : List (NetLabel PeerAct (BitVec 32) Dgram) :=
  [.act (.timer sampleServer (.checkIn publicServer (some [⟨afInet, sampleSite.master⟩]) true)),
    .copy sampleCheckIn, .recv 0 sampleCheckIn]

theorem reach_copiedCheckIn : ∃ w, sampleSite.hosts.network.Reach sampleStart w ∧
    w.flow.sent.countP (sampleSite.CheckInOf sampleServer) = 1 ∧
    w.flow.copied.countP (sampleSite.CheckInOf sampleServer) = 1 ∧
    w.flow.copied.countP (sampleSite.ReplyTo sampleServer) = 0 ∧
    w.flow.received.countP (sampleSite.ReplyTo sampleServer) = 0 ∧
    w.flow.lost = 0 := by
  obtain ⟨w, hw, h⟩ : ∃ w, Lts.exec Hosts.Admits sampleSite.hosts.step sampleStart copiedCheckIn =
      some w ∧ w.flow.sent.countP (sampleSite.CheckInOf sampleServer) = 1 ∧
      w.flow.copied.countP (sampleSite.CheckInOf sampleServer) = 1 ∧
      w.flow.copied.countP (sampleSite.ReplyTo sampleServer) = 0 ∧
      w.flow.received.countP (sampleSite.ReplyTo sampleServer) = 0 ∧
      w.flow.lost = 0 := ⟨_, rfl, by decide, rfl, rfl, rfl, rfl⟩
  exact ⟨w, Lts.reach_of_exec hw, h⟩

/-- **Every check-in is accounted for.** In every reachable state, the check-ins that a server sent to
the master, and the copies of check-ins and replies, are the ones that are in flight or lost and the
replies that the server received. -/
theorem exchange_balance (h₀ : site.Start w₀) (h : site.hosts.network.Reach w₀ w)
    (ha : w₀.hosts.timers a ≠ none) :
    w.flow.sent.countP (site.CheckInOf a) +
        (w.flow.copied.countP (site.CheckInOf a) + w.flow.copied.countP (site.ReplyTo a)) =
      (w.flow.flight.countP (site.CheckInOf a) + w.flow.flight.countP (site.ReplyTo a)) +
        w.flow.received.countP (site.ReplyTo a) +
        (w.flow.lost.countP (site.CheckInOf a) + w.flow.lost.countP (site.ReplyTo a)) :=
  Hosts.Reach.balance h (site.keeps _) (site.answers ha) h₀.inv h₀.flow

/-- The one copy is in flight, and so is the reply to the other one. -/
theorem exchange_balance_copied : ∃ w, sampleSite.hosts.network.Reach sampleStart w ∧
    w.flow.flight.countP (sampleSite.CheckInOf sampleServer) +
      w.flow.flight.countP (sampleSite.ReplyTo sampleServer) = 2 := by
  obtain ⟨w, hw, hsent, hcheckIns, hreplies, hreceived, hlost⟩ := reach_copiedCheckIn
  have hbalance := exchange_balance start_sample hw (show sampleStart.hosts.timers sampleServer ≠ none
    by decide)
  rw [hsent, hcheckIns, hreplies, hreceived, hlost] at hbalance
  simp only [Multiset.countP_zero] at hbalance
  exact ⟨w, hw, by omega⟩

/-- The master can receive every datagram of a server. -/
theorem FromServer.iteration_ok {d : List UInt8} (hd : FromServer d) (info : ServInfo)
    (now : BitVec 32) (src : SockAddr) (l : Locals) :
    ∃ r, iteration info now (.datagram src d) l = .ok r := by
  rcases hd.start with ⟨ds, rfl⟩ | ⟨ds, rfl⟩
  · obtain ⟨rest, hb⟩ := received_cons l src 0x21 ds
    obtain ⟨l', hok⟩ := dispatch_checkIn info now hb
    exact ⟨_, iteration_eq.trans hok⟩
  · obtain ⟨rest, hb⟩ := received_cons l src 0x58 ds
    obtain ⟨l', hok⟩ : ∃ l', dispatch info now (received (.datagram src (0x58 :: ds)) l) >>= send =
      .ok (l', []) := dispatch_checkOut hb
    exact ⟨_, iteration_eq.trans hok⟩

/-- **What the parties read.** In every reachable state a server has sent check-ins and check-outs
only, the replies to it are read as what the master stands for, and neither side can be stopped by
what the other one sends. -/
theorem exchange_texts (h₀ : site.Start w₀) (h : site.hosts.network.Reach w₀ w)
    (ha : w₀.hosts.timers a ≠ none) (hm : NoMarkers site.info) :
    (∀ p ∈ w.flow.sent, p.src = a → FromServer p.msg) ∧
    (∀ p ∈ w.flow.sent, site.ReplyTo a p →
      ∃ now, readInfo p.msg.dropLast = some (site.info.infoReport now)) ∧
    (∀ p ∈ w.flow.flight, p.src = a → p.dest = site.master →
      ∀ now, ∃ w', site.hosts.network.step w (.recv now p) w') ∧
    (∀ p ∈ w.flow.flight, site.ReplyTo a p → ∀ t, w.hosts.timers a = some t → t.pc = .receiving →
      ∀ now, ∃ w', site.hosts.network.step w (.recv now p) w') := by
  have hsound : w₀.flow.Sound := h₀.flow ▸ .empty
  obtain ⟨hi, htexts⟩ := Hosts.Reach.keeps h (site.keeps _) hsound h₀.inv
    (by rw [h₀.flow]; exact fun p hp => absurd hp (Multiset.notMem_zero p))
  have hflight : ∀ p ∈ w.flow.flight, p ∈ w.flow.sent := fun p hp =>
    (Hosts.Reach.sound h hsound).of_flight hp
  refine ⟨fun p hp hsrc => (htexts p hp).server (hsrc ▸ ha), fun p hp hr => ?_,
    fun p hp hsrc hdest now => ?_, fun p hp hr t ht hpc now => ?_⟩
  · obtain ⟨now, hmsg⟩ := (htexts p hp).reply hr.1 (hr.2 ▸ ha)
    exact ⟨now, by rw [hmsg, List.dropLast_concat, readInfo_replyText hm]⟩
  · have hd := (htexts p (hflight p hp)).server (hsrc ▸ ha)
    obtain ⟨⟨l, sent⟩, hit⟩ := hd.iteration_ok site.info now p.src w.hosts.locals
    have hrecv : site.recv w.hosts now p =
        .ok ({ w.hosts with locals := l }, replies site.master sent) :=
      (if_pos hdest).trans (bind_eq_ok.mpr ⟨_, hit, rfl⟩)
    exact ⟨_, Hosts.step_of_recv hp hrecv⟩
  · obtain ⟨⟨t', es⟩, ht'⟩ := Timer.recv_ok hpc site.lp64 p.msg
    have hne : p.dest ≠ site.master := fun hdest => hi.master (by rw [← hdest, hr.2]; exact ha)
    have hrecv : site.recv w.hosts now p =
        .ok ({ w.hosts with timers := Function.update w.hosts.timers p.dest (some t') }, []) := by
      unfold Site.recv
      rw [if_neg hne, show w.hosts.timers p.dest = some t by rw [hr.2, ht]]
      exact (if_pos hr.1).trans (bind_eq_ok.mpr ⟨_, ht', rfl⟩)
    exact ⟨_, Hosts.step_of_recv hp hrecv⟩

/-- The replies to the server. -/
theorem exchange_texts_copied : ∃ w, sampleSite.hosts.network.Reach sampleStart w ∧
    w.flow.sent.countP (sampleSite.CheckInOf sampleServer) = 1 ∧
    ∀ p ∈ w.flow.sent, sampleSite.ReplyTo sampleServer p →
      ∃ now, readInfo p.msg.dropLast =
        some ⟨ascii "lwMaster", ascii "Eos", ascii "no swearing", 0, now⟩ := by
  obtain ⟨w, hw, hsent, -⟩ := reach_copiedCheckIn
  have hm : NoMarkers sampleSite.info := by
    unfold NoMarkers
    decide
  exact ⟨w, hw, hsent, (exchange_texts start_sample hw (show sampleStart.hosts.timers sampleServer ≠
    none by decide) hm).2.1⟩

end Exchange

end LwMix.LwMaster
