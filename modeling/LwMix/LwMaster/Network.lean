import LwMix.Info.Network
import LwMix.LwMaster.Info
import LwMix.LwMaster.Timer

/-!
# A master and its servers

The check-in threads of both programs talk to the info loop of `lwmaster.c` over a network that
loses, copies and reorders datagrams. Any other host sends what it likes from its own address, and a
`recvfrom` of the master can fail. The master receives from its own socket.

* `Site.hosts`: the hosts. `Site.act_cases`, `Site.recv_cases`: what they can do.
* `locals_of_run`: the master runs its loop.
* `thread_of_run`: a check-in thread runs its program.
-/

namespace LwMix.LwMaster

/-- The locals of the master's loop, and the check-in threads by the address of their sockets. -/
structure Peers where
  locals : Locals
  timers : SockAddr → Option Timer

/-- The machine, the address of the master, and its `server_info`, which no thread changes. -/
structure Site where
  lp64 : Bool
  master : SockAddr
  info : ServInfo

/-- What a host does on its own: a thread makes a step, a `recvfrom` of the master fails, or another
host sends a datagram. -/
inductive PeerAct where
  | timer (a : SockAddr) (act : TimerAct)
  | recvfromFails (now : BitVec 32)
  | other (p : Dgram)

/-- The datagrams that are sent from `a`. Without an address they go to the master. -/
def Site.outgoing (site : Site) (a : SockAddr) (es : List MasterEvent) : List Dgram :=
  (sends es).map fun x => ⟨a, x.1.getD site.master, x.2⟩

def Site.act (site : Site) (s : Peers) : PeerAct → Except Fault (Peers × List Dgram)
  | .timer a act =>
    match s.timers a with
    | some t => do
      let (t, es) ← t.act site.lp64 act
      pure ({ s with timers := Function.update s.timers a (some t) }, site.outgoing a es)
    | none => .error .protocol
  | .recvfromFails now => do
    let (locals, sent) ← iteration site.info now .failed s.locals
    pure ({ s with locals }, replies site.master sent)
  | .other p =>
    if p.src ≠ site.master ∧ (s.timers p.src).isNone then pure (s, [p]) else .error .protocol

/-- A datagram is received. A thread takes those of the master only. -/
def Site.recv (site : Site) (s : Peers) (now : BitVec 32) (p : Dgram) :
    Except Fault (Peers × List Dgram) :=
  if p.dest = site.master then do
    let (locals, sent) ← iteration site.info now (.datagram p.src p.msg) s.locals
    pure ({ s with locals }, replies site.master sent)
  else
    match s.timers p.dest with
    | some t =>
      if p.src = site.master then do
        let (t, _) ← t.recv site.lp64 p.msg
        pure ({ s with timers := Function.update s.timers p.dest (some t) }, [])
      else .error .protocol
    | none => pure (s, [])

/-- What a host can do on its own. -/
inductive Site.Act (site : Site) (s : Peers) : PeerAct → Peers → List Dgram → Prop
  | timer (a : SockAddr) (act : TimerAct) (t t' : Timer) (es : List MasterEvent)
      (ht : s.timers a = some t) (h : t.act site.lp64 act = .ok (t', es)) :
      Act site s (.timer a act) { s with timers := Function.update s.timers a (some t') }
        (site.outgoing a es)
  | recvfromFails (now : BitVec 32) (l : Locals) (sent : List Sent)
      (h : iteration site.info now .failed s.locals = .ok (l, sent)) :
      Act site s (.recvfromFails now) { s with locals := l } (replies site.master sent)
  | other (p : Dgram) (hsrc : p.src ≠ site.master) (hnone : s.timers p.src = none) :
      Act site s (.other p) s [p]

theorem Site.act_cases {site : Site} {s s' : Peers} {i : PeerAct} {ps : List Dgram}
    (h : site.act s i = .ok (s', ps)) : site.Act s i s' ps := by
  cases i with
  | timer a act =>
    simp only [Site.act] at h
    split at h
    · rename_i t ht
      obtain ⟨⟨t', es⟩, hact, h⟩ := bind_eq_ok.mp h
      cases pure_eq_ok.mp h
      exact .timer a act t t' es ht hact
    · cases h
  | recvfromFails now =>
    obtain ⟨⟨l, sent⟩, hit, h⟩ := bind_eq_ok.mp h
    cases pure_eq_ok.mp h
    exact .recvfromFails now l sent hit
  | other p =>
    simp only [Site.act] at h
    split at h
    · rename_i hp
      cases pure_eq_ok.mp h
      exact .other p hp.1 (Option.isNone_iff_eq_none.mp hp.2)
    · cases h

/-- What a host can do on a datagram. -/
inductive Site.Recv (site : Site) (s : Peers) (now : BitVec 32) (p : Dgram) :
    Peers → List Dgram → Prop
  | master (l : Locals) (sent : List Sent) (hdest : p.dest = site.master)
      (h : iteration site.info now (.datagram p.src p.msg) s.locals = .ok (l, sent)) :
      Recv site s now p { s with locals := l } (replies site.master sent)
  | timer (t t' : Timer) (es : List MasterEvent) (hdest : p.dest ≠ site.master)
      (hsrc : p.src = site.master) (ht : s.timers p.dest = some t)
      (h : t.recv site.lp64 p.msg = .ok (t', es)) :
      Recv site s now p { s with timers := Function.update s.timers p.dest (some t') } []
  | other (hdest : p.dest ≠ site.master) (hnone : s.timers p.dest = none) : Recv site s now p s []

theorem Site.recv_cases {site : Site} {s s' : Peers} {now : BitVec 32} {p : Dgram} {ps : List Dgram}
    (h : site.recv s now p = .ok (s', ps)) : site.Recv s now p s' ps := by
  unfold Site.recv at h
  split at h
  · rename_i hdest
    obtain ⟨⟨l, sent⟩, hit, h⟩ := bind_eq_ok.mp h
    cases pure_eq_ok.mp h
    exact .master l sent hdest hit
  · rename_i hdest
    split at h
    · rename_i t ht
      split at h
      · rename_i hsrc
        obtain ⟨⟨t', es⟩, hrecv, h⟩ := bind_eq_ok.mp h
        cases pure_eq_ok.mp h
        exact .timer t t' es hdest hsrc ht hrecv
      · cases h
    · rename_i hnone
      cases pure_eq_ok.mp h
      exact .other hdest hnone

/-- The hosts. -/
def Site.hosts (site : Site) : Hosts Peers PeerAct (BitVec 32) Dgram Fault := ⟨site.act, site.recv⟩

/-- A public server. -/
def publicServer : ServInfo := { ServInfo.blank with isPublic := true }

theorem masterName : (0 : UInt8) ∉ ascii "lwMaster" ∧ (ascii "lwMaster").length < 32 := by decide

theorem masterWorld : (0 : UInt8) ∉ ascii "Eos" ∧ (ascii "Eos").length < 64 := by decide

theorem masterRules : (0 : UInt8) ∉ ascii "no swearing" ∧ (ascii "no swearing").length < 128 := by
  decide

def sampleSite : Site where
  lp64 := true
  master := ⟨0x3FC5404E, 23999⟩
  info := { ServInfo.blank with
    name := ⟨ascii "lwMaster", masterName.1, masterName.2⟩
    world := ⟨ascii "Eos", masterWorld.1, masterWorld.2⟩
    serverRules := ⟨ascii "no swearing", masterRules.1, masterRules.2⟩ }

def sampleServer : SockAddr := ⟨0x7F000001, 8888⟩

/-- The address of another check-in thread. -/
def otherServer : SockAddr := ⟨0x7F000001, 9999⟩

/-- A master, and two servers before their first check-ins. -/
def sampleStart : Network Peers Dgram where
  hosts := ⟨locals (.zero 1024) 0, Function.update (Function.update (fun _ => none) otherServer
    (some ⟨.lwmaster, .top, .zero 1024⟩)) sampleServer (some ⟨.lwmix, .top, .zero 1024⟩)⟩
  flow := .empty

/-! ## The master in the network -/

section Run

variable {site : Site} {w w' : Network Peers Dgram} {l : NetLabel PeerAct (BitVec 32) Dgram}
  {p : List (NetLabel PeerAct (BitVec 32) Dgram × Network Peers Dgram)}

/-- What the loop of the master observes in a step. -/
def Site.inputs (site : Site) (_ : Network Peers Dgram) :
    NetLabel PeerAct (BitVec 32) Dgram → List Input
  | .recv now p => if p.dest = site.master then [⟨site.info, now, .datagram p.src p.msg⟩] else []
  | .act (.recvfromFails now) => [⟨site.info, now, .failed⟩]
  | _ => []

theorem run_append (xs ys : List Input) (l : Locals) :
    run (xs ++ ys) l = run xs l >>= run ys := by
  induction xs generalizing l with
  | nil => rfl
  | cons x xs ih => simp only [List.cons_append, run, ih, bind_assoc]

theorem run_singleton {x : Input} {s s' : Locals} {sent : List Sent}
    (h : iteration x.info x.now x.recv s = .ok (s', sent)) : run [x] s = .ok s' :=
  bind_eq_ok.mpr ⟨_, h, rfl⟩

/-- A step of the network is a step of the master's loop, or does not touch its locals. -/
theorem locals_of_step (h : site.hosts.network.step w l w') :
    run (site.inputs w l) w.hosts.locals = .ok w'.hosts.locals := by
  cases Hosts.step_cases h with
  | act i s ps hact =>
    cases Site.act_cases hact with
    | timer | other => rfl
    | recvfromFails now l sent hit => exact run_singleton hit
  | recv now p s ps _ hrecv =>
    simp only [Site.inputs]
    cases Site.recv_cases hrecv with
    | master l sent hdest hit =>
      rw [if_pos hdest]
      exact run_singleton hit
    | timer t t' es hdest | other hdest =>
      rw [if_neg hdest]
      rfl
  | lose | copy => rfl

/-- **The master runs its loop** along every run of the network. -/
theorem locals_of_run (h : site.hosts.network.Run w p) :
    run (Lts.along site.inputs w p) w.hosts.locals = .ok (Lts.last w p).hosts.locals := by
  induction h with
  | nil => rfl
  | cons hst _ ih =>
    rw [Lts.along, run_append]
    exact bind_eq_ok.mpr ⟨_, locals_of_step hst, ih⟩

/-! ## The threads in the network -/

variable {a : SockAddr} {t : Timer}

def eventsOf (r : Except Fault (Timer × List MasterEvent)) : List MasterEvent :=
  match r with
  | .ok (_, es) => es
  | .error _ => []

/-- The events of the thread at `a` in a step. -/
def Site.events (site : Site) (a : SockAddr) (w : Network Peers Dgram)
    (l : NetLabel PeerAct (BitVec 32) Dgram) : List MasterEvent :=
  match w.hosts.timers a, l with
  | some t, .act (.timer b act) => if b = a then eventsOf (t.act site.lp64 act) else []
  | some t, .recv _ p => if p.dest = a then eventsOf (t.recv site.lp64 p.msg) else []
  | _, _ => []

/-- A step of the network is a step of the thread, or does not touch it. -/
theorem thread_of_step (h : site.hosts.network.step w l w') (ha : a ≠ site.master)
    (ht : w.hosts.timers a = some t) : ∃ t', w'.hosts.timers a = some t' ∧
      ∀ es, t'.Rest site.lp64 es → t.Rest site.lp64 (site.events a w l ++ es) := by
  -- What another host does is no event of the thread.
  have hstay : site.events a w l = [] → w'.hosts.timers a = some t → ∃ t',
      w'.hosts.timers a = some t' ∧
        ∀ es, t'.Rest site.lp64 es → t.Rest site.lp64 (site.events a w l ++ es) := fun he ht' =>
    ⟨t, ht', fun es hrest => by rwa [he]⟩
  cases Hosts.step_cases h with
  | act i s ps hact =>
    cases Site.act_cases hact with
    | timer b act t₁ t₂ es ht₁ hact' =>
      by_cases hb : b = a
      · subst hb
        obtain rfl := Option.some.inj (ht.symm.trans ht₁)
        refine ⟨t₂, Function.update_self .., fun es' hrest => ?_⟩
        simp only [Site.events, ht, ↓reduceIte, hact']
        exact hrest.act hact'
      · refine hstay ?_ ((Function.update_of_ne (Ne.symm hb) ..).trans ht)
        simp only [Site.events, ht, hb, ↓reduceIte]
    | recvfromFails | other => exact hstay (by simp only [Site.events, ht]) ht
  | recv now p s ps _ hrecv =>
    by_cases hp : p.dest = a
    · cases Site.recv_cases hrecv with
      | master l sent hdest => exact absurd (hp.symm.trans hdest) ha
      | timer t₁ t₂ es hdest hsrc ht₁ hpart =>
        subst hp
        obtain rfl := Option.some.inj (ht.symm.trans ht₁)
        refine ⟨t₂, Function.update_self .., fun es' hrest => ?_⟩
        simp only [Site.events, ht, ↓reduceIte, hpart]
        exact hrest.recv hpart
      | other hdest hnone =>
        rw [hp, ht] at hnone
        cases hnone
    · refine hstay (by simp only [Site.events, ht, hp, ↓reduceIte]) ?_
      cases Site.recv_cases hrecv with
      | master | other => exact ht
      | timer => exact (Function.update_of_ne (Ne.symm hp) ..).trans ht
  | lose | copy => exact hstay (by simp only [Site.events, ht]) ht

/-- **A thread runs its program** along every run of the network: if it starts at the test of its loop
and stops, its events are those of an execution. -/
theorem thread_of_run (h : site.hosts.network.Run w p) (ha : a ≠ site.master)
    (ht : w.hosts.timers a = some t) (hpc : t.pc = .top)
    (hstop : ∀ t' ∈ (Lts.last w p).hosts.timers a, t'.pc = .stopped) :
    t.program.Trace site.lp64 t.buffer (Lts.along (site.events a) w p) := by
  suffices hrest : t.Rest site.lp64 (Lts.along (site.events a) w p) by
    unfold Timer.Rest at hrest
    rwa [hpc] at hrest
  clear hpc
  induction h generalizing t with
  | nil w =>
    unfold Timer.Rest
    rw [hstop t ht]
    rfl
  | cons hst _ ih =>
    obtain ⟨t', ht', hstep⟩ := thread_of_step hst ha ht
    exact hstep _ (ih ht' hstop)

/-- The first check-in of the server. -/
def sampleCheckIn : Dgram := ⟨sampleServer, sampleSite.master, checkInText publicServer ++ [0]⟩

/-- The reply to it. -/
def sampleReply : Dgram := ⟨sampleSite.master, sampleServer, replyText sampleSite.info 0 ++ [0]⟩

/-- The server checks in, gets the reply and stops. In between the other one checks in too, and the
master receives the first check-in. -/
def answeredCheckIn : List (NetLabel PeerAct (BitVec 32) Dgram) :=
  [.act (.timer sampleServer (.checkIn publicServer (some [⟨afInet, sampleSite.master⟩]) true)),
    .act (.timer otherServer (.checkIn publicServer none true)), .recv 0 sampleCheckIn,
    .act (.timer otherServer .recvFails), .recv 0 sampleReply,
    .act (.timer sampleServer (.leave true))]

theorem thread_of_run_answered : ∃ p, sampleSite.hosts.network.Run sampleStart p ∧ p.length = 6 ∧
    ∃ ps, LwMix.masterCheckInTimer true ps (.zero 1024) =
      .ok (Lts.along (sampleSite.events sampleServer) sampleStart p) := by
  obtain ⟨p, hp, hlen, hstop⟩ : ∃ p, Lts.path Hosts.Admits sampleSite.hosts.step sampleStart
      answeredCheckIn = some p ∧ p.length = 6 ∧
      ∀ t' ∈ (Lts.last sampleStart p).hosts.timers sampleServer, t'.pc = .stopped :=
    ⟨_, rfl, rfl, by rintro t' ⟨⟩; rfl⟩
  have hrun := Lts.run_of_path _ hp
  have ht : sampleStart.hosts.timers sampleServer = some ⟨.lwmix, .top, .zero 1024⟩ := rfl
  exact ⟨p, hrun, hlen, thread_of_run hrun (by decide) ht rfl hstop⟩

end Run

end LwMix.LwMaster
