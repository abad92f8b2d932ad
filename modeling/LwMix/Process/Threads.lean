import LwMix.Base.Lts
import LwMix.Base.Sockets
import LwMix.Server.Loop

/-!
# The three threads of `lwmix.c` and their sockets

The process is the interleaving of `serverLoop`, `serverInfoProvider` and `masterCheckInTimer` over
one table of sockets, with messages that arrive at any time. The kernel gives out any number that is
not open. `serverLoop` is the step function of `Server/Loop.lean`; of the other two threads only what
decides from which descriptor they receive is here.

`serverInfoProvider` does not initialise its `fd_set` (there is no `FD_ZERO(&master)`), so its set
has `info_sock` and arbitrary other members (`InfoState.master`).

* `InfoState.step`, `TimerState.step`: the two other threads.
* `Process.process`: the system, and what a step of it can do (`step_cases`). `serverEffect`,
  `infoEffect` and `timerEffect` are what the threads' steps do to the sockets.

A `take` is of a whole message: the bytes of a stream arrive in the pieces in which they are
received.
-/

namespace LwMix

/-- What a socket is for. -/
inductive SockKind where
  | listener
  | client
  | info
  | master
  deriving DecidableEq

/-- The threads. -/
inductive Thread where
  | serverLoop
  | serverInfoProvider
  | masterCheckInTimer
  deriving DecidableEq

/-- The thread whose input arrives on a socket. -/
def SockKind.owner : SockKind → Thread
  | .listener | .client => .serverLoop
  | .info => .serverInfoProvider
  | .master => .masterCheckInTimer

/-! ## `serverInfoProvider` -/

/-- Where the thread is: before its socket is created, at the loop test and `select`, in the scan of
`read_fds`, or after the loop. -/
inductive InfoPc where
  | init
  | top
  | scan (i : ℕ) (readFds : Finset ℕ)
  | stopped
  deriving DecidableEq

/-- The locals of `serverInfoProvider` that decide where it receives. -/
structure InfoState where
  pc : InfoPc
  infoSock : ℕ
  master : Finset ℕ
  fdmax : ℕ

/-- What the environment answers: `running` is `0`, the result of `select`, nothing, or the result of
`recvfrom`. -/
inductive InfoAnswer where
  | stop
  | select (ready : Finset ℕ)
  | next
  | recvfrom (msg : Option (List UInt8))

namespace InfoState

/-- The thread is in its loop. -/
def Running (s : InfoState) : Prop := s.pc ≠ .init ∧ s.pc ≠ .stopped

instance (s : InfoState) : Decidable s.Running :=
  inferInstanceAs (Decidable (s.pc ≠ .init ∧ s.pc ≠ .stopped))

/-- The socket is created. `master` keeps the bits that it had. -/
def bind (fdSetSize fd : ℕ) (s : InfoState) : Except Fault InfoState := do
  let master ← fdSet fdSetSize fd s.master
  pure { pc := .top, infoSock := fd, master, fdmax := fd }

/-- One step of the loop. -/
def step (a : InfoAnswer) (s : InfoState) : Except Fault InfoState :=
  match s.pc, a with
  | .top, .stop => pure { s with pc := .stopped }
  | .top, .select ready => pure { s with pc := .scan 0 ready }
  | .scan i readFds, a =>
    if i ≤ s.fdmax then
      match a with
      | .recvfrom _ =>
        if i ∈ readFds then pure { s with pc := .scan (i + 1) readFds } else .error .protocol
      | .next =>
        if i ∈ readFds then .error .protocol else pure { s with pc := .scan (i + 1) readFds }
      | _ => .error .protocol
    else
      match a with
      | .next => pure { s with pc := .top }
      | _ => .error .protocol
  | _, _ => .error .protocol

/-- What a step can do. -/
inductive Step (s : InfoState) : InfoAnswer → InfoState → Prop
  | stop (h : s.pc = .top) : Step s .stop { s with pc := .stopped }
  | select (ready : Finset ℕ) (h : s.pc = .top) :
      Step s (.select ready) { s with pc := .scan 0 ready }
  | recvfrom (i : ℕ) (readFds : Finset ℕ) (msg : Option (List UInt8)) (h : s.pc = .scan i readFds)
      (hi : i ≤ s.fdmax) (hr : i ∈ readFds) :
      Step s (.recvfrom msg) { s with pc := .scan (i + 1) readFds }
  | skip (i : ℕ) (readFds : Finset ℕ) (h : s.pc = .scan i readFds) (hi : i ≤ s.fdmax)
      (hr : i ∉ readFds) : Step s .next { s with pc := .scan (i + 1) readFds }
  | done (i : ℕ) (readFds : Finset ℕ) (h : s.pc = .scan i readFds) (hi : s.fdmax < i) :
      Step s .next { s with pc := .top }

theorem Step.running {a : InfoAnswer} {s s' : InfoState} (h : Step s a s') : s.Running := by
  cases h <;> simp_all [Running]

theorem step_cases {a : InfoAnswer} {s s' : InfoState} (h : s.step a = .ok s') : Step s a s' := by
  unfold step at h
  split at h
  · rename_i hpc
    cases h
    exact .stop hpc
  · rename_i ready hpc
    cases h
    exact .select ready hpc
  · rename_i i readFds hpc
    by_cases hi : i ≤ s.fdmax
    · rw [if_pos hi] at h
      split at h
      · rename_i msg
        split at h
        · rename_i hr
          cases h
          exact .recvfrom i readFds msg hpc hi hr
        · cases h
      · split at h
        · cases h
        · rename_i hr
          cases h
          exact .skip i readFds hpc hi hr
      · cases h
    · rw [if_neg hi] at h
      split at h
      · cases h
        exact .done i readFds hpc (by omega)
      · cases h
  · cases h

theorem Step.eq {a : InfoAnswer} {s s' : InfoState} (h : Step s a s') : s.step a = .ok s' := by
  unfold step
  cases h with
  | stop hpc | select ready hpc =>
    rw [hpc]
    rfl
  | recvfrom i readFds msg hpc hi hr =>
    rw [hpc]
    dsimp only
    rw [if_pos hi, if_pos hr]
    rfl
  | skip i readFds hpc hi hr =>
    rw [hpc]
    dsimp only
    rw [if_pos hi, if_neg hr]
    rfl
  | done i readFds hpc hi =>
    rw [hpc]
    dsimp only
    rw [if_neg (by omega)]
    rfl

end InfoState

/-! ## `masterCheckInTimer` -/

/-- Where the thread is: before its socket is created, at the loop test, in the `recv` of
`masterCheckIn`, or after the loop. The socket is missing if it could not be created. -/
inductive TimerState where
  | init
  | top (sock : Option ℕ)
  | receiving (sock : Option ℕ)
  | stopped

/-- What the environment answers: `running` is `0`, `public` is `0`, the check-in is sent, or the
result of `recv`. -/
inductive TimerAnswer where
  | stop
  | skip
  | checkIn
  | recv (reply : Option (List UInt8))

/-- One step of the loop. -/
def TimerState.step (a : TimerAnswer) (s : TimerState) : Except Fault TimerState :=
  match s, a with
  | .top _, .stop => pure .stopped
  | .top sock, .skip => pure (.top sock)
  | .top sock, .checkIn => pure (.receiving sock)
  | .receiving sock, .recv _ => pure (.top sock)
  | _, _ => .error .protocol

/-! ## The process -/

/-- The sockets of the process. -/
abbrev Sockets := SockTable Thread SockKind

/-- The sockets, and the threads. -/
structure Process (π : Type) where
  socks : Sockets
  server : Option (LoopState π)
  info : InfoState
  timer : TimerState

/-- A message arrives, a thread creates its socket, or a thread makes a step. -/
inductive ProcessLabel (π χ : Type) where
  | arrive (fd : ℕ) (msg : List UInt8)
  | listen (fd : ℕ) (buffer : Buf 4096) (players : π)
  | bindInfo (fd : Option ℕ)
  | connectMaster (fd : Option ℕ)
  | serverLoop (a : Answer χ)
  | serverInfoProvider (a : InfoAnswer)
  | masterCheckInTimer (a : TimerAnswer)

namespace Process

variable {π χ : Type}

/-- What a step of `serverLoop` does to the sockets. -/
def serverEffect (s : LoopState π) (a : Answer χ) (t : Sockets) : Except Fault Sockets :=
  match a, s.pc with
  | .accept (some newfd) _, _ => do
    let (_, t) ← t.take .serverLoop s.listener
    t.openAt newfd .client
  | .recv (.data c) _, .scan i _ => t.receive .serverLoop i c.bytes
  | .recv _ _, .scan i _ => pure (t.close i)
  | _, _ => pure t

theorem serverEffect_close {s : LoopState π} {t : Sockets} {i : ℕ} {readFds : Finset ℕ}
    {res : RecvResult} {x : χ} (hpc : s.pc = .scan i readFds) (hres : ∀ c, res ≠ .data c) :
    serverEffect s (.recv res x) t = .ok (t.close i) := by
  cases res with
  | data c => exact absurd rfl (hres c)
  | eof | error =>
    simp only [serverEffect, hpc]
    rfl

theorem serverEffect_take {s : LoopState π} {t t' : Sockets} {i : ℕ} {readFds : Finset ℕ}
    {c : Chunk 4096} {x : χ} (hpc : s.pc = .scan i readFds)
    (h : serverEffect s (.recv (.data c) x) t = .ok t') :
    t.take .serverLoop i = .ok (c.bytes, t') := by
  simp only [serverEffect, hpc] at h
  exact SockTable.receive_ok h

/-- What a step of `serverInfoProvider` does to the sockets. `recvfrom` fails on the listener. -/
def infoEffect (s : InfoState) (a : InfoAnswer) (t : Sockets) : Except Fault Sockets :=
  match a, s.pc with
  | .recvfrom (some msg), .scan i _ =>
    if t.kindOf i = some .listener then .error .protocol
    else t.receive .serverInfoProvider i msg
  | .stop, _ => pure (t.close s.infoSock)
  | _, _ => pure t

/-- What a step of `masterCheckInTimer` does to the sockets. -/
def timerEffect (s : TimerState) (a : TimerAnswer) (t : Sockets) : Except Fault Sockets :=
  match a, s with
  | .recv (some msg), .receiving (some fd) => t.receive .masterCheckInTimer fd msg
  | .recv (some _), .receiving none => .error .protocol
  | .stop, .top (some fd) => pure (t.close fd)
  | _, _ => pure t

theorem infoEffect_take {s : InfoState} {t t' : Sockets} {i : ℕ} {readFds : Finset ℕ}
    {msg : List UInt8} (hpc : s.pc = .scan i readFds) :
    infoEffect s (.recvfrom (some msg)) t = .ok t' ↔
      t.kindOf i ≠ some .listener ∧ t.take .serverInfoProvider i = .ok (msg, t') := by
  simp only [infoEffect, hpc]
  by_cases hl : t.kindOf i = some .listener
  · simp [hl]
  · rw [if_neg hl]
    exact ⟨fun h => ⟨hl, SockTable.receive_ok h⟩, fun h => SockTable.receive_of_take h.2⟩

variable (P : PlayerOps π χ) (fdSetSize : ℕ)

/-- One step of the process. -/
def step (w : Process π) : ProcessLabel π χ → Except Fault (Process π)
  | .arrive fd msg => do
    let socks ← w.socks.arrive fd msg
    pure { w with socks }
  | .listen fd buffer players =>
    match w.server with
    | none => do
      let socks ← w.socks.openAt fd .listener
      let _ ← fdSet fdSetSize fd ∅
      pure { w with socks, server := some (ServerLoop.start fd buffer players) }
    | some _ => .error .protocol
  | .bindInfo fd =>
    match w.info.pc, fd with
    | .init, some fd => do
      let socks ← w.socks.openAt fd .info
      let info ← w.info.bind fdSetSize fd
      pure { w with socks, info }
    -- without a socket, this is `FD_SET(-1, &master)`
    | .init, none => .error .outOfBounds
    | _, _ => .error .protocol
  | .connectMaster fd =>
    match w.timer, fd with
    | .init, some fd => do
      let socks ← w.socks.openAt fd .master
      pure { w with socks, timer := .top (some fd) }
    | .init, none => pure { w with timer := .top none }
    | _, _ => .error .protocol
  | .serverLoop a =>
    match w.server with
    | some s => do
      let (s', _) ← ServerLoop.step P fdSetSize a s
      let socks ← serverEffect s a w.socks
      pure { w with socks, server := some s' }
    | none => .error .protocol
  | .serverInfoProvider a => do
    let info ← w.info.step a
    let socks ← infoEffect w.info a w.socks
    pure { w with socks, info }
  | .masterCheckInTimer a => do
    let timer ← w.timer.step a
    let socks ← timerEffect w.timer a w.socks
    pure { w with socks, timer }

/-- `select` reports members of the set that it is given; if it fails, the set is unchanged. -/
def Admits (w : Process π) : ProcessLabel π χ → Prop
  | .serverLoop (.select ready) => ∀ s ∈ w.server, ready ⊆ s.master
  | .serverInfoProvider (.select ready) => ready ⊆ w.info.master
  | _ => True

instance (w : Process π) : (l : ProcessLabel π χ) → Decidable (Admits w l)
  | .serverLoop (.select ready) => inferInstanceAs (Decidable (∀ s ∈ w.server, ready ⊆ s.master))
  | .serverInfoProvider (.select ready) => inferInstanceAs (Decidable (ready ⊆ w.info.master))
  | .arrive _ _ | .listen _ _ _ | .bindInfo _ | .connectMaster _ | .masterCheckInTimer _
  | .serverLoop .stop | .serverLoop .next | .serverLoop (.accept _ _) | .serverLoop (.recv _ _)
  | .serverInfoProvider .stop | .serverInfoProvider .next
  | .serverInfoProvider (.recvfrom _) => .isTrue trivial

/-- The process, with the kernel and the network. -/
def process : Lts (Process π) (ProcessLabel π χ) := .ofStep Admits (step P fdSetSize)

/-- What a step can do. -/
inductive Step (w : Process π) : ProcessLabel π χ → Process π → Prop
  | arrive (fd : ℕ) (msg : List UInt8) (t : Sockets) (ht : w.socks.arrive fd msg = .ok t) :
      Step w (.arrive fd msg) { w with socks := t }
  | listen (fd : ℕ) (buffer : Buf 4096) (players : π) (t : Sockets)
      (ht : w.socks.openAt fd .listener = .ok t) :
      Step w (.listen fd buffer players)
        { w with socks := t, server := some (ServerLoop.start fd buffer players) }
  | bindInfo (fd : ℕ) (t : Sockets) (master : Finset ℕ) (ht : w.socks.openAt fd .info = .ok t) :
      Step w (.bindInfo (some fd))
        { w with socks := t, info := { pc := .top, infoSock := fd, master, fdmax := fd } }
  | connectMaster (fd : ℕ) (t : Sockets) (ht : w.socks.openAt fd .master = .ok t) :
      Step w (.connectMaster (some fd)) { w with socks := t, timer := .top (some fd) }
  | noMaster : Step w (.connectMaster none) { w with timer := .top none }
  | serverLoop (a : Answer χ) (s s' : LoopState π) (e : Option Event) (t : Sockets)
      (hs : w.server = some s) (hst : ServerLoop.step P fdSetSize a s = .ok (s', e))
      (ht : serverEffect s a w.socks = .ok t)
      (hsel : ∀ ready, a = .select ready → ready ⊆ s.master) :
      Step w (.serverLoop a) { w with socks := t, server := some s' }
  | serverInfoProvider (a : InfoAnswer) (s' : InfoState) (t : Sockets) (hst : w.info.Step a s')
      (ht : infoEffect w.info a w.socks = .ok t)
      (hsel : ∀ ready, a = .select ready → ready ⊆ w.info.master) :
      Step w (.serverInfoProvider a) { w with socks := t, info := s' }
  | masterCheckInTimer (a : TimerAnswer) (s' : TimerState) (t : Sockets)
      (hst : w.timer.step a = .ok s') (ht : timerEffect w.timer a w.socks = .ok t) :
      Step w (.masterCheckInTimer a) { w with socks := t, timer := s' }

theorem step_cases {w w' : Process π} {l : ProcessLabel π χ}
    (h : (process P fdSetSize).step w l w') : Step P fdSetSize w l w' := by
  obtain ⟨hadm, h⟩ := h
  cases l with
  | arrive fd msg =>
    obtain ⟨t, ht, h⟩ := bind_eq_ok.mp h
    cases pure_eq_ok.mp h
    exact .arrive fd msg t ht
  | listen fd buffer players =>
    simp only [step] at h
    split at h
    · obtain ⟨t, ht, h⟩ := bind_eq_ok.mp h
      obtain ⟨-, -, h⟩ := bind_eq_ok.mp h
      cases pure_eq_ok.mp h
      exact .listen fd buffer players t ht
    · cases h
  | bindInfo fd =>
    simp only [step] at h
    split at h
    · rename_i fd _
      obtain ⟨t, ht, h⟩ := bind_eq_ok.mp h
      obtain ⟨info, hi, h⟩ := bind_eq_ok.mp h
      cases pure_eq_ok.mp h
      obtain ⟨master, -, hi⟩ := bind_eq_ok.mp hi
      cases pure_eq_ok.mp hi
      exact .bindInfo fd t master ht
    · cases h
    · cases h
  | connectMaster fd =>
    simp only [step] at h
    split at h
    · rename_i fd _
      obtain ⟨t, ht, h⟩ := bind_eq_ok.mp h
      cases pure_eq_ok.mp h
      exact .connectMaster fd t ht
    · cases pure_eq_ok.mp h
      exact .noMaster
    · cases h
  | serverLoop a =>
    simp only [step] at h
    split at h
    · rename_i s hs
      obtain ⟨⟨s', e⟩, hst, h⟩ := bind_eq_ok.mp h
      obtain ⟨t, ht, h⟩ := bind_eq_ok.mp h
      cases pure_eq_ok.mp h
      refine .serverLoop a s s' e t hs hst ht ?_
      rintro ready rfl
      exact hadm s hs
    · cases h
  | serverInfoProvider a =>
    obtain ⟨s', hst, h⟩ := bind_eq_ok.mp h
    obtain ⟨t, ht, h⟩ := bind_eq_ok.mp h
    cases pure_eq_ok.mp h
    refine .serverInfoProvider a s' t (InfoState.step_cases hst) ht ?_
    rintro ready rfl
    exact hadm
  | masterCheckInTimer a =>
    obtain ⟨s', hst, h⟩ := bind_eq_ok.mp h
    obtain ⟨t, ht, h⟩ := bind_eq_ok.mp h
    cases pure_eq_ok.mp h
    exact .masterCheckInTimer a s' t hst ht

/-- No thread has a socket yet. -/
structure Initial (w : Process π) : Prop where
  socks : w.socks = .empty
  server : w.server = none
  info : w.info.pc = .init
  timer : w.timer = .init

end Process

end LwMix
