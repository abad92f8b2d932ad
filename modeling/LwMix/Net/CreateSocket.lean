import LwMix.Base.Heap
import Mathlib.Data.List.Count
import Mathlib.Data.List.Nodup
import Mathlib.Logic.Function.Basic

/-!
# `createTCPSocket` and `createDGRAMSocket` (`network.c`)

Both functions try the addresses of `getaddrinfo` in order, with their own steps on each new socket.
A descriptor number is given out again after a `close`, so the sockets have names of their own: the
position of their address in the list.

* `socketLoop`, `createSocket`: the code, with the answers of the kernel beside each address.
* `socketLoop_pass`: what the addresses that fail leave.
* `createSocket_spec`: the result is the socket of the first usable address, and everything else
  that was acquired is released.

What is only printed is left out.
-/

namespace LwMix

/-- `SOCK_STREAM` and `SOCK_DGRAM`. -/
inductive SockType where
  | stream
  | dgram
  deriving DecidableEq, Repr

/-- The `hints` of `getaddrinfo`: `AF_INET`, with the flag `AI_PASSIVE` or without. -/
structure Hints where
  socktype : SockType
  passive : Bool
  deriving DecidableEq, Repr

/-- An entry of the address list, with what the calls for it answer: `socket` returns a descriptor
or `-1`, the others succeed or fail. -/
structure Address where
  socket : Option ℕ
  setsockopt : Bool
  bind : Bool
  connect : Bool
  deriving DecidableEq, Repr

/-- A socket: one from before the call, or the one made for the address at a position. -/
inductive SockName where
  | before
  | made (i : ℕ)
  deriving DecidableEq, Repr

/-- The open descriptors, the sockets opened and closed in the call, and how often the address list
was freed. -/
structure NetState where
  fds : ℕ → Option SockName
  opened : List ℕ
  closed : List SockName
  freed : ℕ

namespace NetState

/-- The state at the start of the call. -/
def start (isOpen : ℕ → Bool) : NetState where
  fds fd := if isOpen fd then some .before else none
  opened := []
  closed := []
  freed := 0

/-- `socket` returns `fd`, which is not open, for the address at `i`. -/
def openAt (s : NetState) (fd i : ℕ) : Except Fault NetState :=
  if (s.fds fd).isSome then .error (.notFresh fd)
  else .ok { s with fds := Function.update s.fds fd (some (.made i)), opened := s.opened ++ [i] }

/-- `close(fd)`: an error if `fd` is not open. -/
def close (s : NetState) (fd : ℕ) : NetState :=
  match s.fds fd with
  | some k => { s with fds := Function.update s.fds fd none, closed := s.closed ++ [k] }
  | none => s

/-- `freeaddrinfo(res)`. -/
def freeaddrinfo (s : NetState) : NetState := { s with freed := s.freed + 1 }

end NetState

/-- What the steps on a new socket come to. After a failed one the socket is closed. -/
inductive Steps where
  | succeed
  | fail
  | exit
  deriving DecidableEq, Repr

/-- How the loop ends: in `exit(1)`, or with the values of `p` and `sockfd`. -/
inductive LoopEnd where
  | exit
  | done (p : Option Address) (sockfd : Int)
  deriving DecidableEq, Repr

/-- How the function ends. -/
inductive CallEnd where
  | exited (code : ℕ)
  | returned (sockfd : Int)
  deriving DecidableEq, Repr

/-- The loop over the addresses, the first of which is at the position `i`. -/
def socketLoop (steps : Address → Steps) :
    ℕ → List Address → Int → NetState → Except Fault (LoopEnd × NetState)
  | _, [], sockfd, s => pure (.done none sockfd, s)
  | i, a :: as, _, s =>
    match a.socket with
    | none => socketLoop steps (i + 1) as (-1) s
    | some fd => do
      let s ← s.openAt fd i
      match steps a with
      | .exit => pure (.exit, s)
      | .fail => socketLoop steps (i + 1) as fd (s.close fd)
      | .succeed => pure (.done (some a) fd, s)

/-- From the result of `getaddrinfo` on. Before the loop, `sockfd` is indeterminate. -/
def createSocket (steps : Address → Steps) (addrs : Option (List Address)) (sockfd : Int)
    (s : NetState) : Except Fault (CallEnd × NetState) :=
  match addrs with
  | none => pure (.returned (-1), s)
  | some res => do
    let (e, s) ← socketLoop steps 0 res sockfd s
    match e with
    | .exit => pure (.exited 1, s)
    | .done none _ => pure (.returned (-1), s.freeaddrinfo)
    | .done (some _) sockfd => pure (.returned sockfd, s.freeaddrinfo)

/-- The steps of `createTCPSocket`. -/
def tcpSteps (a : Address) : Steps :=
  if ¬ a.setsockopt then .exit else if ¬ a.bind then .fail else .succeed

/-- The steps of `createDGRAMSocket`. -/
def dgramSteps (isServer : Bool) (a : Address) : Steps :=
  if isServer ∧ ¬ a.bind then .fail
  else if ¬ isServer ∧ ¬ a.connect then .fail
  else .succeed

/-- `createTCPSocket`. -/
def createTCPSocket (isServer : Bool) (getaddrinfo : Hints → Option (List Address)) (sockfd : Int)
    (s : NetState) : Except Fault (CallEnd × NetState) :=
  createSocket tcpSteps (getaddrinfo ⟨.stream, isServer⟩) sockfd s

/-- `createDGRAMSocket`. -/
def createDGRAMSocket (isServer : Bool) (getaddrinfo : Hints → Option (List Address)) (sockfd : Int)
    (s : NetState) : Except Fault (CallEnd × NetState) :=
  createSocket (dgramSteps isServer) (getaddrinfo ⟨.dgram, isServer⟩) sockfd s

/-! ## The loop -/

namespace NetState

variable {s : NetState} {fd i : ℕ}

theorem openAt_of_free (h : s.fds fd = none) : s.openAt fd i =
    .ok { s with fds := Function.update s.fds fd (some (.made i)), opened := s.opened ++ [i] } := by
  simp [openAt, h]

/-- A socket that is opened and closed leaves the descriptors as they were. -/
theorem close_open (h : s.fds fd = none) :
    close { s with
        fds := Function.update s.fds fd (some (.made i))
        opened := s.opened ++ [i] } fd =
      { s with opened := s.opened ++ [i], closed := s.closed ++ [.made i] } := by
  simp only [close, Function.update_self, Function.update_idem, mk.injEq, and_self, and_true]
  rw [← h, Function.update_eq_self]

end NetState

/-- The positions of the addresses that get a socket. -/
def madeFrom : ℕ → List Address → List ℕ
  | _, [] => []
  | i, a :: as => if a.socket.isSome then i :: madeFrom (i + 1) as else madeFrom (i + 1) as

theorem mem_madeFrom {i j : ℕ} {as : List Address} (h : j ∈ madeFrom i as) :
    i ≤ j ∧ j < i + as.length := by
  induction as generalizing i with
  | nil => cases h
  | cons a as ih =>
    simp only [madeFrom] at h
    have hrest : j ∈ madeFrom (i + 1) as → i ≤ j ∧ j < i + (a :: as).length := fun h => by
      have := ih h
      rw [List.length_cons]
      omega
    split at h
    · rcases List.mem_cons.mp h with rfl | h
      · simp
      · exact hrest h
    · exact hrest h

theorem nodup_madeFrom (i : ℕ) (as : List Address) : (madeFrom i as).Nodup := by
  induction as generalizing i with
  | nil => exact List.nodup_nil
  | cons a as ih =>
    simp only [madeFrom]
    split
    · refine List.nodup_cons.mpr ⟨fun h => ?_, ih _⟩
      have := (mem_madeFrom h).1
      omega
    · exact ih _

section Loop

variable {steps : Address → Steps} {a : Address} {as pre post : List Address} {s : NetState}
  {sockfd : Int} {fd i : ℕ}

/-- The address is usable: all its steps succeed. -/
def Usable (steps : Address → Steps) (a : Address) : Prop :=
  a.socket.isSome ∧ steps a = .succeed

/-- **The addresses that fail**: their sockets are closed, and the descriptors are as before. -/
theorem socketLoop_pass (post : List Address) (i : ℕ) (sockfd : Int)
    (hfree : ∀ a ∈ pre, ∀ fd, a.socket = some fd → s.fds fd = none)
    (hfail : ∀ a ∈ pre, ¬ Usable steps a) (hexit : ∀ a ∈ pre, steps a ≠ .exit) :
    ∃ sockfd', socketLoop steps i (pre ++ post) sockfd s =
      socketLoop steps (i + pre.length) post sockfd'
        { s with
          opened := s.opened ++ madeFrom i pre
          closed := s.closed ++ (madeFrom i pre).map .made } := by
  induction pre generalizing i sockfd s with
  | nil => exact ⟨sockfd, by simp [madeFrom]⟩
  | cons a pre ih =>
    have hfree' : ∀ a ∈ pre, ∀ fd, a.socket = some fd → s.fds fd = none := fun x hx =>
      hfree x (List.mem_cons_of_mem _ hx)
    have hfail' : ∀ a ∈ pre, ¬ Usable steps a := fun x hx => hfail x (List.mem_cons_of_mem _ hx)
    have hexit' : ∀ a ∈ pre, steps a ≠ .exit := fun x hx => hexit x (List.mem_cons_of_mem _ hx)
    have hlen : i + (a :: pre).length = i + 1 + pre.length := by simp; omega
    rw [hlen, List.cons_append]
    cases hsock : a.socket with
    | none =>
      obtain ⟨sockfd', hloop⟩ := ih (i + 1) (-1) hfree' hfail' hexit'
      exact ⟨sockfd', by simp only [socketLoop, hsock, hloop, madeFrom]; rfl⟩
    | some fd =>
      have hnone := hfree a List.mem_cons_self fd hsock
      have hstep : steps a = .fail := by
        cases h : steps a with
        | succeed => exact absurd ⟨by simp [hsock], h⟩ (hfail a List.mem_cons_self)
        | fail => rfl
        | exit => exact absurd h (hexit a List.mem_cons_self)
      obtain ⟨sockfd', hloop⟩ := ih (i + 1) fd
        (s := { s with opened := s.opened ++ [i], closed := s.closed ++ [.made i] })
        hfree' hfail' hexit'
      refine ⟨sockfd', ?_⟩
      simp only [socketLoop, hsock, NetState.openAt_of_free hnone, hstep, bind, Except.bind,
        NetState.close_open hnone, hloop, madeFrom, Option.isSome_some, ↓reduceIte,
        List.append_assoc, List.singleton_append, List.map_cons]

/-- No address is usable. -/
theorem socketLoop_none (i : ℕ) (sockfd : Int)
    (hfree : ∀ a ∈ as, ∀ fd, a.socket = some fd → s.fds fd = none)
    (hfail : ∀ a ∈ as, ¬ Usable steps a) (hexit : ∀ a ∈ as, steps a ≠ .exit) :
    ∃ sockfd', socketLoop steps i as sockfd s = .ok (.done none sockfd', { s with
      opened := s.opened ++ madeFrom i as
      closed := s.closed ++ (madeFrom i as).map .made }) := by
  obtain ⟨sockfd', h⟩ := socketLoop_pass [] i sockfd hfree hfail hexit
  rw [List.append_nil] at h
  exact ⟨sockfd', h⟩

/-- The first usable address. -/
theorem socketLoop_some (post : List Address) (i : ℕ) (sockfd : Int)
    (hfree : ∀ a ∈ pre, ∀ fd, a.socket = some fd → s.fds fd = none)
    (hfail : ∀ a ∈ pre, ¬ Usable steps a) (hexit : ∀ a ∈ pre, steps a ≠ .exit)
    (hsock : a.socket = some fd) (hfd : s.fds fd = none) (hstep : steps a = .succeed) :
    socketLoop steps i (pre ++ a :: post) sockfd s = .ok (.done (some a) fd, { s with
      fds := Function.update s.fds fd (some (.made (i + pre.length)))
      opened := s.opened ++ madeFrom i pre ++ [i + pre.length]
      closed := s.closed ++ (madeFrom i pre).map .made }) := by
  obtain ⟨sockfd', h⟩ := socketLoop_pass (a :: post) i sockfd hfree hfail hexit
  have hopen := NetState.openAt_of_free (i := i + pre.length) (s := { s with
    opened := s.opened ++ madeFrom i pre
    closed := s.closed ++ (madeFrom i pre).map .made }) hfd
  rw [h]
  simp only [socketLoop, hsock, hopen, hstep, bind, Except.bind, pure, Except.pure]

end Loop

/-! ## The result of a call -/

/-- All steps of `createTCPSocket` succeed on the address. -/
def TcpUsable (a : Address) : Prop := a.socket.isSome ∧ a.setsockopt ∧ a.bind

/-- All steps of `createDGRAMSocket` succeed on the address. -/
def DgramUsable (isServer : Bool) (a : Address) : Prop :=
  a.socket.isSome ∧ if isServer then a.bind else a.connect

theorem usable_tcp (a : Address) : Usable tcpSteps a ↔ TcpUsable a := by
  unfold Usable TcpUsable tcpSteps
  cases a.setsockopt <;> cases a.bind <;> simp

theorem usable_dgram (isServer : Bool) (a : Address) :
    Usable (dgramSteps isServer) a ↔ DgramUsable isServer a := by
  unfold Usable DgramUsable dgramSteps
  cases isServer <;> cases a.bind <;> cases a.connect <;> simp

/-- The returned number is a descriptor of the socket `k`. -/
def Returns (r : Int) (s : NetState) (k : SockName) : Prop :=
  ∃ fd : ℕ, r = fd ∧ s.fds fd = some k

/-- What a call on the list `as` returns and leaves. -/
structure Created (usable : Address → Prop) (isOpen : ℕ → Bool) (as : List Address) (r : Int)
    (s : NetState) : Prop where
  /-- The socket of the first usable address, or `-1`. -/
  result : (r = -1 ∧ ∀ a ∈ as, ¬ usable a) ∨ ∃ pre a post, as = pre ++ a :: post ∧
    (∀ x ∈ pre, ¬ usable x) ∧ usable a ∧ Returns r s (.made pre.length)
  /-- Every other socket that was opened is closed once. -/
  closedOnce : ∀ j ∈ s.opened, ¬ Returns r s (.made j) → s.closed.count (.made j) = 1
  notClosed : ∀ k, Returns r s k → k ∉ s.closed
  /-- No other descriptor is changed. -/
  others : ∀ fd : ℕ, r ≠ fd → s.fds fd = (NetState.start isOpen).fds fd
  freed : s.freed = 1

section Create

variable {steps : Address → Steps} {usable : Address → Prop} {isOpen : ℕ → Bool}
  {as : List Address} {sockfd : Int}

/-- The calls of `socket` return descriptors that are not open. -/
def FreshFds (isOpen : ℕ → Bool) (as : List Address) : Prop :=
  ∀ a ∈ as, ∀ fd, a.socket = some fd → isOpen fd = false

theorem count_made {i j : ℕ} (h : j ∈ madeFrom i as) :
    ((madeFrom i as).map SockName.made).count (.made j) = 1 := by
  have hinj : Function.Injective SockName.made := fun _ _ h => SockName.made.inj h
  rw [List.count_map_of_injective _ _ hinj]
  exact List.count_eq_one_of_mem (nodup_madeFrom i as) h

/-- What the returned number is a descriptor of. -/
theorem returns_iff {fds : ℕ → Option SockName} {fd n : ℕ} {opened : List ℕ}
    {closed : List SockName} {k k' : SockName} :
    Returns fd ⟨Function.update fds fd (some k'), opened, closed, n⟩ k ↔ k' = k := by
  constructor
  · rintro ⟨fd', hfd', hk⟩
    obtain rfl : fd = fd' := Int.ofNat.inj hfd'
    simpa using hk
  · rintro rfl
    exact ⟨fd, rfl, by simp⟩

/-- No address is usable: all sockets that were opened are closed. -/
theorem created_none (hnone : ∀ a ∈ as, ¬ usable a) : Created usable isOpen as (-1)
    ⟨(NetState.start isOpen).fds, madeFrom 0 as, (madeFrom 0 as).map .made, 1⟩ where
  result := .inl ⟨rfl, hnone⟩
  closedOnce j hj _ := count_made hj
  notClosed := by
    rintro k ⟨fd, hfd, -⟩
    omega
  others _ _ := rfl
  freed := rfl

/-- The first usable address gets the descriptor `fd`. -/
theorem created_some {pre post : List Address} {a : Address} (fd : ℕ)
    (hpre : ∀ x ∈ pre, ¬ usable x) (ha : usable a) :
    Created usable isOpen (pre ++ a :: post) fd
      ⟨Function.update (NetState.start isOpen).fds fd (some (.made pre.length)),
        madeFrom 0 pre ++ [pre.length], (madeFrom 0 pre).map .made, 1⟩ where
  result := .inr ⟨pre, a, post, rfl, hpre, ha, returns_iff.mpr rfl⟩
  closedOnce j hj hne := by
    rcases List.mem_append.mp hj with hj | hj
    · exact count_made hj
    · obtain rfl := List.mem_singleton.mp hj
      exact absurd (returns_iff.mpr rfl) hne
  notClosed k hk hmem := by
    -- The positions of the sockets that were closed are before the one of `a`.
    obtain rfl := returns_iff.mp hk
    obtain ⟨j, hj, heq⟩ := List.mem_map.mp hmem
    have := (mem_madeFrom hj).2
    cases heq
    omega
  others fd' hne := Function.update_of_ne (fun heq => hne (by rw [heq])) _ _
  freed := rfl

/-- **A call on an address list.** -/
theorem createSocket_created (hfree : FreshFds isOpen as) (hexit : ∀ a ∈ as, steps a ≠ .exit)
    (husable : ∀ a, Usable steps a ↔ usable a) :
    ∃ r s, createSocket steps (some as) sockfd (.start isOpen) = .ok (.returned r, s) ∧
      Created usable isOpen as r s := by
  have hnone : ∀ a ∈ as, ∀ fd, a.socket = some fd → (NetState.start isOpen).fds fd = none :=
    fun a ha fd hfd => by simp [NetState.start, hfree a ha fd hfd]
  by_cases hex : ∃ a ∈ as, Usable steps a
  · classical
    obtain ⟨a₀, ha₀, hu₀⟩ := hex
    obtain ⟨a, pre, post, hpre, ha, rfl, -⟩ :=
      List.exists_of_eraseP (p := fun a => decide (Usable steps a)) ha₀ (by simpa using hu₀)
    replace hpre : ∀ x ∈ pre, ¬ Usable steps x := by simpa using hpre
    replace ha : Usable steps a := by simpa using ha
    obtain ⟨fd, hsock⟩ := Option.isSome_iff_exists.mp ha.1
    have hloop := socketLoop_some post 0 sockfd
      (fun x hx => hnone x (List.mem_append_left _ hx)) hpre
      (fun x hx => hexit x (List.mem_append_left _ hx)) hsock (hnone a (by simp) fd hsock) ha.2
    refine ⟨fd, _, bind_eq_ok.mpr ⟨_, hloop, rfl⟩, ?_⟩
    simp only [NetState.freeaddrinfo, NetState.start, List.nil_append, Nat.zero_add]
    exact created_some fd (fun x hx => (husable x).not.mp (hpre x hx)) ((husable a).mp ha)
  · have hfail : ∀ a ∈ as, ¬ Usable steps a := fun a ha hu => hex ⟨a, ha, hu⟩
    obtain ⟨sockfd', hloop⟩ := socketLoop_none 0 sockfd hnone hfail hexit
    refine ⟨-1, _, bind_eq_ok.mpr ⟨_, hloop, rfl⟩, ?_⟩
    simp only [NetState.freeaddrinfo, NetState.start, List.nil_append, Nat.zero_add]
    exact created_none fun a ha => (husable a).not.mp (hfail a ha)

/-- What a call returns and leaves, whether `getaddrinfo` succeeds or fails. -/
def CreatedOrFailed (usable : Address → Prop) (isOpen : ℕ → Bool) (addrs : Option (List Address))
    (call : Except Fault (CallEnd × NetState)) : Prop :=
  match addrs with
  | some as => ∃ r s, call = .ok (.returned r, s) ∧ Created usable isOpen as r s
  | none => call = .ok (.returned (-1), .start isOpen)

/-- **Socket creation.** Each function returns the socket of the first address on which all its
steps succeed, or `-1`, and releases everything else that it has acquired. -/
theorem createSocket_spec {getaddrinfo : Hints → Option (List Address)}
    (hfree : ∀ hints as, getaddrinfo hints = some as → FreshFds isOpen as)
    (hopt : ∀ hints as, getaddrinfo hints = some as → ∀ a ∈ as, a.setsockopt = true)
    (sockfd : Int) :
    (∀ isServer, CreatedOrFailed (DgramUsable isServer) isOpen (getaddrinfo ⟨.dgram, isServer⟩)
      (createDGRAMSocket isServer getaddrinfo sockfd (.start isOpen))) ∧
    CreatedOrFailed TcpUsable isOpen (getaddrinfo ⟨.stream, true⟩)
      (createTCPSocket true getaddrinfo sockfd (.start isOpen)) := by
  constructor
  · intro isServer
    unfold createDGRAMSocket
    cases haddrs : getaddrinfo ⟨.dgram, isServer⟩ with
    | none => exact rfl
    | some as =>
      refine createSocket_created (hfree _ as haddrs) (fun a _ => ?_) (usable_dgram isServer)
      unfold dgramSteps
      split
      · simp
      · split <;> simp
  · unfold createTCPSocket
    cases haddrs : getaddrinfo ⟨.stream, true⟩ with
    | none => exact rfl
    | some as =>
      refine createSocket_created (hfree _ as haddrs) (fun a ha => ?_) usable_tcp
      unfold tcpSteps
      rw [if_neg (by simp [hopt _ as haddrs a ha])]
      split <;> simp

/-- Two addresses fail, at different steps, and the third one gets the descriptor that the second
one had. -/
def threeAddresses : List Address :=
  [⟨none, true, true, true⟩, ⟨some 3, true, false, true⟩, ⟨some 3, true, true, true⟩]

theorem createSocket_spec_three : ∃ r s,
    createTCPSocket true (fun _ => some threeAddresses) 7 (.start fun fd => fd < 3) =
        .ok (.returned r, s) ∧
      Created TcpUsable (fun fd => fd < 3) threeAddresses r s := by
  have hfree : ∀ (hints : Hints) as, (fun _ : Hints => some threeAddresses) hints = some as →
      FreshFds (fun fd => fd < 3) as := by
    rintro hints as ⟨⟩
    simp [FreshFds, threeAddresses]
  have hopt : ∀ (hints : Hints) as, (fun _ : Hints => some threeAddresses) hints = some as →
      ∀ a ∈ as, a.setsockopt = true := by
    rintro hints as ⟨⟩
    simp [threeAddresses]
  exact (createSocket_spec hfree hopt 7).2

end Create

end LwMix
