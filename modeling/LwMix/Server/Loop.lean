import LwMix.Base.CString
import Mathlib.Data.Finset.Basic

/-!
# `serverLoop` (`lwmix.c`)

The loop is a step function. A step runs the code up to the next place where it waits for the
environment, and its `Answer` is what the environment says there: the value of `running`, the result
of `select`, of `accept`, of `recv`. The answer to a call that is not the next one is
`Fault.protocol`. An iteration that moves the data of a client is recorded as an `Event`, with the
sends that it makes.

* `LoopState`: the locals of `serverLoop` (`read_fds` and `i` are in the program point), and the
  players. The functions of `player.c` are a parameter (`PlayerOps`).
* An `fd_set` is the set of its descriptors; `FD_SET` of a descriptor that is not below `FD_SETSIZE`
  is a fault.
* `Step`, `step_cases`: what a step can do, one case for each branch.

The output of `printf` and `perror` is left out, but not what `printf` reads: the buffer is printed
up to a terminator, which a `recv` of 4096 bytes need not leave in it. The process signal of a failed
`send` is left out.
-/

namespace LwMix

/-- The bytes that a successful `recv` puts into a `char[cap]`. -/
structure Chunk (cap : ℕ) where
  bytes : List UInt8
  ne_nil : bytes ≠ []
  fits : bytes.length ≤ cap
  deriving DecidableEq, Repr

/-- The result of `recv`: `-1`, `0`, or data. -/
inductive RecvResult where
  | error
  | eof
  | data (c : Chunk 4096)
  deriving DecidableEq, Repr

/-- What `serverLoop` does with the players, for an accepted descriptor and for a disconnected one.
`χ` is what the memory allocator may choose in a call. -/
structure PlayerOps (π χ : Type) where
  connect : ℕ → χ → π → Except Fault π
  removePlayer : ℕ → χ → π → Except Fault π

/-- Where the loop waits: at the loop test and `select`, at the descriptor `i` of a scan of
`read_fds`, or nowhere. -/
inductive Pc where
  | top
  | scan (i : ℕ) (readFds : Finset ℕ)
  | stopped
  deriving DecidableEq

/-- The locals of `serverLoop`, and the players. -/
structure LoopState (π : Type) where
  pc : Pc
  listener : ℕ
  master : Finset ℕ
  fdmax : ℕ
  buffer : Buf 4096
  players : π

/-- What the environment answers. -/
inductive Answer (χ : Type) where
  /-- `running` is `0`. -/
  | stop
  /-- `running` is not `0`, and `select` returns with this `read_fds`. -/
  | select (ready : Finset ℕ)
  /-- No system call is made. -/
  | next
  /-- The result of `accept`. -/
  | accept (newfd : Option ℕ) (x : χ)
  /-- The result of `recv`. -/
  | recv (r : RecvResult) (x : χ)

/-- An iteration of the scan: a client is accepted, is closed after `recv` returned `0`, is closed
after `recv` failed, or its chunk is received. The chunk comes with the buffer after the `recv`, and
with the sends: their descriptors and bytes, in order. -/
inductive Event where
  | accepted (fd : ℕ)
  | disconnected (fd : ℕ)
  | failed (fd : ℕ)
  | received (fd : ℕ) (chunk : Chunk 4096) (buffer : Buf 4096) (sends : List (ℕ × List UInt8))
  deriving DecidableEq

/-- `FD_SET(fd, &s)`. -/
def fdSet (fdSetSize fd : ℕ) (s : Finset ℕ) : Except Fault (Finset ℕ) :=
  if fd < fdSetSize then .ok (insert fd s) else .error (.fdRange fd)

theorem fdSet_eq_ok {fdSetSize fd : ℕ} {s s' : Finset ℕ} :
    fdSet fdSetSize fd s = .ok s' ↔ fd < fdSetSize ∧ s' = insert fd s := by
  unfold fdSet
  split <;> simp_all [eq_comm]

/-- The test `strncmp(buffer, ":MIX", 4) == 0`. -/
def isMix (buffer : Buf 4096) : Bool := strncmp 4 buffer.bytes (ascii ":MIX") = 0

theorem isMix_iff {buffer : Buf 4096} : isMix buffer ↔ buffer.bytes.take 4 = ascii ":MIX" := by
  rw [isMix, decide_eq_true_iff, strncmp_eq_zero (by decide) (by decide)]
  rfl

/-- The buffer after a `recv` of `c`: the bytes after the chunk are those of before. -/
def recvInto (c : Chunk 4096) (buffer : Buf 4096) : Buf 4096 :=
  buffer.overwrite 0 c.bytes (by have := c.fits; omega)

@[simp] theorem recvInto_bytes (c : Chunk 4096) (buffer : Buf 4096) :
    (recvInto c buffer).bytes = c.bytes ++ buffer.bytes.drop c.bytes.length := by
  simp [recvInto]

theorem recvInto_take (c : Chunk 4096) (buffer : Buf 4096) :
    (recvInto c buffer).bytes.take c.bytes.length = c.bytes := by
  simp

namespace ServerLoop

variable {π χ : Type}

/-- The server after `listen`: `master` has the listener only, and the buffer is arbitrary. -/
def start (listener : ℕ) (buffer : Buf 4096) (players : π) : LoopState π where
  pc := .top
  listener := listener
  master := {listener}
  fdmax := listener
  buffer := buffer
  players := players

/-- The loop over `j` that relays the bytes `msg` of the client `i`. -/
def relay (i : ℕ) (msg : List UInt8) (s : LoopState π) : List (ℕ × List UInt8) :=
  (List.range (s.fdmax + 1)).filterMap fun j =>
    if j ∈ s.master then
      if j ≠ s.listener ∧ j ≠ i then some (j, msg) else none
    else none

variable (P : PlayerOps π χ) (fdSetSize : ℕ)

/-- The branch of the listener, after `accept`. -/
def acceptClient (newfd : Option ℕ) (x : χ) (s : LoopState π) :
    Except Fault (LoopState π × Option Event) :=
  match newfd with
  | none => pure (s, none)
  | some newfd => do
    let master ← fdSet fdSetSize newfd s.master
    let fdmax := if newfd > s.fdmax then newfd else s.fdmax
    let players ← P.connect newfd x s.players
    pure ({ s with master, fdmax, players }, some (.accepted newfd))

/-- The branch of a client `i`, after `recv`. -/
def recvClient (i : ℕ) (r : RecvResult) (x : χ) (s : LoopState π) :
    Except Fault (LoopState π × Option Event) :=
  match r with
  | .eof => do
    let players ← P.removePlayer i x s.players
    pure ({ s with players, master := s.master.erase i }, some (.disconnected i))
  | .error => pure ({ s with master := s.master.erase i }, some (.failed i))
  | .data c => do
    let buffer := recvInto c s.buffer
    -- `printf("Packet Received: %s\n", buffer)`
    let _ ← buffer.string
    let sends :=
      if isMix buffer then [] else relay i (buffer.bytes.take c.bytes.length) s
    pure ({ s with buffer }, some (.received i c buffer sends))

/-- The body of the scan for a descriptor `i` of `read_fds`. -/
def serve (i : ℕ) (a : Answer χ) (s : LoopState π) : Except Fault (LoopState π × Option Event) :=
  if i = s.listener then
    match a with
    | .accept newfd x => acceptClient P fdSetSize newfd x s
    | _ => .error .protocol
  else
    match a with
    | .recv r x => recvClient P i r x s
    | _ => .error .protocol

/-- One step of `serverLoop`. -/
def step (a : Answer χ) (s : LoopState π) : Except Fault (LoopState π × Option Event) :=
  match s.pc, a with
  | .top, .stop => pure ({ s with pc := .stopped }, none)
  | .top, .select ready => pure ({ s with pc := .scan 0 ready }, none)
  | .scan i readFds, a =>
    if i ≤ s.fdmax then
      if i ∈ readFds then do
        let (s', e) ← serve P fdSetSize i a s
        pure ({ s' with pc := .scan (i + 1) readFds }, e)
      else
        match a with
        | .next => pure ({ s with pc := .scan (i + 1) readFds }, none)
        | _ => .error .protocol
    else
      match a with
      | .next => pure ({ s with pc := .top }, none)
      | _ => .error .protocol
  | _, _ => .error .protocol

/-- What a step can do. -/
inductive Step (s : LoopState π) : Answer χ → LoopState π → Option Event → Prop
  | stop (h : s.pc = .top) : Step s .stop { s with pc := .stopped } none
  | select (ready : Finset ℕ) (h : s.pc = .top) :
      Step s (.select ready) { s with pc := .scan 0 ready } none
  | skip (i : ℕ) (readFds : Finset ℕ) (h : s.pc = .scan i readFds) (hi : i ∉ readFds)
      (hm : i ≤ s.fdmax) : Step s .next { s with pc := .scan (i + 1) readFds } none
  | done (i : ℕ) (readFds : Finset ℕ) (h : s.pc = .scan i readFds) (hi : s.fdmax < i) :
      Step s .next { s with pc := .top } none
  | refuse (i : ℕ) (readFds : Finset ℕ) (x : χ) (h : s.pc = .scan i readFds)
      (hr : i ∈ readFds) (hi : i = s.listener) (hm : i ≤ s.fdmax) :
      Step s (.accept none x) { s with pc := .scan (i + 1) readFds } none
  | accept (i : ℕ) (readFds : Finset ℕ) (fd : ℕ) (x : χ) (players : π)
      (h : s.pc = .scan i readFds) (hr : i ∈ readFds) (hi : i = s.listener) (hfd : fd < fdSetSize)
      (hp : P.connect fd x s.players = .ok players) (hm : i ≤ s.fdmax) :
      Step s (.accept (some fd) x)
        { s with
          pc := .scan (i + 1) readFds
          master := insert fd s.master
          fdmax := if fd > s.fdmax then fd else s.fdmax
          players := players }
        (some (.accepted fd))
  | eof (i : ℕ) (readFds : Finset ℕ) (x : χ) (players : π) (h : s.pc = .scan i readFds)
      (hr : i ∈ readFds) (hi : i ≠ s.listener)
      (hp : P.removePlayer i x s.players = .ok players) (hm : i ≤ s.fdmax) :
      Step s (.recv .eof x)
        { s with pc := .scan (i + 1) readFds, master := s.master.erase i, players := players }
        (some (.disconnected i))
  | error (i : ℕ) (readFds : Finset ℕ) (x : χ) (h : s.pc = .scan i readFds)
      (hr : i ∈ readFds) (hi : i ≠ s.listener) (hm : i ≤ s.fdmax) :
      Step s (.recv .error x)
        { s with pc := .scan (i + 1) readFds, master := s.master.erase i } (some (.failed i))
  | data (i : ℕ) (readFds : Finset ℕ) (x : χ) (c : Chunk 4096) (h : s.pc = .scan i readFds)
      (hr : i ∈ readFds) (hi : i ≠ s.listener) (hm : i ≤ s.fdmax)
      (hz : 0 ∈ (recvInto c s.buffer).bytes) :
      Step s (.recv (.data c) x)
        { s with pc := .scan (i + 1) readFds, buffer := recvInto c s.buffer }
        (some (.received i c (recvInto c s.buffer)
          (if isMix (recvInto c s.buffer) then [] else relay i c.bytes s)))

/-- What a step at a descriptor of `read_fds` does. -/
theorem serve_cases {a : Answer χ} {s s' : LoopState π} {e : Option Event} {i : ℕ}
    {readFds : Finset ℕ} (hpc : s.pc = .scan i readFds) (hm : i ≤ s.fdmax) (hr : i ∈ readFds)
    (h : serve P fdSetSize i a s = .ok (s', e)) :
    Step P fdSetSize s a { s' with pc := .scan (i + 1) readFds } e := by
  unfold serve at h
  split at h <;> rename_i hl <;> split at h
  · rename_i newfd x
    cases newfd with
    | none =>
      cases pure_eq_ok.mp h
      exact .refuse i readFds x hpc hr hl hm
    | some fd =>
      obtain ⟨master, hset, h⟩ := bind_eq_ok.mp h
      obtain ⟨hfd, rfl⟩ := fdSet_eq_ok.mp hset
      obtain ⟨players, hp, h⟩ := bind_eq_ok.mp h
      cases pure_eq_ok.mp h
      exact .accept i readFds fd x players hpc hr hl hfd hp hm
  · cases h
  · rename_i r x
    cases r with
    | eof =>
      obtain ⟨players, hp, h⟩ := bind_eq_ok.mp h
      cases pure_eq_ok.mp h
      exact .eof i readFds x players hpc hr hl hp hm
    | error =>
      cases pure_eq_ok.mp h
      exact .error i readFds x hpc hr hl hm
    | data c =>
      obtain ⟨text, htext, h⟩ := bind_eq_ok.mp h
      simp only [recvInto_take] at h
      cases pure_eq_ok.mp h
      exact .data i readFds x c hpc hr hl hm (Buf.mem_of_string _ htext)
  · cases h

theorem step_cases {a : Answer χ} {s s' : LoopState π} {e : Option Event}
    (h : step P fdSetSize a s = .ok (s', e)) : Step P fdSetSize s a s' e := by
  unfold step at h
  split at h
  · rename_i hpc
    cases h
    exact .stop hpc
  · rename_i ready hpc
    cases h
    exact .select ready hpc
  · rename_i i readFds hpc
    by_cases hm : i ≤ s.fdmax
    · rw [if_pos hm] at h
      by_cases hr : i ∈ readFds
      · rw [if_pos hr] at h
        obtain ⟨⟨s₁, e₁⟩, hs, h⟩ := bind_eq_ok.mp h
        cases pure_eq_ok.mp h
        exact serve_cases P fdSetSize hpc hm hr hs
      · rw [if_neg hr] at h
        split at h
        · cases h
          exact .skip i readFds hpc hr hm
        · cases h
    · rw [if_neg hm] at h
      split at h
      · cases h
        exact .done i readFds hpc (by omega)
      · cases h
  · cases h

/-- The step at a descriptor of `read_fds`. -/
theorem step_serve {a : Answer χ} {s s' : LoopState π} {e : Option Event} {i : ℕ}
    {readFds : Finset ℕ} (hpc : s.pc = .scan i readFds) (hm : i ≤ s.fdmax) (hr : i ∈ readFds)
    (h : serve P fdSetSize i a s = .ok (s', e)) :
    step P fdSetSize a s = .ok ({ s' with pc := .scan (i + 1) readFds }, e) := by
  unfold step
  rw [hpc]
  dsimp only
  rw [if_pos hm, if_pos hr, h]
  rfl

theorem Step.eq {a : Answer χ} {s s' : LoopState π} {e : Option Event}
    (h : Step P fdSetSize s a s' e) : step P fdSetSize a s = .ok (s', e) := by
  cases h with
  | stop hpc | select ready hpc =>
    unfold step
    rw [hpc]
    rfl
  | skip i readFds hpc hi hm =>
    unfold step
    rw [hpc]
    dsimp only
    rw [if_pos hm, if_neg hi]
    rfl
  | done i readFds hpc hi =>
    unfold step
    rw [hpc]
    dsimp only
    rw [if_neg (by omega)]
    rfl
  | refuse i readFds x hpc hr hi hm =>
    apply step_serve P fdSetSize hpc hm hr
    rw [serve, if_pos hi]
    rfl
  | accept i readFds fd x players hpc hr hi hfd hp hm =>
    have hs : serve P fdSetSize i (.accept (some fd) x) s = .ok
        ({ s with
          master := insert fd s.master
          fdmax := if fd > s.fdmax then fd else s.fdmax
          players := players }, some (.accepted fd)) := by
      rw [serve, if_pos hi]
      simp only [acceptClient, fdSet, if_pos hfd, hp]
      rfl
    exact step_serve P fdSetSize hpc hm hr hs
  | eof i readFds x players hpc hr hi hp hm =>
    have hs : serve P fdSetSize i (.recv .eof x) s = .ok
        ({ s with players := players, master := s.master.erase i }, some (.disconnected i)) := by
      rw [serve, if_neg hi]
      simp only [recvClient, hp]
      rfl
    exact step_serve P fdSetSize hpc hm hr hs
  | error i readFds x hpc hr hi hm =>
    have hs : serve P fdSetSize i (.recv .error x) s = .ok
        ({ s with master := s.master.erase i }, some (.failed i)) := by
      rw [serve, if_neg hi]
      rfl
    exact step_serve P fdSetSize hpc hm hr hs
  | data i readFds x c hpc hr hi hm hz =>
    have hs : serve P fdSetSize i (.recv (.data c) x) s = .ok
        ({ s with buffer := recvInto c s.buffer }, some (.received i c (recvInto c s.buffer)
          (if isMix (recvInto c s.buffer) then [] else relay i c.bytes s))) := by
      rw [serve, if_neg hi]
      simp only [recvClient, recvInto_take, Buf.string_of_mem _ hz]
      rfl
    exact step_serve P fdSetSize hpc hm hr hs

/-- A chunk after which the buffer has no zero byte: it is printed past its end. -/
theorem step_unterminated {s : LoopState π} {i : ℕ} {readFds : Finset ℕ} {c : Chunk 4096} (x : χ)
    (hpc : s.pc = .scan i readFds) (hr : i ∈ readFds) (hi : i ≠ s.listener) (hm : i ≤ s.fdmax)
    (hz : 0 ∉ (recvInto c s.buffer).bytes) :
    step P fdSetSize (.recv (.data c) x) s = .error .outOfBounds := by
  unfold step
  rw [hpc]
  dsimp only
  rw [if_pos hm, if_pos hr, serve, if_neg hi]
  simp only [recvClient, Buf.string_of_not_mem _ hz]
  rfl

end ServerLoop

end LwMix
