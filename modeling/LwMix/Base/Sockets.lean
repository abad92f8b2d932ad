import LwMix.Base.Heap
import Mathlib.Logic.Function.Basic

/-!
# Tables of open sockets

The sockets of a process, by descriptor number: each has a kind `κ` and the queue of the messages
that have arrived and were not received. Threads `τ` share the table. A number is given out again
after a close.

* `openAt`, `close`, `arrive`, `take`, `receive`: what the kernel does. A `take` records which thread
  took which message, on a socket of which kind.
* `kindOf`: the kind of the socket at a number; how each operation changes it.
* `Own owner`: every message was taken by the thread that owns the kind of its socket.
-/

namespace LwMix

/-- An open socket. -/
structure Sock (κ : Type) where
  kind : κ
  queue : List (List UInt8)

/-- A message was taken. -/
structure Take (τ κ : Type) where
  thread : τ
  kind : κ
  msg : List UInt8
  deriving DecidableEq

/-- The open sockets, and the messages taken so far. -/
structure SockTable (τ κ : Type) where
  socks : ℕ → Option (Sock κ)
  log : List (Take τ κ)

namespace SockTable

variable {τ κ : Type} {t t' : SockTable τ κ} {fd : ℕ} {msg : List UInt8}

/-- No socket is open. -/
def empty : SockTable τ κ := ⟨fun _ => none, []⟩

/-- The kind of the socket at `fd`. -/
def kindOf (t : SockTable τ κ) (fd : ℕ) : Option κ := (t.socks fd).map Sock.kind

/-- The kernel gives out `fd`, which is not open. -/
def openAt (t : SockTable τ κ) (fd : ℕ) (k : κ) : Except Fault (SockTable τ κ) :=
  if (t.socks fd).isSome then .error (.notFresh fd)
  else .ok { t with socks := Function.update t.socks fd (some ⟨k, []⟩) }

/-- `close(fd)`. -/
def close (t : SockTable τ κ) (fd : ℕ) : SockTable τ κ :=
  { t with socks := Function.update t.socks fd none }

/-- A message arrives on the socket at `fd`. -/
def arrive (t : SockTable τ κ) (fd : ℕ) (msg : List UInt8) : Except Fault (SockTable τ κ) :=
  match t.socks fd with
  | some s => .ok { t with socks := Function.update t.socks fd (some ⟨s.kind, s.queue ++ [msg]⟩) }
  | none => .error .protocol

/-- The thread `i` takes the first message of the socket at `fd`. -/
def take (t : SockTable τ κ) (i : τ) (fd : ℕ) : Except Fault (List UInt8 × SockTable τ κ) :=
  match t.socks fd with
  | some ⟨k, msg :: q⟩ =>
    .ok (msg, ⟨Function.update t.socks fd (some ⟨k, q⟩), t.log ++ [⟨i, k, msg⟩]⟩)
  | _ => .error .protocol

/-- The thread `i` receives `msg` from the socket at `fd`. -/
def receive (t : SockTable τ κ) (i : τ) (fd : ℕ) (msg : List UInt8) :
    Except Fault (SockTable τ κ) := do
  let (m, t) ← t.take i fd
  if m = msg then pure t else .error .protocol

theorem openAt_ok {k : κ} (h : t.openAt fd k = .ok t') :
    t.kindOf fd = none ∧ t'.log = t.log ∧
      t'.kindOf = Function.update t.kindOf fd (some k) := by
  unfold openAt at h
  split at h
  · cases h
  · rename_i hn
    cases h
    refine ⟨by simpa [kindOf] using hn, rfl, funext fun x => ?_⟩
    by_cases hx : x = fd <;> simp [kindOf, Function.update, hx]

theorem kindOf_openAt {k : κ} (h : t.openAt fd k = .ok t') : t'.kindOf fd = some k := by
  rw [(openAt_ok h).2.2, Function.update_self]

@[simp] theorem close_log (t : SockTable τ κ) (fd : ℕ) : (t.close fd).log = t.log := rfl

@[simp] theorem kindOf_close (t : SockTable τ κ) (fd : ℕ) :
    (t.close fd).kindOf = Function.update t.kindOf fd none := by
  funext x
  by_cases hx : x = fd <;> simp [kindOf, close, Function.update, hx]

/-- What is open after a close. -/
theorem open_of_close {x : ℕ} (h : (t.close fd).kindOf x ≠ none) : x ≠ fd ∧ t.kindOf x ≠ none := by
  rw [kindOf_close] at h
  by_cases hx : x = fd
  · rw [hx, Function.update_self] at h
    exact absurd rfl h
  · rw [Function.update_of_ne hx] at h
    exact ⟨hx, h⟩

/-- What is open after another socket is opened. -/
theorem open_of_openAt {k : κ} {x : ℕ} (h : t.openAt fd k = .ok t') (hx : t'.kindOf x ≠ none) :
    x = fd ∨ t.kindOf x ≠ none := by
  by_cases heq : x = fd
  · exact .inl heq
  · rw [(openAt_ok h).2.2, Function.update_of_ne heq] at hx
    exact .inr hx

theorem arrive_ok (h : t.arrive fd msg = .ok t') : t'.log = t.log ∧ t'.kindOf = t.kindOf := by
  unfold arrive at h
  split at h
  · rename_i s hs
    cases h
    refine ⟨rfl, funext fun x => ?_⟩
    by_cases hx : x = fd
    · subst hx
      simp [kindOf, hs]
    · simp [kindOf, Function.update, hx]
  · cases h

theorem take_ok {i : τ} (h : t.take i fd = .ok (msg, t')) :
    ∃ k, t.kindOf fd = some k ∧ t'.log = t.log ++ [⟨i, k, msg⟩] ∧ t'.kindOf = t.kindOf := by
  unfold take at h
  split at h
  · rename_i k m q hs
    cases h
    refine ⟨k, by simp [kindOf, hs], rfl, funext fun x => ?_⟩
    by_cases hx : x = fd
    · subst hx
      simp [kindOf, hs]
    · simp [kindOf, Function.update, hx]
  · cases h

theorem receive_ok {i : τ} (h : t.receive i fd msg = .ok t') : t.take i fd = .ok (msg, t') := by
  obtain ⟨⟨m, t₁⟩, htake, h⟩ := bind_eq_ok.mp h
  dsimp only at h
  split at h
  · rename_i hm
    cases pure_eq_ok.mp h
    rw [htake, hm]
  · cases h

theorem receive_of_take {i : τ} (h : t.take i fd = .ok (msg, t')) : t.receive i fd msg = .ok t' :=
  bind_eq_ok.mpr ⟨_, h, if_pos rfl⟩

/-- A message can arrive at an open socket, and then any thread can take one from it. -/
theorem exists_arrive_take {k : κ} (h : t.kindOf fd = some k) (msg : List UInt8) (i : τ) :
    ∃ t₁ m t₂, t.arrive fd msg = .ok t₁ ∧ t₁.take i fd = .ok (m, t₂) := by
  obtain ⟨⟨k', q⟩, hs, -⟩ := Option.map_eq_some_iff.mp h
  cases q <;> simp [arrive, take, hs]

/-- Every message was taken by the owner of its socket's kind. -/
def Own (owner : κ → τ) (t : SockTable τ κ) : Prop := ∀ x ∈ t.log, x.thread = owner x.kind

instance (owner : κ → τ) (t : SockTable τ κ) [DecidableEq τ] : Decidable (t.Own owner) := by
  unfold Own
  infer_instance

theorem Own.of_log {owner : κ → τ} (h : t.Own owner) (hlog : t'.log = t.log) : t'.Own owner := by
  rw [Own, hlog]
  exact h

/-- A thread that takes from its own sockets keeps the law. -/
theorem Own.take {owner : κ → τ} {i : τ} (h : t.Own owner) (ht : t.take i fd = .ok (msg, t'))
    (hk : ∀ k, t.kindOf fd = some k → owner k = i) : t'.Own owner := by
  obtain ⟨k, hfd, hlog, -⟩ := take_ok ht
  rw [Own, hlog]
  intro x hx
  rcases List.mem_append.mp hx with hx | hx
  · exact h x hx
  · obtain rfl := List.mem_singleton.mp hx
    exact (hk k hfd).symm

end SockTable

end LwMix
