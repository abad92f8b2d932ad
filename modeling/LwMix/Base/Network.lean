import LwMix.Base.Heap
import LwMix.Base.Lts
import Mathlib.Algebra.Order.Group.Multiset

/-!
# Networks that lose, copy and reorder packets

Hosts act on their own or receive a packet, and send packets either way. A packet in flight can be
received at any time, so packets overtake each other, and the network can lose it or copy it.

* `Flow`: the packets in flight, and the ones that were sent, received, lost and copied so far.
* `Hosts.network`: the system of the hosts and the network.
* `Reach.sound`: the books of the network balance, and it makes up no packet.
* `Reach.keeps`: the rule for an invariant of the hosts and a property of all packets, which rely on
  each other.
* `Reach.answered`, `Reach.balance`: if every request that is received is answered once, then the
  requests that were sent are all accounted for, whatever the network does.
-/

namespace LwMix

variable {σ ι κ π ε : Type}

/-- A datagram. -/
structure Packet (α μ : Type) where
  src : α
  dest : α
  msg : μ
  deriving DecidableEq

/-- The packets in flight, and what happened to packets so far. -/
structure Flow (π : Type) where
  flight : Multiset π
  sent : Multiset π
  received : Multiset π
  lost : Multiset π
  copied : Multiset π

namespace Flow

/-- Nothing has been sent. -/
def empty : Flow π := ⟨0, 0, 0, 0, 0⟩

def send (ps : List π) (n : Flow π) : Flow π :=
  { n with flight := n.flight + ps, sent := n.sent + ps }

def copy (p : π) (n : Flow π) : Flow π :=
  { n with flight := p ::ₘ n.flight, copied := p ::ₘ n.copied }

/-- The books balance, and every copy is one of a packet that was sent. -/
structure Sound (n : Flow π) : Prop where
  books : n.sent + n.copied = n.flight + n.received + n.lost
  copied : ∀ p ∈ n.copied, p ∈ n.sent

variable {n : Flow π} {p : π}

theorem Sound.empty : (Flow.empty : Flow π).Sound := ⟨rfl, by simp [Flow.empty]⟩

/-- A packet of a sound network was sent. -/
theorem Sound.of_mem (h : n.Sound) (hp : p ∈ n.flight + n.received + n.lost) : p ∈ n.sent := by
  rw [← h.books] at hp
  exact (Multiset.mem_add.mp hp).elim id (h.copied p)

theorem Sound.of_flight (h : n.Sound) (hp : p ∈ n.flight) : p ∈ n.sent :=
  h.of_mem (Multiset.mem_add.mpr (.inl (Multiset.mem_add.mpr (.inl hp))))

theorem Sound.send (h : n.Sound) (ps : List π) : (n.send ps).Sound where
  books := by
    show n.sent + ps + n.copied = n.flight + ps + n.received + n.lost
    rw [add_right_comm, h.books]
    ac_rfl
  copied p hp := Multiset.mem_add.mpr (.inl (h.copied p hp))

theorem Sound.copy (h : n.Sound) (hp : p ∈ n.flight) : (n.copy p).Sound where
  books := by
    show n.sent + p ::ₘ n.copied = p ::ₘ n.flight + n.received + n.lost
    rw [Multiset.add_cons, h.books, Multiset.cons_add, Multiset.cons_add]
  copied q hq := by
    rcases Multiset.mem_cons.mp hq with rfl | hq
    · exact h.of_flight hp
    · exact h.copied q hq

/-- The books balance for the packets of one kind. -/
theorem Sound.countP (h : n.Sound) (q : π → Prop) [DecidablePred q] :
    n.sent.countP q + n.copied.countP q =
      n.flight.countP q + n.received.countP q + n.lost.countP q := by
  rw [← Multiset.countP_add, h.books, Multiset.countP_add, Multiset.countP_add]

section

variable [DecidableEq π]

def receive (p : π) (n : Flow π) : Flow π :=
  { n with flight := n.flight.erase p, received := p ::ₘ n.received }

def lose (p : π) (n : Flow π) : Flow π :=
  { n with flight := n.flight.erase p, lost := p ::ₘ n.lost }

theorem Sound.receive (h : n.Sound) (hp : p ∈ n.flight) : (n.receive p).Sound where
  books := by
    show n.sent + n.copied = n.flight.erase p + p ::ₘ n.received + n.lost
    rw [Multiset.add_cons, ← Multiset.cons_add, Multiset.cons_erase hp, h.books]
  copied := h.copied

theorem Sound.lose (h : n.Sound) (hp : p ∈ n.flight) : (n.lose p).Sound where
  books := by
    show n.sent + n.copied = n.flight.erase p + n.received + p ::ₘ n.lost
    rw [Multiset.add_cons, ← Multiset.cons_add, ← Multiset.cons_add, Multiset.cons_erase hp, h.books]
  copied := h.copied

end

end Flow

/-- Hosts: what they do on their own, and on a packet that they receive. The labels `ι` and `κ` have
what the environment answers. -/
structure Hosts (σ ι κ π ε : Type) where
  act : σ → ι → Except ε (σ × List π)
  recv : σ → κ → π → Except ε (σ × List π)

/-- The hosts, and the packets between them. -/
structure Network (σ π : Type) where
  hosts : σ
  flow : Flow π

inductive NetLabel (ι κ π : Type) where
  | act (i : ι)
  | recv (k : κ) (p : π)
  | lose (p : π)
  | copy (p : π)

namespace Hosts

variable [DecidableEq π] (H : Hosts σ ι κ π ε)

def step (w : Network σ π) : NetLabel ι κ π → Except ε (Network σ π)
  | .act i => do
    let (hosts, ps) ← H.act w.hosts i
    pure ⟨hosts, w.flow.send ps⟩
  | .recv k p => do
    let (hosts, ps) ← H.recv w.hosts k p
    pure ⟨hosts, (w.flow.receive p).send ps⟩
  | .lose p => pure { w with flow := w.flow.lose p }
  | .copy p => pure { w with flow := w.flow.copy p }

/-- Only what is in flight is received, lost or copied. -/
def Admits (w : Network σ π) : NetLabel ι κ π → Prop
  | .act _ => True
  | .recv _ p | .lose p | .copy p => p ∈ w.flow.flight

instance (w : Network σ π) : (l : NetLabel ι κ π) → Decidable (Admits w l)
  | .act _ => .isTrue trivial
  | .recv _ p | .lose p | .copy p => inferInstanceAs (Decidable (p ∈ w.flow.flight))

/-- The system of the hosts and the network. -/
def network : Lts (Network σ π) (NetLabel ι κ π) := .ofStep Admits H.step

/-- What a step can do. -/
inductive Step (w : Network σ π) : NetLabel ι κ π → Network σ π → Prop
  | act (i : ι) (s : σ) (ps : List π) (h : H.act w.hosts i = .ok (s, ps)) :
      Step w (.act i) ⟨s, w.flow.send ps⟩
  | recv (k : κ) (p : π) (s : σ) (ps : List π) (hp : p ∈ w.flow.flight)
      (h : H.recv w.hosts k p = .ok (s, ps)) : Step w (.recv k p) ⟨s, (w.flow.receive p).send ps⟩
  | lose (p : π) (hp : p ∈ w.flow.flight) : Step w (.lose p) { w with flow := w.flow.lose p }
  | copy (p : π) (hp : p ∈ w.flow.flight) : Step w (.copy p) { w with flow := w.flow.copy p }

variable {H} {w w' w₀ : Network σ π} {l : NetLabel ι κ π}

theorem step_cases (h : H.network.step w l w') : H.Step w l w' := by
  obtain ⟨hadm, h⟩ := h
  cases l with
  | act i =>
    obtain ⟨⟨s, ps⟩, hact, h⟩ := bind_eq_ok.mp h
    cases pure_eq_ok.mp h
    exact .act i s ps hact
  | recv k p =>
    obtain ⟨⟨s, ps⟩, hrecv, h⟩ := bind_eq_ok.mp h
    cases pure_eq_ok.mp h
    exact .recv k p s ps hadm hrecv
  | lose p =>
    cases pure_eq_ok.mp h
    exact .lose p hadm
  | copy p =>
    cases pure_eq_ok.mp h
    exact .copy p hadm

theorem step_of_recv {k : κ} {p : π} {s : σ} {ps : List π} (hp : p ∈ w.flow.flight)
    (h : H.recv w.hosts k p = .ok (s, ps)) :
    H.network.step w (.recv k p) ⟨s, (w.flow.receive p).send ps⟩ :=
  ⟨hp, bind_eq_ok.mpr ⟨_, h, rfl⟩⟩

/-- **The books of the network balance** in every reachable state. -/
theorem Reach.sound (h : H.network.Reach w₀ w) (h₀ : w₀.flow.Sound) : w.flow.Sound := by
  refine h.invariant (I := fun w => w.flow.Sound) h₀ fun w l w' hw hst => ?_
  cases step_cases hst with
  | act i s ps _ => exact hw.send ps
  | recv k p s ps hp _ => exact (hw.receive hp).send ps
  | lose p hp => exact hw.lose hp
  | copy p hp => exact hw.copy hp

/-! ## Invariants of the hosts, and properties of all packets -/

variable {I : σ → Prop} {P q r : π → Prop}

/-- The hosts keep `I` and send packets with `P`, as long as the packets that they receive have it. -/
structure Keeps (H : Hosts σ ι κ π ε) (I : σ → Prop) (P : π → Prop) : Prop where
  act : ∀ {s s' i ps}, I s → H.act s i = .ok (s', ps) → I s' ∧ ∀ p ∈ ps, P p
  recv : ∀ {s s' k p ps}, I s → P p → H.recv s k p = .ok (s', ps) → I s' ∧ ∀ p ∈ ps, P p

/-- **Rely and guarantee.** -/
theorem Reach.keeps (h : H.network.Reach w₀ w) (hH : H.Keeps I P) (h₀ : w₀.flow.Sound)
    (hI : I w₀.hosts) (hP : ∀ p ∈ w₀.flow.sent, P p) : I w.hosts ∧ ∀ p ∈ w.flow.sent, P p := by
  refine (h.invariant (I := fun w => w.flow.Sound ∧ I w.hosts ∧ ∀ p ∈ w.flow.sent, P p)
    ⟨h₀, hI, hP⟩ ?_).2
  rintro w l w' ⟨hw, hi, hp⟩ hst
  have hsound : w'.flow.Sound := Reach.sound (.tail .refl hst) hw
  cases step_cases hst with
  | act i s ps hact =>
    obtain ⟨hi', hps⟩ := hH.act hi hact
    refine ⟨hsound, hi', fun p hmem => ?_⟩
    exact (Multiset.mem_add.mp hmem).elim (hp p) (hps p)
  | recv k p s ps hflight hrecv =>
    obtain ⟨hi', hps⟩ := hH.recv hi (hp p (hw.of_flight hflight)) hrecv
    refine ⟨hsound, hi', fun p hmem => ?_⟩
    exact (Multiset.mem_add.mp hmem).elim (hp p) (hps p)
  | lose | copy => exact ⟨hsound, hi, hp⟩

/-! ## Requests and answers -/

/-- A request `q` that is received is answered by one packet, an answer `r`, and no answer is sent
without a request. -/
structure Answers (H : Hosts σ ι κ π ε) (I : σ → Prop) (P q r : π → Prop) : Prop where
  act : ∀ {s s' i ps}, I s → H.act s i = .ok (s', ps) → ∀ m ∈ ps, ¬ r m
  request : ∀ {s s' k p ps}, I s → P p → q p → H.recv s k p = .ok (s', ps) → ∃ m, ps = [m] ∧ r m
  other : ∀ {s s' k p ps}, I s → P p → ¬ q p → H.recv s k p = .ok (s', ps) → ∀ m ∈ ps, ¬ r m

variable [DecidablePred q] [DecidablePred r]

/-- **Every request that was received was answered once**, and there are no other answers. -/
theorem Reach.answered (h : H.network.Reach w₀ w) (hH : H.Keeps I P) (hA : H.Answers I P q r)
    (hI : I w₀.hosts) (h₀ : w₀.flow = .empty) :
    w.flow.sent.countP r = w.flow.received.countP q := by
  refine (h.invariant (I := fun w => (w.flow.Sound ∧ I w.hosts ∧ ∀ p ∈ w.flow.sent, P p) ∧
    w.flow.sent.countP r = w.flow.received.countP q) ?_ ?_).2
  · rw [h₀]
    exact ⟨⟨.empty, hI, by simp [Flow.empty]⟩, rfl⟩
  rintro w l w' ⟨⟨hw, hi, hp⟩, heq⟩ hst
  refine ⟨⟨Reach.sound (.tail .refl hst) hw, Reach.keeps (.tail .refl hst) hH hw hi hp⟩, ?_⟩
  cases step_cases hst with
  | act i s ps hact =>
    have hnone : Multiset.countP r (ps : Multiset π) = 0 :=
      Multiset.countP_eq_zero.mpr (hA.act hi hact)
    show Multiset.countP r (w.flow.sent + ps) = _
    rw [Multiset.countP_add, hnone, heq]
    rfl
  | recv k p s ps hflight hrecv =>
    have hpp := hp p (hw.of_flight hflight)
    show Multiset.countP r (w.flow.sent + ps) = Multiset.countP q (p ::ₘ w.flow.received)
    rw [Multiset.countP_add, heq]
    by_cases hq : q p
    · obtain ⟨m, rfl, hm⟩ := hA.request hi hpp hq hrecv
      rw [Multiset.countP_cons_of_pos _ hq, ← Multiset.cons_coe, Multiset.countP_cons_of_pos _ hm]
      rfl
    · have hnone : Multiset.countP r (ps : Multiset π) = 0 :=
        Multiset.countP_eq_zero.mpr (hA.other hi hpp hq hrecv)
      rw [Multiset.countP_cons_of_neg _ hq, hnone, add_zero]
  | lose | copy => exact heq

/-- **The exchange is accounted for.** The requests that were sent, and all copies, are the packets of
the exchange that are in flight or lost and the answers that were received. -/
theorem Reach.balance (h : H.network.Reach w₀ w) (hH : H.Keeps I P) (hA : H.Answers I P q r)
    (hI : I w₀.hosts) (h₀ : w₀.flow = .empty) :
    w.flow.sent.countP q + (w.flow.copied.countP q + w.flow.copied.countP r) =
      (w.flow.flight.countP q + w.flow.flight.countP r) + w.flow.received.countP r +
        (w.flow.lost.countP q + w.flow.lost.countP r) := by
  have hsound := Reach.sound h (h₀ ▸ .empty)
  have hq := hsound.countP q
  have hr := hsound.countP r
  have hanswered := Reach.answered h hH hA hI h₀
  omega

end Hosts

end LwMix
