import LwMix.Base.Lts
import LwMix.Server.Loop
import Mathlib.Data.Finset.Lattice.Basic

/-!
# Runs of `serverLoop`

`Server` is the loop with the events of its run, and with the descriptors that the other threads
hold. The kernel gives no thread a descriptor that is open, `select` reports descriptors of `master`
only, and both are free otherwise: a closed descriptor can come back, to any thread.

* `live`: the descriptors that were accepted and not closed, by the events.
* `Inv`, `inv_reach`: in every reachable state `master` is the listener and the live clients, no
  member is above `fdmax`, and every descriptor that the scan has still to visit is a member.
* `Relays`: what is recorded of a chunk. `Inv.relays` is the relay law of all events of the run.
-/

namespace LwMix

/-- The descriptors that are open after `e`, if those of `live` were. -/
def Event.after (live : Finset ℕ) : Event → Finset ℕ
  | .accepted fd => insert fd live
  | .disconnected fd | .failed fd => live.erase fd
  | .received _ _ _ _ => live

/-- The clients that were accepted and not closed, after the events `tr`. -/
def live (tr : List Event) : Finset ℕ := tr.foldl Event.after ∅

@[simp] theorem live_nil : live [] = ∅ := rfl

@[simp] theorem live_append_singleton (tr : List Event) (e : Event) :
    live (tr ++ [e]) = e.after (live tr) := by
  simp [live]

/-- `serverLoop`, with the events so far and the descriptors of the other threads. -/
structure Server (π : Type) where
  loop : LoopState π
  trace : List Event
  others : Finset ℕ

/-- A step of the loop with an answer, or other threads now hold the descriptors `o`. -/
inductive ServerLabel (χ : Type) where
  | loop (a : Answer χ)
  | others (o : Finset ℕ)

namespace Server

variable {π χ : Type}

/-- The clients that are connected. -/
def live (w : Server π) : Finset ℕ := LwMix.live w.trace

/-- The descriptors of `serverLoop`. -/
def owned (w : Server π) : Finset ℕ := insert w.loop.listener w.live

/-- What the kernel promises. -/
def Admits (w : Server π) : ServerLabel χ → Prop
  | .others o => Disjoint o w.owned
  | .loop (.select ready) => ready ⊆ w.loop.master
  | .loop (.accept (some newfd) _) => newfd ∉ w.owned ∪ w.others
  | .loop _ => True

instance (w : Server π) : (l : ServerLabel χ) → Decidable (w.Admits l)
  | .others o => inferInstanceAs (Decidable (Disjoint o w.owned))
  | .loop (.select ready) => inferInstanceAs (Decidable (ready ⊆ w.loop.master))
  | .loop (.accept (some newfd) _) => inferInstanceAs (Decidable (newfd ∉ w.owned ∪ w.others))
  | .loop (.accept none _) | .loop .stop | .loop .next | .loop (.recv _ _) => .isTrue trivial

variable (P : PlayerOps π χ) (fdSetSize : ℕ)

/-- One step. -/
def step (w : Server π) : ServerLabel χ → Except Fault (Server π)
  | .others o => pure { w with others := o }
  | .loop a => do
    let (loop, e) ← ServerLoop.step P fdSetSize a w.loop
    pure { w with loop, trace := w.trace ++ e.toList }

/-- The system of `serverLoop` and its environment. -/
def sys : Lts (Server π) (ServerLabel χ) := .ofStep Admits (step P fdSetSize)

/-- The server after `listen`, which has no client yet. -/
structure Initial (w : Server π) : Prop where
  loop : ∃ buffer players, w.loop = ServerLoop.start w.loop.listener buffer players
  trace : w.trace = []
  others : w.loop.listener ∉ w.others

variable {P fdSetSize} {w w' : Server π}

/-- What a step can do. -/
theorem step_cases {l : ServerLabel χ} (h : (sys P fdSetSize).step w l w') :
    (∃ o, l = .others o ∧ Disjoint o w.owned ∧ w' = { w with others := o }) ∨
      ∃ a loop e, l = .loop a ∧ w.Admits (.loop a) ∧ ServerLoop.Step P fdSetSize w.loop a loop e ∧
        w' = { w with loop := loop, trace := w.trace ++ e.toList } := by
  obtain ⟨hadm, h⟩ := Lts.ofStep_step.mp h
  cases l with
  | others o => exact .inl ⟨o, rfl, hadm, pure_eq_ok.mp h⟩
  | loop a =>
    obtain ⟨⟨loop, e⟩, hs, hw⟩ := bind_eq_ok.mp h
    exact .inr ⟨a, loop, e, rfl, hadm, ServerLoop.step_cases P fdSetSize hs, pure_eq_ok.mp hw⟩

/-! ## The relay law -/

/-- The sends that are recorded with an event: for a chunk that is not a `:MIX` packet, one of the
chunk to every other connected client. -/
def Relays (live : Finset ℕ) : Event → Prop
  | .received i c buffer sends => i ∈ live ∧ buffer.bytes.take c.bytes.length = c.bytes ∧
    if isMix buffer then sends = []
    else ∃ js : List ℕ, js.Nodup ∧ (∀ j, j ∈ js ↔ j ∈ live ∧ j ≠ i) ∧ sends = js.map (·, c.bytes)
  | _ => True

/-- Every event of the trace satisfies the relay law, with the clients that were connected then. -/
def AllRelay (tr : List Event) : Prop :=
  ∀ pre e post, tr = pre ++ e :: post → Relays (LwMix.live pre) e

theorem AllRelay.nil : AllRelay [] := by
  intro pre e post h
  simp at h

theorem AllRelay.concat {tr : List Event} {e : Event} (h : AllRelay tr)
    (he : Relays (LwMix.live tr) e) : AllRelay (tr ++ [e]) := by
  intro pre e' post heq
  rcases List.eq_nil_or_concat' post with rfl | ⟨post, z, rfl⟩
  · obtain ⟨rfl, hz⟩ := List.append_inj' heq rfl
    cases hz
    exact he
  · rw [← List.cons_append, ← List.append_assoc] at heq
    obtain ⟨rfl, -⟩ := List.append_inj' heq rfl
    exact h pre e' post rfl

/-! ## The invariant -/

/-- The invariant of the loop. -/
structure Inv (w : Server π) : Prop where
  master : w.loop.master = w.owned
  listener : w.loop.listener ∉ w.live
  fdmax : ∀ fd ∈ w.loop.master, fd ≤ w.loop.fdmax
  others : Disjoint w.others w.owned
  scan : ∀ i readFds, w.loop.pc = .scan i readFds → ∀ j ∈ readFds, i ≤ j → j ∈ w.loop.master
  relays : AllRelay w.trace

theorem Initial.inv (h : w.Initial) : Inv w := by
  obtain ⟨⟨buffer, players, hl⟩, ht, ho⟩ := h
  have hlive : w.live = ∅ := by rw [live, ht, live_nil]
  refine ⟨?_, by simp [hlive], fun fd hfd => ?_, ?_, fun i readFds hpc => ?_, ?_⟩
  · rw [owned, hlive, hl]
    rfl
  · rw [hl] at hfd ⊢
    simp only [ServerLoop.start, Finset.mem_singleton] at hfd ⊢
    omega
  · simpa [owned, hlive] using ho
  · rw [hl] at hpc
    cases hpc
  · rw [ht]
    exact .nil

/-- The relay loop sends the bytes once to every other connected client. -/
theorem Inv.relay (h : Inv w) (i : ℕ) (msg : List UInt8) :
    ∃ js : List ℕ, js.Nodup ∧ (∀ j, j ∈ js ↔ j ∈ w.live ∧ j ≠ i) ∧
      ServerLoop.relay i msg w.loop = js.map (·, msg) := by
  refine ⟨(List.range (w.loop.fdmax + 1)).filter
    fun j => j ∈ w.loop.master ∧ j ≠ w.loop.listener ∧ j ≠ i, ?_, fun j => ?_, ?_⟩
  · exact List.nodup_range.filter _
  · simp only [List.mem_filter, List.mem_range, decide_eq_true_eq]
    constructor
    · rintro ⟨-, hm, hl, hi⟩
      rw [h.master, owned, Finset.mem_insert] at hm
      exact ⟨hm.resolve_left hl, hi⟩
    · rintro ⟨hj, hi⟩
      have hm : j ∈ w.loop.master := by
        rw [h.master]
        exact Finset.mem_insert_of_mem hj
      have := h.fdmax j hm
      refine ⟨by omega, hm, ?_, hi⟩
      rintro rfl
      exact h.listener hj
  · rw [ServerLoop.relay, ← List.filterMap_eq_map, List.filterMap_filter]
    refine List.filterMap_congr fun j _ => ?_
    by_cases hm : j ∈ w.loop.master <;> simp [hm]

/-- A descriptor of the scan is a connected client, unless it is the listener. -/
theorem Inv.mem_live {i : ℕ} {readFds : Finset ℕ} (h : Inv w)
    (hpc : w.loop.pc = .scan i readFds) (hi : i ∈ readFds) (hl : i ≠ w.loop.listener) :
    i ∈ w.live := by
  have hm := h.scan i readFds hpc i hi le_rfl
  rw [h.master, owned, Finset.mem_insert] at hm
  exact hm.resolve_left hl

/-- The loop goes on at another place, with the same descriptors. -/
theorem Inv.move {pc : Pc} {buffer : Buf 4096} {e : Option Event} (h : Inv w)
    (hlive : LwMix.live (w.trace ++ e.toList) = w.live)
    (hpc : ∀ i readFds, pc = .scan i readFds → ∀ j ∈ readFds, i ≤ j → j ∈ w.loop.master)
    (hr : ∀ e' ∈ e, Relays w.live e') :
    Inv { w with loop := { w.loop with pc := pc, buffer := buffer }, trace := w.trace ++ e.toList }
    where
  master := h.master.trans (by rw [owned, owned, ← hlive]; rfl)
  listener := by
    have := h.listener
    rw [← hlive] at this
    exact this
  fdmax := h.fdmax
  others := by
    have := h.others
    rw [owned, ← hlive] at this
    exact this
  scan := hpc
  relays := by
    cases e with
    | none => simpa using h.relays
    | some e => exact h.relays.concat (hr e rfl)

/-- A client is closed: its descriptor leaves `master`. -/
theorem Inv.close {i : ℕ} {readFds : Finset ℕ} {players : π} {e : Event} (h : Inv w)
    (hpc : w.loop.pc = .scan i readFds) (hl : i ≠ w.loop.listener)
    (he : e = .disconnected i ∨ e = .failed i) :
    Inv { w with
      loop := { w.loop with
        pc := .scan (i + 1) readFds, master := w.loop.master.erase i, players := players }
      trace := w.trace ++ [e] } := by
  have hlive : LwMix.live (w.trace ++ [e]) = w.live.erase i := by
    rcases he with rfl | rfl <;> simp [Event.after, live]
  have howned : (insert w.loop.listener (w.live.erase i)) = w.owned.erase i :=
    (Finset.erase_insert_of_ne hl.symm).symm
  refine ⟨?_, ?_, fun fd hfd => h.fdmax fd (Finset.mem_of_mem_erase hfd), ?_, ?_,
    h.relays.concat ?_⟩
  · show w.loop.master.erase i = insert w.loop.listener (LwMix.live (w.trace ++ [e]))
    rw [hlive, howned, h.master]
  · show w.loop.listener ∉ LwMix.live (w.trace ++ [e])
    rw [hlive]
    exact fun hm => h.listener (Finset.mem_of_mem_erase hm)
  · show Disjoint w.others (insert w.loop.listener (LwMix.live (w.trace ++ [e])))
    rw [hlive, howned]
    exact h.others.mono_right (Finset.erase_subset _ _)
  · rintro i' readFds' heq j hj hij
    cases heq
    exact Finset.mem_erase.mpr ⟨by omega, h.scan i readFds hpc j hj (by omega)⟩
  · rcases he with rfl | rfl <;> trivial

theorem Inv.step {l : ServerLabel χ} (h : Inv w) (hst : (sys P fdSetSize).step w l w') :
    Inv w' := by
  obtain ⟨o, rfl, ho, rfl⟩ | ⟨a, loop, e, rfl, hadm, hs, rfl⟩ := step_cases hst
  · exact ⟨h.master, h.listener, h.fdmax, ho, h.scan, h.relays⟩
  -- The descriptors of the scan from `i` on are also those from `i + 1` on.
  have hnext : ∀ i readFds, w.loop.pc = .scan i readFds →
      ∀ i' readFds', Pc.scan (i + 1) readFds = .scan i' readFds' →
        ∀ j ∈ readFds', i' ≤ j → j ∈ w.loop.master := by
    rintro i readFds hpc i' readFds' heq j hj hij
    cases heq
    exact h.scan i readFds hpc j hj (by omega)
  cases hs with
  | stop hpc => exact h.move (by simp [live]) (by simp) (by simp)
  | select ready hpc =>
    refine h.move (by simp [live]) ?_ (by simp)
    rintro i readFds heq j hj -
    cases heq
    exact hadm hj
  | skip i readFds hpc hi => exact h.move (by simp [live]) (hnext i readFds hpc) (by simp)
  | done i readFds hpc hi => exact h.move (by simp [live]) (by simp) (by simp)
  | refuse i readFds x hpc hr hi => exact h.move (by simp [live]) (hnext i readFds hpc) (by simp)
  | accept i readFds fd x players hpc hr hi hfd hp =>
    have hlive : LwMix.live (w.trace ++ [.accepted fd]) = insert fd w.live := by
      simp [Event.after, live]
    simp only [Admits, Finset.mem_union, not_or, owned, Finset.mem_insert] at hadm
    obtain ⟨⟨hfl, hfw⟩, hfo⟩ := hadm
    have howned : insert w.loop.listener (insert fd w.live) = insert fd w.owned :=
      Finset.insert_comm _ _ _
    refine ⟨?_, ?_, fun x hx => ?_, ?_, fun i' readFds' heq j hj hij => ?_, h.relays.concat trivial⟩
    · show insert fd w.loop.master =
        insert w.loop.listener (LwMix.live (w.trace ++ [.accepted fd]))
      rw [hlive, howned, h.master]
    · show w.loop.listener ∉ LwMix.live (w.trace ++ [.accepted fd])
      rw [hlive, Finset.mem_insert, not_or]
      exact ⟨Ne.symm hfl, h.listener⟩
    · have hx' : x = fd ∨ x ∈ w.loop.master := Finset.mem_insert.mp hx
      dsimp only
      rcases hx' with rfl | hx'
      · split <;> omega
      · have := h.fdmax x hx'
        split <;> omega
    · show Disjoint w.others (insert w.loop.listener (LwMix.live (w.trace ++ [.accepted fd])))
      rw [hlive, howned, Finset.disjoint_insert_right]
      exact ⟨hfo, h.others⟩
    · exact Finset.mem_insert_of_mem (hnext i readFds hpc i' readFds' heq j hj hij)
  | eof i readFds x players hpc hr hi hp => exact h.close hpc hi (.inl rfl)
  | error i readFds x hpc hr hi => exact h.close hpc hi (.inr rfl)
  | data i readFds x c hpc hr hi =>
    refine h.move (by simp [live, Event.after]) (hnext i readFds hpc) ?_
    rintro e ⟨⟩
    refine ⟨h.mem_live hpc hr hi, recvInto_take c _, ?_⟩
    split
    · rfl
    · exact h.relay i c.bytes

theorem inv_reach {w₀ : Server π} (h₀ : w₀.Initial) (h : (sys P fdSetSize).Reach w₀ w) : Inv w :=
  h.invariant h₀.inv fun _ _ _ hi hst => hi.step hst

end Server

end LwMix
