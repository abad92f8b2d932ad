import LwMix.Process.Ownership
import Mathlib.Data.Finset.Option

/-!
# `serverLoop` in the process

`Server` has `serverLoop` in an environment that makes promises: the kernel gives out no descriptor
that is open, and other threads hold descriptors of their own. `loop_run`: the process keeps these
promises, so what holds of the reachable states of `Server` holds of `serverLoop` in the process,
whatever the other threads do.
-/

namespace LwMix

namespace Process

variable {π χ : Type} {P : PlayerOps π χ} {fdSetSize : ℕ} {w w' : Process π}

/-- The descriptors of the other two threads. -/
def others (w : Process π) : Finset ℕ :=
  (if w.info.Running then {w.info.infoSock} else ∅) ∪ w.timer.sock.toFinset

/-- A descriptor of another thread is open, and is not a socket of `serverLoop`. -/
theorem Holds.mem_others (h : Holds w) {fd : ℕ} (hfd : fd ∈ w.others) :
    w.socks.kindOf fd = some .info ∨ w.socks.kindOf fd = some .master := by
  rcases Finset.mem_union.mp hfd with hfd | hfd
  · split at hfd
    · rename_i hr
      obtain rfl := Finset.mem_singleton.mp hfd
      exact .inl (h.info hr).sock
    · cases hfd
  · exact .inr (h.timer fd (Option.mem_toFinset.mp hfd))

/-- A descriptor of `serverLoop` is open, and is no socket of another thread. -/
theorem Holds.mem_master (h : Holds w) {s : LoopState π} (hs : w.server = some s) {fd : ℕ}
    (hfd : fd ∈ s.master) :
    w.socks.kindOf fd = some .listener ∨ w.socks.kindOf fd = some .client := by
  by_cases hl : fd = s.listener
  · exact .inl (hl ▸ (h.server s hs).listener)
  · exact .inr ((h.server s hs).clients fd hfd hl)

theorem Holds.disjoint (h : Holds w) {s : LoopState π} (hs : w.server = some s) :
    Disjoint w.others s.master := by
  refine Finset.disjoint_left.mpr fun fd ho hm => ?_
  rcases h.mem_others ho with ho | ho <;> rcases h.mem_master hs hm with hm | hm <;>
    · rw [ho] at hm
      cases hm

/-- The listener is created once. -/
theorem listen_none {fd : ℕ} {buffer : Buf 4096} {players : π}
    (hst : (process P fdSetSize).step w (.listen fd buffer players) w') : w.server = none := by
  obtain ⟨-, hst⟩ := hst
  simp only [step] at hst
  split at hst
  · assumption
  · cases hst

/-- The events of `serverLoop` in a step of the process. -/
def loopEvents (P : PlayerOps π χ) (fdSetSize : ℕ) (w : Process π) : ProcessLabel π χ → List Event
  | .serverLoop a =>
    match w.server.map (ServerLoop.step P fdSetSize a) with
    | some (.ok (_, e)) => e.toList
    | _ => []
  | _ => []

/-- The loop is reached in its environment, with the events `tr` and the descriptors of the other
threads. -/
def LoopReached (P : PlayerOps π χ) (fdSetSize : ℕ) (w : Process π) (tr : List Event) : Prop :=
  (w.server = none → tr = []) ∧ ∀ s, w.server = some s → ∃ v₀ v : Server π, v₀.Initial ∧
    (Server.sys P fdSetSize).Reach v₀ v ∧ v.loop = s ∧ v.others = w.others ∧ v.trace = tr

variable {tr : List Event}

/-- The other threads make a step. -/
theorem LoopReached.of_server (h : LoopReached P fdSetSize w tr) (hh : Holds w')
    (hs : w'.server = w.server) : LoopReached P fdSetSize w' (tr ++ []) := by
  rw [List.append_nil]
  refine ⟨fun hn => h.1 (hs ▸ hn), fun s hs' => ?_⟩
  obtain ⟨v₀, v, h₀, hr, rfl, -, ht⟩ := h.2 s (hs ▸ hs')
  have hd : Disjoint w'.others v.owned := by
    rw [← (Server.inv_reach h₀ hr).master]
    exact hh.disjoint hs'
  exact ⟨v₀, { v with others := w'.others }, h₀,
    hr.tail (l := .others w'.others) ⟨hd, rfl⟩, rfl, rfl, ht⟩

/-- `serverLoop` makes a step. -/
theorem LoopReached.loop (h : LoopReached P fdSetSize w tr) (hh : Holds w) {s s' : LoopState π}
    {a : Answer χ} {e : Option Event} {t : Sockets} (hs : w.server = some s)
    (hsel : ∀ ready, a = .select ready → ready ⊆ s.master)
    (hst : ServerLoop.step P fdSetSize a s = .ok (s', e)) (ht : serverEffect s a w.socks = .ok t) :
    LoopReached P fdSetSize { w with socks := t, server := some s' } (tr ++ e.toList) := by
  refine ⟨nofun, ?_⟩
  rintro _ ⟨⟩
  obtain ⟨v₀, v, h₀, hr, rfl, ho, rfl⟩ := h.2 s hs
  have hm := (Server.inv_reach h₀ hr).master
  have hadm : v.Admits (.loop a) := by
    match a with
    | .select ready => exact hsel ready rfl
    | .accept (some newfd) x =>
      have hfree : w.socks.kindOf newfd = none := by
        obtain ⟨⟨msg, t₁⟩, htake, hopen⟩ := bind_eq_ok.mp ht
        obtain ⟨-, -, -, hkind⟩ := SockTable.take_ok htake
        rw [← hkind]
        exact (SockTable.openAt_ok hopen).1
      show newfd ∉ v.owned ∪ v.others
      rw [← hm, ho, Finset.mem_union]
      rintro (hmem | hmem)
      · rcases hh.mem_master hs hmem with hk | hk <;> simp [hfree] at hk
      · rcases hh.mem_others hmem with hk | hk <;> simp [hfree] at hk
    | .accept none _ | .stop | .next | .recv _ _ => trivial
  exact ⟨v₀, { v with loop := s', trace := v.trace ++ e.toList }, h₀,
    hr.tail (l := .loop a) ⟨hadm, bind_eq_ok.mpr ⟨_, hst, rfl⟩⟩, rfl, ho, rfl⟩

/-- `serverLoop` creates its listener. -/
theorem LoopReached.listen (h : LoopReached P fdSetSize w tr) (hn : w.server = none) (hh : Holds w)
    {fd : ℕ} {buffer : Buf 4096} {players : π} {t : Sockets}
    (ht : w.socks.openAt fd .listener = .ok t) : LoopReached P fdSetSize
      { w with socks := t, server := some (ServerLoop.start fd buffer players) } (tr ++ []) := by
  refine ⟨nofun, ?_⟩
  rintro _ ⟨⟩
  have hno : fd ∉ w.others := fun hfd => by
    have hfree := (SockTable.openAt_ok ht).1
    rcases hh.mem_others hfd with hk | hk <;> simp [hfree] at hk
  rw [h.1 hn]
  exact ⟨_, ⟨ServerLoop.start fd buffer players, [], w.others⟩,
    ⟨⟨buffer, players, rfl⟩, rfl, hno⟩, .refl, rfl, rfl, rfl⟩

/-- A step of the process adds its events. -/
theorem LoopReached.step {l : ProcessLabel π χ} (h : LoopReached P fdSetSize w tr) (hh : Holds w)
    (hst : (process P fdSetSize).step w l w') :
    LoopReached P fdSetSize w' (tr ++ loopEvents P fdSetSize w l) := by
  have hh' := (hh.step hst).1
  cases step_cases P fdSetSize hst with
  | listen fd buffer players t ht => exact h.listen (listen_none hst) hh ht
  | serverLoop a s s' e t hs hs' ht hsel =>
    simp only [loopEvents, hs, Option.map_some, hs']
    exact h.loop hh hs hsel hs' ht
  | _ => exact h.of_server hh' rfl

/-- **`serverLoop` in the process** is `serverLoop` in its environment: every state that it reaches
here is reached there, with the same events. -/
theorem loop_run {w₀ : Process π} (h₀ : Initial w₀) {p : List (ProcessLabel π χ × Process π)}
    (h : (process P fdSetSize).Run w₀ p) :
    LoopReached P fdSetSize (Lts.last w₀ p) (Lts.along (loopEvents P fdSetSize) w₀ p) := by
  suffices hrun : ∀ {w : Process π} {p : List (ProcessLabel π χ × Process π)} {tr : List Event},
      (process P fdSetSize).Run w p → LoopReached P fdSetSize w tr → Holds w →
        LoopReached P fdSetSize (Lts.last w p) (tr ++ Lts.along (loopEvents P fdSetSize) w p) by
    exact @hrun w₀ p [] h ⟨fun _ => rfl, by simp [h₀.server]⟩ h₀.holds
  intro w p tr h hl hh
  induction h generalizing tr with
  | nil w => rwa [Lts.along, List.append_nil]
  | cons hst _ ih =>
    rw [Lts.along, ← List.append_assoc]
    exact ih (hl.step hh hst) (hh.step hst).1

end Process

end LwMix
