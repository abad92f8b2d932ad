import LwMix.Player.Tail
import LwMix.Server.Roster

/-!
# `serverLoop` with the functions of `player.c`

`Mem.ops` are the functions of `player.c` on the heap, as `serverLoop` calls them. As long as no
disconnect removes the last of several players, the loop with them is the loop with the `Roster`.

* `Models m r`: the heap list of `m` has the players of `r`, and `end_player_list` is its last node.
* `Models.connect`, `Models.removePlayer`: one call.
* `simulates`: a run of the loop.
* `walk_clients`: so the walk of the `'Q'` handler meets the connected clients.
-/

namespace LwMix

open Heap (Malloc)

/-- What `malloc` returns for the `player` and for its node, and the number of iterations that the
search loop may make. -/
structure PlayerChoice where
  player : Malloc Player
  node : Malloc PlayerNode
  fuel : ℕ

namespace Mem

/-- The branch of the listener: `createPlayer`, `addPlayer`, and the `sernum`. -/
def connect (newfd : ℕ) (x : PlayerChoice) (m : Mem) : Except Fault Mem := do
  let (p, m) ← createPlayer newfd x.player m
  let m ← addPlayer p x.node m
  let v ← checkedInt (m.info.playerCount * 0x123)
  m.modifyPlayer p fun q => { q with sernum := BitVec.ofInt 32 v }

/-- The functions of `player.c` on the heap. -/
def ops : PlayerOps Mem PlayerChoice where
  connect := connect
  removePlayer i x m := removePlayer i x.fuel m

/-- The heap list has the players of the roster, with all players added, and `end_player_list` is
its last node. -/
def Models (m : Mem) (r : Roster) : Prop :=
  ∃ l, InvTail ⟨m, ⟨[], l⟩⟩ ∧ r = ⟨l.map Prod.snd, m.info.playerCount⟩

variable {m m' : Mem} {r : Roster}

theorem models_empty (hc : m.info.playerCount = 0) (hl : m.info.playerList = 0) :
    Models m .empty :=
  ⟨[], ⟨[], Rep.initial ⟨hc, hl, rfl⟩, by simp [TailOk]⟩, by rw [hc]; rfl⟩

end Mem

theorem InvTail.count {w : World} (h : InvTail w) :
    w.mem.info.playerCount = w.abs.list.length := by
  obtain ⟨es, hr, -⟩ := h
  rw [hr.count, hr.list, List.length_map]

theorem InvTail.bound {w : World} (h : InvTail w) : w.mem.info.playerCount ≤ intMax := by
  obtain ⟨es, hr, -⟩ := h
  exact hr.bound

theorem InvTail.nodup {w : World} (h : InvTail w) :
    ((w.abs.list ++ w.abs.held).map Prod.fst).Nodup := by
  obtain ⟨es, hr, -⟩ := h
  exact hr.nodup

namespace Mem

variable {m m' : Mem} {r : Roster}

/-- A client is accepted. -/
theorem Models.connect {newfd : ℕ} {x : PlayerChoice} (h : Models m r)
    (hm : m.connect newfd x = .ok m') : ∃ r', r.connect newfd = .ok r' ∧ Models m' r' := by
  obtain ⟨l, hi, rfl⟩ := h
  obtain ⟨⟨p, m₁⟩, h₁, hm⟩ := bind_eq_ok.mp hm
  obtain ⟨m₂, h₂, hm⟩ := bind_eq_ok.mp hm
  obtain ⟨v, hv, h₃⟩ := bind_eq_ok.mp hm
  obtain ⟨hrange, rfl⟩ := checkedInt_eq_ok.mp hv
  obtain ⟨-, rfl, -⟩ := Rep.createPlayer_eq_ok.mp h₁
  -- the three calls, with the abstract list
  have hi₁ : InvTail ⟨m₁, ⟨[(x.player.addr, ⟨newfd, x.player.junk.sernum⟩)], l⟩⟩ :=
    hi.step (c := .createPlayer newfd x.player) trivial
      ⟨trivial, ⟨0, bind_eq_ok.mpr ⟨_, h₁, rfl⟩⟩, rfl⟩
  have hi₂ : InvTail ⟨m₂, ⟨[], l ++ [(x.player.addr, ⟨newfd, x.player.junk.sernum⟩)]⟩⟩ :=
    hi₁.step (c := .addPlayer x.player.addr x.node) trivial
      ⟨⟨_, List.mem_singleton_self _, rfl⟩, ⟨0, h₂⟩, by simp [Abs.step]⟩
  have hnew : ∀ y ∈ l, y.1 ≠ x.player.addr := by
    have hnd := hi₂.nodup
    simp only [List.append_nil, List.map_append, List.nodup_append] at hnd
    exact fun y hy => hnd.2.2 _ (List.mem_map_of_mem hy) _ (List.mem_singleton_self _)
  have hlist : l.map (fun y => if y.1 = x.player.addr then
      (y.1, { y.2 with sernum := BitVec.ofInt 32 (m₂.info.playerCount * 0x123) }) else y) = l := by
    refine (List.map_congr_left fun y hy => ?_).trans (List.map_id l)
    rw [if_neg (hnew y hy), id]
  have hi₃ : InvTail ⟨m', ⟨[], l ++ [(x.player.addr,
      ⟨newfd, BitVec.ofInt 32 (m₂.info.playerCount * 0x123)⟩)]⟩⟩ :=
    hi₂.step (c := .writeSernum x.player.addr (BitVec.ofInt 32 (m₂.info.playerCount * 0x123)))
      trivial ⟨⟨_, List.mem_append_right _ (List.mem_singleton_self _), rfl⟩, ⟨0, h₃⟩,
        by simp [Abs.step, hlist]⟩
  have hc := hi.count
  have hc₂ := hi₂.count
  have hc₃ := hi₃.count
  simp only [List.length_append, List.length_singleton] at hc hc₂ hc₃
  have hcount : m₂.info.playerCount = m.info.playerCount + 1 := by omega
  refine ⟨⟨_, m'.info.playerCount⟩, Roster.connect_eq_ok.mpr ⟨⟨?_, ?_⟩, ?_⟩, _, hi₃, rfl⟩
  · dsimp only
    unfold intMin intMax at *
    omega
  · rwa [← hcount]
  · simp only [List.map_append, ← hcount]
    rw [show m'.info.playerCount = m₂.info.playerCount by omega]
    rfl

/-- A client is disconnected that is not the last of several players. -/
theorem Models.removePlayer {s : Int} {fuel : ℕ} (h : Models m r)
    (hk : ∀ k l, playersOf m k = .ok l → ¬ RemovesTail s l)
    (hm : LwMix.removePlayer s fuel m = .ok m') :
    ∃ r', r.removePlayer s = .ok r' ∧ Models m' r' := by
  obtain ⟨l, hi, rfl⟩ := h
  have hkeeps : KeepsTail ⟨m, ⟨[], l⟩⟩ (.removePlayer s) := by
    obtain ⟨es, hr, -⟩ := hi
    obtain ⟨k, hwalk⟩ := hr.refines
    exact hk k l hwalk
  have hi' : InvTail ⟨m', ⟨[], l.eraseP (·.2.socket = s)⟩⟩ :=
    hi.step hkeeps ⟨trivial, ⟨fuel, hm⟩, rfl⟩
  have hlist : (l.map Prod.snd).eraseP (·.socket = s) =
      (l.eraseP (·.2.socket = s)).map Prod.snd := by
    rw [List.eraseP_map]
    rfl
  refine ⟨_, Roster.removePlayer_of_count ?_ hi.bound s, _, hi', ?_⟩
  · simpa using hi.count
  · rw [hlist, hi'.count, List.length_map]

end Mem

/-! ## The loop -/

/-- The loop with other players. -/
def LoopState.withPlayers {π ρ : Type} (s : LoopState π) (r : ρ) : LoopState ρ where
  pc := s.pc
  listener := s.listener
  master := s.master
  fdmax := s.fdmax
  buffer := s.buffer
  players := r

/-- The answer without the choices of the allocator. -/
def Answer.erase {χ : Type} : Answer χ → Answer Unit
  | .stop => .stop
  | .select ready => .select ready
  | .next => .next
  | .accept newfd _ => .accept newfd ()
  | .recv r _ => .recv r ()

namespace Server

variable {fdSetSize : ℕ}

/-- The server with other players. -/
def withPlayers {π ρ : Type} (w : Server π) (r : ρ) : Server ρ where
  loop := w.loop.withPlayers r
  trace := w.trace
  others := w.others

/-- The client is not the last of several players that the walk meets. -/
def KeepsTail (w : Server Mem) : ServerLabel PlayerChoice → Prop
  | .loop (.recv .eof _) => ∀ i readFds, w.loop.pc = .scan i readFds →
    ∀ k l, playersOf w.loop.players k = .ok l → ¬ RemovesTail i l
  | _ => True

/-- The test of `KeepsTail` by a walk with the given fuel. -/
def keepsTail (fuel : ℕ) (w : Server Mem) : ServerLabel PlayerChoice → Bool
  | .loop (.recv .eof _) =>
    match w.loop.pc, playersOf w.loop.players fuel with
    | .scan i _, .ok l => ¬ RemovesTail i l
    | _, _ => false
  | _ => true

theorem keepsTail_spec {fuel : ℕ} {w : Server Mem} {l : ServerLabel PlayerChoice}
    (h : keepsTail fuel w l = true) : KeepsTail w l := by
  unfold KeepsTail
  split
  · intro i readFds hpc k l hl
    unfold keepsTail at h
    simp only [hpc] at h
    split at h
    · rename_i l' hpc' hl'
      cases hpc'
      rw [walk_unique hl hl']
      exact of_decide_eq_true h
    · cases h
  · trivial

/-- The two servers differ in the players only, and the heap has those of the roster. -/
def Related (w : Server Mem) (v : Server Roster) : Prop :=
  ∃ r, w.loop.players.Models r ∧ v = w.withPlayers r

/-- **One step** of the loop on the heap is a step of the loop with the roster. -/
theorem Related.step {w w' : Server Mem} {v : Server Roster} {l : ServerLabel PlayerChoice}
    (h : Related w v) (hk : KeepsTail w l) (hst : (sys Mem.ops fdSetSize).step w l w') :
    ∃ l' v', (sys Roster.ops fdSetSize).step v l' v' ∧ Related w' v' := by
  obtain ⟨r, hm, rfl⟩ := h
  obtain ⟨o, rfl, ho, rfl⟩ | ⟨a, loop, e, rfl, hadm, hs, rfl⟩ := step_cases hst
  · exact ⟨.others o, _, ⟨ho, rfl⟩, r, hm, rfl⟩
  have hadm' : (w.withPlayers r).Admits (.loop a.erase) := by
    cases a with
    | accept newfd x => cases newfd <;> exact hadm
    | _ => exact hadm
  suffices hsim : ∃ r', loop.players.Models r' ∧
      ServerLoop.Step Roster.ops fdSetSize (w.loop.withPlayers r) a.erase (loop.withPlayers r') e by
    obtain ⟨r', hm', hs'⟩ := hsim
    exact ⟨.loop a.erase, _, ⟨hadm', bind_eq_ok.mpr ⟨_, hs'.eq, rfl⟩⟩, r', hm', rfl⟩
  cases hs with
  | stop hpc => exact ⟨r, hm, .stop hpc⟩
  | select ready hpc => exact ⟨r, hm, .select ready hpc⟩
  | skip i readFds hpc hi hmax => exact ⟨r, hm, .skip i readFds hpc hi hmax⟩
  | done i readFds hpc hi => exact ⟨r, hm, .done i readFds hpc hi⟩
  | refuse i readFds x hpc hr hi hmax => exact ⟨r, hm, .refuse i readFds () hpc hr hi hmax⟩
  | accept i readFds fd x players hpc hr hi hfd hp hmax =>
    obtain ⟨r', hr', hm'⟩ := hm.connect hp
    exact ⟨r', hm', .accept i readFds fd () r' hpc hr hi hfd hr' hmax⟩
  | eof i readFds x players hpc hr hi hp hmax =>
    obtain ⟨r', hr', hm'⟩ := hm.removePlayer (hk i readFds hpc) hp
    exact ⟨r', hm', .eof i readFds () r' hpc hr hi hr' hmax⟩
  | error i readFds x hpc hr hi hmax => exact ⟨r, hm, .error i readFds () hpc hr hi hmax⟩
  | data i readFds x c hpc hr hi hmax hz =>
    exact ⟨r, hm, .data i readFds () c hpc hr hi hmax hz⟩

/-- `serverLoop` after `listen`, with no players. -/
structure NoPlayers (w : Server Mem) : Prop where
  initial : w.Initial
  count : w.loop.players.info.playerCount = 0
  list : w.loop.players.info.playerList = 0

theorem NoPlayers.related {w : Server Mem} (h : w.NoPlayers) : Related w (w.withPlayers .empty) :=
  ⟨.empty, Mem.models_empty h.count h.list, rfl⟩

theorem NoPlayers.empty {w : Server Mem} (h : w.NoPlayers) :
    (w.withPlayers Roster.empty).Empty := by
  obtain ⟨⟨⟨buffer, players, hl⟩, ht, ho⟩, -, -⟩ := h
  refine ⟨⟨⟨buffer, .empty, ?_⟩, ht, ho⟩, rfl⟩
  simp only [withPlayers, LoopState.withPlayers]
  rw [hl]
  rfl

/-- **The loop on the heap is the loop with the roster**, in a run in which no disconnect removes the
last of several players. -/
theorem simulates {w₀ : Server Mem} {p : List (ServerLabel PlayerChoice × Server Mem)}
    (h₀ : w₀.NoPlayers) (h : (sys Mem.ops fdSetSize).Run w₀ p)
    (hk : Lts.AllSteps KeepsTail w₀ p) :
    ∀ x ∈ p, ∃ v, (sys Roster.ops fdSetSize).Reach (w₀.withPlayers .empty) v ∧ Related x.2 v :=
  h.simulate h₀.related (fun _ _ _ _ hr hg hst => hr.step hg hst) hk

/-- **Walks and connections.** In such a run the walk of the `'Q'` handler meets the connected
clients, as long as no `recv` has failed, and `player_count` is their number. -/
theorem walk_clients {w₀ : Server Mem} {p : List (ServerLabel PlayerChoice × Server Mem)}
    (h₀ : w₀.NoPlayers) (h : (sys Mem.ops fdSetSize).Run w₀ p)
    (hk : Lts.AllSteps KeepsTail w₀ p) : ∀ x ∈ p, (∀ e ∈ x.2.trace, ∀ fd, e ≠ .failed fd) →
      ∃ k l, playersOf x.2.loop.players k = .ok l ∧
        (l.map fun y => y.2.socket).Perm (x.2.live.toList.map Nat.cast) ∧
        x.2.loop.players.info.playerCount = l.length := by
  intro x hx hfail
  obtain ⟨v, hv, r, ⟨l, hi, rfl⟩, rfl⟩ := simulates h₀ h hk x hx
  obtain ⟨-, hg⟩ := h₀.empty.reach hv
  have hperm : ((l.map Prod.snd).map Player.socket).Perm
      ((x.2.live.toList ++ failures x.2.trace).map Nat.cast) := hg.sockets
  rw [failures_eq_nil.mpr hfail, List.append_nil, List.map_map] at hperm
  have hcount := hi.count
  obtain ⟨es, hr, -⟩ := hi
  obtain ⟨k, hwalk⟩ := hr.refines
  exact ⟨k, l, hwalk, hperm, hcount⟩

end Server

end LwMix
