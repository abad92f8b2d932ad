import LwMix.Info.Reply
import LwMix.Master.Text
import LwMix.Server.Blocks

/-!
# What the server says of itself

The functions of `player.c` write three fields of `server_info` only. So along a run of `serverLoop`
the texts that the other threads send say the same, but for the number of players.

* `ServInfo.settings`: the other fields. `connect_settings`, `removePlayer_settings`: they stay.
* `checkIn_of_loop`: what a check-in reports in each state of a run.
-/

namespace LwMix

open Heap (Malloc)

/-- The fields that `player.c` does not write. -/
def ServInfo.settings (info : ServInfo) : ServInfo :=
  { info with playerCount := 0, playerList := 0, endPlayerList := 0 }

section Settings

variable {info info' : ServInfo}

/-- A check-in reports the settings, and the number of players. -/
theorem ServInfo.report_of_settings (h : info'.settings = info.settings) :
    info'.report = { info.report with playerCount := info'.playerCount } :=
  calc info'.report
    _ = { info'.settings.report with playerCount := info'.playerCount } := rfl
    _ = { info.report with playerCount := info'.playerCount } := by
      rw [h]
      rfl

theorem Separable.of_settings (hs : Separable info) (h : info'.settings = info.settings)
    (hc : intMin ≤ info'.playerCount ∧ info'.playerCount ≤ intMax) : Separable info' := by
  refine ⟨hc, ?_, ?_, ?_⟩
  · show ¬ ascii ",id=" <:+: info'.settings.host.bytes
    rw [h]
    exact hs.host
  · show ¬ ascii ",info=" <:+: info'.settings.port.bytes
    rw [h]
    exact hs.port
  · show ¬ ascii ",name=" <:+: info'.settings.info.bytes
    rw [h]
    exact hs.info

/-- The reply to a `'P'` request reports the settings. -/
theorem infoText_of_settings (h : info'.settings = info.settings) (now : BitVec 32) :
    infoText info' now = infoText info now :=
  calc infoText info' now
    _ = infoText info'.settings now := rfl
    _ = infoText info now := by
      rw [h]
      rfl

end Settings

namespace Mem

variable {m m' : Mem} {s : Int} {p fuel : ℕ}

theorem createPlayer_info {new : Malloc Player} (h : createPlayer s new m = .ok (p, m')) :
    m'.info = m.info := by
  obtain ⟨m₁, h₁, h⟩ := bind_eq_ok.mp h
  obtain ⟨m₂, h₂, h⟩ := bind_eq_ok.mp h
  obtain ⟨-, rfl⟩ := malloc_eq_ok.mp h₁
  obtain ⟨q, -, rfl⟩ := modifyPlayer_eq_ok.mp h₂
  obtain ⟨rfl, rfl⟩ := Prod.mk.inj (pure_eq_ok.mp h)
  rfl

theorem linkNode_settings {new : Malloc PlayerNode} (h : linkNode new m = .ok m') :
    m'.info.settings = m.info.settings := by
  unfold linkNode at h
  split at h
  · obtain ⟨m₁, h₁, h⟩ := bind_eq_ok.mp h
    obtain ⟨-, rfl⟩ := malloc_eq_ok.mp h₁
    obtain rfl := pure_eq_ok.mp h
    rfl
  · obtain ⟨m₁, h₁, h⟩ := bind_eq_ok.mp h
    obtain ⟨m₂, h₂, h⟩ := bind_eq_ok.mp h
    obtain ⟨e, -, h⟩ := bind_eq_ok.mp h
    obtain ⟨-, rfl⟩ := malloc_eq_ok.mp h₁
    obtain ⟨q, -, rfl⟩ := modifyNode_eq_ok.mp h₂
    obtain rfl := pure_eq_ok.mp h
    rfl

theorem addPlayer_settings {new : Malloc PlayerNode} (h : addPlayer p new m = .ok m') :
    m'.info.settings = m.info.settings := by
  obtain ⟨m₁, h₁, h⟩ := bind_eq_ok.mp h
  obtain ⟨m₂, h₂, h⟩ := bind_eq_ok.mp h
  obtain ⟨m₃, h₃, h⟩ := bind_eq_ok.mp h
  obtain ⟨q₂, -, rfl⟩ := modifyNode_eq_ok.mp h₂
  obtain ⟨q₃, -, rfl⟩ := modifyNode_eq_ok.mp h₃
  obtain ⟨-, rfl⟩ := addPlayerCount_eq_ok.mp h
  have hlink := linkNode_settings h₁
  exact hlink

theorem unlinkNode_settings {found : Search} (h : unlinkNode found m = .ok m') :
    m'.info.settings = m.info.settings := by
  unfold unlinkNode at h
  split at h
  · obtain ⟨hd, -, h⟩ := bind_eq_ok.mp h
    dsimp only at h
    split at h
    · calc m'.info.settings
        _ = (m.setPlayerList hd.next).info.settings := congrArg ServInfo.settings (free_info h)
        _ = m.info.settings := rfl
    · obtain rfl := pure_eq_ok.mp h
      rfl
  · obtain ⟨n, -, h⟩ := bind_eq_ok.mp h
    obtain ⟨q, -, rfl⟩ := modifyNode_eq_ok.mp h
    rfl

theorem removePlayer_settings (h : removePlayer s fuel m = .ok m') :
    m'.info.settings = m.info.settings := by
  unfold removePlayer at h
  split at h
  · obtain rfl := pure_eq_ok.mp h
    rfl
  · obtain ⟨found, -, h⟩ := bind_eq_ok.mp h
    split at h
    · obtain ⟨m₁, h₁, h⟩ := bind_eq_ok.mp h
      obtain ⟨m₂, h₂, h⟩ := bind_eq_ok.mp h
      obtain ⟨m₃, h₃, h⟩ := bind_eq_ok.mp h
      obtain ⟨-, rfl⟩ := addPlayerCount_eq_ok.mp h
      calc m₃.info.settings
        _ = m₂.info.settings := congrArg ServInfo.settings (free_info h₃)
        _ = m₁.info.settings := congrArg ServInfo.settings (free_info h₂)
        _ = m.info.settings := unlinkNode_settings h₁
    · obtain rfl := pure_eq_ok.mp h
      rfl

theorem connect_settings {newfd : ℕ} {x : PlayerChoice} (h : m.connect newfd x = .ok m') :
    m'.info.settings = m.info.settings := by
  obtain ⟨⟨p, m₁⟩, h₁, h⟩ := bind_eq_ok.mp h
  obtain ⟨m₂, h₂, h⟩ := bind_eq_ok.mp h
  obtain ⟨v, -, h⟩ := bind_eq_ok.mp h
  obtain ⟨q, -, rfl⟩ := modifyPlayer_eq_ok.mp h
  exact (addPlayer_settings h₂).trans (congrArg ServInfo.settings (createPlayer_info h₁))

end Mem

namespace Server

variable {fdSetSize : ℕ} {w w' : Server Mem}

/-- A step of the loop keeps the settings. -/
theorem settings_step {l : ServerLabel PlayerChoice}
    (hst : (sys Mem.ops fdSetSize).step w l w') :
    w'.loop.players.info.settings = w.loop.players.info.settings := by
  obtain ⟨o, rfl, -, rfl⟩ | ⟨a, loop, e, rfl, -, hs, rfl⟩ := step_cases hst
  · rfl
  cases hs with
  | accept i readFds fd x players _ _ _ _ hp _ => exact Mem.connect_settings hp
  | eof i readFds x players _ _ _ hp _ => exact Mem.removePlayer_settings hp
  | stop | select | skip | done | refuse | error | data => rfl

/-- The counter is an `int`. -/
theorem Related.count_range {v : Server Roster} (h : Related w v) :
    intMin ≤ w.loop.players.info.playerCount ∧ w.loop.players.info.playerCount ≤ intMax := by
  obtain ⟨r, ⟨l, hi, -⟩, -⟩ := h
  have hcount : w.loop.players.info.playerCount = l.length := hi.count
  refine ⟨?_, hi.bound⟩
  unfold intMin
  omega

/-- A public server after `listen`, with an empty heap. -/
def publicMem : Server Mem :=
  ⟨ServerLoop.start 0 (.zero 4096) ⟨.empty, { ServInfo.blank with isPublic := true }⟩, [], ∅⟩

/-- A client joins on the descriptor `1`, and its `recv` fails. -/
def failOne : List (ServerLabel PlayerChoice) :=
  join 1 ++
    [.loop (.select {1}), .loop .next, .loop (.recv .error ⟨⟨1, default⟩, ⟨2, default⟩, 0⟩)]

theorem run_failOne : ∃ p, (sys Mem.ops 1024).Run publicMem p ∧
    Lts.AllSteps KeepsTail publicMem p ∧
    (Lts.last publicMem p).trace = [.accepted 1, .failed 1] ∧
    Lts.last publicMem p ∈ p.map Prod.snd := by
  obtain ⟨p, hp, hk, htr, hlast⟩ : ∃ p,
      Lts.path Admits (step Mem.ops 1024) publicMem failOne = some p ∧
        Lts.AllSteps KeepsTail publicMem p ∧
        (Lts.last publicMem p).trace = [.accepted 1, .failed 1] ∧
        Lts.last publicMem p ∈ p.map Prod.snd :=
    ⟨_, rfl, ⟨trivial, trivial, trivial, trivial, trivial, trivial, trivial, trivial⟩, rfl,
      List.getLast_mem (List.cons_ne_nil _ _)⟩
  exact ⟨p, Lts.run_of_path _ hp, hk, htr, hlast⟩

/-- **What a check-in reports** along a run in which no disconnect removes the last of several players:
the settings of the start, and as the number of players the clients that are connected and the ones
whose `recv` has failed. The replies to `'P'` requests do not change. -/
theorem checkIn_of_loop {w₀ : Server Mem} {p : List (ServerLabel PlayerChoice × Server Mem)}
    (h₀ : w₀.NoPlayers) (h : (sys Mem.ops fdSetSize).Run w₀ p) (hk : Lts.AllSteps KeepsTail w₀ p)
    (hs : Separable w₀.loop.players.info) (hpublic : w₀.loop.players.info.isPublic = true) :
    ∀ x ∈ p,
      (∀ lp64 addrs sendOk reply, ∀ buffer : Buf 1024, ∃ buffer' es,
        masterCheckIn lp64 x.2.loop.players.info addrs sendOk reply 1024 buffer =
            .ok (buffer', es) ∧
          ∀ d ∈ datagrams es, readCheckIn d.dropLast = some { w₀.loop.players.info.report with
            playerCount := (x.2.live.card + (failures x.2.trace).length : ℕ) }) ∧
      ∀ now, infoText x.2.loop.players.info now = infoText w₀.loop.players.info now := by
  intro x hx
  obtain ⟨v, hv, hrel⟩ := simulates h₀ h hk x hx
  have hcount := hrel.count (h₀.empty.reach hv).2
  have hset : x.2.loop.players.info.settings = w₀.loop.players.info.settings :=
    h.always (I := fun w => w.loop.players.info.settings = w₀.loop.players.info.settings) rfl
      (fun _ _ _ hi _ hst => (settings_step hst).trans hi) hk x hx
  have hpublic' : x.2.loop.players.info.isPublic = true :=
    (congrArg ServInfo.isPublic hset).trans hpublic
  have hread := readCheckIn_text (hs.of_settings hset hrel.count_range)
  rw [ServInfo.report_of_settings hset, hcount] at hread
  refine ⟨fun lp64 addrs sendOk reply buffer => ?_, infoText_of_settings hset⟩
  obtain ⟨buffer', es, hok, -, hds⟩ := masterCheckIn_eq_ok lp64
    ⟨x.2.loop.players.info, addrs, sendOk, reply⟩ hpublic' buffer
  refine ⟨buffer', es, hok, fun d hd => ?_⟩
  rcases hds with ⟨-, hds⟩ | ⟨-, hds⟩
  · obtain rfl := List.mem_singleton.mp (hds ▸ hd)
    rw [List.dropLast_concat]
    exact hread
  · rw [hds] at hd
    cases hd

/-- The client is not connected any more, and the master is told of one player. -/
theorem checkIn_of_loop_failed : ∃ w : Server Mem, w.trace = [.accepted 1, .failed 1] ∧
    w.live = ∅ ∧ ∀ lp64 addrs sendOk reply, ∀ buffer : Buf 1024, ∃ buffer' es,
      masterCheckIn lp64 w.loop.players.info addrs sendOk reply 1024 buffer = .ok (buffer', es) ∧
        ∀ d ∈ datagrams es, readCheckIn d.dropLast =
          some { ServInfo.blank.report with playerCount := 1 } := by
  obtain ⟨p, hrun, hk, htr, hlast⟩ := run_failOne
  obtain ⟨x, hx, hxlast⟩ := List.mem_map.mp hlast
  rw [← hxlast] at htr
  have hnone : publicMem.NoPlayers := ⟨⟨⟨_, _, rfl⟩, rfl, Finset.notMem_empty _⟩, rfl, rfl⟩
  have hlive : x.2.live = ∅ := by
    rw [Server.live, htr]
    rfl
  obtain ⟨hreport, -⟩ := checkIn_of_loop hnone hrun hk ⟨by decide, by decide, by decide, by decide⟩
    rfl x hx
  rw [hlive, htr] at hreport
  exact ⟨x.2, htr, hlive, hreport⟩

end Server

end LwMix
