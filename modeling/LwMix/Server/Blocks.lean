import LwMix.Info.ListReply
import LwMix.Player.Blocks
import LwMix.Server.Players

/-!
# The heap of `serverLoop`, and what the info service says of it

* `Mem.accounts_connect`, `Mem.accounts_removePlayer`: one call of the loop.
* `Accounted.step`: one step of the loop.
* `blocks_of_loop`: the loop has two blocks for each connected client, and two for each client whose
  `recv` has failed, which are never given back.
* `reply_of_loop`: a `'Q'` request is answered with the serial numbers of the connected clients.
-/

namespace LwMix

namespace Mem

variable {m m' : Mem} {r : Roster} {F : ℕ → Option Block} {l : List (ℕ × Player)}

/-- A client is accepted. -/
theorem accounts_connect {newfd : ℕ} {x : PlayerChoice} (h : Accounts F ⟨m, ⟨[], l⟩⟩)
    (hm : m.connect newfd x = .ok m') : ∃ l', Accounts F ⟨m', ⟨[], l'⟩⟩ := by
  obtain ⟨⟨p, m₁⟩, h₁, hm⟩ := bind_eq_ok.mp hm
  obtain ⟨m₂, h₂, hm⟩ := bind_eq_ok.mp hm
  obtain ⟨v, -, h₃⟩ := bind_eq_ok.mp hm
  obtain ⟨-, rfl, -⟩ := Rep.createPlayer_eq_ok.mp h₁
  have hi₁ : Accounts F ⟨m₁, ⟨[(x.player.addr, ⟨newfd, x.player.junk.sernum⟩)], l⟩⟩ :=
    h.step (c := .createPlayer newfd x.player) trivial
      ⟨trivial, ⟨0, bind_eq_ok.mpr ⟨_, h₁, rfl⟩⟩, rfl⟩
  have hi₂ : Accounts F ⟨m₂, ⟨[], l ++ [(x.player.addr, ⟨newfd, x.player.junk.sernum⟩)]⟩⟩ :=
    hi₁.step (c := .addPlayer x.player.addr x.node) trivial
      ⟨⟨_, List.mem_singleton_self _, rfl⟩, ⟨0, h₂⟩, by simp [Abs.step]⟩
  exact ⟨_, hi₂.step (c := .writeSernum x.player.addr (BitVec.ofInt 32 v)) trivial
    ⟨⟨_, List.mem_append_right _ (List.mem_singleton_self _), rfl⟩, ⟨0, h₃⟩, rfl⟩⟩

/-- A client is disconnected that is not the last of several players. -/
theorem accounts_removePlayer {s : Int} {fuel : ℕ} (h : Accounts F ⟨m, ⟨[], l⟩⟩)
    (hk : ∀ k l, playersOf m k = .ok l → ¬ RemovesTail s l)
    (hm : LwMix.removePlayer s fuel m = .ok m') : ∃ l', Accounts F ⟨m', ⟨[], l'⟩⟩ := by
  have hkeeps : LwMix.KeepsTail ⟨m, ⟨[], l⟩⟩ (.removePlayer s) := by
    obtain ⟨es, hr, -⟩ := h
    obtain ⟨k, hwalk⟩ := hr.refines
    exact hk k l hwalk
  exact ⟨_, h.step (c := .removePlayer s) hkeeps ⟨trivial, ⟨fuel, hm⟩, rfl⟩⟩

end Mem

namespace Server

variable {fdSetSize : ℕ} {F : ℕ → Option Block} {w w' : Server Mem}

/-- The heap is that of a list of players. -/
def Accounted (F : ℕ → Option Block) (w : Server Mem) : Prop :=
  ∃ l, Accounts F ⟨w.loop.players, ⟨[], l⟩⟩

/-- **One step.** Only an accepted and a disconnected client change the heap. -/
theorem Accounted.step {l : ServerLabel PlayerChoice} (h : Accounted F w) (hk : KeepsTail w l)
    (hst : (sys Mem.ops fdSetSize).step w l w') : Accounted F w' := by
  obtain ⟨ps, hi⟩ := h
  obtain ⟨o, rfl, -, rfl⟩ | ⟨a, loop, e, rfl, -, hs, rfl⟩ := step_cases hst
  · exact ⟨ps, hi⟩
  cases hs with
  | accept i readFds fd x players _ _ _ _ hp _ => exact Mem.accounts_connect hi hp
  | eof i readFds x players hpc _ _ hp _ =>
    exact Mem.accounts_removePlayer hi (hk i readFds hpc) hp
  | stop _ => exact ⟨ps, hi⟩
  | select ready _ => exact ⟨ps, hi⟩
  | skip i readFds _ _ _ => exact ⟨ps, hi⟩
  | done i readFds _ _ => exact ⟨ps, hi⟩
  | refuse i readFds x _ _ _ _ => exact ⟨ps, hi⟩
  | error i readFds x _ _ _ _ => exact ⟨ps, hi⟩
  | data i readFds x c _ _ _ _ _ => exact ⟨ps, hi⟩

/-- The number of players, by the events. -/
theorem Related.count {v : Server Roster} (h : Related w v) (hg : v.Ghosts) :
    w.loop.players.info.playerCount = (w.live.card + (failures w.trace).length : ℕ) := by
  obtain ⟨r, ⟨l, hi, rfl⟩, rfl⟩ := h
  have hlen := hg.sockets.length_eq
  rw [List.length_map, List.length_map, List.length_append, Finset.length_toList] at hlen
  refine hg.count.trans ?_
  rw [hlen]
  rfl

/-- The server after `listen`, with an empty heap. -/
def freshMem : Server Mem := ⟨ServerLoop.start 0 (.zero 4096) ⟨.empty, .blank⟩, [], ∅⟩

theorem freshMem_noPlayers : freshMem.NoPlayers :=
  ⟨⟨⟨_, _, rfl⟩, rfl, Finset.notMem_empty _⟩, rfl, rfl⟩

/-- The client `fd` joins, with the blocks `2 * fd - 1` and `2 * fd`. -/
def join (fd : ℕ) : List (ServerLabel PlayerChoice) :=
  round fd 0 (.accept (some fd) ⟨⟨2 * fd - 1, default⟩, ⟨2 * fd, default⟩, 0⟩)

/-- The clients `1`, `2` and `3` join, and the client `1` leaves. -/
def oneLeaves : List (ServerLabel PlayerChoice) :=
  join 1 ++ join 2 ++ join 3 ++ round 3 1 (.recv .eof ⟨⟨0, default⟩, ⟨0, default⟩, 4⟩)

/-- The run of the labels `ls`. -/
def runOf (ls : List (ServerLabel PlayerChoice)) : List (ServerLabel PlayerChoice × Server Mem) :=
  (Lts.path Admits (step Mem.ops 1024) freshMem ls).getD []

theorem runOf_keeps (ls : List (ServerLabel PlayerChoice))
    (h : Lts.path Admits (step Mem.ops 1024) freshMem ls = some (runOf ls))
    (hk : Lts.AllSteps (fun w l => keepsTail 4 w l = true) freshMem (runOf ls)) :
    (sys Mem.ops 1024).Run freshMem (runOf ls) ∧ Lts.AllSteps KeepsTail freshMem (runOf ls) :=
  ⟨Lts.run_of_path ls h, hk.mono fun _ _ => keepsTail_spec⟩

/-- **The reply to `'Q'`** in such a run, as long as no `recv` has failed: the players that the walk
meets are the connected clients, and if the cursor does not wrap, their serial numbers are read from
the datagram. -/
theorem reply_of_loop {w₀ : Server Mem} {p : List (ServerLabel PlayerChoice × Server Mem)}
    (h₀ : w₀.NoPlayers) (h : (sys Mem.ops fdSetSize).Run w₀ p)
    (hk : Lts.AllSteps KeepsTail w₀ p) : ∀ x ∈ p, (∀ e ∈ x.2.trace, ∀ fd, e ≠ .failed fd) →
      ∃ k l, playersOf x.2.loop.players k = .ok l ∧
        (l.map fun y => y.2.socket).Perm (x.2.live.toList.map Nat.cast) ∧
        ∀ signed playerListBuffer buffer,
          (render (l.map fun y => y.2.sernum)).length ≤ 575 →
          (render (l.map fun y => y.2.sernum).dropLast).length ≤ charMax signed →
          ∃ fuel r, listReply signed fuel playerListBuffer buffer x.2.loop.players = .ok r ∧
            readSernums (r.datagram.drop 1).dropLast = l.map fun y => y.2.sernum := by
  intro x hx hfail
  obtain ⟨k, l, hwalk, hsockets, -⟩ := walk_clients h₀ h hk x hx hfail
  refine ⟨k, l, hwalk, hsockets, fun signed playerListBuffer buffer hfit hmax => ?_⟩
  obtain ⟨v, hv, r, ⟨ps, ⟨es, hr, -⟩, rfl⟩, rfl⟩ := simulates h₀ h hk x hx
  have hl : l = es.map fun e => (e.player, e.data) := (playersOf_iff hr.chain).mp ⟨k, hwalk⟩
  have hsernums : sernums es = l.map fun y => y.2.sernum := by
    rw [hl, List.map_map]
    rfl
  rw [← hsernums] at hfit hmax ⊢
  obtain ⟨fuel, reply, hok, hd⟩ : ∃ fuel reply,
      listReply signed fuel playerListBuffer buffer x.2.loop.players = .ok reply ∧
        reply.datagram = ascii "Q" ++ render (sernums es) ++ [0] :=
    datagram_of_cursor hr.chain hfit hmax
  refine ⟨fuel, reply, hok, ?_⟩
  rw [hd]
  show readSernums (render (sernums es) ++ [0]).dropLast = _
  rw [List.dropLast_concat, readSernums_render]

/-- One of three clients has left: the serial numbers of the other two are in the reply. -/
theorem reply_of_loop_oneLeaves : ∃ x ∈ runOf oneLeaves,
    x.2.trace = [.accepted 1, .accepted 2, .accepted 3, .disconnected 1] ∧
    ∃ fuel r, listReply true fuel (.zero 576) (.zero 1024) x.2.loop.players = .ok r ∧
      readSernums (r.datagram.drop 1).dropLast = [0x246, 0x369] := by
  obtain ⟨hrun, hk⟩ := runOf_keeps oneLeaves rfl (by decide)
  have hmem : (runOf oneLeaves).getLast (by decide) ∈ runOf oneLeaves := List.getLast_mem _
  obtain ⟨k, l, hwalk, -, hreply⟩ := reply_of_loop freshMem_noPlayers hrun hk _ hmem
    (failures_eq_nil.mp (by decide))
  obtain rfl : l = [(3, ⟨2, 0x246⟩), (5, ⟨3, 0x369⟩)] := walk_unique (k := 4) hwalk rfl
  exact ⟨_, hmem, by decide, hreply true (.zero 576) (.zero 1024) (by decide) (by decide)⟩

end Server

end LwMix
