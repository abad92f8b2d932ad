import LwMix.Server.Runs
import LwMix.Types
import Mathlib.Data.Finset.Dedup
import Mathlib.Data.List.Nodup

/-!
# The players of `serverLoop`

The loop with `addPlayer` and `removePlayer` at their intended meaning: the list of the players and
their number (`Roster`). `addPlayer` appends, `removePlayer` deletes the first entry with the socket,
and a new player gets the `sernum` `player_count * 0x123`.

* `corresponds_iff`: the players are the connected clients exactly as long as no `recv` has failed.
* `serials_iff`: the `sernum`s differ along a run exactly as long as nobody joins as the `n`-th
  player while a player is there that joined as the `n`-th one.
-/

namespace LwMix

/-- The list of the players and `player_count`. -/
structure Roster where
  list : List Player
  playerCount : Int
  deriving DecidableEq, Repr

namespace Roster

/-- No players. -/
def empty : Roster := ⟨[], 0⟩

/-- `addPlayer`. -/
def addPlayer (p : Player) (r : Roster) : Except Fault Roster := do
  let c ← checkedInt (r.playerCount + 1)
  pure ⟨r.list ++ [p], c⟩

/-- `removePlayer`. -/
def removePlayer (socket : Int) (r : Roster) : Except Fault Roster :=
  if ∃ p ∈ r.list, p.socket = socket then do
    let c ← checkedInt (r.playerCount - 1)
    pure ⟨r.list.eraseP (·.socket = socket), c⟩
  else pure r

/-- A new player: `createPlayer`, `addPlayer`, and its `sernum`. -/
def connect (newfd : ℕ) (r : Roster) : Except Fault Roster := do
  let r ← r.addPlayer ⟨newfd, 0⟩
  let v ← checkedInt (r.playerCount * 0x123)
  pure { r with list := r.list.dropLast ++ [⟨newfd, BitVec.ofInt 32 v⟩] }

/-- The players at their intended meaning. -/
def ops : PlayerOps Roster Unit where
  connect newfd _ := connect newfd
  removePlayer i _ := removePlayer i

variable {r r' : Roster} {newfd : ℕ} {s : Int}

theorem connect_eq_ok : r.connect newfd = .ok r' ↔
    ((intMin ≤ r.playerCount + 1 ∧ r.playerCount + 1 ≤ intMax) ∧
      intMin ≤ (r.playerCount + 1) * 0x123 ∧ (r.playerCount + 1) * 0x123 ≤ intMax) ∧
    r' = ⟨r.list ++ [⟨newfd, BitVec.ofInt 32 ((r.playerCount + 1) * 0x123)⟩],
      r.playerCount + 1⟩ := by
  simp only [connect, addPlayer, bind_eq_ok, checkedInt_eq_ok, pure_eq_ok]
  constructor
  · rintro ⟨_, ⟨c, ⟨h₁, rfl⟩, rfl⟩, v, ⟨h₂, rfl⟩, rfl⟩
    exact ⟨⟨h₁, h₂⟩, by simp⟩
  · rintro ⟨⟨h₁, h₂⟩, rfl⟩
    exact ⟨_, ⟨_, ⟨h₁, rfl⟩, rfl⟩, _, ⟨h₂, rfl⟩, by simp⟩

theorem removePlayer_list (h : r.removePlayer s = .ok r') :
    r'.list = r.list.eraseP (·.socket = s) ∧
      (r.playerCount = r.list.length → r'.playerCount = r'.list.length) := by
  unfold removePlayer at h
  split at h
  · rename_i hex
    obtain ⟨c, hc, h⟩ := bind_eq_ok.mp h
    obtain ⟨-, rfl⟩ := checkedInt_eq_ok.mp hc
    obtain rfl := pure_eq_ok.mp h
    obtain ⟨p, hp, hs⟩ := hex
    have hlen := List.length_eraseP_of_mem hp (p := (·.socket = s)) (by simpa using hs)
    have := List.length_pos_of_mem hp
    refine ⟨rfl, fun hcount => ?_⟩
    simp only [hlen, hcount]
    omega
  · rename_i hex
    obtain rfl := pure_eq_ok.mp h
    refine ⟨(List.eraseP_of_forall_not fun p hp => ?_).symm, id⟩
    simpa using fun hs => hex ⟨p, hp, hs⟩

theorem removePlayer_of_count (hc : r.playerCount = r.list.length) (hmax : r.playerCount ≤ intMax)
    (s : Int) : r.removePlayer s =
      .ok ⟨r.list.eraseP (·.socket = s), (r.list.eraseP (·.socket = s)).length⟩ := by
  unfold removePlayer
  split
  · rename_i hex
    obtain ⟨p, hp, hs⟩ := hex
    have hlen := List.length_eraseP_of_mem hp (p := (·.socket = s)) (by simpa using hs)
    have hpos := List.length_pos_of_mem hp
    have hrange : intMin ≤ r.playerCount - 1 ∧ r.playerCount - 1 ≤ intMax := by
      unfold intMin intMax at *
      omega
    have hcount : ((r.list.length - 1 : ℕ) : Int) = r.playerCount - 1 := by omega
    rw [hlen, hcount]
    exact bind_eq_ok.mpr ⟨_, checkedInt_eq_ok.mpr ⟨hrange, rfl⟩, rfl⟩
  · rename_i hex
    have hall : ∀ p ∈ r.list, ¬ decide (p.socket = s) = true := fun p hp hs =>
      hex ⟨p, hp, by simpa using hs⟩
    rw [List.eraseP_of_forall_not hall, pure_eq_ok, ← hc]

/-- The sockets after a removal. -/
theorem map_socket_eraseP (l : List Player) (s : Int) :
    (l.eraseP (·.socket = s)).map Player.socket = (l.map Player.socket).erase s := by
  rw [List.erase_eq_eraseP, List.eraseP_map]
  refine congrArg (fun q => (l.eraseP q).map Player.socket) (funext fun p => ?_)
  simp only [Function.comp_apply, eq_comm (a := p.socket)]
  rfl

end Roster

namespace Server

variable {fdSetSize : ℕ} {w₀ w w' : Server Roster}

/-- The server of the empty roster. -/
def Empty (w : Server Roster) : Prop := w.Initial ∧ w.loop.players = .empty

/-! ## Players and connections -/

/-- The clients whose `recv` failed. -/
def failures (tr : List Event) : List ℕ :=
  tr.filterMap fun e =>
    match e with
    | .failed fd => some fd
    | _ => none

theorem failures_concat (tr : List Event) (e : Event) :
    failures (tr ++ [e]) = failures tr ++ failures [e] := List.filterMap_append

theorem failures_eq_nil {tr : List Event} :
    failures tr = [] ↔ ∀ e ∈ tr, ∀ fd, e ≠ .failed fd := by
  rw [failures, List.filterMap_eq_nil_iff]
  refine forall₂_congr fun e _ => ?_
  cases e <;> simp

/-- The players are the members of `master` other than the listener, and `player_count` is their
number. -/
structure Corresponds (w : Server Roster) : Prop where
  nodup : (w.loop.players.list.map Player.socket).Nodup
  master : ∀ s : Int, s ∈ w.loop.players.list.map Player.socket ↔
    ∃ fd ∈ w.loop.master, fd ≠ w.loop.listener ∧ s = fd
  count : w.loop.players.playerCount = w.loop.players.list.length

/-- The players are the connected clients and, once for each failed `recv`, a client of then. -/
structure Ghosts (w : Server Roster) : Prop where
  sockets : (w.loop.players.list.map Player.socket).Perm
    ((w.live.toList ++ failures w.trace).map Nat.cast)
  count : w.loop.players.playerCount = w.loop.players.list.length

theorem Empty.ghosts (h : w.Empty) : Ghosts w := by
  obtain ⟨⟨-, ht, -⟩, hp⟩ := h
  constructor <;> simp [hp, Roster.empty, live, ht, failures]

/-- A connected client comes first. -/
theorem toList_erase_perm {i : ℕ} {s : Finset ℕ} (hi : i ∈ s) :
    s.toList.Perm (i :: (s.erase i).toList) := by
  have h := Finset.toList_insert (Finset.notMem_erase i s)
  rwa [Finset.insert_erase hi] at h

theorem Ghosts.step {l : ServerLabel Unit} (hi : Inv w) (h : Ghosts w)
    (hst : (sys Roster.ops fdSetSize).step w l w') : Ghosts w' := by
  obtain ⟨o, rfl, ho, rfl⟩ | ⟨a, loop, e, rfl, hadm, hs, rfl⟩ := step_cases hst
  · exact ⟨h.sockets, h.count⟩
  cases hs with
  | stop | select | skip | done | refuse => exact ⟨by simpa [live] using h.sockets, h.count⟩
  | accept i readFds fd x players hpc hr hl hfd hp =>
    obtain ⟨-, rfl⟩ := Roster.connect_eq_ok.mp hp
    simp only [Admits, Finset.mem_union, not_or, owned, Finset.mem_insert] at hadm
    have hins := Finset.toList_insert hadm.1.2
    refine ⟨?_, by simp [h.count]⟩
    rw [Option.toList_some, live, live_append_singleton, failures_concat]
    show ((w.loop.players.list ++ ([⟨fd, _⟩] : List Player)).map Player.socket).Perm
      (((insert fd w.live).toList ++ (failures w.trace ++ [])).map Nat.cast)
    have hcons : (w.loop.players.list.map Player.socket ++ [(fd : Int)]).Perm
        ((fd :: (w.live.toList ++ failures w.trace)).map Nat.cast) :=
      (List.perm_append_singleton _ _).trans (h.sockets.cons _)
    rw [List.append_nil, List.map_append]
    exact hcons.trans ((hins.symm.append_right _).map _)
  | eof i readFds x players hpc hr hl hp =>
    obtain ⟨hlist, hcount⟩ := Roster.removePlayer_list hp
    have herase := toList_erase_perm (hi.mem_live hpc hr hl)
    refine ⟨?_, hcount h.count⟩
    rw [Option.toList_some, live, live_append_singleton, failures_concat]
    show (players.list.map Player.socket).Perm
      (((w.live.erase i).toList ++ (failures w.trace ++ [])).map Nat.cast)
    have hperm := (h.sockets.trans ((herase.append_right _).map _)).erase (i : Int)
    rw [hlist, Roster.map_socket_eraseP, List.append_nil]
    simpa using hperm
  | error i readFds x hpc hr hl =>
    have herase := toList_erase_perm (hi.mem_live hpc hr hl)
    refine ⟨?_, h.count⟩
    rw [Option.toList_some, live, live_append_singleton, failures_concat, ← List.append_assoc]
    show (w.loop.players.list.map Player.socket).Perm
      (((w.live.erase i).toList ++ failures w.trace ++ [i]).map Nat.cast)
    have hperm := (herase.append_right (failures w.trace)).trans
      (List.perm_append_singleton i _).symm
    exact h.sockets.trans (hperm.map _)
  | data i readFds x c hpc hr hl =>
    refine ⟨?_, h.count⟩
    rw [Option.toList_some, live, live_append_singleton, failures_concat]
    show (w.loop.players.list.map Player.socket).Perm
      ((w.live.toList ++ (failures w.trace ++ [])).map Nat.cast)
    rw [List.append_nil]
    exact h.sockets

theorem Empty.reach (h₀ : w₀.Empty) (h : (sys Roster.ops fdSetSize).Reach w₀ w) :
    Inv w ∧ Ghosts w :=
  h.invariant (I := fun w => Inv w ∧ Ghosts w) ⟨h₀.1.inv, h₀.ghosts⟩
    fun _ _ _ hi hst => ⟨hi.1.step hst, hi.2.step hi.1 hst⟩

/-- The descriptors of `master` other than the listener. -/
theorem Inv.mem_master (hi : Inv w) {fd : ℕ} :
    fd ∈ w.loop.master ∧ fd ≠ w.loop.listener ↔ fd ∈ w.live := by
  rw [hi.master, owned, Finset.mem_insert]
  constructor
  · rintro ⟨rfl | h, hne⟩
    · exact absurd rfl hne
    · exact h
  · intro h
    refine ⟨.inr h, ?_⟩
    rintro rfl
    exact hi.listener h

theorem nodup_cast (s : Finset ℕ) : (s.toList.map (Nat.cast : ℕ → Int)).Nodup :=
  s.nodup_toList.map fun _ _ h => Int.ofNat_inj.mp h

theorem Ghosts.corresponds_iff_failures (hi : Inv w) (h : Ghosts w) :
    Corresponds w ↔ failures w.trace = [] := by
  constructor
  · rintro ⟨hnd, hm, -⟩
    -- The sockets are the live clients, once each: no entry is left for a failure.
    have hperm : (w.loop.players.list.map Player.socket).Perm (w.live.toList.map Nat.cast) := by
      refine (List.perm_ext_iff_of_nodup hnd (nodup_cast _)).mpr fun s => ?_
      rw [hm]
      simp only [← and_assoc, hi.mem_master, List.mem_map, Finset.mem_toList, eq_comm]
    have hlen := (h.sockets.symm.trans hperm).length_eq
    simp only [List.length_map, List.length_append] at hlen
    exact List.eq_nil_of_length_eq_zero (by omega)
  · intro h0
    have hperm := h.sockets
    rw [h0, List.append_nil] at hperm
    refine ⟨hperm.nodup_iff.mpr (nodup_cast _), fun s => ?_, h.count⟩
    rw [hperm.mem_iff]
    simp only [← and_assoc, hi.mem_master, List.mem_map, Finset.mem_toList, eq_comm]

/-- **Players and connections.** In a reachable state the players are the connected clients iff no
`recv` has failed so far. -/
theorem corresponds_iff (h₀ : w₀.Empty) (h : (sys Roster.ops fdSetSize).Reach w₀ w) :
    Corresponds w ↔ ∀ e ∈ w.trace, ∀ fd, e ≠ .failed fd := by
  obtain ⟨hi, hg⟩ := h₀.reach h
  rw [hg.corresponds_iff_failures hi, failures_eq_nil]

/-! ### Two clients join, and one leaves -/

/-- The server of the listener `0`, and a buffer of zeros. -/
def fresh : Server Roster := ⟨ServerLoop.start 0 (.zero 4096) .empty, [], ∅⟩

theorem fresh_empty : fresh.Empty := by
  refine ⟨⟨⟨_, _, rfl⟩, rfl, ?_⟩, rfl⟩
  simp [fresh]

/-- One round of the loop over `fdmax` descriptors above the listener: `select` reports `i` only,
and the loop gets the answer `a` there. -/
def round {χ : Type} (fdmax i : ℕ) (a : Answer χ) : List (ServerLabel χ) :=
  .loop (.select {i}) ::
    (List.replicate i (.loop .next) ++ .loop a :: List.replicate (fdmax + 1 - i) (.loop .next))

/-- The clients `1` and `2` join. -/
def twoClients : List (ServerLabel Unit) :=
  round 1 0 (.accept (some 1) ()) ++ round 2 0 (.accept (some 2) ())

/-- The client `1` leaves, and `recv` says so. -/
theorem corresponds_disconnected : ∃ w, (sys Roster.ops 1024).Reach fresh w ∧
    w.trace = [.accepted 1, .accepted 2, .disconnected 1] ∧ Corresponds w := by
  obtain ⟨w, hw, htr⟩ : ∃ w, Lts.exec Admits (step Roster.ops 1024) fresh
      (twoClients ++ round 2 1 (.recv .eof ())) = some w ∧
      w.trace = [.accepted 1, .accepted 2, .disconnected 1] := ⟨_, rfl, rfl⟩
  have h := Lts.reach_of_exec hw
  refine ⟨w, h, htr, (corresponds_iff fresh_empty h).mpr ?_⟩
  simp [htr]

/-- `recv` fails for the client `1`: it is closed, and stays in the list of the players. -/
theorem not_corresponds_failed : ∃ w, fresh.Empty ∧ (sys Roster.ops 1024).Reach fresh w ∧
    w.loop.pc = .top ∧ w.loop.master = {0, 2} ∧
    w.loop.players.list.map Player.socket = [1, 2] ∧ ¬ Corresponds w := by
  obtain ⟨w, hw, hpc, hm, hl⟩ : ∃ w, Lts.exec Admits (step Roster.ops 1024) fresh
      (twoClients ++ round 2 1 (.recv .error ())) = some w ∧ w.loop.pc = .top ∧
      w.loop.master = {0, 2} ∧ w.loop.players.list.map Player.socket = [1, 2] := by
    refine ⟨_, rfl, rfl, ?_, rfl⟩
    decide
  refine ⟨w, fresh_empty, Lts.reach_of_exec hw, hpc, hm, hl, fun hc => ?_⟩
  obtain ⟨fd, hfd, -, heq⟩ := (hc.master 1).mp (by simp [hl])
  simp [hm] at hfd
  omega

/-! ## Serial numbers -/

/-- The players of the list, by the events: the descriptor, and as the how-manieth player it joined.
A client whose `recv` failed stays in the list. -/
def joins (tr : List Event) : List (ℕ × ℕ) :=
  tr.foldl (fun js e =>
    match e with
    | .accepted fd => js ++ [(fd, js.length + 1)]
    | .disconnected fd => js.eraseP (·.1 = fd)
    | _ => js) []

/-- The player that joined on the descriptor `x.1` as the `x.2`-th one. -/
def joinedPlayer (x : ℕ × ℕ) : Player := ⟨x.1, BitVec.ofInt 32 (x.2 * 0x123)⟩

/-- Different players of the list have different serial numbers. -/
def Serials (w : Server Roster) : Prop := (w.loop.players.list.map Player.sernum).Nodup

/-- If a client is accepted, no player of the list joined when as many players were there. -/
def JoinsFresh (w : Server Roster) : ServerLabel Unit → Prop
  | .loop (.accept (some _) _) => ∀ x ∈ joins w.trace, x.2 ≠ (joins w.trace).length + 1
  | _ => True

instance (w : Server Roster) : (l : ServerLabel Unit) → Decidable (JoinsFresh w l)
  | .loop (.accept (some _) _) =>
    inferInstanceAs (Decidable (∀ x ∈ joins w.trace, x.2 ≠ (joins w.trace).length + 1))
  | .loop (.accept none _) | .loop .stop | .loop (.select _) | .loop .next | .loop (.recv _ _)
  | .others _ => .isTrue trivial

/-- The list of the players is that of the events, and no serial number overflowed. -/
structure Joined (w : Server Roster) : Prop where
  list : w.loop.players.list = (joins w.trace).map joinedPlayer
  count : w.loop.players.playerCount = (joins w.trace).length
  range : ∀ x ∈ joins w.trace, (x.2 : Int) * 0x123 ≤ intMax

theorem Empty.joined (h : w.Empty) : Joined w := by
  obtain ⟨⟨-, ht, -⟩, hp⟩ := h
  constructor <;> simp [hp, ht, Roster.empty, joins]

theorem joins_concat (tr : List Event) (e : Event) :
    joins (tr ++ [e]) =
      match e with
      | .accepted fd => joins tr ++ [(fd, (joins tr).length + 1)]
      | .disconnected fd => (joins tr).eraseP (·.1 = fd)
      | _ => joins tr := by
  cases e <;> simp [joins]

/-- A client that joins as the `n`-th player, and one that leaves. -/
theorem Joined.step {l : ServerLabel Unit} (h : Joined w)
    (hst : (sys Roster.ops fdSetSize).step w l w') : Joined w' := by
  obtain ⟨o, rfl, ho, rfl⟩ | ⟨a, loop, e, rfl, hadm, hs, rfl⟩ := step_cases hst
  · exact ⟨h.list, h.count, h.range⟩
  cases hs with
  | stop | select | skip | done | refuse =>
    exact ⟨by simpa using h.list, by simpa using h.count, by simpa using h.range⟩
  | accept i readFds fd x players hpc hr hl hfd hp =>
    obtain ⟨⟨-, -, hmax⟩, rfl⟩ := Roster.connect_eq_ok.mp hp
    have hj := joins_concat w.trace (.accepted fd)
    refine ⟨?_, ?_, ?_⟩
    · simp [hj, h.list, h.count, joinedPlayer]
    · simp [hj, h.count]
    · simp only [Option.toList_some, hj]
      rintro x hx
      rcases List.mem_append.mp hx with hx | hx
      · exact h.range x hx
      · obtain rfl := List.mem_singleton.mp hx
        rw [h.count] at hmax
        simpa using hmax
  | eof i readFds x players hpc hr hl hp =>
    obtain ⟨hlist, hcount⟩ := Roster.removePlayer_list hp
    have hj := joins_concat w.trace (.disconnected i)
    have hlist' : players.list = ((joins w.trace).eraseP (·.1 = i)).map joinedPlayer := by
      rw [hlist, h.list, List.eraseP_map]
      refine congrArg (fun q => ((joins w.trace).eraseP q).map joinedPlayer) (funext fun x => ?_)
      exact decide_eq_decide.mpr Int.ofNat_inj
    refine ⟨?_, ?_, ?_⟩
    · simp only [Option.toList_some, hj, hlist']
    · have := hcount (by rw [h.count, h.list, List.length_map])
      simp only [Option.toList_some, hj]
      rw [this, hlist', List.length_map]
    · simp only [Option.toList_some, hj]
      exact fun x hx => h.range x (List.mem_of_mem_eraseP hx)
  | error i readFds x hpc hr hl =>
    have hj := joins_concat w.trace (.failed i)
    exact ⟨by simpa [hj] using h.list, by simpa [hj] using h.count, by simpa [hj] using h.range⟩
  | data i readFds x c hpc hr hl =>
    have hj := joins_concat w.trace
      (.received i c (recvInto c w.loop.buffer) (if isMix (recvInto c w.loop.buffer) then []
        else ServerLoop.relay i c.bytes w.loop))
    exact ⟨by simpa [hj] using h.list, by simpa [hj] using h.count, by simpa [hj] using h.range⟩

/-- Only an accepted client comes to the players that the events give. -/
theorem joins_step {l : ServerLabel Unit} (hst : (sys Roster.ops fdSetSize).step w l w') :
    match l with
    | .loop (.accept (some fd) _) =>
      joins w'.trace = joins w.trace ++ [(fd, (joins w.trace).length + 1)]
    | _ => (joins w'.trace).Sublist (joins w.trace) := by
  obtain ⟨o, rfl, ho, rfl⟩ | ⟨a, loop, e, rfl, hadm, hs, rfl⟩ := step_cases hst
  · exact List.Sublist.refl _
  cases hs with
  | stop | select | skip | done | refuse => simp
  | accept => exact joins_concat _ _
  | eof i =>
    simp only [Option.toList_some, joins_concat]
    exact List.eraseP_sublist
  | error | data =>
    simp only [Option.toList_some, joins_concat]
    exact List.Sublist.refl _

/-- Without overflow different factors give different serial numbers. -/
theorem sernum_inj {a b : ℕ} (ha : (a : Int) * 0x123 ≤ intMax) (hb : (b : Int) * 0x123 ≤ intMax) :
    BitVec.ofInt 32 (a * 0x123) = BitVec.ofInt 32 (b * 0x123) ↔ a = b := by
  refine ⟨fun h => ?_, by rintro rfl; rfl⟩
  have h := congrArg BitVec.toInt h
  unfold intMax at ha hb
  rw [BitVec.toInt_ofInt, BitVec.toInt_ofInt, Int.bmod_eq_of_le (by omega) (by omega),
    Int.bmod_eq_of_le (by omega) (by omega)] at h
  omega

/-- The serial numbers differ iff the players joined at different numbers of players. -/
theorem Joined.serials_iff_joins (h : Joined w) :
    Serials w ↔ ((joins w.trace).map Prod.snd).Nodup := by
  rw [Serials, h.list, List.map_map, List.Nodup, List.Nodup, List.pairwise_map, List.pairwise_map]
  refine List.Pairwise.iff_of_mem fun {x y} hx hy => not_congr ?_
  exact sernum_inj (h.range x hx) (h.range y hy)

/-- **Serial numbers.** Along a run the serial numbers differ in every state exactly as long as no
client joins as the `n`-th player while a player is there that joined as the `n`-th one. -/
theorem serials_iff {p : List (ServerLabel Unit × Server Roster)} (h₀ : w₀.Empty)
    (h : (sys Roster.ops fdSetSize).Run w₀ p) :
    (∀ x ∈ p, Serials x.2) ↔ Lts.AllSteps JoinsFresh w₀ p := by
  refine h.always_iff (I := fun w => Joined w ∧ ((joins w.trace).map Prod.snd).Nodup)
    ⟨h₀.joined, ?_⟩ (fun w l w' hi hg hst => ?_) (fun w hi => hi.1.serials_iff_joins.mpr hi.2)
    fun w l w' hi hg hst => ?_
  · obtain ⟨⟨-, ht, -⟩, -⟩ := h₀
    simp [ht, joins]
  · refine ⟨hi.1.step hst, ?_⟩
    have hj := joins_step hst
    split at hj
    · rename_i fd x
      rw [hj, List.map_append, List.nodup_append]
      refine ⟨hi.2, List.nodup_singleton _, fun k hk k' hk' => ?_⟩
      obtain rfl := List.mem_singleton.mp hk'
      obtain ⟨y, hy, rfl⟩ := List.mem_map.mp hk
      exact hg y hy
    · exact hi.2.sublist (hj.map _)
  · rw [(hi.1.step hst).serials_iff_joins]
    have hj := joins_step hst
    obtain ⟨fd, x, rfl⟩ : ∃ fd x, l = .loop (.accept (some fd) x) := by
      unfold JoinsFresh at hg
      split at hg
      · exact ⟨_, _, rfl⟩
      · exact absurd trivial hg
    simp only [JoinsFresh, not_forall, not_not] at hg
    obtain ⟨y, hy, hyk⟩ := hg
    intro hnd
    dsimp only at hj
    rw [hj, List.map_append, List.nodup_append] at hnd
    exact hnd.2.2 y.2 (List.mem_map_of_mem hy) _ (List.mem_singleton_self _) hyk

/-! ### A third client joins after one of two has left, or both -/

/-- The clients `1` and `2` join, the clients `left` leave, and a client `3` joins. -/
def rejoin (left : List ℕ) : List (ServerLabel Unit) :=
  twoClients ++ left.flatMap (fun i => round 2 i (.recv .eof ())) ++
    round 3 0 (.accept (some 3) ())

def rejoinRun (left : List ℕ) : List (ServerLabel Unit × Server Roster) :=
  (Lts.path Admits (step Roster.ops 1024) fresh (rejoin left)).getD []

/-- The first one leaves, and then the other one. -/
theorem serials_both_left : (sys Roster.ops 1024).Run fresh (rejoinRun [1, 2]) ∧
    ∀ x ∈ rejoinRun [1, 2], Serials x.2 :=
  have h : (sys Roster.ops 1024).Run fresh (rejoinRun [1, 2]) := Lts.run_of_path (rejoin [1, 2]) rfl
  ⟨h, (serials_iff fresh_empty h).mpr (by decide)⟩

/-- The first one leaves: the client `3` gets the serial number of the client `2`. -/
theorem not_serials_first_left : fresh.Empty ∧ (sys Roster.ops 1024).Run fresh (rejoinRun [1]) ∧
    ((rejoinRun [1]).getLast?.map fun x => x.2.loop.players.list) =
      some [⟨2, 0x246⟩, ⟨3, 0x246⟩] ∧ ¬ ∀ x ∈ rejoinRun [1], Serials x.2 := by
  refine ⟨fresh_empty, Lts.run_of_path (rejoin [1]) rfl, by decide, fun h => ?_⟩
  have hs := h ((rejoinRun [1]).getLast (by decide)) (List.getLast_mem _)
  exact absurd hs (by unfold Serials; decide)

end Server

end LwMix
