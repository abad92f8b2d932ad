import LwMix.Player.Chain

/-!
# `removePlayer` on a player list

* `Removed`: what a call leaves when an entry has the socket.
* `removePlayer_spec`: a call ends within one iteration more than the list has entries, and removes
  the first entry with the socket, or nothing. If an entry is found, the counter is decremented and
  must not be `INT_MIN`.
* `removePlayer_overflow`: with `INT_MIN` and a found entry there is no defined result.
-/

namespace LwMix

variable {m m' : Mem} {socket : Int} {fuel : ℕ} {e : Entry} {es : List Entry}

/-- The entry `e` of the list `es` is removed: its two blocks are freed, and no other one. -/
structure Removed (m m' : Mem) (es : List Entry) (socket : Int) (e : Entry) : Prop where
  first : es.find? (·.data.socket = socket) = some e
  chain : Chain m'.heap m'.info.playerList (es.eraseP (·.data.socket = socket))
  wasLive : e.Live m.heap
  freed : ∀ x, (m'.heap.cells x).isSome ↔ (m.heap.cells x).isSome ∧ x ≠ e.node ∧ x ≠ e.player
  unreachable : ∀ x ∈ es.eraseP (·.data.socket = socket),
    x.node ≠ e.node ∧ x.node ≠ e.player ∧ x.player ≠ e.node ∧ x.player ≠ e.player
  info : ∃ hd, m'.info = { m.info with playerList := hd, playerCount := m.info.playerCount - 1 }

theorem Unlinked.removed {pre post : List Entry} (hu : Unlinked m m' pre e post)
    (hc : Chain m.heap m.info.playerList (pre ++ e :: post))
    (hnd : ((pre ++ e :: post).map Entry.player).Nodup)
    (hpre : ∀ x ∈ pre, x.data.socket ≠ socket) (he : e.data.socket = socket) :
    Removed m m' (pre ++ e :: post) socket e := by
  have herase : (pre ++ e :: post).eraseP (·.data.socket = socket) = pre ++ post := by
    rw [List.eraseP_append_right _ (by simpa using hpre),
      List.eraseP_cons_of_pos (by simpa using he)]
  have hmem : e ∈ pre ++ e :: post := by simp
  refine ⟨?_, herase ▸ hu.chain, hc.live e hmem, fun x => ?_, fun x hx => ?_, hu.info⟩
  · rw [List.find?_append, List.find?_eq_none.mpr (by simpa using hpre)]
    simp [he]
  · rcases eq_or_ne x e.node with rfl | hn
    · simp [hu.node]
    · rcases eq_or_ne x e.player with rfl | hp
      · simp [hu.player]
      · rw [hu.live x hn hp]
        simp [hn, hp]
  · -- An entry that stays is an entry of the list, at other addresses.
    rw [herase] at hx
    have hx' : x ∈ pre ++ e :: post := by
      grind
    exact ⟨ne_of_nodup_map hc.nodup x hx, hc.node_ne_player hx' hmem,
      (hc.node_ne_player hmem hx').symm, ne_of_nodup_map hnd x hx⟩

/-- **`removePlayer`.** A call ends, and accesses and frees live blocks only. If some entry has the
socket, the first such entry is removed. Otherwise nothing changes. -/
theorem removePlayer_spec (socket : Int) (hc : Chain m.heap m.info.playerList es)
    (hnd : (es.map Entry.player).Nodup)
    (hint : intMin ≤ m.info.playerCount ∧ m.info.playerCount ≤ intMax)
    (hcount : (∃ e ∈ es, e.data.socket = socket) → m.info.playerCount ≠ intMin) :
    ∃ m', (∀ fuel, es.length + 1 ≤ fuel → removePlayer socket fuel m = .ok m') ∧
      ((∃ e ∈ es, e.data.socket = socket) → ∃ e, Removed m m' es socket e) ∧
      ((∀ e ∈ es, e.data.socket ≠ socket) → m' = m) := by
  by_cases hex : ∃ e ∈ es, e.data.socket = socket
  · obtain ⟨e, pre, post, hpre, he, rfl, -⟩ := exists_first hex
    have hlen : (pre ++ e :: post).length = pre.length + post.length + 1 := by simp; omega
    have hne := hcount hex
    have hrange : intMin ≤ m.info.playerCount + -1 ∧ m.info.playerCount + -1 ≤ intMax := by omega
    obtain ⟨m', hrun, hu⟩ := removePlayer_found hc hnd hpre he hrange (Nat.le_refl _)
    refine ⟨m', fun fuel hf => ?_, fun _ => ⟨e, hu.removed hc hnd hpre he⟩, fun habs => ?_⟩
    · obtain ⟨k, rfl⟩ : ∃ k, fuel = pre.length + 2 + k := ⟨fuel - (pre.length + 2), by omega⟩
      exact removePlayer_mono hrun k
    · exact absurd he (habs e (by simp))
  · have habs : ∀ e ∈ es, e.data.socket ≠ socket := fun e he hs => hex ⟨e, he, hs⟩
    exact ⟨m, fun fuel hf => removePlayer_absent hc habs hf, fun h => absurd h hex, fun _ => rfl⟩

/-- The decrement of `INT_MIN` is undefined. -/
theorem removePlayer_overflow (hc : Chain m.heap m.info.playerList es)
    (hex : ∃ e ∈ es, e.data.socket = socket) (hmin : m.info.playerCount = intMin) :
    removePlayer socket fuel m ≠ .ok m' := by
  intro hrun
  obtain ⟨e, pre, post, hpre, he, rfl, -⟩ := exists_first hex
  have hhd : m.info.playerList ≠ 0 := fun h0 => by simpa using hc.hd_eq_null_iff.mp h0
  have hp := (hc.live e (by simp)).2
  obtain ⟨-, nx, hn, -⟩ := hc.append_cons
  -- With more fuel, the search ends at `e`.
  have hfound : searchLoop socket m (fuel + (pre.length + 2)) ⟨0, m.info.playerList, 0⟩ =
      .ok ⟨lastNode 0 pre, e.node, e.player⟩ := searchLoop_found hc hpre he (by omega)
  have hrun := removePlayer_mono hrun (pre.length + 2)
  rw [removePlayer, if_neg hhd, hfound] at hrun
  simp only [bind, Except.bind, ne_eq, m.heap.ne_null hp, not_false_eq_true, ↓reduceIte] at hrun
  obtain ⟨m₁, hd, hm₁, hinfo, -⟩ := unlinkNode_ok hc hn e.player
  obtain ⟨m₂, h₂, hrun⟩ := bind_eq_ok.mp hrun
  rw [hm₁] at h₂
  obtain rfl := Except.ok.inj h₂
  obtain ⟨m₃, h₃, hrun⟩ := bind_eq_ok.mp hrun
  obtain ⟨m₄, h₄, hrun⟩ := bind_eq_ok.mp hrun
  have hcount : m₄.info.playerCount = intMin := by
    rw [Mem.free_info h₄, Mem.free_info h₃, hinfo, ← hmin]
  have hrange := (Mem.addPlayerCount_eq_ok.mp hrun).1.1
  omega

/-- The second of three entries, with the sockets 5, 6 and 6, is removed. -/
theorem removePlayer_spec_three : ∃ m m' es e, Chain m.heap m.info.playerList es ∧
    es.map Entry.data = [⟨5, 1⟩, ⟨6, 2⟩, ⟨6, 3⟩] ∧ removePlayer 6 4 m = .ok m' ∧
      Removed m m' es 6 e := by
  obtain ⟨h, hd, es, hc, hes, hnd, -⟩ := exists_chain [⟨5, 1⟩, ⟨6, 2⟩, ⟨6, 3⟩]
  let m : Mem := ⟨h, { ServInfo.blank with playerList := hd, playerCount := 3 }⟩
  have hm : Chain m.heap m.info.playerList es := hc
  have hint : intMin ≤ m.info.playerCount ∧ m.info.playerCount ≤ intMax :=
    ⟨show intMin ≤ 3 by decide, show 3 ≤ intMax by decide⟩
  have hne : m.info.playerCount ≠ intMin := show (3 : Int) ≠ intMin by decide
  obtain ⟨m', hrun, hfound, -⟩ := removePlayer_spec 6 hm hnd hint fun _ => hne
  have hlen : es.length = 3 := by simpa using congrArg List.length hes
  have hmem : ⟨6, 2⟩ ∈ es.map Entry.data := by simp [hes]
  obtain ⟨x, hx, hdata⟩ := List.mem_map.mp hmem
  obtain ⟨e, he⟩ := hfound ⟨x, hx, by rw [hdata]⟩
  exact ⟨m, m', es, e, hm, hes, hrun 4 (by omega), he⟩

/-- One entry, and the counter `INT_MIN`: no call returns. -/
theorem removePlayer_intMin : ∃ m es, Chain m.heap m.info.playerList es ∧
    es.map Entry.data = [⟨5, 1⟩] ∧ (es.map Entry.player).Nodup ∧ m.info.playerCount = intMin ∧
      ∀ fuel m', removePlayer 5 fuel m ≠ .ok m' := by
  obtain ⟨h, hd, es, hc, hes, hnd, -⟩ := exists_chain [⟨5, 1⟩]
  let m : Mem := ⟨h, { ServInfo.blank with playerList := hd, playerCount := intMin }⟩
  have hm : Chain m.heap m.info.playerList es := hc
  have hmem : ⟨5, 1⟩ ∈ es.map Entry.data := by simp [hes]
  obtain ⟨x, hx, hdata⟩ := List.mem_map.mp hmem
  exact ⟨m, es, hm, hes, hnd, rfl, fun fuel m' =>
    removePlayer_overflow hm ⟨x, hx, by rw [hdata]⟩ rfl⟩

end LwMix
