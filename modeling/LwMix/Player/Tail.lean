import LwMix.Player.Runs

/-!
# The tail pointer of the player list

`removePlayer` does not move `end_player_list` back when it removes the last of several players.

* `consistent_iff`: head, tail pointer, counter and chain stay in step along a run exactly as long as
  no `removePlayer` removes the last of several players.
* `refines_iff`: the walk of the `'Q'` handler meets the abstract list along a run exactly as long as
  every `addPlayer` finds `end_player_list` at the last node (or no player).
* `InvTail.defined`: from a consistent state every call has defined behaviour, up to the range of the
  counter.
-/

namespace LwMix

open Heap (Malloc)

/-! ## The tail pointer -/

/-- The call `removePlayer(s)` on the list `l` removes the last of several players. -/
def RemovesTail (s : Int) (l : List (ℕ × Player)) : Prop :=
  2 ≤ l.length ∧ l.findIdx (·.2.socket = s) = l.length - 1

theorem removesTail_iff {s : Int} {l : List (ℕ × Player)} : RemovesTail s l ↔
    ∃ pre x, pre ≠ [] ∧ l = pre ++ [x] ∧ x.2.socket = s ∧ ∀ y ∈ pre, y.2.socket ≠ s := by
  constructor
  · rintro ⟨hlen, hidx⟩
    obtain ⟨pre, x, rfl⟩ := (List.eq_nil_or_concat' l).resolve_left (by rintro rfl; simp at hlen)
    have hlt : (pre ++ [x]).findIdx (·.2.socket = s) < (pre ++ [x]).length := by
      rw [hidx]
      omega
    have hx := List.findIdx_getElem (w := hlt)
    simp only [hidx, List.length_append, List.length_singleton, Nat.add_sub_cancel,
      List.getElem_concat_length, decide_eq_true_eq] at hx
    refine ⟨pre, x, fun h => by simp [h] at hlen, rfl, hx, fun y hy hys => ?_⟩
    have hpre : pre.findIdx (·.2.socket = s) < pre.length :=
      List.findIdx_lt_length_of_exists ⟨y, hy, by simpa using hys⟩
    rw [List.findIdx_append, if_pos hpre, List.length_append, List.length_singleton] at hidx
    omega
  · rintro ⟨pre, x, hne, rfl, hx, hpre⟩
    have hnone : pre.findIdx (·.2.socket = s) = pre.length :=
      List.findIdx_eq_length.mpr fun y hy => by simpa using hpre y hy
    have hpos := List.length_pos_iff.mpr hne
    refine ⟨by simp; omega, ?_⟩
    rw [List.findIdx_append, hnone]
    simp [hx, List.findIdx_cons]

instance (s : Int) (l : List (ℕ × Player)) : Decidable (RemovesTail s l) := by
  unfold RemovesTail
  infer_instance

/-- The call does not remove the last of several players. -/
def KeepsTail (w : World) : Call → Prop
  | .removePlayer s => ¬ RemovesTail s w.abs.list
  | _ => True

instance (w : World) : (c : Call) → Decidable (KeepsTail w c)
  | .removePlayer s => inferInstanceAs (Decidable (¬ RemovesTail s w.abs.list))
  | .createPlayer _ _ | .addPlayer _ _ | .writeSernum _ _ => .isTrue trivial

section Tail

variable {w w' : World} {es : List Entry} {s : Int}

theorem TailOk.of_info {es' : List Entry} (ht : TailOk w es)
    (hn : es'.map Entry.node = es.map Entry.node) (hi : w'.mem.info = w.mem.info) :
    TailOk w' es' := by
  simpa only [TailOk, hn, hi] using ht

/-- A removal elsewhere leaves the last node, or no node. -/
theorem getLast?_eraseP (hk : ¬ RemovesTail s (es.map Entry.pair)) :
    ∀ z ∈ ((es.eraseP (·.data.socket = s)).map Entry.node).getLast?,
      z ∈ (es.map Entry.node).getLast? := by
  intro z hz
  by_cases hex : ∃ e ∈ es, e.data.socket = s
  · obtain ⟨e, pre, post, hpre, he, rfl, herase⟩ := exists_first hex
    rw [herase] at hz
    rcases List.eq_nil_or_concat' post with rfl | ⟨post, y, rfl⟩
    · by_cases hp : pre = []
      · simp [hp] at hz
      · refine absurd (removesTail_iff.mpr ⟨pre.map Entry.pair, e.pair, by simpa using hp, by simp,
          he, ?_⟩) hk
        simpa [Entry.pair] using hpre
    · simpa [List.getLast?_append, List.getLast?_cons] using hz
  · rwa [List.eraseP_of_forall_not fun e he => by simpa using fun h => hex ⟨e, he, h⟩] at hz

/-- After a removal of the last of several players the list is not empty, and `end_player_list` is
the freed node. -/
theorem RemovesTail.split (h : RemovesTail s (es.map Entry.pair)) :
    ∃ pre e, pre ≠ [] ∧ es = pre ++ [e] ∧ es.eraseP (·.data.socket = s) = pre := by
  obtain ⟨pre', x, hne, hl, hx, hpre⟩ := removesTail_iff.mp h
  obtain ⟨pre, ys, rfl, rfl, hys⟩ := List.map_eq_append_iff.mp hl
  obtain ⟨e, rfl, rfl⟩ := List.map_eq_singleton_iff.mp hys
  refine ⟨pre, e, by simpa using hne, rfl, ?_⟩
  have hpre' : ∀ y ∈ pre, ¬ decide (y.data.socket = s) = true := fun y hy => by
    simpa [Entry.pair] using hpre y.pair (List.mem_map_of_mem hy)
  rw [List.eraseP_append_right _ hpre', List.eraseP_cons_of_pos (by simpa [Entry.pair] using hx)]
  simp

end Tail

/-! ## Head, tail pointer, counter and chain -/

/-- The list is a finite chain of live nodes, and the counter and the tail pointer agree with it. -/
def Consistent (m : Mem) : Prop :=
  ∃ ns, Seg (nextOf m.heap) m.info.playerList ns 0 ∧ ns.Nodup ∧
    m.info.playerCount = ns.length ∧
    (∀ z ∈ ns.getLast?, m.info.endPlayerList = z) ∧
    ∀ a, a ∈ ns ∨ (m.info.playerCount ≠ 0 ∧ a = m.info.endPlayerList) →
      ∃ n, m.heap.cells a = some (.node n)

section Consistent

variable {w w' : World} {es : List Entry} {c : Call}

theorem Rep.consistent (hr : Rep w es) (ht : TailOk w es) : Consistent w.mem := by
  refine ⟨es.map Entry.node, hr.chain.seg, hr.chain.nodup, by simpa using hr.count,
    fun z hz => (ht z hz).symm, fun a ha => ?_⟩
  have hmem : a ∈ es.map Entry.node := by
    rcases ha with ha | ⟨h0, rfl⟩
    · exact ha
    · rcases List.eq_nil_or_concat' es with rfl | ⟨pre, z, rfl⟩
      · exact absurd hr.count h0
      · rw [← ht z.node (by simp)]
        simp
  obtain ⟨e, he, rfl⟩ := List.mem_map.mp hmem
  obtain ⟨⟨nx, hn⟩, -⟩ := hr.chain.live e he
  exact ⟨_, hn⟩

/-- A tail pointer that is not the last node is not consistent. -/
theorem Rep.not_consistent (hr : Rep w es) (hne : ¬ TailOk w es) : ¬ Consistent w.mem := by
  rintro ⟨ns, hs, -, -, htail, -⟩
  obtain rfl := hs.unique hr.chain.seg (nextOf_null _)
  exact hne fun z hz => (htail z hz).symm

/-- The state of a consistent list. -/
def InvTail (w : World) : Prop := ∃ es, Rep w es ∧ TailOk w es

theorem InvTail.step (hi : InvTail w) (hg : KeepsTail w c) (hst : players.step w c w') :
    InvTail w' := by
  obtain ⟨es, hr, ht⟩ := hi
  obtain ⟨hadm, ⟨fuel, h⟩, ha⟩ := hst
  cases c with
  | createPlayer s new =>
    obtain ⟨⟨a, m⟩, h, hm⟩ := bind_eq_ok.mp h
    obtain rfl := pure_eq_ok.mp hm
    obtain ⟨hr', hinfo, -⟩ := hr.createPlayer h ha
    exact ⟨es, hr', ht.of_info rfl hinfo⟩
  | addPlayer p new =>
    obtain ⟨e, hr', ht'⟩ := hr.addPlayer ht hadm h ha
    exact ⟨_, hr', ht'⟩
  | writeSernum p v =>
    obtain ⟨⟨es', hr', hn⟩, hinfo, -⟩ := hr.writeSernum h hadm ha
    exact ⟨es', hr', ht.of_info hn hinfo⟩
  | removePlayer s =>
    obtain ⟨hr', hend, -⟩ := hr.removePlayer h ha
    refine ⟨_, hr', fun z hz => ?_⟩
    rw [hend]
    exact ht z (getLast?_eraseP (by simpa only [KeepsTail, hr.list] using hg) z hz)

theorem InvTail.step_not (hi : InvTail w) (hg : ¬ KeepsTail w c) (hst : players.step w c w') :
    ¬ Consistent w'.mem := by
  obtain ⟨es, hr, ht⟩ := hi
  obtain ⟨-, ⟨fuel, h⟩, ha⟩ := hst
  obtain ⟨s, rfl, hrem⟩ : ∃ s, c = .removePlayer s ∧ RemovesTail s w.abs.list := by
    cases c with
    | removePlayer s => exact ⟨s, rfl, Decidable.not_not.mp hg⟩
    | _ => exact absurd trivial hg
  obtain ⟨hr', hend, -⟩ := hr.removePlayer h ha
  rw [hr.list] at hrem
  obtain ⟨pre, e, hne, rfl, herase⟩ := hrem.split
  rw [herase] at hr'
  refine hr'.not_consistent fun ht' => ?_
  obtain ⟨pre, z, rfl⟩ := (List.eq_nil_or_concat' pre).resolve_left hne
  have hz := ht' z.node (by simp)
  have he := ht e.node (by simp)
  rw [hend, ← he] at hz
  have hnd : (((pre ++ [z]) ++ e :: []).map Entry.node).Nodup := hr.chain.nodup
  exact ne_of_nodup_map hnd z (by simp) hz

/-- **The list, its tail pointer and its counter along a run.** From the empty server they stay in
step exactly as long as no `removePlayer` removes the last of several players. -/
theorem consistent_iff {p : List (Call × World)} (h₀ : w.Initial) (h : players.Run w p) :
    (∀ x ∈ p, Consistent x.2.mem) ↔ Lts.AllSteps KeepsTail w p :=
  h.always_iff (I := InvTail) ⟨[], Rep.initial h₀, by simp [TailOk]⟩
    (fun _ _ _ hi hg hst => hi.step hg hst) (fun _ ⟨_, hr, ht⟩ => hr.consistent ht)
    fun _ _ _ hi hg hst => hi.step_not hg hst

/-- What `malloc` can return, and the range of the counter. -/
def Call.Possible (m : Mem) : Call → Prop
  | .createPlayer _ new => new.addr ≠ 0 ∧ m.heap.cells new.addr = none
  | .addPlayer _ new =>
    (new.addr ≠ 0 ∧ m.heap.cells new.addr = none) ∧ m.info.playerCount < intMax
  | _ => True

/-- **Calls are defined.** While the list is consistent, every call that the caller may make and that
`malloc` can serve returns, with no access to a block that is not live. -/
theorem InvTail.defined (hi : InvTail w) (hadm : w.abs.Admits c) (hc : c.Possible w.mem) :
    ∃ w', players.step w c w' := by
  obtain ⟨es, hr, ht⟩ := hi
  suffices h : ∃ fuel m, w.mem.call fuel c = .ok m by
    obtain ⟨fuel, m, hm⟩ := h
    exact ⟨⟨m, w.abs.step c⟩, hadm, ⟨fuel, hm⟩, rfl⟩
  cases c with
  | createPlayer s new =>
    exact ⟨0, _, bind_eq_ok.mpr ⟨(new.addr, _), Rep.createPlayer_eq_ok.mpr ⟨hc, rfl, rfl⟩, rfl⟩⟩
  | addPlayer p new =>
    obtain ⟨hfresh, hcount⟩ := hc
    have hrange : intMin ≤ w.mem.info.playerCount + 1 ∧ w.mem.info.playerCount + 1 ≤ intMax := by
      have := hr.count
      simp only [intMin, intMax] at *
      omega
    obtain ⟨m₁, hl⟩ : ∃ m₁, linkNode new w.mem = .ok m₁ := by
      by_cases h0 : w.mem.info.playerCount = 0
      · exact ⟨_, linkNode_eq_ok.mpr ⟨hfresh, .inl ⟨h0, rfl⟩⟩⟩
      · obtain ⟨pre, z, rfl⟩ := (List.eq_nil_or_concat' es).resolve_left (by
          rintro rfl
          exact h0 hr.count)
        obtain ⟨⟨nx, hn⟩, -⟩ := hr.chain.live z (by simp)
        rw [ht z.node (by simp)] at hn
        exact ⟨_, linkNode_eq_ok.mpr ⟨hfresh, .inr (.inl ⟨h0, _, hn, rfl⟩)⟩⟩
    exact ⟨0, _, (addPlayer_of_link hl).mpr ⟨hrange, rfl⟩⟩
  | writeSernum p v =>
    obtain ⟨x, hx, rfl⟩ := hadm
    exact ⟨0, _, Mem.modifyPlayer_eq_ok.mpr ⟨x.2, hr.player_live hx, rfl⟩⟩
  | removePlayer s =>
    by_cases hex : ∃ e ∈ es, e.data.socket = s
    · obtain ⟨e, pre, post, hpre, he, rfl, -⟩ := exists_first hex
      obtain ⟨m', hm', -⟩ := removePlayer_found hr.chain hr.nodup_players hpre he (by
        have := hr.count
        have := hr.bound
        simp only [List.length_append, List.length_cons, intMin, intMax] at *
        omega) (Nat.le_refl _)
      exact ⟨_, m', hm'⟩
    · exact ⟨_, _, removePlayer_absent hr.chain (fun e he hs => hex ⟨e, he, hs⟩) (Nat.le_refl _)⟩

end Consistent

/-! ### Two players join, and one leaves -/

/-- The empty server. -/
def World.empty : World := ⟨⟨.empty, .blank⟩, ⟨[], []⟩⟩

theorem World.empty_initial : World.empty.Initial := ⟨rfl, rfl, rfl⟩

/-- Two players join on the descriptors `5` and `6`, and the one on `s` leaves. -/
def joinTwo (s : Int) : List Call :=
  [.createPlayer 5 ⟨1, default⟩, .addPlayer 1 ⟨2, default⟩,
    .createPlayer 6 ⟨3, default⟩, .addPlayer 3 ⟨4, default⟩, .removePlayer s]

def afterJoinTwo (s : Int) : List (Call × World) := (World.empty.calls 9 (joinTwo s)).getD []

/-- The first of the two leaves. -/
theorem consistent_first_leaves : players.Run .empty (afterJoinTwo 5) ∧
    ∀ x ∈ afterJoinTwo 5, Consistent x.2.mem :=
  have h : players.Run .empty (afterJoinTwo 5) := World.run_of_calls 9 (joinTwo 5) rfl
  ⟨h, (consistent_iff World.empty_initial h).mpr (by decide)⟩

/-- The second of the two leaves: `end_player_list` still points to its freed node. -/
theorem not_consistent_last_leaves : World.empty.Initial ∧ players.Run .empty (afterJoinTwo 6) ∧
    ¬ ∀ x ∈ afterJoinTwo 6, Consistent x.2.mem := by
  refine ⟨World.empty_initial, World.run_of_calls 9 (joinTwo 6) rfl, fun h => ?_⟩
  obtain ⟨ns, -, -, -, -, hlive⟩ := h ((afterJoinTwo 6).getLast (by decide)) (List.getLast_mem _)
  obtain ⟨n, hn⟩ := hlive 4 (.inr ⟨by decide, by decide⟩)
  have : ((afterJoinTwo 6).getLast (by decide)).2.mem.heap.cells 4 = none := by decide
  rw [this] at hn
  cases hn

/-! ## The walk and the abstract list -/

/-- The walk of the `'Q'` handler meets the players of the abstract list, in order. -/
def Refines (w : World) : Prop := ∃ fuel, playersOf w.mem fuel = .ok w.abs.list

/-- `addPlayer` is called when the list is empty or `end_player_list` is a live node. -/
def AddsAtNode (w : World) : Call → Prop
  | .addPlayer _ _ => w.mem.info.playerList = 0 ∨ (w.mem.node w.mem.info.endPlayerList).isOk
  | _ => True

instance (w : World) : (c : Call) → Decidable (AddsAtNode w c)
  | .addPlayer _ _ => inferInstanceAs
    (Decidable (w.mem.info.playerList = 0 ∨ (w.mem.node w.mem.info.endPlayerList).isOk = true))
  | .createPlayer _ _ | .removePlayer _ | .writeSernum _ _ => .isTrue trivial

section Refines

variable {w w' : World} {es : List Entry} {c : Call}

theorem Rep.refines (hr : Rep w es) : Refines w := (playersOf_iff hr.chain).mpr hr.list

/-- The list is right, and `end_player_list` is its last node, or no node. -/
def InvWalk (w : World) : Prop := ∃ es, Rep w es ∧ (TailOk w es ∨ TailStale w)

/-- `end_player_list` stays stale while no node is allocated. -/
theorem TailStale.of_nodes (ht : TailStale w)
    (hend : w'.mem.info.endPlayerList = w.mem.info.endPlayerList)
    (hn : ∀ x q, w'.mem.heap.cells x = some (.node q) → ∃ q', w.mem.heap.cells x = some (.node q')) :
    TailStale w' := by
  intro q hq
  rw [hend] at hq
  obtain ⟨q', hq'⟩ := hn _ q hq
  exact ht q' hq'

theorem Rep.tailOk_of_null (hr : Rep w es) (h0 : w.mem.info.playerList = 0) : TailOk w es := by
  obtain rfl := hr.chain.hd_eq_null_iff.mp h0
  simp [TailOk]

theorem InvWalk.step (hi : InvWalk w) (hg : AddsAtNode w c) (hst : players.step w c w') :
    InvWalk w' := by
  obtain ⟨es, hr, ht⟩ := hi
  obtain ⟨hadm, ⟨fuel, h⟩, ha⟩ := hst
  cases c with
  | createPlayer s new =>
    obtain ⟨⟨a, m⟩, h, hm⟩ := bind_eq_ok.mp h
    obtain rfl := pure_eq_ok.mp hm
    obtain ⟨hr', hinfo, hn⟩ := hr.createPlayer h ha
    exact ⟨es, hr', ht.imp (·.of_info rfl hinfo) (·.of_nodes (by rw [hinfo])
      fun x q hx => ⟨q, hn x q hx⟩)⟩
  | addPlayer p new =>
    have ht : TailOk w es := by
      rcases ht with ht | ht
      · exact ht
      rcases hg with h0 | hok
      · exact hr.tailOk_of_null h0
      · obtain ⟨q, hq⟩ := Mem.node_isOk.mp hok
        exact absurd hq (ht q)
    obtain ⟨e, hr', ht'⟩ := hr.addPlayer ht hadm h ha
    exact ⟨_, hr', .inl ht'⟩
  | writeSernum p v =>
    obtain ⟨⟨es', hr', hes⟩, hinfo, hn⟩ := hr.writeSernum h hadm ha
    exact ⟨es', hr', ht.imp (·.of_info hes hinfo) (·.of_nodes (by rw [hinfo])
      fun x q hx => ⟨q, hn x q hx⟩)⟩
  | removePlayer s =>
    obtain ⟨hr', hend, hn, hfreed⟩ := hr.removePlayer h ha
    refine ⟨_, hr', ?_⟩
    rcases ht with ht | ht
    · by_cases hrem : RemovesTail s (es.map Entry.pair)
      · -- The last node is freed, and `end_player_list` stays there.
        right
        obtain ⟨pre, e, -, rfl, herase⟩ := hrem.split
        have he := hfreed e (by simp) (by
          rw [herase]
          intro hmem
          obtain ⟨x, hx, hxe⟩ := List.mem_map.mp hmem
          exact ne_of_nodup_map hr.chain.nodup x (by simpa using hx) hxe)
        intro q hq
        rw [hend, ← ht e.node (by simp), he] at hq
        cases hq
      · left
        intro z hz
        rw [hend]
        exact ht z (getLast?_eraseP hrem z hz)
    · exact .inr (ht.of_nodes hend hn)

theorem InvWalk.step_not (hi : InvWalk w) (hg : ¬ AddsAtNode w c) (hst : players.step w c w') :
    ¬ Refines w' := by
  obtain ⟨es, hr, ht⟩ := hi
  obtain ⟨hadm, ⟨fuel, h⟩, ha⟩ := hst
  obtain ⟨p, new, rfl⟩ : ∃ p new, c = .addPlayer p new := by
    cases c with
    | addPlayer p new => exact ⟨p, new, rfl⟩
    | _ => exact absurd trivial hg
  simp only [AddsAtNode, not_or] at hg
  obtain ⟨x, -, -, hfind, -⟩ := hr.held_split hadm
  have hlist : w'.abs.list = w.abs.list ++ [x] := by simp [ha, Abs.step, hfind]
  have h0 : w.mem.info.playerCount ≠ 0 := by
    rw [hr.count]
    intro h0
    have : es = [] := by simpa using h0
    exact hg.1 (hr.chain.hd_eq_null_iff.mpr this)
  obtain ⟨hf, hinfo, ⟨q, hq, -⟩ | ⟨-, hheap⟩⟩ := addPlayer_next h0 h
  · exact absurd (Mem.node_isOk.mpr ⟨q, hq⟩) hg.2
  · -- `malloc` returned the freed node: it is not linked, and the walk meets the old players.
    have hne : ∀ {a b}, w.mem.heap.cells a = some b → w'.mem.heap.cells a = w.mem.heap.cells a :=
      fun {a b} hab => by rw [hheap, Heap.put_ne (w.mem.heap.ne_of_cells (by simp [hab, hf.2]))]
    have hc : Chain w'.mem.heap w'.mem.info.playerList es := by
      rw [show w'.mem.info.playerList = w.mem.info.playerList by simp [hinfo]]
      refine hr.chain.congr (fun e he => ?_) fun e he => hne (hr.chain.live e he).2
      obtain ⟨⟨nx, hn⟩, -⟩ := hr.chain.live e he
      exact hne hn
    intro hw
    have := (playersOf_iff hc).mp hw
    rw [hlist, hr.list] at this
    simpa [Entry.pair] using congrArg List.length this

/-- **The walk along a run.** From the empty server the walk meets the abstract list in every state
exactly as long as no `addPlayer` is called while the list has players and `end_player_list` is a
freed node. -/
theorem refines_iff {p : List (Call × World)} (h₀ : w.Initial) (h : players.Run w p) :
    (∀ x ∈ p, Refines x.2) ↔ Lts.AllSteps AddsAtNode w p :=
  h.always_iff (I := InvWalk) ⟨[], Rep.initial h₀, .inl (by simp [TailOk])⟩
    (fun _ _ _ hi hg hst => hi.step hg hst) (fun _ ⟨_, hr, _⟩ => hr.refines)
    fun _ _ _ hi hg hst => hi.step_not hg hst

end Refines

/-! ### A third player joins -/

/-- After one of the two has left, a third player joins on the descriptor `s'`, and `malloc` returns
the address `a` for its node. -/
def rejoin (s : Int) (a : ℕ) : List Call :=
  joinTwo s ++ [.createPlayer 7 ⟨5, default⟩, .addPlayer 5 ⟨a, default⟩]

def afterRejoin (s : Int) (a : ℕ) : List (Call × World) := (World.empty.calls 9 (rejoin s a)).getD []

/-- The first of the two has left. -/
theorem refines_first_leaves : players.Run .empty (afterRejoin 5 2) ∧
    ∀ x ∈ afterRejoin 5 2, Refines x.2 :=
  have h : players.Run .empty (afterRejoin 5 2) := World.run_of_calls 9 (rejoin 5 2) rfl
  ⟨h, (refines_iff World.empty_initial h).mpr (by decide)⟩

/-- The second of the two has left, and `malloc` returns its freed node: the third player is not met
by the walk. -/
theorem not_refines_last_leaves : World.empty.Initial ∧ players.Run .empty (afterRejoin 6 4) ∧
    ¬ ∀ x ∈ afterRejoin 6 4, Refines x.2 := by
  refine ⟨World.empty_initial, World.run_of_calls 9 (rejoin 6 4) rfl, fun h => ?_⟩
  have hc : Chain ((afterRejoin 6 4).getLast (by decide)).2.mem.heap 2 [⟨2, 1, 5, 0x0⟩] :=
    Chain.cons_iff.mpr ⟨rfl, rfl, 0, rfl, Chain.nil_iff.mpr rfl⟩
  have hw := (playersOf_iff hc).mp
    (h ((afterRejoin 6 4).getLast (by decide)) (List.getLast_mem _))
  exact absurd hw (by decide)

end LwMix
