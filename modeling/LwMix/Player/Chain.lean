import LwMix.Base.Seg
import LwMix.Player.Ops

/-!
# The player list in the heap

`Chain h hd es`: from `hd`, the `next` pointers lead through the live nodes of the entries `es` to
`NULL`, and each node points to a live player.

* `addPlayer_eq_ok`: what a call of `addPlayer` does, in its three cases: the first player, a live
  `end_player_list`, and an `end_player_list` whose block is not live until `malloc` returns it again.
* `removePlayer_found`, `removePlayer_absent`: what `removePlayer` does to a chain.
-/

namespace LwMix

open Heap (Malloc)

/-- An entry of the list: its node, the player that the node points to, and that player's data. -/
structure Entry where
  node : ℕ
  player : ℕ
  data : Player
  deriving DecidableEq, Repr

/-- The `next` pointer of the node at `a`. -/
def nextOf (h : Heap Block) (a : ℕ) : Option ℕ :=
  match h.cells a with
  | some (.node n) => some n.next
  | _ => none

theorem nextOf_eq_some {h : Heap Block} {a b : ℕ} :
    nextOf h a = some b ↔ ∃ p, h.cells a = some (.node ⟨p, b⟩) := by
  unfold nextOf
  split
  · rename_i n hn
    simp only [hn, Option.some.injEq, Block.node.injEq]
    constructor
    · rintro rfl
      exact ⟨n.player, rfl⟩
    · rintro ⟨p, rfl⟩
      rfl
  · rename_i hn
    simp only [reduceCtorEq, false_iff, not_exists]
    exact fun p hp => hn _ hp

@[simp] theorem nextOf_null (h : Heap Block) : nextOf h 0 = none := by
  simp [nextOf, h.null]

theorem nextOf_put_ne {h : Heap Block} {a x : ℕ} {o : Option Block} (hx : x ≠ a) :
    nextOf (h.put a o) x = nextOf h x := by
  simp [nextOf, hx]

/-- The node and the player of an entry are live. -/
def Entry.Live (h : Heap Block) (e : Entry) : Prop :=
  (∃ nx, h.cells e.node = some (.node ⟨e.player, nx⟩)) ∧
    h.cells e.player = some (.player e.data)

/-- A write of the `next` of a node keeps the entries live. -/
theorem Entry.Live.put_next {h : Heap Block} {e : Entry} {a p c nx : ℕ} (he : e.Live h)
    (ha : h.cells a = some (.node ⟨p, c⟩)) : e.Live (h.put a (some (.node ⟨p, nx⟩))) := by
  obtain ⟨⟨c', hn⟩, hp⟩ := he
  constructor
  · rcases eq_or_ne e.node a with heq | hne
    · subst heq
      rw [hn] at ha
      cases ha
      exact ⟨nx, Heap.put_self (h.ne_null hn)⟩
    · exact ⟨c', by rw [Heap.put_ne hne, hn]⟩
  · have hne : e.player ≠ a := h.ne_of_cells (by simp [hp, ha])
    rw [Heap.put_ne hne, hp]

/-- A write elsewhere keeps an entry live. -/
theorem Entry.Live.put_ne {h : Heap Block} {e : Entry} {a : ℕ} {o : Option Block} (he : e.Live h)
    (hn : e.node ≠ a) (hp : e.player ≠ a) : e.Live (h.put a o) := by
  simpa only [Entry.Live, Heap.put_ne hn, Heap.put_ne hp] using he

/-- A key that is nowhere twice differs from the key of every other element. -/
theorem ne_of_nodup_map {α β : Type*} {f : α → β} {a : α} {xs ys : List α}
    (h : ((xs ++ a :: ys).map f).Nodup) : ∀ x ∈ xs ++ ys, f x ≠ f a := by
  rw [List.map_append, List.map_cons, List.nodup_middle, ← List.map_append] at h
  exact fun x hx heq => (List.nodup_cons.mp h).1 (heq ▸ List.mem_map_of_mem hx)

/-- The list from `hd` has the entries `es`. -/
structure Chain (h : Heap Block) (hd : ℕ) (es : List Entry) : Prop where
  seg : Seg (nextOf h) hd (es.map Entry.node) 0
  live : ∀ e ∈ es, e.Live h

namespace Chain

variable {h h' : Heap Block} {hd a : ℕ} {e : Entry} {es pre post : List Entry}

theorem nil_iff : Chain h hd [] ↔ hd = 0 :=
  ⟨fun hc => hc.seg, fun hh => ⟨hh, by simp⟩⟩

/-- The first entry of a list, and the list from its `next`. -/
theorem cons_iff : Chain h hd (e :: es) ↔ hd = e.node ∧
    h.cells e.player = some (.player e.data) ∧
      ∃ nx, h.cells e.node = some (.node ⟨e.player, nx⟩) ∧ Chain h nx es := by
  constructor
  · rintro ⟨⟨rfl, nx, hnx, hs⟩, hl⟩
    obtain ⟨⟨nx', hn⟩, hp⟩ := hl e List.mem_cons_self
    obtain ⟨p, hp'⟩ := nextOf_eq_some.mp hnx
    rw [hn] at hp'
    cases hp'
    exact ⟨rfl, hp, nx, hn, hs, fun x hx => hl x (List.mem_cons_of_mem _ hx)⟩
  · rintro ⟨rfl, hp, nx, hn, hs, hl⟩
    refine ⟨⟨rfl, nx, nextOf_eq_some.mpr ⟨_, hn⟩, hs⟩, fun x hx => ?_⟩
    rcases List.mem_cons.mp hx with rfl | hx
    · exact ⟨⟨nx, hn⟩, hp⟩
    · exact hl x hx

theorem hd_eq_null_iff (hc : Chain h hd es) : hd = 0 ↔ es = [] := by
  cases es with
  | nil => simp [nil_iff.mp hc]
  | cons e es =>
    obtain ⟨rfl, -, nx, hn, -⟩ := cons_iff.mp hc
    simp [h.ne_null hn]

theorem nodup (hc : Chain h hd es) : (es.map Entry.node).Nodup := hc.seg.nodup (nextOf_null h)

/-- A node is not a player. -/
theorem node_ne_player {e' : Entry} (hc : Chain h hd es) (he : e ∈ es) (he' : e' ∈ es) :
    e.node ≠ e'.player := by
  obtain ⟨⟨nx, hn⟩, -⟩ := hc.live e he
  exact h.ne_of_cells (by simp [hn, (hc.live e' he').2])

/-- A heap with the same blocks at the addresses of the entries has the same list. -/
theorem congr (hc : Chain h hd es) (hn : ∀ e ∈ es, h'.cells e.node = h.cells e.node)
    (hp : ∀ e ∈ es, h'.cells e.player = h.cells e.player) : Chain h' hd es := by
  refine ⟨hc.seg.congr fun n hm => ?_, fun e he => ?_⟩
  · obtain ⟨e, he, rfl⟩ := List.mem_map.mp hm
    simp only [nextOf, hn e he]
  · obtain ⟨hl, hp'⟩ := hc.live e he
    exact ⟨by simpa only [hn e he] using hl, by rw [hp e he]; exact hp'⟩

/-- A list splits at every entry: the part before it is a segment to its node. -/
theorem append_cons (hc : Chain h hd (pre ++ e :: post)) :
    Seg (nextOf h) hd (pre.map Entry.node) e.node ∧
      ∃ nx, h.cells e.node = some (.node ⟨e.player, nx⟩) ∧ Chain h nx post := by
  have hseg := hc.seg
  rw [List.map_append, seg_append] at hseg
  obtain ⟨c, hs, hs'⟩ := hseg
  have hl : Chain h c (e :: post) := ⟨hs', fun x hx => hc.live x (List.mem_append_right _ hx)⟩
  obtain ⟨rfl, -, nx, hn, hpost⟩ := cons_iff.mp hl
  exact ⟨hs, nx, hn, hpost⟩

/-- A new node after the last one: the `next` of the last node and the new node are written. -/
theorem concat {z : Entry} {c p : ℕ} {pl : Player} (hc : Chain h hd (pre ++ [z]))
    (hz : h.cells z.node = some (.node ⟨z.player, c⟩)) (ha : a ≠ 0 ∧ h.cells a = none)
    (hp : h.cells p = some (.player pl)) :
    Chain ((h.put z.node (some (.node ⟨z.player, a⟩))).put a (some (.node ⟨p, 0⟩))) hd
      (pre ++ [z] ++ [⟨a, p, pl⟩]) := by
  have hfresh : ∀ {x b}, h.cells x = some b → x ≠ a := fun hx => h.ne_of_cells (by simp [hx, ha.2])
  obtain ⟨hs, -⟩ := hc.append_cons
  constructor
  · simp only [List.map_append, List.map_cons, List.map_nil]
    refine seg_concat.mpr ⟨seg_concat.mpr ⟨hs.congr fun n hn => ?_, ?_⟩, ?_⟩
    · obtain ⟨x, hx, rfl⟩ := List.mem_map.mp hn
      obtain ⟨⟨cx, hxn⟩, -⟩ := hc.live x (List.mem_append_left _ hx)
      have hne : x.node ≠ z.node := ne_of_nodup_map hc.nodup x (by simpa using hx)
      rw [nextOf_put_ne (hfresh hxn), nextOf_put_ne hne]
    · rw [nextOf_put_ne (hfresh hz)]
      exact nextOf_eq_some.mpr ⟨_, Heap.put_self (h.ne_null hz)⟩
    · exact nextOf_eq_some.mpr ⟨_, Heap.put_self ha.1⟩
  · intro x hx
    rcases List.mem_append.mp hx with hx | hx
    · obtain ⟨⟨cx, hxn⟩, hxp⟩ := hc.live x hx
      exact ((hc.live x hx).put_next hz).put_ne (hfresh hxn) (hfresh hxp)
    · obtain rfl := List.mem_singleton.mp hx
      have hne : p ≠ z.node := h.ne_of_cells (by simp [hp, hz])
      exact ⟨⟨0, Heap.put_self ha.1⟩, by rw [Heap.put_ne (hfresh hp), Heap.put_ne hne, hp]⟩

end Chain

/-! ## `removePlayer` -/

section Remove

variable {m : Mem} {socket : Int} {hd nx prev it fuel : ℕ} {e : Entry} {es pre post : List Entry}

/-- `prev_player` after the entries `pre` are passed. -/
def lastNode (prev : ℕ) (pre : List Entry) : ℕ := (pre.getLast?.map Entry.node).getD prev

theorem lastNode_cons (x : Entry) : lastNode prev (x :: pre) = lastNode x.node pre := by
  cases h : pre.getLast? <;> simp [lastNode, List.getLast?_cons, h]

/-- The loop passes the entries with other sockets. -/
theorem searchLoop_pass (hs : Seg (nextOf m.heap) it (pre.map Entry.node) nx)
    (hl : ∀ x ∈ pre, x.Live m.heap) (hne : ∀ x ∈ pre, x.data.socket ≠ socket) :
    searchLoop socket m (pre.length + fuel) ⟨prev, it, 0⟩ =
      searchLoop socket m fuel ⟨lastNode prev pre, nx, 0⟩ := by
  induction pre generalizing prev it with
  | nil => simp [seg_nil.mp hs, lastNode]
  | cons x pre ih =>
    obtain ⟨rfl, c, hc, hs⟩ := hs
    obtain ⟨⟨c', hn⟩, hp⟩ := hl x List.mem_cons_self
    obtain ⟨p, hn'⟩ := nextOf_eq_some.mp hc
    rw [hn] at hn'
    cases hn'
    have hx := hne x List.mem_cons_self
    have hl' : ∀ y ∈ pre, y.Live m.heap := fun y hy => hl y (List.mem_cons_of_mem _ hy)
    have hne' : ∀ y ∈ pre, y.data.socket ≠ socket := fun y hy => hne y (List.mem_cons_of_mem _ hy)
    rw [lastNode_cons, ← ih hs hl' hne', List.length_cons, Nat.add_right_comm, searchLoop,
      if_pos ⟨m.heap.ne_null hn, rfl⟩, Mem.node_eq_ok.mpr hn]
    simp only [bind, Except.bind, Mem.player_eq_ok.mpr hp, Ne.symm hx, ↓reduceIte]

theorem searchLoop_found (hc : Chain m.heap it (pre ++ e :: post))
    (hpre : ∀ x ∈ pre, x.data.socket ≠ socket) (he : e.data.socket = socket)
    (hf : pre.length + 2 ≤ fuel) :
    searchLoop socket m fuel ⟨prev, it, 0⟩ = .ok ⟨lastNode prev pre, e.node, e.player⟩ := by
  obtain ⟨k, rfl⟩ : ∃ k, fuel = pre.length + (k + 2) := ⟨fuel - (pre.length + 2), by omega⟩
  obtain ⟨hs, nx, hn, -⟩ := hc.append_cons
  have hp := (hc.live e (by simp)).2
  have hpne := m.heap.ne_null hp
  rw [searchLoop_pass hs (fun x hx => hc.live x (List.mem_append_left _ hx)) hpre, searchLoop,
    if_pos ⟨m.heap.ne_null hn, rfl⟩, Mem.node_eq_ok.mpr hn]
  simp only [bind, Except.bind, Mem.player_eq_ok.mpr hp, he, ↓reduceIte, searchLoop, hpne,
    and_false]
  rfl

theorem searchLoop_absent (hc : Chain m.heap it es) (hes : ∀ x ∈ es, x.data.socket ≠ socket)
    (hf : es.length + 1 ≤ fuel) :
    searchLoop socket m fuel ⟨prev, it, 0⟩ = .ok ⟨lastNode prev es, 0, 0⟩ := by
  obtain ⟨k, rfl⟩ : ∃ k, fuel = es.length + (k + 1) := ⟨fuel - (es.length + 1), by omega⟩
  rw [searchLoop_pass hc.seg hc.live hes]
  simp [searchLoop, pure, Except.pure]

/-- More fuel gives the same result. -/
theorem searchLoop_mono {s r : Search} (h : searchLoop socket m fuel s = .ok r) (k : ℕ) :
    searchLoop socket m (fuel + k) s = .ok r := by
  induction fuel generalizing s with
  | zero => cases h
  | succ fuel ih =>
    rw [Nat.add_right_comm, searchLoop]
    rw [searchLoop] at h
    by_cases hc : s.it ≠ 0 ∧ s.found = 0
    · rw [if_pos hc] at h ⊢
      obtain ⟨n, hn, h⟩ := bind_eq_ok.mp h
      obtain ⟨p, hp, h⟩ := bind_eq_ok.mp h
      refine bind_eq_ok.mpr ⟨n, hn, bind_eq_ok.mpr ⟨p, hp, ?_⟩⟩
      by_cases hs : socket = p.socket
      · rw [if_pos hs] at h ⊢
        exact ih h
      · rw [if_neg hs] at h ⊢
        exact ih h
    · rwa [if_neg hc] at h ⊢

theorem removePlayer_mono {m' : Mem} (h : removePlayer socket fuel m = .ok m') (k : ℕ) :
    removePlayer socket (fuel + k) m = .ok m' := by
  unfold removePlayer at h ⊢
  split <;> rename_i hhd
  · simpa [hhd] using h
  · rw [if_neg hhd] at h
    obtain ⟨s, hs, h⟩ := bind_eq_ok.mp h
    exact bind_eq_ok.mpr ⟨s, searchLoop_mono hs k, h⟩

/-- No entry has this socket: nothing changes. -/
theorem removePlayer_absent (hc : Chain m.heap m.info.playerList es)
    (hes : ∀ x ∈ es, x.data.socket ≠ socket) (hf : es.length + 1 ≤ fuel) :
    removePlayer socket fuel m = .ok m := by
  unfold removePlayer
  split
  · rfl
  · simp only [searchLoop_absent hc hes hf, bind, Except.bind, pure, Except.pure]
    simp

/-- The first entry with a socket. -/
theorem exists_first (h : ∃ e ∈ es, e.data.socket = socket) :
    ∃ e pre post, (∀ x ∈ pre, x.data.socket ≠ socket) ∧ e.data.socket = socket ∧
      es = pre ++ e :: post ∧ es.eraseP (·.data.socket = socket) = pre ++ post := by
  obtain ⟨e₀, he₀, hs₀⟩ := h
  obtain ⟨e, pre, post, hpre, he, hes, herase⟩ :=
    List.exists_of_eraseP (p := fun e : Entry => decide (e.data.socket = socket)) he₀
      (by simpa using hs₀)
  exact ⟨e, pre, post, by simpa using hpre, by simpa using he, hes, herase⟩

/-- What `removePlayer` leaves when it removes the entry `e`, which is between `pre` and `post`. -/
structure Unlinked (m m' : Mem) (pre : List Entry) (e : Entry) (post : List Entry) : Prop where
  chain : Chain m'.heap m'.info.playerList (pre ++ post)
  info : ∃ hd, m'.info = { m.info with playerList := hd, playerCount := m.info.playerCount + -1 }
  node : m'.heap.cells e.node = none
  player : m'.heap.cells e.player = none
  frame : ∀ x, x ≠ e.node → x ≠ e.player → (∀ q ∈ pre.getLast?, x ≠ q.node) →
    m'.heap.cells x = m.heap.cells x
  live : ∀ x, x ≠ e.node → x ≠ e.player → ((m'.heap.cells x).isSome ↔ (m.heap.cells x).isSome)

/-- The list skips the entry `e`, and no block is freed yet. -/
theorem unlinkNode_ok (hc : Chain m.heap m.info.playerList (pre ++ e :: post))
    (hn : m.heap.cells e.node = some (.node ⟨e.player, nx⟩)) (found : ℕ) :
    ∃ m₁ hd, unlinkNode ⟨lastNode 0 pre, e.node, found⟩ m = .ok m₁ ∧
      m₁.info = { m.info with playerList := hd } ∧
      Seg (nextOf m₁.heap) hd (pre.map Entry.node) nx ∧
      (∀ x ∈ pre, x.Live m₁.heap) ∧
      (∀ x, (∀ q ∈ pre.getLast?, x ≠ q.node) → m₁.heap.cells x = m.heap.cells x) ∧
      ∀ x, (m₁.heap.cells x).isSome ↔ (m.heap.cells x).isSome := by
  obtain ⟨hs, -⟩ := hc.append_cons
  have hnd := hc.nodup
  rcases List.eq_nil_or_concat' pre with rfl | ⟨pre, q, rfl⟩
  · -- The head: `player_list` becomes its `next`. `free(NULL)` does nothing.
    have hhd : m.info.playerList = e.node := hs
    refine ⟨m.setPlayerList nx, nx, ?_, rfl, seg_nil.mpr rfl, by simp, fun _ _ => rfl,
      fun _ => Iff.rfl⟩
    simp only [unlinkNode, lastNode, List.getLast?_nil, Option.map_none, Option.getD_none,
      ↓reduceIte, bind, Except.bind, hhd, Mem.node_eq_ok.mpr hn, pure, Except.pure]
    split
    · rename_i hnx
      rw [show (m.setPlayerList nx).info.playerList = 0 from hnx]
      rfl
    · rfl
  · -- `q` is the previous entry: its `next` skips `e`.
    simp only [List.map_append, List.map_cons, List.map_nil] at hs hnd ⊢
    obtain ⟨hs', hq⟩ := seg_concat.mp hs
    obtain ⟨⟨c, hqn⟩, -⟩ := hc.live q (by simp)
    have hq0 := m.heap.ne_null hqn
    have hlast : lastNode 0 (pre ++ [q]) = q.node := by simp [lastNode]
    refine ⟨m.put q.node (some (.node ⟨q.player, nx⟩)), _, ?_, rfl, ?_, fun x hx => ?_,
      fun x hx => ?_, fun x => ?_⟩
    · simp only [unlinkNode, hlast, hq0, ↓reduceIte, bind, Except.bind, Mem.node_eq_ok.mpr hn]
      exact Mem.modifyNode_eq_ok.mpr ⟨_, hqn, rfl⟩
    · refine seg_concat.mpr ⟨hs'.congr fun n hmem => nextOf_put_ne fun heq => ?_, ?_⟩
      · subst heq
        rw [List.append_assoc] at hnd
        exact (List.nodup_append.mp hnd).2.2 _ hmem _ (by simp) rfl
      · exact nextOf_eq_some.mpr ⟨q.player, Heap.put_self hq0⟩
    · exact (hc.live x (List.mem_append_left _ hx)).put_next hqn
    · exact Heap.put_ne (hx q (by simp))
    · rcases eq_or_ne x q.node with rfl | hne
      · simp [Heap.put_self hq0, hqn]
      · rw [Mem.put_heap, Heap.put_ne hne]

/-- The first entry with this socket is removed: its node and its player are freed. -/
theorem removePlayer_found (hc : Chain m.heap m.info.playerList (pre ++ e :: post))
    (hnd : ((pre ++ e :: post).map Entry.player).Nodup)
    (hpre : ∀ x ∈ pre, x.data.socket ≠ socket) (he : e.data.socket = socket)
    (hcount : intMin ≤ m.info.playerCount + -1 ∧ m.info.playerCount + -1 ≤ intMax)
    (hf : pre.length + 2 ≤ fuel) :
    ∃ m', removePlayer socket fuel m = .ok m' ∧ Unlinked m m' pre e post := by
  obtain ⟨-, nx, hn, hpost⟩ := hc.append_cons
  have hp := (hc.live e (by simp)).2
  have hhd : m.info.playerList ≠ 0 := fun h0 => by simpa using hc.hd_eq_null_iff.mp h0
  obtain ⟨m₁, hd₁, hm₁, hinfo, hseg, hlive, hframe, hsome⟩ := unlinkNode_ok hc hn e.player
  -- No other entry has the node or the player of `e`, and no node is a player.
  have hnode := ne_of_nodup_map hc.nodup
  have hplayer := ne_of_nodup_map hnd
  have hmem : ∀ x ∈ pre ++ post, x ∈ pre ++ e :: post := by grind
  have hnp : ∀ x ∈ pre ++ post, x.node ≠ e.player := fun x hx =>
    hc.node_ne_player (hmem x hx) (by simp)
  have hpn : ∀ x ∈ pre ++ post, x.player ≠ e.node := fun x hx =>
    (hc.node_ne_player (by simp) (hmem x hx)).symm
  have hlast : ∀ q ∈ pre.getLast?, q ∈ pre := fun q hq => List.mem_of_getLast? hq
  have hn₁ : m₁.heap.cells e.node = some (.node ⟨e.player, nx⟩) := by
    rw [hframe _ fun q hq => (hnode q (List.mem_append_left _ (hlast q hq))).symm, hn]
  have he' : e ∈ pre ++ e :: post := by simp
  have hne : e.player ≠ e.node := (hc.node_ne_player he' he').symm
  have hp₁ : (m₁.put e.node none).heap.cells e.player = some (.player e.data) := by
    rw [Mem.put_heap, Heap.put_ne hne,
      hframe _ fun q hq => (hnp q (List.mem_append_left _ (hlast q hq))).symm, hp]
  have hpne := m.heap.ne_null hp
  refine ⟨{ ((m₁.put e.node none).put e.player none) with
    info := { m₁.info with playerCount := m₁.info.playerCount + -1 } }, ?_, ?_⟩
  · simp only [removePlayer, hhd, ↓reduceIte, searchLoop_found hc hpre he hf, bind, Except.bind,
      hm₁, ne_eq, hpne, not_false_eq_true, Mem.free_of_live hn₁, Mem.free_of_live hp₁]
    refine Mem.addPlayerCount_eq_ok.mpr ⟨?_, rfl⟩
    simpa [hinfo] using hcount
  · -- The blocks that stay are those of `m₁`, which differs from `m` in the previous node only.
    have hcells : ∀ x, x ≠ e.node → x ≠ e.player →
        ((m₁.put e.node none).put e.player none).heap.cells x = m₁.heap.cells x :=
      fun x hxn hxp => by simp [Heap.put_ne hxn, Heap.put_ne hxp]
    have hpost₁ : Chain m₁.heap nx post := by
      refine hpost.congr (fun x hx => hframe _ fun q hq => ?_) fun x hx => hframe _ fun q hq => ?_
      · have := hc.nodup
        rw [List.map_append, List.nodup_append] at this
        exact fun heq => this.2.2 _ (List.mem_map_of_mem (hlast q hq)) _
          (List.mem_map_of_mem (List.mem_cons_of_mem _ hx)) heq.symm
      · exact (hc.node_ne_player (List.mem_append_left _ (hlast q hq))
          (hmem x (List.mem_append_right _ hx))).symm
    have hl₁ : ∀ x ∈ pre ++ post, x.Live m₁.heap := fun x hx =>
      (List.mem_append.mp hx).elim (hlive x) (hpost₁.live x)
    have hseg₁ : Seg (nextOf m₁.heap) hd₁ ((pre ++ post).map Entry.node) 0 := by
      rw [List.map_append]
      exact seg_append.mpr ⟨nx, hseg, hpost₁.seg⟩
    have hchain₁ : Chain m₁.heap hd₁ (pre ++ post) := ⟨hseg₁, hl₁⟩
    refine ⟨?_, ⟨hd₁, by simp [hinfo]⟩, ?_, Heap.put_self hpne, fun x hxn hxp hq => ?_,
      fun x hxn hxp => ?_⟩
    · simp only [hinfo]
      exact hchain₁.congr (fun x hx => hcells _ (hnode x hx) (hnp x hx))
        fun x hx => hcells _ (hpn x hx) (hplayer x hx)
    · simp [Heap.put_ne hne.symm, Heap.put_self (m.heap.ne_null hn)]
    · rw [hcells x hxn hxp, hframe x hq]
    · rw [hcells x hxn hxp, hsome]

end Remove

/-- Every list of players is the list of a heap. -/
theorem exists_chain (ps : List Player) : ∃ (h : Heap Block) (hd : ℕ) (es : List Entry),
    Chain h hd es ∧ es.map Entry.data = ps ∧ (es.map Entry.player).Nodup ∧
      ∀ a, 2 * ps.length < a → h.cells a = none := by
  induction ps with
  | nil => exact ⟨.empty, 0, [], Chain.nil_iff.mpr rfl, rfl, List.nodup_nil, fun _ _ => rfl⟩
  | cons p ps ih =>
    obtain ⟨h, hd, es, hc, hes, hnd, hfree⟩ := ih
    -- The node and the player of `p` come after the blocks of the others.
    let a := 2 * ps.length + 1
    let h' := (h.put a (some (.node ⟨a + 1, hd⟩))).put (a + 1) (some (.player p))
    have hold : ∀ {x b}, h.cells x = some b → h'.cells x = h.cells x := fun {x b} hx => by
      have h₁ : x ≠ a := h.ne_of_cells (by rw [hx, hfree a (by omega)]; simp)
      have h₂ : x ≠ a + 1 := h.ne_of_cells (by rw [hx, hfree (a + 1) (by omega)]; simp)
      simp only [h', Heap.put_ne h₁, Heap.put_ne h₂]
    refine ⟨h', a, ⟨a, a + 1, p⟩ :: es, Chain.cons_iff.mpr ⟨rfl, ?_, hd, ?_, ?_⟩, by simp [hes],
      List.nodup_cons.mpr ⟨fun hm => ?_, hnd⟩, fun x hx => ?_⟩
    · exact Heap.put_self (by omega)
    · simp only [h', Heap.put_ne (show a ≠ a + 1 by omega)]
      exact Heap.put_self (by omega)
    · refine hc.congr (fun e he => ?_) fun e he => hold (hc.live e he).2
      obtain ⟨⟨nx, hn⟩, -⟩ := hc.live e he
      exact hold hn
    · obtain ⟨e, he, heq⟩ := List.mem_map.mp hm
      have hp := (hc.live e he).2
      have heq : e.player = a + 1 := heq
      rw [heq, hfree (a + 1) (by omega)] at hp
      cases hp
    · simp only [List.length_cons] at hx
      simp only [h', Heap.put_ne (show x ≠ a by omega), Heap.put_ne (show x ≠ a + 1 by omega)]
      exact hfree x (by omega)

/-! ## `addPlayer` -/

section Add

variable {m m' m₁ : Mem} {new : Malloc PlayerNode} {p hd : ℕ} {pl : Player} {es : List Entry}

/-- The new node is linked in one of three ways. In the last one `end_player_list` points to a block
that is not live, and `malloc` returns that very block: the node becomes its own `next`. -/
theorem linkNode_eq_ok : linkNode new m = .ok m₁ ↔
    (new.addr ≠ 0 ∧ m.heap.cells new.addr = none) ∧
      (m.info.playerCount = 0 ∧ m₁ =
          ((m.put new.addr (some (.node new.junk))).setPlayerList new.addr).setEndPlayerList
            new.addr ∨
        m.info.playerCount ≠ 0 ∧ (∃ q, m.heap.cells m.info.endPlayerList = some (.node q) ∧ m₁ =
          ((m.put new.addr (some (.node new.junk))).put m.info.endPlayerList
            (some (.node { q with next := new.addr }))).setEndPlayerList new.addr) ∨
        m.info.playerCount ≠ 0 ∧ m.info.endPlayerList = new.addr ∧ m₁ =
          (m.put new.addr (some (.node { new.junk with next := new.addr }))).setEndPlayerList
            new.addr) := by
  unfold linkNode
  split
  · rename_i h0
    simp only [bind_eq_ok, Mem.malloc_eq_ok, pure_eq_ok, h0, ne_eq, not_true_eq_false, true_and,
      false_and, or_false]
    constructor
    · rintro ⟨_, ⟨hf, rfl⟩, rfl⟩
      exact ⟨hf, rfl⟩
    · rintro ⟨hf, rfl⟩
      exact ⟨_, ⟨hf, rfl⟩, rfl⟩
  · rename_i h0
    simp only [bind_eq_ok, Mem.malloc_eq_ok, Mem.modifyNode_eq_ok, Mem.node_eq_ok, pure_eq_ok, h0,
      ne_eq, not_false_eq_true, true_and, false_and, false_or]
    constructor
    · rintro ⟨_, ⟨hf, rfl⟩, _, ⟨q, hq, rfl⟩, e, he, rfl⟩
      refine ⟨hf, ?_⟩
      simp only [Mem.put_info, Mem.put_heap] at hq he ⊢
      rcases eq_or_ne m.info.endPlayerList new.addr with heq | hne
      · right
        rw [heq, Heap.put_self hf.1] at hq
        cases hq
        rw [heq, Heap.put_self hf.1] at he
        cases he
        exact ⟨heq, by simp [heq, Mem.put]⟩
      · left
        rw [Heap.put_ne hne] at hq
        rw [Heap.put_self (m.heap.ne_null hq)] at he
        cases he
        exact ⟨q, hq, rfl⟩
    · rintro ⟨hf, ⟨q, hq, rfl⟩ | ⟨heq, rfl⟩⟩
      · have hne : m.info.endPlayerList ≠ new.addr := m.heap.ne_of_cells (by simp [hq, hf.2])
        refine ⟨_, ⟨hf, rfl⟩, _, ⟨q, ?_, rfl⟩, _, Heap.put_self (m.heap.ne_null hq), rfl⟩
        simp [Heap.put_ne hne, hq]
      · refine ⟨_, ⟨hf, rfl⟩, _, ⟨new.junk, ?_, rfl⟩, { new.junk with next := new.addr }, ?_, ?_⟩
        · simp [heq, Heap.put_self hf.1]
        · simp [heq, Heap.put_self hf.1]
        · simp [heq, Mem.put]

/-- After the link, the new node gets the player and `NULL`, and the counter goes up. -/
theorem addPlayer_of_link (hl : linkNode new m = .ok m₁) :
    addPlayer p new m = .ok m' ↔
      (intMin ≤ m.info.playerCount + 1 ∧ m.info.playerCount + 1 ≤ intMax) ∧
        m' = { m₁.put new.addr (some (.node ⟨p, 0⟩)) with
          info := { m₁.info with playerCount := m.info.playerCount + 1 } } := by
  obtain ⟨hf, hcase⟩ := linkNode_eq_ok.mp hl
  obtain ⟨hend, hcount, q, hq⟩ : m₁.info.endPlayerList = new.addr ∧
      m₁.info.playerCount = m.info.playerCount ∧ ∃ q, m₁.heap.cells new.addr = some (.node q) := by
    rcases hcase with ⟨-, rfl⟩ | ⟨-, q, hq, rfl⟩ | ⟨-, -, rfl⟩
    · exact ⟨rfl, rfl, _, Heap.put_self hf.1⟩
    · have hne : new.addr ≠ m.info.endPlayerList := by
        intro heq
        rw [← heq, hf.2] at hq
        cases hq
      exact ⟨rfl, rfl, new.junk, by simp [Heap.put_ne hne, Heap.put_self hf.1]⟩
    · exact ⟨rfl, rfl, _, Heap.put_self hf.1⟩
  have hput : (m₁.put new.addr (some (.node { q with player := p }))).heap.cells new.addr =
      some (.node { q with player := p }) := Heap.put_self hf.1
  have h₁ : m₁.modifyNode new.addr (fun n => { n with player := p }) =
      .ok (m₁.put new.addr (some (.node { q with player := p }))) :=
    Mem.modifyNode_eq_ok.mpr ⟨q, hq, rfl⟩
  have h₂ : (m₁.put new.addr (some (.node { q with player := p }))).modifyNode new.addr
      (fun n => { n with next := 0 }) = .ok (m₁.put new.addr (some (.node ⟨p, 0⟩))) :=
    Mem.modifyNode_eq_ok.mpr ⟨_, hput, by simp [Mem.put]⟩
  simp only [addPlayer, hl, bind, Except.bind, hend, h₁, Mem.put_info, h₂,
    Mem.addPlayerCount_eq_ok, hcount]

/-- A call that returns did not overflow the counter. -/
theorem addPlayer_range (h : addPlayer p new m = .ok m') : m.info.playerCount + 1 ≤ intMax := by
  obtain ⟨m₁, hl, -⟩ := bind_eq_ok.mp h
  exact ((addPlayer_of_link hl).mp h).1.2

/-- The first player: the new node is the whole list. -/
theorem addPlayer_first (h0 : m.info.playerCount = 0) (h : addPlayer p new m = .ok m') :
    (new.addr ≠ 0 ∧ m.heap.cells new.addr = none) ∧
      m' = { heap := m.heap.put new.addr (some (.node ⟨p, 0⟩)), info := { m.info with
        playerList := new.addr, endPlayerList := new.addr, playerCount := 0 + 1 } } := by
  obtain ⟨m₁, hl, -⟩ := bind_eq_ok.mp h
  obtain ⟨-, rfl⟩ := (addPlayer_of_link hl).mp h
  obtain ⟨hf, ⟨-, rfl⟩ | ⟨hne, -⟩ | ⟨hne, -⟩⟩ := linkNode_eq_ok.mp hl
  · exact ⟨hf, by simp [Mem.put, h0, Mem.setPlayerList, Mem.setEndPlayerList]⟩
  · exact absurd h0 hne
  · exact absurd h0 hne

/-- A later player: through a live `end_player_list`, or through one that `malloc` returns. -/
theorem addPlayer_next (h0 : m.info.playerCount ≠ 0) (h : addPlayer p new m = .ok m') :
    (new.addr ≠ 0 ∧ m.heap.cells new.addr = none) ∧
      m'.info = { m.info with
        endPlayerList := new.addr, playerCount := m.info.playerCount + 1 } ∧
      ((∃ q, m.heap.cells m.info.endPlayerList = some (.node q) ∧
          m'.heap = (m.heap.put m.info.endPlayerList (some (.node { q with next := new.addr }))).put
            new.addr (some (.node ⟨p, 0⟩))) ∨
        m.info.endPlayerList = new.addr ∧ m'.heap = m.heap.put new.addr (some (.node ⟨p, 0⟩))) := by
  obtain ⟨m₁, hl, -⟩ := bind_eq_ok.mp h
  obtain ⟨-, rfl⟩ := (addPlayer_of_link hl).mp h
  obtain ⟨hf, ⟨hc, -⟩ | ⟨-, q, hq, rfl⟩ | ⟨-, heq, rfl⟩⟩ := linkNode_eq_ok.mp hl
  · exact absurd hc h0
  · have hne : new.addr ≠ m.info.endPlayerList := by
      intro heq
      rw [← heq, hf.2] at hq
      cases hq
    exact ⟨hf, rfl, .inl ⟨q, hq, by simp [Heap.put_comm hne]⟩⟩
  · exact ⟨hf, rfl, .inr ⟨heq, by simp⟩⟩

/-- `addPlayer` with a right `end_player_list`: the new entry is the last one of the list. -/
theorem addPlayer_chain (hc : Chain m.heap m.info.playerList es)
    (hcount : m.info.playerCount = es.length)
    (htail : ∀ z ∈ es.getLast?, z.node = m.info.endPlayerList)
    (hp : m.heap.cells p = some (.player pl)) (h : addPlayer p new m = .ok m') :
    Chain m'.heap m'.info.playerList (es ++ [⟨new.addr, p, pl⟩]) ∧
      m'.info.endPlayerList = new.addr ∧ m'.info.playerCount = es.length + 1 ∧
      ∀ a b, m.heap.cells a = some (.player b) → m'.heap.cells a = some (.player b) := by
  rcases List.eq_nil_or_concat' es with rfl | ⟨pre, z, rfl⟩
  · obtain ⟨hf, rfl⟩ := addPlayer_first (by simpa using hcount) h
    have hkeep : ∀ a b, m.heap.cells a = some (.player b) →
        (m.heap.put new.addr (some (.node ⟨p, 0⟩))).cells a = some (.player b) := by
      intro a b ha
      have hne : a ≠ new.addr := m.heap.ne_of_cells (by simp [ha, hf.2])
      rw [Heap.put_ne hne, ha]
    refine ⟨Chain.cons_iff.mpr ⟨rfl, hkeep _ _ hp, 0, Heap.put_self hf.1, Chain.nil_iff.mpr rfl⟩,
      rfl, by simp, hkeep⟩
  · have h0 : m.info.playerCount ≠ 0 := by
      rw [hcount]
      simp
      omega
    have hz := htail z (by simp)
    obtain ⟨hf, hinfo, hcase⟩ := addPlayer_next h0 h
    obtain ⟨⟨c, hzn⟩, -⟩ := hc.live z (by simp)
    have hzne : z.node ≠ new.addr := m.heap.ne_of_cells (by simp [hzn, hf.2])
    obtain ⟨q, hq, hheap⟩ | ⟨heq, -⟩ := hcase
    · rw [← hz] at hq hheap
      rw [hzn] at hq
      cases hq
      have hkeep : ∀ a b, m.heap.cells a = some (.player b) → m'.heap.cells a = some (.player b) := by
        intro a b ha
        have h₁ : a ≠ new.addr := m.heap.ne_of_cells (by simp [ha, hf.2])
        have h₂ : a ≠ z.node := m.heap.ne_of_cells (by simp [ha, hzn])
        rw [hheap, Heap.put_ne h₁, Heap.put_ne h₂, ha]
      have hlist : m'.info.playerList = m.info.playerList := by simp [hinfo]
      refine ⟨?_, by simp [hinfo], by simp [hinfo, hcount], hkeep⟩
      rw [hlist, hheap]
      exact hc.concat hzn hf hp
    · exact absurd (hz.trans heq) hzne

end Add

end LwMix
