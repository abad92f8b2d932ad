import LwMix.Player.Tail

/-!
# The blocks of `player.c`

* `World.blocks`: the nodes and players of the list, and the players that the caller holds.
* `Accounts F w`: these blocks are new, and the rest of the heap is as in `F`.
* `Accounts.step`: every call that keeps the tail pointer right keeps this.
* `blocks_of_run`: so along a run no block leaks, none is freed twice, and no other one is touched.
-/

namespace LwMix

open Heap (Malloc)

/-- The blocks of the list and of the held players. -/
def World.blocks (w : World) (es : List Entry) : List ℕ :=
  es.map Entry.node ++ (w.abs.list ++ w.abs.held).map Prod.fst

/-- The blocks of the program were free in `F`, and every other block is as in `F`. -/
def Accounts (F : ℕ → Option Block) (w : World) : Prop :=
  ∃ es, Rep w es ∧ TailOk w es ∧ (∀ a ∈ w.blocks es, F a = none) ∧
    ∀ a, a ∉ w.blocks es → w.mem.heap.cells a = F a

variable {w w' : World} {es es' : List Entry} {F : ℕ → Option Block} {c : Call}

theorem World.mem_blocks {a : ℕ} : a ∈ w.blocks es ↔
    (∃ e ∈ es, e.node = a) ∨ (∃ x ∈ w.abs.list, x.1 = a) ∨ ∃ x ∈ w.abs.held, x.1 = a := by
  unfold World.blocks
  rw [List.map_append, List.mem_append, List.mem_append, List.mem_map, List.mem_map, List.mem_map]

/-- The blocks are live, and no two of them are the same. -/
theorem Rep.blocks_live (hr : Rep w es) : ∀ a ∈ w.blocks es, w.mem.heap.cells a ≠ none := by
  intro a ha
  rcases World.mem_blocks.mp ha with ⟨e, he, rfl⟩ | ⟨x, hx, rfl⟩ | ⟨x, hx, rfl⟩
  · obtain ⟨⟨nx, hn⟩, -⟩ := hr.chain.live e he
    rw [hn]
    exact Option.some_ne_none _
  · rw [hr.player_live hx]
    exact Option.some_ne_none _
  · rw [hr.held x hx]
    exact Option.some_ne_none _

theorem Rep.blocks_nodup (hr : Rep w es) : (w.blocks es).Nodup := by
  refine List.nodup_append.mpr ⟨hr.chain.nodup, hr.nodup, ?_⟩
  rintro a ha b hb rfl
  obtain ⟨e, he, rfl⟩ := List.mem_map.mp ha
  obtain ⟨x, hx, hxe⟩ := List.mem_map.mp hb
  obtain ⟨⟨nx, hn⟩, -⟩ := hr.chain.live e he
  have hplayer : w.mem.heap.cells x.1 = some (.player x.2) := by
    rcases List.mem_append.mp hx with hx | hx
    · exact hr.player_live hx
    · exact hr.held x hx
  rw [hxe, hn] at hplayer
  cases hplayer

/-- A call takes free blocks, gives blocks back, and touches no other block. -/
theorem Accounts.of_frame (hF : ∀ a ∈ w.blocks es, F a = none)
    (hrest : ∀ a, a ∉ w.blocks es → w.mem.heap.cells a = F a) (hr' : Rep w' es')
    (ht' : TailOk w' es')
    (hnew : ∀ a ∈ w'.blocks es', a ∉ w.blocks es → w.mem.heap.cells a = none)
    (hframe : ∀ a, a ∉ w.blocks es → a ∉ w'.blocks es' →
      w'.mem.heap.cells a = w.mem.heap.cells a)
    (hfreed : ∀ a ∈ w.blocks es, a ∉ w'.blocks es' → w'.mem.heap.cells a = none) :
    Accounts F w' := by
  refine ⟨es', hr', ht', fun a ha => ?_, fun a ha => ?_⟩
  · by_cases hmem : a ∈ w.blocks es
    · exact hF a hmem
    · rw [← hrest a hmem]
      exact hnew a ha hmem
  · by_cases hmem : a ∈ w.blocks es
    · rw [hfreed a hmem ha, hF a hmem]
    · rw [hframe a hmem ha, hrest a hmem]

/-- Nothing is given back if the blocks are those of before and one that was free. -/
theorem Accounts.of_alloc {new : ℕ} (hF : ∀ a ∈ w.blocks es, F a = none)
    (hrest : ∀ a, a ∉ w.blocks es → w.mem.heap.cells a = F a) (hr' : Rep w' es')
    (ht' : TailOk w' es') (hfree : w.mem.heap.cells new = none)
    (hblocks : ∀ a, a ∈ w'.blocks es' ↔ a ∈ w.blocks es ∨ a = new)
    (hframe : ∀ a, a ∉ w.blocks es → a ≠ new → w'.mem.heap.cells a = w.mem.heap.cells a) :
    Accounts F w' := by
  refine Accounts.of_frame hF hrest hr' ht' (fun a ha hnot => ?_) (fun a hnot ha => ?_)
    fun a hmem ha => absurd ((hblocks a).mpr (.inl hmem)) ha
  · rw [((hblocks a).mp ha).resolve_left hnot]
    exact hfree
  · exact hframe a hnot fun heq => ha ((hblocks a).mpr (.inr heq))

/-- What `addPlayer` writes: the new node, and the node at `end_player_list`. -/
theorem addPlayer_frame {p : ℕ} {new : Malloc PlayerNode} {m m' : Mem}
    (h : LwMix.addPlayer p new m = .ok m') :
    m.heap.cells new.addr = none ∧ m'.info.endPlayerList = new.addr ∧
      ∀ a, a ≠ new.addr → (m.info.playerCount ≠ 0 → a ≠ m.info.endPlayerList) →
        m'.heap.cells a = m.heap.cells a := by
  by_cases h0 : m.info.playerCount = 0
  · obtain ⟨hf, rfl⟩ := addPlayer_first h0 h
    exact ⟨hf.2, rfl, fun a ha _ => Heap.put_ne ha⟩
  · obtain ⟨hf, hinfo, hcase⟩ := addPlayer_next h0 h
    refine ⟨hf.2, by simp [hinfo], fun a ha ha' => ?_⟩
    obtain ⟨q, -, hheap⟩ | ⟨-, hheap⟩ := hcase
    · rw [hheap, Heap.put_ne ha, Heap.put_ne (ha' h0)]
    · rw [hheap, Heap.put_ne ha]

/-- `removePlayer` unlinks an entry and frees its blocks, or changes nothing. -/
theorem Rep.removePlayer_cases (hr : Rep w es) {s : Int} {fuel : ℕ} {m : Mem}
    (h : LwMix.removePlayer s fuel w.mem = .ok m) :
    (∃ pre e post, es = pre ++ e :: post ∧ es.eraseP (·.data.socket = s) = pre ++ post ∧
        Unlinked w.mem m pre e post) ∨
      es.eraseP (·.data.socket = s) = es ∧ m = w.mem := by
  by_cases hex : ∃ e ∈ es, e.data.socket = s
  · obtain ⟨e, pre, post, hpre, he, rfl, herase⟩ := exists_first hex
    have hrange : intMin ≤ w.mem.info.playerCount + -1 ∧ w.mem.info.playerCount + -1 ≤ intMax := by
      have hbound := hr.bound
      rw [hr.count] at hbound ⊢
      simp only [intMin, intMax] at *
      omega
    obtain ⟨m', hm', hu⟩ := removePlayer_found hr.chain hr.nodup_players hpre he hrange
      (show pre.length + 2 ≤ fuel + (pre.length + 2) by omega)
    obtain rfl : m = m' := Except.ok.inj ((removePlayer_mono h _).symm.trans hm')
    exact .inl ⟨pre, e, post, rfl, herase, hu⟩
  · simp only [not_exists, not_and] at hex
    have hm := removePlayer_absent hr.chain hex
      (show es.length + 1 ≤ fuel + (es.length + 1) by omega)
    refine .inr ⟨List.eraseP_of_forall_not fun e he => by simpa using hex e he, ?_⟩
    exact Except.ok.inj ((removePlayer_mono h _).symm.trans hm)

/-- **One call.** -/
theorem Accounts.step (hi : Accounts F w) (hg : KeepsTail w c) (hst : players.step w c w') :
    Accounts F w' := by
  obtain ⟨es, hr, ht, hF, hrest⟩ := hi
  obtain ⟨hadm, ⟨fuel, h⟩, ha⟩ := hst
  cases c with
  | createPlayer s new =>
    obtain ⟨⟨a, m⟩, h, hm⟩ := bind_eq_ok.mp h
    obtain rfl := pure_eq_ok.mp hm
    obtain ⟨hr', hinfo, -⟩ := hr.createPlayer h ha
    obtain ⟨hf, -, hmem⟩ := Rep.createPlayer_eq_ok.mp h
    refine .of_alloc hF hrest hr' (ht.of_info rfl hinfo) hf.2 (fun a => ?_) fun a _ hne => ?_
    · rw [World.mem_blocks, World.mem_blocks, ha]
      simp only [Abs.step, List.mem_append, List.mem_singleton, or_and_right, exists_or,
        exists_eq_left, or_assoc, eq_comm]
    · rw [hmem, Mem.put_heap, Heap.put_ne hne]
  | addPlayer p new =>
    obtain ⟨e, hr', ht'⟩ := hr.addPlayer ht hadm h ha
    obtain ⟨x, hx, rfl, hfind, -⟩ := hr.held_split hadm
    obtain ⟨hfree, hend, hframe⟩ := addPlayer_frame h
    have hnode : e.node = new.addr := by
      rw [← hend]
      exact ht' e.node (by simp)
    refine .of_alloc hF hrest hr' ht' hfree (fun a => ?_) fun a hnot hne => ?_
    · rw [World.mem_blocks, World.mem_blocks, ha]
      simp only [Abs.step, hfind, Option.toList_some, List.mem_append, List.mem_singleton,
        List.mem_filter, or_and_right, exists_or, exists_eq_left, hnode]
      constructor
      · rintro ((h | h) | (h | h) | ⟨y, ⟨hy, -⟩, h⟩)
        · exact .inl (.inl h)
        · exact .inr h.symm
        · exact .inl (.inr (.inl h))
        · exact .inl (.inr (.inr ⟨x, hx, h⟩))
        · exact .inl (.inr (.inr ⟨y, hy, h⟩))
      · rintro ((h | h | ⟨y, hy, h⟩) | h)
        · exact .inl (.inl h)
        · exact .inr (.inl (.inl h))
        · by_cases hyx : y.1 = x.1
          · exact .inr (.inl (.inr (hyx ▸ h)))
          · exact .inr (.inr ⟨y, ⟨hy, by simpa using hyx⟩, h⟩)
        · exact .inl (.inr h.symm)
    · refine hframe a hne fun h0 heq => hnot ?_
      -- `end_player_list` is the last node
      obtain ⟨pre, z, rfl⟩ := (List.eq_nil_or_concat' es).resolve_left (by
        rintro rfl
        exact h0 hr.count)
      rw [heq, ← ht z.node (by simp)]
      exact World.mem_blocks.mpr (.inl ⟨z, by simp, rfl⟩)
  | writeSernum p v =>
    obtain ⟨⟨es', hr', hn⟩, hinfo, -⟩ := hr.writeSernum h hadm ha
    obtain ⟨pl, -, hmem⟩ := Mem.modifyPlayer_eq_ok.mp h
    have hblocks : w'.blocks es' = w.blocks es := by
      have hfst : (w.abs.list.map fun x => if x.1 = p then (x.1, { x.2 with sernum := v }) else
          x).map Prod.fst = w.abs.list.map Prod.fst := by
        rw [List.map_map]
        refine List.map_congr_left fun x _ => ?_
        simp only [Function.comp_apply]
        split <;> rfl
      unfold World.blocks
      rw [hn, List.map_append, List.map_append, ha]
      simp only [Abs.step, hfst]
    refine .of_frame hF hrest hr' (ht.of_info hn hinfo) ?_ ?_ ?_
    · exact fun a ha' hnot => absurd (hblocks ▸ ha') hnot
    · intro a hnot _
      have hne : a ≠ p := by
        rintro rfl
        exact hnot (World.mem_blocks.mpr (.inr (.inl hadm)))
      rw [hmem, Mem.put_heap, Heap.put_ne hne]
    · exact fun a hmem hnot => absurd (hblocks ▸ hmem) hnot
  | removePlayer s =>
    have hi' := InvTail.step ⟨es, hr, ht⟩ hg ⟨hadm, ⟨fuel, h⟩, ha⟩
    obtain ⟨hr', hend, -⟩ := hr.removePlayer h ha
    have ht' : TailOk w' (es.eraseP (·.data.socket = s)) := by
      obtain ⟨es', hr'', ht''⟩ := hi'
      intro z hz
      have hnodes : es'.map Entry.node = (es.eraseP (·.data.socket = s)).map Entry.node :=
        hr''.chain.seg.unique hr'.chain.seg (nextOf_null _)
      exact ht'' z (hnodes ▸ hz)
    have hlist := hr'.list
    have hheld : w'.abs.held = w.abs.held := by rw [ha, Abs.step]
    obtain ⟨pre, e, post, rfl, herase, hu⟩ | ⟨herase, hmem⟩ := hr.removePlayer_cases h
    · rw [herase] at hr' ht' hlist
      refine .of_frame hF hrest hr' ht' (fun a ha' hnot => absurd ?_ hnot) (fun a hnot _ => ?_) ?_
      · rw [World.mem_blocks] at ha' ⊢
        rw [hlist, hheld] at ha'
        rw [hr.list]
        simp only [List.mem_append, List.mem_cons, List.mem_map] at ha' ⊢
        grind
      · rw [World.mem_blocks, hr.list] at hnot
        refine hu.frame a ?_ ?_ ?_
        · rintro rfl
          exact hnot (.inl ⟨e, by simp, rfl⟩)
        · rintro rfl
          exact hnot (.inr (.inl ⟨e.pair, by simp, rfl⟩))
        · rintro q hq rfl
          exact hnot (.inl ⟨q, by simp [List.mem_of_getLast? hq], rfl⟩)
      · intro a hmem hnot
        have hcases : a = e.node ∨ a = e.player := by
          rw [World.mem_blocks] at hmem hnot
          rw [hlist, hheld] at hnot
          rw [hr.list] at hmem
          simp only [List.mem_append, List.mem_cons, List.mem_map] at hmem hnot
          simp only [Entry.pair] at hmem hnot
          grind
        rcases hcases with rfl | rfl
        · exact hu.node
        · exact hu.player
    · rw [herase] at hr' ht' hlist
      have hblocks : w'.blocks es = w.blocks es := by
        unfold World.blocks
        rw [hlist, hheld, hr.list]
      refine .of_frame hF hrest hr' ht' ?_ ?_ ?_
      · exact fun a ha' hnot => absurd (hblocks ▸ ha') hnot
      · exact fun a _ _ => by rw [hmem]
      · exact fun a hmem hnot => absurd (hblocks ▸ hmem) hnot

theorem Accounts.initial (h : w.Initial) : Accounts w.mem.heap.cells w :=
  ⟨[], Rep.initial h, by simp [TailOk], by simp [World.blocks, h.abs], fun _ _ => rfl⟩

/-- **The heap along a run.** As long as no call removes the last of several players, the program has
two blocks for each player of the list and one for each held player, all of them different and all
new; every other block is as it was at the start. -/
theorem blocks_of_run {p : List (Call × World)} (h₀ : w.Initial) (h : players.Run w p)
    (hg : Lts.AllSteps KeepsTail w p) : ∀ x ∈ p, ∃ blocks : List ℕ, blocks.Nodup ∧
      blocks.length = 2 * x.2.abs.list.length + x.2.abs.held.length ∧
      (∀ a ∈ blocks, w.mem.heap.cells a = none ∧ x.2.mem.heap.cells a ≠ none) ∧
      ∀ a, a ∉ blocks → x.2.mem.heap.cells a = w.mem.heap.cells a := by
  intro x hx
  obtain ⟨es, hr, -, hF, hrest⟩ := h.always (Accounts.initial h₀)
    (fun _ _ _ hi hg hst => hi.step hg hst) hg x hx
  refine ⟨x.2.blocks es, hr.blocks_nodup, ?_, fun a ha => ⟨hF a ha, hr.blocks_live a ha⟩, hrest⟩
  have hlen : x.2.abs.list.length = es.length := by rw [hr.list, List.length_map]
  simp only [World.blocks, List.length_append, List.length_map, hlen]
  omega

/-- The first of two players leaves: two blocks are left. -/
theorem blocks_of_run_first_leaves : ∃ x ∈ afterJoinTwo 5, x.1 = .removePlayer 5 ∧
    ∃ blocks : List ℕ, blocks.Nodup ∧ blocks.length = 2 ∧
      (∀ a ∈ blocks, x.2.mem.heap.cells a ≠ none) ∧
      ∀ a, a ∉ blocks → x.2.mem.heap.cells a = World.empty.mem.heap.cells a := by
  have hx : (afterJoinTwo 5).getLast (by decide) ∈ afterJoinTwo 5 := List.getLast_mem _
  obtain ⟨blocks, hnd, hlen, hlive, hrest⟩ :=
    blocks_of_run World.empty_initial (World.run_of_calls 9 (joinTwo 5) rfl) (by decide) _ hx
  exact ⟨_, hx, rfl, blocks, hnd, hlen.trans (by decide), fun a ha => (hlive a ha).2, hrest⟩

end LwMix
