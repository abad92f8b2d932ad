import LwMix.Base.Lts
import LwMix.Player.Walk

/-!
# Runs of `player.c`

A run is a sequence of calls: `createPlayer`, `addPlayer` of a player that was created and not added
yet, the caller's write of `sernum`, and `removePlayer`, each with whatever `malloc` can return. The
abstract list `Abs.list` is what the calls mean: `addPlayer` appends, `removePlayer` deletes the
first entry with the socket.

`Rep w es`: the heap list of the state `w` has the entries `es`, and they are the abstract list. Each
call keeps it (`Rep.createPlayer`, `Rep.addPlayer`, `Rep.writeSernum`, `Rep.removePlayer`), with
`addPlayer` only if `end_player_list` is the last node (`TailOk`). Whether it is, is the subject of
`Tail.lean`.
-/

namespace LwMix

open Heap (Malloc)

/-- A call, with what `malloc` returns in it. -/
inductive Call where
  | createPlayer (socket : Int) (new : Malloc Player)
  | addPlayer (p : ℕ) (new : Malloc PlayerNode)
  | writeSernum (p : ℕ) (v : BitVec 32)
  | removePlayer (socket : Int)

/-- The call on the memory. -/
def Mem.call (m : Mem) (fuel : ℕ) : Call → Except Fault Mem
  | .createPlayer s new => do
    let (_, m) ← createPlayer s new m
    pure m
  | .addPlayer p new => addPlayer p new m
  | .writeSernum p v => m.modifyPlayer p fun pl => { pl with sernum := v }
  | .removePlayer s => removePlayer s fuel m

/-- The abstract state: the players that the caller holds, and the list. -/
structure Abs where
  held : List (ℕ × Player)
  list : List (ℕ × Player)
  deriving DecidableEq, Repr

namespace Abs

/-- The meaning of a call. -/
def step (a : Abs) : Call → Abs
  | .createPlayer s new => { a with held := a.held ++ [(new.addr, { new.junk with socket := s })] }
  | .addPlayer p _ =>
    { held := a.held.filter (·.1 ≠ p), list := a.list ++ (a.held.find? (·.1 = p)).toList }
  | .writeSernum p v =>
    { a with list := a.list.map fun x => if x.1 = p then (x.1, { x.2 with sernum := v }) else x }
  | .removePlayer s => { a with list := a.list.eraseP (·.2.socket = s) }

/-- What the caller promises: each created player is added once, and `sernum` is written to players
of the list. -/
def Admits (a : Abs) : Call → Prop
  | .addPlayer p _ => ∃ x ∈ a.held, x.1 = p
  | .writeSernum p _ => ∃ x ∈ a.list, x.1 = p
  | _ => True

instance (a : Abs) (c : Call) : Decidable (a.Admits c) := by
  cases c <;> unfold Admits <;> infer_instance

end Abs

/-- The memory, with the abstract state of the calls so far. -/
structure World where
  mem : Mem
  abs : Abs

/-- The system of the calls. -/
def players : Lts World Call where
  step w c w' := w.abs.Admits c ∧ (∃ fuel, w.mem.call fuel c = .ok w'.mem) ∧ w'.abs = w.abs.step c

/-- The empty server: `end_player_list` and the rest of the heap are arbitrary. -/
structure World.Initial (w : World) : Prop where
  count : w.mem.info.playerCount = 0
  list : w.mem.info.playerList = 0
  abs : w.abs = ⟨[], []⟩

/-- The entry as the abstract list has it. -/
def Entry.pair (e : Entry) : ℕ × Player := (e.player, e.data)

/-- The heap list of `w` has the entries `es`, and they are its abstract list. -/
structure Rep (w : World) (es : List Entry) : Prop where
  chain : Chain w.mem.heap w.mem.info.playerList es
  list : w.abs.list = es.map Entry.pair
  held : ∀ x ∈ w.abs.held, w.mem.heap.cells x.1 = some (.player x.2)
  nodup : ((w.abs.list ++ w.abs.held).map Prod.fst).Nodup
  count : w.mem.info.playerCount = es.length
  bound : w.mem.info.playerCount ≤ intMax

/-- One call with a given fuel. -/
def World.call (fuel : ℕ) (w : World) (c : Call) : Except Fault World := do
  let m ← w.mem.call fuel c
  pure ⟨m, w.abs.step c⟩

/-- The calls `cs` one after the other, evaluated. -/
def World.calls (fuel : ℕ) : World → List Call → Option (List (Call × World)) :=
  Lts.path (fun w c => w.abs.Admits c) (World.call fuel)

theorem World.run_of_calls {w : World} {p : List (Call × World)} (fuel : ℕ) (cs : List Call)
    (h : w.calls fuel cs = some p) : players.Run w p := by
  refine (Lts.run_of_path cs h).mono fun w c w' hst => ?_
  obtain ⟨hadm, hc⟩ := Lts.ofStep_step.mp hst
  obtain ⟨m, hm, hw⟩ := bind_eq_ok.mp hc
  obtain rfl := pure_eq_ok.mp hw
  exact ⟨hadm, ⟨fuel, hm⟩, rfl⟩

/-- `end_player_list` is the last node. -/
def TailOk (w : World) (es : List Entry) : Prop :=
  ∀ z ∈ (es.map Entry.node).getLast?, z = w.mem.info.endPlayerList

/-- `end_player_list` points to no live node. -/
def TailStale (w : World) : Prop := ∀ q, w.mem.heap.cells w.mem.info.endPlayerList ≠ some (.node q)

namespace Rep

variable {w w' : World} {es : List Entry}

theorem initial (h : w.Initial) : Rep w [] where
  chain := Chain.nil_iff.mpr h.list
  list := by simp [h.abs]
  held := by simp [h.abs]
  nodup := by simp [h.abs]
  count := by simp [h.count]
  bound := by rw [h.count]; decide

/-- The players of the list are live. -/
theorem player_live (hr : Rep w es) {x : ℕ × Player} (hx : x ∈ w.abs.list) :
    w.mem.heap.cells x.1 = some (.player x.2) := by
  rw [hr.list] at hx
  obtain ⟨e, he, rfl⟩ := List.mem_map.mp hx
  exact (hr.chain.live e he).2

theorem nodup_players (hr : Rep w es) : (es.map Entry.player).Nodup := by
  have := hr.nodup
  rw [List.map_append, List.nodup_append, hr.list, List.map_map] at this
  exact this.1

/-- A held player is not one of the list. -/
theorem held_ne (hr : Rep w es) {x y : ℕ × Player} (hx : x ∈ w.abs.held) (hy : y ∈ w.abs.list) :
    x.1 ≠ y.1 := by
  have hnd := hr.nodup
  rw [List.map_append, List.nodup_append] at hnd
  exact (hnd.2.2 _ (List.mem_map_of_mem hy) _ (List.mem_map_of_mem hx)).symm

/-- A held player is not at the address of a node of the list. -/
theorem held_ne_node (hr : Rep w es) {x : ℕ × Player} (hx : x ∈ w.abs.held) {e : Entry}
    (he : e ∈ es) : x.1 ≠ e.node := by
  obtain ⟨⟨c, hn⟩, -⟩ := hr.chain.live e he
  exact w.mem.heap.ne_of_cells (by simp [hr.held x hx, hn])

/-! ### One lemma for each call -/

theorem createPlayer_eq_ok {m m' : Mem} {s : Int} {new : Malloc Player} {a : ℕ} :
    LwMix.createPlayer s new m = .ok (a, m') ↔
      (new.addr ≠ 0 ∧ m.heap.cells new.addr = none) ∧ a = new.addr ∧
        m' = m.put new.addr (some (.player { new.junk with socket := s })) := by
  simp only [LwMix.createPlayer, bind_eq_ok, Mem.malloc_eq_ok, Mem.modifyPlayer_eq_ok, pure_eq_ok,
    Prod.mk.injEq]
  constructor
  · rintro ⟨_, ⟨hf, rfl⟩, _, ⟨p, hp, rfl⟩, rfl, rfl⟩
    rw [Mem.put_heap, Heap.put_self hf.1] at hp
    cases hp
    exact ⟨hf, rfl, by simp [Mem.put]⟩
  · rintro ⟨hf, rfl, rfl⟩
    exact ⟨_, ⟨hf, rfl⟩, _, ⟨new.junk, Heap.put_self hf.1, rfl⟩, rfl, by simp [Mem.put]⟩

theorem createPlayer (hr : Rep w es) {s : Int} {new : Malloc Player} {a : ℕ}
    (h : LwMix.createPlayer s new w.mem = .ok (a, w'.mem))
    (ha : w'.abs = w.abs.step (.createPlayer s new)) :
    Rep w' es ∧ w'.mem.info = w.mem.info ∧
      ∀ x q, w'.mem.heap.cells x = some (.node q) → w.mem.heap.cells x = some (.node q) := by
  obtain ⟨w'm, w'a⟩ := w'
  obtain ⟨hf, -, rfl⟩ := createPlayer_eq_ok.mp h
  obtain rfl := ha
  have hne : ∀ {x b}, w.mem.heap.cells x = some b → x ≠ new.addr := fun hx =>
    w.mem.heap.ne_of_cells (by simp [hx, hf.2])
  have hput : ∀ {x b}, w.mem.heap.cells x = some b →
      (w.mem.heap.put new.addr (some (.player { new.junk with socket := s }))).cells x = some b :=
    fun hx => by rw [Heap.put_ne (hne hx), hx]
  refine ⟨⟨hr.chain.congr (fun e he => ?_) fun e he => ?_, hr.list, fun x hx => ?_, ?_, hr.count,
    hr.bound⟩, rfl, fun x q hx => ?_⟩
  · obtain ⟨⟨c, hn⟩, -⟩ := hr.chain.live e he
    exact (hput hn).trans hn.symm
  · have hp := (hr.chain.live e he).2
    exact (hput hp).trans hp.symm
  · rcases List.mem_append.mp hx with hx | hx
    · exact hput (hr.held x hx)
    · obtain rfl := List.mem_singleton.mp hx
      exact Heap.put_self hf.1
  · rw [Abs.step, ← List.append_assoc, List.map_append, List.nodup_append]
    refine ⟨hr.nodup, List.nodup_singleton _, fun x hx y hy => ?_⟩
    obtain rfl := List.mem_singleton.mp hy
    obtain ⟨z, hz, rfl⟩ := List.mem_map.mp hx
    rcases List.mem_append.mp hz with hz | hz
    · exact hne (hr.player_live hz)
    · exact hne (hr.held z hz)
  · rcases eq_or_ne x new.addr with rfl | hx'
    · rw [Mem.put_heap, Heap.put_self hf.1] at hx
      cases hx
    · rwa [Mem.put_heap, Heap.put_ne hx'] at hx

/-- A held player is found by its address, and the others stay held. -/
theorem held_split (hr : Rep w es) {p : ℕ} (hp : ∃ x ∈ w.abs.held, x.1 = p) :
    ∃ x ∈ w.abs.held, x.1 = p ∧ w.abs.held.find? (·.1 = p) = some x ∧
      ((w.abs.list ++ [x] ++ w.abs.held.filter (·.1 ≠ p)).map Prod.fst).Nodup := by
  obtain ⟨y, hy, hyp⟩ := hp
  obtain ⟨x, hx⟩ : ∃ x, w.abs.held.find? (·.1 = p) = some x := by
    rw [← Option.isSome_iff_exists, List.find?_isSome]
    exact ⟨y, hy, by simpa using hyp⟩
  have hxp : x.1 = p := by simpa using List.find?_some hx
  have hmem := List.mem_of_find?_eq_some hx
  refine ⟨x, hmem, hxp, hx, ?_⟩
  have hnd := hr.nodup
  rw [List.map_append, List.nodup_append] at hnd
  obtain ⟨h₁, h₂, h₃⟩ := hnd
  have hsub : (w.abs.held.filter (·.1 ≠ p)).Sublist w.abs.held := List.filter_sublist
  simp only [List.map_append, List.append_assoc, List.map_cons,
    List.singleton_append]
  refine List.nodup_append.mpr ⟨h₁, List.nodup_cons.mpr ⟨fun hm => ?_, h₂.sublist (hsub.map _)⟩,
    fun a ha b hb => ?_⟩
  · obtain ⟨z, hz, hzx⟩ := List.mem_map.mp hm
    simp [hzx, hxp] at hz
  · rcases List.mem_cons.mp hb with rfl | hb
    · exact h₃ a ha _ (List.mem_map_of_mem hmem)
    · exact h₃ a ha b ((hsub.map _).subset hb)

theorem addPlayer (hr : Rep w es) (ht : TailOk w es) {p : ℕ} {new : Malloc PlayerNode}
    (hp : ∃ x ∈ w.abs.held, x.1 = p) (h : LwMix.addPlayer p new w.mem = .ok w'.mem)
    (ha : w'.abs = w.abs.step (.addPlayer p new)) :
    ∃ e, Rep w' (es ++ [e]) ∧ TailOk w' (es ++ [e]) := by
  obtain ⟨x, hx, rfl, hfind, hnd⟩ := hr.held_split hp
  obtain ⟨hchain, hend, hcount, hkeep⟩ :=
    addPlayer_chain hr.chain hr.count (fun z hz => ht _ <| by
      rw [List.getLast?_map]
      exact Option.mem_map_of_mem _ hz)
      (hr.held x hx) h
  have hlist : w'.abs.list = w.abs.list ++ [x] := by simp [ha, Abs.step, hfind]
  have hheld : w'.abs.held = w.abs.held.filter (·.1 ≠ x.1) := by simp [ha, Abs.step]
  refine ⟨⟨new.addr, x.1, x.2⟩, ⟨hchain, ?_, fun y hy => ?_, ?_, ?_, ?_⟩, ?_⟩
  · simp [hlist, hr.list, Entry.pair]
  · rw [hheld] at hy
    exact hkeep _ _ (hr.held y (List.mem_of_mem_filter hy))
  · rw [hlist, hheld]
    exact hnd
  · simp [hcount]
  · have := addPlayer_range h
    rw [hcount, ← hr.count]
    exact this
  · simp [TailOk, hend]

theorem writeSernum (hr : Rep w es) {p : ℕ} {v : BitVec 32}
    (h : w.mem.modifyPlayer p (fun pl => { pl with sernum := v }) = .ok w'.mem)
    (hp : ∃ x ∈ w.abs.list, x.1 = p) (ha : w'.abs = w.abs.step (.writeSernum p v)) :
    (∃ es', Rep w' es' ∧ es'.map Entry.node = es.map Entry.node) ∧ w'.mem.info = w.mem.info ∧
      ∀ x q, w'.mem.heap.cells x = some (.node q) → w.mem.heap.cells x = some (.node q) := by
  obtain ⟨w'm, w'a⟩ := w'
  obtain ⟨pl, hpl, rfl⟩ := Mem.modifyPlayer_eq_ok.mp h
  obtain rfl := ha
  have hp0 := w.mem.heap.ne_null hpl
  let upd : Entry → Entry := fun e =>
    if e.player = p then { e with data := { e.data with sernum := v } } else e
  have hnode : ∀ e, (upd e).node = e.node := fun e => by
    simp only [upd]
    split <;> rfl
  have hplayer : ∀ e, (upd e).player = e.player := fun e => by
    simp only [upd]
    split <;> rfl
  have hnodes : (es.map upd).map Entry.node = es.map Entry.node := by simp [hnode]
  -- A node is not at `p`, where a player is.
  have hne : ∀ {x q}, w.mem.heap.cells x = some (.node q) → x ≠ p := fun hx =>
    w.mem.heap.ne_of_cells (by simp [hx, hpl])
  refine ⟨⟨es.map upd, ⟨⟨?_, fun e' he' => ?_⟩, ?_, fun x hx => ?_, ?_, ?_, hr.bound⟩, hnodes⟩, rfl,
    fun x q hx => ?_⟩
  · rw [hnodes]
    refine hr.chain.seg.congr fun n hn => nextOf_put_ne ?_
    obtain ⟨e, he, rfl⟩ := List.mem_map.mp hn
    obtain ⟨⟨c, hen⟩, -⟩ := hr.chain.live e he
    exact hne hen
  · obtain ⟨e, he, rfl⟩ := List.mem_map.mp he'
    obtain ⟨⟨c, hen⟩, hep⟩ := hr.chain.live e he
    refine ⟨⟨c, ?_⟩, ?_⟩
    · rw [hnode, hplayer, Mem.put_heap, Heap.put_ne (hne hen), hen]
    · by_cases hpe : e.player = p
      · subst hpe
        rw [hep] at hpl
        cases hpl
        rw [hplayer, Mem.put_heap, Heap.put_self hp0]
        simp [upd]
      · rw [hplayer, Mem.put_heap, Heap.put_ne hpe, hep]
        simp [upd, hpe]
  · simp only [Abs.step, hr.list, List.map_map]
    refine List.map_congr_left fun e _ => ?_
    by_cases hpe : e.player = p <;> simp [Entry.pair, upd, hpe]
  · have hx' := hr.held x hx
    obtain ⟨y, hy, rfl⟩ := hp
    rw [Mem.put_heap, Heap.put_ne (hr.held_ne hx hy), hx']
  · have hfst : (fun x : ℕ × Player => (if x.1 = p then (x.1, { x.2 with sernum := v }) else x).1) =
        Prod.fst := by
      funext x
      split <;> rfl
    have hnd := hr.nodup
    rw [List.map_append] at hnd ⊢
    simpa [Abs.step, Function.comp_def, hfst] using hnd
  · simpa using hr.count
  · rcases eq_or_ne x p with rfl | hx'
    · rw [Mem.put_heap, Heap.put_self hp0] at hx
      cases hx
    · rwa [Mem.put_heap, Heap.put_ne hx'] at hx

/-- The entry `e` is removed from the heap, and its player from the abstract list. -/
theorem unlinked {pre post : List Entry} {e : Entry} (hr : Rep w (pre ++ e :: post))
    (hu : Unlinked w.mem w'.mem pre e post) (hlist : w'.abs.list = (pre ++ post).map Entry.pair)
    (hheld : w'.abs.held = w.abs.held) : Rep w' (pre ++ post) := by
  obtain ⟨hd, hinfo⟩ := hu.info
  have hlen : w.mem.info.playerCount = pre.length + post.length + 1 := by
    rw [hr.count]
    simp
    omega
  refine ⟨hu.chain, hlist, fun x hx => ?_, ?_, ?_, ?_⟩
  · -- No block of a held player is freed or written.
    rw [hheld] at hx
    have hnode : ∀ y ∈ pre ++ e :: post, x.1 ≠ y.node := fun y hy => hr.held_ne_node hx hy
    have hplayer : x.1 ≠ e.player := hr.held_ne hx (y := e.pair) (by simp [hr.list])
    have hlast : ∀ q ∈ pre.getLast?, q ∈ pre ++ e :: post := fun q hq =>
      List.mem_append_left _ (List.mem_of_getLast? hq)
    rw [hu.frame _ (hnode e (by simp)) hplayer fun q hq => hnode q (hlast q hq), hr.held x hx]
  · refine hr.nodup.sublist (List.Sublist.map _ ?_)
    rw [hlist, hheld, hr.list]
    have hsub : (pre ++ post).Sublist (pre ++ e :: post) :=
      (List.Sublist.refl pre).append (List.sublist_cons_self e post)
    exact (hsub.map _).append (List.Sublist.refl _)
  · simp only [hinfo, hlen, List.length_append]
    omega
  · have hbound := hr.bound
    simp only [hinfo]
    omega

/-- Every node that is left was a node before. -/
theorem node_of_unlinked {pre post : List Entry} {e : Entry} (hr : Rep w (pre ++ e :: post))
    (hu : Unlinked w.mem w'.mem pre e post) {x : ℕ} {q : PlayerNode}
    (hx : w'.mem.heap.cells x = some (.node q)) : ∃ q', w.mem.heap.cells x = some (.node q') := by
  have hxn : x ≠ e.node := fun heq => by rw [heq, hu.node] at hx; cases hx
  have hxp : x ≠ e.player := fun heq => by rw [heq, hu.player] at hx; cases hx
  by_cases hq : ∃ z ∈ pre.getLast?, x = z.node
  · obtain ⟨z, hz, rfl⟩ := hq
    obtain ⟨⟨c, hn⟩, -⟩ := hr.chain.live z (List.mem_append_left _ (List.mem_of_getLast? hz))
    exact ⟨_, hn⟩
  · rw [hu.frame x hxn hxp fun z hz heq => hq ⟨z, hz, heq⟩] at hx
    exact ⟨q, hx⟩

/-- `removePlayer` deletes the first entry with the socket, from the heap and from the abstract
list. `end_player_list` stays where it is. -/
theorem removePlayer (hr : Rep w es) {s : Int} {fuel : ℕ}
    (h : LwMix.removePlayer s fuel w.mem = .ok w'.mem)
    (ha : w'.abs = w.abs.step (.removePlayer s)) :
    Rep w' (es.eraseP (·.data.socket = s)) ∧
      w'.mem.info.endPlayerList = w.mem.info.endPlayerList ∧
      (∀ x q, w'.mem.heap.cells x = some (.node q) → ∃ q', w.mem.heap.cells x = some (.node q')) ∧
      ∀ e ∈ es, e.node ∉ (es.eraseP (·.data.socket = s)).map Entry.node →
        w'.mem.heap.cells e.node = none := by
  have hlist : w'.abs.list = (es.eraseP (·.data.socket = s)).map Entry.pair := by
    simp only [ha, Abs.step, hr.list, List.eraseP_map]
    rfl
  have hheld : w'.abs.held = w.abs.held := by rw [ha, Abs.step]
  by_cases hex : ∃ e ∈ es, e.data.socket = s
  · obtain ⟨e, pre, post, hpre, he, rfl, herase⟩ := exists_first hex
    have hrange : intMin ≤ w.mem.info.playerCount + -1 ∧ w.mem.info.playerCount + -1 ≤ intMax := by
      have hbound := hr.bound
      rw [hr.count] at hbound ⊢
      simp only [intMin, intMax] at *
      omega
    obtain ⟨m', hm', hu⟩ := removePlayer_found hr.chain hr.nodup_players hpre he hrange
      (show pre.length + 2 ≤ fuel + (pre.length + 2) by omega)
    obtain rfl : w'.mem = m' := Except.ok.inj ((removePlayer_mono h _).symm.trans hm')
    obtain ⟨hd, hinfo⟩ := hu.info
    rw [herase] at hlist ⊢
    refine ⟨hr.unlinked hu hlist hheld, by simp [hinfo], fun x q hx => hr.node_of_unlinked hu hx,
      fun x hx hnot => ?_⟩
    have hxe : x = e := by
      rcases List.mem_append.mp hx with hx | hx
      · exact absurd (List.mem_map_of_mem (List.mem_append_left _ hx)) hnot
      · rcases List.mem_cons.mp hx with rfl | hx
        · rfl
        · exact absurd (List.mem_map_of_mem (List.mem_append_right _ hx)) hnot
    rw [hxe, hu.node]
  · simp only [not_exists, not_and] at hex
    have hm := removePlayer_absent hr.chain hex
      (show es.length + 1 ≤ fuel + (es.length + 1) by omega)
    have hmem : w'.mem = w.mem := Except.ok.inj ((removePlayer_mono h _).symm.trans hm)
    have herase : es.eraseP (·.data.socket = s) = es :=
      List.eraseP_of_forall_not fun e he => by simpa using hex e he
    rw [herase] at hlist ⊢
    have habs : w'.abs = w.abs := by
      rw [← hr.list] at hlist
      cases hw : w'.abs
      rw [hw] at hlist hheld
      cases hlist
      cases hheld
      rfl
    obtain ⟨w'm, w'a⟩ := w'
    obtain rfl : w'm = w.mem := hmem
    obtain rfl : w'a = w.abs := habs
    exact ⟨hr, rfl, fun x q hx => ⟨q, hx⟩, fun e he hnot => absurd (List.mem_map_of_mem he) hnot⟩

end Rep

end LwMix
