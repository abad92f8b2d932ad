import LwMix.Player.Chain

/-!
# Walks along the player list

The loop that the `'Q'` handler of `lwmix.c` makes over the players, with its body as a parameter:

    it_player = server_info.player_list;
    while (it_player != NULL) { body(it_player->player); it_player = it_player->next; }

`walk_of_chain` and `walk_result`: over a list it runs its body on the players in order, and a list
needs one unit of fuel more than its length.
-/

namespace LwMix

variable {σ : Type} {m : Mem} {it fuel : ℕ} {es : List Entry}

/-- The walk from `it_player`, with the loop's other variables in `s`. -/
def walk (m : Mem) (body : σ → ℕ → Player → Except Fault σ) : ℕ → ℕ → σ → Except Fault σ
  | 0, _, _ => .error .fuel
  | fuel + 1, it, s =>
    if it = 0 then pure s
    else do
      let n ← m.node it
      let p ← m.player n.player
      let s ← body s n.player p
      walk m body fuel n.next s

/-- The players that the walk meets, with their addresses. -/
def playersOf (m : Mem) (fuel : ℕ) : Except Fault (List (ℕ × Player)) :=
  walk m (fun ps a p => pure (ps ++ [(a, p)])) fuel m.info.playerList []

/-- One iteration of the walk, at an entry. -/
theorem walk_cons {body : σ → ℕ → Player → Except Fault σ} {e : Entry} {nx : ℕ} {s : σ}
    (hn : m.heap.cells e.node = some (.node ⟨e.player, nx⟩))
    (hp : m.heap.cells e.player = some (.player e.data)) :
    walk m body (fuel + 1) e.node s =
      body s e.player e.data >>= fun s => walk m body fuel nx s := by
  simp only [walk, m.heap.ne_null hn, ↓reduceIte, Mem.node_eq_ok.mpr hn, bind, Except.bind,
    Mem.player_eq_ok.mpr hp]

/-- The walk runs its body on the players of the list in order. -/
theorem walk_of_chain (body : σ → ℕ → Player → Except Fault σ) (hc : Chain m.heap it es)
    (hf : es.length < fuel) (s : σ) :
    walk m body fuel it s = es.foldlM (fun s e => body s e.player e.data) s := by
  induction es generalizing it fuel s with
  | nil =>
    obtain ⟨k, rfl⟩ : ∃ k, fuel = k + 1 := ⟨fuel - 1, by simp at hf; omega⟩
    rw [Chain.nil_iff.mp hc]
    rfl
  | cons e es ih =>
    obtain ⟨k, rfl⟩ : ∃ k, fuel = k + 1 := ⟨fuel - 1, by omega⟩
    obtain ⟨rfl, hp, nx, hn, hc⟩ := Chain.cons_iff.mp hc
    rw [walk_cons hn hp, List.foldlM_cons]
    exact congrArg _ (funext fun s => ih hc (by simpa using hf) s)

/-- A walk that ends has run its body on the players of the list in order. -/
theorem walk_result {body : σ → ℕ → Player → Except Fault σ} (hc : Chain m.heap it es) {s r : σ}
    (h : walk m body fuel it s = .ok r) :
    es.foldlM (fun s e => body s e.player e.data) s = .ok r := by
  induction es generalizing it fuel s with
  | nil =>
    cases fuel with
    | zero => cases h
    | succ k =>
      rw [Chain.nil_iff.mp hc] at h
      exact h
  | cons e es ih =>
    cases fuel with
    | zero => cases h
    | succ k =>
      obtain ⟨rfl, hp, nx, hn, hc⟩ := Chain.cons_iff.mp hc
      rw [walk_cons hn hp] at h
      obtain ⟨s', hs', hr⟩ := bind_eq_ok.mp h
      rw [List.foldlM_cons, hs']
      exact ih hc hr

/-- A walk ends, with enough fuel, as its body on the players of the list does. -/
theorem walk_iff (body : σ → ℕ → Player → Except Fault σ) (hc : Chain m.heap it es) {s r : σ} :
    (∃ fuel, walk m body fuel it s = .ok r) ↔
      es.foldlM (fun s e => body s e.player e.data) s = .ok r := by
  constructor
  · rintro ⟨fuel, h⟩
    exact walk_result hc h
  · intro h
    exact ⟨es.length + 1, by rw [walk_of_chain body hc (by omega), h]⟩

/-- The fuel of a walk that ends does not matter. -/
theorem walk_unique {body : σ → ℕ → Player → Except Fault σ} {k : ℕ} {s r r' : σ}
    (h : walk m body fuel it s = .ok r) (h' : walk m body k it s = .ok r') : r = r' := by
  induction fuel generalizing k it s with
  | zero => cases h
  | succ fuel ih =>
    cases k with
    | zero => cases h'
    | succ k =>
      unfold walk at h h'
      split at h
      · rename_i h0
        rw [if_pos h0] at h'
        exact (pure_eq_ok.mp h).trans (pure_eq_ok.mp h').symm
      · rename_i h0
        rw [if_neg h0] at h'
        obtain ⟨n, hn, h⟩ := bind_eq_ok.mp h
        obtain ⟨p, hp, h⟩ := bind_eq_ok.mp h
        obtain ⟨s₁, hs, h⟩ := bind_eq_ok.mp h
        simp only [hn, hp, hs, bind, Except.bind] at h'
        exact ih h h'

theorem foldlM_collect (es : List Entry) (ps : List (ℕ × Player)) :
    es.foldlM (fun ps e => (pure (ps ++ [(e.player, e.data)]) : Except Fault _)) ps =
      .ok (ps ++ es.map fun e => (e.player, e.data)) := by
  induction es generalizing ps with
  | nil => simp [pure, Except.pure]
  | cons e es ih => simpa [pure, Except.pure, bind, Except.bind] using ih (ps ++ [(e.player, e.data)])

/-- The players met by the walk are those of the list, whatever the fuel that suffices. -/
theorem playersOf_iff (hc : Chain m.heap m.info.playerList es) {ps : List (ℕ × Player)} :
    (∃ fuel, playersOf m fuel = .ok ps) ↔ ps = es.map fun e => (e.player, e.data) := by
  constructor
  · rintro ⟨fuel, h⟩
    have h := walk_result hc h
    rw [foldlM_collect] at h
    simpa using h.symm
  · rintro rfl
    refine ⟨es.length + 1, ?_⟩
    rw [playersOf, walk_of_chain _ hc (by omega), foldlM_collect]
    simp

end LwMix
