import LwMix.Info.ListReply

/-!
# The cursor of the `'Q'` reply

* `encodeList_calls`: the loop makes one call of `snprintf` for each player.
* `encode_ok_iff`: the loop over the players leaves its array exactly if the cursor is negative before
  some player.
* `encode_inBuffer`: otherwise every call of `snprintf` gets the bytes that remain.
* `listInBuffer_iff`: the loop stays in its array, and every call gets the bytes that remain,
  exactly if `char` is unsigned or the text of all players but the last has at most 127 bytes.
-/

namespace LwMix

/-- The call is for the bytes of `player_list_buffer` that remain after the cursor. -/
def EncodeCall.InBuffer (c : EncodeCall) : Prop :=
  0 ≤ c.cursor ∧ c.cursor ≤ 576 ∧ (c.size : Int) = 576 - c.cursor

/-- The loop ends without a write outside of the array, every call is for the bytes that remain, and
the array is terminated. -/
def ListInBuffer (signed : Bool) (buffer : Buf 576) (m : Mem) : Prop :=
  ∃ fuel s, encodeList signed fuel buffer m = .ok s ∧ (∀ c ∈ s.calls, c.InBuffer) ∧
    0 ∈ s.buffer.bytes

section Calls

variable {signed : Bool} {ps : List Player} {s s' : ListState}

/-- The body makes one call, at the cursor. -/
theorem encodePlayer_calls {p : Player} (h : encodePlayer signed p s = .ok s') :
    s'.calls = s.calls ++ [⟨s.size, sizeT (576 - s.size)⟩] := by
  obtain ⟨⟨s₁, n⟩, hcall, h⟩ := bind_eq_ok.mp h
  obtain ⟨⟨buffer, k⟩, -, hcall⟩ := bind_eq_ok.mp hcall
  cases pure_eq_ok.mp hcall
  dsimp only at h
  split at h <;> cases pure_eq_ok.mp h <;> rfl

/-- There is one call for each player. -/
theorem encode_calls_length (h : ps.foldlM (fun s p => encodePlayer signed p s) s = .ok s') :
    s'.calls.length = s.calls.length + ps.length := by
  induction ps generalizing s with
  | nil =>
    cases h
    rfl
  | cons p ps ih =>
    rw [List.foldlM_cons] at h
    obtain ⟨s₁, h₁, h⟩ := bind_eq_ok.mp h
    rw [ih h, encodePlayer_calls h₁, List.length_append, List.length_singleton, List.length_cons]
    omega

/-- While no byte is written outside of the array, every call is for the bytes that remain. -/
theorem encode_inBuffer {a : Int} (hs : s.size = toChar signed a)
    (hcs : ∀ c ∈ s.calls, c.InBuffer) (h0 : 0 ∈ s.buffer.bytes)
    (h : ps.foldlM (fun s p => encodePlayer signed p s) s = .ok s') :
    (∀ c ∈ s'.calls, c.InBuffer) ∧ 0 ∈ s'.buffer.bytes := by
  induction ps generalizing s a with
  | nil =>
    cases h
    exact ⟨hcs, h0⟩
  | cons p ps ih =>
    rw [List.foldlM_cons] at h
    obtain ⟨s₁, h₁, h⟩ := bind_eq_ok.mp h
    obtain ⟨hge, hle⟩ := toChar_bounds signed a
    rw [← hs] at hge hle
    obtain ⟨hw, rfl⟩ := (encodePlayer_eq_ok hge hle).mp h₁
    have hmax : charMax signed ≤ 255 := by cases signed <;> decide
    have hsize : (sizeT (576 - s.size) : Int) = 576 - s.size := by
      unfold sizeT
      omega
    refine ih (a := s.size + (render [p.sernum]).length) rfl (fun c hc => ?_) ?_ h
    · rcases List.mem_append.mp hc with hc | hc
      · exact hcs c hc
      · obtain rfl := List.mem_singleton.mp hc
        exact ⟨hw.1, show s.size ≤ 576 by omega, hsize⟩
    · simp [Buf.overwrite]

/-- **The loop leaves its array** exactly if the cursor is negative before some player. -/
theorem encode_ok_iff {a : Int} (hs : s.size = toChar signed a) :
    (∃ s', ps.foldlM (fun s p => encodePlayer signed p s) s = .ok s') ↔
      ∀ pre v, pre ++ [v] <+: ps.map Player.sernum →
        0 ≤ toChar signed (a + (render pre).length) := by
  induction ps generalizing s a with
  | nil => simp [pure, Except.pure]
  | cons p ps ih =>
    obtain ⟨hge, hle⟩ := toChar_bounds signed a
    rw [← hs] at hge hle
    have hmax : charMax signed ≤ 255 := by cases signed <;> decide
    have hlen := entry_length_le p.sernum
    have hr : numeral 16 p.sernum.toNat ++ ascii "," = render [p.sernum] := by simp [render]
    rw [hr] at hlen
    simp only [List.foldlM_cons, bind_eq_ok, encodePlayer_eq_ok hge hle]
    have hnext : toChar signed (s.size + (render [p.sernum]).length) =
        toChar signed (a + (render [p.sernum]).length) := by
      rw [hs, toChar_add]
    rw [List.map_cons]
    constructor
    · rintro ⟨s', s₁, ⟨hw, rfl⟩, h⟩ pre v hpre
      have ih := (ih (a := a + (render [p.sernum]).length) hnext).mp ⟨s', h⟩
      cases pre with
      | nil => simpa [render, ← hs] using hw.1
      | cons u pre =>
        obtain ⟨rfl, hpre'⟩ := List.cons_prefix_cons.mp hpre
        rw [render_cons, List.length_append, Int.natCast_add, ← Int.add_assoc]
        exact ih pre v hpre'
    · intro h
      have h0 : 0 ≤ s.size := by
        have := h [] p.sernum (by simp)
        simpa [render, hs] using this
      have hw : s.size.toNat + (render [p.sernum] ++ [0]).length ≤ 576 := by
        rw [List.length_append, List.length_singleton]
        omega
      let s₁ : ListState := ⟨s.buffer.overwrite s.size.toNat (render [p.sernum] ++ [0]) hw,
        toChar signed (s.size + (render [p.sernum]).length),
        s.calls ++ [⟨s.size, sizeT (576 - s.size)⟩]⟩
      have hs₁ : s₁.size = toChar signed (a + (render [p.sernum]).length) := hnext
      obtain ⟨s', hs'⟩ := (ih hs₁).mpr fun pre v hpre => by
        have := h (p.sernum :: pre) v (List.cons_prefix_cons.mpr ⟨rfl, hpre⟩)
        rwa [render_cons, List.length_append, Int.natCast_add, ← Int.add_assoc] at this
      exact ⟨s', s₁, ⟨⟨h0, hw⟩, rfl⟩, hs'⟩

end Calls

/-! ## The cursor of a whole list -/

section Cursor

variable {signed : Bool} {vs : List (BitVec 32)} {m : Mem} {es : List Entry} {fuel : ℕ}
  {buffer : Buf 576} {s : ListState}

/-- A signed cursor that is never negative has not wrapped: it grows by nine at most. -/
theorem render_length_le (h : ∀ pre, pre <+: vs → 0 ≤ toChar true (render pre).length) :
    (render vs).length ≤ 127 := by
  induction vs using List.reverseRecOn with
  | nil => simp [render]
  | append_singleton us v ih =>
    have hus := ih fun pre hpre => h pre (hpre.trans (List.prefix_append us [v]))
    have hlen := entry_length_le v
    have hr : numeral 16 v.toNat ++ ascii "," = render [v] := by simp [render]
    rw [hr] at hlen
    have h0 := h _ (List.prefix_refl _)
    rw [render_append, List.length_append] at h0 ⊢
    simp only [toChar, ↓reduceIte, Int.bmod_def] at h0
    omega

/-- When the cursor is negative before no player. -/
theorem cursor_nonneg_iff :
    (∀ pre v, pre ++ [v] <+: vs → 0 ≤ toChar signed (0 + (render pre).length)) ↔
      signed = false ∨ (render vs.dropLast).length ≤ 127 := by
  simp only [Int.zero_add]
  cases signed with
  | false =>
    simp only [true_or, iff_true]
    intro pre v _
    simp only [toChar, Bool.false_eq_true, ↓reduceIte]
    omega
  | true =>
    simp only [Bool.true_eq_false, false_or]
    rcases List.eq_nil_or_concat' vs with rfl | ⟨us, u, rfl⟩
    · simp [render]
    · rw [List.dropLast_concat]
      constructor
      · refine fun h => render_length_le fun pre hpre => ?_
        obtain ⟨post, rfl⟩ := hpre
        cases post with
        | nil => exact h pre u (by simp)
        | cons v post => exact h pre v ⟨post ++ [u], by simp⟩
      · rintro h pre v ⟨post, hpre⟩
        -- What is before the cursor is a part of the text of all but the last.
        have hle : (render pre).length ≤ (render us).length := by
          rcases List.eq_nil_or_concat' post with rfl | ⟨post, w, rfl⟩
          · rw [List.append_nil] at hpre
            obtain ⟨rfl, -⟩ := List.append_inj' hpre rfl
            exact le_refl _
          · rw [← List.append_assoc] at hpre
            obtain ⟨rfl, -⟩ := List.append_inj' hpre rfl
            simp only [render_append, List.length_append]
            omega
        rw [toChar_of_le (by omega) (by simp only [charMax, ↓reduceIte]; omega)]
        omega

/-- The loop, over the players of the list. -/
theorem encodeList_iff (hc : Chain m.heap m.info.playerList es) :
    (∃ fuel, encodeList signed fuel buffer m = .ok s) ↔
      (es.map Entry.data).foldlM (fun s p => encodePlayer signed p s)
        ⟨buffer.overwrite 0 [0] (by simp), 0, []⟩ = .ok s := by
  rw [← foldlM_entries, ← walk_iff (fun s _ p => encodePlayer signed p s) hc]
  simp only [encodeList, write_zero, bind, Except.bind]

/-- The loop makes one call of `snprintf` for each player. -/
theorem encodeList_calls (hc : Chain m.heap m.info.playerList es)
    (h : encodeList signed fuel buffer m = .ok s) : s.calls.length = es.length := by
  rw [encode_calls_length ((encodeList_iff hc).mp ⟨fuel, h⟩), List.length_map]
  exact Nat.zero_add _

/-- **The loop stays in its array** exactly if `char` is unsigned or the text of all players but the
last is no longer than 127 bytes. -/
theorem listInBuffer_iff (hc : Chain m.heap m.info.playerList es) :
    ListInBuffer signed buffer m ↔
      signed = false ∨ (render (sernums es).dropLast).length ≤ 127 := by
  have hps : sernums es = (es.map Entry.data).map Player.sernum := by simp [sernums]
  have hs : (0 : Int) = toChar signed 0 := by cases signed <;> rfl
  have hstart : ListState.size ⟨buffer.overwrite 0 [0] (by simp), 0, []⟩ = toChar signed 0 := hs
  rw [hps, ← cursor_nonneg_iff, ← encode_ok_iff hstart]
  constructor
  · rintro ⟨fuel, s, h, -, -⟩
    exact ⟨s, (encodeList_iff hc).mp ⟨fuel, h⟩⟩
  · rintro ⟨s, h⟩
    obtain ⟨fuel, hrun⟩ := (encodeList_iff hc).mpr h
    obtain ⟨hcs, h0⟩ := encode_inBuffer hstart (by simp) (by simp) h
    exact ⟨fuel, s, hrun, hcs, h0⟩

/-- Sixteen players with long serial numbers, and a signed `char`. -/
theorem not_listInBuffer_sixteen : ∃ m es, Chain m.heap m.info.playerList es ∧
    sernums es = List.replicate 16 0x12345678 ∧ ∀ buffer, ¬ ListInBuffer true buffer m := by
  obtain ⟨m, es, hc, hes⟩ := exists_mem (List.replicate 16 ⟨5, 0x12345678⟩)
  have hes : sernums es = List.replicate 16 0x12345678 := hes
  refine ⟨m, es, hc, hes, fun buffer hin => ?_⟩
  obtain ⟨fuel, s, h, -⟩ := hin
  have hok := (encode_ok_iff (show (0 : Int) = toChar true 0 from rfl)).mp
    ⟨s, (encodeList_iff hc).mp ⟨fuel, h⟩⟩
  have hps : (es.map Entry.data).map Player.sernum = sernums es := by simp [sernums]
  rw [hps, hes] at hok
  -- The text of fifteen players has 135 bytes, which is negative as a `char`.
  have h15 := hok (List.replicate 15 0x12345678) 0x12345678 ⟨[], by decide⟩
  rw [length_render_replicate] at h15
  exact absurd h15 (by decide)

/-- Fifteen of them fit. -/
theorem listInBuffer_fifteen : ∃ m es, Chain m.heap m.info.playerList es ∧
    sernums es = List.replicate 15 0x12345678 ∧ ListInBuffer true (.zero 576) m := by
  obtain ⟨m, es, hc, hes⟩ := exists_mem (List.replicate 15 ⟨5, 0x12345678⟩)
  have hes : sernums es = List.replicate 15 0x12345678 := hes
  refine ⟨m, es, hc, hes, (listInBuffer_iff hc).mpr (.inr ?_)⟩
  rw [hes, List.dropLast_replicate, length_render_replicate]
  decide

end Cursor

end LwMix
