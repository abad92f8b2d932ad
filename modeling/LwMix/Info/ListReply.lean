import LwMix.Base.Numeral
import LwMix.Player.Walk
import Mathlib.Tactic.NormNum

/-!
# The `'Q'` reply of `serverInfoProvider` (`lwmix.c`)

The reply lists the serial numbers of the players in hexadecimal, each with a comma. The cursor
`player_list_size` of the loop is a `char`, which is signed on some machines.

* `encodeList`, `listReply`: the code, over the walk along the player list.
* `render`, `readSernums`: the text that the reply stands for, and its reader.
* `listReply_iff`: the reply is the text of the whole list exactly if the text of all players but the
  last is no longer than `CHAR_MAX`.
-/

namespace LwMix

/-- `CHAR_MAX`. -/
def charMax (signed : Bool) : ℕ := if signed then 127 else 255

/-- The conversion of an `int` to `char`. -/
def toChar (signed : Bool) (x : Int) : Int := if signed then x.bmod 256 else x % 256

/-- The conversion of an `int` to `size_t`. -/
def sizeT (x : Int) : ℕ := (x % 2 ^ 64).toNat

section ToChar

variable {signed : Bool} {x : Int}

theorem toChar_of_le (h0 : 0 ≤ x) (h : x ≤ charMax signed) : toChar signed x = x := by
  cases signed <;> simp only [toChar, charMax, Bool.false_eq_true, ↓reduceIte] at *
  · omega
  · exact Int.bmod_eq_of_le (by omega) (by omega)

theorem toChar_bounds (signed : Bool) (x : Int) :
    -128 ≤ toChar signed x ∧ toChar signed x ≤ charMax signed := by
  cases signed <;> simp only [toChar, charMax, Bool.false_eq_true, ↓reduceIte]
  · omega
  · have := Int.le_bmod (x := x) (m := 256) (by decide)
    have := Int.bmod_lt (x := x) (m := 256) (by decide)
    omega

/-- Wrapping twice is wrapping once. -/
theorem toChar_add (signed : Bool) (x k : Int) :
    toChar signed (toChar signed x + k) = toChar signed (x + k) := by
  cases signed <;> simp only [toChar, Bool.false_eq_true, ↓reduceIte]
  · omega
  · simp

end ToChar

/-! ## The code -/

/-- A call `snprintf(player_list_buffer + cursor, size, …)`. -/
structure EncodeCall where
  cursor : Int
  size : ℕ
  deriving DecidableEq, Repr

/-- The `char[576]`, its cursor `player_list_size`, and the calls of `snprintf` so far. -/
structure ListState where
  buffer : Buf 576
  size : Int
  calls : List EncodeCall

/-- `snprintf(player_list_buffer + cursor, size, …)`, which records its arguments. -/
def ListState.snprintf (s : ListState) (cursor : Int) (size : ℕ) (text : List UInt8) :
    Except Fault (ListState × Int) := do
  let (buffer, n) ← LwMix.snprintf s.buffer cursor size text
  pure ({ s with buffer, calls := s.calls ++ [⟨cursor, size⟩] }, n)

/-- The body of the loop over the players. -/
def encodePlayer (signed : Bool) (p : Player) (s : ListState) : Except Fault ListState := do
  let (s, charactersWritten) ←
    s.snprintf s.size (sizeT (576 - s.size)) (numeral 16 p.sernum.toNat ++ ascii ",")
  if charactersWritten ≥ 0 then
    pure { s with size := toChar signed (s.size + charactersWritten) }
  else pure s

/-- The loop over the players, from any content of `player_list_buffer`. -/
def encodeList (signed : Bool) (fuel : ℕ) (buffer : Buf 576) (m : Mem) : Except Fault ListState := do
  let buffer ← buffer.write 0 [0]
  walk m (fun s _ p => encodePlayer signed p s) fuel m.info.playerList ⟨buffer, 0, []⟩

/-- What the `'Q'` branch leaves: `player_list_buffer`, `buffer` and `len`. -/
structure ListReply where
  playerListBuffer : Buf 576
  buffer : Buf 1024
  len : Int

/-- The `'Q'` branch. -/
def listReply (signed : Bool) (fuel : ℕ) (playerListBuffer : Buf 576) (buffer : Buf 1024) (m : Mem) :
    Except Fault ListReply := do
  let s ← encodeList signed fuel playerListBuffer m
  let text ← s.buffer.string
  let (buffer, len) ← snprintf buffer 0 1024 (ascii "Q" ++ text)
  pure ⟨s.buffer, buffer, len + 1⟩

/-- The datagram that is sent. -/
def ListReply.datagram (r : ListReply) : List UInt8 := r.buffer.bytes.take r.len.toNat

/-! ## The text of a list -/

/-- The serial numbers, each with a comma. -/
def render (vs : List (BitVec 32)) : List UInt8 :=
  vs.flatMap fun v => numeral 16 v.toNat ++ ascii ","

/-- The serial numbers of a text. -/
def readSernums (text : List UInt8) : List (BitVec 32) :=
  (text.splitOn 0x2C).dropLast.map fun xs => BitVec.ofNat 32 (readNumeral 16 xs)

theorem render_append (vs ws : List (BitVec 32)) : render (vs ++ ws) = render vs ++ render ws :=
  List.flatMap_append

theorem render_cons (v : BitVec 32) (vs : List (BitVec 32)) :
    render (v :: vs) = render [v] ++ render vs := render_append [v] vs

theorem comma_not_mem (v : BitVec 32) : 0x2C ∉ numeral 16 v.toNat :=
  not_mem_numeral (by decide) (by decide) (by decide)

/-- No terminator is in the text. -/
theorem zero_not_mem_render (vs : List (BitVec 32)) : 0 ∉ render vs := by
  simp only [render, List.mem_flatMap, List.mem_append, not_exists, not_and, not_or]
  exact fun v _ => ⟨not_mem_numeral (by decide) (by decide) (by decide), by decide⟩

/-- **The text of a list is read back.** -/
theorem readSernums_render (vs : List (BitVec 32)) : readSernums (render vs) = vs := by
  induction vs with
  | nil => rfl
  | cons v vs ih =>
    have hsplit : (render (v :: vs)).splitOn 0x2C =
        numeral 16 v.toNat :: (render vs).splitOn 0x2C := by
      rw [render, List.flatMap_cons, List.append_assoc]
      exact List.splitOn_append_cons_self_of_not_mem (comma_not_mem v) _
    unfold readSernums at ih ⊢
    rw [hsplit, List.dropLast_cons_of_ne_nil (List.splitOn_ne_nil _ _), List.map_cons, ih,
      readNumeral_numeral (by decide) (by decide)]
    simp

/-- An entry has at most nine bytes. -/
theorem entry_length_le (v : BitVec 32) :
    (numeral 16 v.toNat ++ ascii ",").length ≤ 9 := by
  have h : v.toNat < 16 ^ 8 := v.isLt
  have := numeral_length_le (by decide) (by decide) h
  rw [List.length_append, show (ascii ",").length = 1 from rfl]
  omega

/-- A cursor that does not wrap leaves room for one more entry. -/
theorem render_length_of_short {signed : Bool} {vs : List (BitVec 32)}
    (h : (render vs.dropLast).length ≤ charMax signed) : (render vs).length ≤ 575 := by
  have hmax : charMax signed ≤ 255 := by cases signed <;> decide
  rcases List.eq_nil_or_concat' vs with rfl | ⟨us, v, rfl⟩
  · simp [render]
  · have hlen := entry_length_le v
    rw [List.dropLast_concat] at h
    have hr : numeral 16 v.toNat ++ ascii "," = render [v] := by simp [render]
    rw [hr] at hlen
    rw [render_append, List.length_append]
    omega

/-! ## The loop -/

section Encode

variable {signed : Bool} {p : Player} {ps : List Player} {s s' : ListState} {text rest : List UInt8}

/-- An entry is written at the cursor, if it is written inside of the array. -/
theorem encodePlayer_eq_ok (hge : -128 ≤ s.size) (hle : s.size ≤ charMax signed) :
    encodePlayer signed p s = .ok s' ↔
      ∃ h : 0 ≤ s.size ∧ s.size.toNat + (render [p.sernum] ++ [0]).length ≤ 576,
        s' = ⟨s.buffer.overwrite s.size.toNat (render [p.sernum] ++ [0]) h.2,
          toChar signed (s.size + (render [p.sernum]).length),
          s.calls ++ [⟨s.size, sizeT (576 - s.size)⟩]⟩ := by
  have hr : numeral 16 p.sernum.toNat ++ ascii "," = render [p.sernum] := by simp [render]
  have hlen := entry_length_le p.sernum
  rw [hr] at hlen
  have hsize : (render [p.sernum]).length < sizeT (576 - s.size) := by
    have : charMax signed ≤ 255 := by cases signed <;> decide
    simp only [sizeT]
    omega
  simp only [encodePlayer, ListState.snprintf, hr, bind_eq_ok, Prod.exists, snprintf_eq_ok hsize,
    pure_eq_ok, Prod.mk.injEq]
  constructor
  · rintro ⟨_, _, ⟨buffer, r, ⟨h, rfl, rfl⟩, rfl, rfl⟩, hs'⟩
    simp only [ge_iff_le, Int.natCast_nonneg, ↓reduceIte, pure_eq_ok] at hs'
    exact ⟨h, hs'⟩
  · rintro ⟨h, rfl⟩
    exact ⟨_, _, ⟨_, _, ⟨h, rfl, rfl⟩, rfl, rfl⟩, by simp [pure_eq_ok]⟩

/-- The cursor after the loop is the length of the text, as a `char`. -/
theorem encode_size {a : Int} (hs : s.size = toChar signed a)
    (h : ps.foldlM (fun s p => encodePlayer signed p s) s = .ok s') :
    s'.size = toChar signed (a + (render (ps.map Player.sernum)).length) := by
  induction ps generalizing s a with
  | nil =>
    cases h
    simpa [render] using hs
  | cons p ps ih =>
    rw [List.foldlM_cons] at h
    obtain ⟨s₁, h₁, h₂⟩ := bind_eq_ok.mp h
    obtain ⟨hge, hle⟩ := toChar_bounds signed a
    rw [← hs] at hge hle
    obtain ⟨hw, rfl⟩ := (encodePlayer_eq_ok hge hle).mp h₁
    have hs₁ := (congrArg (fun x => toChar signed (x + (render [p.sernum]).length)) hs).trans
      (toChar_add signed a _)
    rw [ih hs₁ h₂, List.map_cons, render_cons _ (ps.map Player.sernum), List.length_append]
    congr 1
    omega

/-- While the cursor does not wrap, each entry is written after the ones before it. -/
theorem encode_append (hb : s.buffer.bytes = text ++ 0 :: rest) (hs : s.size = text.length)
    (hmax : (text ++ render (ps.map Player.sernum).dropLast).length ≤ charMax signed)
    (hfit : (text ++ render (ps.map Player.sernum)).length ≤ 575) :
    ∃ s' rest', ps.foldlM (fun s p => encodePlayer signed p s) s = .ok s' ∧
      s'.buffer.bytes = text ++ render (ps.map Player.sernum) ++ 0 :: rest' := by
  induction ps generalizing s text rest with
  | nil => exact ⟨s, rest, rfl, by simp [render, hb]⟩
  | cons p ps ih =>
    have hcons : render ((p :: ps).map Player.sernum) =
        render [p.sernum] ++ render (ps.map Player.sernum) := render_cons _ _
    rw [hcons, ← List.append_assoc] at hfit ⊢
    have hle : s.size ≤ charMax signed := by
      rw [List.length_append] at hmax
      omega
    have hwrite : s.size.toNat + (render [p.sernum] ++ [0]).length ≤ 576 := by
      simp only [List.length_append, List.length_singleton] at hfit ⊢
      omega
    have hstep := (encodePlayer_eq_ok (by omega) hle).mpr ⟨⟨by omega, hwrite⟩, rfl⟩
    rw [List.foldlM_cons, hstep]
    have hbytes : (s.buffer.overwrite s.size.toNat (render [p.sernum] ++ [0]) hwrite).bytes =
        (text ++ render [p.sernum]) ++ 0 :: s.buffer.bytes.drop
          (s.size.toNat + (render [p.sernum] ++ [0]).length) := by
      simp [Buf.overwrite, hb, hs]
    rcases List.eq_nil_or_concat' ps with rfl | ⟨qs, q, rfl⟩
    · exact ⟨_, _, rfl, by simpa [render] using hbytes⟩
    · -- Another player follows, so the cursor is after this entry.
      have hdrop : ((p :: (qs ++ [q])).map Player.sernum).dropLast =
          p.sernum :: ((qs ++ [q]).map Player.sernum).dropLast :=
        List.dropLast_cons_of_ne_nil (by simp)
      rw [hdrop, render_cons, ← List.append_assoc] at hmax
      refine ih hbytes ?_ hmax hfit
      show toChar signed (s.size + _) = _
      rw [hs, ← Int.natCast_add, ← List.length_append]
      refine toChar_of_le (by omega) ?_
      rw [List.length_append] at hmax
      omega

/-- The terminator of the last entry is where the cursor was, as a `char`, and the entry's length
after. -/
theorem encode_concat (hs : s.size = 0)
    (h : (ps ++ [p]).foldlM (fun s p => encodePlayer signed p s) s = .ok s') :
    ∃ xs rest, s'.buffer.bytes = xs ++ 0 :: rest ∧
      (xs.length : Int) ≤ toChar signed (render (ps.map Player.sernum)).length +
        (render [p.sernum]).length := by
  rw [List.foldlM_append] at h
  obtain ⟨s₁, h₁, h₂⟩ := bind_eq_ok.mp h
  have hs₀ : s.size = toChar signed 0 := by
    rw [hs]
    cases signed <;> rfl
  have hsize := encode_size hs₀ h₁
  rw [Int.zero_add] at hsize
  obtain ⟨hge, hle⟩ := toChar_bounds signed (render (ps.map Player.sernum)).length
  rw [← hsize] at hge hle ⊢
  rw [List.foldlM_cons] at h₂
  obtain ⟨s₂, h₂, h₃⟩ := bind_eq_ok.mp h₂
  obtain rfl := pure_eq_ok.mp h₃
  obtain ⟨hw, rfl⟩ := (encodePlayer_eq_ok hge hle).mp h₂
  refine ⟨s₁.buffer.bytes.take s₁.size.toNat ++ render [p.sernum], _, by simp [Buf.overwrite]; rfl,
    ?_⟩
  have := hw.1
  simp only [List.length_append, List.length_take]
  omega

end Encode

/-! ## The reply -/

section Reply

variable {signed : Bool} {m : Mem} {es : List Entry} {playerListBuffer : Buf 576}
  {buffer : Buf 1024} {r : ListReply} {fuel : ℕ}

/-- The serial numbers of the list. -/
def sernums (es : List Entry) : List (BitVec 32) := es.map fun e => e.data.sernum

/-- The loop, over the players of the list. -/
theorem foldlM_entries (es : List Entry) (s : ListState) :
    es.foldlM (fun s e => encodePlayer signed e.data s) s =
      (es.map Entry.data).foldlM (fun s p => encodePlayer signed p s) s := by
  rw [List.foldlM_map]

/-- The buffer at the start of the loop is the empty string. -/
theorem write_zero (b : Buf 576) : b.write 0 [0] = .ok (b.overwrite 0 [0] (by simp)) :=
  Buf.write_of_fits b (by simp)

/-- The datagram is `Q`, the string that the loop leaves, and a terminator. -/
theorem listReply_datagram (hc : Chain m.heap m.info.playerList es) {d : List UInt8} :
    (∃ fuel r, listReply signed fuel playerListBuffer buffer m = .ok r ∧ r.datagram = d) ↔
      ∃ s text, (es.map Entry.data).foldlM (fun s p => encodePlayer signed p s)
          ⟨playerListBuffer.overwrite 0 [0] (by simp), 0, []⟩ = .ok s ∧
        s.buffer.string = .ok text ∧ d = ascii "Q" ++ text ++ [0] := by
  have hlen : ∀ {s : ListState} {text}, s.buffer.string = .ok text →
      (ascii "Q" ++ text).length < 1024 := by
    intro s text h
    have := s.buffer.string_length_lt h
    rw [List.length_append, show (ascii "Q").length = 1 from rfl]
    omega
  have hdatagram : ∀ {b : Buf 576} {text : List UInt8} (h : 0 + (text ++ [0]).length ≤ 1024),
      (ListReply.mk b (buffer.overwrite 0 (text ++ [0]) h) (text.length + 1)).datagram =
        text ++ [0] := by
    intro b text h
    have htoNat : ((text.length : Int) + 1).toNat = (text ++ [0]).length := by
      rw [List.length_append, List.length_singleton]
      omega
    rw [ListReply.datagram, htoNat, Buf.overwrite_zero_bytes, List.take_left]
  constructor
  · rintro ⟨fuel, r, h, rfl⟩
    obtain ⟨s, hs, h⟩ := bind_eq_ok.mp h
    obtain ⟨b, hb, hs⟩ := bind_eq_ok.mp hs
    rw [write_zero] at hb
    cases hb
    obtain ⟨text, ht, h⟩ := bind_eq_ok.mp h
    obtain ⟨⟨b, len⟩, hw, h⟩ := bind_eq_ok.mp h
    obtain ⟨hfit, rfl, rfl⟩ := (snprintf_eq_ok (hlen ht)).mp hw
    obtain rfl := pure_eq_ok.mp h
    exact ⟨s, text, foldlM_entries es _ ▸ walk_result hc hs, ht, hdatagram hfit.2⟩
  · rintro ⟨s, text, hs, ht, rfl⟩
    have hfit : 0 + (ascii "Q" ++ text ++ [0]).length ≤ 1024 := by
      have := hlen ht
      rw [List.length_append, List.length_singleton]
      omega
    have hw : snprintf buffer 0 1024 (ascii "Q" ++ text) =
        .ok (buffer.overwrite 0 (ascii "Q" ++ text ++ [0]) hfit, (ascii "Q" ++ text).length) :=
      (snprintf_eq_ok (hlen ht)).mpr ⟨⟨le_refl 0, hfit⟩, rfl, rfl⟩
    refine ⟨es.length + 1, _, bind_eq_ok.mpr ⟨s, ?_, bind_eq_ok.mpr ⟨text, ht, bind_eq_ok.mpr
      ⟨_, hw, rfl⟩⟩⟩, hdatagram hfit⟩
    refine bind_eq_ok.mpr ⟨_, write_zero _, ?_⟩
    rw [walk_of_chain _ hc (by omega), foldlM_entries, hs]

/-- A wrapped cursor leaves a string that is shorter than the text. -/
theorem cursor_of_datagram (hc : Chain m.heap m.info.playerList es)
    (h : ∃ fuel r, listReply signed fuel playerListBuffer buffer m = .ok r ∧
      r.datagram = ascii "Q" ++ render (sernums es) ++ [0]) :
    (render (sernums es).dropLast).length ≤ charMax signed := by
  obtain ⟨s, text, hs, ht, hd⟩ := (listReply_datagram hc).mp h
  obtain rfl : render (sernums es) = text := by simpa using hd
  have hps : sernums es = (es.map Entry.data).map Player.sernum := by simp [sernums]
  rw [hps] at ht ⊢
  rcases List.eq_nil_or_concat' (es.map Entry.data) with h0 | ⟨ps, p, h0⟩
  · simp [h0, render]
  · rw [h0] at hs ht ⊢
    obtain ⟨xs, rest, hb, hxs⟩ := encode_concat rfl hs
    have hle := s.buffer.string_length_le hb ht
    have hmax := (toChar_bounds signed (render (ps.map Player.sernum)).length).2
    simp only [List.map_append, List.map_cons, List.map_nil, render_append, List.length_append,
      List.dropLast_concat] at hle ⊢
    omega

/-- While the cursor does not wrap, the whole text is sent. -/
theorem datagram_of_cursor (hc : Chain m.heap m.info.playerList es)
    (hfit : (render (sernums es)).length ≤ 575)
    (hmax : (render (sernums es).dropLast).length ≤ charMax signed) :
    ∃ fuel r, listReply signed fuel playerListBuffer buffer m = .ok r ∧
      r.datagram = ascii "Q" ++ render (sernums es) ++ [0] := by
  have hps : sernums es = (es.map Entry.data).map Player.sernum := by simp [sernums]
  rw [hps] at hfit hmax ⊢
  have hb : (playerListBuffer.overwrite 0 [0] (by simp)).bytes =
      [] ++ 0 :: playerListBuffer.bytes.drop 1 := by simp
  obtain ⟨s, rest, hs, hbytes⟩ : ∃ s rest,
      (es.map Entry.data).foldlM (fun s p => encodePlayer signed p s)
        ⟨playerListBuffer.overwrite 0 [0] (by simp), 0, []⟩ = .ok s ∧
      s.buffer.bytes = [] ++ render ((es.map Entry.data).map Player.sernum) ++ 0 :: rest :=
    encode_append hb rfl hmax hfit
  exact (listReply_datagram hc).mpr
    ⟨s, _, hs, s.buffer.string_eq hbytes (zero_not_mem_render _), rfl⟩

/-- The result of a reply is the same with any fuel that suffices. -/
theorem listReply_fuel (hc : Chain m.heap m.info.playerList es) (hf : es.length < fuel) {k : ℕ}
    (h : listReply signed k playerListBuffer buffer m = .ok r) :
    listReply signed fuel playerListBuffer buffer m = .ok r := by
  obtain ⟨s, hs, h⟩ := bind_eq_ok.mp h
  obtain ⟨b, hb, hs⟩ := bind_eq_ok.mp hs
  refine bind_eq_ok.mpr ⟨s, bind_eq_ok.mpr ⟨b, hb, ?_⟩, h⟩
  rw [walk_of_chain _ hc hf]
  exact walk_result hc hs

/-- The length of a reply is within its buffer. -/
theorem listReply_len (h : listReply signed fuel playerListBuffer buffer m = .ok r) :
    0 ≤ r.len ∧ r.len ≤ 1024 := by
  obtain ⟨s, -, h⟩ := bind_eq_ok.mp h
  obtain ⟨text, ht, h⟩ := bind_eq_ok.mp h
  obtain ⟨⟨b, len⟩, hw, h⟩ := bind_eq_ok.mp h
  obtain rfl := pure_eq_ok.mp h
  have hlt := s.buffer.string_length_lt ht
  have hlen : (ascii "Q" ++ text).length = 1 + text.length := by
    rw [List.length_append, show (ascii "Q").length = 1 from rfl]
  obtain ⟨-, -, rfl⟩ := (snprintf_eq_ok (by omega)).mp hw
  show 0 ≤ ((ascii "Q" ++ text).length : Int) + 1 ∧ ((ascii "Q" ++ text).length : Int) + 1 ≤ 1024
  omega

/-- **The player list reply.** If the text of a list fits, the datagram is `Q` and the whole text,
which is read back, exactly if the text of all players but the last is no longer than `CHAR_MAX`. -/
theorem listReply_iff (hc : Chain m.heap m.info.playerList es)
    (hfit : (render (sernums es)).length ≤ 575) :
    (∃ fuel r, listReply signed fuel playerListBuffer buffer m = .ok r ∧
        r.datagram = ascii "Q" ++ render (sernums es) ++ [0] ∧
        readSernums (r.datagram.drop 1).dropLast = sernums es) ↔
      (render (sernums es).dropLast).length ≤ charMax signed := by
  constructor
  · rintro ⟨fuel, r, h, hd, -⟩
    exact cursor_of_datagram hc ⟨fuel, r, h, hd⟩
  · intro hmax
    obtain ⟨fuel, r, h, hd⟩ := datagram_of_cursor hc hfit hmax
    refine ⟨fuel, r, h, hd, ?_⟩
    rw [hd]
    show readSernums (render (sernums es) ++ [0]).dropLast = _
    rw [List.dropLast_concat, readSernums_render]

theorem length_render_replicate (n : ℕ) :
    (render (List.replicate n 0x12345678)).length = n * 9 := by
  simp only [render, List.length_flatMap, List.map_replicate, List.sum_replicate_nat]
  rfl

/-- A memory with the player list `ps`. -/
theorem exists_mem (ps : List Player) : ∃ (m : Mem) (es : List Entry),
    Chain m.heap m.info.playerList es ∧ sernums es = ps.map Player.sernum := by
  obtain ⟨h, hd, es, hc, hes, -, -⟩ := exists_chain ps
  refine ⟨⟨h, { ServInfo.blank with playerList := hd }⟩, es, hc, ?_⟩
  rw [← hes, List.map_map]
  rfl

/-- Two players. -/
theorem listReply_two : ∃ m es, Chain m.heap m.info.playerList es ∧ sernums es = [0x123, 0x246] ∧
    ∃ fuel r, listReply true fuel (.zero 576) (.zero 1024) m = .ok r ∧
      r.datagram = ascii "Q123,246," ++ [0] := by
  obtain ⟨m, es, hc, hes⟩ := exists_mem [⟨5, 0x123⟩, ⟨6, 0x246⟩]
  have hes : sernums es = [0x123, 0x246] := hes
  obtain ⟨fuel, r, h, hd, -⟩ : ∃ fuel r,
      listReply true fuel (.zero 576) (.zero 1024) m = .ok r ∧
        r.datagram = ascii "Q" ++ render (sernums es) ++ [0] ∧
        readSernums (r.datagram.drop 1).dropLast = sernums es :=
    (listReply_iff hc (by rw [hes]; decide)).mpr (by rw [hes]; decide)
  refine ⟨m, es, hc, hes, fuel, r, h, ?_⟩
  rw [hd, hes]
  decide

/-- Thirty players with long serial numbers: the text fits, and is not sent, whether `char` is signed
or not. -/
theorem not_listReply_thirty : ∃ m es, Chain m.heap m.info.playerList es ∧
    sernums es = List.replicate 30 0x12345678 ∧ (render (sernums es)).length = 270 ∧
    ∀ signed playerListBuffer buffer, ¬ ∃ fuel r,
      listReply signed fuel playerListBuffer buffer m = .ok r ∧
        r.datagram = ascii "Q" ++ render (sernums es) ++ [0] := by
  obtain ⟨m, es, hc, hes⟩ := exists_mem (List.replicate 30 ⟨5, 0x12345678⟩)
  have hes : sernums es = List.replicate 30 0x12345678 := hes
  refine ⟨m, es, hc, hes, by rw [hes, length_render_replicate], fun signed _ _ h => ?_⟩
  have hmax := cursor_of_datagram hc h
  rw [hes, List.dropLast_replicate, length_render_replicate] at hmax
  cases signed <;> exact absurd hmax (by decide)

end Reply

end LwMix
