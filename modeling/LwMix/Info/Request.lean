import LwMix.Base.Tokens
import LwMix.Info.Datagram

/-!
# The parse of a `'P'` request (`lwmix.c`)

The datagram is received into a buffer that keeps the bytes of earlier ones after it, and `strtok`
runs over the string that starts at its second byte.

* `parseRequest`: the code.
* `ParseLaw`, `parseLaw_iff`: the parse sees the fields of the datagram, and nothing after it,
  exactly if the datagram has a zero byte after its first one.
-/

namespace LwMix

/-- What the parse prints: the tokens, and the serial numbers. -/
structure Parsed where
  tokens : List (List UInt8)
  sernums : List (List UInt8)
  deriving DecidableEq, Repr

/-- The body of the loop over the tokens. -/
def Parsed.report (p : Parsed) (token : List UInt8) : Parsed where
  tokens := p.tokens ++ [token]
  sernums :=
    if strncmp 12 token (ascii "sernum=SOUL ") = 0 then p.sernums ++ [token.drop 7] else p.sernums

/-- The loop over the tokens of a request. -/
def parseRequest (fuel : ℕ) (buffer : Buf 1024) : Except Fault (Parsed × Scan 1024) :=
  scanTokens 0x2C Parsed.report fuel 1 ⟨buffer, 0, 0⟩ ⟨[], []⟩

/-- The fields of a request: the non-empty parts between commas, up to a zero byte. -/
def requestFields (d : List UInt8) : List (List UInt8) :=
  fields 0x2C ((d.drop 1).takeWhile (· ≠ 0))

/-- What is printed for the fields `ws`. -/
def reportOf (ws : List (List UInt8)) : Parsed where
  tokens := ws
  sernums := (ws.filter (ascii "sernum=SOUL ").isPrefixOf).map (·.drop 7)

/-- The parse prints the fields of the datagram, and accesses its bytes only. -/
def ParseLaw (d : List UInt8) (old : Buf 1024) : Prop :=
  ∃ fuel s, parseRequest fuel (old.recv d) = .ok (reportOf (requestFields d), s) ∧ s.hi ≤ d.length

section Parse

variable {d xs rest : List UInt8} {old buffer : Buf 1024} {x : UInt8} {fuel : ℕ}

theorem strncmp_sernum (w : List UInt8) : strncmp 12 w (ascii "sernum=SOUL ") = 0 ↔
    (ascii "sernum=SOUL ").isPrefixOf w = true := by
  rw [strncmp_eq_zero (by decide) (by decide), List.isPrefixOf_iff_prefix, List.prefix_iff_eq_take]
  exact eq_comm

theorem foldl_report (ws : List (List UInt8)) (p : Parsed) : ws.foldl Parsed.report p =
    ⟨p.tokens ++ (reportOf ws).tokens, p.sernums ++ (reportOf ws).sernums⟩ := by
  induction ws generalizing p with
  | nil => simp [reportOf]
  | cons w ws ih =>
    rw [List.foldl_cons, ih]
    by_cases hw : (ascii "sernum=SOUL ").isPrefixOf w = true
    · simp [Parsed.report, reportOf, strncmp_sernum, hw]
    · simp [Parsed.report, reportOf, strncmp_sernum, hw]

/-- The parse of a string that is terminated in the buffer. -/
theorem parseRequest_eq_ok (hb : buffer.bytes = x :: (xs ++ 0 :: rest)) (h0 : 0 ∉ xs)
    (hf : xs.length < fuel) :
    ∃ s, parseRequest fuel buffer = .ok (reportOf (fields 0x2C xs), s) ∧ s.hi = xs.length + 2 := by
  have hb' : (Scan.mk buffer 0 0).buf.bytes = [x] ++ (xs ++ 0 :: rest) := hb
  obtain ⟨s, hrun, hhi⟩ := scanTokens_eq_ok Parsed.report ⟨[], []⟩
    (show (0x2C : UInt8) ≠ 0 by decide) hb' h0 hf
  rw [foldl_report] at hrun
  exact ⟨s, hrun, by rw [hhi]; simp; omega⟩

/-- The parse ends at a zero byte of the buffer, and it determines the result. -/
theorem parseRequest_iff {r : Parsed × Scan 1024} (h : parseRequest fuel buffer = .ok r) :
    ∃ x xs rest, buffer.bytes = x :: (xs ++ 0 :: rest) ∧ 0 ∉ xs ∧
      r.1 = reportOf (fields 0x2C xs) ∧ r.2.hi = xs.length + 2 := by
  have hzero := scanTokens_zero h
  obtain ⟨x, ys, hb⟩ : ∃ x ys, buffer.bytes = x :: ys := by
    refine List.exists_cons_of_ne_nil fun hnil => ?_
    have := buffer.size
    simp [hnil] at this
  have hzero : 0 ∈ ys := by simpa [hb] using hzero
  obtain ⟨xs, rest, rfl, h0⟩ := List.eq_append_cons_of_mem hzero
  obtain ⟨s, hrun, hhi⟩ :=
    parseRequest_eq_ok hb h0 (show xs.length < fuel + (xs.length + 1) by omega)
  have hmono := scanTokens_mono h (xs.length + 1)
  rw [show scanTokens 0x2C Parsed.report (fuel + (xs.length + 1)) 1 ⟨buffer, 0, 0⟩ ⟨[], []⟩ = _
    from hrun] at hmono
  cases hmono
  exact ⟨x, xs, rest, hb, h0, rfl, hhi⟩

/-- A parse within the datagram ends at a zero byte of it. -/
theorem parseLaw_zero (hn : d.length ≤ 1024) (h : ParseLaw d old) : 0 ∈ d.drop 1 := by
  obtain ⟨fuel, s, hrun, hhi⟩ := h
  obtain ⟨x, xs, rest, hb, h0, -, hs⟩ := parseRequest_iff hrun
  have hbytes := recv_bytes (b := old) hn
  rw [hs] at hhi
  obtain ⟨c, ys, rfl⟩ : ∃ c ys, d = c :: ys := List.exists_cons_of_length_pos (by omega)
  -- The terminator is one of the bytes that were received.
  rw [hbytes, List.cons_append] at hb
  obtain ⟨-, hb⟩ := List.cons.inj hb
  have hlt : xs.length < ys.length := by
    rw [List.length_cons] at hhi
    omega
  have hget := congrArg (·[xs.length]?) hb
  simp only [List.getElem?_append_left hlt, List.getElem?_append_right (Nat.le_refl _),
    Nat.sub_self, List.getElem?_cons_zero] at hget
  exact List.mem_of_getElem? hget

/-- The parse of a datagram with a zero byte. -/
theorem parseLaw_of_zero (hn : d.length ≤ 1024) (hzero : 0 ∈ d.drop 1) : ParseLaw d old := by
  obtain ⟨c, ys, rfl⟩ : ∃ c ys, d = c :: ys := by
    refine List.exists_cons_of_ne_nil fun hnil => ?_
    rw [hnil] at hzero
    cases hzero
  obtain ⟨xs, rest, rfl, h0⟩ := List.eq_append_cons_of_mem (show 0 ∈ ys from hzero)
  have hb : (old.recv (c :: (xs ++ 0 :: rest))).bytes =
      c :: (xs ++ 0 :: (rest ++ old.bytes.drop (c :: (xs ++ 0 :: rest)).length)) := by
    rw [recv_bytes hn]
    simp
  obtain ⟨s, hrun, hhi⟩ := parseRequest_eq_ok hb h0 (Nat.lt_succ_self _)
  have hfields : requestFields (c :: (xs ++ 0 :: rest)) = fields 0x2C xs := by
    rw [requestFields, List.drop_one, List.tail_cons, takeWhile_terminated h0]
  rw [← hfields] at hrun
  refine ⟨_, s, hrun, ?_⟩
  rw [hhi]
  simp

/-- **The parse of a request** is right exactly if a zero byte follows the first byte of it. -/
theorem parseLaw_iff (hn : d.length ≤ 1024) : ParseLaw d old ↔ 0 ∈ d.drop 1 :=
  ⟨parseLaw_zero hn, parseLaw_of_zero hn⟩

/-- A request with empty fields, after an earlier datagram. -/
theorem parseLaw_terminated : ∃ d old, d = ascii "P,a=1,,sernum=SOUL 5000," ++ [0] ∧
    old = (Buf.zero 1024).recv (ascii "Gzz") ∧ ParseLaw d old ∧
      reportOf (requestFields d) =
        ⟨[ascii "a=1", ascii "sernum=SOUL 5000"], [ascii "SOUL 5000"]⟩ :=
  ⟨_, _, rfl, rfl, (parseLaw_iff (by decide)).mpr (by decide), by decide⟩

/-- A request without a terminator, after a longer datagram that is not answered: the token goes on
with the bytes of the earlier one. -/
theorem not_parseLaw_stale : ∃ old, old = (Buf.zero 1024).recv (ascii "Gzz") ∧
    requestFields (ascii "Pa") = [ascii "a"] ∧
      (∃ fuel s, parseRequest fuel (old.recv (ascii "Pa")) = .ok (reportOf [ascii "az"], s)) ∧
        ¬ ParseLaw (ascii "Pa") old := by
  refine ⟨_, rfl, by decide, ?_, fun h => absurd (parseLaw_zero (by decide) h) (by decide)⟩
  have hb : (((Buf.zero 1024).recv (ascii "Gzz")).recv (ascii "Pa")).bytes =
      0x50 :: (ascii "az" ++ 0 :: List.replicate 1020 0) := by
    rw [recv_bytes (by decide), recv_bytes (by decide), Buf.zero]
    rfl
  obtain ⟨s, hrun, -⟩ := parseRequest_eq_ok hb (by decide) (Nat.lt_succ_self _)
  exact ⟨_, s, hrun⟩

end Parse

end LwMix
