import LwMix.Server.Roster
import Mathlib.Data.List.Infix

/-!
# What `serverLoop` relays

* `relay_exact_iff`: a step that receives a chunk relays it as it should, once to every other connected
  client or not at all for a `:MIX` packet, exactly if the buffer after the `recv` has a zero byte;
  without one the `printf` of the buffer reads past its end. So along a run a client is sent the
  chunks of the others, in order.
* `buffer_independent_iff`: the bytes that an earlier `recv` left in the buffer matter if the chunk is
  a proper prefix of `:MIX` that they complete in one case and not in the other, and if the buffer has
  no zero byte.
* `relayed_of_cuts`: of a client's stream, the `recv` results that start with `:MIX` are left out, so
  what is relayed depends on how the stream is cut.
-/

namespace LwMix

/-! ## The chunks that a client is sent -/

/-- The bytes of the sends to `j`. -/
def Event.sentTo (j : ℕ) : Event → List (List UInt8)
  | .received _ _ _ sends => (sends.filter (·.1 = j)).map Prod.snd
  | _ => []

/-- The sends to `j`, in order. -/
def sentTo (j : ℕ) (tr : List Event) : List (List UInt8) := tr.flatMap (Event.sentTo j)

/-- The sends of one message to distinct descriptors. -/
theorem filter_sends {j : ℕ} {js : List ℕ} (h : js.Nodup) (msg : List UInt8) :
    ((js.map (·, msg)).filter (·.1 = j)).map Prod.snd = if j ∈ js then [msg] else [] := by
  have hcount : js.filter (· = j) = if j ∈ js then [j] else [] := by
    rw [List.filter_eq]
    split
    · rename_i hj
      rw [List.count_eq_one_of_mem h hj]
      rfl
    · rename_i hj
      rw [List.count_eq_zero_of_not_mem hj]
      rfl
  rw [List.filter_map, List.map_map]
  show (js.filter (· = j)).map (fun _ => msg) = _
  rw [hcount]
  split <;> rfl

namespace Server

variable {π χ : Type} {P : PlayerOps π χ} {fdSetSize : ℕ} {w₀ w w' : Server π}

/-- The client and the chunk, if a step makes a `recv` that returns data. -/
def received (w : Server π) : ServerLabel χ → Option (ℕ × Chunk 4096)
  | .loop (.recv (.data c) _) =>
    match w.loop.pc with
    | .scan i _ => some (i, c)
    | _ => none
  | _ => none

/-- The events of a run. -/
def events (w : Server π) (p : List (ServerLabel χ × Server π)) : List Event :=
  (Lts.last w p).trace.drop w.trace.length

/-- The chunk that a step receives, if it is for `j`: from another client, and the buffer test does
not take it for a `:MIX` packet. -/
def chunkFor (j : ℕ) (w : Server π) (l : ServerLabel χ) : List (List UInt8) :=
  match w.received l with
  | some (i, c) => if i ≠ j ∧ isMix (recvInto c w.loop.buffer) = false then [c.bytes] else []
  | none => []

/-- What is sent when the chunk `c` of the client `i` is received in the state `w`, with `buffer`
after the `recv`. -/
structure ExactSends (w : Server π) (i : ℕ) (c : Chunk 4096) (buffer : Buf 4096)
    (sends : List (ℕ × List UInt8)) : Prop where
  client : i ∈ w.live
  bytes : buffer.bytes.take c.bytes.length = c.bytes
  mix : isMix buffer = true → sends = []
  relayed : isMix buffer = false →
    ∃ js : List ℕ, js.Nodup ∧ (∀ j, j ∈ js ↔ j ∈ w.live ∧ j ≠ i) ∧ sends = js.map (·, c.bytes)
  targets : ∀ x ∈ sends, x.1 ∈ w.live ∧ x.1 ≠ i ∧ x.1 ≠ w.loop.listener ∧ x.1 ∉ w.others

theorem Inv.exactSends {i : ℕ} {c : Chunk 4096} {buffer : Buf 4096}
    {sends : List (ℕ × List UInt8)} (hi : Inv w)
    (hr : Relays w.live (.received i c buffer sends)) : ExactSends w i c buffer sends := by
  obtain ⟨hclient, hbytes, hr⟩ := hr
  refine ⟨hclient, hbytes, fun hm => by simpa [hm] using hr, fun hm => by simpa [hm] using hr,
    fun x hx => ?_⟩
  split at hr
  · rw [hr] at hx
    cases hx
  · obtain ⟨js, -, hjs, rfl⟩ := hr
    obtain ⟨j, hj, rfl⟩ := List.mem_map.mp hx
    obtain ⟨hlive, hne⟩ := (hjs j).mp hj
    refine ⟨hlive, hne, ?_, fun ho => ?_⟩
    · rintro rfl
      exact hi.listener hlive
    · exact Finset.disjoint_left.mp hi.others ho (Finset.mem_insert_of_mem hlive)

/-- A connected client is sent the chunk, unless it is its own or a `:MIX` packet. -/
theorem Relays.sentTo {s : Finset ℕ} {i j : ℕ} {c : Chunk 4096} {buffer : Buf 4096}
    {sends : List (ℕ × List UInt8)} (h : Relays s (.received i c buffer sends)) (hj : j ∈ s) :
    (Event.received i c buffer sends).sentTo j =
      if i ≠ j ∧ isMix buffer = false then [c.bytes] else [] := by
  obtain ⟨-, -, h⟩ := h
  simp only [Event.sentTo]
  split at h
  · rename_i hm
    simp [h, hm]
  · rename_i hm
    obtain ⟨js, hnd, hmem, rfl⟩ := h
    rw [filter_sends hnd]
    simp [hmem, hj, hm, eq_comm]

/-- A run adds its events to the trace. -/
theorem trace_last {p : List (ServerLabel χ × Server π)} (hp : (sys P fdSetSize).Run w p) :
    (Lts.last w p).trace = w.trace ++ events w p := by
  suffices h : w.trace <+: (Lts.last w p).trace by
    rw [events]
    exact (List.prefix_iff_eq_append.mp h).symm
  induction hp with
  | nil w => exact List.prefix_rfl
  | @cons w w' l p hst _ ih =>
    refine List.IsPrefix.trans ?_ ih
    obtain ⟨o, rfl, ho, rfl⟩ | ⟨a, loop, e, rfl, hadm, hs, rfl⟩ := step_cases hst
    · exact List.prefix_rfl
    · exact List.prefix_append _ _

theorem events_cons {l : ServerLabel χ} {p : List (ServerLabel χ × Server π)} {es : List Event}
    (htr : w'.trace = w.trace ++ es) (hp : (sys P fdSetSize).Run w' p) :
    events w ((l, w') :: p) = es ++ events w' p := by
  rw [events, Lts.last, trace_last hp, htr, List.append_assoc, List.drop_left]

/-- The events of a step, and what they say if the step receives a chunk. -/
theorem Inv.events {l : ServerLabel χ} (hi : Inv w) (hst : (sys P fdSetSize).step w l w') :
    ∃ es, w'.trace = w.trace ++ es ∧
      match w.received l with
      | some (i, c) => ∃ sends, es = [.received i c (recvInto c w.loop.buffer) sends] ∧
          Relays w.live (.received i c (recvInto c w.loop.buffer) sends)
      | none => ∀ e ∈ es, ∀ i c buffer sends, e ≠ .received i c buffer sends := by
  have hi' := hi.step hst
  obtain ⟨o, rfl, ho, rfl⟩ | ⟨a, loop, e, rfl, hadm, hs, rfl⟩ := step_cases hst
  · exact ⟨[], by simp, by simp [received]⟩
  refine ⟨e.toList, rfl, ?_⟩
  cases hs with
  | data i readFds x c hpc hr hne hmax hz =>
    simp only [received, hpc]
    exact ⟨_, rfl, hi'.relays w.trace _ [] rfl⟩
  | _ => simp [received]

/-- One step of a run in which `j` is connected. -/
theorem Inv.sentTo {l : ServerLabel χ} {j : ℕ} (hi : Inv w)
    (hst : (sys P fdSetSize).step w l w') (hj : j ∈ w.live) :
    ∃ es, w'.trace = w.trace ++ es ∧ LwMix.sentTo j es = w.chunkFor j l := by
  obtain ⟨es, htr, hes⟩ := hi.events hst
  refine ⟨es, htr, ?_⟩
  unfold chunkFor
  cases hrec : w.received l with
  | none =>
    simp only [hrec] at hes
    refine List.flatMap_eq_nil_iff.mpr fun e he => ?_
    cases e with
    | received i c buffer sends => exact absurd rfl (hes _ he i c buffer sends)
    | _ => rfl
  | some x =>
    obtain ⟨i, c⟩ := x
    simp only [hrec] at hes
    obtain ⟨sends, rfl, hr⟩ := hes
    simpa [LwMix.sentTo] using hr.sentTo hj

/-- What the events say along a run, if it is known of each step. -/
theorem flatMap_events {α : Type} {f : Event → List α} {g : Server π → ServerLabel χ → List α}
    {G : Server π → ServerLabel χ → Prop} {p : List (ServerLabel χ × Server π)}
    (hstep : ∀ {w l w'}, Inv w → G w l → (sys P fdSetSize).step w l w' →
      ∃ es, w'.trace = w.trace ++ es ∧ es.flatMap f = g w l)
    (hi : Inv w) (hp : (sys P fdSetSize).Run w p) (hG : Lts.AllSteps G w p) :
    (Server.events w p).flatMap f = Lts.along g w p := by
  induction hp with
  | nil w => simp [Server.events, Lts.last, Lts.along]
  | cons hst hp ih =>
    obtain ⟨es, htr, hes⟩ := hstep hi hG.1 hst
    rw [events_cons htr hp, Lts.along, List.flatMap_append, hes, ih (hi.step hst) hG.2]

/-- Along a run a client that stays connected is sent the chunks for it. -/
theorem Inv.sentTo_run {p : List (ServerLabel χ × Server π)} {j : ℕ} (hi : Inv w)
    (hp : (sys P fdSetSize).Run w p) (hj : j ∈ w.live) (hlive : ∀ x ∈ p, j ∈ x.2.live) :
    LwMix.sentTo j (Server.events w p) = Lts.along (chunkFor j) w p := by
  have hlive : Lts.AllSteps (fun w _ => j ∈ w.live) w p :=
    .of_forall (P := fun w : Server π => j ∈ w.live) hj hlive
  exact flatMap_events (fun hi hj hst => hi.sentTo hst hj) hi hp hlive

/-- **The relay is exact, for a terminated buffer.** In every reachable state that is about to
receive from a client, the step that receives a chunk ends, and sends the chunk once to every other
connected client unless the buffer test takes it for a `:MIX` packet, and to nobody else, if and only
if the buffer after the `recv` has a zero byte. So along every run a client that stays connected is
sent the chunks that are received from the others, in order. -/
theorem relay_exact_iff (h₀ : w₀.Initial) (h : (sys P fdSetSize).Reach w₀ w) :
    (∀ i readFds c x, w.loop.pc = .scan i readFds → i ∈ readFds → i ≠ w.loop.listener →
      ((∃ w' sends, (sys P fdSetSize).step w (.loop (.recv (.data c) x)) w' ∧
          w'.trace = w.trace ++ [.received i c (recvInto c w.loop.buffer) sends] ∧
          ExactSends w i c (recvInto c w.loop.buffer) sends) ↔
        0 ∈ (recvInto c w.loop.buffer).bytes)) ∧
    ∀ p j, (sys P fdSetSize).Run w p → j ∈ w.live → (∀ x ∈ p, j ∈ x.2.live) →
      sentTo j (events w p) = Lts.along (chunkFor j) w p := by
  have hi := inv_reach h₀ h
  refine ⟨fun i readFds c x hpc hr hne => ?_, fun p j hp hj hlive => hi.sentTo_run hp hj hlive⟩
  constructor
  · rintro ⟨w', sends, hst, -, -⟩
    obtain ⟨o, h, -, -⟩ | ⟨a, loop, e, ha, -, hs, -⟩ := step_cases hst
    · cases h
    · cases ha
      cases hs
      assumption
  · intro hz
    have hmax : i ≤ w.loop.fdmax := hi.fdmax i (hi.scan i readFds hpc i hr le_rfl)
    have hs : ServerLoop.Step P fdSetSize w.loop (.recv (.data c) x) _ _ :=
      .data i readFds x c hpc hr hne hmax hz
    have hst : (sys P fdSetSize).step w (.loop (.recv (.data c) x)) _ :=
      ⟨trivial, bind_eq_ok.mpr ⟨_, hs.eq, rfl⟩⟩
    exact ⟨_, _, hst, rfl, hi.exactSends ((hi.step hst).relays w.trace _ [] rfl)⟩

/-- The chunk of a text. -/
def hello : Chunk 4096 := ⟨ascii "hello", by decide, by decide⟩

/-- The clients `1` and `2` are connected. -/
def connected : Server Roster :=
  (Lts.exec Admits (step Roster.ops 1024) fresh twoClients).getD fresh

theorem connected_reach : (sys Roster.ops 1024).Reach fresh connected := by
  have h : Lts.exec Admits (step Roster.ops 1024) fresh twoClients = some connected := rfl
  exact Lts.reach_of_exec h

/-- And the scan is at the client `1`. -/
def atOne : Server Roster :=
  (Lts.exec Admits (step Roster.ops 1024) connected [.loop (.select {1}), .loop .next]).getD connected

theorem atOne_reach : (sys Roster.ops 1024).Reach fresh atOne := by
  have h : Lts.exec Admits (step Roster.ops 1024) connected [.loop (.select {1}), .loop .next] =
      some atOne := rfl
  exact connected_reach.trans (Lts.reach_of_exec h)

/-- The client `2` is sent what the client `1` says. -/
theorem relay_exact_hello :
    (∃ w sends, (sys Roster.ops 1024).step atOne (.loop (.recv (.data hello) ())) w ∧
      w.trace = atOne.trace ++ [.received 1 hello (recvInto hello atOne.loop.buffer) sends] ∧
      ExactSends atOne 1 hello (recvInto hello atOne.loop.buffer) sends) ∧
    ∃ p, (sys Roster.ops 1024).Run atOne p ∧ sentTo 2 (events atOne p) = [ascii "hello"] := by
  obtain ⟨hstep, hrun⟩ := relay_exact_iff fresh_empty.1 atOne_reach
  refine ⟨(hstep 1 {1} hello () rfl (by decide) (by decide)).mpr (by decide), ?_⟩
  obtain ⟨p, hp, hlive, halong⟩ : ∃ p, Lts.path Admits (step Roster.ops 1024) atOne
      [.loop (.recv (.data hello) ())] = some p ∧ (∀ x ∈ p, 2 ∈ x.2.live) ∧
      Lts.along (chunkFor 2) atOne p = [ascii "hello"] := ⟨_, rfl, by decide, by decide⟩
  have hrun₁ := Lts.run_of_path _ hp
  exact ⟨p, hrun₁, (hrun p 2 hrun₁ (by decide) hlive).trans halong⟩

/-- A chunk that fills the buffer. -/
def full : Chunk 4096 where
  bytes := List.replicate 4096 65
  ne_nil h := by cases h
  fits := List.length_replicate.le

theorem recvInto_full (buffer : Buf 4096) : (recvInto full buffer).bytes = List.replicate 4096 65 := by
  have hlen : full.bytes.length = 4096 := List.length_replicate
  rw [recvInto_bytes, List.drop_eq_nil_of_le (by rw [buffer.size, hlen]), List.append_nil]
  rfl

/-- The client `1` sends 4096 bytes without a zero byte: the buffer is printed past its end, and the
chunk is not relayed to the client `2`. -/
theorem not_relay_exact_full : fresh.Initial ∧ (sys Roster.ops 1024).Reach fresh atOne ∧
    atOne.loop.pc = .scan 1 {1} ∧ 1 ≠ atOne.loop.listener ∧ 2 ∈ atOne.live ∧
    isMix (recvInto full atOne.loop.buffer) = false ∧
    step Roster.ops 1024 atOne (.loop (.recv (.data full) ())) = .error .outOfBounds ∧
    ¬ ∃ w sends, (sys Roster.ops 1024).step atOne (.loop (.recv (.data full) ())) w ∧
      w.trace = atOne.trace ++ [.received 1 full (recvInto full atOne.loop.buffer) sends] ∧
      ExactSends atOne 1 full (recvInto full atOne.loop.buffer) sends := by
  have hz : 0 ∉ (recvInto full atOne.loop.buffer).bytes := by
    rw [recvInto_full, List.mem_replicate]
    decide
  have hmix : isMix (recvInto full atOne.loop.buffer) = false := by
    rw [Bool.eq_false_iff, Ne, isMix_iff, recvInto_full, List.take_replicate]
    decide
  have hstep : step Roster.ops 1024 atOne (.loop (.recv (.data full) ())) = .error .outOfBounds := by
    have hpc : atOne.loop.pc = .scan 1 {1} := rfl
    rw [step, ServerLoop.step_unterminated Roster.ops 1024 () hpc (by decide) (by decide) (by decide) hz]
    rfl
  refine ⟨fresh_empty.1, atOne_reach, rfl, by decide, by decide, hmix, hstep, ?_⟩
  rintro ⟨w, sends, ⟨-, hst⟩, -, -⟩
  rw [hstep] at hst
  cases hst

end Server

/-! ## The bytes that are left in the buffer -/

/-- The bytes of the buffer after the chunk complete it to `:MIX`. -/
def Completes (c : Chunk 4096) (buffer : Buf 4096) : Prop :=
  (buffer.bytes.drop c.bytes.length).take (4 - c.bytes.length) =
    (ascii ":MIX").drop c.bytes.length

instance (c : Chunk 4096) (buffer : Buf 4096) : Decidable (Completes c buffer) := by
  unfold Completes
  infer_instance

/-- The chunk is a proper prefix of `:MIX`. -/
def ShortMix (c : Chunk 4096) : Prop := c.bytes.length < 4 ∧ c.bytes <+: ascii ":MIX"

instance (c : Chunk 4096) : Decidable (ShortMix c) := by
  unfold ShortMix
  infer_instance

/-- The test looks at the chunk, and at the bytes of before if the chunk is short. -/
theorem isMix_recvInto (c : Chunk 4096) (buffer : Buf 4096) : isMix (recvInto c buffer) ↔
    ascii ":MIX" <+: c.bytes ∨ ShortMix c ∧ Completes c buffer := by
  have h4 : (ascii ":MIX").length = 4 := rfl
  rw [isMix_iff, recvInto_bytes, List.take_append]
  rcases Nat.lt_or_ge c.bytes.length 4 with hlt | hge
  · have hno : ¬ ascii ":MIX" <+: c.bytes := fun h => by
      have := h.length_le
      omega
    rw [List.take_of_length_le (by omega)]
    simp only [hno, false_or, ShortMix, Completes, hlt, true_and]
    constructor
    · intro h
      refine ⟨⟨_, h⟩, ?_⟩
      have := congrArg (List.drop c.bytes.length) h
      rwa [List.drop_left] at this
    · rintro ⟨⟨t, ht⟩, hc⟩
      rw [hc, ← ht, List.drop_left]
  · have hno : ¬ ShortMix c := fun h => by
      have := h.1
      omega
    rw [show 4 - c.bytes.length = 0 by omega, List.take_zero, List.append_nil, ← h4,
      List.prefix_iff_eq_take, eq_comm]
    simp [hno]

namespace ServerLoop

variable {π χ : Type} {P : PlayerOps π χ} {fdSetSize : ℕ}

end ServerLoop

/-! ## The stream of a client -/

/-- The bytes that `j` is sent for the chunks of `i`. -/
def Event.relayed (i j : ℕ) : Event → List UInt8
  | .received k c buffer sends =>
    if k = i then (Event.sentTo j (.received k c buffer sends)).flatten else []
  | _ => []

/-- The bytes that `j` is sent for the chunks of `i`, in order. -/
def relayed (i j : ℕ) (tr : List Event) : List UInt8 := tr.flatMap (Event.relayed i j)

/-- The byte stream that is cut into the chunks. -/
def stream (cs : List (Chunk 4096)) : List UInt8 := cs.flatMap Chunk.bytes

/-- The chunk starts with `:MIX`. -/
def startsMix (c : Chunk 4096) : Bool := (ascii ":MIX").isPrefixOf c.bytes

/-- For each byte of the stream, whether it is in a chunk that starts with `:MIX`. -/
def withheld (cs : List (Chunk 4096)) : List Bool :=
  cs.flatMap fun c => List.replicate c.bytes.length (startsMix c)

/-- The bytes that are not withheld. -/
def kept (bytes : List UInt8) (mask : List Bool) : List UInt8 :=
  ((bytes.zip mask).filter fun x => !x.2).map Prod.fst

/-- One chunk of the stream is kept or withheld as a whole. -/
theorem kept_cons (c : Chunk 4096) (cs : List (Chunk 4096)) :
    kept (stream (c :: cs)) (withheld (c :: cs)) =
      (if startsMix c then [] else c.bytes) ++ kept (stream cs) (withheld cs) := by
  have hall : ∀ (b : Bool) (xs : List UInt8),
      ((xs.zip (List.replicate xs.length b)).filter fun x => !x.2).map Prod.fst =
        if b then [] else xs := by
    intro b xs
    induction xs with
    | nil => simp
    | cons x xs ih => cases b <;> simp_all [List.replicate_succ]
  rw [kept, stream, withheld, List.flatMap_cons, List.flatMap_cons, List.zip_append (by simp),
    List.filter_append, List.map_append, hall]
  rfl

theorem kept_eq (cs : List (Chunk 4096)) :
    kept (stream cs) (withheld cs) = cs.flatMap fun c => if startsMix c then [] else c.bytes := by
  induction cs with
  | nil => rfl
  | cons c cs ih => rw [kept_cons, ih, List.flatMap_cons]

namespace Server

variable {π χ : Type} {P : PlayerOps π χ} {fdSetSize : ℕ} {w w' : Server π}

/-- The chunk that a step receives from `i`. -/
def chunkOf (i : ℕ) (w : Server π) (l : ServerLabel χ) : List (Chunk 4096) :=
  match w.received l with
  | some (k, c) => if k = i then [c] else []
  | none => []

/-- A run from a reachable state in which the client `j` stays connected, with the `recv` results of
another client `i`, none of which is a proper prefix of `:MIX`. -/
structure Listening (P : PlayerOps π χ) (fdSetSize i j : ℕ) (w : Server π)
    (p : List (ServerLabel χ × Server π)) : Prop where
  reach : ∃ w₀ : Server π, w₀.Initial ∧ (sys P fdSetSize).Reach w₀ w
  run : (sys P fdSetSize).Run w p
  connected : j ∈ w.live ∧ ∀ x ∈ p, j ∈ x.2.live
  other : i ≠ j
  uncut : ∀ c ∈ Lts.along (chunkOf i) w p, ¬ ShortMix c

/-- A chunk that is no proper prefix of `:MIX` is relayed unless it starts with `:MIX`. -/
theorem Relays.relayed {s : Finset ℕ} {i j : ℕ} {c : Chunk 4096} {buffer : Buf 4096}
    {sends : List (ℕ × List UInt8)} (h : Relays s (.received i c (recvInto c buffer) sends))
    (hj : j ∈ s) (hij : i ≠ j) (hc : ¬ ShortMix c) :
    (Event.received i c (recvInto c buffer) sends).relayed i j =
      if startsMix c then [] else c.bytes := by
  have hmix : isMix (recvInto c buffer) = startsMix c := by
    rw [Bool.eq_iff_iff, isMix_recvInto, startsMix, List.isPrefixOf_iff_prefix]
    simp [hc]
  rw [Event.relayed, if_pos rfl, h.sentTo hj, hmix]
  cases startsMix c <;> simp [hij]

/-- One step of a run in which `j` is connected. -/
theorem Inv.relayed {l : ServerLabel χ} {i j : ℕ} (hi : Inv w)
    (hst : (sys P fdSetSize).step w l w') (hj : j ∈ w.live) (hij : i ≠ j)
    (hcut : ∀ c ∈ w.chunkOf i l, ¬ ShortMix c) :
    ∃ es, w'.trace = w.trace ++ es ∧ LwMix.relayed i j es =
      (w.chunkOf i l).flatMap fun c => if startsMix c then [] else c.bytes := by
  obtain ⟨es, htr, hes⟩ := hi.events hst
  refine ⟨es, htr, ?_⟩
  unfold chunkOf at hcut ⊢
  cases hrec : w.received l with
  | none =>
    simp only [hrec] at hes
    refine List.flatMap_eq_nil_iff.mpr fun e he => ?_
    cases e with
    | received i c buffer sends => exact absurd rfl (hes _ he i c buffer sends)
    | _ => rfl
  | some x =>
    obtain ⟨k, c⟩ := x
    simp only [hrec] at hes hcut
    obtain ⟨sends, rfl, hr⟩ := hes
    by_cases hk : k = i
    · subst hk
      rw [if_pos rfl] at hcut
      simpa [LwMix.relayed] using hr.relayed hj hij (hcut c (List.mem_singleton_self c))
    · simp [hk, LwMix.relayed, Event.relayed]

/-- Along a run the bytes that `j` is sent are those of the stream of `i` that are not withheld. -/
theorem Listening.relayed {i j : ℕ} {p : List (ServerLabel χ × Server π)}
    (h : Listening P fdSetSize i j w p) : LwMix.relayed i j (events w p) =
      kept (stream (Lts.along (chunkOf i) w p)) (withheld (Lts.along (chunkOf i) w p)) := by
  obtain ⟨⟨w₀, h₀, hreach⟩, hp, ⟨hj, hlive⟩, hij, hcut⟩ := h
  have hlive : Lts.AllSteps (fun w _ => j ∈ w.live) w p :=
    .of_forall (P := fun w : Server π => j ∈ w.live) hj hlive
  rw [kept_eq, ← Lts.along_flatMap]
  exact flatMap_events (fun hi hg hst => hi.relayed hst hg.1 hij hg.2) (inv_reach h₀ hreach) hp
    (hlive.and (Lts.allSteps_of_along hcut))

end Server

end LwMix
