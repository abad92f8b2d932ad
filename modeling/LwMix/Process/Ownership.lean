import LwMix.Process.Threads
import LwMix.Server.Roster

/-!
# No thread takes another thread's messages

* `Acts`: what a step of a thread does to the sockets; one lemma for each thread.
* `Holds`, `Holds.step`: each thread's sockets are of its own kind, and stay so.
* `takes_own`: every message is taken by its thread, as long as no member of the `fd_set` of
  `serverInfoProvider` below `info_sock` is a socket of another thread (`Apart`).
* `takes_own_iff`: and otherwise `serverInfoProvider` can take a message from it (`steals`).
-/

namespace LwMix

/-! ## The sockets of a thread -/

/-- The sockets of the thread `i` stay open, with their kinds. -/
def Keeps (i : Thread) (t t' : Sockets) : Prop :=
  ∀ fd k, k.owner = i → t.kindOf fd = some k → t'.kindOf fd = some k

section Keeps

variable {i : Thread} {t t' : Sockets} {fd : ℕ} {k : SockKind}

theorem keeps_of_kindOf (h : t'.kindOf = t.kindOf) : Keeps i t t' := fun _ _ _ hk => h ▸ hk

theorem Keeps.openAt (h : t.openAt fd k = .ok t') : Keeps i t t' := by
  obtain ⟨hfree, -, hkind⟩ := SockTable.openAt_ok h
  intro x kx _ hx
  have hne : x ≠ fd := by
    rintro rfl
    rw [hfree] at hx
    cases hx
  rw [hkind, Function.update_of_ne hne, hx]

/-- A thread closes its own sockets only. -/
theorem Keeps.close (hk : t.kindOf fd = some k) (hne : k.owner ≠ i) : Keeps i t (t.close fd) := by
  intro x kx hkx hx
  have : x ≠ fd := by
    rintro rfl
    rw [hk] at hx
    cases hx
    exact hne hkx
  rw [SockTable.kindOf_close, Function.update_of_ne this, hx]

/-- A step of the thread `i` takes from its own sockets, and keeps those of the others. -/
structure Acts (i : Thread) (t t' : Sockets) : Prop where
  own : t.Own SockKind.owner → t'.Own SockKind.owner
  keeps : ∀ j, j ≠ i → Keeps j t t'

theorem Acts.refl (i : Thread) (t : Sockets) : Acts i t t := ⟨id, fun _ _ => keeps_of_kindOf rfl⟩

theorem Acts.close (hk : t.kindOf fd = some k) : Acts k.owner t (t.close fd) :=
  ⟨fun h => h.of_log rfl, fun _ hj => Keeps.close hk hj.symm⟩

theorem Acts.take {msg : List UInt8} (hk : t.kindOf fd = some k)
    (ht : t.take k.owner fd = .ok (msg, t')) : Acts k.owner t t' := by
  refine ⟨fun h => h.take ht fun k' hk' => ?_, fun _ _ => ?_⟩
  · rw [hk] at hk'
    cases hk'
    rfl
  · obtain ⟨-, -, -, hkind⟩ := SockTable.take_ok ht
    exact keeps_of_kindOf hkind

/-- A new socket comes after what the thread did. -/
theorem Acts.openAt {t₁ : Sockets} (h : Acts i t t₁) (ht : t₁.openAt fd k = .ok t') :
    Acts i t t' :=
  ⟨fun hown => (h.own hown).of_log (SockTable.openAt_ok ht).2.1,
    fun j hj x kx hkx hx => Keeps.openAt ht x kx hkx (h.keeps j hj x kx hkx hx)⟩

end Keeps

/-- The socket of the check-in thread. -/
def TimerState.sock : TimerState → Option ℕ
  | .top sock | .receiving sock => sock
  | .init | .stopped => none

/-- The members of `master` are sockets of `serverLoop`, also during a scan. -/
structure ServerOwns {π : Type} (t : Sockets) (s : LoopState π) : Prop where
  listener : t.kindOf s.listener = some .listener
  clients : ∀ fd ∈ s.master, fd ≠ s.listener → t.kindOf fd = some .client
  scan : ∀ i r, s.pc = .scan i r → ∀ j ∈ r, i ≤ j → j ∈ s.master

/-- `info_sock` is the socket of `serverInfoProvider`. -/
structure InfoOwns (t : Sockets) (s : InfoState) : Prop where
  sock : t.kindOf s.infoSock = some .info
  fdmax : s.fdmax = s.infoSock
  scan : ∀ i r, s.pc = .scan i r → r ⊆ s.master

section Effects

variable {π χ : Type} {P : PlayerOps π χ} {fdSetSize : ℕ} {t t' : Sockets}

theorem ServerOwns.mono {s : LoopState π} (h : ServerOwns t s) (hk : Keeps .serverLoop t t') :
    ServerOwns t' s :=
  ⟨hk _ _ rfl h.listener, fun fd hfd hne => hk _ _ rfl (h.clients fd hfd hne), h.scan⟩

theorem InfoOwns.mono {s : InfoState} (h : InfoOwns t s) (hk : Keeps .serverInfoProvider t t') :
    InfoOwns t' s :=
  ⟨hk _ _ rfl h.sock, h.fdmax, h.scan⟩

/-- The scan goes on after `i`. -/
theorem ServerOwns.next {s : LoopState π} {i : ℕ} {r : Finset ℕ} (h : ServerOwns t s)
    (hpc : s.pc = .scan i r) :
    ∀ i' r', Pc.scan (i + 1) r = .scan i' r' → ∀ j ∈ r', i' ≤ j → j ∈ s.master := by
  rintro _ _ ⟨⟩ j hj hij
  exact h.scan i r hpc j hj (by omega)

/-- A reported descriptor is a client or the listener. -/
theorem ServerOwns.client {s : LoopState π} {i : ℕ} {r : Finset ℕ} (h : ServerOwns t s)
    (hpc : s.pc = .scan i r) (hr : i ∈ r) (hl : i ≠ s.listener) : t.kindOf i = some .client :=
  h.clients i (h.scan i r hpc i hr le_rfl) hl

/-- `serverLoop` closes a client. -/
theorem ServerOwns.close {s s' : LoopState π} {i : ℕ} {r : Finset ℕ} (h : ServerOwns t s)
    (hpc : s.pc = .scan i r) (hl : i ≠ s.listener) (hpc' : s'.pc = .scan (i + 1) r)
    (hl' : s'.listener = s.listener) (hm' : s'.master = s.master.erase i) :
    ServerOwns (t.close i) s' := by
  refine ⟨?_, fun x hx hne => ?_, ?_⟩
  · rw [hl', SockTable.kindOf_close, Function.update_of_ne hl.symm, h.listener]
  · rw [hm'] at hx
    rw [hl'] at hne
    obtain ⟨hxi, hx⟩ := Finset.mem_erase.mp hx
    rw [SockTable.kindOf_close, Function.update_of_ne hxi, h.clients x hx hne]
  · rw [hpc', hm']
    rintro _ _ ⟨⟩ j hj hij
    exact Finset.mem_erase.mpr ⟨by omega, h.scan i r hpc j hj (by omega)⟩

/-- **A step of `serverLoop`** takes from its own sockets and closes no others. -/
theorem ServerOwns.step {s s' : LoopState π} {a : Answer χ} {e : Option Event}
    (h : ServerOwns t s) (hst : ServerLoop.Step P fdSetSize s a s' e)
    (hsel : ∀ ready, a = .select ready → ready ⊆ s.master)
    (ht : Process.serverEffect s a t = .ok t') :
    ServerOwns t' s' ∧ Acts .serverLoop t t' := by
  cases hst with
  | stop hpc =>
    cases ht
    exact ⟨⟨h.listener, h.clients, by simp⟩, .refl _ _⟩
  | select ready hpc =>
    cases ht
    refine ⟨⟨h.listener, h.clients, ?_⟩, .refl _ _⟩
    rintro i r ⟨⟩ j hj -
    exact hsel ready rfl hj
  | skip i readFds hpc hi =>
    cases ht
    exact ⟨⟨h.listener, h.clients, h.next hpc⟩, .refl _ _⟩
  | done i readFds hpc hi =>
    cases ht
    exact ⟨⟨h.listener, h.clients, by simp⟩, .refl _ _⟩
  | refuse i readFds x hpc hr hi =>
    cases ht
    exact ⟨⟨h.listener, h.clients, h.next hpc⟩, .refl _ _⟩
  | accept i readFds fd x players hpc hr hi hfd hp =>
    obtain ⟨⟨msg, t₁⟩, htake, hopen⟩ := bind_eq_ok.mp ht
    obtain ⟨-, -, -, hkind⟩ := SockTable.take_ok htake
    have h' := (h.mono (keeps_of_kindOf hkind)).mono (Keeps.openAt hopen)
    refine ⟨⟨h'.listener, fun x hx hne => ?_, ?_⟩, (Acts.take h.listener htake).openAt hopen⟩
    · rcases Finset.mem_insert.mp hx with rfl | hx
      · exact SockTable.kindOf_openAt hopen
      · exact h'.clients x hx hne
    · exact fun i' r' heq j hj hij => Finset.mem_insert_of_mem (h.next hpc i' r' heq j hj hij)
  | eof i readFds x players hpc hr hl hp =>
    rw [Process.serverEffect_close hpc (by simp)] at ht
    cases ht
    exact ⟨h.close hpc hl rfl rfl rfl, .close (h.client hpc hr hl)⟩
  | error i readFds x hpc hr hl =>
    rw [Process.serverEffect_close hpc (by simp)] at ht
    cases ht
    exact ⟨h.close hpc hl rfl rfl rfl, .close (h.client hpc hr hl)⟩
  | data i readFds x c hpc hr hl =>
    have htake := Process.serverEffect_take hpc ht
    obtain ⟨-, -, -, hkind⟩ := SockTable.take_ok htake
    have h' := h.mono (keeps_of_kindOf hkind)
    exact ⟨⟨h'.listener, h'.clients, h.next hpc⟩, .take (h.client hpc hr hl) htake⟩

/-- No member of `master` below `info_sock` is a client or the socket of the check-in thread. -/
def InfoState.Apart (t : Sockets) (s : InfoState) : Prop :=
  ∀ fd ∈ s.master, fd < s.infoSock → t.kindOf fd ≠ some .client ∧ t.kindOf fd ≠ some .master

/-- **A step of `serverInfoProvider`** closes no socket of another thread, and takes from `info_sock`
only if `master` is apart from the sockets of the others. -/
theorem InfoOwns.step {s s' : InfoState} {a : InfoAnswer} (h : InfoOwns t s) (hst : s.Step a s')
    (hsel : ∀ ready, a = .select ready → ready ⊆ s.master)
    (ht : Process.infoEffect s a t = .ok t') :
    (s'.pc ≠ .stopped → InfoOwns t' s') ∧ (∀ i, i ≠ .serverInfoProvider → Keeps i t t') ∧
      (s.Apart t → Acts .serverInfoProvider t t') := by
  cases hst with
  | stop hpc =>
    cases ht
    have hacts : Acts .serverInfoProvider t (t.close s.infoSock) := .close h.sock
    exact ⟨fun hs => absurd rfl hs, hacts.keeps, fun _ => hacts⟩
  | select ready hpc =>
    cases ht
    refine ⟨fun _ => ⟨h.sock, h.fdmax, ?_⟩, fun _ _ => keeps_of_kindOf rfl, fun _ => .refl _ _⟩
    rintro _ _ ⟨⟩
    exact hsel ready rfl
  | skip i readFds hpc hi hr =>
    cases ht
    refine ⟨fun _ => ⟨h.sock, h.fdmax, ?_⟩, fun _ _ => keeps_of_kindOf rfl, fun _ => .refl _ _⟩
    rintro _ _ ⟨⟩
    exact h.scan i readFds hpc
  | done i readFds hpc hi =>
    cases ht
    exact ⟨fun _ => ⟨h.sock, h.fdmax, by simp⟩, fun _ _ => keeps_of_kindOf rfl,
      fun _ => .refl _ _⟩
  | recvfrom i readFds msg hpc hi hr =>
    have hscan : ∀ j r, InfoPc.scan (i + 1) readFds = .scan j r → r ⊆ s.master := by
      rintro _ _ ⟨⟩
      exact h.scan i readFds hpc
    cases msg with
    | none =>
      cases ht
      exact ⟨fun _ => ⟨h.sock, h.fdmax, hscan⟩, fun _ _ => keeps_of_kindOf rfl,
        fun _ => .refl _ _⟩
    | some msg =>
      obtain ⟨hne, htake⟩ := (Process.infoEffect_take hpc).mp ht
      obtain ⟨k, hk, -, hkind⟩ := SockTable.take_ok htake
      refine ⟨fun _ => ⟨?_, h.fdmax, hscan⟩, fun _ _ => keeps_of_kindOf hkind, fun hA => ?_⟩
      · rw [hkind]
        exact h.sock
      -- `i` is `info_sock`, or a member of `master` below it
      · rcases Nat.lt_or_eq_of_le (h.fdmax ▸ hi) with hlt | rfl
        · obtain ⟨hc, hm⟩ := hA i (h.scan i readFds hpc hr) hlt
          cases k with
          | info => exact .take hk htake
          | listener => exact absurd hk hne
          | client => exact absurd hk hc
          | master => exact absurd hk hm
        · exact .take h.sock htake

/-- **A step of `masterCheckInTimer`** takes from its own socket and closes no other one. -/
theorem timer_step {s s' : TimerState} {a : TimerAnswer}
    (h : ∀ fd ∈ s.sock, t.kindOf fd = some .master) (hst : s.step a = .ok s')
    (ht : Process.timerEffect s a t = .ok t') :
    (∀ fd ∈ s'.sock, t'.kindOf fd = some .master) ∧ Acts .masterCheckInTimer t t' := by
  unfold TimerState.step at hst
  split at hst
  · rename_i sock
    cases hst
    refine ⟨by simp [TimerState.sock], ?_⟩
    cases sock with
    | none =>
      cases ht
      exact .refl _ _
    | some fd =>
      cases ht
      exact .close (h fd rfl)
  · cases hst
    cases ht
    exact ⟨h, .refl _ _⟩
  · cases hst
    cases ht
    exact ⟨h, .refl _ _⟩
  · rename_i sock reply
    cases hst
    cases reply with
    | none =>
      cases ht
      exact ⟨h, .refl _ _⟩
    | some msg =>
      cases sock with
      | none => cases ht
      | some fd =>
        have htake := SockTable.receive_ok ht
        obtain ⟨-, -, -, hkind⟩ := SockTable.take_ok htake
        refine ⟨fun x hx => ?_, .take (h fd rfl) htake⟩
        rw [hkind]
        exact h x hx
  · cases hst

end Effects

/-! ## The runs of the process -/

namespace Process

variable {π χ : Type} {P : PlayerOps π χ} {fdSetSize : ℕ} {w w' : Process π}

/-- Each thread has sockets of its own kind. -/
structure Holds (w : Process π) : Prop where
  server : ∀ s, w.server = some s → ServerOwns w.socks s
  info : w.info.Running → InfoOwns w.socks w.info
  timer : ∀ fd ∈ w.timer.sock, w.socks.kindOf fd = some .master

/-- No member of the `fd_set` of `serverInfoProvider` below `info_sock` is a client or the socket of
the check-in thread. -/
def Apart (w : Process π) : Prop := w.info.Running → w.info.Apart w.socks

instance (w : Process π) : Decidable (Apart w) :=
  inferInstanceAs (Decidable (w.info.Running → ∀ fd ∈ w.info.master, fd < w.info.infoSock →
    w.socks.kindOf fd ≠ some .client ∧ w.socks.kindOf fd ≠ some .master))

theorem Initial.holds (h : Initial w) : Holds w where
  server := by simp [h.server]
  info hr := absurd h.info hr.1
  timer := by simp [h.timer, TimerState.sock]

theorem Initial.own (h : Initial w) : w.socks.Own SockKind.owner := by
  simp [h.socks, SockTable.Own, SockTable.empty]

/-- The sockets change, and the sockets of all threads are kept. -/
theorem Holds.of_keeps (h : Holds w) {t : Sockets} (hk : ∀ i, Keeps i w.socks t) :
    Holds { w with socks := t } where
  server s hs := (h.server s hs).mono (hk _)
  info hr := (h.info hr).mono (hk _)
  timer fd hfd := hk .masterCheckInTimer fd _ rfl (h.timer fd hfd)

/-- **One step**: the threads keep their sockets, and take from them only as long as the `fd_set` is
apart. -/
theorem Holds.step {l : ProcessLabel π χ} (h : Holds w)
    (hst : (process P fdSetSize).step w l w') :
    Holds w' ∧ (Apart w → w.socks.Own SockKind.owner → w'.socks.Own SockKind.owner) := by
  cases step_cases P fdSetSize hst with
  | arrive fd msg t ht =>
    obtain ⟨hlog, hkind⟩ := SockTable.arrive_ok ht
    exact ⟨h.of_keeps fun _ => keeps_of_kindOf hkind, fun _ hown => hown.of_log hlog⟩
  | listen fd buffer players t ht =>
    have h' := h.of_keeps fun _ => Keeps.openAt ht
    refine ⟨⟨?_, h'.info, h'.timer⟩, fun _ hown => hown.of_log (SockTable.openAt_ok ht).2.1⟩
    rintro _ ⟨⟩
    refine ⟨SockTable.kindOf_openAt ht, fun x hx hne => absurd ?_ hne, by simp [ServerLoop.start]⟩
    simpa [ServerLoop.start] using hx
  | bindInfo fd t master ht =>
    have h' := h.of_keeps fun _ => Keeps.openAt ht
    exact ⟨⟨h'.server, fun _ => ⟨SockTable.kindOf_openAt ht, rfl, by simp⟩, h'.timer⟩,
      fun _ hown => hown.of_log (SockTable.openAt_ok ht).2.1⟩
  | connectMaster fd t ht =>
    have h' := h.of_keeps fun _ => Keeps.openAt ht
    refine ⟨⟨h'.server, h'.info, ?_⟩, fun _ hown => hown.of_log (SockTable.openAt_ok ht).2.1⟩
    rintro _ ⟨⟩
    exact SockTable.kindOf_openAt ht
  | noMaster => exact ⟨⟨h.server, h.info, by simp [TimerState.sock]⟩, fun _ hown => hown⟩
  | serverLoop a s s' e t hs hs' ht hsel =>
    obtain ⟨hserver, hacts⟩ :=
      (h.server s hs).step (ServerLoop.step_cases P fdSetSize hs') hsel ht
    refine ⟨⟨?_, fun hr => (h.info hr).mono (hacts.keeps _ (by decide)), fun fd hfd => ?_⟩,
      fun _ => hacts.own⟩
    · rintro _ ⟨⟩
      exact hserver
    · exact hacts.keeps .masterCheckInTimer (by decide) fd _ rfl (h.timer fd hfd)
  | serverInfoProvider a s' t hs' ht hsel =>
    have hr : w.info.Running := hs'.running
    obtain ⟨hinfo, hk, hacts⟩ := (h.info hr).step hs' hsel ht
    refine ⟨⟨fun s hs => (h.server s hs).mono (hk _ (by decide)), fun hr' => hinfo hr'.2,
      fun fd hfd => ?_⟩, fun hA => (hacts (hA hr)).own⟩
    exact hk .masterCheckInTimer (by decide) fd _ rfl (h.timer fd hfd)
  | masterCheckInTimer a s' t hs' ht =>
    obtain ⟨htimer, hacts⟩ := timer_step h.timer hs' ht
    exact ⟨⟨fun s hs => (h.server s hs).mono (hacts.keeps _ (by decide)),
      fun hr => (h.info hr).mono (hacts.keeps _ (by decide)), htimer⟩, fun _ => hacts.own⟩

theorem Initial.holds_reach (h₀ : Initial w) (h : (process P fdSetSize).Reach w w') : Holds w' :=
  h.invariant h₀.holds fun _ _ _ hh hst => (hh.step hst).1

/-- **No thread takes another thread's message**, in a run in which the `fd_set` of
`serverInfoProvider` stays apart from the sockets of the other threads. -/
theorem takes_own {p : List (ProcessLabel π χ × Process π)} (h₀ : Initial w)
    (h : (process P fdSetSize).Run w p) (hA : Lts.AllSteps (fun w _ => Apart w) w p) :
    ∀ x ∈ p, x.2.socks.Own SockKind.owner := fun x hx =>
  (h.always (I := fun w => Holds w ∧ w.socks.Own SockKind.owner) ⟨h₀.holds, h₀.own⟩
    (fun _ _ _ hI hG hst => ⟨(hI.1.step hst).1, (hI.1.step hst).2 hG hI.2⟩) hA x hx).2

/-! ### A check-in while `serverInfoProvider` waits -/

/-- No sockets yet. The `fd_set` of `serverInfoProvider` has the bits `garbage`. -/
def fresh (garbage : Finset ℕ) : Process Roster where
  socks := .empty
  server := none
  info := { pc := .init, infoSock := 0, master := garbage, fdmax := 0 }
  timer := .init

theorem fresh_initial (garbage : Finset ℕ) : Initial (fresh garbage) := ⟨rfl, rfl, rfl, rfl⟩

/-- The listener is `3`, the socket of the check-in thread `4`, and `info_sock` is `5`. A check-in is
sent and answered. -/
def checkedIn : List (ProcessLabel Roster Unit) :=
  [.listen 3 (.zero 4096) .empty, .connectMaster (some 4), .bindInfo (some 5),
    .masterCheckInTimer .checkIn, .arrive 4 (ascii "M")]

/-- The scan of `serverInfoProvider` for the socket `fd` only, where `msg` is received. -/
def infoRound (fd : ℕ) (msg : List UInt8) : List (ProcessLabel Roster Unit) :=
  .serverInfoProvider (.select {fd}) ::
    (List.replicate fd (.serverInfoProvider .next) ++ [.serverInfoProvider (.recvfrom (some msg))])

/-- `masterCheckIn` receives the reply, and `serverInfoProvider` a request. -/
def answered : List (ProcessLabel Roster Unit) :=
  checkedIn ++ [.masterCheckInTimer (.recv (some (ascii "M"))), .arrive 5 (ascii "Q")] ++
    infoRound 5 (ascii "Q")

def answeredRun : List (ProcessLabel Roster Unit × Process Roster) :=
  (Lts.path Admits (step Roster.ops 1024) (fresh {3}) answered).getD []

/-- The bit of the listener is set. -/
theorem takes_own_listener_bit : (process Roster.ops 1024).Run (fresh {3}) answeredRun ∧
    (answeredRun.getLast?.map fun x => x.2.socks.log) =
      some [⟨.masterCheckInTimer, .master, ascii "M"⟩, ⟨.serverInfoProvider, .info, ascii "Q"⟩] ∧
    ∀ x ∈ answeredRun, x.2.socks.Own SockKind.owner :=
  have h : (process Roster.ops 1024).Run (fresh {3}) answeredRun :=
    Lts.run_of_path answered rfl
  ⟨h, by decide, takes_own (fresh_initial {3}) h (by decide)⟩

/-- The bit of the check-in thread's socket is set: `serverInfoProvider` receives the reply. -/
theorem not_takes_own_master_bit : ∃ w, Initial (fresh {4}) ∧
    (process Roster.ops 1024).Reach (fresh {4}) w ∧
    w.socks.log = [⟨.serverInfoProvider, .master, ascii "M"⟩] ∧
    ¬ w.socks.Own SockKind.owner := by
  obtain ⟨w, hw, hlog⟩ : ∃ w, Lts.exec Admits (step Roster.ops 1024) (fresh {4})
      (checkedIn ++ infoRound 4 (ascii "M")) = some w ∧
      w.socks.log = [⟨.serverInfoProvider, .master, ascii "M"⟩] := ⟨_, rfl, rfl⟩
  refine ⟨w, fresh_initial {4}, Lts.reach_of_exec hw, hlog, ?_⟩
  rw [SockTable.Own, hlog]
  decide

/-! ## The set of `serverInfoProvider` decides -/

/-- A step of `serverInfoProvider`. -/
theorem reach_info {w₀ : Process π} {a : InfoAnswer} {s : InfoState} {t : Sockets}
    (h : (process P fdSetSize).Reach w₀ w) (hadm : Admits (χ := χ) w (.serverInfoProvider a))
    (hs : w.info.Step a s) (ht : infoEffect w.info a w.socks = .ok t) :
    (process P fdSetSize).Reach w₀ { w with socks := t, info := s } := by
  refine h.tail (l := .serverInfoProvider a) ⟨hadm, ?_⟩
  simp only [step, hs.eq, ht]
  rfl

/-- A scan of `serverInfoProvider` in which every `recvfrom` fails. -/
theorem reach_scan {i : ℕ} {r : Finset ℕ} (hpc : w.info.pc = .scan i r) (n : ℕ)
    (hn : i + n ≤ w.info.fdmax + 1) :
    (process P fdSetSize).Reach w { w with info := { w.info with pc := .scan (i + n) r } } := by
  induction n with
  | zero =>
    rw [Nat.add_zero, ← hpc]
    exact .refl
  | succ n ih =>
    have hi : i + n ≤ w.info.fdmax := by omega
    by_cases hr : i + n ∈ r
    · have h := reach_info (ih (by omega)) (a := .recvfrom none) trivial
        (.recvfrom (i + n) r none rfl hi hr) rfl
      exact h
    · have h := reach_info (ih (by omega)) (a := .next) trivial (.skip (i + n) r rfl hi hr) rfl
      exact h

/-- `serverInfoProvider` can come back to its loop test without receiving. -/
theorem reach_top (hr : w.info.Running) :
    (process P fdSetSize).Reach w { w with info := { w.info with pc := .top } } := by
  have hdone : ∀ {w' : Process π} {i : ℕ} {r : Finset ℕ},
      (process P fdSetSize).Reach w w' → w'.info.pc = .scan i r → w'.info.fdmax < i →
      (process P fdSetSize).Reach w { w' with info := { w'.info with pc := .top } } :=
    fun h hpc hi => reach_info h (a := .next) trivial (.done _ _ hpc hi) rfl
  match hpc : w.info.pc with
  | .init => exact absurd hpc hr.1
  | .stopped => exact absurd hpc hr.2
  | .top =>
    rw [← hpc]
    exact .refl
  | .scan i r =>
    by_cases hi : w.info.fdmax < i
    · exact hdone .refl hpc hi
    · have h' := hdone (reach_scan hpc (w.info.fdmax + 1 - i) (by omega)) rfl (by dsimp only; omega)
      exact h'

/-- If the set is not apart, `serverInfoProvider` can take a message of another thread. -/
theorem steals (h : Holds w) (hA : ¬ Apart w) :
    ∃ w', (process P fdSetSize).Reach w w' ∧ ¬ w'.socks.Own SockKind.owner := by
  simp only [Apart, InfoState.Apart, not_forall] at hA
  obtain ⟨hr, fd, hfd, hlt, hk⟩ := hA
  obtain ⟨k, hk, hl, hown⟩ : ∃ k, w.socks.kindOf fd = some k ∧ k ≠ .listener ∧
      k.owner ≠ .serverInfoProvider := by
    by_cases hc : w.socks.kindOf fd = some .client
    · exact ⟨.client, hc, by decide, by decide⟩
    · exact ⟨.master, not_not.mp fun hm => hk ⟨hc, hm⟩, by decide, by decide⟩
  have hmax : fd ≤ w.info.fdmax := by
    rw [(h.info hr).fdmax]
    exact hlt.le
  -- a message arrives, and `select` reports its socket
  obtain ⟨t₁, m, t₂, harr, htake⟩ := SockTable.exists_arrive_take hk [0] Thread.serverInfoProvider
  have h₁ : (process P fdSetSize).Reach w
      { w with socks := t₁, info := { w.info with pc := .top } } := by
    refine (reach_top hr).tail (l := .arrive fd [0]) ⟨trivial, ?_⟩
    simp only [step, harr]
    rfl
  have h₂ := reach_info h₁ (a := .select {fd}) (Finset.singleton_subset_iff.mpr hfd)
    (.select {fd} rfl) rfl
  -- the scan comes to it
  have h₃ := h₂.trans (reach_scan (i := 0) (r := {fd}) rfl fd (by dsimp only; omega))
  rw [Nat.zero_add] at h₃
  obtain ⟨-, hkind⟩ := SockTable.arrive_ok harr
  have hne : t₁.kindOf fd ≠ some .listener := by
    rw [hkind, hk]
    simpa using hl
  have h₄ := reach_info h₃ (a := .recvfrom (some m)) trivial
    (.recvfrom fd {fd} (some m) rfl hmax (Finset.mem_singleton_self fd))
    ((infoEffect_take rfl).mpr ⟨hne, htake⟩)
  refine ⟨_, h₄, fun hall => hown ?_⟩
  obtain ⟨k', hk', hlog, -⟩ := SockTable.take_ok htake
  rw [hkind, hk] at hk'
  cases hk'
  exact (hall ⟨.serverInfoProvider, k, m⟩ (by simp [hlog])).symm

/-- **The exact condition.** No reachable state has a message in the wrong thread iff the set stays
apart in every reachable state. -/
theorem takes_own_iff (h₀ : Initial w) :
    (∀ w', (process P fdSetSize).Reach w w' → w'.socks.Own SockKind.owner) ↔
      ∀ w', (process P fdSetSize).Reach w w' → Apart w' := by
  constructor
  · intro hown w' hw'
    refine Classical.byContradiction fun hA => ?_
    obtain ⟨w'', hw'', hn⟩ := steals (h₀.holds_reach hw') hA
    exact hn (hown w'' (hw'.trans hw''))
  · intro hA w' hw'
    induction hw' with
    | refl => exact h₀.own
    | tail hw hst ih => exact ((h₀.holds_reach hw).step hst).2 (hA _ hw) ih

end Process

end LwMix