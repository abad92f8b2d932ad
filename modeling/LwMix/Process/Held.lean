import LwMix.Process.Loop

/-!
# The open sockets of the process

* `Holder`: a thread has the descriptor. `Holder.step`: one step.
* `open_iff`: in every reachable state the open sockets are those that a thread has.
* `open_sockets`: which ones they are after a run. `serverLoop` closes nothing when it leaves its
  loop.
-/

namespace LwMix

section Effects

variable {π χ : Type} {P : PlayerOps π χ} {fdSetSize fd : ℕ} {t t' : Sockets}

/-- **A step of `serverLoop`**: what is open after it is in `master`, or was open and has not left
`master`. -/
theorem serverLoop_open {s s' : LoopState π} {a : Answer χ} {e : Option Event}
    (hst : ServerLoop.Step P fdSetSize s a s' e) (ht : Process.serverEffect s a t = .ok t')
    (hfd : t'.kindOf fd ≠ none) :
    fd ∈ s'.master ∨ t.kindOf fd ≠ none ∧ (fd ∈ s.master → fd ∈ s'.master) := by
  cases hst with
  | stop hpc | select ready hpc | skip i readFds hpc hi | done i readFds hpc hi
  | refuse i readFds x hpc hr hi =>
    cases ht
    exact .inr ⟨hfd, id⟩
  | accept i readFds newfd x players hpc hr hi hnew hp =>
    obtain ⟨⟨msg, t₁⟩, htake, hopen⟩ := bind_eq_ok.mp ht
    obtain ⟨-, -, -, hkind⟩ := SockTable.take_ok htake
    rcases SockTable.open_of_openAt hopen hfd with rfl | hfd
    · exact .inl (Finset.mem_insert_self _ _)
    · rw [hkind] at hfd
      exact .inr ⟨hfd, Finset.mem_insert_of_mem⟩
  | eof i readFds x players hpc hr hl hp =>
    rw [Process.serverEffect_close hpc (by simp)] at ht
    cases ht
    obtain ⟨hne, hfd⟩ := SockTable.open_of_close hfd
    exact .inr ⟨hfd, fun hm => Finset.mem_erase.mpr ⟨hne, hm⟩⟩
  | error i readFds x hpc hr hl =>
    rw [Process.serverEffect_close hpc (by simp)] at ht
    cases ht
    obtain ⟨hne, hfd⟩ := SockTable.open_of_close hfd
    exact .inr ⟨hfd, fun hm => Finset.mem_erase.mpr ⟨hne, hm⟩⟩
  | data i readFds x c hpc hr hl =>
    obtain ⟨-, -, -, hkind⟩ := SockTable.take_ok (Process.serverEffect_take hpc ht)
    rw [hkind] at hfd
    exact .inr ⟨hfd, id⟩

/-- **A step of `serverInfoProvider`** keeps `info_sock` unless it closes it. -/
theorem serverInfoProvider_open {s s' : InfoState} {a : InfoAnswer} (hst : s.Step a s')
    (ht : Process.infoEffect s a t = .ok t') (hfd : t'.kindOf fd ≠ none) :
    t.kindOf fd ≠ none ∧ (fd = s.infoSock → s'.Running ∧ fd = s'.infoSock) := by
  cases hst with
  | stop hpc =>
    cases ht
    obtain ⟨hne, hfd⟩ := SockTable.open_of_close hfd
    exact ⟨hfd, fun h => absurd h hne⟩
  | select ready hpc | skip i readFds hpc hi hr | done i readFds hpc hi =>
    cases ht
    exact ⟨hfd, fun h => ⟨⟨nofun, nofun⟩, h⟩⟩
  | recvfrom i readFds msg hpc hi hr =>
    refine ⟨?_, fun h => ⟨⟨nofun, nofun⟩, h⟩⟩
    cases msg with
    | none =>
      cases ht
      exact hfd
    | some msg =>
      obtain ⟨-, htake⟩ := (Process.infoEffect_take hpc).mp ht
      obtain ⟨-, -, -, hkind⟩ := SockTable.take_ok htake
      rwa [hkind] at hfd

/-- **A step of `masterCheckInTimer`** keeps its socket unless it closes it. -/
theorem masterCheckInTimer_open {s s' : TimerState} {a : TimerAnswer} (hst : s.step a = .ok s')
    (ht : Process.timerEffect s a t = .ok t') (hfd : t'.kindOf fd ≠ none) :
    t.kindOf fd ≠ none ∧ (s.sock = some fd → s'.sock = some fd) := by
  unfold TimerState.step at hst
  split at hst
  · rename_i sock
    cases hst
    cases sock with
    | none =>
      cases ht
      exact ⟨hfd, nofun⟩
    | some x =>
      cases ht
      obtain ⟨hne, hfd⟩ := SockTable.open_of_close hfd
      exact ⟨hfd, fun h => absurd (Option.some.inj h).symm hne⟩
  · cases hst
    cases ht
    exact ⟨hfd, id⟩
  · cases hst
    cases ht
    exact ⟨hfd, id⟩
  · rename_i sock reply
    cases hst
    refine ⟨?_, id⟩
    cases reply with
    | none =>
      cases ht
      exact hfd
    | some msg =>
      cases sock with
      | none => cases ht
      | some x =>
        obtain ⟨-, -, -, hkind⟩ := SockTable.take_ok (SockTable.receive_ok ht)
        rwa [hkind] at hfd
  · cases hst

end Effects

namespace Process

variable {π χ : Type} {P : PlayerOps π χ} {fdSetSize : ℕ} {w w₀ w' : Process π}

theorem mem_others {fd : ℕ} :
    fd ∈ w.others ↔ w.info.Running ∧ fd = w.info.infoSock ∨ w.timer.sock = some fd := by
  unfold others
  rw [Finset.mem_union, Option.mem_toFinset]
  by_cases hr : w.info.Running <;> simp [hr, Option.mem_def]

/-- A thread has the descriptor. -/
def Holder (w : Process π) (fd : ℕ) : Prop :=
  (∃ s, w.server = some s ∧ fd ∈ s.master) ∨ fd ∈ w.others

/-- A thread creates its socket once. -/
theorem bindInfo_init {fd : Option ℕ} (hst : (process P fdSetSize).step w (.bindInfo fd) w') :
    w.info.pc = .init := by
  obtain ⟨-, hst⟩ := hst
  simp only [step] at hst
  split at hst
  · assumption
  · assumption
  · cases hst

theorem connectMaster_init {fd : Option ℕ}
    (hst : (process P fdSetSize).step w (.connectMaster fd) w') : w.timer = .init := by
  obtain ⟨-, hst⟩ := hst
  simp only [step] at hst
  split at hst
  · assumption
  · assumption
  · cases hst

/-- **One step** opens no socket for nobody, and no thread loses one that is open. -/
theorem Holder.step {l : ProcessLabel π χ} (h : ∀ fd, w.socks.kindOf fd ≠ none → w.Holder fd)
    (hst : (process P fdSetSize).step w l w') :
    ∀ fd, w'.socks.kindOf fd ≠ none → w'.Holder fd := by
  intro fd hfd
  cases step_cases P fdSetSize hst with
  | arrive x msg t ht =>
    obtain ⟨-, hkind⟩ := SockTable.arrive_ok ht
    exact h fd (hkind ▸ hfd)
  | listen x buffer players t ht =>
    rcases SockTable.open_of_openAt ht hfd with rfl | hfd
    · exact .inl ⟨_, rfl, Finset.mem_singleton_self _⟩
    · rcases h fd hfd with ⟨s, hs, -⟩ | ho
      · rw [listen_none hst] at hs
        cases hs
      · exact .inr ho
  | bindInfo x t master ht =>
    rcases SockTable.open_of_openAt ht hfd with rfl | hfd
    · exact .inr (mem_others.mpr (.inl ⟨⟨nofun, nofun⟩, rfl⟩))
    · rcases h fd hfd with hm | ho
      · exact .inl hm
      · exact .inr (mem_others.mpr ((mem_others.mp ho).imp_left fun hr =>
          absurd (bindInfo_init hst) hr.1.1))
  | connectMaster x t ht =>
    rcases SockTable.open_of_openAt ht hfd with rfl | hfd
    · exact .inr (mem_others.mpr (.inr rfl))
    · rcases h fd hfd with hm | ho
      · exact .inl hm
      · refine .inr (mem_others.mpr ((mem_others.mp ho).imp_right fun hs => ?_))
        rw [connectMaster_init hst] at hs
        cases hs
  | noMaster =>
    rcases h fd hfd with hm | ho
    · exact .inl hm
    · refine .inr (mem_others.mpr ((mem_others.mp ho).imp_right fun hs => ?_))
      rw [connectMaster_init hst] at hs
      cases hs
  | serverLoop a s s' e t hs hs' ht hsel =>
    rcases serverLoop_open (ServerLoop.step_cases P fdSetSize hs') ht hfd with hm | ⟨hfd, hkeep⟩
    · exact .inl ⟨s', rfl, hm⟩
    · rcases h fd hfd with ⟨s₁, hs₁, hm⟩ | ho
      · obtain rfl := Option.some.inj (hs.symm.trans hs₁)
        exact .inl ⟨s', rfl, hkeep hm⟩
      · exact .inr ho
  | serverInfoProvider a s' t hs' ht hsel =>
    obtain ⟨hfd, hkeep⟩ := serverInfoProvider_open hs' ht hfd
    rcases h fd hfd with hm | ho
    · exact .inl hm
    · exact .inr (mem_others.mpr ((mem_others.mp ho).imp_left fun hr => hkeep hr.2))
  | masterCheckInTimer a s' t hs' ht =>
    obtain ⟨hfd, hkeep⟩ := masterCheckInTimer_open hs' ht hfd
    rcases h fd hfd with hm | ho
    · exact .inl hm
    · exact .inr (mem_others.mpr ((mem_others.mp ho).imp_right hkeep))

/-- In every reachable state the open sockets are those that a thread has. -/
theorem open_iff (h₀ : Initial w₀) (h : (process P fdSetSize).Reach w₀ w) (fd : ℕ) :
    w.socks.kindOf fd ≠ none ↔ w.Holder fd := by
  constructor
  · refine h.invariant (I := fun w => ∀ fd, w.socks.kindOf fd ≠ none → w.Holder fd) ?_
      (fun _ _ _ hi hst => Holder.step hi hst) fd
    rw [h₀.socks]
    exact fun _ hopen => absurd rfl hopen
  · have hh := h₀.holds_reach h
    rintro (⟨s, hs, hm⟩ | ho)
    · rcases hh.mem_master hs hm with hk | hk <;> simp [hk]
    · rcases hh.mem_others ho with hk | hk <;> simp [hk]

/-- A client joins on the descriptor `6`, and then every thread stops. -/
def joinedAndStopped : List (ProcessLabel Roster Unit) :=
  [.listen 3 (.zero 4096) .empty, .connectMaster (some 4), .bindInfo (some 5), .arrive 3 [],
    .serverLoop (.select {3})] ++ List.replicate 3 (.serverLoop .next) ++
  .serverLoop (.accept (some 6) ()) :: (List.replicate 4 (.serverLoop .next) ++
    [.serverLoop .stop, .serverInfoProvider .stop, .masterCheckInTimer .stop])

/-- The run of `joinedAndStopped`. -/
def stoppedRun : List (ProcessLabel Roster Unit × Process Roster) :=
  (Lts.path Admits (step Roster.ops 1024) (fresh ∅) joinedAndStopped).getD []

/-- **The sockets of the process.** After every run the open sockets are the listener, if it was
created, the clients that were accepted and not closed, by the events of the run, `info_sock` while its
thread runs, and the socket of the check-in thread until it stops. So the listener and the clients stay
open after every thread has stopped. -/
theorem open_sockets (h₀ : Initial w₀) {p : List (ProcessLabel π χ × Process π)}
    (h : (process P fdSetSize).Run w₀ p) (fd : ℕ) :
    (Lts.last w₀ p).socks.kindOf fd ≠ none ↔
      (∃ s, (Lts.last w₀ p).server = some s ∧
        (fd = s.listener ∨ fd ∈ live (Lts.along (loopEvents P fdSetSize) w₀ p))) ∨
      ((Lts.last w₀ p).info.Running ∧ fd = (Lts.last w₀ p).info.infoSock ∨
        (Lts.last w₀ p).timer.sock = some fd) := by
  rw [open_iff h₀ h.reach_last, ← mem_others]
  refine or_congr_left (exists_congr fun s => and_congr_right fun hs => ?_)
  obtain ⟨v₀, v, hv₀, hr, rfl, -, htrace⟩ := (loop_run h₀ h).2 s hs
  rw [← htrace, (Server.inv_reach hv₀ hr).master]
  exact Finset.mem_insert

/-- Every thread has stopped, and the listener and the client are open. -/
theorem open_sockets_stopped : (process Roster.ops 1024).Run (fresh ∅) stoppedRun ∧
    (Lts.last (fresh ∅) stoppedRun).server.map (·.pc) = some .stopped ∧
    (Lts.last (fresh ∅) stoppedRun).info.pc = .stopped ∧
    (Lts.last (fresh ∅) stoppedRun).timer.sock = none ∧
    (Lts.last (fresh ∅) stoppedRun).socks.kindOf 3 ≠ none ∧
    (Lts.last (fresh ∅) stoppedRun).socks.kindOf 6 ≠ none := by
  have hrun : (process Roster.ops 1024).Run (fresh ∅) stoppedRun :=
    Lts.run_of_path joinedAndStopped rfl
  have hopen := open_sockets (fresh_initial ∅) hrun
  have hlive : live (Lts.along (loopEvents Roster.ops 1024) (fresh ∅) stoppedRun) = {6} := by decide
  exact ⟨hrun, rfl, rfl, rfl, (hopen 3).mpr (.inl ⟨_, rfl, .inl rfl⟩),
    (hopen 6).mpr (.inl ⟨_, rfl, .inr (by rw [hlive]; exact Finset.mem_singleton_self _)⟩)⟩

end Process

end LwMix
