import Mathlib
import AuOs.Threads.Cond

/-!
# The scheduler keeps the invariant

* `Scheduled` — the state between `__schedule` and the return to the thread that runs then.
* `threadSwitchTo_spec`, `schedulePick_spec` — every way through `__schedule`.
* `leaveScheduler_inv` — the thread that runs then goes on with what it had called the scheduler
  for.
* `schedule_spec`, `forceSchedule_spec`, `pitHandler_spec` — the whole calls.
-/

set_option autoImplicit false

namespace AuOs

namespace Threads

variable {s s' : Threads} {t : Tid}

/-! ## What a thread's point of the code says of its state -/

theorem ThreadOk.pc_of_finishing {th : Thread} {running : Prop} (h : ThreadOk th running)
    (hs : th.state = .finishing) : th.pc = .exiting := by
  have hok := h.state
  unfold StateOk at hok
  split at hok <;> simp_all

theorem ThreadOk.pc_ne_exiting {th : Thread} {running : Prop} (h : ThreadOk th running)
    (hs : th.state = .active ∨ th.state = .idle) : th.pc ≠ .exiting := fun hpc => by
  have hok := h.state
  unfold StateOk at hok
  rw [hpc] at hok
  rcases hs with hs | hs <;> simp [hs] at hok

theorem ThreadOk.ne_blocked_of_idle {th : Thread} {running : Prop} (h : ThreadOk th running)
    (hi : InIdle th) : th.state = .idle ∨ th.state = .active ∧ th.pc = .idleMark := by
  have hok := h.state
  unfold StateOk at hok
  rcases hi with hi | hi <;> rw [hi] at hok
  · exact Or.inr ⟨hok, hi⟩
  · exact Or.inl hok

/-- A thread that is active or idle may be switched to. -/
theorem ThreadOk.switchTo {th : Thread} {running : Prop} (h : ThreadOk th running)
    (hs : th.state = .active ∨ th.state = .idle) (time : UInt64) :
    ThreadOk { th with time := time } True where
  state := by
    have hok := h.state
    have hpc := h.pc_ne_exiting hs
    unfold StateOk at hok ⊢
    rcases hs with hs | hs <;> revert hok <;> cases hth : th.pc <;> simp_all
  unactivated := h.unactivated
  resume := fun hn => absurd trivial hn

/-! ## The switch -/

/-- What `place_thread` does to the thread that has left the CPU. -/
def leaveCpu (th : Thread) : Thread :=
  if th.state = .finishing then { th with state := .finished } else th

theorem leaveCpu_pc (th : Thread) : (leaveCpu th).pc = th.pc := by
  unfold leaveCpu; split <;> rfl

theorem leaveCpu_state (th : Thread) (h : th.state ≠ .finishing) : leaveCpu th = th := if_neg h

/-- The thread that has left the CPU. -/
theorem ThreadOk.leaveCpu {th : Thread} (h : ThreadOk th True) (hr : th.resume ≠ .entry)
    (hpc : th.pc ≠ .entry) : ThreadOk (leaveCpu th) False := by
  have hok := h.state
  unfold Threads.leaveCpu
  split
  case isTrue hs =>
    refine ⟨?_, fun hu => ?_, fun _ => iff_of_false hr hpc⟩
    · rw [StateOk, h.pc_of_finishing hs]
      exact Or.inl ⟨rfl, not_false⟩
    · have := h.unactivated hu
      rw [hs] at this
      cases this
  case isFalse hs =>
    refine ⟨?_, h.unactivated, fun _ => iff_of_false hr hpc⟩
    unfold StateOk at hok ⊢
    cases hth : th.pc <;> simp_all

/-- The runqueue from which `next` has been taken. -/
structure Taken (s : Threads) (next : Tid) (queue : List Tid) : Prop where
  nodup : queue.Nodup
  mem : ∀ t, t ∈ queue → (s.threads t).state = .active ∧ t ≠ s.current ∧ t ≠ next
  of_active : ∀ t, (s.threads t).state = .active → t ≠ s.current → t ≠ next →
    t ∈ queue ∨ (s.threads t).pc = .idleMark

/-- The state between `__schedule` and the return to the thread that runs then. -/
structure Scheduled (s : Threads) : Prop extends Inv s where
  ready : s.self.state ≠ .blocked
  entered : s.self.resume = .entry ↔ s.self.pc = .entry
  preemptCnt : s.preemptCnt = 0

/-- The state after the switch from the current thread to `next`. -/
def switched (s : Threads) (next : Tid) (queue : List Tid) : Threads :=
  { (s.modify s.current leaveCpu).modify next ({ · with time := s.jiffies }) with
    cpu := next
    current := next
    rsp0 := s.threadStackEnd s.current
    switches := s.switches + 1
    runqueue := if s.self.state = .active then queue ++ [s.current] else queue }

theorem modify_leaveCpu (h : s.self.state ≠ .finishing) : s.modify s.current leaveCpu = s := by
  rw [modify, leaveCpu_state (s.threads s.current) h, Function.update_eq_self]

section Switch

variable {next : Tid} {queue : List Tid}

theorem threadSwitchTo_eq (halloc : s.allocated next = true) (hne : next ≠ s.current)
    (hprev : s.current ∉ queue) :
    threadSwitchTo { s with runqueue := queue } next = .ok (s.switched next queue) := by
  simp only [threadSwitchTo, touch, halloc, if_true, ok_bind, placeThread, switched]
  by_cases hf : s.self.state = .finishing
  · have hf' : (s.threads s.current).state = .finishing := hf
    simp [finishPrev, setRsp0, self, hf', hne, leaveCpu, modify, threadStackEnd]
  · have hf' : (s.threads s.current).state ≠ .finishing := hf
    rw [modify_leaveCpu hf]
    by_cases ha : s.self.state = .active
    · have ha' : (s.threads s.current).state = .active := ha
      simp [finishPrev, setRsp0, self, ha', enqueue, hprev, modify, threadStackEnd]
    · have ha' : (s.threads s.current).state ≠ .active := ha
      simp [finishPrev, setRsp0, self, ha', hf', modify, threadStackEnd]

theorem switched_next : (s.switched next queue).threads next =
    { (s.modify s.current leaveCpu).threads next with time := s.jiffies } :=
  threads_modify_self (s.modify s.current leaveCpu) next ({ · with time := s.jiffies })

theorem switched_other (h : t ≠ next) : (s.switched next queue).threads t =
    (s.modify s.current leaveCpu).threads t :=
  threads_modify_ne (s.modify s.current leaveCpu) next t ({ · with time := s.jiffies }) h

/-- What a switch leaves as it is, of a thread other than the two. -/
theorem switched_threads {P : Tid → Thread → Prop} (hprev : P s.current (leaveCpu s.self))
    (hne : next ≠ s.current) (hnext : P next { s.threads next with time := s.jiffies })
    (hother : ∀ u, u ≠ next → u ≠ s.current → P u (s.threads u)) (u : Tid) :
    P u ((s.switched next queue).threads u) := by
  by_cases hun : u = next
  · rw [hun, switched_next, threads_modify_ne _ _ _ _ hne]
    exact hnext
  · rw [switched_other hun]
    by_cases huc : u = s.current
    · rw [huc, threads_modify_self]
      exact hprev
    · rw [threads_modify_ne _ _ _ _ huc]
      exact hother u hun huc

theorem switched_runqueue (hq : Taken s next queue) (hne : next ≠ s.current)
    (hleave : s.self.state ≠ .active → (leaveCpu s.self).state ≠ .active) :
    RunqueueOk (s.switched next queue) := by
  have hstate : ∀ u, u ≠ s.current → ((s.switched next queue).threads u).state =
      (s.threads u).state ∧ ((s.switched next queue).threads u).pc = (s.threads u).pc :=
    switched_threads (P := fun u th => u ≠ s.current → th.state = (s.threads u).state ∧
      th.pc = (s.threads u).pc) (fun hn => absurd rfl hn) hne (fun _ => ⟨rfl, rfl⟩)
      fun u _ _ _ => ⟨rfl, rfl⟩
  have hprev : (s.switched next queue).threads s.current = leaveCpu s.self := by
    rw [switched_other hne.symm, threads_modify_self]
    rfl
  have hnot : s.current ∉ queue := fun hmem => (hq.mem _ hmem).2.1 rfl
  have hin : ∀ u, u ∈ (s.switched next queue).runqueue ↔
      u ∈ queue ∨ u = s.current ∧ s.self.state = .active := by
    intro u
    by_cases ha : s.self.state = .active <;> simp [switched, ha]
  refine ⟨?_, fun u hu => ?_, fun u hact hun => ?_⟩
  · by_cases ha : s.self.state = .active
    · simp only [switched, ha, if_true]
      exact List.nodup_append.mpr ⟨hq.nodup, List.nodup_singleton _, fun a hmem b hb he => by
        rw [List.mem_singleton] at hb
        exact hnot (hb ▸ he ▸ hmem)⟩
    · simp only [switched, ha, if_false]
      exact hq.nodup
  · rcases (hin u).mp hu with hu | ⟨rfl, ha⟩
    · obtain ⟨hact, hne', hnn⟩ := hq.mem u hu
      exact ⟨(hstate u hne').1.trans hact, hnn⟩
    · refine ⟨?_, hne.symm⟩
      rw [hprev, leaveCpu_state _ (by rw [ha]; decide)]
      exact ha
  · rw [hin]
    by_cases huc : u = s.current
    · refine Or.inl (Or.inr ⟨huc, ?_⟩)
      by_contra hn
      rw [huc, hprev] at hact
      exact hleave hn hact
    · rw [(hstate u huc).1] at hact
      rw [(hstate u huc).2]
      exact (hq.of_active u hact huc hun).imp_left Or.inl

/-- **`thread_switch_to`** and the `place_thread` that follows it on the other stack. -/
theorem threadSwitchTo_spec (h : Inv s) (hcnt : s.preemptCnt = 0) (hr : s.self.resume ≠ .entry)
    (hpc : s.self.pc ≠ .entry) (hne : next ≠ s.current)
    (hnext : (s.threads next).state = .active ∨ (s.threads next).state = .idle)
    (hq : Taken s next queue) :
    ∃ s', threadSwitchTo { s with runqueue := queue } next = .ok s' ∧ Scheduled s' := by
  have halloc : s.allocated next = true :=
    h.toMachineOk.allocated_of_pc ((h.thread next).pc_ne_exiting hnext)
  have hprev : s.current ∉ queue := fun hmem => (hq.mem _ hmem).2.1 rfl
  have hprevOk : ThreadOk s.self True := by simpa [self] using h.thread s.current
  have hleave : s.self.state ≠ .active → (leaveCpu s.self).state ≠ .active := fun hn => by
    unfold leaveCpu
    split
    · intro h
      cases h
    · exact hn
  have hself : (s.switched next queue).self = { s.threads next with time := s.jiffies } := by
    rw [self, show (s.switched next queue).current = next from rfl, switched_next,
      threads_modify_ne _ _ _ _ hne]
  refine ⟨_, threadSwitchTo_eq halloc hne hprev, ⟨⟨⟨?_, rfl, halloc, h.fresh, ?_, ?_, ?_, ?_, ?_,
    h.lapses, h.spurious, h.finishedOnCpu⟩, ?_, ?_⟩, ?_, ?_, hcnt⟩⟩
  · refine switched_threads (P := fun u th => ThreadOk th (u = next)) ?_ hne ?_ fun u hun huc => ?_
    · have := hprevOk.leaveCpu hr hpc
      simpa [hne.symm] using this
    · simpa using (h.thread next).switchTo hnext s.jiffies
    · have := h.thread u
      simpa [hun, huc] using this
  · refine switched_threads (P := fun u th => s.allocated u = false → th.pc = .exiting)
      (fun ha => ?_) hne (fun ha => h.dead next ha) fun u _ _ => h.dead u
    exact absurd (ha.symm.trans h.current) Bool.false_ne_true
  · refine switched_threads (P := fun _ th => ∀ u, Joins th u → s.allocated u = true)
      (fun u hu => h.joins s.current u ?_) hne (h.joins next) fun u _ _ => h.joins u
    rwa [Joins, leaveCpu_pc] at hu
  · refine switched_threads (P := fun i th => s.idleThread = some i ↔
      InIdle th) ?_ hne (h.idle next) fun u _ _ => h.idle u
    rw [InIdle, leaveCpu_pc]
    exact h.idle s.current
  · exact fun hn => absurd hcnt hn
  · exact switched_runqueue hq hne hleave
  · refine h.locks.frame rfl (switched_threads (P := fun u th => SameLock (s.threads u) th) ?_ hne
      ⟨rfl, fun _ => rfl⟩ fun u _ _ => SameLock.refl _)
    refine ⟨by rw [leaveCpu_pc]; rfl, fun hlock => ?_⟩
    rw [leaveCpu_state _ fun hf => hlock ?_]
    · rfl
    · rw [← self, hprevOk.pc_of_finishing hf]
      rfl
  · refine h.conds.frame rfl (switched_threads (P := fun u th => SameWait (s.threads u) th) ?_ hne
      ⟨fun _ => Iff.rfl, rfl, fun _ => rfl, rfl, rfl, rfl⟩ fun u _ _ => SameWait.refl _)
    by_cases hf : s.self.state = .finishing
    · have hpcf : (s.threads s.current).pc = .exiting := hprevOk.pc_of_finishing hf
      rw [leaveCpu, if_pos hf]
      exact SameWait.of_none (by rw [hpcf]; rfl) (by rw [self, hpcf]; rfl) (by rw [hpcf]; rfl)
        (by rw [self, hpcf]; rfl) rfl rfl rfl
    · rw [leaveCpu_state _ hf]
      exact SameWait.refl _
  · rw [hself]
    rcases hnext with hs | hs <;> simp [hs]
  · rw [hself]
    have := (h.thread next).resume hne
    exact this

end Switch

/-! ## Picking the next thread -/

/-- The runqueue may lose a thread that is in `idle`. -/
theorem Inv.dropIdle (h : Inv s) {i : Tid} {rest : List Tid} (hq : s.runqueue = i :: rest)
    (hi : (s.threads i).pc = .idleMark) : Inv { s with runqueue := rest } := by
  have hnodup := hq ▸ h.runqueue.nodup
  have hrun : RunqueueOk { s with runqueue := rest } := by
    refine ⟨(List.nodup_cons.mp hnodup).2, fun t ht => ?_, fun t hact hne => ?_⟩
    · exact h.runqueue.mem t (by rw [hq]; exact List.mem_cons_of_mem _ ht)
    · rcases h.runqueue.of_active t hact hne with hmem | hpc
      · rcases List.mem_cons.mp (hq ▸ hmem) with rfl | hmem
        · exact Or.inr hi
        · exact Or.inl hmem
      · exact Or.inr hpc
  exact ⟨⟨h.thread, h.cpu, h.current, h.fresh, h.dead, h.joins, h.idle, h.preempt, hrun, h.lapses,
    h.spurious, h.finishedOnCpu⟩, h.locks.frame rfl fun _ => SameLock.refl _,
    h.conds.frame rfl fun _ => SameWait.refl _⟩

/-- The head of the runqueue is taken. -/
theorem RunqueueOk.taken (h : RunqueueOk s) {next : Tid} {rest : List Tid}
    (hq : s.runqueue = next :: rest) : Taken s next rest where
  nodup := (List.nodup_cons.mp (hq ▸ h.nodup)).2
  mem := fun t ht => by
    obtain ⟨hact, hne⟩ := h.mem t (by rw [hq]; exact List.mem_cons_of_mem _ ht)
    exact ⟨hact, hne, fun he => (List.nodup_cons.mp (hq ▸ h.nodup)).1 (he ▸ ht)⟩
  of_active := fun t hact hne hnn =>
    (h.of_active t hact hne).imp_left fun hmem =>
      (List.mem_cons.mp (hq ▸ hmem)).resolve_left hnn

/-- The runqueue is empty and the idle thread is taken. -/
theorem RunqueueOk.taken_idle (h : RunqueueOk s) {next : Tid} (hq : s.runqueue = []) :
    Taken s next [] where
  nodup := List.nodup_nil
  mem := fun t ht => by cases ht
  of_active := fun t hact hne _ => hq ▸ h.of_active t hact hne

/-- **`__schedule`**: if a blocked thread calls it there must be a thread to switch to. -/
theorem schedulePick_spec (h : Inv s) (hcnt : s.preemptCnt = 0) (hr : s.self.resume ≠ .entry)
    (hpc : s.self.pc ≠ .entry)
    (hnext : s.self.state = .blocked → s.idleThread ≠ none ∨ s.runqueue ≠ []) (force : Bool) :
    ∃ s', s.schedulePick force = .ok s' ∧ Scheduled s' := by
  have hstay : s.self.state ≠ .blocked → Scheduled s := fun hb => ⟨h, hb, iff_of_false hr hpc, hcnt⟩
  unfold schedulePick
  split
  case isTrue hslice => exact ⟨s, rfl, hstay (by rw [hslice.2.1]; decide)⟩
  case isFalse hslice =>
  cases hq : s.runqueue with
  | nil =>
    have hrest : s.pickNext.2 = s.runqueue := by simp [pickNext, hq]
    have hpick : s.pickNext.1 = s.idleThread := by simp [pickNext, hq]
    have hs : ({ s with runqueue := s.pickNext.2 } : Threads) = s := by rw [hrest]
    rw [hs, hpick]
    cases hi : s.idleThread with
    | none =>
      refine ⟨s, rfl, hstay fun hb => ?_⟩
      rcases hnext hb with hn | hn
      · exact hn hi
      · exact hn hq
    | some i =>
      have hidle := (h.thread i).ne_blocked_of_idle ((h.idle i).mp hi)
      show ∃ s', (if s.current = i then .ok s else
        if some i ≠ s.idleThread ∨ s.self.state ≠ .active then s.threadSwitchTo i else .ok s) =
          .ok s' ∧ _
      split
      case isTrue hic =>
        refine ⟨s, rfl, hstay fun hb => ?_⟩
        rw [← hic, ← self, hb] at hidle
        rcases hidle with hs | ⟨hs, _⟩ <;> cases hs
      case isFalse hic =>
        split
        case isTrue hcond =>
          have := threadSwitchTo_spec h hcnt hr hpc (Ne.symm hic) (hidle.symm.imp_left And.left)
            (h.runqueue.taken_idle hq)
          rwa [← hq] at this
        case isFalse hcond =>
          refine ⟨s, rfl, hstay fun hb => hcond (Or.inr ?_)⟩
          rw [hb]
          decide
  | cons next rest =>
    obtain ⟨hact, hne⟩ := h.runqueue.mem next (by rw [hq]; exact List.mem_cons_self)
    simp only [pickNext, hq, switchIfNeeded]
    rw [if_neg (Ne.symm hne)]
    split
    case isTrue hcond =>
      exact threadSwitchTo_spec h hcnt hr hpc hne (Or.inl hact) (h.runqueue.taken hq)
    case isFalse hcond =>
      -- the idle thread was queued before it wrote its state; the queue loses it
      obtain ⟨hi, ha⟩ := not_or.mp hcond
      have hidle := (h.thread next).ne_blocked_of_idle ((h.idle next).mp (not_not.mp hi).symm)
      have hmark : (s.threads next).pc = .idleMark := by
        rcases hidle with hs | ⟨_, hm⟩
        · rw [hact] at hs
          cases hs
        · exact hm
      exact ⟨_, rfl, h.dropIdle hq hmark, by rw [self]; exact fun hb => ha (by
        show s.self.state ≠ _
        rw [self, hb]; decide), iff_of_false hr hpc, hcnt⟩

/-! ## Whole calls -/

/-- The invariant between two atomic steps: the current thread is past `thread_entry`. -/
structure Running (s : Threads) : Prop extends Inv s where
  pastEntry : s.self.pc ≠ .entry

/-- The clock and the interrupt flag are not in the invariant. -/
theorem Inv.congr (h : Inv s) (hthreads : s'.threads = s.threads)
    (hmutexes : s'.mutexes = s.mutexes)
    (hconds : s'.conds = s.conds) (hsame : SameMachine s s') : Inv s' where
  toMachineOk := h.toMachineOk.congr hthreads hsame
  locks := h.locks.frame hmutexes fun t => by rw [hthreads]; exact SameLock.refl _
  conds := h.conds.frame hconds fun t => by rw [hthreads]; exact SameWait.refl _

theorem Running.congr (h : Running s) (hthreads : s'.threads = s.threads)
    (hmutexes : s'.mutexes = s.mutexes) (hconds : s'.conds = s.conds) (hsame : SameMachine s s') :
    Running s' where
  toInv := h.toInv.congr hthreads hmutexes hconds hsame
  pastEntry := by
    rw [self, hthreads, hsame.current]
    exact h.pastEntry

theorem self_modify {f : Thread → Thread} : (s.modify s.current f).self = f s.self :=
  threads_modify_self s s.current f

/-- A running thread that neither waits nor broadcasts goes on at a point of that kind. -/
theorem Inv.gotoPc (h : Inv s) {pc : Pc} (hlock : s.self.pc.lockOf = none)
    (hlock' : pc.lockOf = none)
    (hwait : s.self.pc.waitOf = none ∨ s.self.state ≠ .blocked) (hwait' : pc.waitOf = none)
    (hpend : s.self.pc.pending = []) (hpend' : pc.pending = [])
    (hok : StateOk (s.self.goto pc) True) (hidle : pc = .idleMark ∨ pc = .idling ↔ InIdle s.self)
    (hjoin : ∀ u, pc = .joining u ∨ pc = .joinSched u → s.allocated u = true)
    (hpre : s.preemptCnt ≠ 0 → pc = .user ∨ pc.bcastOf ≠ none) :
    Inv (s.modify s.current (Thread.goto pc)) := by
  refine h.goto (f := Thread.goto pc) ⟨hlock'.trans hlock.symm, fun hn => absurd hlock hn⟩
    ⟨fun c => ?_, hpend'.trans hpend.symm, fun hn => absurd hpend hn, rfl, rfl, rfl⟩
    ⟨hok, (h.thread s.current).unactivated, fun hn => absurd trivial hn⟩ hidle hjoin hpre
  refine iff_of_false (fun hc => ?_) (fun hc => ?_)
  · rw [Thread.goto_pc, hwait'] at hc
    cases hc.1
  · rcases hwait with hw | hw
    · rw [hw] at hc
      cases hc.1
    · exact hw hc.2

theorem Scheduled.setInts (h : Scheduled s) (b : Bool) : Scheduled { s with ints := b } :=
  ⟨h.toInv.congr rfl rfl rfl ⟨rfl, rfl, rfl, rfl, rfl, rfl, rfl, rfl, rfl, rfl⟩, h.ready, h.entered,
    h.preemptCnt⟩

/-- The state of the running thread fits its point of the code. -/
theorem Inv.stateOk (h : Inv s) : StateOk s.self True := by
  simpa [self] using (h.thread s.current).state

/-- **A thread that has been activated** goes on after its call of `schedule`. -/
theorem afterSchedule_inv (h : Scheduled s) (hpc : s.self.pc ≠ .entry) :
    Running s.afterSchedule := by
  have hok := h.stateOk
  have hready := h.ready
  unfold afterSchedule
  split
  case h_1 m hm =>
    have hact : s.self.state = .active := by
      rw [StateOk, hm] at hok
      exact hok.resolve_left hready
    refine ⟨lockReturned_inv h.toInv (by rw [hm]; rfl) hact, ?_⟩
    rw [show ((s.lockReturned m).modify s.current (Thread.goto .user)).self = _ from
      self_modify (s := s.lockReturned m)]
    intro h
    cases h
  case h_2 c m hm =>
    have hwoken : s.self.state = .active ∧ s.self.signalled = true := by
      rw [StateOk, hm] at hok
      exact hok.resolve_left fun hn => hready hn.1
    refine ⟨h.toInv.gotoPc (by rw [hm]; rfl) rfl (Or.inr hready) rfl (by rw [hm]; rfl) rfl hwoken
      (by simp [InIdle, hm]) (by simp) (fun hn => absurd h.preemptCnt hn), ?_⟩
    rw [self_modify]
    intro h
    cases h
  case h_3 c m hm =>
    have hwoken : s.self.state = .active ∧ s.self.signalled = true := by
      rw [StateOk, hm] at hok
      exact ⟨hok.1.resolve_left hready, hok.2⟩
    have howner := (h.toInv.handed (m := m) (by rw [hm]; rfl) hwoken.1).1
    have hret : (s.lockReturned m).waitReturned m = s.lockReturned m :=
      waitReturned_eq hwoken.2 (by simpa [lockReturned] using howner)
    rw [hret]
    refine ⟨lockReturned_inv h.toInv (by rw [hm]; rfl) hwoken.1, ?_⟩
    rw [show ((s.lockReturned m).modify s.current (Thread.goto .user)).self = _ from
      self_modify (s := s.lockReturned m)]
    intro h
    cases h
  case h_4 t hm =>
    have hact : s.self.state = .active := by
      rw [StateOk, hm] at hok
      exact hok
    refine ⟨h.toInv.gotoPc (by rw [hm]; rfl) rfl (Or.inr hready) rfl (by rw [hm]; rfl) rfl hact
      (by simp [InIdle, hm]) (fun u hu => ?_) (fun hn => absurd h.preemptCnt hn), ?_⟩
    · obtain rfl : t = u := by simpa using hu
      exact h.joins s.current t (Or.inr hm)
    · rw [self_modify]
      intro h
      cases h
  case h_5 => exact ⟨h.toInv, hpc⟩

/-- **The thread that runs after `__schedule`** goes on with what it had called it for. -/
theorem leaveScheduler_inv (h : Scheduled s) : Running s.leaveScheduler := by
  unfold leaveScheduler
  split
  case h_1 hr =>
    have hpc : s.self.pc = .entry := h.entered.mp hr
    have hact : s.self.state = .active := by
      have hok := h.stateOk
      rw [StateOk, hpc] at hok
      exact hok.resolve_left fun hn => hn.2 trivial
    have hpc' : (({ s with ints := true } : Threads).self).pc = .entry := hpc
    refine ⟨@Inv.gotoPc _ (h.setInts true).toInv .user (by rw [hpc']; rfl) rfl (Or.inr h.ready) rfl
      (by rw [hpc']; rfl) rfl hact (by simp [InIdle, hpc']) (by simp) (fun _ => Or.inl rfl), ?_⟩
    rw [show (({ s with ints := true } : Threads).modify s.current (Thread.goto .user)).self =
        _ from
      self_modify (s := { s with ints := true })]
    intro h
    cases h
  case h_2 enable hr =>
    refine afterSchedule_inv (h.setInts enable) fun hpc => ?_
    have := h.entered.mpr hpc
    rw [hr] at this
    cases this
  case h_3 hr =>
    refine ⟨(h.setInts true).toInv, fun hpc => ?_⟩
    have := h.entered.mpr hpc
    rw [hr] at this
    cases this

/-- The way into the scheduler. -/
theorem enterScheduler_inv (h : Running s) {how : Resume} :
    Inv (s.enterScheduler how) ∧ (s.enterScheduler how).self = { s.self with resume := how } := by
  have hinv : Inv ({ s with ints := false } : Threads) :=
    h.toInv.congr rfl rfl rfl ⟨rfl, rfl, rfl, rfl, rfl, rfl, rfl, rfl, rfl, rfl⟩
  refine ⟨hinv.goto (f := ({ · with resume := how })) ⟨rfl, fun _ => rfl⟩
    ⟨fun _ => Iff.rfl, rfl, fun _ => rfl, rfl, rfl, rfl⟩
    ⟨hinv.stateOk, (h.thread s.current).unactivated, fun hn => absurd trivial hn⟩ Iff.rfl
    (h.joins s.current) h.preempt, self_modify (s := { s with ints := false })⟩

/-- A thread that the scheduler returns to is no lapse. -/
theorem noteLapse_eq (h : Scheduled s) : s.noteLapse = s := by
  refine if_neg fun hu => h.ready ?_
  exact (h.thread s.current).unactivated hu

/-- **`__schedule` and the return from it.** -/
theorem reschedule_spec (h : Running s) {how : Resume} (hhow : how ≠ .entry)
    (hcnt : s.preemptCnt = 0)
    (hnext : s.self.state = .blocked → s.idleThread ≠ none ∨ s.runqueue ≠ []) (force : Bool) :
    ∃ s', (s.enterScheduler how).reschedule force = .ok s' ∧ Running s' := by
  obtain ⟨hinv, hself⟩ := @enterScheduler_inv _ h how
  obtain ⟨s₁, hpick, hsched⟩ := schedulePick_spec hinv hcnt (by rw [hself]; exact hhow)
    (by rw [hself]; exact h.pastEntry) (by rw [hself]; exact hnext) force
  refine ⟨s₁.leaveScheduler, ?_, leaveScheduler_inv hsched⟩
  simp only [reschedule, hpick, ok_bind, noteLapse_eq hsched, pure_eq_ok]

/-- **`schedule`.** -/
theorem schedule_spec (h : Running s) {how : Resume} (hhow : how ≠ .entry)
    (hnext : s.self.state = .blocked → s.idleThread ≠ none ∨ s.runqueue ≠ []) :
    ∃ s', s.schedule how = .ok s' ∧ Running s' := by
  by_cases hcnt : s.preemptCnt = 0
  · obtain ⟨s', hexec, hs'⟩ := reschedule_spec h hhow hcnt hnext false
    refine ⟨s', ?_, hs'⟩
    rw [← hexec]
    exact if_neg (not_not.mpr hcnt)
  · -- with a spinlock held `schedule` returns at once
    obtain ⟨hinv, hself⟩ := @enterScheduler_inv _ h how
    refine ⟨(s.enterScheduler how).leaveScheduler, if_pos hcnt, ?_⟩
    have hints : ∀ b : Bool, Running { s.enterScheduler how with ints := b } := fun b =>
      ⟨hinv.congr rfl rfl rfl ⟨rfl, rfl, rfl, rfl, rfl, rfl, rfl, rfl, rfl, rfl⟩, by
        rw [show ({ s.enterScheduler how with ints := b } : Threads).self =
          (s.enterScheduler how).self from rfl, hself]
        exact h.pastEntry⟩
    have hpc := h.preempt hcnt
    unfold leaveScheduler
    rw [hself]
    cases how with
    | entry => exact absurd rfl hhow
    | tick => exact hints true
    | call enable =>
      have hself' : ({ s.enterScheduler (.call enable) with ints := enable } : Threads).self =
        { s.self with resume := .call enable } := hself
      have : ({ s.enterScheduler (.call enable) with ints := enable } : Threads).afterSchedule =
          { s.enterScheduler (.call enable) with ints := enable } := by
        unfold afterSchedule
        rw [hself']
        revert hpc
        cases s.self.pc <;> simp [Pc.bcastOf]
      show Running (({ s.enterScheduler (.call
        enable) with ints := enable } : Threads).afterSchedule)
      rw [this]
      exact hints enable

/-- **`force_schedule`**, with no spinlock held. -/
theorem forceSchedule_spec (h : Running s) (hcnt : s.preemptCnt = 0)
    (hnext : s.self.state = .blocked → s.idleThread ≠ none ∨ s.runqueue ≠ []) :
    ∃ s', s.forceSchedule = .ok s' ∧ Running s' := by
  obtain ⟨s', hexec, hs'⟩ := @reschedule_spec _ h (.call s.ints) nofun hcnt hnext true
  refine ⟨s', ?_, hs'⟩
  rw [forceSchedule, bugOn_neg (not_not.mpr hcnt), ok_bind]
  exact hexec

/-- **A timer tick.** -/
theorem pitHandler_spec (h : Running s)
    (hnext : s.self.state = .blocked → s.idleThread ≠ none ∨ s.runqueue ≠ []) :
    ∃ s', s.pitHandler = .ok s' ∧ Running s' :=
  schedule_spec (s := { s with jiffies := s.jiffies + 1 })
    (h.congr rfl rfl rfl ⟨rfl, rfl, rfl, rfl, rfl, rfl, rfl, rfl, rfl, rfl⟩) nofun hnext

end Threads

end AuOs
