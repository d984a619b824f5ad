import Mathlib
import AuOs.Threads.Switch

/-!
# Runs of the scheduler

* `SomeoneToRun` — if the current thread is blocked there is a thread to switch to.
* `OutOfMemory` — the ways in which the machine may stop.
* `resumeCall_spec`, `events_step` — every event keeps the invariant.
* `boot`, `boot_running` — the state that `threads_setup` leaves.
-/

set_option autoImplicit false

namespace AuOs

namespace Threads

variable {s s' : Threads} {t : Tid}

/-- If the current thread is blocked there is a thread to switch to. -/
def SomeoneToRun (s : Threads) : Prop :=
  s.self.state = .blocked → s.idleThread ≠ none ∨ s.runqueue ≠ []

/-- `thread_create` has found no memory. -/
def OutOfMemory (e : Stop) : Prop := e = .bug .threadNoStack ∨ e = .bug .threadNoMemory

/-! ## The next step of a call -/

/-- A thread that is in a call that gives up the CPU holds no spinlock. -/
theorem MachineOk.preemptCnt_eq (h : MachineOk s) (hu : s.self.pc ≠ .user)
    (hb : s.self.pc.bcastOf = none) : s.preemptCnt = 0 := by
  by_contra hn
  rcases h.preempt hn with hpc | hpc
  · exact hu hpc
  · exact hpc hb

/-- **The next step of a call** keeps the invariant. -/
theorem resumeCall_spec (h : Running s) (hnext : SomeoneToRun s) (hu : ¬ s.AtUser) :
    ∃ s', s.resumeCall = .ok s' ∧ Running s' := by
  have hok := h.toInv.stateOk
  have hcnt := h.toMachineOk.preemptCnt_eq hu
  cases hpc : s.self.pc with
  | entry => exact absurd hpc h.pastEntry
  | user => exact absurd hpc hu
  | lockSched m =>
    simp only [resumeCall, hpc]
    exact schedule_spec h (fun h => by cases h) hnext
  | waitSched c m =>
    simp only [resumeCall, hpc]
    exact schedule_spec h (fun h => by cases h) hnext
  | waitLockSched c m =>
    simp only [resumeCall, hpc]
    exact schedule_spec h (fun h => by cases h) hnext
  | exiting =>
    simp only [resumeCall, hpc]
    exact forceSchedule_spec h (hcnt (by rw [hpc]; rfl)) hnext
  | joinSched t =>
    simp only [resumeCall, hpc]
    exact forceSchedule_spec h (hcnt (by rw [hpc]; rfl)) hnext
  | idling =>
    simp only [resumeCall, hpc]
    exact forceSchedule_spec h (hcnt (by rw [hpc]; rfl)) hnext
  | waitRelock c m =>
    rw [StateOk, hpc] at hok
    obtain ⟨hinv, hcur, hpc'⟩ := mutexLock_inv h.toInv (by rw [hpc]; rfl)
      (by rw [hpc]; rfl) (by rw [hpc]; rfl) hok.1 (by simp [InIdle, hpc]) (hcnt (by rw [hpc]; rfl))
      (LockPc.wait c hok.2)
    simp only [resumeCall, hpc]
    split
    case isTrue hl =>
      refine ⟨_, rfl, hinv, ?_⟩
      rcases hpc' with hpc' | ⟨hpc', _⟩ <;> rw [hpc'] <;> exact fun h => by cases h
    case isFalse hl =>
      have huser : (s.mutexLock m (.waitLockSched c m)).self.pc = .user := by
        simp [mutexLock, hl, self]
      have hret := hpc'.resolve_left (by rw [huser]; exact fun h => by cases h)
      rw [waitReturned_eq (hret.2.1.trans hok.2) (hcur ▸ hret.2.2)]
      exact ⟨_, rfl, hinv, by rw [huser]; exact fun h => by cases h⟩
  | bcast c nodes =>
    rw [StateOk, hpc] at hok
    cases nodes with
    | nil =>
      simp only [resumeCall, hpc]
      refine ⟨_, rfl, h.toInv.gotoPc (by rw [hpc]; rfl) rfl (Or.inl (by rw [hpc]; rfl)) rfl
        (by rw [hpc]; rfl) rfl hok (by simp [InIdle, hpc]) (by simp) (fun _ => Or.inl rfl), ?_⟩
      rw [self_modify]
      intro h
      cases h
    | cons node nodes =>
      obtain ⟨hw', hw, _⟩ := h.conds.pending_mem s.current node
        (by rw [← self, hpc]; exact List.mem_cons_self)
      rw [← self, hpc] at hw
      have halloc : s.allocated node = true := h.toMachineOk.allocated_of_pc fun he => by
        rw [he] at hw'
        exact hw' rfl
      have hnode : s.waitNode c node = .ok () := by
        simp only [waitNode, hw, Pc.bcastOf, if_true, touch_ok halloc]
      simp only [resumeCall, hpc, hnode, ok_bind, pure_eq_ok]
      refine ⟨_, rfl, h.toInv.goto (f := Thread.goto (.bcastWake c node nodes)) ?_ ?_ ?_ ?_ ?_ ?_,
        ?_⟩
      · exact ⟨by rw [hpc]; rfl, fun _ => rfl⟩
      · exact ⟨fun c' => by rw [hpc]; rfl, by rw [hpc]; rfl, fun _ => by rw [hpc]; rfl, rfl, rfl,
          rfl⟩
      · exact ⟨hok, (h.thread s.current).unactivated, fun hn => absurd trivial hn⟩
      · simp [InIdle, hpc]
      · simp [Joins]
      · exact fun _ => Or.inr (Option.some_ne_none c)
      · rw [self_modify]
        intro h
        cases h
  | bcastWake c node nodes =>
    obtain ⟨s', hexec, hinv, hs'⟩ := bcastWake_spec h.toInv hpc
    refine ⟨s', hexec, hinv, ?_⟩
    rw [hs', show ∀ s₁ : Threads, s₁.current = s.current → (s₁.modify s.current
      (Thread.nextNode c (node, (s.threads node).waits) nodes)).self = _ from
      fun s₁ hc => hc ▸ self_modify]
    · intro h
      cases h
    · rfl
  | joining t =>
    rw [StateOk, hpc] at hok
    have halloc := h.joins s.current t (Or.inl hpc)
    simp only [resumeCall, hpc, touch_ok halloc, ok_bind, pure_eq_ok]
    split
    · refine ⟨_, rfl, h.toInv.gotoPc (by rw [hpc]; rfl) rfl (Or.inl (by rw [hpc]; rfl)) rfl
        (by rw [hpc]; rfl) rfl hok (by simp [InIdle, hpc]) (by simp) (fun _ => Or.inl rfl), ?_⟩
      rw [self_modify]
      intro h
      cases h
    · refine ⟨_, rfl, h.toInv.gotoPc (by rw [hpc]; rfl) rfl (Or.inl (by rw [hpc]; rfl)) rfl
        (by rw [hpc]; rfl) rfl hok (by simp [InIdle, hpc]) (fun u hu => ?_)
        (fun hn => absurd (hcnt (by rw [hpc]; rfl)) hn), ?_⟩
      · obtain rfl : t = u := by simpa using hu
        exact halloc
      · rw [self_modify]
        intro h
        cases h
  | idleMark =>
    simp only [resumeCall, hpc]
    refine ⟨_, rfl, h.toInv.goto (f := ({ · with state := .idle, pc := .idling })) ?_ ?_
      ?_ ?_ ?_ ?_, ?_⟩
    · exact ⟨by rw [hpc]; rfl, fun hn => absurd (by rw [hpc]; rfl) hn⟩
    · exact SameWait.of_none (by rw [hpc]; rfl) rfl (by rw [hpc]; rfl) rfl rfl rfl rfl
    · refine ⟨rfl, fun hun => ?_, fun hn => absurd trivial hn⟩
      have hb := (h.thread s.current).unactivated hun
      rw [StateOk, hpc] at hok
      rw [← self, hok] at hb
      cases hb
    · simp [InIdle, hpc]
    · simp [Joins]
    · exact fun hn => absurd (hcnt (by rw [hpc]; rfl)) hn
    · rw [self_modify]
      intro h
      cases h

/-! ## Calls that change the set of threads -/

/-- **`thread_create`**, when there is memory. -/
theorem threadCreate_spec (h : Running s) (stackAddr : Nat) (time : UInt64) :
    ∃ s', s.threadCreate (some stackAddr) true time = .ok s' ∧ Running s' := by
  have hfresh : s.allocated s.fresh = false := by
    by_contra hn
    exact Nat.lt_irrefl _ (h.fresh s.fresh (by simpa using hn))
  have hne : s.current ≠ s.fresh := fun he => by
    have := h.current
    rw [he, hfresh] at this
    cases this
  have hpc : (s.threads s.fresh).pc = .exiting := h.dead s.fresh hfresh
  have hstate : (s.threads s.fresh).state = .finished := by
    have := (h.thread s.fresh).state
    rw [StateOk, hpc] at this
    exact (this.resolve_right fun hn => hne hn.2.symm).1
  let new : Thread → Thread := fun th =>
    { th with
      state := .blocked, time := time, stackAddr := stackAddr, pc := .entry, resume := .entry,
      unactivated := false }
  let s' : Threads := { s.modify s.fresh new with
    allocated := Function.update s.allocated s.fresh true, fresh := s.fresh + 1 }
  have hself : s'.self = s.self := threads_modify_ne s s.fresh s.current new hne
  have hnotq : s.fresh ∉ s.runqueue := h.runqueue.notMem (by rw [hstate]; decide)
  refine ⟨s', by simp [threadCreate, s', new, modify], ⟨⟨⟨?_, h.cpu, ?_, ?_, ?_, ?_, ?_, ?_, ?_,
    h.lapses, h.spurious, h.finishedOnCpu⟩, ?_, ?_⟩, by rw [hself]; exact h.pastEntry⟩⟩
  · refine forall_modify (P := fun u th => ThreadOk th (u = s.current)) ?_ fun u _ => h.thread u
    exact ⟨Or.inl ⟨rfl, hne.symm⟩, fun hu => Bool.noConfusion hu, fun _ => iff_of_true rfl rfl⟩
  · show Function.update s.allocated s.fresh true s.current = true
    rw [Function.update_of_ne hne]
    exact h.current
  · intro t ht
    by_cases htf : t = s.fresh
    · rw [htf]
      exact Nat.lt_succ_self _
    · exact Nat.lt_succ_of_lt (h.fresh t (by simpa [s', htf] using ht))
  · intro t ht
    have htf : t ≠ s.fresh := fun he => by simp [s', he] at ht
    rw [show s'.threads t = _ from threads_modify_ne s s.fresh t new htf]
    exact h.dead t (by simpa [s', htf] using ht)
  · have hjoin : ∀ u, s.allocated u = true → s'.allocated u = true := fun u hu => by
      by_cases huf : u = s.fresh
      · simp [s', huf]
      · simpa [s', huf] using hu
    exact forall_modify (P := fun _ th => ∀ u, Joins th u → s'.allocated u = true)
      (fun u hu => by simp [Joins, new] at hu) fun t _ u hu => hjoin u (h.joins t u hu)
  · refine forall_modify (P := fun i th => s.idleThread = some i ↔ InIdle th) ?_ fun i _ => h.idle i
    refine iff_of_false (fun hi => ?_) (by simp [InIdle, new])
    have := (h.idle s.fresh).mp hi
    simp [InIdle, hpc] at this
  · show s.preemptCnt ≠ 0 → s'.self.pc = .user ∨ s'.self.pc.bcastOf ≠ none
    rw [hself]
    exact h.preempt
  · refine ⟨h.runqueue.nodup, fun t ht => ?_, fun t hact hnc => ?_⟩
    · have htf : t ≠ s.fresh := fun he => hnotq (he ▸ ht)
      rw [show s'.threads t = _ from threads_modify_ne s s.fresh t new htf]
      exact h.runqueue.mem t ht
    · have htf : t ≠ s.fresh := fun he => by
        rw [he, show s'.threads s.fresh = _ from threads_modify_self s s.fresh new] at hact
        cases hact
      rw [show s'.threads t = _ from threads_modify_ne s s.fresh t new htf] at hact ⊢
      exact h.runqueue.of_active t hact hnc
  · exact h.locks.frame rfl (sameLock_modify (f := new)
      ⟨by rw [hpc]; rfl, fun hn => absurd (by rw [hpc]; rfl) hn⟩)
  · exact h.conds.frame rfl (sameWait_modify (f := new)
      (SameWait.of_none (by rw [hpc]; rfl) rfl (by rw [hpc]; rfl) rfl rfl rfl rfl))

/-- **`thread_destroy`** of a finished thread. -/
theorem threadDestroy_spec (h : Running s) (ha : s.allocated t = true) (hne : t ≠ s.current)
    (hf : (s.threads t).state = .finished)
    (hj : ∀ u, (s.threads u).pc ≠ .joining t ∧ (s.threads u).pc ≠ .joinSched t) :
    ∃ s', s.threadDestroy t = .ok s' ∧ Running s' := by
  have hpc : (s.threads t).pc = .exiting := by
    have := (h.thread t).state
    revert this
    cases hpc : (s.threads t).pc <;> simp [StateOk, hpc, hf]
  let s' : Threads := { s with allocated := Function.update s.allocated t false }
  have hother : ∀ u, u ≠ t → s'.allocated u = s.allocated u := fun u hu =>
    Function.update_of_ne hu _ _
  refine ⟨s', by simp [threadDestroy, touch_ok ha, s'], ⟨⟨⟨h.thread, h.cpu, ?_, ?_, ?_, ?_, h.idle,
    h.preempt, h.runqueue.frame rfl rfl fun _ _ => ⟨rfl, rfl⟩, h.lapses, h.spurious,
      h.finishedOnCpu⟩,
    h.locks.frame rfl fun _ => SameLock.refl _, h.conds.frame rfl fun _ => SameWait.refl _⟩,
    h.pastEntry⟩⟩
  · exact (hother s.current hne.symm).trans h.current
  · intro u hu
    have hut : u ≠ t := fun he => by simp [s', he] at hu
    exact h.fresh u ((hother u hut).symm.trans hu)
  · intro u hu
    by_cases hut : u = t
    · exact hut ▸ hpc
    · exact h.dead u ((hother u hut).symm.trans hu)
  · intro u v huv
    have hvt : v ≠ t := fun he => by
      rcases huv with huv | huv
      · exact (hj u).1 (he ▸ huv)
      · exact (hj u).2 (he ▸ huv)
    exact (hother v hvt).trans (h.joins u v huv)

/-- **`idle`** registers the idle thread. -/
theorem idle_spec (h : Running s) (hp : Plain s) (hcnt : s.preemptCnt = 0)
    (hi : s.idleThread = none) : ∃ s', s.idle = .ok s' ∧ Running s' := by
  let s₁ : Threads := { s with idleThread := some s.current }
  let s' : Threads := s₁.modify s.current (Thread.goto .idleMark)
  have hself : s'.self = s.self.goto .idleMark := self_modify (s := s₁)
  have hidle : s.idle = .ok s' := by
    rw [idle, bugOn_neg (not_not.mpr hi), ok_bind]
    rfl
  refine ⟨s', hidle, ⟨⟨⟨?_, h.cpu, h.current, h.fresh, ?_, ?_, ?_, fun hn => absurd hcnt hn, ?_,
    h.lapses, h.spurious, h.finishedOnCpu⟩, ?_, ?_⟩, by rw [hself]; exact nofun⟩⟩
  · refine forall_modify (P := fun u th => ThreadOk th (u = s.current)) ?_ fun u _ => h.thread u
    exact ⟨hp.active, (h.thread s.current).unactivated, fun hn => absurd rfl hn⟩
  · refine forall_modify (P := fun u th => s.allocated u = false → th.pc = .exiting) (fun ha => ?_)
      fun u _ => h.dead u
    exact absurd (ha.symm.trans h.current) Bool.false_ne_true
  · exact forall_modify (P := fun _ th => ∀ u, Joins th u → s.allocated u = true)
      (fun u hu => by simp [Joins] at hu) fun t _ => h.joins t
  · refine forall_modify (P := fun i th => some s.current = some i ↔ InIdle th)
      (iff_of_true rfl (Or.inl rfl)) fun i hne => ?_
    refine iff_of_false (fun he => hne (Option.some.inj he).symm) fun hidle => ?_
    have := (h.idle i).mpr hidle
    rw [hi] at this
    cases this
  · exact h.runqueue.frame rfl rfl fun u hu => by
      rw [show s'.threads u = _ from threads_modify_ne s₁ s.current u _ hu]
      exact ⟨rfl, rfl⟩
  · exact h.locks.frame rfl (sameLock_modify (f := Thread.goto .idleMark)
      ⟨hp.lockOf.symm, fun hn => absurd hp.lockOf hn⟩)
  · exact h.conds.frame rfl (sameWait_modify (f := Thread.goto .idleMark)
      (SameWait.of_none hp.waitOf rfl hp.pending rfl rfl rfl rfl))

/-- **`thread_activate`** of a thread that is new, or of one that is not blocked. -/
theorem threadActivate_spec (h : Running s) (ha : s.allocated t = true)
    (hb : (s.threads t).state = .blocked → (s.threads t).pc = .entry) :
    ∃ s', s.threadActivate t = .ok s' ∧ Running s' := by
  by_cases hblocked : (s.threads t).state = .blocked
  · have hpc := hb hblocked
    have hne : t ≠ s.current := fun he => h.pastEntry (by rw [self, ← he]; exact hpc)
    have hq : t ∉ s.runqueue := h.runqueue.notMem (by rw [hblocked]; decide)
    refine ⟨_, threadActivate_blocked ha hblocked hq, ⟨?_, ?_, ?_⟩, ?_⟩
    · exact h.toMachineOk.activated (f := Thread.activate) hblocked hne
        ((h.thread t).activate hne (Or.inl hpc)) rfl rfl
    · exact h.locks.frame rfl (sameLock_modify (f := Thread.activate)
        ⟨rfl, fun hn => absurd (by rw [hpc]; rfl) hn⟩)
    · exact h.conds.frame rfl (sameWait_modify (f := Thread.activate)
        (SameWait.of_none (by rw [hpc]; rfl) (by rw [Thread.activate_pc, hpc]; rfl)
          (by rw [hpc]; rfl) (by rw [Thread.activate_pc, hpc]; rfl) rfl rfl rfl))
    · rw [show (s.activated t).self = s.self from threads_modify_ne s t s.current _ hne.symm]
      exact h.pastEntry
  · have hun : (s.threads t).unactivated = false := by
      by_contra hn
      exact hblocked ((h.thread t).unactivated (by simpa using hn))
    refine ⟨s, ?_, h⟩
    rw [threadActivate_other ha hblocked, modify]
    congr
    refine Function.update_eq_self_iff.mpr ?_
    rw [← hun]

/-! ## Every event -/

/-- **One event** keeps the invariant, or `thread_create` finds no memory. -/
theorem events_step (h : Running s) (hnext : SomeoneToRun s) {e : Event} (hl : events.legal s e) :
    Post (events.exec s e) OutOfMemory Running := by
  have hcongr : ∀ b : Bool, Running { s with ints := b } := fun b =>
    h.congr rfl rfl rfl ⟨rfl, rfl, rfl, rfl, rfl, rfl, rfl, rfl, rfl, rfl⟩
  have hpreempt : s.AtUser → ∀ n, Running { s with preemptCnt := n } := fun hu n =>
    ⟨⟨⟨h.thread, h.cpu, h.current, h.fresh, h.dead, h.joins, h.idle, fun _ => Or.inl hu,
      h.runqueue.frame rfl rfl fun _ _ => ⟨rfl, rfl⟩, h.lapses, h.spurious, h.finishedOnCpu⟩,
      h.locks.frame rfl fun _ => SameLock.refl _, h.conds.frame rfl fun _ => SameWait.refl _⟩,
      h.pastEntry⟩
  cases e with
  | tick => exact Post.of_ok (pitHandler_spec h hnext)
  | resume => exact Post.of_ok (resumeCall_spec h hnext hl)
  | setInts on => exact hcongr on
  | disablePreempt => exact hpreempt hl _
  | enablePreempt => exact hpreempt hl.1 _
  | lock m =>
    have hp := h.toInv.plain hl.1
    obtain ⟨hinv, _, hpc⟩ := mutexLock_inv h.toInv hp.lockOf hp.waitOf hp.pending
      hp.active hp.notIdle hl.2 LockPc.lock
    refine ⟨hinv, ?_⟩
    rcases hpc with hpc | ⟨hpc, _⟩ <;> rw [hpc] <;> exact fun h => by cases h
  | unlock m =>
    have hp := h.toInv.plain hl.1
    obtain ⟨s', hexec, hinv, _, hself, _⟩ := mutexUnlock_spec h.toInv hl.2 hp.lockOf
    exact Post.of_ok ⟨s', hexec, hinv, by rw [hself]; exact h.pastEntry⟩
  | wait c m =>
    obtain ⟨s', hexec, hinv, _, hpc, _⟩ := conditionWait_spec (c := c) h.toInv
      (h.toInv.plain hl.1.1) hl.1.2 hl.2
    exact Post.of_ok ⟨s', hexec, hinv, by rw [hpc]; exact fun h => by cases h⟩
  | signal c =>
    cases hq : s.conds c with
    | nil => exact Post.of_ok ⟨s, by simp [events, conditionSignal, hq], h⟩
    | cons node rest =>
      have hp := h.toInv.plain hl
      obtain ⟨s', hexec, hinv, hs'⟩ := conditionSignal_spec h.toInv hp hq
      have hw := (h.conds.mem c node (by rw [hq]; exact List.mem_cons_self)).1
      have hne : s.current ≠ node := fun he => by
        rw [← he] at hw
        exact Option.some_ne_none c (hw.symm.trans hp.waitOf)
      refine Post.of_ok ⟨s', hexec, hinv, ?_⟩
      have hself : s'.self = s.self := by
        rw [hs']
        exact (congrFun threads_wake s.current).trans
          (threads_modify_ne (s.setCond c rest) node _ _ hne)
      rw [hself]
      exact h.pastEntry
  | broadcast c =>
    refine ⟨conditionBroadcast_inv h.toInv (h.toInv.plain hl), ?_⟩
    have hself : (s.conditionBroadcast c).self.pc = .bcast c (s.conds c) :=
      congrArg Thread.pc (threads_modify_self s s.current (Thread.beginBroadcast c (s.conds c)
        ((s.conds c).map fun t => (t, (s.threads t).waits))))
    rw [hself]
    intro h
    cases h
  | schedule => exact Post.of_ok (schedule_spec h (fun h => by cases h) hnext)
  | forceSchedule => exact Post.of_ok (forceSchedule_spec h hl.2 hnext)
  | create stack thread time =>
    cases stack with
    | none => exact Or.inl rfl
    | some stackAddr =>
      cases thread with
      | false => exact Or.inr rfl
      | true => exact Post.of_ok (threadCreate_spec h stackAddr time)
  | activate t => exact Post.of_ok (threadActivate_spec h hl.2.1 hl.2.2)
  | join t =>
    have hp := h.toInv.plain hl.1.1
    refine ⟨h.toInv.gotoPc hp.lockOf rfl (Or.inl hp.waitOf) rfl hp.pending rfl hp.active
      (by simp [hp.notIdle]) (fun u hu => ?_) (fun hn => absurd hl.1.2 hn), ?_⟩
    · obtain rfl : t = u := by simpa using hu
      exact hl.2
    · rw [self_modify]
      intro h
      cases h
  | destroy t =>
    obtain ⟨_, ha, _, hne, hf, hj⟩ := hl
    exact Post.of_ok (threadDestroy_spec h ha hne hf hj)
  | exit =>
    have hp := h.toInv.plain hl.1
    refine ⟨h.toInv.goto (f := ({ · with state := .finishing, pc := .exiting })) ?_ ?_ ?_ ?_ ?_ ?_,
      ?_⟩
    · exact ⟨hp.lockOf.symm, fun hn => absurd hp.lockOf hn⟩
    · exact SameWait.of_none hp.waitOf rfl hp.pending rfl rfl rfl rfl
    · refine ⟨Or.inr ⟨rfl, trivial⟩, fun hun => ?_, fun hn => absurd trivial hn⟩
      have hb := (h.thread s.current).unactivated hun
      rw [← self, hp.active] at hb
      cases hb
    · exact iff_of_false (by simp [InIdle]) hp.notIdle
    · simp [Joins]
    · exact fun hn => absurd hl.2 hn
    · rw [self_modify]
      intro h
      cases h
  | idle => exact Post.of_ok (idle_spec h (h.toInv.plain hl.1.1) hl.1.2 hl.2)

/-! ## The state at boot -/

/-- The thread that `threads_setup` makes of the boot code.  `memset` clears no more of its
`struct thread` than a pointer, so its `time` is arbitrary. -/
def bootThread (time : UInt64) : Thread :=
  { Thread.none with state := .active, time := time, pc := .user }

/-- The state after `threads_setup`: the boot thread runs, with interrupts off. -/
def boot (bootstrapStackTop : Nat) (jiffies time : UInt64) : Threads where
  threads := Function.update (fun _ => Thread.none) kthread (bootThread time)
  allocated := fun t => decide (t = kthread)
  fresh := kthread + 1
  current := kthread
  cpu := kthread
  idleThread := none
  runqueue := []
  preemptCnt := 0
  ints := false
  jiffies := jiffies
  rsp0 := bootstrapStackTop
  bootstrapStackTop := bootstrapStackTop
  mutexes := fun _ => mutexSetup
  conds := fun _ => []
  lapses := []
  spurious := []
  finishedOnCpu := []
  switches := 0

variable (bootstrapStackTop : Nat) (jiffies time : UInt64)

theorem boot_threads (h : t ≠ kthread) :
    (boot bootstrapStackTop jiffies time).threads t = Thread.none := by
  simp [boot, h]

theorem boot_self : (boot bootstrapStackTop jiffies time).self = bootThread time := by
  simp [boot, self]

/-- A property of all threads at boot. -/
theorem boot_forall {P : Tid → Thread → Prop}
    (hk : P kthread (bootThread time))
    (hother : ∀ t, t ≠ kthread → P t Thread.none) (t : Tid) :
    P t ((boot bootstrapStackTop jiffies time).threads t) := by
  by_cases h : t = kthread
  · rw [h, show (boot bootstrapStackTop jiffies time).threads kthread = _ from boot_self _ _ _]
    exact hk
  · rw [boot_threads _ _ _ h]
    exact hother t h

theorem boot_running : Running (boot bootstrapStackTop jiffies time) := by
  refine ⟨⟨⟨?_, rfl, rfl, ?_, ?_, ?_, ?_, fun hn => absurd rfl hn, ?_, rfl, rfl, rfl⟩, ?_, ?_⟩, ?_⟩
  · refine boot_forall _ _ _ (P := fun t th => ThreadOk th (t = kthread)) ?_ fun t ht => ?_
    · exact ⟨rfl, fun hu => Bool.noConfusion hu, fun hn => absurd rfl hn⟩
    · exact ⟨Or.inl ⟨rfl, ht⟩, fun hu => Bool.noConfusion hu, fun _ => by simp [Thread.none]⟩
  · intro t ht
    obtain rfl : t = kthread := by simpa [boot] using ht
    exact Nat.lt_succ_self _
  · intro t ht
    rw [boot_threads _ _ _ (by simpa [boot] using ht)]
    rfl
  · refine boot_forall _ _ _ (P := fun _ th => ∀ u, Joins th u →
      (boot bootstrapStackTop jiffies time).allocated u = true) (fun u hu => ?_) fun t _ u hu => ?_
    · simp [Joins, bootThread] at hu
    · simp [Joins, Thread.none] at hu
  · refine boot_forall _ _ _ (P := fun i th => none = some i ↔ InIdle th) ?_ fun t _ => ?_
    · simp [InIdle, bootThread]
    · simp [InIdle, Thread.none]
  · refine ⟨List.nodup_nil, fun t ht => (by cases ht), fun t hact hne => ?_⟩
    rw [boot_threads _ _ _ hne] at hact
    cases hact
  · refine ⟨fun _ => MutexOk.setup, fun m t => iff_of_false (by simp [boot, mutexSetup]) ?_,
      fun m t => iff_of_false (by simp [boot, mutexSetup]) ?_⟩
    · exact boot_forall _ _ _ (P := fun _ th => ¬ (th.pc.lockOf = some m ∧ th.state = .blocked))
        (by simp [Pc.lockOf, bootThread]) (fun t _ => by simp [Pc.lockOf, Thread.none]) t
    · exact boot_forall _ _ _ (P := fun _ th => ¬ (th.pc.lockOf = some m ∧ th.state = .active))
        (by simp [Pc.lockOf, bootThread]) (fun t _ => by simp [Pc.lockOf, Thread.none]) t
  · have hpend := boot_forall bootstrapStackTop jiffies time (P := fun _ th => th.pc.pending = [])
      rfl fun _ _ => rfl
    have hwait := boot_forall bootstrapStackTop jiffies time (P := fun _ th => th.pc.waitOf = none)
      rfl fun _ _ => rfl
    have hlog := boot_forall bootstrapStackTop jiffies time
      (P := fun _ th => th.detached = [] ∧ th.woken = []) ⟨rfl, rfl⟩ fun _ _ => ⟨rfl, rfl⟩
    refine ⟨fun c t ht => (by cases ht), fun c => List.nodup_nil, fun c t hw => ?_,
      fun b t ht => ?_, fun b b' t ht => ?_, fun b => ?_, fun b => ?_⟩
    · rw [hwait] at hw
      cases hw
    · rw [hpend] at ht
      cases ht
    · rw [hpend] at ht
      cases ht
    · rw [(hlog b).1, (hlog b).2, hpend]
      rfl
    · rw [(hlog b).1]
      exact List.nodup_nil
  · rw [boot_self]
    intro h
    cases h

end Threads

end AuOs
