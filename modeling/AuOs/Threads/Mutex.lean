import Mathlib
import AuOs.Threads.Inv

/-!
# Mutexes keep the invariant

* `activated`, `threadActivate_blocked` — what `thread_activate` does to a blocked thread.
* `MutexOk.take`, `MutexOk.enqueue`, `MutexOk.release`, `MutexOk.handOver`, `MutexOk.lockReturned` —
  the life of one mutex.
* `mutexLock_inv`, `mutexUnlock_spec`, `lockReturned_inv` — the functions of `mutex.c`.
-/

set_option autoImplicit false

namespace AuOs

namespace Threads

variable {s : Threads} {m : Mid} {t : Tid}

/-! ## Activation -/

/-- The state after `thread_activate` of a blocked thread. -/
def activated (s : Threads) (t : Tid) : Threads :=
  { s.modify t Thread.activate with
    runqueue := s.runqueue ++ [t] }

theorem touch_ok (h : s.allocated t = true) : s.touch t = .ok () := if_pos h

theorem threadActivate_blocked (ha : s.allocated t = true) (hb : (s.threads t).state = .blocked)
    (hq : t ∉ s.runqueue) : s.threadActivate t = .ok (s.activated t) := by
  simp only [threadActivate, touch_ok ha, ok_bind, hb, if_true, enqueue, hq, if_false, activated,
    modify]

/-- On a thread that is not blocked `thread_activate` has no effect. -/
theorem threadActivate_other (ha : s.allocated t = true) (hb : (s.threads t).state ≠ .blocked) :
    s.threadActivate t = .ok (s.modify t ({ · with unactivated := false })) := by
  simp only [threadActivate, touch_ok ha, ok_bind, hb, if_false, pure_eq_ok]

theorem RunqueueOk.activated (h : RunqueueOk s) {s' : Threads} (hb : (s.threads t).state = .blocked)
    (hne : t ≠ s.current) (hq : s'.runqueue = s.runqueue ++ [t]) (hc : s'.current = s.current)
    (hact : (s'.threads t).state = .active)
    (hu : ∀ u, u ≠ t → u ≠ s.current → (s'.threads u).state = (s.threads u).state ∧
      (s'.threads u).pc = (s.threads u).pc) : RunqueueOk s' := by
  have hnot : t ∉ s.runqueue := fun hmem => by
    have := (h.mem t hmem).1
    rw [hb] at this
    cases this
  refine ⟨?_, ?_, ?_⟩
  · rw [hq]
    exact List.nodup_append.mpr ⟨h.nodup, List.nodup_singleton t, fun a ha b hb' he => by
      rw [List.mem_singleton] at hb'
      exact hnot (hb' ▸ he ▸ ha)⟩
  · intro u hmem
    rw [hc]
    by_cases hut : u = t
    · exact hut ▸ ⟨hact, hne⟩
    · rw [hq, List.mem_append, List.mem_singleton] at hmem
      obtain ⟨ha, hn⟩ := h.mem u (hmem.resolve_right hut)
      exact ⟨(hu u hut hn).1.trans ha, hn⟩
  · intro u ha hn
    rw [hc] at hn
    rw [hq, List.mem_append, List.mem_singleton]
    by_cases hut : u = t
    · exact Or.inl (Or.inr hut)
    · rw [(hu u hut hn).1] at ha
      rw [(hu u hut hn).2]
      exact (h.of_active u ha hn).imp_left Or.inl

/-- An activated thread that was new, or waited for a mutex. -/
theorem ThreadOk.activate {th : Thread} {running : Prop} (h : ThreadOk th running) (hr : ¬ running)
    (hpc : th.pc = .entry ∨ th.pc.lockOf ≠ none) : ThreadOk th.activate False where
  state := by
    have hs := h.state
    unfold StateOk at hs ⊢
    cases hth : th.pc <;> simp_all [Pc.lockOf]
  unactivated := fun hu => Bool.noConfusion hu
  resume := fun _ => h.resume hr

/-- A blocked thread is not in the runqueue. -/
theorem RunqueueOk.notMem (h : RunqueueOk s) (hb : (s.threads t).state ≠ .active) :
    t ∉ s.runqueue := fun hmem => hb (h.mem t hmem).1

/-- **A blocked thread is activated.** -/
theorem MachineOk.activated (h : MachineOk s) (hb : (s.threads t).state = .blocked)
    (hne : t ≠ s.current) {f : Thread → Thread}
    (hok : ThreadOk (f (s.threads t)) False) (hact : (f (s.threads t)).state = .active)
    (hpc : (f (s.threads t)).pc = (s.threads t).pc) :
    MachineOk { s.modify t f with runqueue := s.runqueue ++ [t] } where
  thread := forall_modify (P := fun u th => ThreadOk th (u = s.current)) (by simpa [hne] using hok)
    fun u _ => h.thread u
  cpu := h.cpu
  current := h.current
  fresh := h.fresh
  dead := forall_modify (P := fun u th => s.allocated u = false → th.pc = .exiting)
    (fun ha => hpc.trans (h.dead t ha)) fun u _ => h.dead u
  joins := forall_modify (P := fun _ th => ∀ u, Joins th u → s.allocated u = true)
    (fun u hu => h.joins t u (by rwa [Joins, hpc] at hu)) fun u _ => h.joins u
  idle := forall_modify (P := fun i th => s.idleThread = some i ↔ InIdle th)
    ((h.idle t).trans (by rw [InIdle, InIdle, hpc])) fun u _ => h.idle u
  preempt := by
    have := h.preempt
    simpa [self, threads_modify, hne.symm] using this
  runqueue := h.runqueue.activated hb hne rfl rfl (by simpa using hact) fun u hu _ => by
    rw [show (({ s.modify t f with runqueue := s.runqueue ++ [t] } : Threads).threads u) =
      (s.modify t f).threads u from rfl, threads_modify_ne _ _ _ _ hu]
    exact ⟨rfl, rfl⟩
  lapses := h.lapses
  spurious := h.spurious
  finishedOnCpu := h.finishedOnCpu

/-! ## The life of a mutex -/

section Mutex

variable {mtx : Mutex}

theorem MutexOk.setup : MutexOk mutexSetup := by
  constructor <;> simp [mutexSetup]

/-- A free mutex is taken. -/
theorem MutexOk.take (h : MutexOk mtx) (hl : mtx.locked = false) :
    MutexOk (mtx.take t) := by
  have hnone : mtx.owner = none := by
    by_contra hn
    exact absurd (h.locked.mpr hn) (by rw [hl]; exact Bool.false_ne_true)
  obtain ⟨hq, hh, hlog⟩ := h.unowned hnone
  constructor
  · simp
  · simp
  · rintro o ho
    obtain rfl : t = o := by simpa using ho
    exact Or.inl ⟨by simp [hh], hlog⟩
  · exact h.queued
  · exact h.nodup

/-- A thread has to wait. -/
theorem MutexOk.enqueue (h : MutexOk mtx) (hl : mtx.locked = true) (ht : t ∉ mtx.waitqueue) :
    MutexOk (mtx.enqueue t) := by
  constructor
  · exact h.locked
  · intro hn
    exact absurd hn (h.locked.mp hl)
  · exact h.owned
  · simp [h.queued]
  · have hne : ∀ a ∈ mtx.waitqueue, a ≠ t := fun a ha he => ht (he ▸ ha)
    simpa [List.nodup_append, h.nodup] using hne

theorem MutexOk.holder (h : MutexOk mtx) (ht : t ∈ mtx.holders) :
    mtx.owner = some t ∧ mtx.holders = [t] ∧ mtx.wokenLog = mtx.returnedLog := by
  cases howner : mtx.owner with
  | none =>
    rw [(h.unowned howner).2.1] at ht
    cases ht
  | some o =>
    rcases h.owned o howner with ⟨hh, hlog⟩ | ⟨hh, _⟩
    · rw [hh, List.mem_singleton] at ht
      exact ⟨ht ▸ rfl, ht ▸ hh, hlog⟩
    · rw [hh] at ht
      cases ht

/-- The holder frees a mutex that nobody waits for. -/
theorem MutexOk.release (h : MutexOk mtx) (ht : t ∈ mtx.holders) (hq : mtx.waitqueue = []) :
    MutexOk (mtx.release t) := by
  obtain ⟨_, hh, hlog⟩ := h.holder ht
  constructor
  · simp
  · exact fun _ => ⟨hq, by simp [hh], hlog⟩
  · simp
  · exact h.queued
  · exact h.nodup

/-- The holder hands the mutex over to the first thread that waits for it. -/
theorem MutexOk.handOver (h : MutexOk mtx) (ht : t ∈ mtx.holders) {next : Tid} {rest : List Tid}
    (hq : mtx.waitqueue = next :: rest) :
    MutexOk (mtx.handOver t next rest) := by
  obtain ⟨howner, hh, hlog⟩ := h.holder ht
  constructor
  · simpa [howner] using h.locked
  · simp
  · rintro o ho
    obtain rfl : next = o := by simpa using ho
    exact Or.inr ⟨by simp [hh], by simp [hlog]⟩
  · simp [h.queued, hq]
  · exact (List.nodup_cons.mp (hq ▸ h.nodup)).2

/-- `mutex_lock` returns to the thread that was handed the mutex. -/
theorem MutexOk.lockReturned (h : MutexOk mtx) (howner : mtx.owner = some t)
    (hh : mtx.holders = []) : MutexOk (mtx.lockReturned t) := by
  have hlog : mtx.wokenLog = mtx.returnedLog ++ [t] := by
    rcases h.owned t howner with ⟨hh', _⟩ | ⟨_, hlog⟩
    · rw [hh] at hh'
      cases hh'
    · exact hlog
  constructor
  · exact h.locked
  · intro hn
    exact absurd (howner.symm.trans hn) (Option.some_ne_none t)
  · intro o ho
    obtain rfl : t = o := Option.some.inj (howner.symm.trans ho)
    exact Or.inl ⟨by simp [hh], hlog⟩
  · exact h.queued
  · exact h.nodup

end Mutex

/-! ## One mutex changes -/

/-- **One mutex and one thread in it change.** -/
theorem LockOk.change (h : LockOk s) {s' : Threads} {f : Thread → Thread} {g : Mutex → Mutex}
    (hthreads : s'.threads = (s.modify t f).threads)
    (hmutexes : s'.mutexes = (s.modifyMutex m g).mutexes)
    (hok : MutexOk (g (s.mutexes m)))
    (ht : (s.threads t).pc.lockOf = none ∨ (s.threads t).pc.lockOf = some m)
    (ht' : (f (s.threads t)).pc.lockOf = none ∨ (f (s.threads t)).pc.lockOf = some m)
    (hq : ∀ u, u ≠ t → (u ∈ (g (s.mutexes m)).waitqueue ↔ u ∈ (s.mutexes m).waitqueue))
    (hqt : t ∈ (g (s.mutexes m)).waitqueue ↔
      (f (s.threads t)).pc.lockOf = some m ∧ (f (s.threads t)).state = .blocked)
    (hh : ∀ u, u ≠ t → ((g (s.mutexes m)).owner = some u ∧ (g (s.mutexes m)).holders = [] ↔
      (s.mutexes m).owner = some u ∧ (s.mutexes m).holders = []))
    (hht : (g (s.mutexes m)).owner = some t ∧ (g (s.mutexes m)).holders = [] ↔
      (f (s.threads t)).pc.lockOf = some m ∧ (f (s.threads t)).state = .active) : LockOk s' := by
  -- no lock but `m` gains or loses a thread
  have hkey : ∀ m' u st, m' ≠ m →
      ((s'.threads u).pc.lockOf = some m' ∧ (s'.threads u).state = st ↔
        (s.threads u).pc.lockOf = some m' ∧ (s.threads u).state = st) := by
    intro m' u st hm'
    by_cases hu : u = t
    · have hno : ∀ o : Option Mid, o = none ∨ o = some m → o ≠ some m' := by
        rintro o (rfl | rfl) he
        · cases he
        · exact hm' (Option.some.inj he).symm
      subst hu
      rw [hthreads, threads_modify_self]
      exact ⟨fun hl => absurd hl.1 (hno _ ht'), fun hl => absurd hl.1 (hno _ ht)⟩
    · rw [hthreads, threads_modify_ne _ _ _ _ hu]
  refine ⟨fun m' => ?_, fun m' u => ?_, fun m' u => ?_⟩
  all_goals
    by_cases hm' : m' = m
  · subst hm'
    rw [hmutexes, mutexes_modifyMutex_self]
    exact hok
  · rw [hmutexes, mutexes_modifyMutex_ne _ _ _ _ hm']
    exact h.mutex m'
  · subst hm'
    rw [hmutexes, mutexes_modifyMutex_self, hthreads]
    by_cases hu : u = t
    · subst hu
      rw [threads_modify_self]
      exact hqt
    · rw [threads_modify_ne _ _ _ _ hu]
      exact (hq u hu).trans (h.queue m' u)
  · rw [hkey m' u _ hm', hmutexes, mutexes_modifyMutex_ne _ _ _ _ hm']
    exact h.queue m' u
  · subst hm'
    rw [hmutexes, mutexes_modifyMutex_self, hthreads]
    by_cases hu : u = t
    · subst hu
      rw [threads_modify_self]
      exact hht
    · rw [threads_modify_ne _ _ _ _ hu]
      exact (hh u hu).trans (h.handed m' u)
  · rw [hkey m' u _ hm', hmutexes, mutexes_modifyMutex_ne _ _ _ _ hm']
    exact h.handed m' u

/-! ## The functions of `mutex.c` -/

/-- Where a thread goes to wait for the mutex. -/
inductive LockPc (th : Thread) (m : Mid) : Pc → Prop where
  | lock : LockPc th m (.lockSched m)
  | wait (c : Cid) (h : th.signalled = true) : LockPc th m (.waitLockSched c m)

/-- **`mutex_lock`** up to the call of `schedule`: the mutex is taken, or the thread is queued. -/
theorem mutexLock_inv (h : Inv s) (hlock : s.self.pc.lockOf = none)
    (hwait : s.self.pc.waitOf = none)
    (hpend : s.self.pc.pending = []) (hact : s.self.state = .active) (hidle : ¬ InIdle s.self)
    (hcnt : s.preemptCnt = 0) {sched : Pc} (hsched : LockPc s.self m sched) :
    Inv (s.mutexLock m sched) ∧ (s.mutexLock m sched).current = s.current ∧
      ((s.mutexLock m sched).self.pc = sched ∨
        (s.mutexLock m sched).self.pc = .user ∧
          (s.mutexLock m sched).self.signalled = s.self.signalled ∧
          ((s.mutexLock m sched).mutexes m).owner = some s.current) := by
  have hun : s.self.unactivated = false := by
    by_contra hn
    have := (h.thread s.current).unactivated (by simpa [self] using hn)
    rw [← self, hact] at this
    cases this
  unfold mutexLock
  split
  case isTrue hl =>
    have hnotq : s.current ∉ (s.mutexes m).waitqueue := fun hq => by
      have := ((h.locks.queue m s.current).mp hq).1
      rw [← self, hlock] at this
      cases this
    have hpc : sched.lockOf = some m ∧ sched.waitOf = none ∧ sched.pending = [] := by
      cases hsched <;> exact ⟨rfl, rfl, rfl⟩
    refine ⟨⟨?_, ?_, ?_⟩, rfl, Or.inl (by simp [self])⟩
    · refine (h.toMachineOk.move (f := Thread.block sched) ⟨?_, fun _ => rfl,
        fun hn => absurd trivial hn⟩
        ?_ ?_ ?_).congr rfl ⟨rfl, rfl, rfl, rfl, rfl, rfl, rfl, rfl, rfl, rfl⟩
      · cases hsched with
        | lock => exact Or.inl rfl
        | wait c hs => exact ⟨Or.inl rfl, hs⟩
      · refine iff_of_false ?_ hidle
        cases hsched <;> simp [InIdle, Thread.block]
      · cases hsched <;> simp [Joins, Thread.block]
      · exact fun hn => absurd hcnt hn
    · refine h.locks.change (f := Thread.block sched) rfl rfl ((h.locks.mutex m).enqueue hl hnotq)
        (Or.inl hlock) (Or.inr hpc.1) ?_ ?_ ?_ ?_
      · intro u hu
        simp [hu]
      · simp [hpc.1, Thread.block]
      · exact fun u _ => Iff.rfl
      · refine iff_of_false (fun hheld => ?_) (by simp [Thread.block])
        have := ((h.locks.handed m s.current).mp hheld).1
        rw [← self, hlock] at this
        cases this
    · exact h.conds.frame rfl (sameWait_modify (f := Thread.block sched)
        (SameWait.of_none hwait hpc.2.1 hpend hpc.2.2 rfl rfl rfl))
  case isFalse hl =>
    have hl' : (s.mutexes m).locked = false := by simpa using hl
    have hfree : (s.mutexes m).waitqueue = [] ∧ (s.mutexes m).holders = [] := by
      have hnone : (s.mutexes m).owner = none := by
        by_contra hn
        exact hl ((h.locks.mutex m).locked.mpr hn)
      exact ⟨((h.locks.mutex m).unowned hnone).1, ((h.locks.mutex m).unowned hnone).2.1⟩
    refine ⟨⟨?_, ?_, ?_⟩, rfl, Or.inr ⟨by simp [self], by simp [self], by simp⟩⟩
    · refine (h.toMachineOk.move (f := Thread.goto .user) ⟨hact, fun hu => ?_,
        fun hn => absurd trivial hn⟩ ?_ ?_ ?_).congr rfl
        ⟨rfl, rfl, rfl, rfl, rfl, rfl, rfl, rfl, rfl, rfl⟩
      · exact absurd (hun.symm.trans hu) Bool.false_ne_true
      · exact iff_of_false (by simp [InIdle]) hidle
      · simp [Joins]
      · exact fun _ => Or.inl rfl
    · refine h.locks.change (f := Thread.goto .user) rfl rfl ((h.locks.mutex m).take hl')
        (Or.inl hlock) (Or.inl rfl) ?_ ?_ ?_ ?_
      · exact fun u _ => Iff.rfl
      · simp [hfree, Pc.lockOf]
      · intro u hu
        refine iff_of_false (by simp) fun hheld => ?_
        have := (h.locks.mutex m).locked.mpr (by rw [hheld.1]; exact Option.some_ne_none u)
        exact hl this
      · simp [Pc.lockOf]
    · exact h.conds.frame rfl (sameWait_modify (f := Thread.goto .user)
        (SameWait.of_none hwait rfl hpend rfl rfl rfl rfl))

/-- **`mutex_unlock`** by the holder frees the mutex or hands it to the first thread that waits. -/
theorem mutexUnlock_spec (h : Inv s) (hm : s.current ∈ (s.mutexes m).holders)
    (hlock : s.self.pc.lockOf = none) :
    ∃ s', s.mutexUnlock m = .ok s' ∧ Inv s' ∧ s'.current = s.current ∧ s'.self = s.self ∧
      s'.conds = s.conds ∧ s'.preemptCnt = s.preemptCnt ∧
          (s'.mutexes m).owner ≠ some s.current := by
  obtain ⟨howner, hholders, _⟩ := (h.locks.mutex m).holder hm
  unfold mutexUnlock
  split
  case h_1 hq =>
    refine ⟨_, rfl, ⟨?_, ?_, ?_⟩, rfl, rfl, rfl, rfl, by simp⟩
    · exact h.toMachineOk.congr rfl ⟨rfl, rfl, rfl, rfl, rfl, rfl, rfl, rfl, rfl, rfl⟩
    · refine h.locks.change (t := s.current) (f := id) ?_ rfl ((h.locks.mutex m).release hm hq)
        (Or.inl hlock) (Or.inl hlock) ?_ ?_ ?_ ?_
      · simp [modify]
      · exact fun u _ => Iff.rfl
      · exact (h.locks.queue m s.current)
      · intro u hu
        refine iff_of_false (by simp) fun hheld => hu ?_
        exact (Option.some.inj (howner.symm.trans hheld.1)).symm
      · refine iff_of_false (by simp) fun hheld => ?_
        have hl := hheld.1
        rw [id, ← self, hlock] at hl
        cases hl
    · exact h.conds.frame rfl fun t => SameWait.refl _
  case h_2 next rest hq =>
    obtain ⟨hpc, hb⟩ := (h.locks.queue m next).mp (by rw [hq]; exact List.mem_cons_self)
    have hne : next ≠ s.current := fun he => by
      rw [he, ← self, hlock] at hpc
      cases hpc
    have halloc : s.allocated next = true := h.toMachineOk.allocated_of_pc fun he => by
      rw [he] at hpc
      cases hpc
    have hwaitOf : (s.threads next).pc.waitOf = none := by
      revert hpc
      cases (s.threads next).pc <;> simp [Pc.lockOf, Pc.waitOf]
    have hnotrq : next ∉ s.runqueue := h.runqueue.notMem (by rw [hb]; decide)
    have hact := threadActivate_blocked (s := s.modifyMutex m (Mutex.handOver s.current next rest))
      halloc hb hnotrq
    refine ⟨(s.modifyMutex m (Mutex.handOver s.current next rest)).activated next,
      by simp only [lockNode, hpc, if_true, touch_ok halloc, ok_bind, hact], ⟨?_, ?_, ?_⟩,
      rfl, threads_modify_ne _ _ _ _ hne.symm, rfl, rfl, ?_⟩
    · refine (h.toMachineOk.activated (f := Thread.activate) hb hne ((h.thread next).activate hne
        (Or.inr (by rw [hpc]; exact Option.some_ne_none m))) rfl rfl).congr rfl ?_
      exact ⟨rfl, rfl, rfl, rfl, rfl, rfl, rfl, rfl, rfl, rfl⟩
    · refine h.locks.change (f := Thread.activate) rfl rfl ((h.locks.mutex m).handOver hm hq)
        (Or.inr hpc) (Or.inr hpc) ?_ ?_ ?_ ?_
      · intro u hu
        simp [hq, hu]
      · have hnotin : next ∉ rest := (List.nodup_cons.mp (hq ▸ (h.locks.mutex m).nodup)).1
        simpa using hnotin
      · intro u hu
        refine iff_of_false ?_ ?_
        · simp [hu.symm]
        · simp [hholders]
      · simp [hholders, hpc]
    · refine h.conds.frame rfl (sameWait_modify (f := Thread.activate) ⟨fun c => ?_, rfl,
        fun _ => rfl, rfl, rfl, rfl⟩)
      simp [hwaitOf]
    · simpa [Threads.activated] using hne

/-- The thread that was handed the mutex owns it. -/
theorem Inv.handed (h : Inv s) (hpc : s.self.pc.lockOf = some m) (hact : s.self.state = .active) :
    (s.mutexes m).owner = some s.current ∧ (s.mutexes m).holders = [] :=
  (h.locks.handed m s.current).mpr ⟨hpc, hact⟩

/-- **`mutex_lock` returns** to a thread that has been activated. -/
theorem lockReturned_inv (h : Inv s) (hpc : s.self.pc.lockOf = some m)
    (hact : s.self.state = .active) :
    Inv ((s.lockReturned m).modify s.current (Thread.goto .user)) := by
  obtain ⟨howner, hholders⟩ := h.handed hpc hact
  have hwait : s.self.pc.waitOf = none ∧ s.self.pc.pending = [] ∧ ¬ InIdle s.self := by
    revert hpc
    unfold InIdle
    cases s.self.pc <;> simp [Pc.lockOf, Pc.waitOf, Pc.pending]
  refine ⟨?_, ?_, ?_⟩
  · refine (h.toMachineOk.move (f := Thread.goto .user)
      ⟨hact, (h.thread s.current).unactivated, fun hn => absurd trivial hn⟩ ?_ ?_ ?_).congr rfl
      ⟨rfl, rfl, rfl, rfl, rfl, rfl, rfl, rfl, rfl, rfl⟩
    · exact iff_of_false (by simp [InIdle]) hwait.2.2
    · simp [Joins]
    · exact fun _ => Or.inl rfl
  · refine h.locks.change (f := Thread.goto .user) rfl rfl
      ((h.locks.mutex m).lockReturned howner hholders) (Or.inr hpc) (Or.inl rfl) ?_ ?_ ?_ ?_
    · exact fun u _ => Iff.rfl
    · refine iff_of_false (fun hq => ?_) (by simp [Pc.lockOf])
      have := ((h.locks.queue m s.current).mp hq).2
      rw [← self, hact] at this
      cases this
    · intro u hu
      refine iff_of_false (by simp) fun hheld => hu ?_
      exact Option.some.inj (hheld.1.symm.trans howner)
    · simp [Pc.lockOf]
  · exact h.conds.frame rfl (sameWait_modify (f := Thread.goto .user)
      (SameWait.of_none hwait.1 rfl hwait.2.1 rfl rfl rfl rfl))

/-- The ghost of `condition_wait` records nothing when all is well. -/
theorem waitReturned_eq (hs : s.self.signalled = true)
    (ho : (s.mutexes m).owner = some s.current) : s.waitReturned m = s :=
  if_pos ⟨hs, ho⟩

end Threads

end AuOs
