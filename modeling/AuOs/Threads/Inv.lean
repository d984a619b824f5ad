import Mathlib
import AuOs.Threads.Sched

/-!
# The invariant of the scheduler

* `ThreadOk` — which state a thread is in at each point of the code.
* `MutexOk`, `LockOk` — a mutex with its owner and its logs, and which threads are in its waitqueue.
* `CondOk` — which threads are in the waitqueue of a condition or in the list of a broadcast.
* `RunqueueOk` — which threads are in the runqueue.
* `Inv` — all of these for a state of the machine.

Each part comes with a frame lemma that says what of a thread it depends on.
-/

set_option autoImplicit false

namespace AuOs

namespace Threads

/-! ## One thread -/

/-- The state of a thread at each point of the code. -/
def StateOk (th : Thread) (running : Prop) : Prop :=
  match th.pc with
  | .entry => th.state = .blocked ∧ ¬ running ∨ th.state = .active
  | .lockSched _ => th.state = .blocked ∨ th.state = .active
  | .waitSched _ _ => th.state = .blocked ∧ th.signalled = false ∨
      th.state = .active ∧ th.signalled = true
  | .waitRelock _ _ => th.state = .active ∧ th.signalled = true
  | .waitLockSched _ _ => (th.state = .blocked ∨ th.state = .active) ∧ th.signalled = true
  | .exiting => th.state = .finished ∧ ¬ running ∨ th.state = .finishing ∧ running
  | .idling => th.state = .idle
  | _ => th.state = .active

/-- A thread, `running` or not. -/
structure ThreadOk (th : Thread) (running : Prop) : Prop where
  state : StateOk th running
  unactivated : th.unactivated = true → th.state = .blocked
  resume : ¬ running → (th.resume = .entry ↔ th.pc = .entry)

/-! ## The runqueue -/

/-- The runqueue has each active thread but the current one, once.  The thread in `idle` may be
missing before its state is written. -/
structure RunqueueOk (s : Threads) : Prop where
  nodup : s.runqueue.Nodup
  mem : ∀ t, t ∈ s.runqueue → (s.threads t).state = .active ∧ t ≠ s.current
  of_active : ∀ t, (s.threads t).state = .active → t ≠ s.current →
    t ∈ s.runqueue ∨ (s.threads t).pc = .idleMark

theorem RunqueueOk.frame {s s' : Threads} (h : RunqueueOk s) (hq : s'.runqueue = s.runqueue)
    (hc : s'.current = s.current)
    (ht : ∀ t, t ≠ s.current → (s'.threads t).state = (s.threads t).state ∧
      (s'.threads t).pc = (s.threads t).pc) : RunqueueOk s' where
  nodup := hq ▸ h.nodup
  mem := fun t hmem => by
    rw [hq] at hmem
    obtain ⟨hact, hne⟩ := h.mem t hmem
    exact ⟨(ht t hne).1.trans hact, hc ▸ hne⟩
  of_active := fun t hact hne => by
    rw [hc] at hne
    rw [(ht t hne).1] at hact
    rw [hq, (ht t hne).2]
    exact h.of_active t hact hne

/-! ## Mutexes -/

/-- The lock word, the owner, the holder and the logs of a mutex. -/
structure MutexOk (mtx : Mutex) : Prop where
  locked : mtx.locked = true ↔ mtx.owner ≠ none
  unowned : mtx.owner = none →
    mtx.waitqueue = [] ∧ mtx.holders = [] ∧ mtx.wokenLog = mtx.returnedLog
  /-- The owner holds the mutex, or it was handed the mutex and `mutex_lock` has not returned
  yet. -/
  owned : ∀ o, mtx.owner = some o →
    mtx.holders = [o] ∧ mtx.wokenLog = mtx.returnedLog ∨
    mtx.holders = [] ∧ mtx.wokenLog = mtx.returnedLog ++ [o]
  queued : mtx.queuedLog = mtx.wokenLog ++ mtx.waitqueue
  nodup : mtx.waitqueue.Nodup

/-- A thread in `mutex_lock` is queued as long as it is blocked, and owns the mutex after that. -/
structure LockOk (s : Threads) : Prop where
  mutex : ∀ m, MutexOk (s.mutexes m)
  queue : ∀ m t, t ∈ (s.mutexes m).waitqueue ↔
    (s.threads t).pc.lockOf = some m ∧ (s.threads t).state = .blocked
  handed : ∀ m t, (s.mutexes m).owner = some t ∧ (s.mutexes m).holders = [] ↔
    (s.threads t).pc.lockOf = some m ∧ (s.threads t).state = .active

/-- Two records of a thread that are the same as far as mutexes go. -/
def SameLock (th th' : Thread) : Prop :=
  th'.pc.lockOf = th.pc.lockOf ∧ (th.pc.lockOf ≠ none → th'.state = th.state)

theorem SameLock.refl (th : Thread) : SameLock th th := ⟨rfl, fun _ => rfl⟩

theorem LockOk.frame {s s' : Threads} (h : LockOk s) (hm : s'.mutexes = s.mutexes)
    (ht : ∀ t, SameLock (s.threads t) (s'.threads t)) : LockOk s' := by
  have hkey : ∀ m t st, (s'.threads t).pc.lockOf = some m ∧ (s'.threads t).state = st ↔
      (s.threads t).pc.lockOf = some m ∧ (s.threads t).state = st := by
    intro m t st
    rw [(ht t).1]
    refine and_congr_right fun hlock => ?_
    rw [(ht t).2 (by rw [hlock]; exact Option.some_ne_none m)]
  refine ⟨?_, ?_, ?_⟩
  · rw [hm]; exact h.mutex
  · intro m t; rw [hm, hkey]; exact h.queue m t
  · intro m t; rw [hm, hkey]; exact h.handed m t

/-! ## Condition variables -/

/-- A thread in `condition_wait` is blocked as long as it is queued or detached by a broadcast. -/
structure CondOk (s : Threads) : Prop where
  mem : ∀ c t, t ∈ s.conds c → (s.threads t).pc.waitOf = some c ∧ (s.threads t).state = .blocked ∧
    ∀ b, t ∉ (s.threads b).pc.pending
  nodup : ∀ c, (s.conds c).Nodup
  of_blocked : ∀ c t, (s.threads t).pc.waitOf = some c → (s.threads t).state = .blocked →
    t ∈ s.conds c ∨ ∃ b, t ∈ (s.threads b).pc.pending
  pending_mem : ∀ b t, t ∈ (s.threads b).pc.pending → (s.threads t).pc.waitOf ≠ none ∧
    (s.threads t).pc.waitOf = (s.threads b).pc.bcastOf ∧ (s.threads t).state = .blocked
  pending_disjoint : ∀ b b' t, t ∈ (s.threads b).pc.pending → t ∈ (s.threads b').pc.pending → b = b'
  detached : ∀ b, (s.threads b).detached =
    (s.threads b).woken ++ (s.threads b).pc.pending.map fun t => (t, (s.threads t).waits)
  detached_nodup : ∀ b, ((s.threads b).detached.map Prod.fst).Nodup

/-- Two records of a thread that are the same as far as conditions go. -/
structure SameWait (th th' : Thread) : Prop where
  waiting : ∀ c, th'.pc.waitOf = some c ∧ th'.state = .blocked ↔
    th.pc.waitOf = some c ∧ th.state = .blocked
  pending : th'.pc.pending = th.pc.pending
  bcastOf : th.pc.pending ≠ [] → th'.pc.bcastOf = th.pc.bcastOf
  waits : th'.waits = th.waits
  detached : th'.detached = th.detached
  woken : th'.woken = th.woken

theorem SameWait.refl (th : Thread) : SameWait th th :=
  ⟨fun _ => Iff.rfl, rfl, fun _ => rfl, rfl, rfl, rfl⟩

/-- A thread that neither waits nor broadcasts. -/
theorem SameWait.of_none {th th' : Thread} (hw : th.pc.waitOf = none) (hw' : th'.pc.waitOf = none)
    (hp : th.pc.pending = []) (hp' : th'.pc.pending = []) (hwaits : th'.waits = th.waits)
    (hdetached : th'.detached = th.detached) (hwoken : th'.woken = th.woken) : SameWait th th' where
  waiting := fun c => by simp [hw, hw']
  pending := hp'.trans hp.symm
  bcastOf := fun hn => absurd hp hn
  waits := hwaits
  detached := hdetached
  woken := hwoken

theorem CondOk.frame {s s' : Threads} (h : CondOk s) (hc : s'.conds = s.conds)
    (ht : ∀ t, SameWait (s.threads t) (s'.threads t)) : CondOk s' := by
  have hpend : ∀ b, (s'.threads b).pc.pending = (s.threads b).pc.pending := fun b => (ht b).pending
  have hwaits : (fun t => (t, (s'.threads t).waits)) = fun t => (t, (s.threads t).waits) :=
    funext fun t => by rw [(ht t).waits]
  refine ⟨?_, ?_, ?_, ?_, ?_, ?_, ?_⟩
  · intro c t hmem
    rw [hc] at hmem
    obtain ⟨hw, hb, hnp⟩ := h.mem c t hmem
    obtain ⟨hw', hb'⟩ := ((ht t).waiting c).mpr ⟨hw, hb⟩
    exact ⟨hw', hb', fun b => hpend b ▸ hnp b⟩
  · rw [hc]
    exact h.nodup
  · intro c t hw hb
    obtain ⟨hw', hb'⟩ := ((ht t).waiting c).mp ⟨hw, hb⟩
    simp only [hc, hpend]
    exact h.of_blocked c t hw' hb'
  · intro b t hmem
    rw [hpend] at hmem
    obtain ⟨hne, hw, hb⟩ := h.pending_mem b t hmem
    obtain ⟨c, hwc⟩ := Option.ne_none_iff_exists'.mp hne
    obtain ⟨hw', hb'⟩ := ((ht t).waiting c).mpr ⟨hwc, hb⟩
    rw [hw', (ht b).bcastOf (List.ne_nil_of_mem hmem), ← hw, hwc]
    exact ⟨Option.some_ne_none c, rfl, hb'⟩
  · intro b b' t hmem hmem'
    rw [hpend] at hmem hmem'
    exact h.pending_disjoint b b' t hmem hmem'
  · intro b
    rw [(ht b).detached, (ht b).woken, hpend, hwaits]
    exact h.detached b
  · intro b
    rw [(ht b).detached]
    exact h.detached_nodup b

/-! ## The machine -/

/-- The thread is in `idle`. -/
def InIdle (th : Thread) : Prop := th.pc = .idleMark ∨ th.pc = .idling

/-- The thread is in `thread_join(t)`. -/
def Joins (th : Thread) (t : Tid) : Prop := th.pc = .joining t ∨ th.pc = .joinSched t

/-- What holds of the threads, the CPU and the runqueue. -/
structure MachineOk (s : Threads) : Prop where
  thread : ∀ t, ThreadOk (s.threads t) (t = s.current)
  cpu : s.cpu = s.current
  current : s.allocated s.current = true
  fresh : ∀ t, s.allocated t = true → t < s.fresh
  dead : ∀ t, s.allocated t = false → (s.threads t).pc = .exiting
  joins : ∀ t u, Joins (s.threads t) u → s.allocated u = true
  idle : ∀ i, s.idleThread = some i ↔ InIdle (s.threads i)
  preempt : s.preemptCnt ≠ 0 → s.self.pc = .user ∨ s.self.pc.bcastOf ≠ none
  runqueue : RunqueueOk s
  lapses : s.lapses = []
  spurious : s.spurious = []
  finishedOnCpu : s.finishedOnCpu = []

/-- **The invariant of the scheduler.** -/
structure Inv (s : Threads) : Prop extends MachineOk s where
  locks : LockOk s
  conds : CondOk s

/-- Two states with the same CPU, runqueue and set of threads. -/
structure SameMachine (s s' : Threads) : Prop where
  cpu : s'.cpu = s.cpu
  current : s'.current = s.current
  allocated : s'.allocated = s.allocated
  fresh : s'.fresh = s.fresh
  idleThread : s'.idleThread = s.idleThread
  preemptCnt : s'.preemptCnt = s.preemptCnt
  runqueue : s'.runqueue = s.runqueue
  lapses : s'.lapses = s.lapses
  spurious : s'.spurious = s.spurious
  finishedOnCpu : s'.finishedOnCpu = s.finishedOnCpu

section Frames

variable {s s' : Threads} {t : Tid}

/-- A change of one thread, seen by a property of all threads. -/
theorem forall_modify {P : Tid → Thread → Prop} {f : Thread → Thread} (ht : P t (f (s.threads t)))
    (hu : ∀ u, u ≠ t → P u (s.threads u)) (u : Tid) : P u ((s.modify t f).threads u) := by
  by_cases h : u = t
  · subst h
    rw [threads_modify_self]
    exact ht
  · rw [threads_modify_ne _ _ _ _ h]
    exact hu u h

theorem sameLock_modify {f : Thread → Thread}
    (h : SameLock (s.threads t) (f (s.threads t))) (u : Tid) :
    SameLock (s.threads u) ((s.modify t f).threads u) :=
  forall_modify (P := fun u th => SameLock (s.threads u) th) h (fun _ _ => SameLock.refl _) u

theorem sameWait_modify {f : Thread → Thread}
    (h : SameWait (s.threads t) (f (s.threads t))) (u : Tid) :
    SameWait (s.threads u) ((s.modify t f).threads u) :=
  forall_modify (P := fun u th => SameWait (s.threads u) th) h (fun _ _ => SameWait.refl _) u

/-- Mutexes, conditions, the clock and the interrupt flag are no part of `MachineOk`. -/
theorem MachineOk.congr (h : MachineOk s) (hthreads : s'.threads = s.threads)
    (hsame : SameMachine s s') : MachineOk s' where
  thread := fun t => by rw [hthreads, hsame.current]; exact h.thread t
  cpu := by rw [hsame.cpu, hsame.current]; exact h.cpu
  current := by rw [hsame.allocated, hsame.current]; exact h.current
  fresh := fun t => by rw [hsame.allocated, hsame.fresh]; exact h.fresh t
  dead := fun t => by rw [hsame.allocated, hthreads]; exact h.dead t
  joins := fun t u => by rw [hsame.allocated, hthreads]; exact h.joins t u
  idle := fun i => by rw [hsame.idleThread, hthreads]; exact h.idle i
  preempt := by
    rw [hsame.preemptCnt, self, hthreads, hsame.current]
    exact h.preempt
  runqueue := h.runqueue.frame hsame.runqueue hsame.current fun t _ => by
    rw [hthreads]
    exact ⟨rfl, rfl⟩
  lapses := hsame.lapses.trans h.lapses
  spurious := hsame.spurious.trans h.spurious
  finishedOnCpu := hsame.finishedOnCpu.trans h.finishedOnCpu

/-- A thread that is at work is allocated. -/
theorem MachineOk.allocated_of_pc (h : MachineOk s) (hpc : (s.threads t).pc ≠ .exiting) :
    s.allocated t = true := by
  by_contra hn
  exact hpc (h.dead t (Bool.eq_false_iff.mpr hn))

/-- **The current thread moves on.** -/
theorem MachineOk.move (h : MachineOk s) {f : Thread → Thread} (hok : ThreadOk (f s.self) True)
    (hidle : InIdle (f s.self) ↔ InIdle s.self)
    (hjoin : ∀ u, Joins (f s.self) u → s.allocated u = true)
    (hpre : s.preemptCnt ≠ 0 → (f s.self).pc = .user ∨ (f s.self).pc.bcastOf ≠ none) :
    MachineOk (s.modify s.current f) where
  thread := forall_modify (P := fun u th => ThreadOk th (u = s.current)) (by simpa [self] using hok)
    fun u _ => h.thread u
  cpu := h.cpu
  current := h.current
  fresh := h.fresh
  dead := fun u hu => by
    have hne : u ≠ s.current := fun he => by
      rw [he] at hu
      exact Bool.false_ne_true (hu.symm.trans h.current)
    rw [threads_modify_ne _ _ _ _ hne]
    exact h.dead u hu
  joins := forall_modify (P := fun _ th => ∀ u, Joins th u → s.allocated u = true) hjoin
    fun u _ => h.joins u
  idle := forall_modify (P := fun i th => s.idleThread = some i ↔ InIdle th)
    ((h.idle s.current).trans hidle.symm) fun u _ => h.idle u
  preempt := by simpa [self] using hpre
  runqueue := h.runqueue.frame rfl rfl fun u hu => by
    rw [threads_modify_ne _ _ _ _ hu]
    exact ⟨rfl, rfl⟩
  lapses := h.lapses
  spurious := h.spurious
  finishedOnCpu := h.finishedOnCpu

/-- The current thread moves on without entering or leaving a queue. -/
theorem Inv.goto (h : Inv s) {f : Thread → Thread} (hlock : SameLock s.self (f s.self))
    (hwait : SameWait s.self (f s.self)) (hok : ThreadOk (f s.self) True)
    (hidle : InIdle (f s.self) ↔ InIdle s.self)
    (hjoin : ∀ u, Joins (f s.self) u → s.allocated u = true)
    (hpre : s.preemptCnt ≠ 0 → (f s.self).pc = .user ∨ (f s.self).pc.bcastOf ≠ none) :
    Inv (s.modify s.current f) where
  toMachineOk := h.toMachineOk.move hok hidle hjoin hpre
  locks := h.locks.frame rfl (sameLock_modify hlock)
  conds := h.conds.frame rfl (sameWait_modify hwait)

end Frames

end Threads

end AuOs
