import Mathlib
import AuOs.Threads.Later

/-!
# What holds in every run with an idle thread

* `Start` — the state in which `idle` has just registered the idle thread and nobody waits.
* `mutual_exclusion` — mutexes: one holder, and waiting threads are served in the order they came.
* `runqueue_consistent` — the runqueue and the life of threads.
* `no_lost_wakeup` — condition variables.
-/

set_option autoImplicit false

namespace AuOs

namespace Threads

variable {s s₀ s' : Threads} {t : Tid}

/-! ## The start -/

/-- A mutex that nobody waits for, free or held. -/
structure MutexQuiet (mtx : Mutex) : Prop where
  waitqueue : mtx.waitqueue = []
  held : mtx.locked = false ∧ mtx.owner = none ∧ mtx.holders = [] ∨
    ∃ o, mtx.locked = true ∧ mtx.owner = some o ∧ mtx.holders = [o]
  logs : mtx.queuedLog = mtx.wokenLog ∧ mtx.wokenLog = mtx.returnedLog

/-- A thread that is not the idle thread and does not wait. -/
inductive ThreadQuiet (s : Threads) (th : Thread) (queued : Prop) : Prop where
  /-- Created, not yet activated. -/
  | new (hs : th.state = .blocked) (hpc : th.pc = .entry) (hr : th.resume = .entry) (hq : ¬ queued)
  /-- Activated, not yet run. -/
  | started (hs : th.state = .active) (hpc : th.pc = .entry) (hr : th.resume = .entry) (hq : queued)
  /-- Preempted, outside of the modelled functions or in `thread_join`. -/
  | ready (hs : th.state = .active)
      (hpc : th.pc = .user ∨ ∃ u, Joins th u ∧ s.allocated u = true) (hr : th.resume ≠ .entry)
      (hq : queued)
  /-- Finished, or never created. -/
  | finished (hs : th.state = .finished) (hpc : th.pc = .exiting) (hr : th.resume ≠ .entry)
      (hq : ¬ queued)

/-- The state in which `idle` has just registered the idle thread and set its state: every other
active thread is queued once and no thread waits.  A tick between the two stores of `idle` finds the
idle thread registered and still active.  The scheduler then puts it into the runqueue, and later
takes it out again without switching to it; no result of this file holds from there on. -/
structure Start (s : Threads) : Prop where
  idleThread : s.idleThread = some s.current
  idleState : s.self.state = .idle ∧ s.self.pc = .idling
  cpu : s.cpu = s.current
  current : s.allocated s.current = true
  notQueued : s.current ∉ s.runqueue
  fresh : ∀ t, s.allocated t = true → t < s.fresh
  dead : ∀ t, s.allocated t = false → (s.threads t).state = .finished
  noSpinlock : s.preemptCnt = 0
  nodup : s.runqueue.Nodup
  other : ∀ t, t ≠ s.current → ThreadQuiet s (s.threads t) (t ∈ s.runqueue)
  mutexes : ∀ m, MutexQuiet (s.mutexes m)
  conds : ∀ c, s.conds c = []
  /-- The ghosts have recorded nothing. -/
  ghosts : ∀ t, (s.threads t).unactivated = false ∧ (s.threads t).detached = [] ∧
    (s.threads t).woken = []
  noLapse : s.lapses = [] ∧ s.spurious = [] ∧ s.finishedOnCpu = []

theorem MutexQuiet.ok {mtx : Mutex} (h : MutexQuiet mtx) : MutexOk mtx := by
  obtain ⟨hq, hheld, hlog₁, hlog₂⟩ := h
  rcases hheld with ⟨hl, ho, hh⟩ | ⟨o, hl, ho, hh⟩
  · exact ⟨by simp [hl, ho], fun _ => ⟨hq, hh, hlog₂⟩, by simp [ho], by simp [hq, hlog₁],
      hq ▸ List.nodup_nil⟩
  · refine ⟨by simp [hl, ho], by simp [ho], fun o' ho' => ?_, by simp [hq,
      hlog₁], hq ▸ List.nodup_nil⟩
    obtain rfl : o = o' := Option.some.inj (ho.symm.trans ho')
    exact Or.inl ⟨hh, hlog₂⟩

/-- A thread that does not wait is at a point of the code without a wait node. -/
theorem ThreadQuiet.plain {th : Thread} {queued : Prop} (h : ThreadQuiet s th queued) :
    th.pc.lockOf = none ∧ th.pc.waitOf = none ∧ th.pc.pending = [] ∧ ¬ InIdle th := by
  cases h with
  | new _ hpc => simp [hpc, Pc.lockOf, Pc.waitOf, Pc.pending, InIdle]
  | started _ hpc => simp [hpc, Pc.lockOf, Pc.waitOf, Pc.pending, InIdle]
  | ready _ hpc =>
    rcases hpc with hpc | ⟨u, hpc | hpc, _⟩ <;>
      simp [hpc, Pc.lockOf, Pc.waitOf, Pc.pending, InIdle]
  | finished _ hpc => simp [hpc, Pc.lockOf, Pc.waitOf, Pc.pending, InIdle]

theorem ThreadQuiet.threadOk {th : Thread} {queued : Prop} (h : ThreadQuiet s th queued)
    (hu : th.unactivated = false) : ThreadOk th False := by
  refine ⟨?_, fun hu' => absurd (hu.symm.trans hu') Bool.false_ne_true, fun _ => ?_⟩
  · unfold StateOk
    cases h with
    | new hs hpc => rw [hpc]; exact Or.inl ⟨hs, not_false⟩
    | started hs hpc => rw [hpc]; exact Or.inr hs
    | ready hs hpc => rcases hpc with hpc | ⟨u, hpc | hpc, _⟩ <;> rw [hpc] <;> exact hs
    | finished hs hpc => rw [hpc]; exact Or.inl ⟨hs, not_false⟩
  · cases h with
    | new _ hpc hr => exact iff_of_true hr hpc
    | started _ hpc hr => exact iff_of_true hr hpc
    | ready _ hpc hr =>
      refine iff_of_false hr fun he => ?_
      rcases hpc with hpc | ⟨u, hpc | hpc, _⟩ <;> rw [hpc] at he <;> cases he
    | finished _ hpc hr => exact iff_of_false hr (by rw [hpc]; exact nofun)

theorem ThreadQuiet.queued_iff {th : Thread} {queued : Prop} (h : ThreadQuiet s th queued) :
    queued ↔ th.state = .active := by
  cases h with
  | new hs _ _ hq => exact iff_of_false hq (by rw [hs]; exact nofun)
  | started hs _ _ hq => exact iff_of_true hq hs
  | ready hs _ _ hq => exact iff_of_true hq hs
  | finished hs _ _ hq => exact iff_of_false hq (by rw [hs]; exact nofun)

/-- **The start satisfies the invariant.** -/
theorem Start.registered (h : Start s) : Registered s := by
  have hself : (s.threads s.current).state = .idle ∧
    (s.threads s.current).pc = .idling := h.idleState
  have hplain : ∀ t, (s.threads t).pc.lockOf = none ∧ (s.threads t).pc.waitOf = none ∧
      (s.threads t).pc.pending = [] := by
    intro t
    by_cases ht : t = s.current
    · rw [ht, hself.2]
      exact ⟨rfl, rfl, rfl⟩
    · obtain ⟨h₁, h₂, h₃, _⟩ := (h.other t ht).plain
      exact ⟨h₁, h₂, h₃⟩
  have hinv : Inv s := by
    refine ⟨⟨fun t => ?_, h.cpu, h.current, h.fresh, fun t ht => ?_, fun t u hu => ?_, fun i => ?_,
      fun hn => absurd h.noSpinlock hn, ⟨h.nodup, fun t ht => ?_, fun t hact hne => ?_⟩,
        h.noLapse.1,
      h.noLapse.2.1, h.noLapse.2.2⟩, ⟨fun m => (h.mutexes m).ok, fun m t => ?_, fun m t => ?_⟩,
      ⟨fun c t ht => ?_, fun c => by rw [h.conds]; exact List.nodup_nil, fun c t hw => ?_,
        fun b t ht => ?_, fun b b' t ht => ?_, fun b => ?_, fun b => ?_⟩⟩
    · by_cases ht : t = s.current
      · subst ht
        refine ⟨?_, fun hu => ?_, fun hn => absurd rfl hn⟩
        · rw [StateOk, hself.2]
          exact hself.1
        · exact absurd ((h.ghosts s.current).1.symm.trans hu) Bool.false_ne_true
      · simpa [ht] using (h.other t ht).threadOk (h.ghosts t).1
    · have hf := h.dead t ht
      have hne : t ≠ s.current := fun he => by
        rw [he, h.current] at ht
        cases ht
      cases h.other t hne with
      | new hs => rw [hf] at hs; cases hs
      | started hs => rw [hf] at hs; cases hs
      | ready hs => rw [hf] at hs; cases hs
      | finished _ hpc => exact hpc
    · by_cases ht : t = s.current
      · rw [ht, Joins, hself.2] at hu
        rcases hu with hu | hu <;> cases hu
      · cases h.other t ht with
        | new _ hpc => rw [Joins, hpc] at hu; rcases hu with hu | hu <;> cases hu
        | started _ hpc => rw [Joins, hpc] at hu; rcases hu with hu | hu <;> cases hu
        | ready _ hpc =>
          rcases hpc with hpc | ⟨v, hpc, hv⟩
          · rw [Joins, hpc] at hu
            rcases hu with hu | hu <;> cases hu
          · obtain rfl : v = u := by
              rcases hpc with hpc | hpc <;> rcases hu with hu | hu <;> rw [hpc] at hu <;>
                cases hu <;> rfl
            exact hv
        | finished _ hpc => rw [Joins, hpc] at hu; rcases hu with hu | hu <;> cases hu
    · rw [h.idleThread]
      by_cases hi : i = s.current
      · subst hi
        exact iff_of_true rfl (Or.inr hself.2)
      · exact iff_of_false (fun he => hi (Option.some.inj he).symm) (h.other i hi).plain.2.2.2
    · have hne : t ≠ s.current := fun he => h.notQueued (he ▸ ht)
      exact ⟨(h.other t hne).queued_iff.mp ht, hne⟩
    · exact Or.inl ((h.other t hne).queued_iff.mpr hact)
    · refine iff_of_false (by rw [(h.mutexes m).waitqueue]; exact List.not_mem_nil) fun hl => ?_
      rw [(hplain t).1] at hl
      cases hl.1
    · refine iff_of_false (fun hheld => ?_) fun hl => ?_
      · obtain ⟨ho, hh⟩ := hheld
        rcases (h.mutexes m).held with ⟨_, ho', _⟩ | ⟨o, _, _, hh'⟩
        · rw [ho'] at ho
          cases ho
        · rw [hh] at hh'
          cases hh'
      · rw [(hplain t).1] at hl
        cases hl.1
    · rw [h.conds] at ht
      cases ht
    · rw [(hplain t).2.1] at hw
      cases hw
    · rw [(hplain b).2.2] at ht
      cases ht
    · rw [(hplain b).2.2] at ht
      cases ht
    · rw [(h.ghosts b).2.1, (h.ghosts b).2.2, (hplain b).2.2]
      rfl
    · rw [(h.ghosts b).2.1]
      exact List.nodup_nil
  exact ⟨⟨hinv, by rw [h.idleState.2]; exact fun h => by cases h⟩, s.current,
    h.idleThread, h.idleState.1⟩

/-- The boot thread has become the idle thread and one thread is ready to run. -/
def idleStart : Threads where
  threads := fun t =>
    if t = kthread then { Thread.none with state := .idle, pc := .idling, resume := .call false }
    else if t = 1 then { Thread.none with state := .active, pc := .user, resume := .tick }
    else Thread.none
  allocated := fun t => decide (t < 2)
  fresh := 2
  current := kthread
  cpu := kthread
  idleThread := some kthread
  runqueue := [1]
  preemptCnt := 0
  ints := true
  jiffies := 0
  rsp0 := 0x108000
  bootstrapStackTop := 0x108000
  mutexes := fun _ => mutexSetup
  conds := fun _ => []
  lapses := []
  spurious := []
  finishedOnCpu := []
  switches := 0

theorem idleStart_start : Start idleStart where
  idleThread := rfl
  idleState := ⟨rfl, rfl⟩
  cpu := rfl
  current := rfl
  notQueued := by decide
  fresh := fun t ht => by simpa [idleStart] using ht
  dead := fun t ht => by
    have h : ¬ t < 2 := by simpa [idleStart] using ht
    have h0 : t ≠ kthread := fun he => h (by rw [he]; decide)
    have h1 : t ≠ 1 := fun he => h (by rw [he]; decide)
    simp [idleStart, h0, h1, Thread.none]
  noSpinlock := rfl
  nodup := by decide
  other := fun t ht => by
    have h0 : t ≠ kthread := ht
    by_cases h1 : t = 1
    · subst h1
      exact .ready rfl (Or.inl rfl) (fun h => by cases h) (by decide)
    · have hth : idleStart.threads t = Thread.none := by simp [idleStart, h0, h1]
      rw [hth]
      exact .finished rfl rfl (fun h => by cases h) (by simp [idleStart, h1])
  mutexes := fun _ => ⟨rfl, Or.inl ⟨rfl, rfl, rfl⟩, rfl, rfl⟩
  conds := fun _ => rfl
  ghosts := fun t => by
    by_cases h0 : t = kthread
    · subst h0; exact ⟨rfl, rfl, rfl⟩
    · by_cases h1 : t = 1
      · subst h1; exact ⟨rfl, rfl, rfl⟩
      · simp [idleStart, h0, h1, Thread.none]
  noLapse := ⟨rfl, rfl, rfl⟩

/-- Every state of a run satisfies the invariant. -/
theorem Start.run (h : Start s₀) (hrun : events.Run s₀ s) : Registered s :=
  registered_keeps.run h.registered hrun

/-- No event of a run follows a dangling pointer or reaches a `BUG` for anything but memory. -/
theorem Start.ends (h : Start s₀) (hrun : events.Run s₀ s) {e : Event} (hl : events.legal s e) :
    Post (events.exec s e) OutOfMemory fun _ => True :=
  (registered_keeps.ends h.registered hrun hl).mono fun _ _ => trivial

/-- A block that ends where no stack of a thread ends. -/
theorem Start.stackFree (h : Start s₀) (hrun : events.Run s₀ s) {stackAddr : Nat}
    (hends : ∀ t < s.fresh, s.threadStackEnd t ≠ stackAddr + threadStackSize) :
    s.StackFree stackAddr :=
  fun t ht => hends t ((h.run hrun).fresh t ht)

/-- The idle thread gives up the CPU, and the other thread makes a third. -/
theorem idleStart_run {calls : List Event} {P : Threads → Prop} [DecidablePred P]
    (h : ((do
        let s ← idleStart.resumeCall
        s.threadCreate (some 0x400000) true 0).toOption.any fun s =>
      (events.trial allows calls s).any fun s => decide (P s)) = true) :
    ∃ s, events.Run idleStart s ∧ P s := by
  have hresume : events.Step idleStart _ := ⟨.resume, nofun, rfl⟩
  have hcreate := (Relation.ReflTransGen.single hresume).tail
    ⟨.create (some 0x400000) true 0, ⟨rfl, fun a ha => by
      cases ha
      exact idleStart_start.stackFree (.single hresume) (by decide)⟩, rfl⟩
  obtain ⟨s, hrun, hP⟩ := CallSystem.exists_run allows_legal h
  exact ⟨s, hcreate.trans hrun, hP⟩

/-- Thread 1 waits for the condition and thread 2 takes the mutex and signals. -/
def signalled : List Event :=
  [.activate 2, .lock 0, .wait 0 0, .resume, .lock 0, .signal 0]

/-! ## Mutexes -/

/-- Mutual exclusion and service in order. -/
structure MutexSafe (s : Threads) : Prop where
  /-- At most one thread is between the return of `mutex_lock` and its `mutex_unlock`. -/
  exclusive : ∀ m, (s.mutexes m).holders.length ≤ 1
  owns : ∀ m t, t ∈ (s.mutexes m).holders → (s.mutexes m).owner = some t
  /-- The threads woken so far and those still queued are the threads that had to wait, in order. -/
  inOrder : ∀ m, (s.mutexes m).queuedLog = (s.mutexes m).wokenLog ++ (s.mutexes m).waitqueue
  /-- Of the threads woken, all but possibly the last have returned from `mutex_lock`, in order. -/
  returned : ∀ m, (s.mutexes m).wokenLog = (s.mutexes m).returnedLog ∨
    ∃ o, (s.mutexes m).owner = some o ∧ (s.mutexes m).wokenLog = (s.mutexes m).returnedLog ++ [o]
  free : ∀ m, (s.mutexes m).locked = false ↔
    (s.mutexes m).owner = none ∧ (s.mutexes m).waitqueue = []
  waiting : ∀ m t, t ∈ (s.mutexes m).waitqueue → (s.threads t).state = .blocked ∧ t ∉ s.runqueue

theorem Inv.mutexSafe (h : Inv s) : MutexSafe s where
  exclusive := fun m => by
    cases ho : (s.mutexes m).owner with
    | none => simp [((h.locks.mutex m).unowned ho).2.1]
    | some o => rcases (h.locks.mutex m).owned o ho with ⟨hh, _⟩ | ⟨hh, _⟩ <;> simp [hh]
  owns := fun m t ht => ((h.locks.mutex m).holder ht).1
  inOrder := fun m => (h.locks.mutex m).queued
  returned := fun m => by
    cases ho : (s.mutexes m).owner with
    | none => exact Or.inl ((h.locks.mutex m).unowned ho).2.2
    | some o =>
      rcases (h.locks.mutex m).owned o ho with ⟨_, hlog⟩ | ⟨_, hlog⟩
      · exact Or.inl hlog
      · exact Or.inr ⟨o, rfl, hlog⟩
  free := fun m => by
    have hl := (h.locks.mutex m).locked
    have hu := (h.locks.mutex m).unowned
    constructor
    · intro hf
      have hnone : (s.mutexes m).owner = none := by
        by_contra hn
        exact Bool.false_ne_true (hf.symm.trans (hl.mpr hn))
      exact ⟨hnone, (hu hnone).1⟩
    · rintro ⟨hnone, _⟩
      by_contra hn
      exact hl.mp (by simpa using hn) hnone
  waiting := fun m t ht => by
    have hb := ((h.locks.queue m t).mp ht).2
    exact ⟨hb, h.runqueue.notMem (by rw [hb]; decide)⟩

/-- **Mutual exclusion and hand-over in order**, in every state of every run. -/
theorem mutual_exclusion (h : Start s₀) (hrun : events.Run s₀ s) :
    MutexSafe s ∧ ∀ e, events.legal s e → Post (events.exec s e) OutOfMemory fun _ => True :=
  ⟨(h.run hrun).toInv.mutexSafe, fun _ hl => h.ends hrun hl⟩

/-- Thread 1 is woken, and now waits for the mutex. -/
theorem mutual_exclusion_one_waiter :
    ∃ s, events.Run idleStart s ∧ ((s.mutexes 0).holders = [2] ∧ (s.mutexes 0).waitqueue = [1]) ∧
      MutexSafe s := by
  obtain ⟨s, hrun, hs⟩ := @idleStart_run (signalled ++ [.forceSchedule, .resume])
    (fun s => (s.mutexes 0).holders = [2] ∧ (s.mutexes 0).waitqueue = [1]) _ (by decide +kernel)
  exact ⟨s, hrun, hs, (mutual_exclusion idleStart_start hrun).1⟩

/-! ## The runqueue and the life of threads -/

/-- The runqueue is consistent and no finished thread is in use. -/
structure RunqueueSafe (s : Threads) : Prop where
  once : s.runqueue.Nodup
  queued : ∀ t, t ∈ s.runqueue ↔ (s.threads t).state = .active ∧ t ≠ s.current
  /-- A finished thread has left the CPU and all queues. -/
  finished : ∀ t, (s.threads t).state = .finished → t ≠ s.cpu ∧ t ≠ s.current ∧ t ∉ s.runqueue ∧
    (∀ m, t ∉ (s.mutexes m).waitqueue) ∧ ∀ c, t ∉ s.conds c
  /-- Threads became finished only after the CPU had left their stack. -/
  left : s.finishedOnCpu = []
  /-- The stack that the CPU is on is allocated. -/
  stack : s.allocated s.cpu = true

theorem Registered.runqueueSafe (h : Registered s) : RunqueueSafe s where
  once := h.runqueue.nodup
  queued := fun t => by
    refine ⟨h.runqueue.mem t, fun ⟨hact, hne⟩ => ?_⟩
    exact (h.runqueue.of_active t hact hne).resolve_right (h.no_idleMark t)
  finished := fun t hf => by
    have hnb : (s.threads t).state ≠ .blocked := by rw [hf]; decide
    have hcur : t ≠ s.current := fun he => by
      have hok := h.toInv.stateOk
      have hpc : (s.threads t).pc = .exiting := by
        have := (h.thread t).state
        revert this
        cases hpc : (s.threads t).pc <;> simp [StateOk, hpc, hf]
      rw [StateOk, self, ← he, hpc] at hok
      rcases hok with hok | hok
      · exact hok.2 trivial
      · rw [hf] at hok
        cases hok.1
    refine ⟨h.cpu ▸ hcur, hcur, h.runqueue.notMem (by rw [hf]; decide), fun m hm => ?_,
      fun c hc => ?_⟩
    · exact hnb ((h.locks.queue m t).mp hm).2
    · exact hnb (h.conds.mem c t hc).2.1
  left := h.finishedOnCpu
  stack := h.cpu ▸ h.current

/-- **The runqueue is consistent and no stack in use is freed**, in every state of every run; a
thread that has finished stays so. -/
theorem runqueue_consistent (h : Start s₀) (hrun : events.Run s₀ s) :
    RunqueueSafe s ∧
    (∀ s', events.Run s s' → ∀ t, s.allocated t = true → (s.threads t).state = .finished →
      (s'.threads t).state = .finished) ∧
    ∀ e, events.legal s e → Post (events.exec s e) OutOfMemory fun _ => True := by
  have hreg := h.run hrun
  refine ⟨hreg.runqueueSafe, fun s' hrun' t ha hf => ?_, fun _ hl => h.ends hrun hl⟩
  exact ((later_run hreg hrun').settled t (hreg.fresh t ha) (Or.inr hf)).trans hf

/-- Thread 2 gives thread 1 the mutex, and ends. -/
theorem runqueue_consistent_one_finished :
    ∃ s, events.Run idleStart s ∧ (s.current = 1 ∧ (s.threads 2).state = .finished) ∧
    RunqueueSafe s := by
  obtain ⟨s, hrun, hs⟩ := @idleStart_run
    (signalled ++ [.forceSchedule, .resume, .resume, .unlock 0, .exit, .resume])
    (fun s => s.current = 1 ∧ (s.threads 2).state = .finished) _ (by decide +kernel)
  exact ⟨s, hrun, hs, (runqueue_consistent idleStart_start hrun).1⟩

/-! ## Condition variables -/

/-- `s'` is `s` after the blocked thread `t` was woken. -/
structure Woken (s s' : Threads) (t : Tid) : Prop where
  blocked : (s.threads t).state = .blocked
  active : (s'.threads t).state = .active
  signalled : (s'.threads t).signalled = true
  runqueue : s'.runqueue = s.runqueue ++ [t]
  current : s'.current = s.current
  mutexes : s'.mutexes = s.mutexes
  others : ∀ u, u ≠ t → u ≠ s.current → s'.threads u = s.threads u

/-- No wakeup is lost and none is invented. -/
structure WakeupSafe (s : Threads) : Prop where
  /-- Until it is woken, a waiting thread is queued, or detached by a broadcast that will wake
  it. -/
  waiting : ∀ t c m, (s.threads t).pc = .waitSched c m → (s.threads t).signalled = false →
    t ∈ s.conds c ∨ ∃ b, (s.threads b).pc.bcastOf = some c ∧ t ∈ (s.threads b).pc.pending
  /-- `condition_wait` queues its caller last and gives up the mutex in one step. -/
  wait : ∀ c m, events.legal s (.wait c m) → ∃ s', events.exec s (.wait c m) = .ok s' ∧
    s'.current = s.current ∧ s'.self.pc = .waitSched c m ∧ s'.conds c = s.conds c ++ [s.current] ∧
    s.current ∉ (s'.mutexes m).holders
  signalEmpty : ∀ c, s.conds c = [] → events.exec s (.signal c) = .ok s
  /-- `condition_signal` wakes the first thread of the queue and nobody else. -/
  signal : ∀ c t rest, events.legal s (.signal c) → s.conds c = t :: rest →
    ∃ s', events.exec s (.signal c) = .ok s' ∧ Woken s s' t ∧ s'.conds c = rest ∧
      s'.self = s.self ∧ ∀ c', c' ≠ c → s'.conds c' = s.conds c'
  /-- `condition_broadcast` detaches the threads queued at that moment, -/
  broadcast : ∀ c, events.legal s (.broadcast c) → ∃ s', events.exec s (.broadcast c) = .ok s' ∧
    s'.current = s.current ∧ s'.self.pc = .bcast c (s.conds c) ∧ s'.conds c = [] ∧
    s'.self.detached = (s.conds c).map fun t => (t, (s.threads t).waits)
  /-- it has woken those it has detached but for those still pending, each at most once, -/
  detached : ∀ b, (s.threads b).detached =
      (s.threads b).woken ++ (s.threads b).pc.pending.map (fun t => (t, (s.threads t).waits)) ∧
    ((s.threads b).detached.map Prod.fst).Nodup
  /-- the next one is woken from the very wait in which it was detached, -/
  wake : ∀ c t nodes, s.self.pc = .bcastWake c t nodes → ∃ s', events.exec s .resume = .ok s' ∧
    Woken s s' t ∧ s'.self.pc = .bcast c nodes ∧
    s'.self.woken = s.self.woken ++ [(t, (s.threads t).waits)]
  /-- and a thread that waits again is not pending. -/
  again : ∀ c t, t ∈ s.conds c → ∀ b, t ∉ (s.threads b).pc.pending
  /-- `condition_wait` has only returned to threads that were woken and own the mutex. -/
  returned : s.spurious = []

theorem Running.wakeupSafe (h : Running s) : WakeupSafe s where
  waiting := fun t c m hpc hs => by
    have hok := (h.thread t).state
    rw [StateOk, hpc, hs] at hok
    have hb : (s.threads t).state = .blocked := by simpa using hok
    rcases h.conds.of_blocked c t (by rw [hpc]; rfl) hb with hq | ⟨b, hb⟩
    · exact Or.inl hq
    · refine Or.inr ⟨b, ?_, hb⟩
      rw [← (h.conds.pending_mem b t hb).2.1, hpc]
      rfl
  wait := fun c m hl => by
    obtain ⟨s', hexec, hinv, hcur, hpc, hq, howner⟩ := conditionWait_spec (c := c) h.toInv
      (h.toInv.plain hl.1.1) hl.1.2 hl.2
    exact ⟨s', hexec, hcur, hpc, hq, fun hmem => howner ((hinv.locks.mutex m).holder hmem).1⟩
  signalEmpty := fun c hq => by simp [events, conditionSignal, hq]
  signal := fun c t rest hl hq => by
    have hp := h.toInv.plain hl
    obtain ⟨s', hexec, _, hs'⟩ := conditionSignal_spec h.toInv hp hq
    obtain ⟨hw, hb, _⟩ := h.conds.mem c t (by rw [hq]; exact List.mem_cons_self)
    have hne : s.current ≠ t := fun he => by
      rw [← he, ← self, hp.waitOf] at hw
      cases hw
    have hthreads : s'.threads = (s.modify t Thread.wake).threads := by rw [hs']; exact threads_wake
    have hother : ∀ u, u ≠ t → s'.threads u = s.threads u := fun u hu => by
      rw [hthreads, threads_modify_ne _ _ _ _ hu]
    have hcur : s'.current = s.current := by rw [hs']; rfl
    refine ⟨s', hexec, ⟨hb, ?_, ?_, by rw [hs']; rfl, hcur, by rw [hs']; rfl,
      fun u hu _ => hother u hu⟩,
      by rw [hs']; exact conds_setCond_self _ _ _, by rw [self, hcur]; exact hother _ hne,
      fun c' hc' => by rw [hs']; exact conds_setCond_ne _ _ _ _ hc'⟩
    · rw [hthreads, threads_modify_self]
      rfl
    · rw [hthreads, threads_modify_self]
      rfl
  broadcast := fun c hl => by
    have hself : (s.conditionBroadcast c).threads s.current = s.self.beginBroadcast c (s.conds c)
        ((s.conds c).map fun t => (t, (s.threads t).waits)) :=
      threads_modify_self s s.current (Thread.beginBroadcast c _ _)
    exact ⟨_, rfl, rfl, congrArg Thread.pc hself, conds_setCond_self _ _ _,
      congrArg Thread.detached hself⟩
  detached := fun b => ⟨h.conds.detached b, h.conds.detached_nodup b⟩
  wake := fun c t nodes hpc => by
    obtain ⟨s', hexec, _, hs'⟩ := bcastWake_spec h.toInv hpc
    obtain ⟨hw, _, hb⟩ := h.conds.pending_mem s.current t
      (by rw [← self, hpc]; exact List.mem_cons_self)
    have hne : t ≠ s.current := fun he => hw (by rw [he, ← self, hpc]; rfl)
    let s₁ := (s.modify t ({ · with signalled := true })).activated t
    have hthreads : s₁.threads = (s.modify t Thread.wake).threads := threads_wake
    have hcur : s'.threads s.current = s.self.nextNode c (t, (s.threads t).waits) nodes := by
      rw [hs', threads_modify_self]
      exact congrArg (Thread.nextNode c _ nodes)
        ((congrFun hthreads s.current).trans (threads_modify_ne _ _ _ _ hne.symm))
    have ht : s'.threads t = (s.threads t).wake := by
      rw [hs', threads_modify_ne _ _ _ _ hne]
      exact (congrFun hthreads t).trans (threads_modify_self _ _ _)
    have hcur' : s'.current = s.current := by rw [hs']; rfl
    refine ⟨s', hexec, ⟨hb, by rw [ht]; rfl, by rw [ht]; rfl, by rw [hs']; rfl, hcur',
      by rw [hs']; rfl, fun u hu huc => ?_⟩, by rw [self, hcur', hcur]; rfl,
      by rw [self, hcur', hcur]; rfl⟩
    rw [hs', threads_modify_ne _ _ _ _ huc]
    exact (congrFun hthreads u).trans (threads_modify_ne _ _ _ _ hu)
  again := fun c t ht => (h.conds.mem c t ht).2.2
  returned := h.spurious

/-- **Condition variables lose no wakeup**, in every state of every run. -/
theorem no_lost_wakeup (h : Start s₀) (hrun : events.Run s₀ s) :
    WakeupSafe s ∧ ∀ e, events.legal s e → Post (events.exec s e) OutOfMemory fun _ => True :=
  ⟨(h.run hrun).toRunning.wakeupSafe, fun _ hl => h.ends hrun hl⟩

/-- Thread 1 is signalled, and returns with the mutex. -/
theorem no_lost_wakeup_one_signal :
    ∃ s, events.Run idleStart s ∧ ((s.threads 1).signalled = true ∧ (s.threads 1).pc = .user ∧
      (s.mutexes 0).holders = [1]) ∧ WakeupSafe s := by
  obtain ⟨s, hrun, hs⟩ := @idleStart_run (signalled ++ [.unlock 0, .forceSchedule, .resume])
    (fun s => (s.threads 1).signalled = true ∧ (s.threads 1).pc = .user ∧
      (s.mutexes 0).holders = [1]) _
    (by decide +kernel)
  exact ⟨s, hrun, hs, (no_lost_wakeup idleStart_start hrun).1⟩

end Threads

end AuOs
