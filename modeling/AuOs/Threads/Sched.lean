import Mathlib
import AuOs.Lib.CallSystem
import AuOs.Threads.State

/-!
# The scheduler, mutexes and condition variables

The functions of `threads.c`, `mutex.c` and `condition.c`, cut into their atomic steps.

* `threadActivate`, `placeThread`, `threadSwitchTo`, `schedulePick` — the scheduler; `schedule` and
  `forceSchedule` are whole calls, from the point where they disable interrupts to the point where
  the thread that runs then has restored them.
* `mutexLock`, `mutexUnlock`, `conditionWait`, `conditionSignal`, `conditionBroadcast` — the parts
  with interrupts off.
* `events` — everything that can happen next: a timer tick, the next step of the call that the
  current thread is in, or a new call by the current thread; `allows` tests its contract.

Where the code would follow a pointer into freed memory, link a list node that is linked already or
use a wait node of a call that has returned, the model faults.
-/

set_option autoImplicit false

namespace AuOs

namespace Threads

/-- The thread that is running. -/
def self (s : Threads) : Thread := s.threads s.current

/-- An access to a `struct thread`. -/
def touch (s : Threads) (t : Tid) : Res Unit :=
  if s.allocated t then .ok () else .error .fault

/-! ## Stacks -/

def STACK_ORDER : Nat := 1

/-- `__thread_stack_size`. -/
def threadStackSize : Nat := 2 ^ (PAGE_SHIFT + STACK_ORDER)

/-- `thread_stack_end`. -/
def threadStackEnd (s : Threads) (t : Tid) : Nat :=
  if t = kthread then s.bootstrapStackTop else (s.threads t).stackAddr + threadStackSize

/-! ## The scheduler -/

/-- `list_add_tail(&thread->ll, &runqueue)`. -/
def enqueue (s : Threads) (t : Tid) : Res Threads :=
  if t ∈ s.runqueue then .error .fault else .ok { s with runqueue := s.runqueue ++ [t] }

/-- `thread_activate`. -/
def threadActivate (s : Threads) (t : Tid) : Res Threads := do
  s.touch t
  if (s.threads t).state = .blocked then
    enqueue (s.modify t Thread.activate) t
  else
    return s.modify t ({ · with unactivated := false })

/-- The first step of `place_thread`: the thread that has left the CPU may have finished. -/
def finishPrev (s : Threads) : Threads :=
  if s.self.state = .finishing then
    { s.modify s.current ({ · with state := .finished }) with
      finishedOnCpu := if s.cpu = s.current then s.current :: s.finishedOnCpu else s.finishedOnCpu }
  else s

/-- `tss.rsp[0] = thread_stack_end(prev)` in `place_thread`. -/
def setRsp0 (s : Threads) : Threads :=
  { s with rsp0 := s.threadStackEnd s.current, switches := s.switches + 1 }

/-- `place_thread`, on the stack of the thread that was switched to. -/
def placeThread (s : Threads) (next : Tid) : Res Threads := do
  let s := s.finishPrev.setRsp0
  let s ← (if s.self.state = .active then enqueue s s.current else .ok s)
  return ({ s with current := next } : Threads).modify next ({ · with time := s.jiffies })

/-- `thread_switch_to`: after `__thread_switch` the CPU is on the stack of `next`, and there it
calls `place_thread`. -/
def threadSwitchTo (s : Threads) (next : Tid) : Res Threads := do
  s.touch next
  placeThread { s with cpu := next } next

/-- The thread that `__schedule` finds, and the runqueue without it. -/
def pickNext (s : Threads) : Option Tid × List Tid :=
  match s.runqueue with
  | [] => (s.idleThread, [])
  | next :: rest => (some next, rest)

/-- The end of `__schedule`.  The `BUG_ON(!next)` inside the test of `next` cannot fire. -/
def switchIfNeeded (s : Threads) : Option Tid → Res Threads
  | none => .ok s
  | some next =>
    if s.current = next then .ok s
    else if some next ≠ s.idleThread ∨ s.self.state ≠ .active then threadSwitchTo s next
    else .ok s

/-- `__schedule`. -/
def schedulePick (s : Threads) (force : Bool) : Res Threads :=
  if !force ∧ s.self.state = .active ∧ s.jiffies - s.self.time < SLICE then .ok s
  else ({ s with runqueue := s.pickNext.2 } : Threads).switchIfNeeded s.pickNext.1

/-- `mutex_lock` returns to a thread that had to wait. -/
def lockReturned (s : Threads) (m : Mid) : Threads :=
  s.modifyMutex m (Mutex.lockReturned s.current)

/-- `condition_wait` returns: the ghost `spurious` checks how. -/
def waitReturned (s : Threads) (m : Mid) : Threads :=
  if s.self.signalled ∧ (s.mutexes m).owner = some s.current then s
  else { s with spurious := s.current :: s.spurious }

/-- The call of `schedule` or `force_schedule` that the current thread was in returns, and the
thread goes on. -/
def afterSchedule (s : Threads) : Threads :=
  match s.self.pc with
  | .lockSched m => (s.lockReturned m).modify s.current (Thread.goto .user)
  | .waitSched c m => s.modify s.current (Thread.goto (.waitRelock c m))
  | .waitLockSched _ m =>
    ((s.lockReturned m).waitReturned m).modify s.current (Thread.goto .user)
  | .joinSched t => s.modify s.current (Thread.goto (.joining t))
  | _ => s

/-- The current thread leaves the scheduler, the way it had entered it. -/
def leaveScheduler (s : Threads) : Threads :=
  match s.self.resume with
  -- `thread_entry`
  | .entry => ({ s with ints := true } : Threads).modify s.current (Thread.goto .user)
  | .call enable => ({ s with ints := enable } : Threads).afterSchedule
  -- `iretq` restores the flags
  | .tick => { s with ints := true }

/-- The ghost `lapses` checks which thread the scheduler returns to. -/
def noteLapse (s : Threads) : Threads :=
  if s.self.unactivated then { s with lapses := s.current :: s.lapses } else s

/-- How the current thread enters the scheduler. -/
def enterScheduler (s : Threads) (how : Resume) : Threads :=
  ({ s with ints := false } : Threads).modify s.current ({ · with resume := how })

/-- `__schedule` and what follows it. -/
def reschedule (s : Threads) (force : Bool) : Res Threads := do
  let s ← schedulePick s force
  return s.noteLapse.leaveScheduler

/-- `schedule`. -/
def schedule (s : Threads) (how : Resume) : Res Threads :=
  let s := s.enterScheduler how
  if s.preemptCnt ≠ 0 then .ok s.leaveScheduler else s.reschedule false

/-- `force_schedule`. -/
def forceSchedule (s : Threads) : Res Threads := do
  bugOn (s.preemptCnt ≠ 0) .forceSchedulePreempt
  (s.enterScheduler (.call s.ints)).reschedule true

/-- `pit_handler`: the interrupt gate has disabled interrupts. -/
def pitHandler (s : Threads) : Res Threads :=
  ({ s with jiffies := s.jiffies + 1 } : Threads).schedule .tick

/-! ## Mutexes -/

/-- The wait node of a thread that is in `mutex_lock(m)`. -/
def lockNode (s : Threads) (m : Mid) (t : Tid) : Res Unit :=
  if (s.threads t).pc.lockOf = some m then s.touch t else .error .fault

/-- `mutex_lock`, up to its call of `schedule`.  A thread that has to wait goes on at `sched`, one
that has taken the mutex at `.user`. -/
def mutexLock (s : Threads) (m : Mid) (sched : Pc) : Threads :=
  if (s.mutexes m).locked then
    (s.modify s.current (Thread.block sched)).modifyMutex m (Mutex.enqueue s.current)
  else
    (s.modify s.current (Thread.goto .user)).modifyMutex m (Mutex.take s.current)

/-- `mutex_unlock`. -/
def mutexUnlock (s : Threads) (m : Mid) : Res Threads :=
  match (s.mutexes m).waitqueue with
  | [] =>
    .ok (s.modifyMutex m (Mutex.release s.current))
  | next :: rest => do
    s.lockNode m next
    (s.modifyMutex m (Mutex.handOver s.current next rest)).threadActivate next

/-! ## Condition variables -/

/-- The wait node of a thread that is in `condition_wait(c)`. -/
def waitNode (s : Threads) (c : Cid) (t : Tid) : Res Unit :=
  if (s.threads t).pc.waitOf = some c then s.touch t else .error .fault

/-- `condition_wait`, up to its call of `schedule`. -/
def conditionWait (s : Threads) (c : Cid) (m : Mid) : Res Threads := do
  let s := s.modify s.current (Thread.beginWait (.waitSched c m))
  (s.setCond c (s.conds c ++ [s.current])).mutexUnlock m

/-- `thread_activate(node->thread)` for a wait node of the condition. -/
def conditionWake (s : Threads) (c : Cid) (node : Tid) : Res Threads := do
  s.waitNode c node
  (s.modify node ({ · with signalled := true })).threadActivate node

/-- `condition_signal`. -/
def conditionSignal (s : Threads) (c : Cid) : Res Threads :=
  match s.conds c with
  | [] => .ok s
  | node :: rest => (s.setCond c rest).conditionWake c node

/-- `condition_broadcast`, up to its loop. -/
def conditionBroadcast (s : Threads) (c : Cid) : Threads :=
  (s.modify s.current (Thread.beginBroadcast c (s.conds c)
    ((s.conds c).map fun t => (t, (s.threads t).waits)))).setCond c []

/-! ## Threads -/

/-- `thread_create`: the address of the block for the stack, if there was one, and whether there was
memory for the `struct thread`, which holds an arbitrary `time`. -/
def threadCreate (s : Threads) (stack : Option Nat) (thread : Bool) (time : UInt64) : Res Threads :=
  match stack with
  | none => .error (.bug .threadNoStack)
  | some stackAddr => do
    bugOn (thread = false) .threadNoMemory
    return { s with
      threads := Function.update s.threads s.fresh
        { s.threads s.fresh with
          state := .blocked, time := time, stackAddr := stackAddr, pc := .entry, resume := .entry,
          unactivated := false }
      allocated := Function.update s.allocated s.fresh true
      fresh := s.fresh + 1 }

/-- `thread_destroy`. -/
def threadDestroy (s : Threads) (t : Tid) : Res Threads := do
  s.touch t
  return { s with allocated := Function.update s.allocated t false }

/-- `idle`, up to the write of the state. -/
def idle (s : Threads) : Res Threads := do
  bugOn (s.idleThread ≠ none) .idleTwice
  return ({ s with idleThread := some s.current } : Threads).modify s.current
    (Thread.goto .idleMark)

/-! ## What happens next -/

/-- The next step of the call that the current thread is in. -/
def resumeCall (s : Threads) : Res Threads :=
  match s.self.pc with
  | .entry => .ok s
  | .user => .ok s
  | .lockSched _ => s.schedule (.call s.ints)
  | .waitSched _ _ => s.schedule (.call s.ints)
  | .waitRelock c m =>
    .ok (if (s.mutexes m).locked then s.mutexLock m (.waitLockSched c m)
      else (s.mutexLock m (.waitLockSched c m)).waitReturned m)
  | .waitLockSched _ _ => s.schedule (.call s.ints)
  | .bcast _ [] => .ok (s.modify s.current (Thread.goto .user))
  | .bcast c (node :: nodes) => do
    -- `ptr = ptr->next`
    s.waitNode c node
    return s.modify s.current (Thread.goto (.bcastWake c node nodes))
  | .bcastWake c node nodes => do
    let s ← s.conditionWake c node
    return s.modify s.current (Thread.nextNode c (node, (s.threads node).waits) nodes)
  | .exiting => s.forceSchedule
  | .joining t => do
    s.touch t
    return s.modify s.current
      (Thread.goto (if (s.threads t).state = .finished then .user else .joinSched t))
  | .joinSched _ => s.forceSchedule
  | .idleMark => .ok (s.modify s.current ({ · with state := .idle, pc := .idling }))
  | .idling => s.forceSchedule

/-- What can happen between two atomic steps. -/
inductive Event where
  /-- A timer interrupt. -/
  | tick
  /-- The current thread goes on in the call it is in. -/
  | resume
  /-- `enable_ints`, `disable_ints`. -/
  | setInts (on : Bool)
  /-- `disable_preempt`, or `spin_lock`. -/
  | disablePreempt
  /-- `enable_preempt`, or `spin_unlock`. -/
  | enablePreempt
  | lock (m : Mid)
  | unlock (m : Mid)
  | wait (c : Cid) (m : Mid)
  | signal (c : Cid)
  | broadcast (c : Cid)
  | schedule
  | forceSchedule
  | create (stack : Option Nat) (thread : Bool) (time : UInt64)
  | activate (t : Tid)
  | join (t : Tid)
  | destroy (t : Tid)
  | exit
  | idle

/-- The current thread is free to call what it likes. -/
def AtUser (s : Threads) : Prop := s.self.pc = .user

/-- It may call a function that gives up the CPU. -/
def MayBlock (s : Threads) : Prop := s.AtUser ∧ s.preemptCnt = 0

/-- The block at the address is not the stack of a thread, as `__page_alloc` promises. -/
def StackFree (s : Threads) (stackAddr : Nat) : Prop :=
  ∀ t, s.allocated t = true → s.threadStackEnd t ≠ stackAddr + threadStackSize

/-- **The scheduler as a component.**  A tick comes only with interrupts on.  A thread gives up the
CPU only with no spinlock held; `mutex_unlock` and `condition_wait` are called by a thread whose
`mutex_lock` has returned; `thread_activate` is called by the modelled functions and, from outside,
for a new thread or for one that is not blocked, but not for one that waits; `thread_destroy` is
called for another thread, which has finished and which nobody else is joining any more; `idle` is
called once. -/
def events : CallSystem Threads Event Stop where
  legal s
    | .tick => s.ints = true
    | .resume => ¬ s.AtUser
    | .setInts _ => s.AtUser
    | .disablePreempt => s.AtUser
    | .enablePreempt => s.AtUser ∧ s.preemptCnt ≠ 0
    | .lock _ => s.MayBlock
    | .unlock m => s.AtUser ∧ s.current ∈ (s.mutexes m).holders
    | .wait _ m => s.MayBlock ∧ s.current ∈ (s.mutexes m).holders
    | .signal _ => s.AtUser
    | .broadcast _ => s.AtUser
    | .schedule => s.AtUser
    | .forceSchedule => s.MayBlock
    | .create stack _ _ => s.AtUser ∧ ∀ a, stack = some a → s.StackFree a
    | .activate t => s.AtUser ∧ s.allocated t = true ∧
        ((s.threads t).state = .blocked → (s.threads t).pc = .entry)
    | .join t => s.MayBlock ∧ s.allocated t = true
    | .destroy t => s.AtUser ∧ s.allocated t = true ∧ t ≠ kthread ∧ t ≠ s.current ∧
        (s.threads t).state = .finished ∧
        ∀ u, (s.threads u).pc ≠ .joining t ∧ (s.threads u).pc ≠ .joinSched t
    | .exit => s.MayBlock
    | .idle => s.MayBlock ∧ s.idleThread = none
  exec s
    | .tick => s.pitHandler
    | .resume => s.resumeCall
    | .setInts on => .ok { s with ints := on }
    | .disablePreempt => .ok { s with preemptCnt := s.preemptCnt + 1 }
    | .enablePreempt => .ok { s with preemptCnt := s.preemptCnt - 1 }
    | .lock m => .ok (s.mutexLock m (.lockSched m))
    | .unlock m => s.mutexUnlock m
    | .wait c m => s.conditionWait c m
    | .signal c => s.conditionSignal c
    | .broadcast c => .ok (s.conditionBroadcast c)
    | .schedule => s.schedule (.call s.ints)
    | .forceSchedule => s.forceSchedule
    | .create stack thread time => s.threadCreate stack thread time
    | .activate t => s.threadActivate t
    | .join t => .ok (s.modify s.current (Thread.goto (.joining t)))
    | .destroy t => s.threadDestroy t
    | .exit => .ok (s.modify s.current ({ · with state := .finishing, pc := .exiting }))
    | .idle => s.idle

instance (s : Threads) : Decidable s.AtUser := inferInstanceAs (Decidable (s.self.pc = .user))

instance (s : Threads) : Decidable s.MayBlock :=
  inferInstanceAs (Decidable (s.AtUser ∧ s.preemptCnt = 0))

/-- A test of the contract, for some of the events. -/
def allows (s : Threads) : Event → Bool
  | .tick => s.ints
  | .resume => decide (¬ s.AtUser)
  | .lock _ => decide s.MayBlock
  | .unlock m => decide (s.AtUser ∧ s.current ∈ (s.mutexes m).holders)
  | .wait _ m => decide (s.MayBlock ∧ s.current ∈ (s.mutexes m).holders)
  | .signal _ => decide s.AtUser
  | .forceSchedule => decide s.MayBlock
  | .activate t => decide (s.AtUser ∧ s.allocated t = true ∧
      ((s.threads t).state = .blocked → (s.threads t).pc = .entry))
  | .exit => decide s.MayBlock
  | _ => false

theorem allows_legal (s : Threads) (e : Event) (h : s.allows e = true) : events.legal s e := by
  cases e <;> simp only [allows, decide_eq_true_eq, Bool.false_eq_true] at h <;> exact h

end Threads

end AuOs
