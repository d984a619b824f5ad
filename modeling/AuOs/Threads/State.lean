import Mathlib
import AuOs.Base

/-!
# Threads, mutexes and condition variables: the state

* `Thread` — a `struct thread` and where the thread stands in the functions of `threads.c`,
  `mutex.c` and `condition.c`.
* `Pc`, `Resume` — what is left to do of the call a thread is in, and how the thread left the CPU.
* `Mutex` — a `struct mutex`; a condition variable is its waitqueue.
* `Threads` — the static variables of `threads.c`, the interrupt flag and the clock.

A thread is named by a number that is never used again, so that an access to a destroyed thread is
seen as one.  The wait nodes on the stacks of waiting threads are represented by their threads; a
node whose thread has left the call it was made in is dead memory.  Components that the code does
not have are marked as ghosts: nothing the code does depends on them.
-/

set_option autoImplicit false

namespace AuOs

abbrev Tid := Nat

abbrev Mid := Nat

abbrev Cid := Nat

/-- `SLICE`, in ticks of the timer. -/
def SLICE : UInt64 := 10

/-- `enum thread_state`. -/
inductive ThreadState where
  | idle
  | active
  | blocked
  | finishing
  | finished
  deriving DecidableEq, Repr

/-- The states that a thread does not leave. -/
def ThreadState.Settled (st : ThreadState) : Prop := st = .idle ∨ st = .finished

/-- Where a thread stands between two atomic steps.  A step is a section of the code that runs with
interrupts off, or a single access to shared data. -/
inductive Pc where
  /-- Created; the first switch to it enters `thread_entry`. -/
  | entry
  /-- In the code that calls the functions modelled here. -/
  | user
  /-- In `mutex_lock`, before the call of `schedule`. -/
  | lockSched (m : Mid)
  /-- In `condition_wait`, before the call of `schedule`. -/
  | waitSched (c : Cid) (m : Mid)
  /-- In `condition_wait`, before the call of `mutex_lock`. -/
  | waitRelock (c : Cid) (m : Mid)
  /-- In the `mutex_lock` of `condition_wait`, before the call of `schedule`. -/
  | waitLockSched (c : Cid) (m : Mid)
  /-- In the loop of `condition_broadcast`; `nodes` is the list from `ptr` on. -/
  | bcast (c : Cid) (nodes : List Tid)
  /-- In the loop of `condition_broadcast`, before the call of `thread_activate`. -/
  | bcastWake (c : Cid) (node : Tid) (nodes : List Tid)
  /-- In the loop of `thread_exit`. -/
  | exiting
  /-- In `thread_join`, before the read of the state. -/
  | joining (t : Tid)
  /-- In `thread_join`, before the call of `force_schedule`. -/
  | joinSched (t : Tid)
  /-- In `idle`, before the write of the state. -/
  | idleMark
  /-- In the loop of `idle`. -/
  | idling
  deriving DecidableEq, Repr

/-- The mutex whose `mutex_lock` the thread is in, with its wait node linked or handed over. -/
def Pc.lockOf : Pc → Option Mid
  | .lockSched m => some m
  | .waitLockSched _ m => some m
  | _ => none

/-- The condition in whose `condition_wait` the thread is, with its wait node on its stack. -/
def Pc.waitOf : Pc → Option Cid
  | .waitSched c _ => some c
  | _ => none

/-- The condition that the thread is broadcasting. -/
def Pc.bcastOf : Pc → Option Cid
  | .bcast c _ => some c
  | .bcastWake c _ _ => some c
  | _ => none

/-- The nodes that a broadcast has detached and not yet woken. -/
def Pc.pending : Pc → List Tid
  | .bcast _ nodes => nodes
  | .bcastWake _ node nodes => node :: nodes
  | _ => []

/-- How a thread left the CPU: it was never on it; in a call of `schedule` or `force_schedule` that
found interrupts on or off; or in the handler of a timer tick. -/
inductive Resume where
  | entry
  | call (enable : Bool)
  | tick
  deriving DecidableEq, Repr

/-- `struct thread`. -/
structure Thread where
  state : ThreadState
  time : UInt64
  stackAddr : Nat
  pc : Pc
  resume : Resume
  /-- Ghost: it set its state to `THREAD_BLOCKED` and `thread_activate` was not called on it
  since. -/
  unactivated : Bool
  /-- Ghost: a signal or a broadcast has woken it from its last `condition_wait`. -/
  signalled : Bool
  /-- Ghost: how many times it has begun a `condition_wait`. -/
  waits : Nat
  /-- Ghost: the threads its last broadcast detached, each with the number of its wait. -/
  detached : List (Tid × Nat)
  /-- Ghost: the threads its last broadcast has woken, each with the number of its wait. -/
  woken : List (Tid × Nat)
  deriving DecidableEq, Repr

/-- What the model says of a thread that does not exist. -/
def Thread.none : Thread where
  state := .finished
  time := 0
  stackAddr := 0
  pc := .exiting
  resume := .tick
  unactivated := false
  signalled := false
  waits := 0
  detached := []
  woken := []

namespace Thread

/-- The thread goes on at another point of the code. -/
def goto (pc : Pc) (th : Thread) : Thread := { th with pc := pc }

/-- `self->state = THREAD_BLOCKED`, on the way to `schedule`. -/
def block (pc : Pc) (th : Thread) : Thread :=
  { th with state := .blocked, unactivated := true, pc := pc }

/-- `self->state = THREAD_BLOCKED` at the beginning of a `condition_wait`. -/
def beginWait (pc : Pc) (th : Thread) : Thread :=
  { th.block pc with signalled := false, waits := th.waits + 1 }

/-- `thread->state = THREAD_ACTIVE` in `thread_activate`. -/
def activate (th : Thread) : Thread := { th with state := .active, unactivated := false }

/-- `thread_activate(node->thread)` for the node of a blocked thread. -/
def wake (th : Thread) : Thread := { th with signalled := true }.activate

/-- `list_splice(&cond->waitqueue, &list)`; the ghost numbers the waits of the nodes. -/
def beginBroadcast (c : Cid) (nodes : List Tid) (numbered : List (Tid × Nat))
    (th : Thread) : Thread :=
  { th with pc := .bcast c nodes, detached := numbered, woken := [] }

/-- The loop of `condition_broadcast` has woken a node. -/
def nextNode (c : Cid) (node : Tid × Nat) (nodes : List Tid) (th : Thread) : Thread :=
  { th with pc := .bcast c nodes, woken := th.woken ++ [node] }

variable (pc : Pc) (th : Thread)

@[simp] theorem goto_pc : (th.goto pc).pc = pc := rfl

@[simp] theorem goto_state : (th.goto pc).state = th.state := rfl

@[simp] theorem goto_signalled : (th.goto pc).signalled = th.signalled := rfl

@[simp] theorem goto_unactivated : (th.goto pc).unactivated = th.unactivated := rfl

@[simp] theorem block_pc : (th.block pc).pc = pc := rfl

@[simp] theorem block_state : (th.block pc).state = .blocked := rfl

@[simp] theorem beginWait_pc : (th.beginWait pc).pc = pc := rfl

@[simp] theorem beginWait_state : (th.beginWait pc).state = .blocked := rfl

@[simp] theorem activate_pc : th.activate.pc = th.pc := rfl

@[simp] theorem activate_state : th.activate.state = .active := rfl

@[simp] theorem activate_signalled : th.activate.signalled = th.signalled := rfl

end Thread

/-- `struct mutex`. -/
structure Mutex where
  locked : Bool
  waitqueue : List Tid
  /-- Ghost: the thread that took the mutex or was handed it by the last `mutex_unlock`. -/
  owner : Option Tid
  /-- Ghost: the threads between the return of `mutex_lock` and their `mutex_unlock`. -/
  holders : List Tid
  /-- Ghost: the threads that had to wait, in the order they were queued. -/
  queuedLog : List Tid
  /-- Ghost: the threads that `mutex_unlock` has woken, in order. -/
  wokenLog : List Tid
  /-- Ghost: the threads that had to wait and whose `mutex_lock` has returned, in order. -/
  returnedLog : List Tid
  deriving DecidableEq, Repr

namespace Mutex

/-- `mutex_lock` of a free mutex. -/
@[simp] def take (t : Tid) (mtx : Mutex) : Mutex :=
  { mtx with locked := true, owner := some t, holders := mtx.holders ++ [t] }

/-- `list_add_tail(&node.ll, &mtx->waitqueue)`. -/
@[simp] def enqueue (t : Tid) (mtx : Mutex) : Mutex :=
  { mtx with waitqueue := mtx.waitqueue ++ [t], queuedLog := mtx.queuedLog ++ [t] }

/-- `mutex_lock` returns to a thread that had to wait. -/
@[simp] def lockReturned (t : Tid) (mtx : Mutex) : Mutex :=
  { mtx with holders := mtx.holders ++ [t], returnedLog := mtx.returnedLog ++ [t] }

/-- `mutex_unlock` when nobody waits. -/
@[simp] def release (t : Tid) (mtx : Mutex) : Mutex :=
  { mtx with locked := false, owner := none, holders := mtx.holders.erase t }

/-- `mutex_unlock` takes `next` from the head of the waitqueue. -/
@[simp] def handOver (t next : Tid) (rest : List Tid) (mtx : Mutex) : Mutex :=
  { mtx with
    waitqueue := rest, owner := some next, holders := mtx.holders.erase t,
    wokenLog := mtx.wokenLog ++ [next] }

end Mutex

/-- `mutex_setup`. -/
def mutexSetup : Mutex where
  locked := false
  waitqueue := []
  owner := .none
  holders := []
  queuedLog := []
  wokenLog := []
  returnedLog := []

/-- The state of the machine. -/
structure Threads where
  threads : Tid → Thread
  /-- The threads that are allocated. -/
  allocated : Tid → Bool
  /-- The name of the next thread. -/
  fresh : Tid
  current : Tid
  /-- The thread on whose stack the CPU is. -/
  cpu : Tid
  idleThread : Option Tid
  runqueue : List Tid
  preemptCnt : Nat
  /-- The interrupt flag of the CPU. -/
  ints : Bool
  jiffies : UInt64
  /-- `tss.rsp[0]`. -/
  rsp0 : Nat
  /-- The address of `bootstrap_stack_top`. -/
  bootstrapStackTop : Nat
  mutexes : Mid → Mutex
  /-- The waitqueues of the condition variables. -/
  conds : Cid → List Tid
  /-- Ghost: the threads that were `THREAD_BLOCKED`, not activated since, and to which `schedule`
  returned all the same. -/
  lapses : List Tid
  /-- Ghost: the threads whose `condition_wait` returned although no signal or broadcast had woken
  them, or although they did not own the mutex. -/
  spurious : List Tid
  /-- Ghost: the threads that became `THREAD_FINISHED` while the CPU was on their stack. -/
  finishedOnCpu : List Tid
  /-- Ghost: how many times the CPU has gone from one thread to another. -/
  switches : Nat

/-- The thread allocated by `threads_setup`. -/
def kthread : Tid := 0

namespace Threads

variable (s : Threads) (t u : Tid) (f : Thread → Thread)

/-- Writes to a `struct thread`. -/
def modify : Threads :=
  { s with threads := Function.update s.threads t (f (s.threads t)) }

/-- Writes to a `struct mutex`. -/
def modifyMutex (m : Mid) (g : Mutex → Mutex) : Threads :=
  { s with mutexes := Function.update s.mutexes m (g (s.mutexes m)) }

/-- Writes to the waitqueue of a condition. -/
def setCond (c : Cid) (queue : List Tid) : Threads :=
  { s with conds := Function.update s.conds c queue }

theorem threads_modify :
    (s.modify t f).threads u = if u = t then f (s.threads u) else s.threads u := by
  by_cases h : u = t
  · subst h; simp [modify]
  · simp [modify, h]

@[simp] theorem threads_modify_self : (s.modify t f).threads t = f (s.threads t) := by
  simp [modify]

@[simp] theorem threads_modify_ne (h : u ≠ t) : (s.modify t f).threads u = s.threads u := by
  simp [modify, h]

@[simp] theorem allocated_modify : (s.modify t f).allocated = s.allocated := rfl

@[simp] theorem fresh_modify : (s.modify t f).fresh = s.fresh := rfl

@[simp] theorem current_modify : (s.modify t f).current = s.current := rfl

@[simp] theorem cpu_modify : (s.modify t f).cpu = s.cpu := rfl

@[simp] theorem idleThread_modify : (s.modify t f).idleThread = s.idleThread := rfl

@[simp] theorem runqueue_modify : (s.modify t f).runqueue = s.runqueue := rfl

@[simp] theorem preemptCnt_modify : (s.modify t f).preemptCnt = s.preemptCnt := rfl

@[simp] theorem ints_modify : (s.modify t f).ints = s.ints := rfl

@[simp] theorem jiffies_modify : (s.modify t f).jiffies = s.jiffies := rfl

@[simp] theorem rsp0_modify : (s.modify t f).rsp0 = s.rsp0 := rfl

@[simp] theorem mutexes_modify : (s.modify t f).mutexes = s.mutexes := rfl

@[simp] theorem conds_modify : (s.modify t f).conds = s.conds := rfl

@[simp] theorem lapses_modify : (s.modify t f).lapses = s.lapses := rfl

@[simp] theorem spurious_modify : (s.modify t f).spurious = s.spurious := rfl

@[simp] theorem finishedOnCpu_modify : (s.modify t f).finishedOnCpu = s.finishedOnCpu := rfl

@[simp] theorem bootstrapStackTop_modify : (s.modify t f).bootstrapStackTop =
    s.bootstrapStackTop := rfl

@[simp] theorem switches_modify : (s.modify t f).switches = s.switches := rfl

variable (m m' : Mid) (g : Mutex → Mutex)

@[simp] theorem mutexes_modifyMutex_self : (s.modifyMutex m g).mutexes m = g (s.mutexes m) := by
  simp [modifyMutex]

@[simp] theorem mutexes_modifyMutex_ne (h : m' ≠ m) :
    (s.modifyMutex m g).mutexes m' = s.mutexes m' := by
  simp [modifyMutex, h]

@[simp] theorem threads_modifyMutex : (s.modifyMutex m g).threads = s.threads := rfl

@[simp] theorem allocated_modifyMutex : (s.modifyMutex m g).allocated = s.allocated := rfl

@[simp] theorem fresh_modifyMutex : (s.modifyMutex m g).fresh = s.fresh := rfl

@[simp] theorem current_modifyMutex : (s.modifyMutex m g).current = s.current := rfl

@[simp] theorem cpu_modifyMutex : (s.modifyMutex m g).cpu = s.cpu := rfl

@[simp] theorem idleThread_modifyMutex : (s.modifyMutex m g).idleThread = s.idleThread := rfl

@[simp] theorem runqueue_modifyMutex : (s.modifyMutex m g).runqueue = s.runqueue := rfl

@[simp] theorem preemptCnt_modifyMutex : (s.modifyMutex m g).preemptCnt = s.preemptCnt := rfl

@[simp] theorem ints_modifyMutex : (s.modifyMutex m g).ints = s.ints := rfl

@[simp] theorem jiffies_modifyMutex : (s.modifyMutex m g).jiffies = s.jiffies := rfl

@[simp] theorem rsp0_modifyMutex : (s.modifyMutex m g).rsp0 = s.rsp0 := rfl

@[simp] theorem conds_modifyMutex : (s.modifyMutex m g).conds = s.conds := rfl

@[simp] theorem lapses_modifyMutex : (s.modifyMutex m g).lapses = s.lapses := rfl

@[simp] theorem spurious_modifyMutex : (s.modifyMutex m g).spurious = s.spurious := rfl

@[simp] theorem finishedOnCpu_modifyMutex : (s.modifyMutex m g).finishedOnCpu =
    s.finishedOnCpu := rfl

@[simp] theorem bootstrapStackTop_modifyMutex : (s.modifyMutex m g).bootstrapStackTop =
    s.bootstrapStackTop := rfl

@[simp] theorem switches_modifyMutex : (s.modifyMutex m g).switches = s.switches := rfl

variable (c c' : Cid) (queue : List Tid)

@[simp] theorem conds_setCond_self : (s.setCond c queue).conds c = queue := by
  simp [setCond]

@[simp] theorem conds_setCond_ne (h : c' ≠ c) : (s.setCond c queue).conds c' = s.conds c' := by
  simp [setCond, h]

@[simp] theorem threads_setCond : (s.setCond c queue).threads = s.threads := rfl

@[simp] theorem allocated_setCond : (s.setCond c queue).allocated = s.allocated := rfl

@[simp] theorem fresh_setCond : (s.setCond c queue).fresh = s.fresh := rfl

@[simp] theorem current_setCond : (s.setCond c queue).current = s.current := rfl

@[simp] theorem cpu_setCond : (s.setCond c queue).cpu = s.cpu := rfl

@[simp] theorem idleThread_setCond : (s.setCond c queue).idleThread = s.idleThread := rfl

@[simp] theorem runqueue_setCond : (s.setCond c queue).runqueue = s.runqueue := rfl

@[simp] theorem preemptCnt_setCond : (s.setCond c queue).preemptCnt = s.preemptCnt := rfl

@[simp] theorem ints_setCond : (s.setCond c queue).ints = s.ints := rfl

@[simp] theorem jiffies_setCond : (s.setCond c queue).jiffies = s.jiffies := rfl

@[simp] theorem rsp0_setCond : (s.setCond c queue).rsp0 = s.rsp0 := rfl

@[simp] theorem mutexes_setCond : (s.setCond c queue).mutexes = s.mutexes := rfl

@[simp] theorem lapses_setCond : (s.setCond c queue).lapses = s.lapses := rfl

@[simp] theorem spurious_setCond : (s.setCond c queue).spurious = s.spurious := rfl

@[simp] theorem finishedOnCpu_setCond : (s.setCond c queue).finishedOnCpu = s.finishedOnCpu := rfl

@[simp] theorem bootstrapStackTop_setCond : (s.setCond c queue).bootstrapStackTop =
    s.bootstrapStackTop := rfl

@[simp] theorem switches_setCond : (s.setCond c queue).switches = s.switches := rfl

end Threads

end AuOs
