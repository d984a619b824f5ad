import Mathlib
import AuOs.Syscall.Entry

/-!
# `fork`

Reference model of `__thread_fork`, `__current_thread_regs`, `threads_regs_t` and
`thread_switch_frame` of `threads.c`, of the second half of `__thread_switch` of `switch.S` and of
`__thread_entry` of `entry.S`.

* `RegsField`, `regsFields` — the fields of `threads_regs_t`; `pushedAddr` is where the system call
  entry leaves them.
* `threadFork` — what `__thread_fork` writes to the child's stack.
* `childReturn` — the first run of the child, from the switch to it to its `iretq`.
* `ForkMeets` — the contract of `fork`.
* `frame_not_aligned` — the copied structure has two words that the system call entry does not push.
* `child_rflags` — **what the child would load**: the address of `__thread_entry` as flags.
* `fork_breaks_contract` — **the contract holds for no user state**.
-/

set_option autoImplicit false

namespace AuOs

namespace Syscall

open Traced WordStack

/-! ## Layouts -/

/-- The fields of `threads_regs_t`. -/
inductive RegsField where
  | reg (r : Reg)
  | intno | error | rip | cs | rflags | rsp | ss
  deriving DecidableEq, Repr

/-- `threads_regs_t`: the fields in order, a word each. -/
def regsFields : List RegsField :=
  [.reg .r15, .reg .r14, .reg .r13, .reg .r12, .reg .rbp, .reg .rbx, .reg .r11, .reg .r10, .reg .r9,
    .reg .r8, .reg .rax, .reg .rcx, .reg .rdx, .reg .rsi, .reg .rdi, .intno, .error, .rip, .cs,
    .rflags, .rsp, .ss]

/-- The words of `threads_regs_t`. -/
def THREADS_REGS_WORDS : Nat := 22

/-- The address of a field of the structure at `base`. -/
def fieldAddr (base : Word) (f : RegsField) : Word :=
  base + BitVec.ofNat 64 (8 * regsFields.idxOf f)

/-- `__current_thread_regs`. -/
def currentThreadRegs (stackEnd : Word) : Word :=
  stackEnd - BitVec.ofNat 64 (8 * THREADS_REGS_WORDS)

/-- The fields of `thread_switch_frame` before `regs`. -/
inductive SwitchField where
  | rflags | r15 | r14 | r13 | r12 | rbx | rbp | rip
  deriving DecidableEq, Repr

/-- `thread_switch_frame` up to `regs`. -/
def switchFields : List SwitchField := [.rflags, .r15, .r14, .r13, .r12, .rbx, .rbp, .rip]

/-- The address of a field of the frame at `base`. -/
def switchAddr (base : Word) (f : SwitchField) : Word :=
  base + BitVec.ofNat 64 (8 * switchFields.idxOf f)

/-- `stack_ptr` of a thread whose stack ends at `stackEnd`: below `regs` lie the other fields. -/
def switchFrame (stackEnd : Word) : Word :=
  currentThreadRegs stackEnd - BitVec.ofNat 64 (8 * switchFields.length)

/-- **Where the system call entry leaves** a register: the CPU pushes from `rsp0` downwards, and
then `SAVE_REGISTERS` does.  It leaves no `intno` and no `error`. -/
def pushedAddr (rsp0 : Word) : RegsField → Option Word
  | .ss => some (rsp0 - BitVec.ofNat 64 (8 * 1))
  | .rsp => some (rsp0 - BitVec.ofNat 64 (8 * 2))
  | .rflags => some (rsp0 - BitVec.ofNat 64 (8 * 3))
  | .cs => some (rsp0 - BitVec.ofNat 64 (8 * 4))
  | .rip => some (rsp0 - BitVec.ofNat 64 (8 * 5))
  | .reg r => some (rsp0 - BitVec.ofNat 64 (8 * (6 + saveRegisters.idxOf r)))
  | .intno => none
  | .error => none

/-! ## The functions -/

/-- `__thread_stack_size()`. -/
def THREAD_STACK_SIZE : Nat := 2 ^ (PAGE_SHIFT + 1)

/-- `memcpy` of whole words. -/
def copyWords (mem : Word → Word) (dst src : Word) : Nat → Word → Word
  | 0 => mem
  | n + 1 => copyWords (Function.update mem dst (mem src)) (dst + 8) (src + 8) n

/-- `memset((void *)thread->stack_addr, 0, __thread_stack_size())`. -/
def clearStack (mem : Word → Word) (stackEnd : Word) : Word → Word :=
  fun a => if 0 < (stackEnd - a).toNat ∧ (stackEnd - a).toNat ≤ THREAD_STACK_SIZE then 0 else mem a

/-- `__thread_fork`: the memory it leaves, for a parent and a child whose stacks end at `parentEnd`
and `childEnd`.  `thread` is the address of the child's `struct thread`, `entry` that of
`__thread_entry`. -/
def threadFork (entry thread parentEnd childEnd : Word) (mem : Word → Word) : Word → Word :=
  let frame := switchFrame childEnd
  let regs := currentThreadRegs childEnd
  let mem := clearStack mem childEnd
  let mem := Function.update mem (switchAddr frame .r12) thread
  let mem := Function.update mem (switchAddr frame .r13) 0
  let mem := Function.update mem (switchAddr frame .r14) 0
  let mem := Function.update mem (switchAddr frame .rbp) 0
  let mem := Function.update mem (switchAddr frame .rip) entry
  let mem := copyWords mem regs (currentThreadRegs parentEnd) THREADS_REGS_WORDS
  let mem := Function.update mem (fieldAddr regs .rip) entry
  Function.update mem (fieldAddr regs (.reg .rax)) 0

/-- `__thread_entry`.  `threadEntry` is what `call thread_entry` does. -/
def threadEntryPath (threadEntry : Machine Reg → Res (Machine Reg)) (returnAddr : Word)
    (m : Machine Reg) : Res User := do
  let regs := Function.update m.regs .rdi (m.regs .r12)
  let regs := Function.update regs .rsi (m.regs .r13)
  let regs := Function.update regs .rdx (m.regs .r14)
  let m ← threadEntry ({ m with regs := regs }.push returnAddr)
  return endSyscall m

/-- The first run of a thread: `__thread_switch` loads its stack pointer, pops the flags and the
registers of the callee and returns to `rip`, which is `__thread_entry`. -/
def childReturn (threadEntry : Machine Reg → Res (Machine Reg)) (entry returnAddr stackPtr : Word)
    (regs : Reg → Word) (mem : Word → Word) : Res User :=
  let m : Machine Reg := { regs := regs, rsp := stackPtr, mem := mem }
  let m := { m with rsp := m.rsp + 8 }
  let m := m.popRegs [.r15, .r14, .r13, .r12, .rbx, .rbp]
  let rip := m.mem m.rsp
  let m := { m with rsp := m.rsp + 8 }
  if rip = entry then threadEntryPath threadEntry returnAddr m else .error .fault

/-- `thread_entry(thread, fptr, arg)`: after `place_thread` it calls `fptr`, and then `thread_exit`,
which never returns.  There is no code at address 0.  `body` is what a call of a function does. -/
def threadEntry (placeThread : Machine Reg → Machine Reg)
    (body : Word → Machine Reg → Res (Machine Reg)) (m : Machine Reg) : Res (Machine Reg) := do
  let fptr := m.regs .rsi
  let m := placeThread m
  if fptr = 0 then .error .fault else
  let _ ← body fptr m
  .error .hang

/-! ## The contract -/

/-- A fork: the code around the path, the stacks and the memory.  `memAtFork` is the memory when
`__thread_fork` runs, `regsAtSwitch` what the CPU has in its registers when the child is switched
to. -/
structure ForkCall where
  kernel : Kernel
  entry : Word
  threadEntry : Machine Reg → Res (Machine Reg)
  thread : Word
  pid : BitVec 32
  parentEnd : Word
  childEnd : Word
  memAtEntry : Word → Word
  memAtFork : Word → Word
  regsAtSwitch : Reg → Word

/-- The memory after `__thread_fork`. -/
def ForkCall.forked (c : ForkCall) : Word → Word :=
  threadFork c.entry c.thread c.parentEnd c.childEnd c.memAtFork

/-- The first run of the child. -/
def ForkCall.child (c : ForkCall) : Res User :=
  childReturn c.threadEntry c.entry c.kernel.returnAddr (switchFrame c.childEnd)
    c.regsAtSwitch c.forked

/-- The kernel's text lies above `VIRTUAL_BASE`, and `thread_entry`, if it returns, leaves the words
above its return address alone. -/
structure ForkOk (c : ForkCall) : Prop where
  linked : 0xffffffff80000000 ≤ c.entry.toNat
  keeps : ∀ (m m' : Machine Reg) (l : List Word), l.length ≤ 20 →
    m.Top (c.kernel.returnAddr :: l) → c.threadEntry m = .ok m' → m'.Top l

/-- **The contract of `fork`**: the child returns to user mode with the registers of the parent and
0 in `rax`, the parent with the pid of the child; and the structure that is copied to the child has
each register in the place where the entry path pushed it. -/
structure ForkMeets (c : ForkCall) (u : User) : Prop where
  child : c.child = .ok { u with regs := Function.update u.regs .rax 0 }
  parent : ∃ v, (c.kernel.syscall (int80 c.parentEnd c.memAtEntry u)).result = .ok v ∧
    (v.regs .rax).setWidth 32 = c.pid
  aligned : ∀ f a, pushedAddr c.parentEnd f = some a →
    fieldAddr (currentThreadRegs c.parentEnd) f = a

/-! ## What is copied -/

variable {c : ForkCall} {u v : User}

/-- **The structure is not aligned with what was pushed**: `intno` and `error` come between. -/
theorem frame_not_aligned (stackEnd : Word) : ¬ ∀ f a, pushedAddr stackEnd f = some a →
    fieldAddr (currentThreadRegs stackEnd) f = a := by
  intro h
  have hrdi := h (.reg .rdi) _ rfl
  have hsub : ∀ j k : Word, stackEnd - BitVec.ofNat 64 (8 * 22) + j = stackEnd - k →
      k + j = BitVec.ofNat 64 (8 * 22) := by
    intro j k hjk
    bv_omega
  exact absurd (hsub _ _ hrdi) (by decide)

/-! ## What the child loads -/

/-- The registers that `end_syscall` loads from a `threads_regs_t`: a word is loaded as the register
whose place it has in the frame of a system call. -/
def loadedUser (mem : Word → Word) (regs : Word) : User where
  regs r := mem (regs + BitVec.ofNat 64 (8 * loadRegisters.idxOf r))
  rip := mem (fieldAddr regs .intno)
  cs := mem (fieldAddr regs .error)
  rflags := mem (fieldAddr regs .rip)
  rsp := mem (fieldAddr regs .cs)
  ss := mem (fieldAddr regs .rflags)

theorem loadedUser_top (mem : Word → Word) (regs : Word) :
    Holds mem regs (loadRegisters.map (loadedUser mem regs).regs ++ (loadedUser mem regs).frame) :=
  holds_read mem regs 20

/-- **The first run of a thread** ends with the words of its `threads_regs_t`, if at all. -/
theorem child_eq (hok : ForkOk c) (h : c.child = .ok v) :
    v = loadedUser c.forked (currentThreadRegs c.childEnd) := by
  have hrsp : switchFrame c.childEnd + 8 + BitVec.ofNat 64 (8 * 6) +
      8 = currentThreadRegs c.childEnd := by
    rw [BitVec.add_assoc, BitVec.add_assoc]
    exact BitVec.sub_add_cancel _ _
  have htop := loadedUser_top c.forked (currentThreadRegs c.childEnd)
  unfold ForkCall.child childReturn at h
  simp only at h
  split at h
  case isFalse => cases h
  case isTrue =>
    obtain ⟨m', hentry, hend⟩ := bind_eq_ok.mp h
    have htop' : m'.Top (loadRegisters.map (loadedUser c.forked
        (currentThreadRegs c.childEnd)).regs ++
        (loadedUser c.forked (currentThreadRegs c.childEnd)).frame) := by
      refine hok.keeps _ m' _ (by simp [loadRegisters, User.frame]) ?_ hentry
      apply Machine.Top.push
      · show Holds _ _ _
        simp only [Machine.popRegs_rsp, List.length_cons, List.length_nil]
        rw [hrsp]
        exact htop
      · simp [loadRegisters, User.frame]
    rw [endSyscall_eq _ _ htop'] at hend
    exact (Except.ok.inj hend).symm

theorem forked_rip : c.forked (fieldAddr (currentThreadRegs c.childEnd) .rip) = c.entry := by
  unfold ForkCall.forked threadFork
  rw [Function.update_of_ne, Function.update_self]
  intro h
  have hcancel := (BitVec.add_right_inj _).mp h
  exact absurd hcancel (by decide)

/-- **The child would load the address of `__thread_entry` as flags.** -/
theorem child_rflags (hok : ForkOk c) (h : c.child = .ok v) : v.rflags = c.entry := by
  rw [child_eq hok h]
  exact forked_rip

/-- **`fork` breaks its contract** for every state of user mode: the flags of a user have no bits
above the 21st, the address of `__thread_entry` has. -/
theorem fork_breaks_contract (c : ForkCall) (u : User) (hok : ForkOk c)
    (hflags : u.rflags.toNat < 2 ^ 22) : ¬ ForkMeets c u := by
  intro h
  have hentry := child_rflags hok h.child
  change u.rflags = c.entry at hentry
  have hlinked := hok.linked
  rw [← hentry] at hlinked
  omega

/-! ## `thread_entry` -/

/-- **`thread_entry` never returns**, and for the child of `fork` the function it should call is
null. -/
theorem threadEntry_stops (placeThread : Machine Reg → Machine Reg)
    (body : Word → Machine Reg → Res (Machine Reg)) (m m' : Machine Reg) :
    threadEntry placeThread body m ≠ .ok m' := by
  unfold threadEntry
  simp only
  split
  · nofun
  · cases body (m.regs .rsi) (placeThread m) <;> nofun

/-- A fork of a thread whose stack ends at `0x9000`; the child's stack ends at `0xd000`. -/
def someFork : ForkCall where
  kernel := constKernel 7
  entry := 0xffffffff80001000
  threadEntry := threadEntry id fun _ _ => .error .hang
  thread := 0x5000
  pid := 7
  parentEnd := 0x9000
  childEnd := 0xd000
  memAtEntry := constMem
  memAtFork := ((constKernel 7).atHandler (int80 0x9000 constMem (userOf 1))).mem
  regsAtSwitch := fun _ => 0

theorem someFork_ok : ForkOk someFork where
  linked := by decide
  keeps m m' _ _ _ h := absurd (show threadEntry id (fun _ _ => .error .hang) m = .ok m' from h)
    (threadEntry_stops _ _ _ _)

theorem fork_breaks_contract_once : ¬ ForkMeets someFork (userOf 1) :=
  fork_breaks_contract someFork (userOf 1) someFork_ok (by decide)

/-- **A fork that goes wrong in all three ways**: the child faults, the parent gets 1 back in place
of the pid 7, and the structure is not aligned. -/
theorem fork_fails : someFork.child = .error .fault ∧
    (∀ v, (someFork.kernel.syscall (int80 someFork.parentEnd someFork.memAtEntry
      (userOf 1))).result =
      .ok v → (v.regs .rax).setWidth 32 ≠ someFork.pid) ∧ ¬ ForkMeets someFork (userOf 1) := by
  refine ⟨by rfl, ?_, fun h => frame_not_aligned _ h.aligned⟩
  intro v hv
  have hrestores := @syscall_restores (constKernel 7) 0x9000 constMem (userOf 1)
    (constKernel_ok 7) (by decide)
  rw [show v = userOf 1 from (Except.ok.inj (hv.symm.trans hrestores))]
  decide

end Syscall

end AuOs
