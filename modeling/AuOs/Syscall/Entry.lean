import Mathlib
import AuOs.Base
import AuOs.Lib.Traced
import AuOs.Lib.WordStack

/-!
# The system call path

Reference model of `syscall` and `end_syscall` of `entry.S`, of the interrupt frame of the CPU and
of `iretq`.  The flags of kernel code (`cld`) are left out: `iretq` loads the flags of the user.

* `saveRegisters`, `loadRegisters` — the sequences of `SAVE_REGISTERS` and `LOAD_REGISTERS`.
* `Kernel.syscall` — the path from `int $0x80` to `iretq`.  It records the address that is called.
* `KernelOk` — where the table lies, and what a compiled handler does with the stack.
* `syscall_restores` — **every register of the user is restored**, `rax` included.
* `SyscallMeets`, `syscall_meets_iff` — what a system call should do, and **when it does it**.
* `syscall_unchecked` — a number behind the table, and a result that is lost.
-/

set_option autoImplicit false

namespace AuOs

namespace Syscall

open Traced WordStack

/-- The general registers, without the stack pointer. -/
inductive Reg where
  | rdi | rsi | rdx | rcx | rax | r8 | r9 | r10 | r11 | rbx | rbp | r12 | r13 | r14 | r15
  deriving DecidableEq, Repr

/-- The registers of user mode. -/
structure User where
  regs : Reg → Word
  rip : Word
  cs : Word
  rflags : Word
  rsp : Word
  ss : Word

/-- `SAVE_REGISTERS`. -/
def saveRegisters : List Reg :=
  [.rdi, .rsi, .rdx, .rcx, .rax, .r8, .r9, .r10, .r11, .rbx, .rbp, .r12, .r13, .r14, .r15]

/-- `LOAD_REGISTERS`. -/
def loadRegisters : List Reg :=
  [.r15, .r14, .r13, .r12, .rbp, .rbx, .r11, .r10, .r9, .r8, .rax, .rcx, .rdx, .rsi, .rdi]

/-- `int $0x80` in user mode: the CPU takes the stack of the TSS and pushes the frame of `iretq`. -/
def int80 (rsp0 : Word) (mem : Word → Word) (u : User) : Machine Reg :=
  ({ regs := u.regs, rsp := rsp0, mem := mem } : Machine Reg).pushAll
    [u.ss, u.rsp, u.rflags, u.cs, u.rip]

/-- `iretq`. -/
def iretq (m : Machine Reg) : User where
  regs := m.regs
  rip := m.mem m.rsp
  cs := m.mem (m.rsp + 8)
  rflags := m.mem (m.rsp + 8 + 8)
  rsp := m.mem (m.rsp + 8 + 8 + 8)
  ss := m.mem (m.rsp + 8 + 8 + 8 + 8)

/-- `end_syscall`. -/
def endSyscall (m : Machine Reg) : User := iretq (m.popRegs loadRegisters)

/-- `NSYSCALLS`. -/
def NSYSCALLS : Nat := 2

/-- The code outside the path: where `syscall_table` and its handlers lie, the return address of
`call *%rbx`, and what a function does from its first instruction to its return. -/
structure Kernel where
  syscallTable : Word
  write : Word
  fork : Word
  returnAddr : Word
  run : Word → Machine Reg → Machine Reg

namespace Kernel

/-- The elements of `syscall_table`. -/
def handlers (k : Kernel) : List Word := [k.write, k.fork]

/-- `movq syscall_table(, %rax, 8), %rbx`. -/
def target (k : Kernel) (m : Machine Reg) : Word := m.mem (k.syscallTable + 8 * m.regs .rax)

/-- The machine at the first instruction of the handler. -/
def atHandler (k : Kernel) (m : Machine Reg) : Machine Reg :=
  let m := m.pushRegs saveRegisters
  { m with regs := Function.update m.regs .rbx (k.target m) }.push k.returnAddr

/-- The machine when the handler returns. -/
def called (k : Kernel) (m : Machine Reg) : Machine Reg :=
  k.run (k.target (m.pushRegs saveRegisters)) (k.atHandler m)

/-- `syscall`. -/
def syscall (k : Kernel) (m : Machine Reg) : Traced Word Stop User := do
  mark (k.target (m.pushRegs saveRegisters))
  pure (endSyscall (k.called m))

/-- The `int` that the handler returns. -/
def handlerResult (k : Kernel) (m : Machine Reg) : BitVec 32 := ((k.called m).regs .rax).setWidth 32

end Kernel

/-- **The kernel is laid out and compiled properly**, for an entry on the stack that ends at
`rsp0`. -/
structure KernelOk (k : Kernel) (rsp0 : Word) (mem : Word → Word) : Prop where
  /-- `syscall_table` is initialised. -/
  table : Holds mem k.syscallTable k.handlers
  /-- The table does not lie in the part of the stack that the entry path fills. -/
  apart : ∀ i < NSYSCALLS, ∀ j ≤ 20,
    k.syscallTable + BitVec.ofNat 64 (8 * i) ≠ rsp0 - BitVec.ofNat 64 (8 * j)
  /-- A handler returns to its caller and leaves the words above its return address alone. -/
  keeps : ∀ h ∈ k.handlers, ∀ (m : Machine Reg) (l : List Word), l.length ≤ 20 →
    m.Top (k.returnAddr :: l) → (k.run h m).Top l

/-! ## The path -/

variable {k : Kernel} {rsp0 : Word} {mem : Word → Word} {u : User} {m : Machine Reg}

theorem mem_loadRegisters (r : Reg) : r ∈ loadRegisters := by
  cases r <;> decide

/-- The words of the interrupt frame. -/
def User.frame (u : User) : List Word := [u.rip, u.cs, u.rflags, u.rsp, u.ss]

/-- **`LOAD_REGISTERS` and `iretq`** load what lies on the stack. -/
theorem endSyscall_eq (f : Reg → Word) (v : User) (h : m.Top (loadRegisters.map f ++ v.frame)) :
    endSyscall m = { v with regs := f } := by
  obtain ⟨⟨hrip, hcs, hflags, hrsp, hss, -⟩, -, hregs⟩ :=
    Machine.Top.popRegs loadRegisters (by decide) f h
  have hf : (m.popRegs loadRegisters).regs = f := by
    funext r
    rw [hregs r, if_pos (mem_loadRegisters r)]
  unfold endSyscall iretq
  rw [hrip, hcs, hflags, hrsp, hss, hf]

/-- The words pushed by the CPU and by `SAVE_REGISTERS`. -/
theorem saved_eq : (int80 rsp0 mem u).pushRegs saveRegisters =
    ({ regs := u.regs, rsp := rsp0, mem := mem } : Machine Reg).pushAll
      ([u.ss, u.rsp, u.rflags, u.cs, u.rip] ++ saveRegisters.map u.regs) := by
  rw [Machine.pushRegs_eq, Machine.pushAll_append, int80, Machine.pushAll_regs]

/-- What lies on the stack when the handler is called. -/
theorem saved_top : ((int80 rsp0 mem u).pushRegs saveRegisters).Top
    (loadRegisters.map u.regs ++ u.frame) := by
  have h : ({ regs := u.regs, rsp := rsp0, mem := mem } : Machine Reg).Top [] := trivial
  rw [saved_eq]
  exact h.pushAll _ (by simp [saveRegisters])

theorem saved_regs : ((int80 rsp0 mem u).pushRegs saveRegisters).regs = u.regs := by
  rw [saved_eq, Machine.pushAll_regs]

/-- **The table is read** with a number below `NSYSCALLS`. -/
theorem KernelOk.target_mem (h : KernelOk k rsp0 mem) (hrax : (u.regs .rax).toNat < NSYSCALLS) :
    k.target ((int80 rsp0 mem u).pushRegs saveRegisters) ∈ k.handlers := by
  have hsaved : ∀ i < NSYSCALLS,
      ((int80 rsp0 mem u).pushRegs saveRegisters).mem (k.syscallTable + BitVec.ofNat 64 (8 * i)) =
        mem (k.syscallTable + BitVec.ofNat 64 (8 * i)) := by
    intro i hi
    rw [saved_eq]
    apply Machine.pushAll_mem
    intro j _ hj
    exact h.apart i hi j hj
  have hidx : 8 * u.regs .rax = BitVec.ofNat 64 (8 * (u.regs .rax).toNat) := by
    rw [BitVec.ofNat_mul, BitVec.ofNat_toNat, BitVec.setWidth_eq]
    rfl
  unfold Kernel.target
  rw [saved_regs, hidx, hsaved _ hrax]
  obtain ⟨hwrite, hfork, -⟩ := h.table
  generalize (u.regs .rax).toNat = i at hrax
  obtain rfl | rfl : i = 0 ∨ i = 1 := by unfold NSYSCALLS at hrax; omega
  · rw [Nat.mul_zero, BitVec.add_zero, hwrite]
    exact List.mem_cons_self
  · rw [show BitVec.ofNat 64 (8 * 1) = (8 : Word) from rfl, hfork]
    exact List.mem_cons_of_mem _ List.mem_cons_self

/-- What the handler finds on the stack. -/
theorem atHandler_top : (k.atHandler (int80 rsp0 mem u)).Top
    (k.returnAddr :: (loadRegisters.map u.regs ++ u.frame)) := by
  unfold Kernel.atHandler
  apply Machine.Top.push
  · exact saved_top.setRegs _
  · simp [loadRegisters, User.frame]

/-- **Every register is restored**, once a handler returned: `rax` too. -/
theorem syscall_restores (h : KernelOk k rsp0 mem) (hrax : (u.regs .rax).toNat < NSYSCALLS) :
    (k.syscall (int80 rsp0 mem u)).result = .ok u := by
  have htop : (k.called (int80 rsp0 mem u)).Top (loadRegisters.map u.regs ++ u.frame) :=
    h.keeps _ (h.target_mem hrax) _ _ (by simp [loadRegisters, User.frame]) atHandler_top
  rw [Kernel.syscall, result_mark_bind, result_pure, endSyscall_eq u.regs u htop]

/-! ## What a system call should do -/

/-- **What a system call should do**: call handlers of the table only, and nothing for a number that
the table does not have; restore every register except `rax`, and leave the result of the handler
there. -/
structure SyscallMeets (k : Kernel) (rsp0 : Word) (mem : Word → Word) (u : User) : Prop where
  rejects : NSYSCALLS ≤ (u.regs .rax).toNat → (k.syscall (int80 rsp0 mem u)).trace = []
  calls : ∀ a ∈ (k.syscall (int80 rsp0 mem u)).trace, a ∈ k.handlers
  restores : ∃ v, (k.syscall (int80 rsp0 mem u)).result = .ok v ∧
    (∀ r, r ≠ .rax → v.regs r = u.regs r) ∧ v.frame = u.frame
  returns : ∀ v, (k.syscall (int80 rsp0 mem u)).result = .ok v →
    (k.syscall (int80 rsp0 mem u)).trace ≠ [] →
    (v.regs .rax).setWidth 32 = k.handlerResult (int80 rsp0 mem u)

/-- **When a system call does what it should**: `rax` has the number of a handler, and the handler
happens to return that number. -/
theorem syscall_meets_iff (k : Kernel) (rsp0 : Word) (mem : Word → Word) (u : User)
    (h : KernelOk k rsp0 mem) : SyscallMeets k rsp0 mem u ↔
      (u.regs .rax).toNat < NSYSCALLS ∧
        k.handlerResult (int80 rsp0 mem u) = (u.regs .rax).setWidth 32 := by
  have htrace : (k.syscall (int80 rsp0 mem u)).trace =
      [k.target ((int80 rsp0 mem u).pushRegs saveRegisters)] := rfl
  constructor
  · intro hmeets
    have hrax : (u.regs .rax).toNat < NSYSCALLS := by
      by_contra hge
      have hempty := hmeets.rejects (Nat.not_lt.mp hge)
      rw [htrace] at hempty
      cases hempty
    refine ⟨hrax, ?_⟩
    have hreturns := hmeets.returns u (syscall_restores h hrax)
      (by rw [htrace]; exact List.cons_ne_nil _ _)
    exact hreturns.symm
  · rintro ⟨hrax, hresult⟩
    have hrestores := syscall_restores h hrax
    refine ⟨fun hge => absurd hrax (Nat.not_lt.mpr hge), ?_,
      ⟨u, hrestores, fun _ _ => rfl, rfl⟩, ?_⟩
    · intro a ha
      rw [htrace, List.mem_singleton] at ha
      rw [ha]
      exact h.target_mem hrax
    · intro v hv _
      rw [hrestores] at hv
      rw [← Except.ok.inj hv, hresult]

/-- A kernel whose handlers return `n`, and its memory. -/
def constKernel (n : Word) : Kernel where
  syscallTable := 0x1000
  write := 0x2000
  fork := 0x3000
  returnAddr := 0x4000
  run _ m := { m with regs := Function.update m.regs .rax n, rsp := m.rsp + 8 }

def constMem : Word → Word := fun a =>
  if a = 0x1000 then 0x2000 else if a = 0x1008 then 0x3000 else 0

theorem constKernel_ok (n : Word) : KernelOk (constKernel n) 0x9000 constMem where
  table := ⟨rfl, rfl, trivial⟩
  apart := by
    show ∀ i < NSYSCALLS, ∀ j ≤ 20,
      (0x1000 : Word) + BitVec.ofNat 64 (8 * i) ≠ 0x9000 - BitVec.ofNat 64 (8 * j)
    decide
  keeps _ _ _ _ _ htop := htop.2

/-- A user that asks for system call `n`. -/
def userOf (n : Word) : User where
  regs r := if r = .rax then n else 0
  rip := 0
  cs := 0x1b
  rflags := 0x202
  rsp := 0
  ss := 0x23

/-- `write` returns its own number. -/
theorem syscall_meets_write : SyscallMeets (constKernel 0) 0x9000 constMem (userOf 0) :=
  (syscall_meets_iff (constKernel 0) 0x9000 constMem (userOf 0) (constKernel_ok 0)).mpr
    ⟨by decide, by decide⟩

/-- **The number is not checked**: system call 2 calls what the word behind the table points to.
And **the result is lost**: `fork` returns 7, the user gets the number 1 back. -/
theorem syscall_unchecked :
    ¬ SyscallMeets (constKernel 7) 0x9000 constMem (userOf 2) ∧
      ¬ SyscallMeets (constKernel 7) 0x9000 constMem (userOf 1) := by
  constructor
  · intro h
    exact absurd (h.rejects (by decide)) (List.cons_ne_nil _ _)
  · intro h
    have hlost := h.returns (userOf 1) (syscall_restores (constKernel_ok 7) (by decide))
      (List.cons_ne_nil _ _)
    exact absurd hlost (by decide)

end Syscall

end AuOs
