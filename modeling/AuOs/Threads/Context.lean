import Mathlib
import AuOs.Syscall.Fork
import AuOs.Threads.State

/-!
# The context switch

Reference model of `__thread_switch` of `switch.S` and of the frame that `thread_create` builds, and
every run of threads that switch to each other, create threads and destroy them.

* `threadSwitch` — `call __thread_switch`, from the `call` to the `ret`.
* `threadCreate` — what `thread_alloc` and `thread_create` write.
* `step`, `Legal` — the runs: between two switches a thread runs any code, on its own stack.
* `Own` — what the switch is for: each thread has registers of its own, and a switch changes nothing
  but which of them are used.
* `Suspended` — how a thread lies on its stack while it does not run.
* `switch_refine` — **in every run** each thread finds the registers that it would have on a CPU of
  its own.
* `thread_starts` — **a new thread** enters `thread_entry` with its arguments, whatever ran before.
-/

set_option autoImplicit false

namespace AuOs

namespace Context

open WordStack Syscall

/-! ## The machine -/

/-- The registers that a switch is about, besides the stack pointer. -/
inductive CpuReg where
  | gp (r : Reg)
  | rflags
  | rip
  deriving DecidableEq, Repr

abbrev Cpu := Machine CpuReg

/-- What `popfq` in the kernel makes of a word: the flags that are reserved have fixed values, and
the flags for virtual 8086 mode and `RF` are cleared. -/
def loadFlags (w : Word) : Word := (w &&& 0x247fd5) ||| 2

/-- `popfq`. -/
def popfq (m : Cpu) : Cpu :=
  { m with regs := Function.update m.regs .rflags (loadFlags (m.mem m.rsp)), rsp := m.rsp + 8 }

/-- What `__thread_switch` pushes. -/
def switchPushes : List CpuReg :=
  [.gp .rbp, .gp .rbx, .gp .r12, .gp .r13, .gp .r14, .gp .r15, .rflags]

/-- What `__thread_switch` pops after `popfq`; `ret` pops the last. -/
def switchPops : List CpuReg := [.gp .r15, .gp .r14, .gp .r13, .gp .r12, .gp .rbx, .gp .rbp, .rip]

/-- `__thread_switch`, with `call` and `ret`. -/
def threadSwitch (returnAddr : Word) (m : Cpu) : Cpu :=
  let m := (m.push returnAddr).pushRegs switchPushes
  let m := { m with mem := Function.update m.mem (m.regs (.gp .rdi)) m.rsp }
  let m := { m with rsp := m.regs (.gp .rsi) }
  (popfq m).popRegs switchPops

/-! ## Threads -/

def KERNEL_CS : Word := 0x08

def KERNEL_DS : Word := 0x10

/-- Where things lie: the `struct thread` and the end of the stack of every thread, and the
functions whose addresses `thread_create` writes. -/
structure Layout where
  thread : Tid → Word
  stackEnd : Tid → Word
  threadEntry : Word
  threadExit : Word

/-- The size of a stack, in words: that of `kthread` is a page. -/
def stackWords (t : Tid) : Nat := if t = kthread then PAGE_SIZE / 8 else THREAD_STACK_SIZE / 8

namespace Layout

variable (L : Layout)

/-- `&thread->stack_ptr`. -/
def stackPtr (t : Tid) : Word := L.thread t + 56

/-- The stack of a thread. -/
def OnStack (t : Tid) (a : Word) : Prop :=
  0 < (L.stackEnd t - a).toNat ∧ (L.stackEnd t - a).toNat ≤ 8 * stackWords t

/-- The memory that belongs to a thread that does not run. -/
def Owns (t : Tid) (a : Word) : Prop := L.OnStack t a ∨ a = L.stackPtr t

/-- Threads that do not share memory, and do not keep their `struct thread` on a stack. -/
structure Fits (live : Tid → Bool) : Prop where
  apart : ∀ t u a, live t = true → live u = true → t ≠ u → L.Owns t a → ¬ L.Owns u a
  own : ∀ t, live t = true → ¬ L.OnStack t (L.stackPtr t)

/-- `thread_create(fptr, arg)`: `thread_alloc` sets `stack_ptr` and clears the stack, and then the
frame is written. -/
def threadCreate (t : Tid) (fptr arg : Word) (mem : Word → Word) : Word → Word :=
  let stackEnd := L.stackEnd t
  let frame := switchFrame stackEnd
  let regs := currentThreadRegs stackEnd
  let mem := Function.update mem (L.stackPtr t) frame
  let mem := clearStack mem stackEnd
  let mem := Function.update mem (switchAddr frame .r12) (L.thread t)
  let mem := Function.update mem (switchAddr frame .r13) fptr
  let mem := Function.update mem (switchAddr frame .r14) arg
  let mem := Function.update mem (switchAddr frame .rbp) 0
  let mem := Function.update mem (switchAddr frame .rflags) (1#64 <<< 2)
  let mem := Function.update mem (switchAddr frame .rip) L.threadEntry
  let mem := Function.update mem (fieldAddr regs .ss) KERNEL_DS
  let mem := Function.update mem (fieldAddr regs .cs) KERNEL_CS
  let mem := Function.update mem (fieldAddr regs .rsp) stackEnd
  Function.update mem (fieldAddr regs .rip) L.threadExit

end Layout

/-! ## Runs -/

/-- The threads that exist, the one that runs, and the CPU. -/
structure State where
  cpu : Cpu
  current : Tid
  live : Tid → Bool

inductive Call where
  | work (cpu : Cpu)
  | switch (next : Tid) (returnAddr : Word)
  | create (t : Tid) (fptr arg : Word)
  | destroy (t : Tid)

/-- The effect of a call. -/
def step (L : Layout) (s : State) : Call → State
  | .work cpu => { s with cpu := cpu }
  | .switch next returnAddr => { s with cpu := threadSwitch returnAddr s.cpu, current := next }
  | .create t fptr arg =>
    { s with
      cpu := { s.cpu with mem := L.threadCreate t fptr arg s.cpu.mem }
      live := Function.update s.live t true }
  | .destroy t => { s with live := Function.update s.live t false }

/-- The thread that runs leaves the stacks and the saved stack pointers of the others alone.
`thread_switch_to` is called with room for eight words on the stack, and passes the address of its
own `stack_ptr` and the `stack_ptr` of the next thread.  A new thread gets memory that no other one
has. -/
def Legal (L : Layout) (s : State) : Call → Prop
  | .work cpu => loadFlags (cpu.regs .rflags) = cpu.regs .rflags ∧
      ∀ t a, s.live t = true → t ≠ s.current → L.Owns t a → cpu.mem a = s.cpu.mem a
  | .switch next _ => s.live next = true ∧ next ≠ s.current ∧
      s.cpu.regs (.gp .rdi) = L.stackPtr s.current ∧
        s.cpu.regs (.gp .rsi) = s.cpu.mem (L.stackPtr next) ∧
      ∃ k, k + 8 ≤ stackWords s.current ∧ s.cpu.rsp = L.stackEnd s.current - BitVec.ofNat 64 (8 * k)
  | .create t _ _ => s.live t = false ∧ t ≠ kthread ∧ L.Fits (Function.update s.live t true)
  | .destroy t => t ≠ s.current

/-- Every call of a list is legal when its turn comes. -/
def Lawful (L : Layout) : State → List Call → Prop
  | _, [] => True
  | s, c :: cs => Legal L s c ∧ Lawful L (step L s c) cs

/-- The kernel before it creates a thread: only `kthread` exists. -/
def start (cpu : Cpu) : State := ⟨cpu, kthread, fun t => decide (t = kthread)⟩

/-! ## What the switch is for -/

/-- What a caller may rely on after a call: the fields of `thread_switch_frame`, and the stack
pointer. -/
@[ext]
structure Saved where
  field : SwitchField → Word
  rsp : Word

/-- A field as a register. -/
def fieldReg : SwitchField → CpuReg
  | .rflags => .rflags
  | .r15 => .gp .r15
  | .r14 => .gp .r14
  | .r13 => .gp .r13
  | .r12 => .gp .r12
  | .rbx => .gp .rbx
  | .rbp => .gp .rbp
  | .rip => .rip

/-- What the CPU holds. -/
def saved (m : Cpu) : Saved := ⟨fun f => m.regs (fieldReg f), m.rsp⟩

/-- Each thread with registers of its own. -/
structure Own where
  current : Tid
  saved : Tid → Option Saved

/-- The frame that a new thread starts with. -/
def newSaved (L : Layout) (t : Tid) (fptr arg : Word) : Saved where
  field
    | .r12 => L.thread t
    | .r13 => fptr
    | .r14 => arg
    | .rflags => loadFlags (1#64 <<< 2)
    | .rip => L.threadEntry
    | _ => 0
  rsp := currentThreadRegs (L.stackEnd t)

/-- `ret` jumps to the return address. -/
def Saved.returnTo (returnAddr : Word) (v : Saved) : Saved :=
  { v with field := Function.update v.field .rip returnAddr }

/-- The effect of a call on registers that each thread has for itself. -/
def Own.step (L : Layout) (o : Own) : Call → Own
  | .work cpu => { o with saved := Function.update o.saved o.current (some (Context.saved cpu)) }
  | .switch next returnAddr =>
    ⟨next, Function.update o.saved o.current ((o.saved o.current).map (Saved.returnTo returnAddr))⟩
  | .create t fptr arg =>
    { o with saved := Function.update o.saved t (some (newSaved L t fptr arg)) }
  | .destroy t => { o with saved := Function.update o.saved t none }

/-- `kthread` at its start. -/
def Own.start (cpu : Cpu) : Own :=
  ⟨kthread, fun t => if t = kthread then some (Context.saved cpu) else none⟩

/-! ## A thread that does not run -/

/-- The thread lies on its stack: `stack_ptr` is the address of its frame. -/
structure Suspended (L : Layout) (mem : Word → Word) (t : Tid) (v : Saved) : Prop where
  ptr : ∃ k, 8 ≤ k ∧ k ≤ stackWords t ∧ mem (L.stackPtr t) = L.stackEnd t - BitVec.ofNat 64 (8 * k)
  flags : loadFlags (mem (mem (L.stackPtr t))) = v.field .rflags
  frame : Holds mem (mem (L.stackPtr t) + 8) (switchFields.tail.map v.field)
  rsp : v.rsp = mem (L.stackPtr t) + 64

variable {L : Layout} {m : Cpu} {mem mem' : Word → Word} {t u : Tid} {v : Saved} {k : Nat}
  {returnAddr : Word}

theorem stackWords_le (t : Tid) : stackWords t ≤ 1024 := by
  unfold stackWords
  split <;> decide

/-- The words below the end of the stack. -/
theorem onStack_sub {j : Nat} (hj : 0 < j) (hle : j ≤ stackWords t) :
    L.OnStack t (L.stackEnd t - BitVec.ofNat 64 (8 * j)) := by
  have hwords := stackWords_le t
  have hnat : (L.stackEnd t - (L.stackEnd t - BitVec.ofNat 64 (8 * j))).toNat = 8 * j := by
    rw [sub_sub_cancel, BitVec.toNat_ofNat, Nat.mod_eq_of_lt (by omega)]
  unfold Layout.OnStack
  rw [hnat]
  omega

/-- The words of a frame. -/
theorem onStack_frame {i : Nat} (hk : k ≤ stackWords t) (hi : i < k) :
    L.OnStack t (L.stackEnd t - BitVec.ofNat 64 (8 * k) + BitVec.ofNat 64 (8 * i)) := by
  have heq : L.stackEnd t - BitVec.ofNat 64 (8 * k) + BitVec.ofNat 64 (8 * i) =
      L.stackEnd t - BitVec.ofNat 64 (8 * (k - i)) := by
    rw [show 8 * k = 8 * (k - i) + 8 * i by omega, BitVec.ofNat_add, ← BitVec.sub_sub,
      BitVec.sub_add_cancel]
  rw [heq]
  exact onStack_sub (by omega) (by omega)

/-- A thread stays suspended while its memory is left alone. -/
theorem Suspended.congr (h : Suspended L mem t v) (heq : ∀ a, L.Owns t a → mem' a = mem a) :
    Suspended L mem' t v := by
  obtain ⟨k, h8, hk, hptr⟩ := h.ptr
  have hptr' : mem' (L.stackPtr t) = mem (L.stackPtr t) := heq _ (.inr rfl)
  have hword : ∀ i < 8, mem' (mem (L.stackPtr t) + BitVec.ofNat 64 (8 * i)) =
      mem (mem (L.stackPtr t) + BitVec.ofNat 64 (8 * i)) := by
    intro i hi
    rw [hptr]
    exact heq _ (.inl (onStack_frame hk (by omega)))
  refine ⟨⟨k, h8, hk, hptr'.trans hptr⟩, ?_, ?_, by rw [hptr']; exact h.rsp⟩
  · have h0 := hword 0 (by decide)
    rw [Nat.mul_zero, BitVec.add_zero] at h0
    rw [hptr', h0]
    exact h.flags
  · rw [hptr']
    refine h.frame.congr fun i hi => ?_
    rw [addr_succ]
    exact hword (i + 1) (Nat.succ_lt_succ hi)

/-- The field that a register is. -/
def regField : CpuReg → SwitchField
  | .gp .r15 => .r15
  | .gp .r14 => .r14
  | .gp .r13 => .r13
  | .gp .r12 => .r12
  | .gp .rbx => .rbx
  | .gp .rbp => .rbp
  | .rip => .rip
  | _ => .rflags

/-- **What the second half of `__thread_switch` loads.** -/
theorem saved_resume (h : Suspended L m.mem t v) (hrsp : m.rsp = m.mem (L.stackPtr t)) :
    saved ((popfq m).popRegs switchPops) = v ∧ ((popfq m).popRegs switchPops).mem = m.mem := by
  have htop : (popfq m).Top (switchPops.map (fun r => v.field (regField r)) ++ []) := by
    have hframe := h.frame
    rw [← hrsp] at hframe
    rw [List.append_nil]
    exact hframe
  obtain ⟨-, hmem, hregs⟩ := Machine.Top.popRegs switchPops (by decide) _ htop
  refine ⟨?_, hmem⟩
  have hflags := h.flags
  rw [← hrsp] at hflags
  apply Saved.ext
  · funext f
    show ((popfq m).popRegs switchPops).regs (fieldReg f) = v.field f
    rw [hregs]
    cases f
    case rflags =>
      rw [if_neg (by decide), ← hflags]
      show Function.update m.regs .rflags (loadFlags (m.mem m.rsp)) .rflags = _
      exact Function.update_self ..
    all_goals exact if_pos (by decide)
  · show ((popfq m).popRegs switchPops).rsp = v.rsp
    rw [(Machine.popRegs_rsp switchPops).1, h.rsp, ← hrsp]
    exact BitVec.add_assoc ..

/-! ## The first half of the switch -/

/-- The machine when the stacks are switched. -/
def suspend (returnAddr : Word) (m : Cpu) : Cpu :=
  let m := (m.push returnAddr).pushRegs switchPushes
  { m with mem := Function.update m.mem (m.regs (.gp .rdi)) m.rsp }

theorem threadSwitch_eq (returnAddr : Word) (m : Cpu) : threadSwitch returnAddr m =
    (popfq { suspend returnAddr m with rsp := m.regs (.gp .rsi) }).popRegs switchPops := rfl

theorem pushed_eq (returnAddr : Word) (m : Cpu) :
    (m.push returnAddr).pushRegs switchPushes =
    m.pushAll (returnAddr :: switchPushes.map m.regs) := by
  rw [Machine.pushRegs_eq]
  rfl

/-- **The thread that calls `__thread_switch`** is suspended on its stack; no memory of another
thread is written. -/
theorem suspend_spec (hrdi : m.regs (.gp .rdi) = L.stackPtr t) (hk : k + 8 ≤ stackWords t)
    (hrsp : m.rsp = L.stackEnd t - BitVec.ofNat 64 (8 * k)) (hown : ¬ L.OnStack t (L.stackPtr t))
    (hflags : loadFlags (m.regs .rflags) = m.regs .rflags) :
    Suspended L (suspend returnAddr m).mem t ((saved m).returnTo returnAddr) ∧
      ∀ a, ¬ L.Owns t a → (suspend returnAddr m).mem a = m.mem a := by
  have hmem : (suspend returnAddr m).mem = Function.update
      (m.pushAll (returnAddr :: switchPushes.map m.regs)).mem
      (L.stackPtr t) (L.stackEnd t - BitVec.ofNat 64 (8 * (k + 8))) := by
    unfold suspend
    rw [pushed_eq]
    simp only
    rw [Machine.pushAll_regs, hrdi, Machine.pushAll_rsp, hrsp, BitVec.sub_sub,
      ← BitVec.ofNat_add, Nat.mul_add]
    rfl
  have htop : Holds (m.pushAll (returnAddr :: switchPushes.map m.regs)).mem
      (L.stackEnd t - BitVec.ofNat 64 (8 * (k + 8)))
      (switchFields.map ((saved m).returnTo returnAddr).field) := by
    have h := (show m.Top [] from trivial).pushAll (returnAddr :: switchPushes.map m.regs)
      (by simp [switchPushes])
    unfold Machine.Top at h
    rw [Machine.pushAll_rsp, hrsp, BitVec.sub_sub, ← BitVec.ofNat_add, List.append_nil] at h
    exact h
  have hframe : Holds (suspend returnAddr m).mem (L.stackEnd t - BitVec.ofNat 64 (8 * (k + 8)))
      (switchFields.map ((saved m).returnTo returnAddr).field) := by
    rw [hmem]
    refine htop.update fun i hi h => hown ?_
    rw [h]
    exact onStack_frame hk (show i < k + 8 from Nat.lt_of_lt_of_le hi (by simp [switchFields]))
  have hptr : (suspend returnAddr m).mem (L.stackPtr t) = L.stackEnd t - BitVec.ofNat 64
      (8 * (k + 8)) := by
    rw [hmem]
    exact Function.update_self ..
  refine ⟨⟨⟨k + 8, by omega, hk, hptr⟩, ?_, ?_, ?_⟩, ?_⟩
  · rw [hptr, hframe.1]
    exact hflags
  · rw [hptr]
    exact hframe.2
  · rw [hptr, Nat.mul_add, BitVec.ofNat_add, ← BitVec.sub_sub]
    show m.rsp = _
    rw [hrsp]
    exact (BitVec.sub_add_cancel _ _).symm
  · intro a ha
    rw [hmem, Function.update_of_ne (fun h => ha (.inr h)), Machine.pushAll_mem]
    intro j hj hle h
    refine ha (.inl ?_)
    have hle8 : j ≤ 8 := hle
    rw [h, hrsp, BitVec.sub_sub, ← BitVec.ofNat_add, ← Nat.mul_add]
    exact onStack_sub (by omega) (by omega)

/-! ## A new thread -/

theorem clearStack_of_not (ht : t ≠ kthread) {a : Word} (ha : ¬ L.OnStack t a) :
    clearStack mem (L.stackEnd t) a = mem a := by
  refine if_neg fun h => ha ⟨h.1, h.2.trans ?_⟩
  unfold stackWords
  rw [if_neg ht]
  decide

theorem fieldAddr_eq (e : Word) (f : RegsField) :
    fieldAddr (currentThreadRegs e) f = switchFrame e +
    BitVec.ofNat 64 (8 * (8 + regsFields.idxOf f)) := by
  rw [Nat.mul_add, BitVec.ofNat_add, ← BitVec.add_assoc]
  congr 1
  exact (BitVec.sub_add_cancel _ _).symm

theorem frameAddr_inj {e : Word} {i j : Nat} (hi : i < 1024) (hj : j < 1024) :
    e + BitVec.ofNat 64 (8 * i) = e + BitVec.ofNat 64 (8 * j) ↔ i = j := by
  rw [BitVec.add_right_inj]
  constructor
  · intro h
    have hnat := congrArg BitVec.toNat h
    rw [BitVec.toNat_ofNat, BitVec.toNat_ofNat] at hnat
    omega
  · rintro rfl
    rfl

theorem switchAddr_inj (e : Word) (f g : SwitchField) :
    switchAddr e f = switchAddr e g ↔ f = g := by
  have hidx : ∀ f : SwitchField, switchFields.idxOf f < 1024 := by rintro ⟨⟩ <;> decide
  have hinj : ∀ f g : SwitchField, switchFields.idxOf f = switchFields.idxOf g → f = g := by
    rintro ⟨⟩ ⟨⟩ <;> decide
  unfold switchAddr
  rw [frameAddr_inj (hidx f) (hidx g)]
  exact ⟨hinj f g, fun h => congrArg switchFields.idxOf h⟩

theorem regsFields_idx (g : RegsField) : regsFields.idxOf g ≤ regsFields.length :=
  List.idxOf_le_length

theorem switchAddr_ne_field (e : Word) (f : SwitchField) (g : RegsField) :
    switchAddr (switchFrame e) f ≠ fieldAddr (currentThreadRegs e) g := by
  have hidx : switchFields.idxOf f < 8 := by cases f <;> decide
  have hidx' : regsFields.idxOf g ≤ 22 := regsFields_idx g
  rw [fieldAddr_eq]
  intro h
  have := (frameAddr_inj (by omega) (by omega)).mp h
  omega

/-- The words of the frame that `thread_create` writes lie on the new stack. -/
theorem onStack_new (ht : t ≠ kthread) {i : Nat} (hi : i < 30) :
    L.OnStack t (switchFrame (L.stackEnd t) + BitVec.ofNat 64 (8 * i)) := by
  have hframe : switchFrame (L.stackEnd t) = L.stackEnd t - BitVec.ofNat 64 (8 * 30) := by
    unfold switchFrame currentThreadRegs
    rw [BitVec.sub_sub]
    rfl
  have hwords : 30 ≤ stackWords t := by
    unfold stackWords
    rw [if_neg ht]
    decide
  rw [hframe]
  exact onStack_frame hwords hi

theorem onStack_switchAddr (ht : t ≠ kthread) (f : SwitchField) :
    L.OnStack t (switchAddr (switchFrame (L.stackEnd t)) f) := by
  refine onStack_new ht ?_
  cases f <;> decide

theorem onStack_fieldAddr (ht : t ≠ kthread) {f : RegsField} (hf : f ∈ regsFields) :
    L.OnStack t (fieldAddr (currentThreadRegs (L.stackEnd t)) f) := by
  have hidx := List.idxOf_lt_length_of_mem hf
  rw [fieldAddr_eq]
  exact onStack_new ht (show _ < 8 + 22 from Nat.add_lt_add_left hidx 8)

/-- Away from the new stack `thread_create` writes `stack_ptr` only. -/
theorem threadCreate_of_not (ht : t ≠ kthread) {a fptr arg : Word} (ha : ¬ L.OnStack t a) :
    L.threadCreate t fptr arg mem a =
      Function.update mem (L.stackPtr t) (switchFrame (L.stackEnd t)) a := by
  have hne : ∀ f, a ≠ switchAddr (switchFrame (L.stackEnd t)) f :=
    fun f h => ha (h ▸ onStack_switchAddr ht f)
  have hne' : ∀ f ∈ regsFields, a ≠ fieldAddr (currentThreadRegs (L.stackEnd t)) f :=
    fun f hf h => ha (h ▸ onStack_fieldAddr ht hf)
  rw [← @clearStack_of_not L (Function.update mem (L.stackPtr t) (switchFrame (L.stackEnd t))) t ht
    a ha]
  unfold Layout.threadCreate
  rw [Function.update_of_ne (hne' _ (by decide)), Function.update_of_ne (hne' _ (by decide)),
    Function.update_of_ne (hne' _ (by decide)), Function.update_of_ne (hne' _ (by decide)),
    Function.update_of_ne (hne _), Function.update_of_ne (hne _), Function.update_of_ne (hne _),
    Function.update_of_ne (hne _), Function.update_of_ne (hne _), Function.update_of_ne (hne _)]

/-- **A new thread** is suspended on its stack; no memory of another thread is written. -/
theorem threadCreate_spec (ht : t ≠ kthread) (hown : ¬ L.OnStack t (L.stackPtr t))
    (fptr arg : Word) : Suspended L (L.threadCreate t fptr arg mem) t (newSaved L t fptr arg) ∧
      ∀ a, ¬ L.Owns t a → L.threadCreate t fptr arg mem a = mem a := by
  have hptr : L.threadCreate t fptr arg mem (L.stackPtr t) = switchFrame (L.stackEnd t) := by
    rw [threadCreate_of_not ht hown, Function.update_self]
  have hfield : ∀ f, L.threadCreate t fptr arg mem (switchAddr (switchFrame (L.stackEnd t)) f) =
      if f = .rflags then 1#64 <<< 2 else (newSaved L t fptr arg).field f := by
    intro f
    have hclear : ∀ mem : Word → Word,
        clearStack mem (L.stackEnd t) (switchAddr (switchFrame (L.stackEnd t)) f) = 0 := by
      intro mem
      have hon := onStack_switchAddr (L := L) ht f
      refine if_pos ⟨hon.1, hon.2.trans ?_⟩
      unfold stackWords
      rw [if_neg ht]
      decide
    unfold Layout.threadCreate
    simp only [Function.update_apply, switchAddr_inj, switchAddr_ne_field, hclear, if_false]
    cases f <;> rfl
  have hframe : Holds (L.threadCreate t fptr arg mem) (switchFrame (L.stackEnd t))
      (switchFields.map fun f => if f = .rflags then 1#64 <<<
          2 else (newSaved L t fptr arg).field f) := by
    have h := holds_read (L.threadCreate t fptr arg mem) (switchFrame (L.stackEnd t)) 8
    rw [← List.map_congr_left fun f _ => hfield f]
    exact h
  refine ⟨⟨⟨30, by decide, ?_, ?_⟩, ?_, ?_, ?_⟩, ?_⟩
  · unfold stackWords
    rw [if_neg ht]
    decide
  · rw [hptr]
    unfold switchFrame currentThreadRegs
    rw [BitVec.sub_sub]
    rfl
  · rw [hptr, hframe.1]
    rfl
  · rw [hptr]
    exact hframe.2
  · rw [hptr]
    exact (BitVec.sub_add_cancel _ _).symm
  · intro a ha
    rw [threadCreate_of_not ht (fun h => ha (.inl h)), Function.update_of_ne (fun h => ha (.inr h))]

/-! ## Every call -/

/-- The thread that runs has its registers in the CPU, every other one lies on its stack. -/
structure Ok (L : Layout) (s : State) (o : Own) : Prop where
  current : o.current = s.current
  live : s.live s.current = true
  flags : loadFlags (s.cpu.regs .rflags) = s.cpu.regs .rflags
  fits : L.Fits s.live
  running : o.saved s.current = some (saved s.cpu)
  suspended : ∀ t, s.live t = true → t ≠ s.current → ∃ v, o.saved t = some v ∧
    Suspended L s.cpu.mem t v

variable {s : State} {o : Own}

theorem loadFlags_idem (w : Word) : loadFlags (loadFlags w) = loadFlags w := by
  have h : ∀ i < 64, (0x247fd5#64).getLsbD i = true → (2#64).getLsbD i = false := by decide
  unfold loadFlags
  apply BitVec.eq_of_getLsbD_eq
  intro i hi
  have h' := h i hi
  simp only [BitVec.getLsbD_or, BitVec.getLsbD_and]
  revert h'
  cases w.getLsbD i <;> cases (0x247fd5#64).getLsbD i <;> cases (2#64).getLsbD i <;> simp

theorem Ok.work {cpu : Cpu} (h : Ok L s o) (hc : Legal L s (.work cpu)) :
    Ok L (step L s (.work cpu)) (o.step L (.work cpu)) := by
  obtain ⟨hflags, hmem⟩ := hc
  refine ⟨h.current, h.live, hflags, h.fits, ?_, fun t ht hne => ?_⟩
  · show Function.update o.saved o.current _ s.current = _
    rw [h.current, Function.update_self]
    rfl
  · obtain ⟨v, hv, hsus⟩ := h.suspended t ht hne
    refine ⟨v, ?_, hsus.congr fun a => hmem t a ht hne⟩
    rw [← hv]
    exact Function.update_of_ne (h.current.symm ▸ hne) ..

theorem Ok.switch {next : Tid} (h : Ok L s o) (hc : Legal L s (.switch next returnAddr)) :
    Ok L (step L s (.switch next returnAddr)) (o.step L (.switch next returnAddr)) := by
  obtain ⟨hlive, hnext, hrdi, hrsi, k, hk, hrsp⟩ := hc
  obtain ⟨hself, hothers⟩ := @suspend_spec _ _ _ _ returnAddr hrdi hk hrsp
    (h.fits.own _ h.live) h.flags
  have hkeeps : ∀ t, s.live t = true → t ≠ s.current → ∀ a, L.Owns t a →
      (suspend returnAddr s.cpu).mem a = s.cpu.mem a := fun t ht hne a ha =>
    hothers a (h.fits.apart t s.current a ht h.live hne ha)
  obtain ⟨v, hv, hsus⟩ := h.suspended next hlive hnext
  have hsus' : Suspended L (suspend returnAddr s.cpu).mem next v :=
    hsus.congr (hkeeps next hlive hnext)
  have hresume := saved_resume (m := { suspend returnAddr s.cpu with rsp := s.cpu.regs (.gp .rsi) })
    hsus' (hrsi.trans (hkeeps next hlive hnext _ (.inr rfl)).symm)
  rw [← threadSwitch_eq] at hresume
  obtain ⟨hsaved, hmem⟩ := hresume
  refine ⟨rfl, hlive, ?_, h.fits, ?_, fun t ht hne => ?_⟩
  · have hf := congrArg (fun v : Saved => v.field .rflags) hsaved
    change (threadSwitch returnAddr s.cpu).regs .rflags = v.field .rflags at hf
    show loadFlags ((threadSwitch returnAddr s.cpu).regs .rflags) =
      (threadSwitch returnAddr s.cpu).regs .rflags
    rw [hf, ← hsus.flags, loadFlags_idem]
  · show Function.update o.saved o.current _ next = some (saved (threadSwitch returnAddr s.cpu))
    rw [Function.update_of_ne (h.current.symm ▸ hnext), hv, hsaved]
  · show ∃ v, Function.update o.saved o.current _ t = some v ∧
      Suspended L (threadSwitch returnAddr s.cpu).mem t v
    rw [hmem, h.current]
    by_cases hcur : t = s.current
    · subst hcur
      rw [Function.update_self, h.running]
      exact ⟨_, rfl, hself⟩
    · obtain ⟨w, hw, hwsus⟩ := h.suspended t ht hcur
      rw [Function.update_of_ne hcur]
      exact ⟨w, hw, hwsus.congr (hkeeps t ht hcur)⟩

theorem Ok.create {fptr arg : Word} (h : Ok L s o) (hc : Legal L s (.create t fptr arg)) :
    Ok L (step L s (.create t fptr arg)) (o.step L (.create t fptr arg)) := by
  obtain ⟨hdead, hk, hfits⟩ := hc
  have ht : Function.update s.live t true t = true := Function.update_self ..
  obtain ⟨hnew, hothers⟩ := @threadCreate_spec _ s.cpu.mem _ hk (hfits.own t ht) fptr arg
  have hcur : s.current ≠ t := by
    rintro rfl
    rw [h.live] at hdead
    cases hdead
  refine ⟨h.current, ?_, h.flags, hfits, ?_, fun u hu hne => ?_⟩
  · show Function.update s.live t true s.current = true
    rw [Function.update_of_ne hcur]
    exact h.live
  · show Function.update o.saved t _ s.current = _
    rw [Function.update_of_ne hcur]
    exact h.running
  · show ∃ v, Function.update o.saved t _ u = some v ∧
      Suspended L (L.threadCreate t fptr arg s.cpu.mem) u v
    by_cases hut : u = t
    · subst hut
      rw [Function.update_self]
      exact ⟨_, rfl, hnew⟩
    · rw [Function.update_of_ne hut]
      have hlive : s.live u = true := by
        have hu' : Function.update s.live t true u = true := hu
        rwa [Function.update_of_ne hut] at hu'
      obtain ⟨v, hv, hsus⟩ := h.suspended u hlive hne
      exact ⟨v, hv, hsus.congr fun a ha => hothers a (hfits.apart u t a hu ht hut ha)⟩

theorem Ok.destroy (h : Ok L s o) (hc : Legal L s (.destroy t)) :
    Ok L (step L s (.destroy t)) (o.step L (.destroy t)) := by
  have hcur : s.current ≠ t := Ne.symm hc
  have hsub : ∀ u, Function.update s.live t false u = true → s.live u = true ∧ u ≠ t := by
    intro u hu
    by_cases hut : u = t
    · subst hut
      rw [Function.update_self] at hu
      cases hu
    · rw [Function.update_of_ne hut] at hu
      exact ⟨hu, hut⟩
  refine ⟨h.current, ?_, h.flags, ⟨?_, ?_⟩, ?_, fun u hu hne => ?_⟩
  · show Function.update s.live t false s.current = true
    rw [Function.update_of_ne hcur]
    exact h.live
  · exact fun u v a hu hv => h.fits.apart u v a (hsub u hu).1 (hsub v hv).1
  · exact fun u hu => h.fits.own u (hsub u hu).1
  · show Function.update o.saved t _ s.current = _
    rw [Function.update_of_ne hcur]
    exact h.running
  · obtain ⟨hlive, hut⟩ := hsub u hu
    obtain ⟨v, hv, hsus⟩ := h.suspended u hlive hne
    exact ⟨v, (Function.update_of_ne hut ..).trans hv, hsus⟩

theorem Ok.step {c : Call} (h : Ok L s o) (hc : Legal L s c) :
    Ok L (Context.step L s c) (o.step L c) := by
  cases c with
  | work cpu => exact h.work hc
  | switch next returnAddr => exact h.switch hc
  | create t fptr arg => exact h.create hc
  | destroy t => exact h.destroy hc

/-! ## Every run -/

theorem Ok.run {cs : List Call} (h : Ok L s o) (hcs : Lawful L s cs) :
    Ok L (cs.foldl (Context.step L) s) (cs.foldl (Own.step L) o) := by
  induction cs generalizing s o with
  | nil => exact h
  | cons c cs ih => exact ih (h.step hcs.1) hcs.2

theorem ok_start {cpu : Cpu} (hflags : loadFlags (cpu.regs .rflags) = cpu.regs .rflags)
    (hown : ¬ L.OnStack kthread (L.stackPtr kthread)) : Ok L (start cpu) (Own.start cpu) := by
  have hlive : ∀ t, (start cpu).live t = true → t = kthread := fun t => of_decide_eq_true
  refine ⟨rfl, rfl, hflags, ⟨?_, ?_⟩, rfl, fun t ht hne => absurd (hlive t ht) hne⟩
  · intro t u a ht hu hne
    exact absurd ((hlive t ht).trans (hlive u hu).symm) hne
  · intro t ht
    rw [hlive t ht]
    exact hown

/-- **In every run each thread has registers of its own**: after any calls, the CPU holds what it
would hold if a switch only chose whose registers are used. -/
theorem switch_refine {cpu : Cpu} (hflags : loadFlags (cpu.regs .rflags) = cpu.regs .rflags)
    (hown : ¬ L.OnStack kthread (L.stackPtr kthread)) {cs : List Call}
    (hcs : Lawful L (start cpu) cs) :
    (cs.foldl (Own.step L) (Own.start cpu)).current = (cs.foldl (step L) (start cpu)).current ∧
      (cs.foldl (Own.step L) (Own.start cpu)).saved (cs.foldl (step L) (start cpu)).current =
        some (saved (cs.foldl (step L) (start cpu)).cpu) :=
  have h := (ok_start hflags hown).run hcs
  ⟨h.current, h.running⟩

/-! ## New threads -/

/-- The call gives the CPU to the thread, or destroys it. -/
def Call.Ends (t : Tid) : Call → Prop
  | .switch next _ => next = t
  | .destroy u => u = t
  | _ => False

/-- What a thread that does not run would get stays the same. -/
theorem Ok.waits {cs : List Call} (h : Ok L s o) (hcs : Lawful L s cs) (hlive : s.live t = true)
    (hne : t ≠ s.current) (hv : o.saved t = some v) (hends : ∀ c ∈ cs, ¬ c.Ends t) :
    t ≠ (cs.foldl (Context.step L) s).current ∧ (cs.foldl (Own.step L) o).saved t = some v := by
  induction cs generalizing s o with
  | nil => exact ⟨hne, hv⟩
  | cons c cs ih =>
    obtain ⟨hc, hcs⟩ := hcs
    have hend : ¬ c.Ends t := hends c List.mem_cons_self
    have hne' : t ≠ o.current := h.current.symm ▸ hne
    refine ih (h.step hc) hcs ?_ ?_ ?_ fun c hc => hends c (List.mem_cons_of_mem _ hc)
    · cases c with
      | work cpu => exact hlive
      | switch next returnAddr => exact hlive
      | create u fptr arg =>
        show Function.update s.live u true t = true
        rw [Function.update_apply, hlive, ite_self]
      | destroy u => exact (Function.update_of_ne (fun h => hend h.symm) ..).trans hlive
    · cases c with
      | switch next returnAddr => exact fun h => hend h.symm
      | work cpu => exact hne
      | create u fptr arg => exact hne
      | destroy u => exact hne
    · cases c with
      | work cpu => exact (Function.update_of_ne hne' ..).trans hv
      | switch next returnAddr => exact (Function.update_of_ne hne' ..).trans hv
      | create u fptr arg =>
        refine (Function.update_of_ne ?_ ..).trans hv
        rintro rfl
        have hdead : s.live t = false := hc.1
        rw [hlive] at hdead
        cases hdead
      | destroy u => exact (Function.update_of_ne (fun h => hend h.symm) ..).trans hv

theorem lawful_append {cs cs' : List Call} :
    Lawful L s (cs ++ cs') ↔ Lawful L s cs ∧ Lawful L (cs.foldl (step L) s) cs' := by
  induction cs generalizing s with
  | nil => exact (iff_of_eq (true_and _)).symm
  | cons c cs ih =>
    rw [List.cons_append, Lawful, Lawful, ih, and_assoc]
    rfl

/-- **A new thread** is at `__thread_entry` when the CPU comes to it first, with the arguments of
`thread_create` and with interrupts off, whatever ran since it was created. -/
theorem thread_starts {cpu : Cpu} (hflags : loadFlags (cpu.regs .rflags) = cpu.regs .rflags)
    (hown : ¬ L.OnStack kthread (L.stackPtr kthread)) {cs cs' : List Call} {fptr arg : Word}
    (hcs : Lawful L (start cpu) (cs ++ Call.create t fptr
      arg :: (cs' ++ [Call.switch t returnAddr])))
    (hends : ∀ c ∈ cs', ¬ c.Ends t) :
    saved ((cs ++ Call.create t fptr arg :: (cs' ++ [Call.switch t returnAddr])).foldl (step L)
      (start cpu)).cpu = newSaved L t fptr arg := by
  obtain ⟨hcs₁, hcreate, hcs₂⟩ := lawful_append.mp hcs
  obtain ⟨hcs₂, hswitch, -⟩ := lawful_append.mp hcs₂
  have hok := ((ok_start hflags hown).run hcs₁).step hcreate
  have hne : t ≠ (cs.foldl (step L) (start cpu)).current := by
    rintro rfl
    have hlive := ((ok_start hflags hown).run hcs₁).live
    rw [hcreate.1] at hlive
    cases hlive
  obtain ⟨hne', hv⟩ := hok.waits hcs₂ (Function.update_self ..) hne (Function.update_self ..) hends
  have hlast := ((hok.run hcs₂).step hswitch).running
  rw [List.foldl_append, List.foldl_cons, List.foldl_append]
  refine Option.some.inj (hlast.symm.trans ?_)
  refine (Function.update_of_ne ?_ ..).trans hv
  rw [(hok.run hcs₂).current]
  exact hne'

/-! ## Two threads -/

/-- `kthread` has the page below 0x9000, thread 1 the two pages below 0xc000. -/
def someLayout : Layout where
  thread t := if t = kthread then 0x1000 else 0x2000
  stackEnd t := if t = kthread then 0x9000 else 0xc000
  threadEntry := 0x4000
  threadExit := 0x5000

/-- `kthread` before it creates a thread. -/
def someCpu : Cpu := ⟨fun _ => 2, 0x8f00, fun _ => 0⟩

/-- `kthread` before it calls `__thread_switch` for thread 1. -/
def callerCpu : Cpu :=
  let mem := someLayout.threadCreate 1 0x6000 7 someCpu.mem
  ⟨Function.update (Function.update someCpu.regs (.gp .rdi) 0x1038) (.gp .rsi)
    (mem (someLayout.stackPtr 1)), 0x8f00, mem⟩

theorem someLayout_fits : someLayout.Fits (Function.update (start someCpu).live 1 true) := by
  have h0 : ∀ a, someLayout.Owns kthread a → a.toNat ≤ 0x9000 ∧
      (0x8000 ≤ a.toNat ∨ a.toNat = 0x1038) := by
    rintro a (⟨h1, h2⟩ | rfl)
    · have hend : someLayout.stackEnd kthread = 0x9000 := rfl
      have hwords : stackWords kthread = 512 := rfl
      rw [hend] at h1 h2
      rw [hwords] at h2
      bv_omega
    · decide
  have h1 : ∀ a, someLayout.Owns 1 a → 0xa000 ≤ a.toNat ∨ a.toNat = 0x2038 := by
    rintro a (⟨h1, h2⟩ | rfl)
    · have hend : someLayout.stackEnd 1 = 0xc000 := rfl
      have hwords : stackWords 1 = 1024 := rfl
      rw [hend] at h1 h2
      rw [hwords] at h2
      bv_omega
    · decide
  have hlive : ∀ t, Function.update (start someCpu).live 1 true t = true →
      t = kthread ∨ t = 1 := by
    intro t ht
    by_cases h1 : t = 1
    · exact .inr h1
    · rw [Function.update_of_ne h1] at ht
      exact .inl (of_decide_eq_true ht)
  refine ⟨fun t u a ht hu hne hta hua => ?_, fun t ht => ?_⟩
  · rcases hlive t ht with rfl | rfl <;> rcases hlive u hu with rfl | rfl
    · exact hne rfl
    · have := h0 a hta
      have := h1 a hua
      omega
    · have := h0 a hua
      have := h1 a hta
      omega
    · exact hne rfl
  · rcases hlive t ht with rfl | rfl <;> exact fun h => absurd h.2 (by decide)

theorem someCalls_lawful : Lawful someLayout (start someCpu)
    ([] ++ Call.create 1 0x6000 7 :: ([Call.work callerCpu] ++ [Call.switch 1 0x7000])) := by
  refine ⟨⟨rfl, by decide, someLayout_fits⟩, ⟨rfl, fun t a _ _ _ => rfl⟩,
    ⟨rfl, by decide, ?_, ?_, 32, ?_, rfl⟩, trivial⟩
  · show callerCpu.regs (.gp .rdi) = 0x1038
    unfold callerCpu
    simp only
    rw [Function.update_of_ne (by decide), Function.update_self]
  · show callerCpu.regs (.gp .rsi) = callerCpu.mem (someLayout.stackPtr 1)
    unfold callerCpu
    simp only
    rw [Function.update_self]
  · show 32 + 8 ≤ stackWords kthread
    decide

theorem switch_refine_two : (([] ++ Call.create 1 0x6000
    7 :: ([Call.work callerCpu] ++ [Call.switch 1 0x7000])).foldl
    (step someLayout) (start someCpu)).current = 1 :=
  (switch_refine (by decide) (fun h => absurd h.2 (by decide)) someCalls_lawful).1.symm

theorem thread_starts_one : saved (([] ++ Call.create 1 0x6000 7 :: ([Call.work callerCpu] ++
    [Call.switch 1 0x7000])).foldl (step someLayout) (start someCpu)).cpu =
    newSaved someLayout 1 0x6000 7 :=
  thread_starts (by decide) (fun h => absurd h.2 (by decide)) someCalls_lawful
    fun c hc h => by
      rw [List.mem_singleton] at hc
      subst hc
      exact h

end Context

end AuOs
