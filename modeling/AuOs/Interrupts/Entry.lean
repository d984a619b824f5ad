import Mathlib
import AuOs.Balloc.Alloc
import AuOs.Lib.WordStack
import AuOs.Syscall.Entry

/-!
# The interrupt path

Reference model of the entries `isr0` to `isr255` and of `common` of `entry.S`, of the interrupt
frame of the CPU and of `struct frame`.  The kernel is compiled without a red zone: what lies below
the stack pointer belongs to nobody.

* `isr`, `common`, `interrupt` — the path from the interrupt to `iretq`.
* `frameWords` — `struct frame`, a word for each field.
* `HandlerOk` — what the compiled `__int_handler` does with the memory.
* `interrupt_frame` — what `__int_handler` finds, for every vector.
* `interrupt_transparent` — **an interrupt leaves no trace** but in the memory of the handlers.
* `interrupted_run` — the same for any number of interrupts at any places of a program.
-/

set_option autoImplicit false

namespace AuOs

namespace Interrupts

open WordStack Syscall

/-! ## The path -/

/-- The registers of the interrupted code, and the memory. -/
structure Cpu where
  user : User
  mem : Word → Word

/-- The vectors for which the CPU pushes an error code. -/
def errorVectors : List Nat := [8, 10, 11, 12, 13, 14, 17]

/-- The vectors whose entry is an `ISR_MENTRY`. -/
def ISR_MENTRY : List Nat := [8, 10, 11, 12, 13, 14, 17]

/-- The stack that the CPU takes: that of the TSS when it comes from user mode. -/
def stackBase (rsp0 : Word) (u : User) : Word := if u.cs &&& 3 = 3 then rsp0 else u.rsp

/-- What the CPU does on an interrupt: it aligns the stack and pushes the frame of `iretq`, and for
some vectors an error code. -/
def deliver (rsp0 : Word) (n : Nat) (error : Word) (c : Cpu) : Machine Reg :=
  ({ regs := c.user.regs, rsp := stackBase rsp0 c.user &&& ~~~0xf,
     mem := c.mem } : Machine Reg).pushAll
    ([c.user.ss, c.user.rsp, c.user.rflags, c.user.cs, c.user.rip] ++
      if n ∈ errorVectors then [error] else [])

/-- `isr ## n`. -/
def isr (n : Nat) (m : Machine Reg) : Machine Reg :=
  if n ∈ ISR_MENTRY then m.push (BitVec.ofNat 64 n) else (m.push 0).push (BitVec.ofNat 64 n)

/-- The machine at the first instruction of `__int_handler`. -/
def atHandler (returnAddr : Word) (m : Machine Reg) : Machine Reg :=
  let m := m.pushRegs saveRegisters
  { m with regs := Function.update m.regs .rdi m.rsp }.push returnAddr

/-- What `common` does after the call, up to `iretq`. -/
def leave (m : Machine Reg) : Cpu :=
  let m := m.popRegs loadRegisters
  ⟨iretq { m with rsp := m.rsp + 0x10 }, m.mem⟩

/-- An interrupt, from the CPU's frame to `iretq`.  `handler` is what `__int_handler` does. -/
def interrupt (handler : Machine Reg → Machine Reg) (returnAddr rsp0 : Word)
    (n : Nat) (error : Word) (c : Cpu) : Cpu :=
  leave (handler (atHandler returnAddr (isr n (deliver rsp0 n error c))))

/-! ## The frame -/

/-- The field `error`. -/
def errorWord (n : Nat) (error : Word) : Word := if n ∈ errorVectors then error else 0

/-- `struct frame`. -/
def frameWords (n : Nat) (error : Word) (u : User) : List Word :=
  loadRegisters.map u.regs ++ (BitVec.ofNat 64 n :: errorWord n error :: u.frame)

variable {n : Nat} {error rsp0 returnAddr : Word} {c : Cpu} {m : Machine Reg}
  {handler : Machine Reg → Machine Reg}

/-- The words that are pushed, from the CPU's frame to the last register. -/
def pushed (n : Nat) (error : Word) (u : User) : List Word :=
  [u.ss, u.rsp, u.rflags, u.cs, u.rip, errorWord n error, BitVec.ofNat 64 n] ++
    saveRegisters.map u.regs

/-- **The entries and the CPU agree** on the vectors with an error code. -/
theorem isr_deliver : isr n (deliver rsp0 n error c) =
    ({ regs := c.user.regs, rsp := stackBase rsp0 c.user &&& ~~~0xf,
       mem := c.mem } : Machine Reg).pushAll
      [c.user.ss, c.user.rsp, c.user.rflags, c.user.cs, c.user.rip, errorWord n error,
        BitVec.ofNat 64 n] := by
  have hvectors : ISR_MENTRY = errorVectors := rfl
  unfold isr deliver errorWord
  rw [hvectors]
  split <;> rfl

theorem saved_eq : (isr n (deliver rsp0 n error c)).pushRegs saveRegisters =
    ({ regs := c.user.regs, rsp := stackBase rsp0 c.user &&& ~~~0xf,
       mem := c.mem } : Machine Reg).pushAll (pushed n error c.user) := by
  rw [isr_deliver, Machine.pushRegs_eq, Machine.pushAll_regs, pushed, Machine.pushAll_append]

theorem saved_top : ((isr n (deliver rsp0 n error c)).pushRegs saveRegisters).Top
    (frameWords n error c.user) := by
  have h : ({ regs := c.user.regs, rsp := stackBase rsp0 c.user &&& ~~~0xf,
              mem := c.mem } : Machine Reg).Top [] :=
    trivial
  rw [saved_eq]
  exact h.pushAll _ (by simp [pushed, saveRegisters])

theorem aligned_mod (b : Word) : (b &&& ~~~0xf).toNat % 16 = 0 := by
  rw [BitVec.toNat_and, show (16 : Nat) = 2 ^ 4 from rfl, Nat.and_mod_two_pow,
    show (~~~0xf : Word).toNat % 2 ^ 4 = 0 from rfl, Nat.and_zero]

/-- The CPU and the entry push 22 words. -/
theorem saved_rsp : ((isr n (deliver rsp0 n error c)).pushRegs saveRegisters).rsp =
    (stackBase rsp0 c.user &&& ~~~0xf) - BitVec.ofNat 64 (8 * 22) := by
  rw [saved_eq, Machine.pushAll_rsp]
  rfl

theorem atHandler_rsp : (atHandler returnAddr m).rsp = (m.pushRegs saveRegisters).rsp - 8 := rfl

theorem atHandler_mem : (atHandler returnAddr m).mem =
    Function.update (m.pushRegs saveRegisters).mem ((m.pushRegs saveRegisters).rsp - 8)
      returnAddr := by
  simp only [atHandler, Machine.push]

theorem atHandler_rdi : (atHandler returnAddr m).regs .rdi = (m.pushRegs saveRegisters).rsp := by
  simp [atHandler, Machine.push]

/-- **What `__int_handler` finds**: its argument points to the `struct frame` of the interrupted
code, and the stack is aligned as the calling convention demands. -/
theorem interrupt_frame (n : Nat) (error rsp0 returnAddr : Word) (c : Cpu) :
    (atHandler returnAddr (isr n (deliver rsp0 n error c))).Top
      (returnAddr :: frameWords n error c.user) ∧
      (atHandler returnAddr (isr n (deliver rsp0 n error c))).regs .rdi =
        (atHandler returnAddr (isr n (deliver rsp0 n error c))).rsp + 8 ∧
      ((atHandler returnAddr (isr n (deliver rsp0 n error c))).rsp + 8).toNat % 16 = 0 := by
  have hback : (atHandler returnAddr (isr n (deliver rsp0 n error c))).rsp + 8 =
      ((isr n (deliver rsp0 n error c)).pushRegs saveRegisters).rsp := by
    rw [atHandler_rsp, BitVec.sub_add_cancel]
  refine ⟨?_, ?_, ?_⟩
  · unfold atHandler
    apply Machine.Top.push
    · exact saved_top.setRegs _
    · simp [frameWords, loadRegisters, User.frame]
  · rw [hback, atHandler_rdi]
  · have hal := aligned_mod (stackBase rsp0 c.user)
    rw [hback, saved_rsp]
    generalize stackBase rsp0 c.user &&& ~~~0xf = b at hal
    have hb := b.isLt
    rw [BitVec.toNat_sub, BitVec.toNat_ofNat]
    omega

/-! ## The way back -/

/-- **`LOAD_REGISTERS`, `addq $0x10, %rsp` and `iretq`** load what lies in the frame. -/
theorem leave_eq (h : m.Top (frameWords n error c.user)) : leave m = ⟨c.user, m.mem⟩ := by
  obtain ⟨⟨-, -, hrip, hcs, hflags, hrsp, hss, -⟩, hmem, hregs⟩ :=
    Machine.Top.popRegs loadRegisters (by decide) c.user.regs h
  have hf : (m.popRegs loadRegisters).regs = c.user.regs := by
    funext r
    rw [hregs r, if_pos (mem_loadRegisters r)]
  have hskip : (m.popRegs loadRegisters).rsp + 0x10 = (m.popRegs loadRegisters).rsp + 8 + 8 := by
    rw [BitVec.add_assoc]
    rfl
  unfold leave iretq
  simp only [hskip]
  rw [hrip, hcs, hflags, hrsp, hss, hf, hmem]

/-! ## Transparency -/

/-- The `size` bytes below an address. -/
def below (base : Word) (size : Nat) : Set Word :=
  {a | 0 < (base - a).toNat ∧ (base - a).toNat ≤ size}

/-- `__int_handler` was compiled: it returns to its caller and leaves the words above its return
address alone, where the stack is apart from the memory of the handlers.  It writes only that memory
and its own part of the stack, `depth` bytes. -/
structure HandlerOk (handler : Machine Reg → Machine Reg) (returnAddr : Word) (own : Set Word)
    (depth : Nat) : Prop where
  keeps : ∀ (m : Machine Reg) (l : List Word), l.length ≤ 22 →
    (∀ i < l.length, m.rsp + 8 + BitVec.ofNat 64 (8 * i) ∉ own) → m.Top (returnAddr :: l) →
      (handler m).Top l
  frame : ∀ (m : Machine Reg) (a : Word), a ∉ own → a ∉ below m.rsp depth →
    (handler m).mem a = m.mem a

/-- The part of the stack that an interrupt may use. -/
def dead (rsp0 : Word) (depth : Nat) (u : User) : Set Word := below (stackBase rsp0 u) (depth + 199)

variable {own : Set Word} {depth : Nat}

theorem below_trans {a b b' : Word} {k size : Nat} (hb : (b - b').toNat ≤ k)
    (ha : a ∈ below b' size) (hlt : size + k < 2 ^ 64) : a ∈ below b (size + k) := by
  obtain ⟨h0, h1⟩ := ha
  have hsum : b - a = b - b' + (b' - a) := (sub_add_sub_cancel b b' a).symm
  constructor
  · rw [hsum, BitVec.toNat_add, Nat.mod_eq_of_lt (by omega)]
    omega
  · rw [hsum, BitVec.toNat_add, Nat.mod_eq_of_lt (by omega)]
    omega

theorem aligned_below (b : Word) : (b - (b &&& ~~~0xf)).toNat ≤ 15 := by
  have hb := b.isLt
  have hle := @le_and_not_add b.toNat 15 64 hb (by decide)
  have hle' := @Nat.and_le_left b.toNat (2 ^ 64 - 1 - 15)
  have hand : (b &&& ~~~0xf).toNat = b.toNat &&& (2 ^ 64 - 1 - 15) := by
    rw [BitVec.toNat_and]
    rfl
  rw [BitVec.toNat_sub, hand]
  omega

/-- The words pushed lie below the stack that was taken. -/
theorem push_below {b : Word} {j size : Nat} (hj : 0 < j) (hle : 8 * j ≤ size)
    (hlt : size < 2 ^ 64) : b - BitVec.ofNat 64 (8 * j) ∈ below b size := by
  have hsub : b - (b - BitVec.ofNat 64 (8 * j)) = BitVec.ofNat 64 (8 * j) := sub_sub_cancel ..
  have hnat : (BitVec.ofNat 64 (8 * j)).toNat = 8 * j := by
    rw [BitVec.toNat_ofNat, Nat.mod_eq_of_lt (by omega)]
  constructor
  · rw [hsub, hnat]
    omega
  · rw [hsub, hnat]
    exact hle

/-- The memory when `__int_handler` is called. -/
theorem pushed_mem {a : Word} (ha : a ∉ below (stackBase rsp0 c.user) 199) :
    (atHandler returnAddr (isr n (deliver rsp0 n error c))).mem a = c.mem a := by
  have hne : ∀ j, 0 < j → j ≤ 23 →
      a ≠ (stackBase rsp0 c.user &&& ~~~0xf) - BitVec.ofNat 64 (8 * j) := by
    rintro j h0 hj rfl
    exact ha (below_trans (aligned_below _) (push_below h0 (show 8 * j ≤ 184 by omega) (by decide))
      (by decide))
  have hlast : a ≠ ((isr n (deliver rsp0 n error c)).pushRegs saveRegisters).rsp - 8 := by
    rw [saved_rsp, BitVec.sub_sub]
    exact hne 23 (by decide) le_rfl
  rw [atHandler_mem, Function.update_of_ne hlast, saved_eq]
  apply Machine.pushAll_mem
  intro j h0 hj
  exact hne j h0 (hj.trans (by simp [pushed, saveRegisters]))

/-- The words of the frame lie below the stack pointer. -/
theorem frame_below {i : Nat} (hi : i < 22) :
    (atHandler returnAddr (isr n (deliver rsp0 n error c))).rsp + 8 + BitVec.ofNat 64 (8 * i) ∈
      below (stackBase rsp0 c.user) 199 := by
  have hback : (atHandler returnAddr (isr n (deliver rsp0 n error c))).rsp + 8 +
      BitVec.ofNat 64 (8 * i) =
      (stackBase rsp0 c.user &&& ~~~0xf) - BitVec.ofNat 64 (8 * (22 - i)) := by
    have hsum : BitVec.ofNat 64 (8 * 22) = BitVec.ofNat 64 (8 * (22 - i)) +
        BitVec.ofNat 64 (8 * i) := by
      rw [← BitVec.ofNat_add]
      congr 1
      omega
    rw [atHandler_rsp, BitVec.sub_add_cancel, saved_rsp, hsum, ← BitVec.sub_sub,
      BitVec.sub_add_cancel]
  rw [hback]
  exact below_trans (aligned_below _) (push_below (by omega)
    (show 8 * (22 - i) ≤ 184 by omega) (by decide)) (by decide)

/-- An interrupt restores the registers and the memory that is in use. -/
theorem interrupt_trace (hok : HandlerOk handler returnAddr own depth)
    (hdepth : depth + 199 < 2 ^ 64)
    (n : Nat) (error rsp0 : Word) (c : Cpu) (happ : Disjoint own (dead rsp0 depth c.user)) :
    (interrupt handler returnAddr rsp0 n error c).user = c.user ∧
      ∀ a, a ∉ own → a ∉ dead rsp0 depth c.user →
        (interrupt handler returnAddr rsp0 n error c).mem a = c.mem a := by
  have hlen : (frameWords n error c.user).length = 22 := by
    simp [frameWords, loadRegisters, User.frame]
  have htop := hok.keeps _ _ hlen.le (fun i hi hown => by
    obtain ⟨h0, h1⟩ := @frame_below n error rsp0 returnAddr c i (hlen ▸ hi)
    exact Set.disjoint_left.mp happ hown ⟨h0, h1.trans (Nat.le_add_left ..)⟩)
    (interrupt_frame n error rsp0 returnAddr c).1
  unfold interrupt
  rw [leave_eq htop]
  refine ⟨rfl, fun a hown hdead => ?_⟩
  simp only
  rw [hok.frame _ a hown, pushed_mem]
  · rintro ⟨h0, h1⟩
    exact hdead ⟨h0, h1.trans (by omega)⟩
  · intro ha
    apply hdead
    rw [atHandler_rsp, saved_rsp, BitVec.sub_sub] at ha
    have hsub : ∀ b : Word, (b - (b - (BitVec.ofNat 64 (8 * 22) + 8))).toNat ≤ 184 := by
      intro b
      rw [sub_sub_cancel]
      decide
    have hbelow := below_trans (aligned_below _) (below_trans (hsub _) ha (by omega)) (by omega)
    exact hbelow

/-- **An interrupt leaves no trace**: for every vector the interrupted code goes on with the
registers it had, and no memory has changed but that of the handlers and what lies below the stack
pointer.  `__int_handler` gets a pointer to a `struct frame` with the registers, the number and the
error code, on a stack that is aligned as the calling convention demands. -/
theorem interrupt_transparent (hok : HandlerOk handler returnAddr own depth)
    (hdepth : depth + 199 < 2 ^ 64)
    (n : Nat) (error rsp0 : Word) (c : Cpu) (happ : Disjoint own (dead rsp0 depth c.user)) :
    (∃ m, interrupt handler returnAddr rsp0 n error c = leave (handler m) ∧
      m.Top (returnAddr :: frameWords n error c.user) ∧ m.regs .rdi = m.rsp + 8 ∧
        (m.rsp + 8).toNat % 16 = 0) ∧
    (interrupt handler returnAddr rsp0 n error c).user = c.user ∧
      ∀ a, a ∉ own → a ∉ dead rsp0 depth c.user →
        (interrupt handler returnAddr rsp0 n error c).mem a = c.mem a :=
  ⟨⟨_, rfl, interrupt_frame n error rsp0 returnAddr c⟩,
    interrupt_trace hok hdepth n error rsp0 c happ⟩

/-! ## Programs that are interrupted -/

/-- Two states that no program can tell apart: they differ in the memory of the handlers and in what
lies below the stack pointer. -/
structure Same (own : Set Word) (rsp0 : Word) (depth : Nat) (c c' : Cpu) : Prop where
  user : c'.user = c.user
  mem : ∀ a, a ∉ own → a ∉ dead rsp0 depth c.user → c'.mem a = c.mem a

/-- An instruction of the program, or an interrupt. -/
inductive Event where
  | instr (f : Cpu → Cpu)
  | interrupt (n : Nat) (error : Word)

/-- The instruction of an event. -/
def Event.instr? : Event → Option Event
  | .instr f => some (.instr f)
  | .interrupt _ _ => none

/-- One event. -/
def Event.exec (handler : Machine Reg → Machine Reg) (returnAddr rsp0 : Word)
    (c : Cpu) : Event → Cpu
  | .instr f => f c
  | .interrupt n error => AuOs.Interrupts.interrupt handler returnAddr rsp0 n error c

/-- A run of the CPU. -/
def runEvents (handler : Machine Reg → Machine Reg) (returnAddr rsp0 : Word) (events : List Event)
    (c : Cpu) : Cpu :=
  events.foldl (Event.exec handler returnAddr rsp0) c

/-- The instruction reads nothing that belongs to the handlers and nothing below the stack pointer,
and leaves the stack pointer where there is room for an interrupt. -/
structure Respects (own : Set Word) (rsp0 : Word) (depth : Nat) (f : Cpu → Cpu) : Prop where
  same : ∀ c c', Same own rsp0 depth c c' → Same own rsp0 depth (f c) (f c')
  room : ∀ c, Disjoint own (dead rsp0 depth c.user) → Disjoint own (dead rsp0 depth (f c).user)

variable {c' : Cpu}

theorem Same.interrupt (h : Same own rsp0 depth c c') (hok : HandlerOk handler returnAddr own depth)
    (hdepth : depth + 199 < 2 ^ 64) (happ : Disjoint own (dead rsp0 depth c.user)) (n : Nat)
    (error : Word) : Same own rsp0 depth c (interrupt handler returnAddr rsp0 n error c') := by
  obtain ⟨huser, hmem⟩ := interrupt_trace hok hdepth n error rsp0 c' (h.user ▸ happ)
  refine ⟨huser.trans h.user, fun a hown hdead => ?_⟩
  rw [hmem a hown (h.user ▸ hdead), h.mem a hown hdead]

/-- **A program does not notice interrupts**: wherever they come and whatever their vectors are, it
ends as if there had been none. -/
theorem interrupted_run (hok : HandlerOk handler returnAddr own depth)
    (hdepth : depth + 199 < 2 ^ 64)
    (rsp0 : Word) (events : List Event) (hinstr : ∀ f, .instr f ∈ events →
      Respects own rsp0 depth f) (c : Cpu)
    (happ : Disjoint own (dead rsp0 depth c.user)) :
    Same own rsp0 depth (runEvents handler returnAddr rsp0 (events.filterMap Event.instr?) c)
      (runEvents handler returnAddr rsp0 events c) := by
  suffices hgen : ∀ c c', Same own rsp0 depth c c' → Disjoint own (dead rsp0 depth c.user) →
      Same own rsp0 depth (runEvents handler returnAddr rsp0 (events.filterMap Event.instr?) c)
        (runEvents handler returnAddr rsp0 events c') from hgen c c ⟨rfl, fun _ _ _ => rfl⟩ happ
  clear happ
  induction events with
  | nil => exact fun c c' h _ => h
  | cons e events ih =>
    intro c c' h happ
    have ih' := ih fun f hf => hinstr f (List.mem_cons_of_mem _ hf)
    cases e with
    | instr f =>
      obtain ⟨hsame, hroom⟩ := hinstr f List.mem_cons_self
      rw [List.filterMap_cons_some (by rfl : Event.instr? (.instr f) = some (.instr f))]
      exact ih' _ _ (hsame c c' h) (hroom c happ)
    | interrupt n error =>
      rw [List.filterMap_cons_none (by rfl)]
      exact ih' _ _ (h.interrupt hok hdepth happ n error) happ

/-! ## A handler that counts -/

/-- A handler that only counts, in the word at 0x100. -/
def counter (m : Machine Reg) : Machine Reg :=
  { m with rsp := m.rsp + 8, mem := Function.update m.mem 0x100 (m.mem 0x100 + 1) }

theorem counter_ok : HandlerOk counter 0x4000 {0x100} 0 where
  keeps m l _ hown htop := by
    refine Holds.update htop.2 fun i hi h => hown i hi ?_
    exact Set.mem_singleton_iff.mpr h.symm
  frame m a hown _ := Function.update_of_ne hown ..

/-- User mode, with 7 in `rax`. -/
def someCpu : Cpu := ⟨userOf 7, fun _ => 0⟩

theorem someCpu_apart : Disjoint {0x100} (dead 0x9000 0 someCpu.user) := by
  rw [Set.disjoint_singleton_left]
  rintro ⟨_, h⟩
  exact absurd h (by decide)

theorem interrupt_transparent_counter : (interrupt counter 0x4000 0x9000 32 0 someCpu).user =
    userOf 7 :=
  (interrupt_transparent counter_ok (by decide) 32 0 0x9000 someCpu someCpu_apart).2.1

/-- `incq %rax`. -/
def incRax (c : Cpu) : Cpu :=
  { c with user := { c.user with regs := Function.update c.user.regs .rax (c.user.regs .rax + 1) } }

theorem incRax_respects : Respects {0x100} 0x9000 0 incRax where
  same c c' h := by
    refine ⟨?_, fun a hown hdead => h.mem a hown hdead⟩
    unfold incRax
    simp only
    rw [h.user]
  room c h := h

theorem interrupted_run_counter :
    (runEvents counter 0x4000 0x9000 [.instr incRax, .interrupt 32 0,
      .instr incRax] someCpu).user.regs .rax = 9 := by
  have hrun := interrupted_run counter_ok (by decide) 0x9000 [.instr incRax,
    .interrupt 32 0, .instr incRax] (by
      intro f hf
      simp only [List.mem_cons, Event.instr.injEq, List.not_mem_nil, or_false, reduceCtorEq,
        false_or] at hf
      rcases hf with rfl | rfl <;> exact incRax_respects) someCpu someCpu_apart
  rw [hrun.user]
  rfl

end Interrupts

end AuOs
