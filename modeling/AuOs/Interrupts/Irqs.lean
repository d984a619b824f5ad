import Mathlib
import AuOs.Interrupts.Pic
import AuOs.Lib.CallSystem

/-!
# Interrupt requests, from the device to the handler

The dispatch of `ints.c`, and every run of devices that raise lines, of the CPU that takes
interrupts, and of the kernel that masks, unmasks and acknowledges them.

* `intHandler` — `__int_handler`, `call_error_handler` and `call_irq_handler`, up to `pic_ack`.
* `irqCalls` — the runs.  Interrupts are off from the interrupt to `iretq`.
* `Controller` — what the driver is for: one controller with fixed priorities.
* `inta_spec` — **both chips together name the first request** in the order of `priority`.
* `irqs_refine` — the driver and the chips refine the controller in every run: no request is lost,
  none is delivered while it is masked, and none to a handler that is not there.
-/

set_option autoImplicit false

namespace AuOs

namespace Pic

def ERRORS : Nat := 32

def IRQS : Nat := 16

def IDT_SYSCALL : Nat := 0x80

/-! ## The dispatch -/

/-- What the CPU does: it runs with interrupts on, or has entered `call_irq_handler`, or runs the
handler of a request, or that of an exception. -/
inductive Phase where
  | running
  | entered (irq : Nat)
  | handling (irq : Nat)
  | exception (error : Nat)
  deriving DecidableEq, Repr

/-- The elements of `error_handler` and `irq_handler` that are not null. -/
structure Handlers where
  error : Nat → Bool
  irq : Nat → Bool

/-- `call_error_handler`.  `unexpected_interrupt` never returns. -/
def callErrorHandler (h : Handlers) (error : Nat) : Res Phase :=
  if error ≥ ERRORS then .error .fault
  else if h.error error then .ok (.exception error)
  else .error .hang

/-- `call_irq_handler`, up to `pic_ack`. -/
def callIrqHandler (h : Handlers) (irq : Nat) : Res Phase :=
  if h.irq irq then .ok (.entered irq) else .error .hang

/-- `__int_handler`. -/
def intHandler (h : Handlers) (intno : Nat) : Res Phase :=
  if intno = IDT_SYSCALL ∨ intno < ERRORS then callErrorHandler h intno
  else if intno < ERRORS + IRQS then callIrqHandler h (intno - ERRORS)
  else .error .hang

/-! ## Runs -/

structure System where
  pics : Pics
  phase : Phase

inductive IrqCall where
  | raise (irq : Nat)
  | interrupt
  | ack
  | enable
  | mask (irq : Nat)
  | unmask (irq : Nat)

/-- A line that a device can have: line 2 is taken by the slave. -/
def IsLine (irq : Nat) : Prop := irq < IRQS ∧ irq ≠ PIC_SLAVE_IRQ

instance (irq : Nat) : Decidable (IsLine irq) := inferInstanceAs (Decidable (_ ∧ _))

/-- The kernel's own code runs: with interrupts on, or in a handler. -/
def Phase.Kernel (phase : Phase) : Prop := phase = .running ∨ ∃ irq, phase = .handling irq

/-- Devices raise lines at any time.  The CPU takes an interrupt when interrupts are on; then
`call_irq_handler` acknowledges it and runs the handler, and interrupts are turned on by `iretq`, or
in a thread that the handler switched to.  The kernel masks and unmasks lines, and a line is
unmasked only if there is a handler for it. -/
def irqCalls (h : Handlers) : CallSystem System IrqCall Stop where
  legal s
    | .raise irq => IsLine irq
    | .interrupt => s.phase = .running
    | .ack => ∃ irq, s.phase = .entered irq
    | .enable => ∃ irq, s.phase = .handling irq
    | .mask irq => s.phase.Kernel ∧ IsLine irq
    | .unmask irq => s.phase.Kernel ∧ IsLine irq ∧ h.irq irq = true
  exec s
    | .raise irq => .ok { s with pics := s.pics.raise irq }
    | .interrupt =>
      match s.pics.inta with
      | none => .ok s
      | some (pics, intno) => do
        let phase ← intHandler h intno
        return ⟨pics, phase⟩
    | .ack =>
      match s.phase with
      | .entered irq => .ok ⟨picAck irq s.pics, .handling irq⟩
      | _ => .error .fault
    | .enable => .ok { s with phase := .running }
    | .mask irq => .ok { s with pics := picMask irq s.pics }
    | .unmask irq => .ok { s with pics := picUnmask irq s.pics }

/-- The machine after `pic_setup`, with `pic_irq_mask` as it was initialised. -/
def System.start (master slave : Chip) : System :=
  ⟨picSetup 32 ⟨master, slave, initialMask⟩, .running⟩

/-! ## What the driver is for -/

/-- One controller for all lines. -/
structure Controller where
  pending : Nat → Bool
  masked : Nat → Bool
  phase : Phase

/-- The lines by their priority. -/
def priority : List Nat := [0, 1] ++ [8, 9, 10, 11, 12, 13, 14, 15] ++ [3, 4, 5, 6, 7]

namespace Controller

/-- The first line with a request that is not masked. -/
def first (c : Controller) : Option Nat := priority.find? fun irq => c.pending irq && !c.masked irq

/-- The effect of a call. -/
def step (c : Controller) : IrqCall → Controller
  | .raise irq => { c with pending := Function.update c.pending irq true }
  | .interrupt =>
    match c.first with
    | none => c
    | some irq => { c with pending := Function.update c.pending irq false, phase := .entered irq }
  | .ack =>
    match c.phase with
    | .entered irq => { c with phase := .handling irq }
    | _ => c
  | .enable => { c with phase := .running }
  | .mask irq => { c with masked := Function.update c.masked irq true }
  | .unmask irq => { c with masked := Function.update c.masked irq false }

end Controller

/-- The request of a line. -/
def Pics.pending (p : Pics) (irq : Nat) : Bool :=
  decide (IsLine irq) && if irq < 8 then p.master.irr.getLsbD irq else p.slave.irr.getLsbD (irq - 8)

/-- A bit of `pic_irq_mask`. -/
def Pics.masked (p : Pics) (irq : Nat) : Bool := decide (IsLine irq) && p.irqMask.getLsbD irq

/-- The controller that the driver and the chips make up. -/
def System.controller (s : System) : Controller := ⟨s.pics.pending, s.pics.masked, s.phase⟩

/-! ## The invariant -/

/-- The interrupts in service. -/
def Phase.service : Phase → BitVec 8 × BitVec 8
  | .entered irq => if irq < 8 then (bit irq, 0) else (bit PIC_SLAVE_IRQ, bit (irq - 8))
  | _ => (0, 0)

/-- The chips are set up, their masks are those of the driver, and the line of the slave is open.
An interrupt is in service only until it is acknowledged. -/
structure System.Ok (h : Handlers) (s : System) : Prop where
  master : s.pics.master = ⟨s.pics.master.irr, s.phase.service.1, s.pics.irqMask.setWidth 8, 32,
    bit PIC_SLAVE_IRQ, .ready⟩
  slave : s.pics.slave = ⟨s.pics.slave.irr, s.phase.service.2,
    (s.pics.irqMask >>> 8).setWidth 8, 40, BitVec.ofNat 8 PIC_SLAVE_IRQ, .ready⟩
  open_ : s.pics.irqMask.getLsbD PIC_SLAVE_IRQ = false
  handled : ∀ irq, IsLine irq → s.pics.irqMask.getLsbD irq = false → h.irq irq = true
  line : ∀ irq, s.phase = .entered irq → IsLine irq

variable {h : Handlers} {s : System} {p : Pics} {i j irq : Nat}

/-- The interrupt of a line is taken, by one chip or by both. -/
def Pics.takeLine (p : Pics) (irq : Nat) : Pics :=
  if irq < 8 then { p with master := p.master.take irq }
  else { p with master := p.master.take PIC_SLAVE_IRQ, slave := p.slave.take (irq - 8) }

/-- The request of a line that is not masked. -/
def Pics.wants (p : Pics) (irq : Nat) : Bool := p.pending irq && !p.masked irq

theorem mem_range8 {i : Nat} {f : Nat → Bool} (h : (List.range 8).find? f = some i) :
    i < 8 ∧ f i = true :=
  ⟨List.mem_range.mp (List.mem_of_find?_eq_some h), List.find?_some h⟩

/-- A line of the master, seen by the master. -/
theorem System.Ok.master_wants (hs : s.Ok h) (hi : i < 8) (h2 : i ≠ 2) :
    (s.pics.lines.getLsbD i && !s.pics.master.imr.getLsbD i) = s.pics.wants i := by
  have hline : IsLine i := ⟨by unfold IRQS; omega, h2⟩
  have hlines : s.pics.lines.getLsbD i = s.pics.master.irr.getLsbD i := by
    have hbit : (bit PIC_SLAVE_IRQ).getLsbD i = false := by
      rw [bit_getLsbD (by decide)]
      exact decide_eq_false h2
    unfold Pics.lines
    split
    · rw [BitVec.getLsbD_or, hbit, Bool.or_false]
    · rw [BitVec.getLsbD_and, BitVec.getLsbD_not, hbit, decide_eq_true hi]
      exact Bool.and_true _
  have himr : s.pics.master.imr.getLsbD i = s.pics.irqMask.getLsbD i := by
    rw [hs.master]
    simp [hi]
  unfold Pics.wants Pics.pending Pics.masked
  rw [hlines, himr, decide_eq_true hline, if_pos hi, Bool.true_and, Bool.true_and]

/-- A line of the slave, seen by the slave. -/
theorem System.Ok.slave_wants (hs : s.Ok h) (hj : j < 8) :
    (s.pics.slave.irr.getLsbD j && !s.pics.slave.imr.getLsbD j) = s.pics.wants (j + 8) := by
  have hline : IsLine (j + 8) := ⟨by unfold IRQS; omega, by unfold PIC_SLAVE_IRQ; omega⟩
  have himr : s.pics.slave.imr.getLsbD j = s.pics.irqMask.getLsbD (j + 8) := by
    rw [hs.slave]
    simp [hj, Nat.add_comm]
  unfold Pics.wants Pics.pending Pics.masked
  rw [himr, decide_eq_true hline, if_neg (by omega), Nat.add_sub_cancel,
    Bool.true_and, Bool.true_and]

/-- What the slave passes on. -/
theorem System.Ok.slave_request (hs : s.Ok h) (hrun : s.phase = .running) :
    [8, 9, 10, 11, 12, 13, 14, 15].find? s.pics.wants =
      (s.pics.slave.request s.pics.slave.irr).map (· + 8) := by
  have hisr : s.pics.slave.isr = 0 := by
    rw [hs.slave, hrun]
    rfl
  rw [request_idle hisr, show [8, 9, 10, 11, 12, 13, 14, 15] = (List.range 8).map (· + 8) from rfl,
    List.find?_map]
  congr 1
  apply List.find?_congr
  intro j hj
  exact (hs.slave_wants (List.mem_range.mp hj)).symm

/-- What the master passes on. -/
theorem System.Ok.master_request (hs : s.Ok h) (hrun : s.phase = .running) :
    s.pics.master.request s.pics.lines =
      (([0, 1].find? s.pics.wants).or
        ((if (s.pics.slave.request s.pics.slave.irr).isSome then some 2 else none).or
          ([3, 4, 5, 6, 7].find? s.pics.wants))) := by
  have hisr : s.pics.master.isr = 0 := by
    rw [hs.master, hrun]
    rfl
  have hcongr : ∀ l : List Nat, (∀ i ∈ l, i < 8 ∧ i ≠ 2) →
      l.find? (fun i => s.pics.lines.getLsbD i && !s.pics.master.imr.getLsbD i) =
          l.find? s.pics.wants := by
    intro l hl
    apply List.find?_congr
    intro i hi
    exact hs.master_wants (hl i hi).1 (hl i hi).2
  have h2 : (s.pics.lines.getLsbD 2 && !s.pics.master.imr.getLsbD 2) =
      (s.pics.slave.request s.pics.slave.irr).isSome := by
    have himr : s.pics.master.imr.getLsbD 2 = false := by
      rw [hs.master]
      show (s.pics.irqMask.setWidth 8).getLsbD PIC_SLAVE_IRQ = false
      rw [BitVec.getLsbD_setWidth, hs.open_, Bool.and_false]
    have hbit : (bit PIC_SLAVE_IRQ).getLsbD 2 = true := by decide
    rw [himr, Bool.not_false, Bool.and_true]
    unfold Pics.lines
    split <;> rename_i hreq
    · rw [BitVec.getLsbD_or, hbit, Bool.or_true, hreq]
    · rw [BitVec.getLsbD_and, BitVec.getLsbD_not, hbit, Bool.eq_false_iff.mpr hreq]
      simp
  have hfind : [2].find? (fun i => s.pics.lines.getLsbD i && !s.pics.master.imr.getLsbD i) =
      if (s.pics.slave.request s.pics.slave.irr).isSome then some 2 else none := by
    rw [List.find?_cons, h2]
    cases (s.pics.slave.request s.pics.slave.irr).isSome <;> rfl
  rw [request_idle hisr, show List.range 8 = [0, 1] ++ ([2] ++ [3, 4, 5, 6, 7]) from rfl,
    List.find?_append,
    List.find?_append, hcongr [0, 1] (by decide), hcongr [3, 4, 5, 6, 7] (by decide), hfind]

/-- **Both chips together name the first request** that is not masked. -/
theorem inta_spec (hs : s.Ok h) (hrun : s.phase = .running) :
    s.pics.inta = (priority.find? s.pics.wants).map fun irq => (s.pics.takeLine irq, 32 + irq) := by
  have hslave := hs.slave_request hrun
  have hcascade : ∀ i < 8, s.pics.master.cascade.getLsbD i = decide (i = 2) := by
    intro i hi
    rw [hs.master]
    exact bit_getLsbD (by decide)
  have hid : s.pics.slave.cascade.toNat = 2 := by
    rw [hs.slave]
    rfl
  have hmaster : ∀ i < 8, i ≠ 2 → s.pics.master.request s.pics.lines = some i →
      s.pics.inta = some (s.pics.takeLine i, 32 + i) := by
    intro i hi h2 hreq
    have hoffset : s.pics.master.offset.toNat = 32 := by
      rw [hs.master]
      rfl
    unfold Pics.inta Pics.takeLine Chip.vector
    rw [hreq, Option.bind_some, hcascade i hi, if_neg (by simp [h2]), if_pos hi, hoffset]
  unfold priority
  rw [List.find?_append, List.find?_append]
  have hreq := hs.master_request hrun
  cases h01 : [0, 1].find? s.pics.wants with
  | some i =>
    have hi := List.mem_of_find?_eq_some h01
    rw [h01, Option.some_or] at hreq
    rw [Option.some_or, Option.some_or, Option.map_some]
    simp only [List.mem_cons, List.not_mem_nil, or_false] at hi
    exact hmaster i (by omega) (by omega) hreq
  | none =>
    rw [h01, Option.none_or] at hreq
    rw [Option.none_or]
    cases hj : s.pics.slave.request s.pics.slave.irr with
    | some j =>
      have hj8 : j < 8 := by
        rw [request_idle (by rw [hs.slave, hrun]; rfl)] at hj
        exact (mem_range8 hj).1
      rw [hj, Option.map_some] at hslave
      rw [hj, Option.isSome_some, if_pos rfl, Option.some_or] at hreq
      rw [hslave, Option.some_or, Option.map_some]
      have hoffset : s.pics.slave.offset.toNat = 40 := by
        rw [hs.slave]
        rfl
      unfold Pics.inta Pics.takeLine Chip.vector
      rw [hreq, Option.bind_some, hcascade 2 (by decide), if_pos ⟨rfl, hid⟩, hj, Option.map_some,
        if_neg (by omega), hoffset, Nat.add_sub_cancel]
      congr 2
      omega
    | none =>
      rw [hj, Option.map_none] at hslave
      rw [hj, if_neg (by simp), Option.none_or] at hreq
      rw [hslave, Option.none_or]
      cases h37 : [3, 4, 5, 6, 7].find? s.pics.wants with
      | some i =>
        have hi := List.mem_of_find?_eq_some h37
        rw [h37] at hreq
        rw [Option.map_some]
        simp only [List.mem_cons, List.not_mem_nil, or_false] at hi
        exact hmaster i (by omega) (by omega) hreq
      | none =>
        rw [h37] at hreq
        unfold Pics.inta
        rw [hreq]
        rfl

/-! ## What a call does to the requests and the masks -/

theorem bit_update (v : BitVec 8) {i j : Nat} (hi : i < 8) :
    (v ||| bit i).getLsbD j = (v.getLsbD j || decide (j = i)) ∧
      (j < 8 → (v &&& ~~~bit i).getLsbD j = (v.getLsbD j && !decide (j = i))) := by
  refine ⟨by rw [BitVec.getLsbD_or, bit_getLsbD hi], fun hj => ?_⟩
  rw [BitVec.getLsbD_and, BitVec.getLsbD_not, bit_getLsbD hi, decide_eq_true hj, Bool.true_and]

theorem pending_raise (p : Pics) (hirq : IsLine irq) :
    (p.raise irq).pending = Function.update p.pending irq true := by
  obtain ⟨h16, h2⟩ := hirq
  unfold IRQS at h16
  funext j
  rw [Function.update_apply]
  by_cases hj : IsLine j
  · obtain ⟨hj16, -⟩ := id hj
    unfold IRQS at hj16
    unfold Pics.pending Pics.raise PIC_IRQS
    rw [decide_eq_true hj, Bool.true_and, Bool.true_and]
    by_cases hi8 : irq < 8 <;> by_cases hj8 : j < 8
    · rw [if_pos hi8, if_pos hj8, if_pos hj8, (bit_update _ hi8).1]
      by_cases hji : j = irq <;> simp [hji]
    · rw [if_pos hi8, if_neg hj8, if_neg hj8, if_neg (by omega)]
    · rw [if_neg hi8, if_pos hj8, if_pos hj8, if_neg (by omega)]
    · rw [if_neg hi8, if_neg hj8, if_neg hj8, (bit_update _ (by omega)).1]
      by_cases hji : j = irq
      · simp [hji]
      · rw [decide_eq_false (by omega), Bool.or_false, if_neg hji]
  · have hji : j ≠ irq := fun h => hj (h ▸ ⟨h16, h2⟩)
    unfold Pics.pending
    rw [decide_eq_false hj, Bool.false_and, Bool.false_and, if_neg hji]

theorem pending_takeLine (p : Pics) (hirq : IsLine irq) :
    (p.takeLine irq).pending = Function.update p.pending irq false := by
  obtain ⟨h16, h2⟩ := hirq
  unfold IRQS at h16
  funext j
  rw [Function.update_apply]
  by_cases hj : IsLine j
  · obtain ⟨hj16, hj2⟩ := id hj
    unfold IRQS at hj16
    unfold Pics.pending Pics.takeLine Chip.take
    rw [decide_eq_true hj, Bool.true_and, Bool.true_and]
    by_cases hi8 : irq < 8 <;> by_cases hj8 : j < 8
    · rw [if_pos hi8, if_pos hj8, if_pos hj8, (bit_update _ hi8).2 hj8]
      by_cases hji : j = irq <;> simp [hji]
    · rw [if_pos hi8, if_neg hj8, if_neg hj8, if_neg (by omega)]
    · rw [if_neg hi8, if_pos hj8, if_pos hj8, if_neg (by omega), (bit_update _ (by decide)).2 hj8,
        decide_eq_false hj2, Bool.not_false, Bool.and_true]
    · rw [if_neg hi8, if_neg hj8, if_neg hj8, (bit_update _ (by omega)).2 (by omega)]
      by_cases hji : j = irq
      · simp [hji]
      · rw [decide_eq_false (by omega), Bool.not_false, Bool.and_true, if_neg hji]
  · have hji : j ≠ irq := fun h => hj (h ▸ ⟨h16, h2⟩)
    unfold Pics.pending
    rw [decide_eq_false hj, Bool.false_and, Bool.false_and, if_neg hji]

theorem maskBit (m : BitVec 32) {i j : Nat} (hi : i < 32) (hj : j < 32) :
    (m ||| 1#32 <<< i).getLsbD j = (m.getLsbD j || decide (j = i)) ∧
      (m &&& ~~~(1#32 <<< i)).getLsbD j = (m.getLsbD j && !decide (j = i)) := by
  have hbit : (1#32 <<< i).getLsbD j = decide (j = i) := by
    have h : ∀ i < 32, ∀ j < 32, (1#32 <<< i).getLsbD j = decide (j = i) := by decide
    exact h i hi j hj
  refine ⟨by rw [BitVec.getLsbD_or, hbit], ?_⟩
  rw [BitVec.getLsbD_and, BitVec.getLsbD_not, hbit, decide_eq_true hj, Bool.true_and]

/-- A mask that is changed at one line, written to the chip of that line. -/
theorem System.Ok.writeMask {m : BitVec 32} (hs : s.Ok h) (hirq : IsLine irq)
    (hm : ∀ j < 32, j ≠ irq → m.getLsbD j = s.pics.irqMask.getLsbD j)
    (hh : m.getLsbD irq = false → h.irq irq = true) :
    System.Ok h ⟨Pic.writeMask irq { s.pics with irqMask := m }, s.phase⟩ ∧
      (Pic.writeMask irq { s.pics with irqMask := m }).pending = s.pics.pending ∧
      (Pic.writeMask irq { s.pics with irqMask := m }).irqMask = m := by
  obtain ⟨h16, h2⟩ := id hirq
  unfold IRQS at h16
  have hopen : m.getLsbD PIC_SLAVE_IRQ = false := by
    rw [hm _ (by decide) (Ne.symm h2)]
    exact hs.open_
  have hhandled : ∀ i, IsLine i → m.getLsbD i = false → h.irq i = true := by
    intro i hi hmi
    by_cases hii : i = irq
    · exact hii ▸ hh (hii ▸ hmi)
    · rw [hm i (hi.1.trans (by decide)) hii] at hmi
      exact hs.handled i hi hmi
  unfold Pic.writeMask
  by_cases hi8 : irq < 8
  · have hslave : (s.pics.irqMask >>> 8).setWidth 8 = (m >>> 8).setWidth 8 := by
      apply BitVec.eq_of_getLsbD_eq
      intro j hj
      rw [BitVec.getLsbD_setWidth, BitVec.getLsbD_setWidth, BitVec.getLsbD_ushiftRight,
        BitVec.getLsbD_ushiftRight, hm (8 + j) (by omega) (by omega)]
    have hdata : s.pics.master.data (m.setWidth 8) =
        { s.pics.master with imr := m.setWidth 8 } := by
      rw [hs.master]
      rfl
    rw [if_pos hi8]
    show System.Ok h ⟨{ s.pics with
      master := s.pics.master.data (m.setWidth 8), irqMask := m }, s.phase⟩ ∧ _
    refine ⟨⟨?_, ?_, hopen, hhandled, hs.line⟩, ?_, rfl⟩
    · show s.pics.master.data (m.setWidth 8) = _
      rw [hdata, hs.master]
    · show s.pics.slave = _
      rw [← hslave]
      exact hs.slave
    · show Pics.pending { s.pics with
        master := s.pics.master.data (m.setWidth 8), irqMask := m } = _
      rw [hdata]
      rfl
  · have hmaster : s.pics.irqMask.setWidth 8 = m.setWidth 8 := by
      apply BitVec.eq_of_getLsbD_eq
      intro j hj
      rw [BitVec.getLsbD_setWidth, BitVec.getLsbD_setWidth, hm j (by omega) (by omega)]
    have hdata : s.pics.slave.data ((m >>> 8).setWidth 8) =
        { s.pics.slave with imr := (m >>> 8).setWidth 8 } := by
      rw [hs.slave]
      rfl
    rw [if_neg hi8]
    show System.Ok h ⟨{ s.pics with
      slave := s.pics.slave.data ((m >>> 8).setWidth 8), irqMask := m }, s.phase⟩ ∧ _
    refine ⟨⟨?_, ?_, hopen, hhandled, hs.line⟩, ?_, rfl⟩
    · show s.pics.master = _
      rw [← hmaster]
      exact hs.master
    · show s.pics.slave.data ((m >>> 8).setWidth 8) = _
      rw [hdata, hs.slave]
    · show Pics.pending { s.pics with
        slave := s.pics.slave.data ((m >>> 8).setWidth 8), irqMask := m } = _
      rw [hdata]
      rfl

/-! ## Every call is a step of the controller -/

/-- The call returns, keeps the invariant, and is a step of the controller. -/
def Follows (h : Handlers) (s : System) (c : IrqCall) : Prop :=
  ∃ s', (irqCalls h).exec s c = .ok s' ∧ System.Ok h s' ∧ s'.controller = s.controller.step c

/-- The chips are idle unless an interrupt was just taken. -/
theorem System.Ok.congr_phase {phase : Phase} (hs : s.Ok h)
    (hservice : phase.service = s.phase.service)
    (hline : ∀ irq, phase = .entered irq → IsLine irq) : System.Ok h ⟨s.pics, phase⟩ := by
  refine ⟨?_, ?_, hs.open_, hs.handled, hline⟩
  · rw [hservice]
    exact hs.master
  · rw [hservice]
    exact hs.slave

theorem follows_raise (hs : s.Ok h) (hirq : IsLine irq) : Follows h s (.raise irq) := by
  refine ⟨_, rfl, ?_, ?_⟩
  · unfold Pics.raise
    split
    · exact ⟨by rw [hs.master], hs.slave, hs.open_, hs.handled, hs.line⟩
    · exact ⟨hs.master, by rw [hs.slave], hs.open_, hs.handled, hs.line⟩
  · have hmask : (s.pics.raise irq).masked = s.pics.masked := by
      unfold Pics.raise
      split <;> rfl
    unfold System.controller Controller.step
    rw [pending_raise s.pics hirq, hmask]

/-- The interrupt of a line that has a handler. -/
theorem intHandler_irq (hirq : IsLine irq) (hh : h.irq irq = true) :
    intHandler h (32 + irq) = .ok (.entered irq) := by
  have h16 := hirq.1
  unfold IRQS at h16
  unfold intHandler callIrqHandler ERRORS IRQS IDT_SYSCALL
  rw [if_neg (by omega), if_pos (by omega), Nat.add_sub_cancel_left, if_pos hh]

/-- Taking the interrupt of a line puts it in service. -/
theorem System.Ok.takeLine (hs : s.Ok h) (hrun : s.phase = .running) (hirq : IsLine irq) :
    System.Ok h ⟨s.pics.takeLine irq, .entered irq⟩ := by
  have hservice : s.phase.service = (0, 0) := by
    rw [hrun]
    rfl
  have hmaster := hs.master
  have hslave := hs.slave
  rw [hservice] at hmaster hslave
  have hline : ∀ i, Phase.entered irq = .entered i → IsLine i := by
    rintro i ⟨⟩
    exact hirq
  unfold Pics.takeLine Chip.take
  split <;> rename_i hi8
  · refine ⟨?_, ?_, hs.open_, hs.handled, hline⟩
    · rw [hmaster]
      simp [Phase.service, hi8]
    · rw [hslave]
      simp [Phase.service, hi8]
  · refine ⟨?_, ?_, hs.open_, hs.handled, hline⟩
    · rw [hmaster]
      simp [Phase.service, hi8]
    · rw [hslave]
      simp [Phase.service, hi8]

theorem follows_interrupt (hs : s.Ok h) (hrun : s.phase = .running) : Follows h s .interrupt := by
  have hinta := inta_spec hs hrun
  have hstep : s.controller.step .interrupt = match priority.find? s.pics.wants with
    | none => s.controller
    | some irq => ⟨Function.update s.pics.pending irq false, s.pics.masked, .entered irq⟩ := rfl
  unfold Follows
  rw [hstep]
  simp only [irqCalls]
  cases hfirst : priority.find? s.pics.wants with
  | none =>
    rw [hfirst, Option.map_none] at hinta
    rw [hinta]
    exact ⟨s, rfl, hs, rfl⟩
  | some irq =>
    rw [hfirst, Option.map_some] at hinta
    have hwants := List.find?_some hfirst
    unfold Pics.wants Pics.pending Pics.masked at hwants
    simp only [Bool.and_eq_true, Bool.not_eq_true', Bool.and_eq_false_iff, decide_eq_true_eq,
      decide_eq_false_iff_not] at hwants
    obtain ⟨⟨hirq, -⟩, hmask⟩ := hwants
    have hh : h.irq irq = true := hs.handled irq hirq (hmask.resolve_left (not_not.mpr hirq))
    have hmasked : (s.pics.takeLine irq).masked = s.pics.masked := by
      unfold Pics.takeLine
      split <;> rfl
    rw [hinta]
    simp only [intHandler_irq hirq hh]
    refine ⟨_, rfl, hs.takeLine hrun hirq, ?_⟩
    unfold System.controller
    rw [pending_takeLine s.pics hirq, hmasked]

theorem follows_ack (hs : s.Ok h) (hphase : s.phase = .entered irq) : Follows h s .ack := by
  have hirq := hs.line irq hphase
  obtain ⟨h16, -⟩ := id hirq
  unfold IRQS at h16
  have hmaster := hs.master
  have hslave := hs.slave
  rw [hphase] at hmaster hslave
  have hno : ∀ i, Phase.handling irq = .entered i → IsLine i := nofun
  refine ⟨⟨picAck irq s.pics, .handling irq⟩, ?_, ?_, ?_⟩
  · simp only [irqCalls]
    rw [hphase]
  · by_cases hi8 : irq < 8
    · rw [picAck_master _ hi8]
      refine ⟨?_, ?_, hs.open_, hs.handled, hno⟩
      · rw [hmaster]
        simp [Phase.service, hi8]
      · rw [hslave]
        simp [Phase.service, hi8]
    · rw [picAck_slave _ (by omega) h16]
      refine ⟨?_, ?_, hs.open_, hs.handled, hno⟩
      · rw [hmaster]
        simp [Phase.service, hi8]
      · rw [hslave]
        simp [Phase.service, hi8]
  · have hpics : (picAck irq s.pics).pending = s.pics.pending ∧
      (picAck irq s.pics).masked = s.pics.masked := by
      by_cases hi8 : irq < 8
      · rw [picAck_master _ hi8]
        exact ⟨rfl, rfl⟩
      · rw [picAck_slave _ (by omega) h16]
        exact ⟨rfl, rfl⟩
    unfold System.controller Controller.step
    rw [hphase, hpics.1, hpics.2]

theorem follows_enable (hs : s.Ok h) (hphase : s.phase = .handling irq) : Follows h s .enable := by
  refine ⟨_, rfl, hs.congr_phase ?_ nofun, rfl⟩
  rw [hphase]
  rfl

theorem masked_update {m : BitVec 32} {b : Bool} (hirq : IsLine irq)
    (hm : ∀ j < 32, m.getLsbD j = if j = irq then b else p.irqMask.getLsbD j) :
    Pics.masked { p with irqMask := m } = Function.update p.masked irq b := by
  funext j
  rw [Function.update_apply]
  unfold Pics.masked
  by_cases hj : IsLine j
  · rw [decide_eq_true hj, Bool.true_and, Bool.true_and, hm j (hj.1.trans (by decide))]
  · have hji : j ≠ irq := fun h => hj (h ▸ hirq)
    rw [decide_eq_false hj, Bool.false_and, Bool.false_and, if_neg hji]

/-- `pic_mask` and `pic_unmask`. -/
theorem follows_writeMask {m : BitVec 32} {b : Bool} (hs : s.Ok h) (hirq : IsLine irq)
    (hm : ∀ j < 32, m.getLsbD j = if j = irq then b else s.pics.irqMask.getLsbD j)
    (hh : b = false → h.irq irq = true) :
    System.Ok h ⟨writeMask irq { s.pics with irqMask := m }, s.phase⟩ ∧
      System.controller ⟨writeMask irq { s.pics with irqMask := m }, s.phase⟩ =
        { s.controller with masked := Function.update s.controller.masked irq b } := by
  have h32 : irq < 32 := hirq.1.trans (by decide)
  obtain ⟨hok, hpending, hmask⟩ := hs.writeMask hirq (m := m)
    (fun j hj hji => by rw [hm j hj, if_neg hji])
    (fun hb => hh (by rw [hm irq h32, if_pos rfl] at hb; exact hb))
  refine ⟨hok, ?_⟩
  have hmasked : (writeMask irq { s.pics with irqMask := m }).masked =
      Function.update s.pics.masked irq b := by
    rw [← masked_update hirq hm]
    unfold Pics.masked
    rw [hmask]
  unfold System.controller
  rw [hpending, hmasked]

theorem follows_mask (hs : s.Ok h) (hirq : IsLine irq) : Follows h s (.mask irq) := by
  have h32 : irq < 32 := hirq.1.trans (by decide)
  obtain ⟨hok, hstep⟩ := follows_writeMask (m := s.pics.irqMask ||| 1#32 <<< irq)
    (b := true) hs hirq (fun j hj => by
      rw [(maskBit _ h32 hj).1]
      by_cases hji : j = irq <;> simp [hji]) nofun
  exact ⟨_, rfl, hok, hstep⟩

theorem follows_unmask (hs : s.Ok h) (hirq : IsLine irq) (hh : h.irq irq = true) :
    Follows h s (.unmask irq) := by
  have h32 : irq < 32 := hirq.1.trans (by decide)
  obtain ⟨hok, hstep⟩ := follows_writeMask (m := s.pics.irqMask &&& ~~~(1#32 <<< irq))
    (b := false) hs hirq (fun j hj => by
      rw [(maskBit _ h32 hj).2]
      by_cases hji : j = irq <;> simp [hji]) fun _ => hh
  exact ⟨_, rfl, hok, hstep⟩

/-- **Every legal call** follows the controller. -/
theorem follows {c : IrqCall} (hs : s.Ok h) (hc : (irqCalls h).legal s c) : Follows h s c := by
  cases c with
  | raise irq => exact follows_raise hs hc
  | interrupt => exact follows_interrupt hs hc
  | ack =>
    obtain ⟨irq, hphase⟩ := hc
    exact follows_ack hs hphase
  | enable =>
    obtain ⟨irq, hphase⟩ := hc
    exact follows_enable hs hphase
  | mask irq => exact follows_mask hs hc.2
  | unmask irq => exact follows_unmask hs hc.2.1 hc.2.2

/-! ## Whole runs -/

theorem ok_start (h : Handlers) (master slave : Chip) : (System.start master slave).Ok h := by
  unfold System.start
  rw [picSetup_spec]
  refine ⟨rfl, rfl, show initialMask.getLsbD PIC_SLAVE_IRQ = false by decide, ?_, nofun⟩
  have hmask : ∀ irq < 16, irq ≠ 2 → initialMask.getLsbD irq = true := by decide
  intro irq hirq h0
  rw [hmask irq hirq.1 hirq.2] at h0
  exact absurd h0 (by decide)

/-- At the start there is no request, and every line is masked. -/
theorem start_controller (master slave : Chip) :
    (System.start master slave).controller = ⟨fun _ => false, fun irq => decide (IsLine irq),
      .running⟩ := by
  have hmask : ∀ irq < 16, irq ≠ 2 → initialMask.getLsbD irq = true := by decide
  unfold System.start System.controller
  rw [picSetup_spec]
  congr 1
  · funext irq
    unfold Pics.pending
    simp
  · funext irq
    unfold Pics.masked
    by_cases hirq : IsLine irq
    · rw [decide_eq_true hirq, Bool.true_and]
      exact hmask irq hirq.1 hirq.2
    · rw [decide_eq_false hirq, Bool.false_and]

theorem irqs_keeps (h : Handlers) : (irqCalls h).Keeps (fun _ => False) (System.Ok h) := by
  intro s c hs hc
  obtain ⟨s', hexec, hs', -⟩ := follows hs hc
  rw [hexec]
  exact hs'

/-- **The driver and the chips refine one controller** with fixed priorities, in every run: the
start is that of a controller with no request and every line masked, each legal call returns, and it
is that step of the controller. -/
theorem irqs_refine (h : Handlers) (master slave : Chip) {c : IrqCall}
    (hrun : (irqCalls h).Run (System.start master slave) s) (hc : (irqCalls h).legal s c) :
    (System.start master slave).controller = ⟨fun _ => false,
      fun irq => decide (IsLine irq), .running⟩ ∧
      ∃ s', (irqCalls h).exec s c = .ok s' ∧ s'.controller = s.controller.step c := by
  obtain ⟨s', hexec, -, hstep⟩ := follows ((irqs_keeps h).run (ok_start h master slave) hrun) hc
  exact ⟨start_controller master slave, s', hexec, hstep⟩

/-- A chip as it may be found. -/
def chipFound : Chip := ⟨0xff, 0x80, 0, 8, 0, .icw3⟩

/-- Only the keyboard has a handler. -/
def keyboard : Handlers := ⟨fun _ => false, fun irq => irq == 1⟩

/-- The keyboard and a line without a handler raise requests; the line of the keyboard is
unmasked. -/
def keyPressed : System :=
  ⟨(picUnmask 1 (((System.start chipFound chipFound).pics.raise 12).raise 1)), .running⟩

theorem irqs_refine_keyboard : keyPressed.pics.pending 12 = true ∧
    ∃ s', (irqCalls keyboard).exec keyPressed .interrupt = .ok s' ∧
      s'.controller = keyPressed.controller.step .interrupt := by
  have hrun : (irqCalls keyboard).Run (System.start chipFound chipFound) keyPressed :=
    ((Relation.ReflTransGen.refl.tail ⟨.raise 12, show IsLine 12 by decide, rfl⟩).tail
      ⟨.raise 1, show IsLine 1 by decide, rfl⟩).tail ⟨.unmask 1, ⟨.inl rfl, by decide, rfl⟩, rfl⟩
  exact ⟨by decide, (irqs_refine keyboard chipFound chipFound hrun (c := .interrupt) rfl).2⟩

end Pic

end AuOs
