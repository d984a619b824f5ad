import Mathlib
import AuOs.Base

/-!
# The interrupt controllers

Reference model of `i8259a.c`, and of the two chips it drives: a master, and a slave whose output is
line 2 of the master.

* `Chip` — a chip: what its two ports do with a byte, and which request it passes on.
* `Pics` — both chips and `pic_irq_mask`; `out8` writes a byte to a port.
* `picSetup`, `picMask`, `picUnmask`, `picAck` — the functions of the driver.
* `Pics.inta` — what the CPU gets when it takes an interrupt.
* `picSetup_spec` — the chips after `pic_setup`, whatever they did before.
-/

set_option autoImplicit false

namespace AuOs

namespace Pic

/-! ## A chip -/

/-- Which of the initialisation words comes next. -/
inductive Init where
  | ready | icw2 | icw3 | icw4
  deriving DecidableEq, Repr

/-- A chip: requests, interrupts in service, masked lines, the number of its first vector, and the
third initialisation word: which lines of a master have slaves, or the line of the slave. -/
structure Chip where
  irr : BitVec 8
  isr : BitVec 8
  imr : BitVec 8
  offset : BitVec 8
  cascade : BitVec 8
  init : Init
  deriving DecidableEq, Repr

/-- The bit of a line. -/
def bit (i : Nat) : BitVec 8 := 1#8 <<< i

namespace Chip

/-- A byte for the command port: the first initialisation word, which resets the chip, or the end of
the interrupt on a given line.  No other command is sent. -/
def command (c : Chip) (data : BitVec 8) : Chip :=
  if data &&& bit 4 ≠ 0 then { c with irr := 0, isr := 0, imr := 0, init := .icw2 }
  else if data &&& 0xe0 = 0x60 then { c with isr := c.isr &&& ~~~bit (data &&& 7).toNat }
  else c

/-- A byte for the data port: an initialisation word, or the mask. -/
def data (c : Chip) (data : BitVec 8) : Chip :=
  match c.init with
  | .icw2 => { c with offset := data &&& 0xf8, init := .icw3 }
  | .icw3 => { c with cascade := data, init := .icw4 }
  | .icw4 => { c with init := .ready }
  | .ready => { c with imr := data }

/-- The request that is passed on, the lower line first: one that is not masked, while no interrupt
of its own or a lower line is in service. -/
def request (c : Chip) (lines : BitVec 8) : Option Nat :=
  (List.range 8).find? fun i =>
    lines.getLsbD i && !c.imr.getLsbD i && (List.range (i + 1)).all fun j => !c.isr.getLsbD j

/-- The interrupt of a line is taken. -/
def take (c : Chip) (i : Nat) : Chip := { c with irr := c.irr &&& ~~~bit i, isr := c.isr ||| bit i }

/-- The vector of a line. -/
def vector (c : Chip) (i : Nat) : Nat := c.offset.toNat + i

end Chip

/-! ## Both chips -/

def PIC_MASTER_CMD : Nat := 0x20

def PIC_MASTER_DATA : Nat := 0x21

def PIC_SLAVE_CMD : Nat := 0xA0

def PIC_SLAVE_DATA : Nat := 0xA1

def PIC_SLAVE_IRQ : Nat := 2

def PIC_IRQS : Nat := 8

def PIC_ACK_CMD : BitVec 8 := 0x60

def PIC_ICW1_EXPECT_ICW4 : BitVec 8 := 1#8 <<< 0

def PIC_ICW1_INIT : BitVec 8 := 1#8 <<< 4

def PIC_ICW4_8086 : BitVec 8 := 1#8 <<< 0

/-- The chips, and `pic_irq_mask`. -/
structure Pics where
  master : Chip
  slave : Chip
  irqMask : BitVec 32

/-- What `pic_irq_mask` is initialised with: all lines but that of the slave. -/
def initialMask : BitVec 32 := ~~~(1#32 <<< PIC_SLAVE_IRQ)

namespace Pics

/-- `out8`, for the ports of the chips. -/
def out8 (p : Pics) (port : Nat) (data : BitVec 8) : Pics :=
  if port = PIC_MASTER_CMD then { p with master := p.master.command data }
  else if port = PIC_MASTER_DATA then { p with master := p.master.data data }
  else if port = PIC_SLAVE_CMD then { p with slave := p.slave.command data }
  else if port = PIC_SLAVE_DATA then { p with slave := p.slave.data data }
  else p

/-- The lines of the master: line 2 is the output of the slave. -/
def lines (p : Pics) : BitVec 8 :=
  if (p.slave.request p.slave.irr).isSome then p.master.irr ||| bit PIC_SLAVE_IRQ
  else p.master.irr &&& ~~~bit PIC_SLAVE_IRQ

/-- The CPU takes an interrupt, if there is a request: the master names a line, and if that is one
of a slave, the slave names its own; the vector comes from the chip that named the last. -/
def inta (p : Pics) : Option (Pics × Nat) :=
  (p.master.request p.lines).bind fun i =>
    if p.master.cascade.getLsbD i = true ∧ p.slave.cascade.toNat = i then
      (p.slave.request p.slave.irr).map fun j =>
        ({ p with master := p.master.take i, slave := p.slave.take j }, p.slave.vector j)
    else some ({ p with master := p.master.take i }, p.master.vector i)

/-- A device raises a line. -/
def raise (p : Pics) (irq : Nat) : Pics :=
  if irq < PIC_IRQS then { p with master := { p.master with irr := p.master.irr ||| bit irq } }
  else { p with slave := { p.slave with irr := p.slave.irr ||| bit (irq - PIC_IRQS) } }

end Pics

/-! ## The driver -/

/-- `pic_setup`. -/
def picSetup (offset : Nat) (p : Pics) : Pics :=
  let p := p.out8 PIC_MASTER_CMD (PIC_ICW1_EXPECT_ICW4 ||| PIC_ICW1_INIT)
  let p := p.out8 PIC_SLAVE_CMD (PIC_ICW1_EXPECT_ICW4 ||| PIC_ICW1_INIT)
  let p := p.out8 PIC_MASTER_DATA (BitVec.ofNat 8 offset)
  let p := p.out8 PIC_SLAVE_DATA (BitVec.ofNat 8 (offset + PIC_IRQS))
  let p := p.out8 PIC_MASTER_DATA (1#8 <<< PIC_SLAVE_IRQ)
  let p := p.out8 PIC_SLAVE_DATA (BitVec.ofNat 8 PIC_SLAVE_IRQ)
  let p := p.out8 PIC_MASTER_DATA PIC_ICW4_8086
  let p := p.out8 PIC_SLAVE_DATA PIC_ICW4_8086
  let p := p.out8 PIC_MASTER_DATA (p.irqMask.setWidth 8)
  p.out8 PIC_SLAVE_DATA ((p.irqMask >>> 8).setWidth 8)

/-- What `pic_mask` and `pic_unmask` end with. -/
def writeMask (irq : Nat) (p : Pics) : Pics :=
  if irq < 8 then p.out8 PIC_MASTER_DATA (p.irqMask.setWidth 8)
  else p.out8 PIC_SLAVE_DATA ((p.irqMask >>> 8).setWidth 8)

/-- `pic_mask`. -/
def picMask (irq : Nat) (p : Pics) : Pics :=
  writeMask irq { p with irqMask := p.irqMask ||| 1#32 <<< irq }

/-- `pic_unmask`. -/
def picUnmask (irq : Nat) (p : Pics) : Pics :=
  writeMask irq { p with irqMask := p.irqMask &&& ~~~(1#32 <<< irq) }

/-- `pic_ack`. -/
def picAck (irq : Nat) (p : Pics) : Pics :=
  if irq ≥ 8 then
    (p.out8 PIC_SLAVE_CMD (PIC_ACK_CMD + BitVec.ofNat 8 (irq &&& 7))).out8 PIC_MASTER_CMD
      (PIC_ACK_CMD + BitVec.ofNat 8 PIC_SLAVE_IRQ)
  else p.out8 PIC_MASTER_CMD (PIC_ACK_CMD + BitVec.ofNat 8 irq)

/-! ## What the chips make of it -/

variable {c : Chip} {p : Pics} {i irq : Nat} {lines : BitVec 8}

/-- **`pic_setup`** resets both chips, whatever they did before. -/
theorem picSetup_spec (p : Pics) : picSetup 32 p =
    ⟨⟨0, 0, p.irqMask.setWidth 8, 32, bit PIC_SLAVE_IRQ, .ready⟩,
      ⟨0, 0, (p.irqMask >>> 8).setWidth 8, 40, BitVec.ofNat 8 PIC_SLAVE_IRQ, .ready⟩,
          p.irqMask⟩ := by
  rfl

/-- `pic_ack` ends the interrupt on the line of the chip that sent it. -/
theorem command_ack (c : Chip) (hi : i < 8) :
    c.command (PIC_ACK_CMD + BitVec.ofNat 8 i) = { c with isr := c.isr &&& ~~~bit i } := by
  have h : ∀ i < 8, (PIC_ACK_CMD + BitVec.ofNat 8 i) &&& bit 4 = 0 ∧
      (PIC_ACK_CMD + BitVec.ofNat 8 i) &&& 0xe0 = 0x60 ∧
      ((PIC_ACK_CMD + BitVec.ofNat 8 i) &&& 7).toNat = i := by decide
  obtain ⟨h1, h2, h3⟩ := h i hi
  unfold Chip.command
  rw [if_neg (not_not.mpr h1), if_pos h2, h3]

theorem picAck_master (p : Pics) (hirq : irq < 8) :
    picAck irq p = { p with master := { p.master with isr := p.master.isr &&& ~~~bit irq } } := by
  unfold picAck
  rw [if_neg (by omega)]
  show { p with master := p.master.command _ } = _
  rw [command_ack _ hirq]

theorem picAck_slave (p : Pics) (h8 : 8 ≤ irq) (hirq : irq < 16) :
    picAck irq p = { p with
      master := { p.master with isr := p.master.isr &&& ~~~bit PIC_SLAVE_IRQ }
      slave := { p.slave with isr := p.slave.isr &&& ~~~bit (irq - 8) } } := by
  have hand : irq &&& 7 = irq - 8 := by
    rw [show (7 : Nat) = 2 ^ 3 - 1 from rfl, Nat.and_two_pow_sub_one_eq_mod]
    omega
  unfold picAck
  rw [if_pos (by omega), hand]
  show { p with master := p.master.command _, slave := p.slave.command _ } = _
  rw [command_ack _ (show PIC_SLAVE_IRQ < 8 by decide), command_ack _ (show irq - 8 < 8 by omega)]

/-- The request of a chip with nothing in service. -/
theorem request_idle (h : c.isr = 0) : c.request lines =
    (List.range 8).find? fun i => lines.getLsbD i && !c.imr.getLsbD i := by
  unfold Chip.request
  congr 1
  funext i
  simp [h]

theorem bit_getLsbD {i j : Nat} (hi : i < 8) : (bit i).getLsbD j = decide (j = i) := by
  have h : ∀ i < 8, ∀ j < 8, (bit i).getLsbD j = decide (j = i) := by decide
  by_cases hj : j < 8
  · exact h i hi j hj
  · rw [BitVec.getLsbD_of_ge _ _ (by omega)]
    exact (decide_eq_false (by omega)).symm

end Pic

end AuOs
