import Mathlib

/-!
# Blocks of a size

The numbers from `b` to `e`, both included, against the blocks `[k * z, (k + 1) * z)`.

* `blocks` — how many blocks the range meets.
* `cutBlocks` — how many of them it does not cover.
* `blocks_split`, `cutBlocks_split` — a range is cut at the beginning of a block.
* `InStep` — two numbers are at the same place of their blocks.
* `blockEnd`, `firstEnd` — the last number of a block, and of the part of a range in its first
  block.
-/

set_option autoImplicit false

/-- The blocks the range meets. -/
def blocks (z b e : Nat) : Nat := e / z + 1 - b / z

/-- The blocks the range meets and does not cover: at most the first and the last one. -/
def cutBlocks (z b e : Nat) : Nat :=
  if b / z = e / z then if b % z = 0 ∧ (e + 1) % z = 0 then 0 else 1
  else (if b % z = 0 then 0 else 1) + if (e + 1) % z = 0 then 0 else 1

/-- The two numbers are at the same place of their blocks. -/
def InStep (z p b : Nat) : Prop := p % z = b % z

instance (z p b : Nat) : Decidable (InStep z p b) := inferInstanceAs (Decidable (p % z = b % z))

/-- The last number of the block of `b`. -/
def blockEnd (z b : Nat) : Nat := (b / z + 1) * z - 1

/-- The last number of the range that is in its first block. -/
def firstEnd (z b e : Nat) : Nat := min (blockEnd z b) e

section Blocks

variable {z w b e m p : Nat}

theorem blocks_one (h : b / z = e / z) : blocks z b e = 1 := by
  rw [blocks, h]
  omega

theorem blocks_pos (h : b ≤ e) : 0 < blocks z b e := by
  have : b / z ≤ e / z := Nat.div_le_div_right h
  unfold blocks
  omega

theorem cutBlocks_covered (hb : b % z = 0) (he : (e + 1) % z = 0) : cutBlocks z b e = 0 := by
  simp [cutBlocks, hb, he]

theorem cutBlocks_one (h : b / z = e / z) (hcut : ¬ (b % z = 0 ∧ (e + 1) % z = 0)) :
    cutBlocks z b e = 1 := by
  rw [cutBlocks, if_pos h, if_neg hcut]

theorem succ_div (h : (m + 1) % z = 0) : (m + 1) / z = m / z + 1 :=
  Nat.succ_div_of_dvd (Nat.dvd_of_mod_eq_zero h)

/-- A range that covers one block. -/
theorem covered_size (h : b / z = e / z) (hb : b % z = 0) (he : (e + 1) % z = 0) :
    e + 1 - b = z := by
  have hbegin := Nat.div_add_mod b z
  have hend := Nat.div_add_mod (e + 1) z
  rw [succ_div he, ← h, he, Nat.mul_succ] at hend
  omega

/-- Two ranges that meet at the beginning of a block have no block in common. -/
theorem blocks_split (h : (m + 1) % z = 0) (hb : b ≤ m) (he : m < e) :
    blocks z b e = blocks z b m + blocks z (m + 1) e := by
  have h₁ : b / z ≤ m / z := Nat.div_le_div_right hb
  have h₂ : (m + 1) / z ≤ e / z := Nat.div_le_div_right he
  have h₃ := succ_div h
  unfold blocks
  omega

theorem cutBlocks_split (h : (m + 1) % z = 0) (hb : b ≤ m) (he : m < e) :
    cutBlocks z b e = cutBlocks z b m + cutBlocks z (m + 1) e := by
  have h₁ : b / z ≤ m / z := Nat.div_le_div_right hb
  have h₂ : (m + 1) / z ≤ e / z := Nat.div_le_div_right he
  have h₃ := succ_div h
  have hne : b / z ≠ e / z := by omega
  unfold cutBlocks
  rw [if_neg hne]
  simp only [h, and_true, true_and, if_true, Nat.add_zero, Nat.zero_add, ite_self]

/-- Steps that both make leave them in step. -/
theorem inStep_add (hw : z ∣ w) (h : b ≤ m) : InStep z ((p + (m - b)) % w) m ↔ InStep z p b := by
  unfold InStep
  rw [Nat.mod_mod_of_dvd _ hw]
  constructor
  · intro hstep
    have hmod : p + (m - b) ≡ b + (m - b) [MOD z] := by rwa [Nat.add_sub_of_le h]
    exact Nat.ModEq.add_right_cancel' _ hmod
  · intro hstep
    have hmod : p + (m - b) ≡ b + (m - b) [MOD z] := Nat.ModEq.add_right _ hstep
    rwa [Nat.add_sub_of_le h] at hmod

/-- The range begins where its block does, or cuts it. -/
theorem cutBlocks_le : cutBlocks z b e ≤ (if b % z = 0 then 0 else 1) + if (e + 1) % z =
    0 then 0 else 1 := by
  unfold cutBlocks
  split
  · split
    · exact Nat.zero_le _
    · split <;> split <;> simp_all
  · exact le_rfl

theorem cutBlocks_le_blocks (h : b ≤ e) : cutBlocks z b e ≤ blocks z b e := by
  have : b / z ≤ e / z := Nat.div_le_div_right h
  unfold cutBlocks blocks
  split
  · split <;> omega
  · split <;> split <;> omega

/-- A range in more than one block. -/
theorem cutBlocks_many (h : b / z ≠ e / z) :
    cutBlocks z b e = (if b % z = 0 then 0 else 1) + if (e + 1) % z = 0 then 0 else 1 := if_neg h

/-- A range that begins with a block. -/
theorem cutBlocks_begin (hb : b % z = 0) : cutBlocks z b e = if (e + 1) % z = 0 then 0 else 1 := by
  unfold cutBlocks
  simp [hb]

theorem blocks_mono (h : e ≤ m) : blocks z b e ≤ blocks z b m := by
  have : e / z ≤ m / z := Nat.div_le_div_right h
  unfold blocks
  omega

section End

variable (hz : 0 < z)

include hz

theorem blockEnd_succ : blockEnd z b + 1 = (b / z + 1) * z :=
  Nat.sub_add_cancel (Nat.mul_pos (Nat.succ_pos _) hz)

theorem blockEnd_succ_mod : (blockEnd z b + 1) % z = 0 := by
  rw [blockEnd_succ hz, Nat.mul_mod_left]

theorem le_blockEnd : b ≤ blockEnd z b := by
  have := Nat.lt_div_mul_add (a := b) hz
  have := blockEnd_succ (b := b) hz
  rw [Nat.succ_mul] at this
  omega

theorem blockEnd_div : blockEnd z b / z = b / z := by
  have := blockEnd_succ (b := b) hz
  refine Nat.div_eq_of_lt_le ?_ (by omega)
  rw [Nat.succ_mul] at this
  omega

theorem le_blockEnd_iff (h : b ≤ e) : e ≤ blockEnd z b ↔ b / z = e / z := by
  have hsucc := blockEnd_succ (b := b) hz
  rw [show e ≤ blockEnd z b ↔ e < (b / z + 1) * z by omega, ← Nat.div_lt_iff_lt_mul hz]
  have : b / z ≤ e / z := Nat.div_le_div_right h
  omega

theorem firstEnd_one (h : b ≤ e) (hbe : b / z = e / z) : firstEnd z b e = e :=
  Nat.min_eq_right ((le_blockEnd_iff hz h).mpr hbe)

theorem firstEnd_many (h : b ≤ e) (hbe : b / z ≠ e / z) : firstEnd z b e = blockEnd z b :=
  Nat.min_eq_left (Nat.not_le.mp fun hle => hbe ((le_blockEnd_iff hz h).mp hle)).le

theorem le_firstEnd (h : b ≤ e) : b ≤ firstEnd z b e := le_min (le_blockEnd hz) h

/-- What follows the first block does not matter for its end. -/
theorem firstEnd_cut (h : (m + 1) % z = 0) (hb : b ≤ m) (he : m < e) :
    firstEnd z b e = firstEnd z b m := by
  have hlt : blockEnd z b ≤ m := by
    by_contra hlt
    have hdiv := (le_blockEnd_iff hz (by omega)).mp (show m + 1 ≤ blockEnd z b by omega)
    have hle : b / z ≤ m / z := Nat.div_le_div_right hb
    have := succ_div h
    omega
  rw [firstEnd, firstEnd, Nat.min_eq_left hlt, Nat.min_eq_left (hlt.trans he.le)]

end End

/-! ## Moving a range by whole blocks -/

section Shift

variable {c : Nat} (hc : z ∣ c)

include hc

theorem shift_div : (c + b) / z = c / z + b / z := Nat.add_div_of_dvd_right hc

theorem shift_mod : (c + b) % z = b % z := by
  rw [Nat.add_mod, Nat.mod_eq_zero_of_dvd hc, Nat.zero_add, Nat.mod_mod]

theorem blocks_shift : blocks z (c + b) (c + e) = blocks z b e := by
  rw [blocks, blocks, shift_div hc, shift_div hc]
  omega

theorem firstEnd_shift (hz : 0 < z) : firstEnd z (c + b) (c + e) = c + firstEnd z b e := by
  have hend : blockEnd z (c + b) = c + blockEnd z b := by
    have h₁ := blockEnd_succ (b := c + b) hz
    have h₂ := blockEnd_succ (b := b) hz
    have h₃ := Nat.div_mul_cancel hc
    rw [shift_div hc, Nat.add_assoc, Nat.add_mul, h₃] at h₁
    omega
  rw [firstEnd, firstEnd, hend, Nat.add_min_add_left]

end Shift

end Blocks
