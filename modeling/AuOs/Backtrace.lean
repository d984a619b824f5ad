import Mathlib
import AuOs.Base
import AuOs.Lib.Traced

/-!
# Walking the saved frame pointers

Reference model of `__backtrace` of `backtrace.c`.  Addresses and words are 64 bits wide, and `rbp +
16` is taken modulo `2 ^ 64` as in the source.

* `readWord` — a load of a `uint64_t`, least significant byte first.
* `backtrace` — `__backtrace`: the base of each frame it reads is recorded, the return addresses it
  prints are the value.
* `Chain` — which addresses are reached from one another by saved frame pointers, upwards through
  frames that lie inside the stack.
* `backtrace_inside_iff` — **the walk ends, and reads only frames inside the stack** exactly if no
  address of the chain is so high that the test of the bound wraps around.
* `wrapped_frame_read` — a frame pointer eight bytes below the end of memory.
-/

set_option autoImplicit false

namespace AuOs

open Traced

/-- `uintptr_t`. -/
abbrev Addr := BitVec 64

/-- `*(const uint64_t *)a`. -/
def readWord (mem : Addr → BitVec 8) (a : Addr) : BitVec 64 :=
  mem (a + 7) ++ mem (a + 6) ++ mem (a + 5) ++ mem (a + 4) ++ mem (a + 3) ++ mem (a + 2) ++
    mem (a + 1) ++ mem a

/-- The loop of `__backtrace`. -/
def backtraceLoop (mem : Addr → BitVec 8) (stackBegin stackEnd : Addr) :
    Nat → Addr → Traced Addr Stop (List Addr)
  | 0, _ => lift (.error .hang)
  | fuel + 1, rbp =>
    if rbp ≥ stackBegin ∧ rbp + 16 ≤ stackEnd then do
      mark rbp
      let prevRbp := readWord mem rbp
      let prevRip := readWord mem (rbp + 8)
      if prevRbp ≤ rbp then pure []
      else do
        let rips ← backtraceLoop mem stackBegin stackEnd fuel prevRbp
        pure (prevRip :: rips)
    else pure []

/-- `__backtrace`.  The frame pointers grow, so there are fewer than `2 ^ 64` frames. -/
def backtrace (mem : Addr → BitVec 8) (rbp stackBegin stackEnd : Addr) :
    Traced Addr Stop (List Addr) :=
  backtraceLoop mem stackBegin stackEnd (2 ^ 64) rbp

variable {mem : Addr → BitVec 8} {stackBegin stackEnd rbp r : Addr}

/-- The frame `[r, r + 16)` lies inside `[stackBegin, stackEnd)`. -/
def InStack (stackBegin stackEnd r : Addr) : Prop :=
  stackBegin.toNat ≤ r.toNat ∧ r.toNat + 16 ≤ stackEnd.toNat

/-- The frame does not fit below `2 ^ 64`, and its wrapped end passes the test of the bound. -/
def Wraps (stackBegin stackEnd r : Addr) : Prop :=
  stackBegin.toNat ≤ r.toNat ∧ 2 ^ 64 ≤ r.toNat + 16 ∧ r.toNat + 16 - 2 ^ 64 ≤ stackEnd.toNat

/-- The frame at `r` lies inside the stack and its saved frame pointer leads upwards to `r'`. -/
def SavedAbove (mem : Addr → BitVec 8) (stackBegin stackEnd r r' : Addr) : Prop :=
  InStack stackBegin stackEnd r ∧ r < readWord mem r ∧ r' = readWord mem r

/-- Any number of saved frame pointers. -/
abbrev Chain (mem : Addr → BitVec 8) (stackBegin stackEnd : Addr) : Addr → Addr → Prop :=
  Relation.ReflTransGen (SavedAbove mem stackBegin stackEnd)

/-- **The test of the loop** lets frames of the stack through, and frames that wrap around. -/
theorem frame_test : (r ≥ stackBegin ∧ r + 16 ≤ stackEnd) ↔
    InStack stackBegin stackEnd r ∨ Wraps stackBegin stackEnd r := by
  have hend := stackEnd.isLt
  have hr := r.isLt
  have h16 : (16 : BitVec 64).toNat = 16 := rfl
  unfold InStack Wraps
  rw [ge_iff_le, BitVec.le_def, BitVec.le_def, BitVec.toNat_add, h16]
  by_cases hwrap : r.toNat + 16 < 2 ^ 64
  · rw [Nat.mod_eq_of_lt hwrap]
    omega
  · have hmod : (r.toNat + 16) % 2 ^ 64 = r.toNat + 16 - 2 ^ 64 := by omega
    rw [hmod]
    omega

theorem not_inStack_of_wraps (h : Wraps stackBegin stackEnd r) :
    ¬ InStack stackBegin stackEnd r := by
  have hend := stackEnd.isLt
  unfold Wraps InStack at *
  omega

/-- **The walk ends**: each frame pointer is greater than the one before. -/
theorem backtraceLoop_returns (fuel : Nat) (hf : 2 ^ 64 - rbp.toNat ≤ fuel) :
    ∃ rips, (backtraceLoop mem stackBegin stackEnd fuel rbp).result = .ok rips := by
  induction fuel generalizing rbp with
  | zero =>
    have := rbp.isLt
    omega
  | succ fuel ih =>
    unfold backtraceLoop
    split
    · simp only [result_mark_bind]
      split
      · exact ⟨[], rfl⟩
      case isFalse hgt =>
        have hlt : rbp.toNat < (readWord mem rbp).toNat := by
          simpa [BitVec.le_def] using hgt
        obtain ⟨rips, hrips⟩ := @ih (readWord mem rbp) (by omega)
        exact ⟨readWord mem (rbp + 8) :: rips, by rw [result_bind, hrips]; rfl⟩
    · exact ⟨[], rfl⟩

/-- **The frames read** lie inside the stack as long as no address of the chain wraps around. -/
theorem backtraceLoop_only (fuel : Nat)
    (h : ∀ r, Chain mem stackBegin stackEnd rbp r → ¬ Wraps stackBegin stackEnd r) :
    Only (backtraceLoop mem stackBegin stackEnd fuel rbp) (InStack stackBegin stackEnd)
      fun _ => True := by
  induction fuel generalizing rbp with
  | zero => exact .lift nofun
  | succ fuel ih =>
    unfold backtraceLoop
    split
    case isTrue htest =>
      have hin : InStack stackBegin stackEnd rbp :=
        (frame_test.mp htest).resolve_right (h rbp .refl)
      refine .mark hin ?_
      simp only
      split
      · exact .pure trivial
      case isFalse hgt =>
        have hsaved : SavedAbove mem stackBegin stackEnd rbp (readWord mem rbp) :=
          ⟨hin, BitVec.not_le.mp hgt, rfl⟩
        exact .bind (ih fun r hr => h r (.head hsaved hr)) fun _ _ => .pure trivial
    case isFalse => exact .pure trivial

/-- An address of the chain that passes the test of the loop is read. -/
theorem chain_read (h : Chain mem stackBegin stackEnd rbp r)
    (hr : r ≥ stackBegin ∧ r + 16 ≤ stackEnd) (fuel : Nat) (hf : 2 ^ 64 - rbp.toNat ≤ fuel) :
    r ∈ (backtraceLoop mem stackBegin stackEnd fuel rbp).trace := by
  induction h using Relation.ReflTransGen.head_induction_on generalizing fuel with
  | refl =>
    have := r.isLt
    obtain ⟨n, rfl⟩ : ∃ n, fuel = n + 1 := ⟨fuel - 1, by omega⟩
    rw [backtraceLoop, if_pos hr, trace_mark_bind]
    exact List.mem_cons_self
  | @head rbp next hsaved _ ih =>
    obtain ⟨hin, hlt, rfl⟩ := hsaved
    have hgrows : rbp.toNat < (readWord mem rbp).toNat := BitVec.lt_def.mp hlt
    have := rbp.isLt
    obtain ⟨n, rfl⟩ : ∃ n, fuel = n + 1 := ⟨fuel - 1, by omega⟩
    rw [backtraceLoop, if_pos (frame_test.mpr (.inl hin)), trace_mark_bind]
    simp only [if_neg (BitVec.not_le.mpr hlt)]
    apply List.mem_cons_of_mem
    rw [trace_bind]
    exact List.mem_append_left _ (ih n (by omega))

/-- **When the walk stays inside the stack**: it ends in any case, and it reads no other frame
exactly if no address it is led to lies so high that the end of its frame wraps around. -/
theorem backtrace_inside_iff (mem : Addr → BitVec 8) (rbp stackBegin stackEnd : Addr) :
    (∃ rips, (backtrace mem rbp stackBegin stackEnd).result = .ok rips) ∧
      ((∀ r ∈ (backtrace mem rbp stackBegin stackEnd).trace, InStack stackBegin stackEnd r) ↔
        ∀ r, Chain mem stackBegin stackEnd rbp r → ¬ Wraps stackBegin stackEnd r) := by
  refine ⟨backtraceLoop_returns _ (by omega), ?_, ?_⟩
  · intro h r hr hwraps
    have hread := chain_read hr (frame_test.mpr (.inr hwraps)) (2 ^ 64) (by omega)
    exact not_inStack_of_wraps hwraps (h r hread)
  · intro h
    exact (backtraceLoop_only _ h).events

/-- **A frame pointer eight bytes below the end of memory** passes the test of every stack that ends
above address 8. -/
theorem wrapped_frame_read :
    ∃ (mem : Addr → BitVec 8) (rbp stackBegin stackEnd : Addr), stackBegin ≤ stackEnd ∧
      ¬ ∀ r ∈ (backtrace mem rbp stackBegin stackEnd).trace, InStack stackBegin stackEnd r := by
  refine ⟨fun _ => 0, -8, 0xffffffff80200000, 0xffffffff80201000, by decide, ?_⟩
  intro h
  exact absurd (h (-8) (by decide +kernel)) (by unfold InStack; decide)

end AuOs
