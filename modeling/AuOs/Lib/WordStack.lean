import Mathlib

/-!
# Machines with a downward stack of words

A machine has registers, a stack pointer and a memory of 64 bit words.  Addresses are 64 bits wide
and wrap around.  Only aligned accesses are meant: the memory gives a word for an address, and words
at different addresses do not overlap.

* `Machine.push`, `Machine.popReg` — the stack instructions; `pushAll`, `pushRegs` and `popRegs` are
  sequences of them.
* `Holds mem a l` — the words from `a` upwards are those of `l`.
* `Top.push`, `Top.pushAll` — what lies on top of the stack after pushes; `pushAll_mem` is the
  frame.
* `Top.popRegs` — **what a sequence of pops loads**.
-/

set_option autoImplicit false

namespace WordStack

/-- A machine word. -/
abbrev Word := BitVec 64

/-- The registers are named by `ρ`. -/
structure Machine (ρ : Type) where
  regs : ρ → Word
  rsp : Word
  mem : Word → Word

/-- The words from `a` upwards. -/
def Holds (mem : Word → Word) : Word → List Word → Prop
  | _, [] => True
  | a, v :: l => mem a = v ∧ Holds mem (a + 8) l

/-! ## The words in memory -/

section Holds

variable {mem mem' : Word → Word} {a b : Word} {l l' : List Word} {v : Word}

theorem addr_succ (a : Word) (i : Nat) :
    a + 8 + BitVec.ofNat 64 (8 * i) = a + BitVec.ofNat 64 (8 * (i + 1)) := by
  rw [Nat.mul_succ, BitVec.ofNat_add, BitVec.add_assoc, BitVec.add_comm (BitVec.ofNat 64 (8 * i))]
  rfl

theorem holds_append : Holds mem a (l ++ l') ↔
    Holds mem a l ∧ Holds mem (a + BitVec.ofNat 64 (8 * l.length)) l' := by
  induction l generalizing a with
  | nil => simp [Holds]
  | cons v l ih =>
    rw [List.cons_append, Holds, Holds, ih, and_assoc, List.length_cons, addr_succ]

/-- The words depend on their own addresses only. -/
theorem Holds.congr (h : Holds mem a l)
    (heq : ∀ i < l.length, mem' (a + BitVec.ofNat 64 (8 * i)) = mem (a + BitVec.ofNat 64 (8 * i))) :
    Holds mem' a l := by
  induction l generalizing a with
  | nil => trivial
  | cons v l ih =>
    refine ⟨?_, ih h.2 ?_⟩
    · have h0 := heq 0 (Nat.zero_lt_succ _)
      rw [Nat.mul_zero, BitVec.add_zero] at h0
      rw [h0]
      exact h.1
    · intro i hi
      have hi' := heq (i + 1) (Nat.succ_lt_succ hi)
      rwa [addr_succ]

theorem Holds.get (h : Holds mem a l) {i : Nat} (hi : l[i]? = some v) :
    mem (a + BitVec.ofNat 64 (8 * i)) = v := by
  induction l generalizing a i with
  | nil => cases hi
  | cons w l ih =>
    cases i with
    | zero =>
      rw [Nat.mul_zero, BitVec.add_zero, h.1]
      exact Option.some.inj hi
    | succ i =>
      rw [← addr_succ]
      exact ih h.2 hi

/-- The words that are there. -/
theorem holds_read (mem : Word → Word) (a : Word) (n : Nat) :
    Holds mem a ((List.range n).map fun i => mem (a + BitVec.ofNat 64 (8 * i))) := by
  induction n with
  | zero => trivial
  | succ n ih =>
    rw [List.range_succ, List.map_append, holds_append]
    refine ⟨ih, ?_, trivial⟩
    rw [List.length_map, List.length_range]

/-- A write to another word. -/
theorem Holds.update (h : Holds mem a l) (hb : ∀ i < l.length, b ≠ a + BitVec.ofNat 64 (8 * i)) :
    Holds (Function.update mem b v) a l :=
  h.congr fun i hi => Function.update_of_ne (hb i hi).symm ..

/-- The words just below are none of at most `2 ^ 60` words. -/
theorem below_ne {k i : Nat} (hk : 0 < k) (hk' : k ≤ 2 ^ 60) (hi : i < 2 ^ 60) :
    a - BitVec.ofNat 64 (8 * k) ≠ a + BitVec.ofNat 64 (8 * i) := by
  intro h
  have hnat := congrArg BitVec.toNat h
  have ha := a.isLt
  rw [BitVec.toNat_sub, BitVec.toNat_add, BitVec.toNat_ofNat, BitVec.toNat_ofNat,
    Nat.mod_eq_of_lt (show 8 * k < 2 ^ 64 by omega),
      Nat.mod_eq_of_lt (show 8 * i < 2 ^ 64 by omega)] at hnat
  omega

end Holds

/-! ## The stack instructions -/

namespace Machine

variable {ρ : Type} [DecidableEq ρ]

/-- `pushq`. -/
def push (m : Machine ρ) (v : Word) : Machine ρ :=
  { m with rsp := m.rsp - 8, mem := Function.update m.mem (m.rsp - 8) v }

/-- `popq %r`. -/
def popReg (m : Machine ρ) (r : ρ) : Machine ρ :=
  { m with regs := Function.update m.regs r (m.mem m.rsp), rsp := m.rsp + 8 }

/-- Words pushed one after the other. -/
def pushAll (vs : List Word) (m : Machine ρ) : Machine ρ := vs.foldl push m

/-- `pushq` of each of the registers. -/
def pushRegs (rs : List ρ) (m : Machine ρ) : Machine ρ := rs.foldl (fun m r => m.push (m.regs r)) m

/-- `popq` of each of the registers. -/
def popRegs (rs : List ρ) (m : Machine ρ) : Machine ρ := rs.foldl popReg m

/-- The words on top of the stack. -/
def Top (m : Machine ρ) (l : List Word) : Prop := Holds m.mem m.rsp l

variable {m : Machine ρ} {l rest : List Word} {v : Word}

omit [DecidableEq ρ] in
theorem Top.push (h : m.Top l) (hl : l.length < 2 ^ 60) (v : Word) : (m.push v).Top (v :: l) := by
  refine ⟨Function.update_self .., ?_⟩
  show Holds _ (m.rsp - 8 + 8) l
  rw [BitVec.sub_add_cancel]
  exact Holds.update h fun i hi => @below_ne m.rsp 1 i Nat.one_pos (by decide) (by omega)

theorem popRegs_rsp (rs : List ρ) :
    (m.popRegs rs).rsp = m.rsp + BitVec.ofNat 64 (8 * rs.length) ∧ (m.popRegs rs).mem = m.mem := by
  induction rs generalizing m with
  | nil => exact ⟨(BitVec.add_zero _).symm, rfl⟩
  | cons r rs ih =>
    obtain ⟨hrsp, hmem⟩ := @ih (m.popReg r)
    refine ⟨?_, hmem⟩
    rw [show m.popRegs (r :: rs) = (m.popReg r).popRegs rs from rfl, hrsp,
      List.length_cons, ← addr_succ]
    rfl

omit [DecidableEq ρ] in
theorem pushAll_rsp (vs : List Word) :
    (m.pushAll vs).rsp = m.rsp - BitVec.ofNat 64 (8 * vs.length) := by
  induction vs generalizing m with
  | nil => exact (BitVec.sub_zero _).symm
  | cons v vs ih =>
    rw [show m.pushAll (v :: vs) = (m.push v).pushAll vs from rfl, ih,
      List.length_cons, Nat.mul_succ, Nat.add_comm, BitVec.ofNat_add]
    show m.rsp - 8 - _ = _
    rw [BitVec.sub_sub]
    rfl

omit [DecidableEq ρ] in
/-- The registers have no part in the stack. -/
theorem Top.setRegs (h : m.Top l) (f : ρ → Word) : ({ m with regs := f } : Machine ρ).Top l := h

omit [DecidableEq ρ] in
/-- **Words pushed** lie on top of the stack, the last one first. -/
theorem Top.pushAll (h : m.Top l) (vs : List Word) (hl : vs.length + l.length < 2 ^ 60) :
    (m.pushAll vs).Top (vs.reverse ++ l) := by
  induction vs generalizing m l with
  | nil => exact h
  | cons v vs ih =>
    rw [List.length_cons] at hl
    have hpush := h.push (by omega) v
    rw [List.reverse_cons, List.append_assoc]
    exact ih hpush (by simp; omega)

omit [DecidableEq ρ] in
/-- A word that is none of those pushed. -/
theorem pushAll_mem (vs : List Word) {a : Word}
    (ha : ∀ j, 0 < j → j ≤ vs.length → a ≠ m.rsp - BitVec.ofNat 64 (8 * j)) :
    (m.pushAll vs).mem a = m.mem a := by
  induction vs generalizing m with
  | nil => rfl
  | cons v vs ih =>
    rw [show m.pushAll (v :: vs) = (m.push v).pushAll vs from rfl, ih]
    · exact Function.update_of_ne (ha 1 Nat.one_pos (Nat.succ_pos _)) ..
    · intro j hj hle
      have hne := ha (j + 1) (Nat.succ_pos j) (Nat.succ_le_succ hle)
      rw [Nat.mul_succ, Nat.add_comm, BitVec.ofNat_add] at hne
      rw [show (m.push v).rsp = m.rsp - 8 from rfl]
      simpa [BitVec.sub_sub] using hne

omit [DecidableEq ρ] in
theorem pushAll_append (vs ws : List Word) : m.pushAll (vs ++ ws) = (m.pushAll vs).pushAll ws :=
  List.foldl_append ..

omit [DecidableEq ρ] in
theorem pushAll_regs (vs : List Word) : (m.pushAll vs).regs = m.regs := by
  induction vs generalizing m with
  | nil => rfl
  | cons v vs ih => exact ih

omit [DecidableEq ρ] in
/-- Registers keep their values while they are pushed. -/
theorem pushRegs_eq (rs : List ρ) : m.pushRegs rs = m.pushAll (rs.map m.regs) := by
  induction rs generalizing m with
  | nil => rfl
  | cons r rs ih => exact ih

/-- **Registers popped**: each gets its word, the others and the memory are left alone. -/
theorem Top.popRegs (rs : List ρ) (hrs : rs.Nodup) (f : ρ → Word) (h : m.Top (rs.map f ++ rest)) :
    (m.popRegs rs).Top rest ∧ (m.popRegs rs).mem = m.mem ∧
      ∀ r, (m.popRegs rs).regs r = if r ∈ rs then f r else m.regs r := by
  induction rs generalizing m with
  | nil => exact ⟨h, rfl, fun r => rfl⟩
  | cons r rs ih =>
    obtain ⟨hr, hnodup⟩ := List.nodup_cons.mp hrs
    have htop : (m.popReg r).Top (rs.map f ++ rest) := h.2
    obtain ⟨hrest, hmem, hregs⟩ := ih hnodup htop
    refine ⟨hrest, hmem, ?_⟩
    intro q
    rw [show m.popRegs (r :: rs) = (m.popReg r).popRegs rs from rfl, hregs q]
    by_cases hq : q = r
    · subst hq
      rw [if_neg hr, if_pos List.mem_cons_self]
      exact (Function.update_self ..).trans h.1
    · simp only [List.mem_cons, hq, false_or]
      congr 1
      exact Function.update_of_ne hq ..

end Machine

end WordStack
