import Mathlib
import AuOs.Base

/-!
# Page descriptors

`struct page` of `memory.h` and the accessors of its `flags` word in `memory.c`: the low eight bits
hold the order of a free block, bit 8 the FREE flag, the bits from 16 on are left to the users of
the page.

* `pageOrder_withOrder`, `pageIsFree_setFree`, `pageIsFree_setBusy`, `pageTestBit_setBit`,
  `pageTestBit_clearBit` — each accessor reads back what its setter stored.
* The remaining lemmas say that the three fields do not disturb one another.
-/

set_option autoImplicit false

namespace AuOs

/-- The union `u` of `struct page`, by the member that was stored last.  A cache is named by its
number, `none` is the null pointer. -/
inductive PageU where
  | order (order : Nat)
  | cache (cache : Option Nat)
  deriving DecidableEq, Repr

/-- `struct page` without its list links: the lists are kept in the zone. -/
structure Page where
  flags : BitVec 64
  u : PageU
  deriving DecidableEq, Repr

/-- A descriptor in memory that reads as zero. -/
def Page.zero : Page := ⟨0, .order 0⟩

/-- `page->u.order`.  Zero bytes read as order 0 whichever member stored them. -/
def PageU.readOrder : PageU → Res Nat
  | .order o => .ok o
  | .cache none => .ok 0
  | .cache (some _) => .error .fault

/-- `page->u.cache`, which the callers dereference. -/
def PageU.readCache : PageU → Res Nat
  | .cache (some c) => .ok c
  | _ => .error .fault

def PAGE_FREE_OFFS : Nat := 8

def PAGE_FREE_MASK : BitVec 64 := 1#64 <<< PAGE_FREE_OFFS

def PAGE_ORDER_MASK : BitVec 64 := PAGE_FREE_MASK - 1

def PAGE_USER_OFFS : Nat := 16

/-- `page_order`. -/
def pageOrder (page : Page) : Nat := (page.flags &&& PAGE_ORDER_MASK).toNat

/-- `page_set_order`. -/
def pageSetOrder (page : Page) (order : Int) : Res Page := do
  bugOn (order > (PAGE_ORDER_MASK.toNat : Int)) .pageSetOrder
  bugOn (order < 0) .pageSetOrder
  return { page with flags := (page.flags &&& ~~~PAGE_ORDER_MASK) ||| BitVec.ofInt 64 order }

/-- `page_is_free`. -/
def pageIsFree (page : Page) : Bool := page.flags &&& PAGE_FREE_MASK != 0

/-- `page_set_free`. -/
def pageSetFree (page : Page) : Page := { page with flags := page.flags ||| PAGE_FREE_MASK }

/-- `page_set_busy`. -/
def pageSetBusy (page : Page) : Page := { page with flags := page.flags &&& ~~~PAGE_FREE_MASK }

/-- `page_set_bit`. -/
def pageSetBit (page : Page) (bit : Nat) : Page :=
  { page with flags := page.flags ||| (1#64 <<< (bit + PAGE_USER_OFFS)) }

/-- `page_clear_bit`. -/
def pageClearBit (page : Page) (bit : Nat) : Page :=
  { page with flags := page.flags &&& ~~~(1#64 <<< (bit + PAGE_USER_OFFS)) }

/-- `page_test_bit`. -/
def pageTestBit (page : Page) (bit : Nat) : Bool :=
  page.flags &&& (1#64 <<< (bit + PAGE_USER_OFFS)) != 0

/-! ## The fields of the flags word -/

theorem orderMask_getLsbD (i : Nat) : PAGE_ORDER_MASK.getLsbD i = decide (i < 8) := by
  by_cases h : i < 64
  · interval_cases i <;> rfl
  · rw [BitVec.getLsbD_of_ge _ _ (by omega)]
    simp; omega

theorem one_shiftLeft_getLsbD {k : Nat} (hk : k < 64) (i : Nat) :
    (1#64 <<< k).getLsbD i = decide (i = k) := by
  by_cases h : i < 64
  · simp only [BitVec.getLsbD_shiftLeft, BitVec.getLsbD_one, h, decide_true, Bool.true_and]
    by_cases h1 : i < k
    · simp [h1]; omega
    · simp [h1]; omega
  · rw [BitVec.getLsbD_of_ge _ _ (by omega)]
    simp; omega

/-- Testing a one-bit mask reads that bit. -/
theorem and_one_shiftLeft_ne_zero (x : BitVec 64) {k : Nat} (hk : k < 64) :
    (x &&& (1#64 <<< k) != 0) = x.getLsbD k := by
  have hbit : ∀ i, (x &&& (1#64 <<< k)).getLsbD i = (x.getLsbD i && decide (i = k)) := by
    intro i
    rw [BitVec.getLsbD_and, one_shiftLeft_getLsbD hk]
  cases hx : x.getLsbD k with
  | false =>
    have h0 : x &&& (1#64 <<< k) = 0 := by
      apply BitVec.eq_of_getLsbD_eq
      intro i _
      rw [hbit i]
      by_cases hik : i = k
      · subst hik; simp [hx]
      · simp [hik]
    rw [h0]; rfl
  | true =>
    have h1 : x &&& (1#64 <<< k) ≠ 0 := by
      intro h
      have := hbit k
      rw [h, hx] at this
      simp at this
    simpa using h1

theorem pageIsFree_eq (page : Page) : pageIsFree page = page.flags.getLsbD 8 :=
  and_one_shiftLeft_ne_zero page.flags (by decide)

theorem pageTestBit_eq (page : Page) {bit : Nat} (h : bit < 48) :
    pageTestBit page bit = page.flags.getLsbD (bit + 16) :=
  and_one_shiftLeft_ne_zero page.flags (by simp only [PAGE_USER_OFFS]; omega)

theorem pageOrder_testBit (page : Page) (i : Nat) :
    (pageOrder page).testBit i = (page.flags.getLsbD i && decide (i < 8)) := by
  rw [pageOrder, ← BitVec.getLsbD, BitVec.getLsbD_and, orderMask_getLsbD]

/-- The descriptor with its order field replaced. -/
def Page.withOrder (page : Page) (order : Nat) : Page :=
  { page with flags := (page.flags &&& ~~~PAGE_ORDER_MASK) ||| BitVec.ofNat 64 order }

/-- `page_set_order` succeeds on the orders that fit its field. -/
theorem pageSetOrder_ok (page : Page) {order : Nat} (h : order < 256) :
    pageSetOrder page order = .ok (page.withOrder order) := by
  have hm : PAGE_ORDER_MASK.toNat = 255 := by decide
  rw [pageSetOrder, hm, bugOn_neg (by omega), bugOn_neg (by omega)]
  simp [Page.withOrder]

theorem withOrder_getLsbD (page : Page) {order : Nat} (h : order < 256) (i : Nat) :
    (page.withOrder order).flags.getLsbD i =
      if i < 8 then order.testBit i else page.flags.getLsbD i := by
  simp only [Page.withOrder, BitVec.getLsbD_or, BitVec.getLsbD_and, BitVec.getLsbD_not,
    orderMask_getLsbD, BitVec.getLsbD_ofNat]
  split
  · rename_i hi
    simp [hi]; omega
  · rename_i hi
    have : order.testBit i = false :=
      Nat.testBit_lt_two_pow (h.trans_le (Nat.pow_le_pow_right (by omega)
        (not_lt.mp hi) : 2 ^ 8 ≤ _))
    by_cases h64 : i < 64
    · simp [hi, this, h64]
    · simp [this, h64, BitVec.getLsbD_of_ge page.flags i (by omega)]

@[simp] theorem pageOrder_withOrder (page : Page) {order : Nat} (h : order < 256) :
    pageOrder (page.withOrder order) = order := by
  apply Nat.eq_of_testBit_eq
  intro i
  rw [pageOrder_testBit, withOrder_getLsbD page h]
  split
  · rename_i hi; simp [hi]
  · rename_i hi
    have : order.testBit i = false :=
      Nat.testBit_lt_two_pow (h.trans_le (Nat.pow_le_pow_right (by omega)
        (not_lt.mp hi) : 2 ^ 8 ≤ _))
    simp [hi, this]

@[simp] theorem pageIsFree_withOrder (page : Page) {order : Nat} (h : order < 256) :
    pageIsFree (page.withOrder order) = pageIsFree page := by
  rw [pageIsFree_eq, pageIsFree_eq, withOrder_getLsbD page h, if_neg (by omega)]

@[simp] theorem pageTestBit_withOrder (page : Page) {order : Nat} (h : order < 256) {bit : Nat}
    (hb : bit < 48) : pageTestBit (page.withOrder order) bit = pageTestBit page bit := by
  rw [pageTestBit_eq _ hb, pageTestBit_eq _ hb, withOrder_getLsbD page h, if_neg (by omega)]

@[simp] theorem withOrder_u (page : Page) (order : Nat) : (page.withOrder order).u = page.u := rfl

theorem freeMask_getLsbD (i : Nat) : PAGE_FREE_MASK.getLsbD i = decide (i = 8) := by
  by_cases h : i < 64
  · interval_cases i <;> rfl
  · rw [BitVec.getLsbD_of_ge _ _ (by omega)]
    simp; omega

theorem pageSetFree_getLsbD (page : Page) (i : Nat) :
    (pageSetFree page).flags.getLsbD i = (page.flags.getLsbD i || decide (i = 8)) := by
  rw [pageSetFree, BitVec.getLsbD_or, freeMask_getLsbD]

theorem pageSetBusy_getLsbD (page : Page) (i : Nat) :
    (pageSetBusy page).flags.getLsbD i = (page.flags.getLsbD i && !decide (i = 8)) := by
  rw [pageSetBusy, BitVec.getLsbD_and, BitVec.getLsbD_not, freeMask_getLsbD]
  by_cases h : i < 64
  · simp [h]
  · simp [BitVec.getLsbD_of_ge page.flags i (by omega)]

@[simp] theorem pageIsFree_setFree (page : Page) : pageIsFree (pageSetFree page) = true := by
  rw [pageIsFree_eq, pageSetFree_getLsbD]; simp

@[simp] theorem pageIsFree_setBusy (page : Page) : pageIsFree (pageSetBusy page) = false := by
  rw [pageIsFree_eq, pageSetBusy_getLsbD]; simp

@[simp] theorem pageOrder_setFree (page : Page) :
    pageOrder (pageSetFree page) = pageOrder page := by
  apply Nat.eq_of_testBit_eq
  intro i
  rw [pageOrder_testBit, pageOrder_testBit, pageSetFree_getLsbD]
  by_cases h : i < 8
  · simp [show i ≠ 8 by omega]
  · simp [h]

@[simp] theorem pageTestBit_setFree (page : Page) {bit : Nat} (hb : bit < 48) :
    pageTestBit (pageSetFree page) bit = pageTestBit page bit := by
  rw [pageTestBit_eq _ hb, pageTestBit_eq _ hb, pageSetFree_getLsbD]; simp

@[simp] theorem pageTestBit_setBusy (page : Page) {bit : Nat} (hb : bit < 48) :
    pageTestBit (pageSetBusy page) bit = pageTestBit page bit := by
  rw [pageTestBit_eq _ hb, pageTestBit_eq _ hb, pageSetBusy_getLsbD]; simp

@[simp] theorem setFree_u (page : Page) : (pageSetFree page).u = page.u := rfl

@[simp] theorem setBusy_u (page : Page) : (pageSetBusy page).u = page.u := rfl

/-! ## The user bits -/

theorem pageSetBit_getLsbD (page : Page) {bit : Nat} (hb : bit < 48) (i : Nat) :
    (pageSetBit page bit).flags.getLsbD i = (page.flags.getLsbD i || decide (i = bit + 16)) := by
  rw [pageSetBit, BitVec.getLsbD_or, one_shiftLeft_getLsbD (by simp only [PAGE_USER_OFFS]; omega)]
  rfl

theorem pageClearBit_getLsbD (page : Page) {bit : Nat} (hb : bit < 48) (i : Nat) :
    (pageClearBit page bit).flags.getLsbD i = (page.flags.getLsbD i && !decide (i = bit + 16)) := by
  rw [pageClearBit, BitVec.getLsbD_and, BitVec.getLsbD_not,
    one_shiftLeft_getLsbD (by simp only [PAGE_USER_OFFS]; omega)]
  by_cases h : i < 64
  · simp [h]; rfl
  · simp [BitVec.getLsbD_of_ge page.flags i (by omega)]

@[simp] theorem pageTestBit_setBit (page : Page) {bit : Nat} (hb : bit < 48) :
    pageTestBit (pageSetBit page bit) bit = true := by
  rw [pageTestBit_eq _ hb, pageSetBit_getLsbD _ hb]; simp

@[simp] theorem pageTestBit_clearBit (page : Page) {bit : Nat} (hb : bit < 48) :
    pageTestBit (pageClearBit page bit) bit = false := by
  rw [pageTestBit_eq _ hb, pageClearBit_getLsbD _ hb]; simp

@[simp] theorem pageIsFree_setBit (page : Page) {bit : Nat} (hb : bit < 48) :
    pageIsFree (pageSetBit page bit) = pageIsFree page := by
  rw [pageIsFree_eq, pageIsFree_eq, pageSetBit_getLsbD _ hb]; simp

@[simp] theorem pageIsFree_clearBit (page : Page) {bit : Nat} (hb : bit < 48) :
    pageIsFree (pageClearBit page bit) = pageIsFree page := by
  rw [pageIsFree_eq, pageIsFree_eq, pageClearBit_getLsbD _ hb]; simp

@[simp] theorem pageOrder_setBit (page : Page) {bit : Nat} (hb : bit < 48) :
    pageOrder (pageSetBit page bit) = pageOrder page := by
  apply Nat.eq_of_testBit_eq
  intro i
  rw [pageOrder_testBit, pageOrder_testBit, pageSetBit_getLsbD _ hb]
  by_cases h : i < 8
  · simp [show i ≠ bit + 16 by omega]
  · simp [h]

@[simp] theorem pageOrder_clearBit (page : Page) {bit : Nat} (hb : bit < 48) :
    pageOrder (pageClearBit page bit) = pageOrder page := by
  apply Nat.eq_of_testBit_eq
  intro i
  rw [pageOrder_testBit, pageOrder_testBit, pageClearBit_getLsbD _ hb]
  by_cases h : i < 8
  · simp [show i ≠ bit + 16 by omega]
  · simp [h]

end AuOs
