import Mathlib
import AuOs.Base

/-!
# The layout of a pool

Reference model of `mem_cache_layout_setup` of `alloc.c` and of the arithmetic under it.  `size_t`
and `uintmax_t` are numbers below `WORD`; every operation that can wrap is taken modulo `WORD`.

* `ilog2`, `ceil`, `alignUp`, `alignDown`, `metaSize` — the helpers of `alloc.c`.
* `memCacheLayoutSetup` — `mem_cache_layout_setup`.
* `LayoutFits` — no step of the computation exceeds 64 bits.
* `LayoutOk` — what the slab code relies on.  `layout_ok`: **the layout is correct** whenever it
  fits.
* `min_objs_iff` — **when a pool holds `MIN_POOL_OBJS` objects**; `three_objects` is a pool that
  does not.
-/

set_option autoImplicit false

namespace AuOs

namespace Slab

/-- `sizeof(unsigned long long)`. -/
def WORD_SZ : Nat := 8

/-- `WORD_SZ * CHAR_BIT`. -/
def OBJS_PER_WORD : Nat := WORD_SZ * 8

def MIN_POOL_OBJS : Nat := 8

/-- `sizeof(struct mem_pool)`: two list pointers, `page`, `data`, `free` and one word of
`bitmask`. -/
def MEM_POOL_SZ : Nat := 48

/-- `offsetof(struct mem_pool, bitmask)`. -/
def BITMASK_OFFS : Nat := 40

/-- `offsetof(struct alignment_off, pool)`: the alignment of `struct mem_pool`. -/
def META_ALIGN : Nat := 8

/-- `ilog2`: `while (val < x)`.  For `x > 2 ^ 63` the loop does not end, `val` becomes 0. -/
def ilog2Loop (x : Nat) : Nat → Nat → Nat → Res Nat
  | 0, _, _ => .error .hang
  | fuel + 1, val, power =>
    if val < x then ilog2Loop x fuel (val * 2 % WORD) (power + 1) else .ok power

/-- `ilog2`. -/
def ilog2 (x : Nat) : Res Nat := ilog2Loop x 65 1 0

/-- `ceil`. -/
def ceil (divident divisor : Nat) : Nat := (divident + divisor - 1) % WORD / divisor

/-- `floor`. -/
def floor (divident divisor : Nat) : Nat := divident / divisor

/-- `align_up`. -/
def alignUp (size align : Nat) : Nat := align * ceil size align % WORD

/-- `align_down`. -/
def alignDown (size align : Nat) : Nat := align * floor size align % WORD

/-- `meta_size`: the bytes of a pool's header, for `objs` objects.  The subtraction wraps for 0. -/
def metaSize (objs : Nat) : Nat :=
  let bitmaskSize := (ceil objs OBJS_PER_WORD + (WORD - 1)) % WORD * WORD_SZ % WORD
  alignUp ((MEM_POOL_SZ + bitmaskSize) % WORD) META_ALIGN

/-- The layout fields of `struct mem_cache`. -/
structure Layout where
  metaOffs : Nat
  objCount : Nat
  maskWords : Nat
  objSize : Nat
  poolOrder : Nat
  deriving DecidableEq, Repr

/-- `(size_t)1 << (pool_order + PAGE_SHIFT)`. -/
def Layout.poolSize (layout : Layout) : Nat := 2 ^ (layout.poolOrder + PAGE_SHIFT)

/-- `while (obj_size * objs + meta_size(objs) > pool_size) --objs;` -/
def objsLoop (objSize poolSize : Nat) : Nat → Res Nat
  | 0 => if (objSize * 0 + metaSize 0) % WORD > poolSize then .error .hang else .ok 0
  | objs + 1 =>
    if (objSize * (objs + 1) + metaSize (objs + 1)) % WORD > poolSize then
      objsLoop objSize poolSize objs
    else .ok (objs + 1)

/-- `mem_cache_layout_setup`.  A division by zero traps, and a shift by 64 has no defined result. -/
def memCacheLayoutSetup (size align : Nat) : Res Layout := do
  if align = 0 then .error .fault else
  let objSize := alignUp size align
  let minSize := (objSize * MIN_POOL_OBJS % WORD + metaSize MIN_POOL_OBJS) % WORD
  let poolOrder ← ilog2 (minSize >>> PAGE_SHIFT)
  if poolOrder + PAGE_SHIFT ≥ 64 ∨ objSize = 0 then .error .fault else
  let poolSize := 2 ^ (poolOrder + PAGE_SHIFT)
  let objs ← objsLoop objSize poolSize (poolSize / objSize)
  return {
    metaOffs := poolSize - metaSize objs
    objCount := objs
    maskWords := ceil objs OBJS_PER_WORD
    objSize := objSize
    poolOrder := poolOrder }

example : memCacheLayoutSetup 64 64 = .ok ⟨4048, 63, 1, 64, 0⟩ := by decide +kernel

/-! ## The helpers -/

variable {size align objs : Nat}

theorem ilog2Loop_eq {x : Nat} (hx : x ≤ 2 ^ 63) (fuel p : Nat) (hp : p ≤ Nat.clog 2 x)
    (hf : Nat.clog 2 x < fuel + p) : ilog2Loop x fuel (2 ^ p) p = .ok (Nat.clog 2 x) := by
  induction fuel generalizing p with
  | zero => omega
  | succ fuel ih =>
    have hmax : Nat.clog 2 x ≤ 63 := Nat.clog_le_of_le_pow hx
    rw [ilog2Loop]
    split
    case isTrue hlt =>
      have hp' : p < Nat.clog 2 x := (Nat.lt_clog_iff_pow_lt (by omega)).mpr hlt
      have hpow : 2 ^ p * 2 % WORD = 2 ^ (p + 1) := by
        rw [← Nat.pow_succ]
        exact Nat.mod_eq_of_lt (Nat.pow_lt_pow_right (by omega) (by omega))
      rw [hpow]
      exact ih (p + 1) (by omega) (by omega)
    case isFalse hge =>
      have hp' : ¬ p < Nat.clog 2 x := fun h => hge (Nat.pow_lt_of_lt_clog h)
      rw [show p = Nat.clog 2 x by omega]

/-- **`ilog2`** is the logarithm, rounded up. -/
theorem ilog2_eq {x : Nat} (hx : x ≤ 2 ^ 63) : ilog2 x = .ok (Nat.clog 2 x) := by
  have hmax : Nat.clog 2 x ≤ 63 := Nat.clog_le_of_le_pow hx
  exact ilog2Loop_eq hx 65 0 (Nat.zero_le _) (by omega)

/-- The bytes of the header of a pool of `objs` objects. -/
def headerSize (objs : Nat) : Nat := BITMASK_OFFS + WORD_SZ * ((objs + 63) / 64)

/-- **`meta_size`** is the size of the header. -/
theorem metaSize_eq (h : objs ≤ 2 ^ 63) : metaSize objs = headerSize objs := by
  unfold metaSize headerSize alignUp ceil OBJS_PER_WORD WORD_SZ MEM_POOL_SZ BITMASK_OFFS
    META_ALIGN WORD
  simp only [Nat.reducePow, Nat.reduceMul]
  omega

theorem headerSize_mono {m n : Nat} (h : m ≤ n) : headerSize m ≤ headerSize n := by
  unfold headerSize
  gcongr

/-- `size` rounded up to a multiple of `align`, without a bound on the numbers. -/
def roundUp (size align : Nat) : Nat := align * ((size + align - 1) / align)

theorem alignUp_eq (h : size + align - 1 < WORD) :
    alignUp size align = roundUp size align := by
  have hle : roundUp size align ≤ size + align - 1 := Nat.mul_div_le _ _
  unfold alignUp ceil
  rw [Nat.mod_eq_of_lt h]
  exact Nat.mod_eq_of_lt (by unfold roundUp at hle; omega)

/-- **`align_up`** gives the least multiple that is large enough. -/
theorem roundUp_least (ha : 0 < align) : IsLeast {m | size ≤ m ∧ align ∣ m}
    (roundUp size align) := by
  have hdiv : size + align - 1 < roundUp size align + align :=
    Nat.lt_mul_div_succ (size + align - 1) ha
  refine ⟨⟨by omega, Nat.dvd_mul_right _ _⟩, ?_⟩
  rintro m ⟨hm, c, rfl⟩
  unfold roundUp
  have hlt : (size + align - 1) / align < c + 1 := by
    apply Nat.div_lt_of_lt_mul
    rw [Nat.mul_succ]
    omega
  exact Nat.mul_le_mul_left _ (Nat.le_of_lt_succ hlt)

/-- The bytes a pool should have at least: `MIN_POOL_OBJS` objects and their header. -/
def minPoolSize (size align : Nat) : Nat :=
  roundUp size align * MIN_POOL_OBJS + headerSize MIN_POOL_OBJS

/-- The order of the pages of a pool: the logarithm of the whole pages in `minPoolSize`. -/
def poolOrder (size align : Nat) : Nat := Nat.clog 2 (minPoolSize size align >>> PAGE_SHIFT)

/-- **No overflow**: `align_up`, the minimum size and the pool size fit in 64 bits. -/
structure LayoutFits (size align : Nat) : Prop where
  round : size + align - 1 < WORD
  minSize : minPoolSize size align < WORD
  poolSize : 2 ^ (poolOrder size align + PAGE_SHIFT) < WORD

/-! ## The number of objects -/

/-- Objects and header of a pool of `poolSize` bytes. -/
def Room (objSize poolSize objs : Nat) : Prop := objs * objSize + headerSize objs ≤ poolSize

theorem Room.mono {objSize poolSize m n : Nat} (h : Room objSize poolSize n) (hmn : m ≤ n) :
    Room objSize poolSize m := by
  have hobjs : m * objSize ≤ n * objSize := Nat.mul_le_mul_right _ hmn
  have hheader := headerSize_mono hmn
  unfold Room at *
  omega

/-- **The loop** finds the largest number of objects for which there is room. -/
theorem objsLoop_spec {objSize poolSize : Nat} (hpool : poolSize ≤ 2 ^ 63)
    (h0 : Room objSize poolSize 0) (hobjs : objs * objSize ≤ poolSize) (hmax : objs ≤ 2 ^ 63) :
    ∃ n ≤ objs, objsLoop objSize poolSize objs = .ok n ∧ Room objSize poolSize n ∧
      ∀ m ≤ objs, Room objSize poolSize m → m ≤ n := by
  have htest : ∀ n ≤ objs, (objSize * n + metaSize n) % WORD = n * objSize + headerSize n := by
    intro n hn
    have hle : n * objSize ≤ objs * objSize := Nat.mul_le_mul_right _ hn
    rw [metaSize_eq (by omega), Nat.mul_comm objSize]
    apply Nat.mod_eq_of_lt
    unfold headerSize BITMASK_OFFS WORD_SZ WORD
    omega
  induction objs with
  | zero =>
    refine ⟨0, Nat.le_refl 0, ?_, h0, fun m hm _ => hm⟩
    rw [objsLoop, htest 0 (Nat.le_refl 0), if_neg (Nat.not_lt.mpr h0)]
  | succ objs ih =>
    rw [objsLoop, htest _ (Nat.le_refl _)]
    split
    case isTrue hgt =>
      have hobjs' : objs * objSize ≤ poolSize :=
        (Nat.mul_le_mul_right _ (Nat.le_succ objs)).trans hobjs
      obtain ⟨n, hn, hloop, hroom, hbest⟩ := ih hobjs' (by omega) fun n hn => htest n (by omega)
      refine ⟨n, by omega, hloop, hroom, ?_⟩
      intro m hm hm'
      apply hbest m ?_ hm'
      by_contra hne
      have : m = objs + 1 := by omega
      subst this
      exact absurd hm' (Nat.not_le.mpr hgt)
    case isFalse hle =>
      exact ⟨objs + 1, Nat.le_refl _, rfl, Nat.not_lt.mp hle, fun m hm _ => hm⟩

/-! ## The pool size against the minimum -/

theorem headerSize_min : headerSize MIN_POOL_OBJS = 48 := rfl

/-- **The pool is larger than half the minimum size**, in spite of the truncation to pages. -/
theorem minPoolSize_lt (size align : Nat) :
    minPoolSize size align < 2 ^ (poolOrder size align + PAGE_SHIFT) * 2 ∧
      4096 ≤ 2 ^ (poolOrder size align + PAGE_SHIFT) := by
  have hclog := Nat.le_pow_clog (b := 2) (by omega) (minPoolSize size align >>> PAGE_SHIFT)
  have hpos : 0 < 2 ^ poolOrder size align := Nat.two_pow_pos _
  rw [Nat.shiftRight_eq_div_pow] at hclog
  unfold poolOrder at *
  rw [Nat.shiftRight_eq_div_pow] at *
  unfold PAGE_SHIFT at *
  rw [Nat.pow_add]
  generalize 2 ^ Nat.clog 2 (minPoolSize size align / 2 ^ 12) = p at *
  omega

/-- **What `mem_cache_layout_setup` computes**, if nothing overflows. -/
theorem memCacheLayoutSetup_eq (hs : 0 < size) (ha : 0 < align) (h : LayoutFits size align) :
    ∃ layout, memCacheLayoutSetup size align = .ok layout ∧
      layout.objSize = roundUp size align ∧
      layout.poolOrder = poolOrder size align ∧
      layout.maskWords = (layout.objCount + 63) / 64 ∧
      layout.metaOffs = layout.poolSize - headerSize layout.objCount ∧
      metaSize layout.objCount = headerSize layout.objCount ∧
      Room layout.objSize layout.poolSize layout.objCount ∧
      ∀ n, Room layout.objSize layout.poolSize n → n ≤ layout.objCount := by
  have hobj : size ≤ roundUp size align := (roundUp_least ha).1.1
  obtain ⟨_, hpage⟩ := minPoolSize_lt size align
  have hmin : (roundUp size align * MIN_POOL_OBJS % WORD + metaSize MIN_POOL_OBJS) % WORD =
      minPoolSize size align := by
    have hfits := h.minSize
    unfold minPoolSize at *
    rw [metaSize_eq (by decide), Nat.mod_eq_of_lt (Nat.lt_of_le_of_lt (Nat.le_add_right _ _) hfits),
      Nat.mod_eq_of_lt hfits]
  have hlog : ilog2 (minPoolSize size align >>> PAGE_SHIFT) = .ok (poolOrder size align) := by
    have hfits := h.minSize
    apply ilog2_eq
    rw [Nat.shiftRight_eq_div_pow]
    unfold PAGE_SHIFT WORD at *
    omega
  have hshift : poolOrder size align + PAGE_SHIFT < 64 :=
    (Nat.pow_lt_pow_iff_right (by omega)).mp h.poolSize
  have hpool : 2 ^ (poolOrder size align + PAGE_SHIFT) ≤ 2 ^ 63 :=
    Nat.pow_le_pow_right (by omega) (by omega)
  generalize hsize : 2 ^ (poolOrder size align + PAGE_SHIFT) = pool at *
  have hdiv : pool / roundUp size align * roundUp size align ≤ pool := Nat.div_mul_le_self _ _
  have hle : pool / roundUp size align ≤ pool := Nat.div_le_self _ _
  obtain ⟨n, hn, hloop, hroom, hbest⟩ := objsLoop_spec hpool
    (show Room (roundUp size align) pool 0 by unfold Room; simp [headerSize, BITMASK_OFFS]; omega)
    hdiv (by omega)
  have hceil : ceil n OBJS_PER_WORD = (n + 63) / 64 := by
    unfold ceil OBJS_PER_WORD WORD_SZ WORD
    omega
  have hmax : n ≤ 2 ^ 63 := by omega
  refine ⟨⟨pool - headerSize n, n, (n + 63) / 64, roundUp size align, poolOrder size align⟩,
    ?_, rfl, rfl, rfl, ?_, metaSize_eq hmax, ?_, ?_⟩
  · unfold memCacheLayoutSetup
    rw [if_neg (Nat.ne_of_gt ha)]
    simp only [alignUp_eq h.round, hmin, hlog, ok_bind, hsize]
    rw [if_neg (by omega), hloop, ok_bind, metaSize_eq hmax, hceil]
    rfl
  · rw [Layout.poolSize, hsize]
  · rw [Layout.poolSize, hsize]
    exact hroom
  · rw [Layout.poolSize, hsize]
    intro m hm
    apply hbest m ?_ hm
    rw [Nat.le_div_iff_mul_le (by omega)]
    exact Nat.le_of_add_right_le hm

/-! ## The layout -/

/-- **What the slab code relies on.** -/
structure LayoutOk (size align : Nat) (layout : Layout) : Prop where
  /-- `obj_size` is the least multiple of `align` not below `size`. -/
  objSize : IsLeast {m | size ≤ m ∧ align ∣ m} layout.objSize
  two_objs : 2 ≤ layout.objCount
  /-- The objects end before the header. -/
  objs_fit : layout.objCount * layout.objSize ≤ layout.metaOffs
  /-- The header ends with the pool. -/
  header_ends : layout.metaOffs + metaSize layout.objCount = layout.poolSize
  header_aligned : META_ALIGN ∣ layout.metaOffs
  /-- There is a bit for each object. -/
  mask_bits : layout.objCount ≤ layout.maskWords * 64
  /-- The words of the mask lie inside the pool. -/
  mask_inside : layout.metaOffs + BITMASK_OFFS + layout.maskWords * WORD_SZ ≤ layout.poolSize
  /-- No larger number of objects fits together with its header. -/
  most_objs : IsGreatest {n | n * layout.objSize + headerSize n ≤ layout.poolSize} layout.objCount
  align_dvd : align ∣ layout.poolSize

/-- **The layout is correct**, for every size and every power of two whose layout fits in 64
bits. -/
theorem layout_ok (size align : Nat) (hs : 0 < size) (ha : ∃ k, align = 2 ^ k)
    (h : LayoutFits size align) :
    ∃ layout, memCacheLayoutSetup size align = .ok layout ∧ LayoutOk size align layout := by
  obtain ⟨k, rfl⟩ := ha
  have hpos : 0 < 2 ^ k := Nat.two_pow_pos k
  obtain ⟨layout, hsetup, hsize, horder, hwords, hmeta, hheader, hroom, hbest⟩ :=
    memCacheLayoutSetup_eq hs hpos h
  have hleast := @roundUp_least size (2 ^ k) hpos
  rw [← hsize] at hleast
  obtain ⟨hhalf, hpage⟩ := minPoolSize_lt size (2 ^ k)
  have hpool : layout.poolSize = 2 ^ (poolOrder size (2 ^ k) + PAGE_SHIFT) := by
    rw [Layout.poolSize, horder]
  rw [← hpool] at hhalf hpage
  rw [minPoolSize, ← hsize, headerSize_min, MIN_POOL_OBJS] at hhalf
  have hobjs : 2 ≤ layout.objCount := by
    apply hbest
    unfold Room headerSize BITMASK_OFFS WORD_SZ
    omega
  unfold Room at hroom
  refine ⟨layout, hsetup, hleast, hobjs, ?_, ?_, ?_, ?_, ?_, ⟨hroom, fun n hn => hbest n hn⟩, ?_⟩
  · omega
  · omega
  · rw [hmeta, META_ALIGN]
    apply Nat.dvd_sub
    · rw [hpool]
      exact Nat.pow_dvd_pow 2 (show 3 ≤ poolOrder size (2 ^ k) + 12 by omega)
    · exact ⟨5 + (layout.objCount + 63) / 64, by unfold headerSize BITMASK_OFFS WORD_SZ; omega⟩
  · omega
  · unfold headerSize WORD_SZ at *
    omega
  · rw [hpool]
    apply Nat.pow_dvd_pow
    apply (Nat.pow_le_pow_iff_right (a := 2) (by omega)).mp
    rw [← hpool]
    calc 2 ^ k ≤ layout.objSize := Nat.le_of_dvd (by have := hleast.1.1; omega) hleast.1.2
      _ ≤ layout.objCount * layout.objSize := Nat.le_mul_of_pos_left _ (by omega)
      _ ≤ layout.poolSize := by omega

/-- A layout whose pool gets at most `2 ^ k` pages. -/
theorem layoutFits_pages {k : Nat} (hround : size + align - 1 < WORD)
    (hmin : minPoolSize size align < (2 ^ k + 1) * PAGE_SIZE) (hk : k + PAGE_SHIFT < 63) :
    LayoutFits size align := by
  have hpages : minPoolSize size align >>> PAGE_SHIFT ≤ 2 ^ k := by
    rw [Nat.shiftRight_eq_div_pow]
    exact Nat.le_of_lt_succ (Nat.div_lt_of_lt_mul (by rwa [Nat.mul_comm]))
  have hpow : 2 ^ (k + PAGE_SHIFT) < 2 ^ 63 := Nat.pow_lt_pow_right (by decide) hk
  refine ⟨hround, ?_, ?_⟩
  · rw [Nat.pow_add] at hpow
    unfold PAGE_SIZE PAGE_SHIFT WORD at *
    omega
  · have hle : 2 ^ (poolOrder size align + PAGE_SHIFT) ≤ 2 ^ (k + PAGE_SHIFT) :=
      Nat.pow_le_pow_right (by decide) (Nat.add_le_add_right (Nat.clog_le_of_le_pow hpages) _)
    unfold WORD
    omega

/-- The objects of 64 bytes of `mem_alloc`. -/
theorem layout_ok_64 :
    ∃ layout, memCacheLayoutSetup 64 64 = .ok layout ∧ LayoutOk 64 64 layout :=
  layout_ok 64 64 (by decide) ⟨6, rfl⟩ (@layoutFits_pages _ _ 0 (by decide) (by decide) (by decide))

/-! ## `MIN_POOL_OBJS` -/

/-- **When a pool holds `MIN_POOL_OBJS` objects**: the minimum size is a whole number of pages, or
the number of whole pages in it is no power of two and the logarithm rounds up. -/
theorem min_objs_iff (size align : Nat) (hs : 0 < size) (ha : ∃ k, align = 2 ^ k)
    (h : LayoutFits size align) :
    ∃ layout, memCacheLayoutSetup size align = .ok layout ∧
      (MIN_POOL_OBJS ≤ layout.objCount ↔
        PAGE_SIZE ∣ minPoolSize size align ∨ ∀ k, minPoolSize size align / PAGE_SIZE ≠ 2 ^ k) := by
  obtain ⟨k, rfl⟩ := ha
  obtain ⟨layout, hsetup, hsize, horder, -, -, -, hroom, hbest⟩ :=
    memCacheLayoutSetup_eq hs (Nat.two_pow_pos k) h
  refine ⟨layout, hsetup, ?_⟩
  have hroom_iff : MIN_POOL_OBJS ≤ layout.objCount ↔
      minPoolSize size (2 ^ k) ≤ layout.poolSize := by
    unfold minPoolSize
    rw [← hsize, Nat.mul_comm]
    exact ⟨fun hle => hroom.mono hle, hbest MIN_POOL_OBJS⟩
  rw [hroom_iff, Layout.poolSize, horder, poolOrder, Nat.shiftRight_eq_div_pow, Nat.pow_add]
  show minPoolSize size (2 ^ k) ≤ 2 ^ Nat.clog 2
    (minPoolSize size (2 ^ k) / PAGE_SIZE) * PAGE_SIZE ↔ _
  generalize minPoolSize size (2 ^ k) = m
  have hpage : 0 < PAGE_SIZE := by decide
  have hclog := Nat.le_pow_clog (b := 2) (by omega) (m / PAGE_SIZE)
  have hmod := Nat.div_add_mod m PAGE_SIZE
  have hlt := Nat.mod_lt m hpage
  rw [Nat.mul_comm] at hmod
  by_cases hpow : ∃ j, m / PAGE_SIZE = 2 ^ j
  · obtain ⟨j, hj⟩ := hpow
    have hne : ¬ ∀ k, m / PAGE_SIZE ≠ 2 ^ k := fun hall => hall j hj
    rw [or_iff_left hne, hj, Nat.clog_pow 2 j (by omega), Nat.dvd_iff_mod_eq_zero]
    rw [hj] at hmod
    omega
  · have hall : ∀ k, m / PAGE_SIZE ≠ 2 ^ k := fun k hk => hpow ⟨k, hk⟩
    refine iff_of_true ?_ (Or.inr hall)
    have hgt : m / PAGE_SIZE + 1 ≤ 2 ^ Nat.clog 2 (m / PAGE_SIZE) :=
      Nat.lt_of_le_of_ne hclog (hall _)
    have := Nat.mul_le_mul_right PAGE_SIZE hgt
    rw [Nat.succ_mul] at this
    omega

theorem min_objs_iff_64 :
    ∃ layout, memCacheLayoutSetup 64 64 = .ok layout ∧
      (MIN_POOL_OBJS ≤ layout.objCount ↔
        PAGE_SIZE ∣ minPoolSize 64 64 ∨ ∀ k, minPoolSize 64 64 / PAGE_SIZE ≠ 2 ^ k) :=
  min_objs_iff 64 64 (by decide) ⟨6, rfl⟩ (@layoutFits_pages _ _ 0 (by decide)
    (by decide) (by decide))

/-- **A pool of three objects**: eight objects of 1016 bytes and their header take 8176 bytes, one
whole page, and one page is what the pool gets. -/
theorem three_objects : LayoutFits 1016 8 ∧
    ∃ layout, memCacheLayoutSetup 1016 8 = .ok layout ∧ layout.objCount = 3 ∧
      ¬ MIN_POOL_OBJS ≤ layout.objCount :=
  ⟨@layoutFits_pages _ _ 0 (by decide) (by decide) (by decide),
    ⟨4048, 3, 1, 1016, 0⟩, by decide +kernel, rfl, by decide⟩

end Slab

end AuOs
