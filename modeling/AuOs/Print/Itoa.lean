import Mathlib
import AuOs.Print.Strtoul

/-!
# Writing numbers

Reference model of `ulltoa` and `lltoa` of `stdlib.c`.  The buffer is a block of bytes and a
position in it.

* `ulltoa`, `lltoa` — the digits are written from the last one to the first and then reversed in
  place.
* `unsignedText`, `signedText` — a number in a base.
* `ulltoa_eq`, `lltoa_eq` — **what is written**, into any block that has room for it.
* `number_round_trip` — **`strtoul` reads back what was written**.
-/

set_option autoImplicit false

namespace AuOs

/-- `digits`: the characters `0` to `9` and `a` to `z`. -/
def DIGITS : Bytes :=
  [48, 49, 50, 51, 52, 53, 54, 55, 56, 57, 97, 98, 99, 100, 101, 102, 103, 104, 105,
    106, 107, 108, 109, 110, 111, 112, 113, 114, 115, 116, 117, 118, 119, 120, 121, 122]

/-- `*ptr = c`. -/
def store (buf : Bytes) (ptr : Nat) (c : Int8) : Res Bytes :=
  if ptr < buf.length then .ok (buf.set ptr c) else .error .fault

/-- `*ptr`. -/
def load (buf : Bytes) (ptr : Nat) : Res Int8 :=
  match buf[ptr]? with
  | some c => .ok c
  | none => .error .fault

/-- `do … while (value)`: the block and the position behind the last digit. -/
def writeDigits (base : BitVec 64) : Nat → BitVec 64 → Bytes → Nat → Res (Bytes × Nat)
  | 0, _, _, _ => .error .hang
  | fuel + 1, value, buf, ptr => do
    let r := value % base
    let value := value / base
    let buf ← store buf ptr (DIGITS.getD r.toNat 0)
    if value ≠ 0 then writeDigits base fuel value buf (ptr + 1) else .ok (buf, ptr + 1)

/-- `while (start < ptr)`: the ends change places. -/
def reverseLoop : Nat → Bytes → Nat → Nat → Res Bytes
  | 0, _, _, _ => .error .hang
  | fuel + 1, buf, start, ptr =>
    if start < ptr then do
      let c ← load buf ptr
      let c' ← load buf start
      let buf ← store buf ptr c'
      let buf ← store buf start c
      reverseLoop fuel buf (start + 1) (ptr - 1)
    else .ok buf

/-- `ulltoa`.  A value has at most 64 digits. -/
def ulltoa (value : BitVec 64) (buf : Bytes) (str : Nat) (base : Nat) : Res Bytes := do
  let (buf, ptr) ← writeDigits (BitVec.ofNat 64 base) 64 value buf str
  let buf ← store buf ptr 0
  reverseLoop 64 buf str (ptr - 1)

/-- `lltoa`.  The negation of the least value is taken modulo `2 ^ 64`. -/
def lltoa (value : BitVec 64) (buf : Bytes) (str : Nat) (base : Nat) : Res Bytes := do
  if value.toInt < 0 then
    let buf ← store buf str 45
    ulltoa (-value) buf (str + 1) base
  else ulltoa value buf str base

/-! ## What is written -/

/-- A number in a base. -/
def unsignedText (base v : Nat) : Bytes :=
  (if v = 0 then [0] else Nat.digits base v).reverse.map fun d => DIGITS.getD d 0

/-- A signed number in a base. -/
def signedText (base : Nat) (v : BitVec 64) : Bytes :=
  if v.toInt < 0 then 45 :: unsignedText base (-v).toNat else unsignedText base v.toNat

example : unsignedText 16 0x2a0 = [50, 97, 48] := by
  rw [unsignedText]; norm_num; decide

variable {base : Nat}

theorem store_eq {buf : Bytes} {ptr : Nat} (c : Int8) (h : ptr < buf.length) :
    store buf ptr c = .ok (splice buf ptr [c]) := by
  rw [store, if_pos h, set_eq_splice c h]

/-- The digits of a number, the last one first, at least one. -/
def lastFirst (base v : Nat) : List Nat := if v = 0 then [0] else Nat.digits base v

theorem lastFirst_eq (hb : 2 ≤ base) (v : Nat) :
    lastFirst base v = v % base :: if v / base = 0 then [] else lastFirst base (v / base) := by
  unfold lastFirst
  by_cases hv : v = 0
  · simp [hv]
  · rw [if_neg hv, Nat.digits_def' (by omega) (Nat.pos_of_ne_zero hv)]
    by_cases hq : v / base = 0
    · rw [if_pos hq, hq, Nat.digits_zero]
    · rw [if_neg hq, if_neg hq]

theorem lastFirst_length (hb : 2 ≤ base) {v : Nat} : 0 < (lastFirst base v).length := by
  rw [lastFirst_eq hb, List.length_cons]
  exact Nat.succ_pos _

theorem ofNat_umod {v : Nat} (hb : base < 2 ^ 64) (hb0 : 0 < base) (hv : v < 2 ^ 64) :
    BitVec.ofNat 64 v % BitVec.ofNat 64 base = BitVec.ofNat 64 (v % base) := by
  have hlt := Nat.mod_lt v hb0
  apply BitVec.eq_of_toNat_eq
  rw [BitVec.toNat_umod, BitVec.toNat_ofNat, BitVec.toNat_ofNat, BitVec.toNat_ofNat,
    Nat.mod_eq_of_lt hv, Nat.mod_eq_of_lt hb, Nat.mod_eq_of_lt (hlt.trans hb)]

theorem ofNat_udiv {v : Nat} (hb : base < 2 ^ 64) (hv : v < 2 ^ 64) :
    BitVec.ofNat 64 v / BitVec.ofNat 64 base = BitVec.ofNat 64 (v / base) := by
  apply BitVec.eq_of_toNat_eq
  rw [BitVec.toNat_udiv, BitVec.toNat_ofNat, BitVec.toNat_ofNat, BitVec.toNat_ofNat,
    Nat.mod_eq_of_lt hv,
    Nat.mod_eq_of_lt hb, Nat.mod_eq_of_lt ((Nat.div_le_self v base).trans_lt hv)]

/-- **The first loop** writes the digits, the last one first. -/
theorem writeDigits_eq (hb : 2 ≤ base) (hb' : base ≤ 36) (fuel : Nat) {v : Nat} (hv : v < 2 ^ 64)
    (hf : v < base ^ fuel) (hf0 : 0 < fuel) (buf : Bytes) (ptr : Nat)
    (hroom : ptr + (lastFirst base v).length ≤ buf.length) :
    writeDigits (BitVec.ofNat 64 base) fuel (BitVec.ofNat 64 v) buf ptr =
      .ok (splice buf ptr ((lastFirst base v).map fun d => DIGITS.getD d 0),
        ptr + (lastFirst base v).length) := by
  induction fuel generalizing v buf ptr with
  | zero => omega
  | succ fuel ih =>
    have hlt := Nat.mod_lt v (show 0 < base by omega)
    have hle : v / base ≤ v := Nat.div_le_self _ _
    have hr : (BitVec.ofNat 64 (v % base)).toNat = v % base := Nat.mod_eq_of_lt (by omega)
    rw [lastFirst_eq hb, List.length_cons] at hroom
    rw [writeDigits, ofNat_umod (by omega) (by omega) hv, ofNat_udiv (by omega) hv, hr,
      store_eq _ (by omega), ok_bind, lastFirst_eq hb v]
    by_cases hq : v / base = 0
    · rw [if_pos hq, hq, if_neg (by simp)]
      rfl
    · rw [if_neg hq] at hroom ⊢
      have hne : BitVec.ofNat 64 (v / base) ≠ 0 := by
        intro h
        have hnat := congrArg BitVec.toNat h
        rw [BitVec.toNat_ofNat, Nat.mod_eq_of_lt (by omega)] at hnat
        exact hq hnat
      have hf' : v / base < base ^ fuel := by
        rw [Nat.div_lt_iff_lt_mul (by omega), ← Nat.pow_succ]
        exact hf
      have hfuel : 0 < fuel := by
        apply Nat.pos_of_ne_zero
        rintro rfl
        exact hq (by simpa using hf')
      rw [if_pos hne, ih (by omega) hf' hfuel _ _ (by
          rw [length_splice_of_le (by rw [List.length_singleton]; omega)]
          omega),
        show ptr + 1 = ptr + [DIGITS.getD (v % base) 0].length from rfl, splice_append (by omega),
        List.map_cons]
      simp only [List.singleton_append, List.length_cons, List.length_nil,
        Except.ok.injEq, Prod.mk.injEq, true_and]
      omega

theorem load_append (A : Bytes) (c : Int8) (B : Bytes) : load (A ++ c :: B) A.length = .ok c := by
  simp [load]

theorem store_append (A : Bytes) (c d : Int8) (B : Bytes) :
    store (A ++ c :: B) A.length d = .ok (A ++ d :: B) := by
  rw [store, if_pos (by simp), List.set_append_right _ _ (Nat.le_refl _), Nat.sub_self,
    List.set_cons_zero]

/-- **The second loop** reverses what lies between its two pointers. -/
theorem reverseLoop_eq (fuel : Nat) (A M B : Bytes) (ptr : Nat)
    (hptr : ptr + 1 = A.length + M.length) (hf : M.length < 2 * fuel) :
    reverseLoop fuel (A ++ (M ++ B)) A.length ptr = .ok (A ++ (M.reverse ++ B)) := by
  induction fuel generalizing A M B ptr with
  | zero => omega
  | succ fuel ih =>
    rw [reverseLoop]
    rcases M with _ | ⟨x, M⟩
    · rw [if_neg (by rw [List.length_nil] at hptr; omega)]
      rfl
    · rcases List.eq_nil_or_concat M with rfl | ⟨M, y, rfl⟩
      · rw [if_neg (by rw [List.length_singleton] at hptr; omega)]
        rfl
      · simp only [List.concat_eq_append, List.length_cons, List.length_append,
          List.length_nil] at hptr hf
        have hsplit : ∀ x y : Int8, A ++ (x :: (M ++ [y]) ++ B) = (A ++ x :: M) ++ y :: B := by simp
        have hmid : (A ++ x :: M).length = ptr := by
          rw [List.length_append, List.length_cons]
          omega
        have hnext : (A ++ [y]).length = A.length + 1 := by simp
        have hleft : load (A ++ x :: M ++ y :: B) A.length = .ok x := by
          rw [List.append_assoc]
          exact load_append A x _
        have hstart : store (A ++ x :: M ++ x :: B) A.length y = .ok
            (A ++ [y] ++ (M ++ x :: B)) := by
          rw [List.append_assoc, List.append_assoc]
          exact store_append A x y _
        rw [if_pos (by omega), List.concat_eq_append, hsplit, ← hmid, load_append, ok_bind,
          hleft, ok_bind, store_append, ok_bind, hstart, ok_bind, ← hnext,
          ih (A ++ [y]) M (x :: B) _ (by rw [List.length_append, List.length_cons]; omega)
            (by omega)]
        simp

theorem unsignedText_eq (base v : Nat) :
    unsignedText base v = ((lastFirst base v).map fun d => DIGITS.getD d 0).reverse := by
  rw [← List.map_reverse]
  rfl

theorem lt_base_pow (hb : 2 ≤ base) {v : Nat} (hv : v < 2 ^ 64) : v < base ^ 64 :=
  hv.trans_le (Nat.pow_le_pow_left hb 64)

theorem lastFirst_le (hb : 2 ≤ base) {v : Nat} (hv : v < 2 ^ 64) :
    (lastFirst base v).length ≤ 64 := by
  unfold lastFirst
  split
  · exact (show 1 ≤ 64 by omega)
  · exact (Nat.digits_length_le_iff (by omega) v).mpr (lt_base_pow hb hv)

/-- **`ulltoa`** writes the number and a NUL. -/
theorem ulltoa_eq (hb : 2 ≤ base) (hb' : base ≤ 36) {v : BitVec 64} {buf : Bytes} {str : Nat}
    (hroom : str + (unsignedText base v.toNat).length < buf.length) :
    ulltoa v buf str base = .ok (splice buf str (unsignedText base v.toNat ++ [0])) := by
  rw [unsignedText_eq] at hroom ⊢
  rw [List.length_reverse, List.length_map] at hroom
  have hpos := lastFirst_length hb (v := v.toNat)
  have hle := lastFirst_le hb v.isLt
  have hwrite := writeDigits_eq hb hb' 64 v.isLt (lt_base_pow hb v.isLt)
    (by omega) buf str (by omega)
  rw [BitVec.ofNat_toNat, BitVec.setWidth_eq] at hwrite
  generalize hl : (lastFirst base v.toNat).map (fun d => DIGITS.getD d 0) = l at hwrite ⊢
  have hlen : l.length = (lastFirst base v.toNat).length := by rw [← hl, List.length_map]
  rw [← hlen] at hroom hpos hle hwrite
  have htake : (buf.take str).length = str := List.length_take_of_le (by omega)
  have hrev := reverseLoop_eq 64 (buf.take str) l (0 :: buf.drop (str + l.length + 1))
    (str + l.length - 1) (by omega) (by omega)
  rw [htake] at hrev
  rw [ulltoa, hwrite, ok_bind]
  simp only
  rw [store_eq _ (by rw [length_splice_of_le (by omega)]; omega), ok_bind, splice_append (by omega)]
  simp only [splice, List.append_assoc, List.length_append, List.length_singleton,
    List.singleton_append, List.length_reverse, ← Nat.add_assoc]
  exact hrev

/-- **`lltoa`** writes the number with its sign and a NUL. -/
theorem lltoa_eq (hb : 2 ≤ base) (hb' : base ≤ 36) {v : BitVec 64} {buf : Bytes} {str : Nat}
    (hroom : str + (signedText base v).length < buf.length) :
    lltoa v buf str base = .ok (splice buf str (signedText base v ++ [0])) := by
  unfold signedText at hroom ⊢
  rw [lltoa]
  split
  case isTrue hneg =>
    rw [if_pos hneg, List.length_cons] at hroom
    rw [store_eq _ (by omega), ok_bind,
      ulltoa_eq hb hb' (by rw [length_splice_of_le (by rw [List.length_singleton]; omega)]; omega),
      show str + 1 = str + [(45 : Int8)].length from rfl, splice_append (by omega)]
    rfl
  case isFalse hpos =>
    rw [if_neg hpos] at hroom
    exact ulltoa_eq hb hb' hroom

/-! ## Reading it back -/

theorem digitOf_DIGITS : ∀ d < 36, digitOf (DIGITS.getD d 0) = some d := by decide

theorem lastFirst_lt (hb : 2 ≤ base) (v : Nat) : ∀ d ∈ lastFirst base v, d < base := by
  unfold lastFirst
  split
  · intro d hd
    rw [List.mem_singleton.mp hd]
    omega
  · exact fun d hd => Nat.digits_lt_base (by omega) hd

theorem unsignedText_digits (hb : 2 ≤ base) (hb' : base ≤ 36) (v : Nat) :
    ∀ c ∈ unsignedText base v, isDigitOf base c = true := by
  intro c hc
  rw [unsignedText_eq, List.mem_reverse, List.mem_map] at hc
  obtain ⟨d, hd, rfl⟩ := hc
  have hlt := lastFirst_lt hb v d hd
  rw [isDigitOf, digitOf_DIGITS d (by omega)]
  exact decide_eq_true hlt

theorem ofDigits_lastFirst (base v : Nat) : Nat.ofDigits base (lastFirst base v) = v := by
  unfold lastFirst
  split
  case isTrue hv => rw [hv, Nat.ofDigits_singleton]
  case isFalse => exact Nat.ofDigits_digits base v

/-- **The digits of a number have its value.** -/
theorem unsignedText_value (hb : 2 ≤ base) (hb' : base ≤ 36) (v : Nat) :
    digitsValue base 0 (unsignedText base v) = v := by
  have hdigits : ∀ ds : List Nat, (∀ d ∈ ds, d < base) →
      digitsValue base 0 (ds.map fun d => DIGITS.getD d 0).reverse = Nat.ofDigits base ds := by
    intro ds hds
    rw [digitsValue, List.foldl_reverse]
    induction ds with
    | nil => rfl
    | cons d ds ih =>
      have hd := hds d List.mem_cons_self
      rw [List.map_cons, List.foldr_cons, ih fun x hx => hds x (List.mem_cons_of_mem d hx),
        digitOf_DIGITS d (by omega), Option.getD_some, Nat.ofDigits_cons,
          Nat.mul_comm, Nat.add_comm]
  rw [unsignedText_eq, hdigits _ (lastFirst_lt hb v), ofDigits_lastFirst]

theorem isDigitOf_not_space {c : Int8} (h : isDigitOf base c = true) : isSpaceChar c = false := by
  have hall : (digitOf c).isSome = true → isSpaceChar c = false :=
    forall_char (P := fun c => (digitOf c).isSome = true → isSpaceChar c = false)
      (by decide +kernel) c
  apply hall
  cases hd : digitOf c with
  | none => rw [isDigitOf, hd] at h; cases h
  | some d => rfl

theorem isDigitOf_ne {c x : Int8} (h : isDigitOf base c = true)
    (hx : isDigitOf base x = false) : c ≠ x := by
  rintro rfl
  rw [h] at hx
  cases hx

theorem isDigitOf_sign (base : Nat) : isDigitOf base 45 = false ∧ isDigitOf base 43 = false :=
  ⟨rfl, rfl⟩

/-- Digits of the base have no prefix to it. -/
theorem cutPrefix_digits (hb : 2 ≤ base) {l : Bytes} (hl : ∀ c ∈ l, isDigitOf base c = true) :
    cutPrefix base l = (base, l) := by
  have hhex : ¬ ((base = 0 ∨ base = 16) ∧ hasHexPrefix l = true) := by
    rintro ⟨rfl | rfl, h⟩
    · omega
    · rcases l with _ | ⟨c, _ | ⟨x, l⟩⟩
      · cases h
      · simp [hasHexPrefix] at h
      · have hx := hl x (by simp)
        have h120 : x ≠ 120 := isDigitOf_ne hx (by decide)
        have h88 : x ≠ 88 := isDigitOf_ne hx (by decide)
        simp [hasHexPrefix, h120, h88] at h
  rw [cutPrefix, if_neg hhex, if_neg (by omega), if_neg (by omega)]

/-- What `strtoul` sees in digits. -/
theorem unsignedPart_digits {l : Bytes} (hl : ∀ c ∈ l, isDigitOf base c = true) :
    cutSign (l.dropWhile isSpaceChar) = (false, l) := by
  cases l with
  | nil => rfl
  | cons c l =>
    have hc := hl c List.mem_cons_self
    have h45 := isDigitOf_ne hc (isDigitOf_sign base).1
    have h43 := isDigitOf_ne hc (isDigitOf_sign base).2
    rw [List.dropWhile_cons, isDigitOf_not_space hc]
    simp [cutSign, h45, h43]

theorem numeral_of_cut (hb : 2 ≤ base) {s l : Bytes} {negative : Bool}
    (hl : ∀ c ∈ l, isDigitOf base c = true) (hcut : cutSign
      (s.dropWhile isSpaceChar) = (negative, l)) :
    numeral base s = ⟨negative, base, l, []⟩ := by
  have hpart : unsignedPart s = l := congrArg Prod.snd hcut
  rw [numeral, hpart, hcut, cutPrefix_digits hb hl]
  simp only
  rw [List.takeWhile_eq_self_iff.mpr hl, List.dropWhile_eq_nil_iff.mpr hl]

theorem strtoul_reads (s tail : Bytes) (hs : ∀ c ∈ s, c ≠ 0) (hb : base = 0 ∨ 2 ≤ base ∧ base ≤ 36)
    (hok : StrtoulOk base s) : strtoul (s ++ 0 :: tail) base = .ok (strtoulWanted base s tail) := by
  by_cases h8 : base = 8 ∧ (unsignedPart s).take 1 = [48]
  · obtain ⟨rfl, hu⟩ := h8
    exact (strtoul_octal s tail hs hu).mpr hok
  · exact (strtoul_meets_found s tail hs hb hok.2.2.1 h8).mpr hok

/-- **Digits with a sign are read.** -/
theorem strtoul_digits (hb : 2 ≤ base) (hb' : base ≤ 36) {s l : Bytes}
    {negative : Bool} (tail : Bytes) (hs : ∀ c ∈ s, c ≠ 0) (hl : ∀ c ∈ l, isDigitOf base c = true)
    (hcut : cutSign (s.dropWhile isSpaceChar) = (negative, l)) (hv : digitsValue base 0 l < 2 ^ 64)
    (h8 : ¬ (base = 8 ∧ l = [48])) :
    ∃ e, strtoul (s ++ 0 :: tail) base = .ok (signedValue negative (digitsValue base 0 l), e) := by
  have hnumeral := numeral_of_cut hb hl hcut
  have hpart : unsignedPart s = l := congrArg Prod.snd hcut
  have hok : StrtoulOk base s := by
    rw [StrtoulOk, hnumeral, hpart]
    refine ⟨hv, .inl rfl, ?_, h8⟩
    rintro ⟨rfl, hx⟩
    have hmem : (88 : Int8) ∈ l.take 2 := by
      rw [hx]
      exact List.mem_cons_of_mem 48 List.mem_cons_self
    exact isDigitOf_ne (x := 88) (hl 88 (List.mem_of_mem_take hmem)) (by decide) rfl
  have hread := strtoul_reads s tail hs (.inr ⟨hb, hb'⟩) hok
  rw [strtoulWanted, hnumeral] at hread
  exact ⟨_, hread⟩

theorem signedValue_ofNat (v : BitVec 64) : signedValue false v.toNat = v ∧
    signedValue true (-v).toNat = v := by
  constructor
  · rw [signedValue, if_neg (Nat.not_le.mpr v.isLt), if_neg (by decide), BitVec.ofNat_toNat,
      BitVec.setWidth_eq]
  · rw [signedValue, if_neg (Nat.not_le.mpr (-v).isLt), if_pos rfl, BitVec.ofNat_toNat,
      BitVec.setWidth_eq, BitVec.neg_neg]

theorem strtoul_zero_octal (tail : Bytes) : strtoul ([48] ++ 0 :: tail) 8 =
    .ok (0, [48] ++ 0 :: tail) := by
  simp [strtoul, skipSpaces, isspace_eq, isSpaceChar, deref, basePrefix, digitsLoop]

/-- **What `ulltoa` writes is read back.** -/
theorem strtoul_unsignedText (hb : 2 ≤ base) (hb' : base ≤ 36) (v : BitVec 64) (tail : Bytes) :
    ∃ e, strtoul (unsignedText base v.toNat ++ 0 :: tail) base = .ok (v, e) := by
  have hl := unsignedText_digits hb hb' v.toNat
  have hvalue := unsignedText_value hb hb' v.toNat
  by_cases h8 : base = 8 ∧ unsignedText base v.toNat = [48]
  · obtain ⟨rfl, htext⟩ := h8
    rw [htext] at hvalue ⊢
    have hv : v = 0 := BitVec.eq_of_toNat_eq hvalue.symm
    rw [hv]
    exact ⟨_, strtoul_zero_octal tail⟩
  · obtain ⟨e, h⟩ := strtoul_digits hb hb' tail (fun c hc => isDigitOf_ne_zero (hl c hc)) hl
      (unsignedPart_digits hl) (by rw [hvalue]; exact v.isLt) h8
    rw [hvalue, (signedValue_ofNat v).1] at h
    exact ⟨e, h⟩

/-- **What `lltoa` writes is read back.** -/
theorem strtoul_signedText (hb : 2 ≤ base) (hb' : base ≤ 36) (v : BitVec 64) (tail : Bytes) :
    ∃ e, strtoul (signedText base v ++ 0 :: tail) base = .ok (v, e) := by
  unfold signedText
  split
  case isFalse => exact strtoul_unsignedText hb hb' v tail
  case isTrue hneg =>
    have hl := unsignedText_digits hb hb' (-v).toNat
    have hvalue := unsignedText_value hb hb' (-v).toNat
    have h8 : ¬ (base = 8 ∧ unsignedText base (-v).toNat = [48]) := by
      rintro ⟨rfl, htext⟩
      rw [htext] at hvalue
      have hv : -v = 0 := BitVec.eq_of_toNat_eq hvalue.symm
      rw [BitVec.neg_eq_zero_iff.mp hv] at hneg
      exact absurd hneg (by decide)
    obtain ⟨e, h⟩ := strtoul_digits hb hb' tail
      (s := 45 :: unsignedText base (-v).toNat) (by
        intro c hc
        rcases List.mem_cons.mp hc with rfl | hc
        · decide
        · exact isDigitOf_ne_zero (hl c hc)) hl rfl (by rw [hvalue]; exact (-v).isLt) h8
    rw [hvalue, (signedValue_ofNat v).2] at h
    exact ⟨e, h⟩

theorem drop_splice_text {buf : Bytes} {str : Nat} {text : Bytes}
    (h : str + text.length < buf.length) :
    (splice buf str (text ++ [0])).drop str =
    text ++ 0 :: buf.drop (str + (text ++ [0]).length) := by
  rw [splice, List.append_assoc, List.drop_left' (List.length_take_of_le (by omega)),
    List.append_assoc]
  rfl

/-- **`strtoul` reads back what `ulltoa` and `lltoa` write** at `str` of a block with room for
it. -/
theorem number_round_trip (base : Nat) (hb : 2 ≤ base) (hb' : base ≤ 36)
    (v : BitVec 64) (buf : Bytes) (str : Nat) :
    (str + (unsignedText base v.toNat).length < buf.length →
      ∃ buf' e, ulltoa v buf str base = .ok buf' ∧ strtoul (buf'.drop str) base = .ok (v, e)) ∧
    (str + (signedText base v).length < buf.length →
      ∃ buf' e, lltoa v buf str base = .ok buf' ∧ strtoul (buf'.drop str) base = .ok (v, e)) := by
  constructor
  · intro hroom
    obtain ⟨e, he⟩ := strtoul_unsignedText hb hb' v
      (buf.drop (str + (unsignedText base v.toNat ++ [0]).length))
    exact ⟨_, e, ulltoa_eq hb hb' hroom, (congrArg (strtoul · base) (drop_splice_text hroom)).trans
      he⟩
  · intro hroom
    obtain ⟨e, he⟩ := strtoul_signedText hb hb' v
      (buf.drop (str + (signedText base v ++ [0]).length))
    exact ⟨_, e, lltoa_eq hb hb' hroom, (congrArg (strtoul · base) (drop_splice_text hroom)).trans
      he⟩

/-- The least `long long`, in base 8, in a block of 64 bytes. -/
theorem number_round_trip_least : ∃ buf' e,
    lltoa (BitVec.ofInt 64 (-(2 ^ 63))) (List.replicate 64 0) 0 8 = .ok buf' ∧
      strtoul (buf'.drop 0) 8 = .ok (BitVec.ofInt 64 (-(2 ^ 63)), e) :=
  (number_round_trip 8 (by omega) (by omega) (BitVec.ofInt 64 (-(2 ^ 63)))
    (List.replicate 64 0) 0).2 (by
      rw [signedText, if_pos (by decide), List.length_cons, unsignedText_eq, List.length_reverse,
        List.length_map, List.length_replicate]
      have hle := (Nat.digits_length_le_iff (show 1 < 8 by omega)
        (-BitVec.ofInt 64 (-(2 ^ 63))).toNat (k := 22)).mpr (by decide)
      rw [lastFirst, if_neg (by decide)]
      omega)

end AuOs
