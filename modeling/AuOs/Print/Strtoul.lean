import Mathlib
import AuOs.Print.Ctype

/-!
# Reading numbers

Reference model of `strtoul` of `stdlib.c`.  A string is the list of the bytes from a pointer to the
end of its block; a position in it is what is left from there.

* `strtoul` — the value and `*endptr`.
* `Numeral` — a string cut at the places that matter: white space, sign, prefix, digits, the rest.
  `numeral` cuts a string, `Numeral.value` and `Numeral.stop` are what should be returned.
* `digitsLoop_fits`, `digitsLoop_exceeds` — what the loop does with digits of the base.
* `strtoul_meets_iff` — **when `strtoul` returns what it should**.
* `trailing_text` — a number followed by a space.
-/

set_option autoImplicit false

namespace AuOs

def ULONG_MAX : BitVec 64 := BitVec.ofNat 64 (2 ^ 64 - 1)

/-- `*ptr`. -/
def deref : Bytes → Res Int8
  | [] => .error .fault
  | c :: _ => .ok c

/-- `while (isspace(*ptr)) ++ptr;` -/
def skipSpaces : Bytes → Res Bytes
  | [] => .error .fault
  | c :: ptr => if isspace c then skipSpaces ptr else .ok (c :: ptr)

/-- `digit`, an `int`: every character that is no digit is taken for a letter. -/
def charDigit (ch : Int8) : Int :=
  let c := toupper ch
  if isdigit c then c.toInt - 48 else c.toInt - 65 + 10

/-- The prefix for the base, and the base it gives.  With base 16 the comparison stands inside
`tolower`, so only a small `x` is found. -/
def basePrefix (ptr : Bytes) (base : Nat) : Res (Nat × Bytes) := do
  if base = 0 then
    if (← deref ptr) = 48 then
      if tolower (← deref ptr.tail) = 120 then return (16, ptr.tail.tail)
      else return (8, ptr.tail)
    else return (10, ptr)
  else if base = 8 ∧ (← deref ptr) = 48 then return (base, ptr.tail)
  else if base = 16 ∧ (← deref ptr) = 48 then
    if tolower (if (← deref ptr.tail) = 120 then 1 else 0) ≠ 0 then return (base, ptr.tail.tail)
    else return (base, ptr)
  else return (base, ptr)

/-- `while (*ptr)`: the value, where the loop ends and `consumed`. -/
def digitsLoop (base : BitVec 64) : Bytes → BitVec 64 → Bool → Res (BitVec 64 × Bytes × Bool)
  | [], _, _ => .error .fault
  | c :: ptr, ret, consumed =>
    if c = 0 then .ok (ret, c :: ptr, consumed)
    else
      let digit := BitVec.ofInt 64 (charDigit c)
      if ret > (ULONG_MAX - digit) / base then .ok (ULONG_MAX, c :: ptr, consumed)
      else digitsLoop base ptr (ret * base + digit) true

/-- `strtoul`, with an `endptr` that is not null: the value and `*endptr`. -/
def strtoul (str : Bytes) (base : Nat) : Res (BitVec 64 × Bytes) := do
  let ptr ← skipSpaces str
  let c ← deref ptr
  let negate := c = 45
  let ptr := if c = 45 ∨ c = 43 then ptr.tail else ptr
  let (base, ptr) ← basePrefix ptr base
  let (ret, ptr, consumed) ← digitsLoop (BitVec.ofNat 64 base) ptr 0 false
  return (if negate then -ret else ret, if consumed then ptr else str)

/-! ## What should be read -/

/-- Is the character a digit of the base? -/
def isDigitOf (base : Nat) (c : Int8) : Bool := (digitOf c).any (· < base)

/-- The value of digits, after those of `acc`. -/
def digitsValue (base acc : Nat) (l : Bytes) : Nat :=
  l.foldl (fun v c => v * base + (digitOf c).getD 0) acc

/-- The sign, and what is behind it. -/
def cutSign (s : Bytes) : Bool × Bytes :=
  if s.take 1 = [45] then (true, s.drop 1)
  else if s.take 1 = [43] then (false, s.drop 1)
  else (false, s)

/-- `0x` or `0X`. -/
def hasHexPrefix (s : Bytes) : Bool := s.take 2 == [48, 120] || s.take 2 == [48, 88]

/-- The base and what is behind its prefix: `0x` or `0X` for the bases 0 and 16, `0` for base 0. -/
def cutPrefix (base : Nat) (s : Bytes) : Nat × Bytes :=
  if (base = 0 ∨ base = 16) ∧ hasHexPrefix s then (16, s.drop 2)
  else if base = 0 ∧ s.take 1 = [48] then (8, s.drop 1)
  else if base = 0 then (10, s)
  else (base, s)

/-- A string, cut up: the sign, the base, the longest run of its digits and what follows. -/
structure Numeral where
  negative : Bool
  base : Nat
  digits : Bytes
  rest : Bytes
  deriving DecidableEq

/-- What is behind white space and sign. -/
def unsignedPart (s : Bytes) : Bytes := (cutSign (s.dropWhile isSpaceChar)).2

/-- **The numeral of a string.** -/
def numeral (base : Nat) (s : Bytes) : Numeral :=
  let (base', t) := cutPrefix base (unsignedPart s)
  { negative := (cutSign (s.dropWhile isSpaceChar)).1
    base := base'
    digits := t.takeWhile (isDigitOf base')
    rest := t.dropWhile (isDigitOf base') }

/-- A magnitude with its sign, in 64 bits. -/
def signedValue (negative : Bool) (m : Nat) : BitVec 64 :=
  if 2 ^ 64 ≤ m then ULONG_MAX else if negative then -BitVec.ofNat 64 m else BitVec.ofNat 64 m

namespace Numeral

variable (n : Numeral)

/-- The value of the digits. -/
def magnitude : Nat := digitsValue n.base 0 n.digits

/-- **The value to return**: negated after a minus sign, `ULONG_MAX` if it does not fit. -/
def value : BitVec 64 := signedValue n.negative n.magnitude

/-- **Where reading should stop**: behind the digits, or at the beginning if there are none.  `str`
is the whole string, `tail` what follows it in its block. -/
def stop (str tail : Bytes) : Bytes := if n.digits = [] then str else n.rest ++ tail

end Numeral

example : numeral 0 [32, 45, 48, 120, 49, 70, 103] = ⟨true, 16, [49, 70], [103]⟩ := by
  decide +kernel

/-! ## The loop over the digits -/

variable {base : Nat} {ret : BitVec 64} {consumed : Bool} {c : Int8} {s ptr : Bytes}

theorem ULONG_MAX_toNat : ULONG_MAX.toNat = 2 ^ 64 - 1 := by decide

theorem charDigit_eq {d : Nat} (h : digitOf c = some d) : charDigit c = d := by
  have hall : (digitOf c).all (fun d => charDigit c = d) = true :=
    forall_char (P := fun c => (digitOf c).all (fun d => charDigit c = d) = true)
      (by decide +kernel) c
  rw [h] at hall
  simpa using hall

theorem isDigitOf_ne_zero (h : isDigitOf base c = true) : c ≠ 0 := by
  rintro rfl
  rw [isDigitOf, show digitOf 0 = none by decide] at h
  cases h

theorem le_digitsValue (hb : 2 ≤ base) (acc : Nat) (l : Bytes) : acc ≤ digitsValue base acc l := by
  induction l generalizing acc with
  | nil => exact Nat.le_refl acc
  | cons c l ih =>
    have hmul : acc ≤ acc * base := Nat.le_mul_of_pos_right acc (by omega)
    exact (hmul.trans (Nat.le_add_right _ _)).trans (ih _)

theorem digitsValue_cons (acc : Nat) (c : Int8) (l : Bytes) :
    digitsValue base acc (c :: l) = digitsValue base (digitsValue base acc [c]) l := rfl

/-- **The test for overflow** is exact for digits of the base. -/
theorem digitsLoop_digit (hb : 2 ≤ base) (hb' : base ≤ 36) (hc : isDigitOf base c = true) {v : Nat}
    (hv : v < 2 ^ 64) : digitsLoop (BitVec.ofNat 64 base) (c :: ptr) (BitVec.ofNat 64 v) consumed =
      if 2 ^ 64 ≤ digitsValue base v [c] then .ok (ULONG_MAX, c :: ptr, consumed)
      else digitsLoop (BitVec.ofNat 64 base) ptr
          (BitVec.ofNat 64 (digitsValue base v [c])) true := by
  obtain ⟨d, hd, hlt⟩ : ∃ d, digitOf c = some d ∧ d < base := by
    cases hd : digitOf c with
    | none => rw [isDigitOf, hd] at hc; cases hc
    | some d => rw [isDigitOf, hd] at hc; exact ⟨d, rfl, of_decide_eq_true hc⟩
  have hvalue : digitsValue base v [c] = v * base + d := by
    simp [digitsValue, hd]
  have hdigit : BitVec.ofInt 64 (charDigit c) = BitVec.ofNat 64 d := by
    rw [charDigit_eq hd]
    exact BitVec.ofInt_natCast 64 d
  have hquot : ((ULONG_MAX - BitVec.ofNat 64 d) / BitVec.ofNat 64 base).toNat =
      (2 ^ 64 - 1 - d) / base := by
    have hsub : (2 ^ 64 - d + (2 ^ 64 - 1)) % 2 ^ 64 = 2 ^ 64 - 1 - d := by omega
    rw [BitVec.toNat_udiv, BitVec.toNat_sub, BitVec.toNat_ofNat, BitVec.toNat_ofNat,
      Nat.mod_eq_of_lt (show base < 2 ^ 64 by omega), Nat.mod_eq_of_lt (show d < 2 ^ 64 by omega),
      ULONG_MAX_toNat, hsub]
  have htest : BitVec.ofNat 64 v > (ULONG_MAX - BitVec.ofNat 64 d) / BitVec.ofNat 64 base ↔
      2 ^ 64 ≤ v * base + d := by
    rw [gt_iff_lt, BitVec.lt_def, hquot, BitVec.toNat_ofNat, Nat.mod_eq_of_lt hv,
      Nat.div_lt_iff_lt_mul (by omega)]
    omega
  have hnext : BitVec.ofNat 64 v * BitVec.ofNat 64 base + BitVec.ofNat 64 d =
      BitVec.ofNat 64 (v * base + d) := by
    rw [BitVec.ofNat_add, BitVec.ofNat_mul]
  rw [digitsLoop, if_neg (isDigitOf_ne_zero hc), hvalue]
  simp only [hdigit, htest, hnext]

/-- **Digits that fit** are all read. -/
theorem digitsLoop_fits (hb : 2 ≤ base) (hb' : base ≤ 36) {l : Bytes}
    (hl : ∀ c ∈ l, isDigitOf base c = true) {v : Nat} (hv : digitsValue base v l < 2 ^ 64) :
    digitsLoop (BitVec.ofNat 64 base) (l ++ ptr) (BitVec.ofNat 64 v) consumed =
      digitsLoop (BitVec.ofNat 64 base) ptr (BitVec.ofNat 64 (digitsValue base v l))
        (consumed || !l.isEmpty) := by
  induction l generalizing v consumed with
  | nil =>
    rw [List.nil_append, List.isEmpty_nil, Bool.not_true, Bool.or_false]
    rfl
  | cons c l ih =>
    rw [digitsValue_cons] at hv
    have hstep := le_digitsValue hb (digitsValue base v [c]) l
    have hv0 : v ≤ digitsValue base v [c] := le_digitsValue hb v [c]
    rw [List.cons_append, digitsLoop_digit hb hb' (hl c List.mem_cons_self) (by omega),
      if_neg (by omega), ih (fun x hx => hl x (List.mem_cons_of_mem c hx)) hv, Bool.true_or,
      List.isEmpty_cons, Bool.not_false, Bool.or_true, ← digitsValue_cons]

/-- **Digits that do not fit** end the loop at one of them. -/
theorem digitsLoop_exceeds (hb : 2 ≤ base) (hb' : base ≤ 36) {l : Bytes}
    (hl : ∀ c ∈ l, isDigitOf base c = true) (ptr : Bytes) {v : Nat} (hv : v < 2 ^ 64)
    (hover : 2 ^ 64 ≤ digitsValue base v l) : ∃ e consumed',
      digitsLoop (BitVec.ofNat 64 base) (l ++ ptr) (BitVec.ofNat 64 v) consumed =
        .ok (ULONG_MAX, e, consumed') ∧ ptr.length < e.length := by
  induction l generalizing v consumed with
  | nil => exact absurd hover (Nat.not_le.mpr hv)
  | cons c l ih =>
    rw [List.cons_append, digitsLoop_digit hb hb' (hl c List.mem_cons_self) hv]
    split
    case isTrue => exact ⟨_, _, rfl, by simp⟩
    case isFalse hfits =>
      exact ih (fun x hx => hl x (List.mem_cons_of_mem c hx)) (Nat.not_le.mp hfits) hover

/-- The loop ends at or before the terminating NUL, and does not forget that it consumed
something. -/
theorem digitsLoop_ends (base : BitVec 64) (s tail : Bytes) (ret : BitVec 64) (consumed : Bool) :
    ∃ ret' e consumed', digitsLoop base (s ++ 0 :: tail) ret consumed = .ok (ret', e, consumed') ∧
      e.length ≤ (s ++ 0 :: tail).length ∧ (consumed = true → consumed' = true) := by
  induction s generalizing ret consumed with
  | nil => exact ⟨ret, 0 :: tail, consumed, rfl, Nat.le_refl _, id⟩
  | cons c s ih =>
    rw [List.cons_append, digitsLoop]
    split
    · exact ⟨_, _, _, rfl, Nat.le_refl _, id⟩
    · simp only
      split
      · exact ⟨_, _, _, rfl, Nat.le_refl _, id⟩
      · obtain ⟨ret', e, consumed', hloop, hle, hkeep⟩ :=
          ih (ret * base + BitVec.ofInt 64 (charDigit c)) true
        exact ⟨ret', e, consumed', hloop, hle.trans (Nat.le_succ _), fun _ => hkeep rfl⟩

/-- A full `ret` does not take another character. -/
theorem digitsLoop_full (hb : 2 ≤ base) (hb' : base ≤ 36) (hc : c ≠ 0) :
    digitsLoop (BitVec.ofNat 64 base) (c :: ptr) ULONG_MAX consumed =
    .ok (ULONG_MAX, c :: ptr, consumed) := by
  rw [digitsLoop, if_neg hc]
  simp only
  apply if_pos
  rw [gt_iff_lt, BitVec.lt_def, BitVec.toNat_udiv, ULONG_MAX_toNat, BitVec.toNat_ofNat,
    Nat.mod_eq_of_lt (show base < 2 ^ 64 by omega), Nat.div_lt_iff_lt_mul (by omega)]
  have hlt := (ULONG_MAX - BitVec.ofInt 64 (charDigit c)).isLt
  calc _ < 2 ^ 64 := hlt
    _ ≤ (2 ^ 64 - 1) * 2 := by omega
    _ ≤ (2 ^ 64 - 1) * base := Nat.mul_le_mul_left _ hb

/-- A character in the way of the loop: it fills `ret` or it is consumed, whatever it is. -/
theorem digitsLoop_other (base : BitVec 64) (hc : c ≠ 0) (s tail : Bytes) (ret : BitVec 64)
    (consumed : Bool) :
    ∃ ret' e consumed', digitsLoop base (c :: s ++ 0 :: tail) ret consumed =
      .ok (ret', e, consumed') ∧ ((ret' = ULONG_MAX ∧ e = c :: s ++ 0 :: tail) ∨
        (consumed' = true ∧ e.length < (c :: s ++ 0 :: tail).length)) := by
  rw [List.cons_append, digitsLoop, if_neg hc]
  simp only
  split
  · exact ⟨_, _, _, rfl, .inl ⟨rfl, rfl⟩⟩
  · obtain ⟨ret', e, consumed', hloop, hle, hkeep⟩ :=
      digitsLoop_ends base s tail (ret * base + BitVec.ofInt 64 (charDigit c)) true
    exact ⟨ret', e, consumed', hloop, .inr ⟨hkeep rfl, Nat.lt_succ_of_le hle⟩⟩

/-- How the loop ends on digits of the value `v` and characters `r` behind them. -/
inductive LoopEnd (v : Nat) (r tail : Bytes) (consumed : Bool) :
    BitVec 64 × Bytes × Bool → Prop where
  /-- Nothing but digits, and their value fits. -/
  | all : r = [] → v < 2 ^ 64 → LoopEnd v r tail consumed (BitVec.ofNat 64 v, 0 :: tail, consumed)
  /-- The digits fill `ret`. -/
  | full : r ≠ [] → v = 2 ^ 64 - 1 → LoopEnd v r tail consumed (ULONG_MAX, r ++ 0 :: tail, consumed)
  /-- The character behind the digits is taken for one. -/
  | other {ret : BitVec 64} {e : Bytes} {consumed' : Bool} : r ≠ [] → v < 2 ^ 64 - 1 →
      ((ret = ULONG_MAX ∧ e = r ++ 0 :: tail) ∨
        (consumed' = true ∧ e.length < (r ++ 0 :: tail).length)) →
          LoopEnd v r tail consumed (ret, e, consumed')
  /-- The value does not fit. -/
  | exceeds {e : Bytes} {consumed' : Bool} : 2 ^ 64 ≤ v → (r ++ 0 :: tail).length < e.length →
      LoopEnd v r tail consumed (ULONG_MAX, e, consumed')

/-- **How the loop ends**, in every case. -/
theorem digitsLoop_spec (hb : 2 ≤ base) (hb' : base ≤ 36) {l r : Bytes} (tail : Bytes)
    (hl : ∀ c ∈ l, isDigitOf base c = true) (hr : ∀ c ∈ r, c ≠ 0) {v : Nat} (hv : v < 2 ^ 64)
    (consumed : Bool) : ∃ R, digitsLoop (BitVec.ofNat 64 base) (l ++ (r ++ 0 :: tail))
      (BitVec.ofNat 64 v)
      consumed = .ok R ∧ LoopEnd (digitsValue base v l) r tail (consumed || !l.isEmpty) R := by
  by_cases hover : 2 ^ 64 ≤ digitsValue base v l
  · obtain ⟨e, consumed', hloop, hlen⟩ := digitsLoop_exceeds hb hb' hl (r ++ 0 :: tail) hv hover
    exact ⟨_, hloop, .exceeds hover hlen⟩
  · rw [digitsLoop_fits hb hb' hl (Nat.not_le.mp hover)]
    cases r with
    | nil => exact ⟨_, rfl, .all rfl (Nat.not_le.mp hover)⟩
    | cons c r =>
      have hc : c ≠ 0 := hr c List.mem_cons_self
      by_cases hmax : digitsValue base v l = 2 ^ 64 - 1
      · rw [hmax]
        exact ⟨_, digitsLoop_full hb hb' hc, .full (List.cons_ne_nil c r) rfl⟩
      · obtain ⟨ret', e, consumed', hloop, hend⟩ :=
          digitsLoop_other (BitVec.ofNat 64 base) hc r tail
          (BitVec.ofNat 64 (digitsValue base v l)) (consumed || !l.isEmpty)
        exact ⟨_, hloop, .other (List.cons_ne_nil c r) (by omega) hend⟩

/-! ## White space, sign and prefix -/

theorem skipSpaces_eq (s tail : Bytes) :
    skipSpaces (s ++ 0 :: tail) = .ok (s.dropWhile isSpaceChar ++ 0 :: tail) := by
  induction s with
  | nil => rfl
  | cons c s ih =>
    rw [List.cons_append, skipSpaces, isspace_eq, List.dropWhile_cons]
    split
    · exact ih
    · rfl

/-- What `strtoul` returns for the result of its loop. -/
def strtoulResult (str : Bytes) (negative : Bool) (R : BitVec 64 × Bytes × Bool) :
    BitVec 64 × Bytes :=
  (if negative then -R.1 else R.1, if R.2.2 then R.2.1 else str)

/-- **`strtoul`** behind white space and sign. -/
theorem strtoul_eq (s tail : Bytes) (base : Nat) : strtoul (s ++ 0 :: tail) base = (do
    let (base, ptr) ← basePrefix (unsignedPart s ++ 0 :: tail) base
    let R ← digitsLoop (BitVec.ofNat 64 base) ptr 0 false
    .ok (strtoulResult (s ++ 0 :: tail) (cutSign (s.dropWhile isSpaceChar)).1 R)) := by
  rw [strtoul, skipSpaces_eq, ok_bind, unsignedPart]
  cases s.dropWhile isSpaceChar with
  | nil => rfl
  | cons c t =>
    rw [List.cons_append, deref, ok_bind]
    by_cases hminus : c = 45
    · subst hminus
      rfl
    · by_cases hplus : c = 43
      · subst hplus
        rfl
      · have hcut : cutSign (c :: t) = (false, c :: t) := by
          rw [cutSign, if_neg (by simpa using hminus), if_neg (by simpa using hplus)]
        simp only [hcut, hminus, hplus, or_self, if_false]
        rfl

theorem tolower_x (c : Int8) : tolower c = 120 ↔ c = 120 ∨ c = 88 :=
  forall_char (P := fun c => tolower c = 120 ↔ c = 120 ∨ c = 88) (by decide +kernel) c

/-- **The prefix is found**, but for `0X` with base 16; with base 8 a zero is skipped. -/
theorem basePrefix_eq (u tail : Bytes) (h16 : ¬ (base = 16 ∧ u.take 2 = [48, 88]))
    (h8 : ¬ (base = 8 ∧ u.take 1 = [48])) :
    basePrefix (u ++ 0 :: tail) base = .ok ((cutPrefix base u).1,
      (cutPrefix base u).2 ++ 0 :: tail) := by
  cases u with
  | nil =>
    unfold basePrefix cutPrefix hasHexPrefix
    by_cases h0 : base = 0
    · simp [h0, deref]
    · simp [h0, deref]
  | cons c u =>
    by_cases hc : c = 48
    case neg =>
      unfold basePrefix cutPrefix hasHexPrefix
      by_cases h0 : base = 0
      · simp [h0, deref, hc]
      · simp [h0, deref, hc]
    case pos =>
      subst hc
      have h8' : base ≠ 8 := fun h => h8 ⟨h, rfl⟩
      have h0l : tolower 0 = 0 := by decide
      have h1l : tolower 1 = 1 := by decide
      cases u with
      | nil =>
        unfold basePrefix cutPrefix hasHexPrefix
        by_cases h0 : base = 0
        · simp [h0, deref, tolower_x]
        · by_cases hb : base = 16
          · simp [hb, deref, h0l]
          · simp [h0, hb, h8', deref]
      | cons c' t =>
        unfold basePrefix cutPrefix hasHexPrefix
        by_cases h0 : base = 0
        · by_cases hx : c' = 120 ∨ c' = 88
          · simp [h0, deref, tolower_x, hx]
          · simp [h0, deref, tolower_x, hx]
        · by_cases hb : base = 16
          · have hX : c' ≠ 88 := by
              rintro rfl
              exact h16 ⟨hb, rfl⟩
            by_cases hx : c' = 120
            · simp [hb, deref, hx, h1l]
            · simp [hb, deref, hx, hX, h0l]
          · simp [h0, hb, h8', deref]

/-- Base 16 and `0X`: the prefix is not found. -/
theorem basePrefix_upper (t tail : Bytes) :
    basePrefix (48 :: 88 :: t ++ 0 :: tail) 16 = .ok (16, 48 :: 88 :: t ++ 0 :: tail) := by
  simp [basePrefix, deref, show tolower 0 = 0 by decide]

/-- Base 8 and a zero: it is skipped. -/
theorem basePrefix_octal (t tail : Bytes) :
    basePrefix (48 :: t ++ 0 :: tail) 8 = .ok (8, t ++ 0 :: tail) := by
  simp [basePrefix, deref]

/-! ## When the result is right -/

theorem signedValue_inj {negative : Bool} {m v : Nat} (hm : m ≤ v) (hv : v < 2 ^ 64) :
    (if negative then -BitVec.ofNat 64 v else BitVec.ofNat 64 v) = signedValue negative m ↔
    m = v := by
  have hinj : BitVec.ofNat 64 v = BitVec.ofNat 64 m ↔ m = v := by
    constructor
    · intro h
      have hnat := congrArg BitVec.toNat h
      rw [BitVec.toNat_ofNat, BitVec.toNat_ofNat, Nat.mod_eq_of_lt hv,
        Nat.mod_eq_of_lt (by omega)] at hnat
      exact hnat.symm
    · rintro rfl
      rfl
  have hsigned : signedValue negative m = if negative then -BitVec.ofNat 64
      m else BitVec.ofNat 64 m :=
    if_neg (by omega)
  rw [hsigned]
  cases negative with
  | true => simpa [BitVec.neg_inj] using hinj
  | false => simpa using hinj

/-- **Which ends of the loop are right**, where digits of the value `m` and then `r` should be read.
`none` says that there are no digits. -/
theorem LoopEnd.meets_iff {v m : Nat} {r tail : Bytes} {R : BitVec 64 × Bytes × Bool}
    (h : LoopEnd v r tail consumed R) (str : Bytes) (negative none : Bool) (hm : m ≤ v)
    (hnone : none = true → v < 2 ^ 64) (hlen : (r ++ 0 :: tail).length ≤ str.length)
    (hlt : consumed = true ∨ none = false → (r ++ 0 :: tail).length < str.length) :
    strtoulResult str negative R = (signedValue negative m, if none then str else r ++ 0 :: tail) ↔
      m = v ∧ v < 2 ^ 64 ∧ (r = [] ∨ v = 2 ^ 64 - 1) ∧ consumed = !none := by
  have hptr : (if consumed then r ++ 0 :: tail else str) = (if none then str else r ++ 0 :: tail) ↔
      consumed = !none := by
    cases consumed with
    | true =>
      have hne : r ++ 0 :: tail ≠ str := fun he => absurd (hlt (.inl rfl)) (by rw [he]; omega)
      cases none <;> simp [hne]
    | false =>
      cases none with
      | true => simp
      | false =>
        have hne : str ≠ r ++ 0 :: tail := fun he => absurd (hlt (.inr rfl)) (by rw [he]; omega)
        simp [hne]
  unfold strtoulResult
  rw [Prod.mk.injEq]
  cases h with
  | all hr hv =>
    subst hr
    rw [signedValue_inj hm hv, ← hptr]
    exact ⟨fun h => ⟨h.1, hv, .inl rfl, h.2⟩, fun h => ⟨h.1, h.2.2.2⟩⟩
  | full hr hv =>
    have hfull : ULONG_MAX = BitVec.ofNat 64 v := by rw [hv]; rfl
    rw [hfull, signedValue_inj hm (by omega), ← hptr]
    exact ⟨fun h => ⟨h.1, by omega, .inr hv, h.2⟩, fun h => ⟨h.1, h.2.2.2⟩⟩
  | @other ret e consumed' hr hv hend =>
    refine iff_of_false ?_ fun h => h.2.2.1.elim hr (by omega)
    rintro ⟨hvalue, hstop⟩
    rcases hend with ⟨hret, -⟩ | ⟨hcons, he⟩
    · have hfull : ULONG_MAX = BitVec.ofNat 64 (2 ^ 64 - 1) := rfl
      rw [hret, hfull, signedValue_inj (by omega) (by omega)] at hvalue
      omega
    · rw [if_pos hcons] at hstop
      have hlength : e.length = _ := congrArg List.length hstop
      split at hlength <;> omega
  | @exceeds e consumed' hv he =>
    refine iff_of_false ?_ (by omega)
    rintro ⟨-, hstop⟩
    cases none with
    | true => exact absurd (hnone rfl) (by omega)
    | false =>
      have hstr := hlt (.inr rfl)
      have hlength : (if consumed' = true then e else str).length = (r ++ 0 :: tail).length :=
        congrArg List.length hstop
      split at hlength <;> omega

theorem unsignedPart_suffix (s : Bytes) : unsignedPart s <:+ s := by
  have hdrop : s.dropWhile isSpaceChar <:+ s := List.dropWhile_suffix _
  unfold unsignedPart cutSign
  split
  · exact (List.drop_suffix 1 _).trans hdrop
  · split
    · exact (List.drop_suffix 1 _).trans hdrop
    · exact hdrop

theorem cutPrefix_suffix (base : Nat) (u : Bytes) : (cutPrefix base u).2 <:+ u := by
  unfold cutPrefix
  split
  · exact List.drop_suffix 2 u
  · split
    · exact List.drop_suffix 1 u
    · split <;> exact List.suffix_refl u

theorem cutPrefix_base (u : Bytes) (hb : base = 0 ∨ 2 ≤ base ∧ base ≤ 36) :
    2 ≤ (cutPrefix base u).1 ∧ (cutPrefix base u).1 ≤ 36 := by
  unfold cutPrefix
  split
  · exact ⟨by omega, by omega⟩
  · split
    · exact ⟨by omega, by omega⟩
    · split <;> exact ⟨by omega, by omega⟩

/-- Digits and rest are what is behind the prefix. -/
theorem numeral_split (base : Nat) (s : Bytes) :
    (numeral base s).digits ++ (numeral base s).rest = (cutPrefix base (unsignedPart s)).2 :=
  List.takeWhile_append_dropWhile ..

theorem numeral_suffix (base : Nat) (s : Bytes) :
    (numeral base s).digits ++ (numeral base s).rest <:+ s := by
  rw [numeral_split]
  exact (cutPrefix_suffix base _).trans (unsignedPart_suffix s)

theorem numeral_digits (base : Nat) (s : Bytes) :
    ∀ c ∈ (numeral base s).digits, isDigitOf (numeral base s).base c = true :=
  fun _ hc => List.mem_takeWhile_imp hc

/-- **When `strtoul` returns what it should**: the digits fit in 64 bits, they are followed by the
end of the string or they are the digits of `ULONG_MAX`, a prefix of base 16 is no `0X`, and with
base 8 there is more than a single zero. -/
def StrtoulOk (base : Nat) (s : Bytes) : Prop :=
  (numeral base s).magnitude < 2 ^ 64 ∧
    ((numeral base s).rest = [] ∨ (numeral base s).magnitude = 2 ^ 64 - 1) ∧
    ¬ (base = 16 ∧ (unsignedPart s).take 2 = [48, 88]) ∧
      ¬ (base = 8 ∧ (numeral base s).digits = [48])

/-- The result that a string should give. -/
def strtoulWanted (base : Nat) (s tail : Bytes) : BitVec 64 × Bytes :=
  ((numeral base s).value, (numeral base s).stop (s ++ 0 :: tail) (0 :: tail))

/-- **From the loop to the result**: the loop runs on digits of the value `v` and then on the
rest. -/
theorem strtoul_meets_of_loop {s tail : Bytes} {b v : Nat} {ptr : Bytes}
    {R : BitVec 64 × Bytes × Bool}
    (hpre : basePrefix (unsignedPart s ++ 0 :: tail) base = .ok (b, ptr))
    (hloop : digitsLoop (BitVec.ofNat 64 b) ptr 0 false = .ok R)
    (hend : LoopEnd v (numeral base s).rest tail consumed R) (hm : (numeral base s).magnitude ≤ v)
    (hnone : (numeral base s).digits = [] → v < 2 ^ 64)
    (hlt : consumed = true → (numeral base s).rest.length < s.length) :
    strtoul (s ++ 0 :: tail) base = .ok (strtoulWanted base s tail) ↔
      (numeral base s).magnitude = v ∧ v < 2 ^ 64 ∧ ((numeral base s).rest = [] ∨ v = 2 ^ 64 - 1) ∧
        consumed = !(numeral base s).digits.isEmpty := by
  have hlen := (numeral_suffix base s).length_le
  rw [List.length_append] at hlen
  have hstop : strtoulWanted base s tail = (signedValue (numeral base s).negative
      (numeral base s).magnitude,
      if (numeral base s).digits.isEmpty = true then s ++ 0 :: tail else (numeral base s).rest ++
          0 :: tail) := by
    unfold strtoulWanted Numeral.value Numeral.stop
    simp only [List.isEmpty_iff]
  have hresult : strtoul (s ++ 0 :: tail) base =
      .ok (strtoulResult (s ++ 0 :: tail) (numeral base s).negative R) := by
    rw [strtoul_eq, hpre, ok_bind]
    simp only [hloop, ok_bind]
    rfl
  rw [hresult, hstop, Except.ok.injEq]
  apply hend.meets_iff (s ++ 0 :: tail) _ _ hm
  · rw [List.isEmpty_iff]
    exact hnone
  · rw [List.length_append, List.length_append]
    omega
  · rw [List.length_append, List.length_append]
    rintro (hcons | hnonempty)
    · have := hlt hcons
      omega
    · have hpos : 0 < (numeral base s).digits.length :=
        List.length_pos_iff.mpr fun h => by rw [h] at hnonempty; cases hnonempty
      omega

/-- The prefix is found as it should be. -/
theorem strtoul_meets_found (s tail : Bytes) (hs : ∀ c ∈ s, c ≠ 0)
    (hb : base = 0 ∨ 2 ≤ base ∧ base ≤ 36)
    (h16 : ¬ (base = 16 ∧ (unsignedPart s).take 2 = [48, 88]))
    (h8 : ¬ (base = 8 ∧ (unsignedPart s).take 1 = [48])) :
    strtoul (s ++ 0 :: tail) base = .ok (strtoulWanted base s tail) ↔ StrtoulOk base s := by
  obtain ⟨hb2, hb36⟩ := cutPrefix_base (unsignedPart s) hb
  have hsuffix := numeral_suffix base s
  have hpre := basePrefix_eq (unsignedPart s) tail h16 h8
  rw [← numeral_split, List.append_assoc] at hpre
  obtain ⟨R, hloop, hend⟩ := digitsLoop_spec hb2 hb36 tail (numeral_digits base s)
    (fun c hc => hs c (hsuffix.subset (List.mem_append_right _ hc)))
      (show 0 < 2 ^ 64 by omega) false
  have hmeets := strtoul_meets_of_loop hpre hloop hend (Nat.le_refl _)
    (fun h => by rw [h]; exact Nat.two_pow_pos 64) (fun h => by
      have hlen := hsuffix.length_le
      have hpos : 0 < (numeral base s).digits.length :=
        List.length_pos_iff.mpr fun h' => by rw [h'] at h; cases h
      rw [List.length_append] at hlen
      omega)
  have hnot8 : ¬ (base = 8 ∧ (numeral base s).digits = [48]) := by
    rintro ⟨rfl, hdigits⟩
    have hsplit := numeral_split 8 s
    rw [hdigits] at hsplit
    refine h8 ⟨rfl, ?_⟩
    rw [show unsignedPart s = (cutPrefix 8 (unsignedPart s)).2 from rfl, ← hsplit]
    rfl
  rw [hmeets]
  exact ⟨fun h => ⟨h.2.1, h.2.2.1, h16, hnot8⟩, fun h => ⟨rfl, h.1, h.2.1, rfl⟩⟩

theorem digitsValue_lt (hb : 0 < base) {a b : Nat} (h : a < b) (l : Bytes) :
    digitsValue base a l < digitsValue base b l := by
  induction l generalizing a b with
  | nil => exact h
  | cons c l ih => exact ih (Nat.add_lt_add_right (Nat.mul_lt_mul_of_pos_right h hb) _)

/-- Base 16 and `0X`: the `X` is taken for a digit. -/
theorem strtoul_upper (s tail : Bytes) (hs : ∀ c ∈ s, c ≠ 0)
    (hu : (unsignedPart s).take 2 = [48, 88]) :
    strtoul (s ++ 0 :: tail) 16 ≠ .ok (strtoulWanted 16 s tail) := by
  obtain ⟨t, ht⟩ : ∃ t, unsignedPart s = 48 :: 88 :: t :=
    ⟨(unsignedPart s).drop 2, ((List.take_append_drop 2 _).symm.trans (by rw [hu]; rfl))⟩
  have hcut : cutPrefix 16 (unsignedPart s) = (16, t) := by rw [ht]; rfl
  have hsplit := numeral_split 16 s
  have hbase : (numeral 16 s).base = 16 := by
    show (cutPrefix 16 (unsignedPart s)).1 = 16
    rw [hcut]
  have hdigits := numeral_digits 16 s
  have hsuffix := numeral_suffix 16 s
  have hlen := (unsignedPart_suffix s).length_le
  rw [hbase] at hdigits
  rw [hcut] at hsplit
  obtain ⟨R, hloop, hend⟩ := digitsLoop_spec (show 2 ≤ 16 by omega) (by omega) tail hdigits
    (fun c hc => hs c (hsuffix.subset (List.mem_append_right _ hc)))
      (show 33 < 2 ^ 64 by omega) true
  have hpre := basePrefix_upper t tail
  rw [← ht] at hpre
  have hfirst : digitsLoop (BitVec.ofNat 64 16) (unsignedPart s ++ 0 :: tail) 0 false = .ok R := by
    rw [← hloop, ← List.append_assoc, hsplit, ht]
    rfl
  have hm : (numeral 16 s).magnitude < digitsValue 16 33 (numeral 16 s).digits := by
    unfold Numeral.magnitude
    rw [hbase]
    exact digitsValue_lt (by omega) (by omega) _
  rw [Ne, strtoul_meets_of_loop hpre hfirst hend (Nat.le_of_lt hm) (fun h => by rw [h]; decide)
    (fun _ => by
      have hrest := congrArg List.length hsplit
      have hu' := congrArg List.length ht
      simp only [List.length_append, List.length_cons] at hrest hu'
      omega)]
  omega

/-- Base 8 and a zero: the zero does not count as a digit. -/
theorem strtoul_octal (s tail : Bytes) (hs : ∀ c ∈ s, c ≠ 0) (hu : (unsignedPart s).take 1 = [48]) :
    strtoul (s ++ 0 :: tail) 8 = .ok (strtoulWanted 8 s tail) ↔ StrtoulOk 8 s := by
  obtain ⟨t, ht⟩ : ∃ t, unsignedPart s = 48 :: t :=
    ⟨(unsignedPart s).drop 1, ((List.take_append_drop 1 _).symm.trans (by rw [hu]; rfl))⟩
  have hcut : cutPrefix 8 (unsignedPart s) = (8, 48 :: t) := by rw [ht]; rfl
  have hdigits : (numeral 8 s).digits = 48 :: t.takeWhile (isDigitOf 8) := by
    show (cutPrefix 8 (unsignedPart s)).2.takeWhile _ = _
    rw [hcut]
    rfl
  have hrest : (numeral 8 s).rest = t.dropWhile (isDigitOf 8) := by
    show (cutPrefix 8 (unsignedPart s)).2.dropWhile _ = _
    rw [hcut]
    rfl
  have hbase : (numeral 8 s).base = 8 := by
    show (cutPrefix 8 (unsignedPart s)).1 = 8
    rw [hcut]
  have hm : (numeral 8 s).magnitude = digitsValue 8 0 (t.takeWhile (isDigitOf 8)) := by
    unfold Numeral.magnitude
    rw [hbase, hdigits, digitsValue_cons]
    rfl
  have hlen := (numeral_suffix 8 s).length_le
  have hsub : ∀ c ∈ (numeral 8 s).rest, c ≠ 0 := fun c hc =>
    hs c ((numeral_suffix 8 s).subset (List.mem_append_right _ hc))
  have hoctal : ∀ c ∈ t.takeWhile (isDigitOf 8), isDigitOf 8 c = true :=
    fun _ hc => List.mem_takeWhile_imp hc
  obtain ⟨R, hloop, hend⟩ := digitsLoop_spec (show 2 ≤ 8 by omega) (by omega) tail hoctal hsub
    (show 0 < 2 ^ 64 by omega) false
  have hpre := basePrefix_octal t tail
  have hsplit : t = t.takeWhile (isDigitOf 8) ++ (numeral 8 s).rest := by
    rw [hrest]
    exact List.takeWhile_append_dropWhile.symm
  have hptr : t ++ 0 :: tail = t.takeWhile (isDigitOf 8) ++ ((numeral 8 s).rest ++ 0 :: tail) := by
    rw [← List.append_assoc, ← hsplit]
  rw [← ht, hptr] at hpre
  have hmeets := strtoul_meets_of_loop hpre hloop hend (Nat.le_of_eq hm)
    (fun h => by rw [hdigits] at h; cases h) (fun _ => by
      rw [List.length_append, hdigits, List.length_cons] at hlen
      omega)
  have hone : (numeral 8 s).digits = [48] ↔ t.takeWhile (isDigitOf 8) = [] := by
    rw [hdigits, List.cons.injEq]
    exact and_iff_right rfl
  have hempty : (t.takeWhile (isDigitOf 8)).isEmpty = false ↔ t.takeWhile (isDigitOf 8) ≠ [] := by
    rw [← Bool.not_eq_true, List.isEmpty_iff]
  rw [hmeets, StrtoulOk, hm, hone]
  simp only [hdigits, Bool.false_or, List.isEmpty_cons, Bool.not_false, Bool.not_eq_true', hempty]
  simp

/-- **When `strtoul` reads a number right.** -/
theorem strtoul_meets_iff (s tail : Bytes) (base : Nat) (hs : ∀ c ∈ s, c ≠ 0)
    (hb : base = 0 ∨ 2 ≤ base ∧ base ≤ 36) :
    strtoul (s ++ 0 :: tail) base = .ok (strtoulWanted base s tail) ↔ StrtoulOk base s := by
  by_cases h16 : base = 16 ∧ (unsignedPart s).take 2 = [48, 88]
  · obtain ⟨rfl, hu⟩ := h16
    exact iff_of_false (strtoul_upper s tail hs hu) fun h => h.2.2.1 ⟨rfl, hu⟩
  · by_cases h8 : base = 8 ∧ (unsignedPart s).take 1 = [48]
    · obtain ⟨rfl, hu⟩ := h8
      exact strtoul_octal s tail hs hu
    · exact strtoul_meets_found s tail hs hb h16 h8

/-- `"-12"`, base 10. -/
theorem strtoul_meets_minus_twelve :
    strtoul ([45, 49, 50] ++ 0 :: []) 10 = .ok (strtoulWanted 10 [45, 49, 50] []) :=
  (strtoul_meets_iff [45, 49, 50] [] 10 (by decide +kernel) (by omega)).mpr
    (by unfold StrtoulOk; decide +kernel)

/-- **Text behind a number is taken for digits**: `"12 "` is said not to fit, `"12z"` is 155.
`"0X1F"`, base 16, is `0x211F`, and `"0"`, base 8, has no digit. -/
theorem trailing_text :
    strtoul [49, 50, 32, 0] 10 = .ok (ULONG_MAX, [32, 0]) ∧
      strtoulWanted 10 [49, 50, 32] [] = (12, [32, 0]) ∧
      strtoul [49, 50, 122, 0] 10 = .ok (155, [0]) ∧
      strtoulWanted 10 [49, 50, 122] [] = (12, [122, 0]) ∧
      strtoul [48, 88, 49, 70, 0] 16 = .ok (0x211F, [0]) ∧
      strtoulWanted 16 [48, 88, 49, 70] [] = (0x1F, [0]) ∧
      strtoul [48, 0] 8 = .ok (0, [48, 0]) ∧ strtoulWanted 8 [48] [] = (0, [0]) := by
  decide +kernel

end AuOs
