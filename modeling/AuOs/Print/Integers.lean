import Mathlib
import AuOs.Print.Sinks

/-!
# Integers in formats

What a directive of a length modifier and an integer conversion prints, and what it should print.

* `IntConv`, `plain` — the directives without flag, width and precision.
* `c99Text` — **what should be printed**: the argument converted to the type of the modifier, in the
  base of the conversion.
* `integer_meets_iff` — **when it is printed**.
* `no_narrowing` — `"%hhd"` and 300.
-/

set_option autoImplicit false

namespace AuOs

/-- `d`, `i`, `u`, `o` and `x`. -/
inductive IntConv where
  | d | i | u | o | x
  deriving DecidableEq

namespace IntConv

def conv : IntConv → Conv
  | d => .d
  | i => .i
  | u => .u
  | o => .o
  | x => .x

def signed : IntConv → Bool
  | d | i => true
  | u | o | x => false

def base : IntConv → Nat
  | d | i | u => 10
  | o => 8
  | x => 16

end IntConv

/-- The directive of a length modifier and a conversion. -/
def plain (m : Modifier) (k : IntConv) : Directive :=
  ⟨none, [], none, m, k.conv, no_width, no_precision⟩

/-- The width of the type of a length modifier: `char`, `short`, `int`, `long` and `long long`. -/
def Modifier.bits : Modifier → Nat
  | hh => 8
  | h => 16
  | none => 32
  | l => 64
  | ll => 64

/-- **What should be printed** for the argument `w`. -/
def c99Text (m : Modifier) (k : IntConv) (w : BitVec 64) : Bytes :=
  if k.signed then signedText k.base ((w.setWidth m.bits).signExtend 64)
  else unsignedText k.base (w.setWidth m.bits).toNat

/-- The argument, an `int`, is a value of a type of `n` bits. -/
def InRange (n : Nat) (signed : Bool) (w : BitVec 64) : Prop :=
  if signed then -2 ^ (n - 1) ≤ (w.setWidth 32).toInt ∧ (w.setWidth 32).toInt < 2 ^ (n - 1)
  else (w.setWidth 32).toNat < 2 ^ n

/-- **When the directive prints what it should**: with `hh` and `h` the argument is a value of the
type. -/
def IntegerOk (m : Modifier) (k : IntConv) (w : BitVec 64) : Prop :=
  (m = .hh ∨ m = .h) → InRange m.bits k.signed w

variable {m : Modifier} {k : IntConv} {w : BitVec 64}

theorem IntConv.base_bounds (k : IntConv) : 2 ≤ k.base ∧ k.base ≤ 36 := by
  cases k <;> exact ⟨by decide, by decide⟩

theorem unsignedText_inj {base : Nat} (hb : 2 ≤ base) (hb' : base ≤ 36) {v v' : Nat} :
    unsignedText base v = unsignedText base v' ↔ v = v' := by
  constructor
  · intro h
    rw [← unsignedText_value hb hb' v, h, unsignedText_value hb hb']
  · rintro rfl
    rfl

theorem signedText_inj {base : Nat} (hb : 2 ≤ base) (hb' : base ≤ 36) {v v' : BitVec 64} :
    signedText base v = signedText base v' ↔ v = v' := by
  constructor
  · intro h
    obtain ⟨e, he⟩ := strtoul_signedText hb hb' v []
    obtain ⟨e', he'⟩ := strtoul_signedText hb hb' v' []
    rw [h, he'] at he
    cases he
    rfl
  · rintro rfl
    rfl

/-- What the directive does print. -/
theorem plain_render (mem : BitVec 64 → Bytes) (m : Modifier) (k : IntConv) (w : BitVec 64) :
    (plain m k).render mem w =
      if k.signed then signedText k.base ((plain m k).signedArg w)
      else unsignedText k.base ((plain m k).unsignedArg w).toNat := by
  cases k <;> rfl

theorem plain_isLong (m : Modifier) (k : IntConv) : (plain m k).isLong = decide (m.bits = 64) := by
  cases k <;> cases m <;> rfl

/-- Narrowing a signed argument keeps the values of the narrow type, and no others. -/
theorem signExtend_narrow {n : Nat} (hn : n = 8 ∨ n = 16) (w : BitVec 64) :
    (w.setWidth 32).signExtend 64 = (w.setWidth n).signExtend 64 ↔ InRange n true w := by
  have hdvd : 2 ^ n ∣ 2 ^ 32 := by rcases hn with rfl | rfl <;> decide
  have hint : (w.setWidth n).toInt = (w.setWidth 32).toInt.bmod (2 ^ n) := by
    rw [BitVec.toInt_setWidth, BitVec.toInt_setWidth, Int.bmod_bmod_of_dvd hdvd]
  rw [← BitVec.toInt_inj, BitVec.toInt_signExtend_of_le (by omega),
    BitVec.toInt_signExtend_of_le (by omega), hint, InRange, if_pos rfl]
  generalize (w.setWidth 32).toInt = y
  have hle := Int.le_bmod (x := y) (m := 2 ^ n) (Nat.two_pow_pos n)
  have hlt := Int.bmod_lt (x := y) (m := 2 ^ n) (Nat.two_pow_pos n)
  constructor
  · intro h
    rw [h]
    rcases hn with rfl | rfl <;> omega
  · rintro ⟨hlow, hhigh⟩
    rcases hn with rfl | rfl
    · exact (Int.bmod_eq_of_le (by omega) (by omega)).symm
    · exact (Int.bmod_eq_of_le (by omega) (by omega)).symm

/-- Narrowing an unsigned argument keeps the values of the narrow type, and no others. -/
theorem setWidth_narrow {n : Nat} (hn : n = 8 ∨ n = 16) (w : BitVec 64) :
    ((w.setWidth 32).setWidth 64).toNat = (w.setWidth n).toNat ↔ InRange n false w := by
  have hdvd : 2 ^ n ∣ 2 ^ 32 := by rcases hn with rfl | rfl <;> decide
  have hlt : w.toNat % 2 ^ 32 < 2 ^ 64 := (Nat.mod_lt _ (by decide)).trans (by decide)
  have hnat : (w.setWidth n).toNat = (w.setWidth 32).toNat % 2 ^ n := by
    rw [BitVec.toNat_setWidth, BitVec.toNat_setWidth, Nat.mod_mod_of_dvd _ hdvd]
  rw [InRange, if_neg Bool.false_ne_true, hnat, BitVec.toNat_setWidth 64, BitVec.toNat_setWidth 32,
    Nat.mod_eq_of_lt hlt, eq_comm, Nat.mod_eq_iff_lt (Nat.two_pow_pos n).ne']

/-- **The value that is printed is the right one**, exactly if the argument is in range. -/
theorem plain_render_iff (mem : BitVec 64 → Bytes) (m : Modifier) (k : IntConv) (w : BitVec 64) :
    (plain m k).render mem w = c99Text m k w ↔ IntegerOk m k w := by
  obtain ⟨hb, hb'⟩ := k.base_bounds
  have hlong := plain_isLong m k
  rw [plain_render, c99Text, IntegerOk]
  unfold Directive.signedArg Directive.unsignedArg
  rw [hlong]
  have hnarrow : ∀ n, n = 8 ∨ n = 16 → ((if k.signed then signedText k.base
      ((w.setWidth 32).signExtend 64)
      else unsignedText k.base ((w.setWidth 32).setWidth 64).toNat) =
      (if k.signed then signedText k.base ((w.setWidth n).signExtend 64)
      else unsignedText k.base (w.setWidth n).toNat) ↔ InRange n k.signed w) := by
    intro n hn
    cases hk : k.signed with
    | true => rw [if_pos rfl, if_pos rfl, signedText_inj hb hb', signExtend_narrow hn]
    | false =>
      rw [if_neg Bool.false_ne_true, if_neg Bool.false_ne_true, unsignedText_inj hb hb',
        setWidth_narrow hn]
  cases m with
  | hh => exact (hnarrow 8 (.inl rfl)).trans ⟨fun h _ => h, fun h => h (.inl rfl)⟩
  | h => exact (hnarrow 16 (.inr rfl)).trans ⟨fun h _ => h, fun h => h (.inr rfl)⟩
  | none =>
    refine iff_of_true ?_ (fun h => by rcases h with h | h <;> cases h)
    have hwide : ((w.setWidth 32).setWidth 64).toNat = (w.setWidth 32).toNat :=
      BitVec.toNat_setWidth_of_le (by omega)
    simp [Modifier.bits, hwide]
  | _ =>
    refine iff_of_true ?_ (fun h => by rcases h with h | h <;> cases h)
    simp [Modifier.bits]

theorem rendering_append (mem : BitVec 64 → Bytes) (before after : List Segment) (args : Args) :
    rendering mem (before ++ after) args =
      rendering mem before args ++ rendering mem after (args.drop (segmentsTaken before)) := by
  induction before generalizing args with
  | nil => rfl
  | cons seg before ih =>
    have htail := ih (args.drop seg.taken)
    rw [List.drop_drop] at htail
    unfold rendering at *
    rw [List.cons_append, pieces, pieces, List.flatten_cons, List.flatten_cons, htail,
      List.append_assoc]
    rfl

theorem rendering_directive (mem : BitVec 64 → Bytes) (m : Modifier) (k : IntConv)
    (after : List Segment) (args : Args) : rendering mem (.directive (plain m k) :: after) args =
      (plain m k).render mem (args.headD 0) ++ rendering mem after (args.drop 1) := by
  have htaken : (plain m k).taken = 1 := by cases k <;> rfl
  rw [rendering, pieces, List.flatten_cons, Segment.taken, htaken]
  rfl

/-- **When an integer directive prints what it should**, wherever it stands in a format string. -/
theorem integer_meets_iff (mem : BitVec 64 → Bytes) (before after : List Segment)
    (m : Modifier) (k : IntConv)
    (args : Args) (hmaximal : Maximal (before ++ .directive (plain m k) :: after))
    (hsupplied : Supplied mem (before ++ .directive (plain m k) :: after) args)
    (hmax : (rendering mem (before ++ .directive (plain m k) :: after) args).length ≤ INT_MAX) :
    (∃ ret, vprintf mem [] (segmentsText (before ++ .directive (plain m k) :: after) ++ [0]) args =
      .ok (ret, rendering mem before args ++ (c99Text m k (args.getD (segmentsTaken before) 0) ++
        rendering mem after (args.drop (segmentsTaken before + 1))))) ↔
    IntegerOk m k (args.getD (segmentsTaken before) 0) := by
  have hhead : (args.drop (segmentsTaken before)).headD 0 = args.getD (segmentsTaken before) 0 := by
    rw [List.headD_eq_head?_getD, List.head?_drop, List.getD_eq_getElem?_getD]
  have hrun := vprintf_rendering mem [] hmaximal hsupplied hmax
  rw [List.nil_append, rendering_append, rendering_directive, hhead, List.drop_drop] at hrun
  rw [hrun, ← plain_render_iff mem]
  constructor
  · rintro ⟨ret, h⟩
    have htext := congrArg Prod.snd (Except.ok.inj h)
    exact List.append_cancel_right (List.append_cancel_left htext)
  · intro h
    rw [h]
    exact ⟨_, rfl⟩

/-- `"%hd"` and -32768. -/
theorem integer_meets_least_short : ∃ ret,
    vprintf (fun _ => []) [] [37, 104, 100, 0] [BitVec.ofInt 64 (-32768)] =
      .ok (ret, c99Text .h .d (BitVec.ofInt 64 (-32768))) := by
  obtain ⟨ret, h⟩ := (integer_meets_iff (fun _ => []) [] [] .h .d
    [BitVec.ofInt 64 (-32768)] (.singleton _)
    ⟨⟨by decide, by decide⟩, trivial⟩ (by decide +kernel)).mpr (fun _ => ⟨by decide, by decide⟩)
  exact ⟨ret, h.trans (by simp [rendering, pieces, segmentsTaken])⟩

/-- **`h` and `hh` do not narrow**: `"%hhd"` prints 300 and should print 44; `"%hx"` prints
`ffffffff` for -1 and should print `ffff`. -/
theorem no_narrowing :
    vprintf (fun _ => []) [] [37, 104, 104, 100, 0] [300] = .ok (3, [51, 48, 48]) ∧
      c99Text .hh .d 300 = [52, 52] ∧
      vprintf (fun _ => []) [] [37, 104, 120, 0] [BitVec.ofInt 64 (-1)] =
        .ok (8, [102, 102, 102, 102, 102, 102, 102, 102]) ∧
      c99Text .h .x (BitVec.ofInt 64 (-1)) = [102, 102, 102, 102] := by
  decide +kernel

end AuOs
