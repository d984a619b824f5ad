import Mathlib
import AuOs.Print.Strtoul

/-!
# Format strings

Reference model of `decode_format` of `print.c`, and the directives it is for.

* `decodeFormat` — the next literal run or directive, as the bits of its type, and what is behind
  it.
* `Directive` — a directive of the form `%[-+ #0][digits][.digits][hh|h|l|ll][pxXodiusc%]`.
* `decodeFormat_literal`, `decodeFormat_directive` — what is read of either.
* `decodeFormat_malformed` — a `%` that begins no directive has the type `FMT_INVALID`.
-/

set_option autoImplicit false

namespace AuOs

/-! ## `enum format_type` and `enum fromat_spec` -/

def FMT_INVALID : Nat := 0
def FMT_NONE : Nat := 1
def FMT_STR : Nat := 2
def FMT_CHAR : Nat := 3
def FMT_INT : Nat := 4
def FMT_PERCENT : Nat := 5

def FMT_SSHORT : Nat := 1 <<< 8
def FMT_SHORT : Nat := 1 <<< 9
def FMT_LONG : Nat := 1 <<< 10
def FMT_LLONG : Nat := 1 <<< 11
def FMT_UNSIGNED : Nat := 1 <<< 12
def FMT_HEX : Nat := 1 <<< 13
def FMT_OCT : Nat := 1 <<< 14

/-- `-`, `+`, space, `#` or `0` is skipped. -/
def skipFlag (fmt : Bytes) : Res Bytes := do
  let c ← deref fmt
  return if c = 45 ∨ c = 43 ∨ c = 32 ∨ c = 35 ∨ c = 48 then fmt.tail else fmt

/-- `while (*fmt && isdigit(*fmt)) ++fmt;` -/
def skipDigits : Bytes → Res Bytes
  | [] => .error .fault
  | c :: fmt => if c ≠ 0 ∧ isdigit c then skipDigits fmt else .ok (c :: fmt)

/-- A `.` and digits are skipped. -/
def skipPrecision (fmt : Bytes) : Res Bytes := do
  if (← deref fmt) = 46 then skipDigits fmt.tail else return fmt

/-- `l`, `ll`, `h` or `hh`: `spec`. -/
def lengthModifier (fmt : Bytes) : Res (Nat × Bytes) := do
  let c ← deref fmt
  if c = 108 then
    if (← deref fmt.tail) = 108 then return (FMT_LLONG, fmt.tail.tail)
    else return (FMT_LONG, fmt.tail)
  else if c = 104 then
    if (← deref fmt.tail) = 104 then return (FMT_SSHORT, fmt.tail.tail)
    else return (FMT_SHORT, fmt.tail)
  else return (0, fmt)

/-- `switch ((c = *fmt++))`: `type` and `spec`.  `p` falls through to `x`, `X` and `o`, these to
`u`, and `u` to `d` and `i`. -/
def conversion (c : Int8) (spec : Nat) : Nat × Nat :=
  let spec := if c = 112 then spec ||| FMT_LONG else spec
  let spec := if c = 112 ∨ c = 120 ∨ c = 88 ∨ c = 111 then
    spec ||| (if c = 111 then FMT_OCT else FMT_HEX) else spec
  let spec := if c = 112 ∨ c = 120 ∨ c = 88 ∨ c = 111 ∨ c = 117 then spec ||| FMT_UNSIGNED else spec
  let type :=
    if c = 112 ∨ c = 120 ∨ c = 88 ∨ c = 111 ∨ c = 117 ∨ c = 100 ∨ c = 105 then FMT_INT
    else if c = 115 then FMT_STR
    else if c = 99 then FMT_CHAR
    else if c = 37 then FMT_PERCENT
    else FMT_INVALID
  (type, spec)

/-- The body of the loop behind a `%`: `type | spec`, and where `fmt` stands. -/
def decodeDirective (fmt : Bytes) : Res (Nat × Bytes) := do
  let fmt ← skipFlag fmt
  let fmt ← skipDigits fmt
  let fmt ← skipPrecision fmt
  let (spec, fmt) ← lengthModifier fmt
  let c ← deref fmt
  let (type, spec) := conversion c spec
  return (type ||| spec, fmt.tail)

/-- `while (*fmt)`: a directive ends it, and so does a `%` behind other characters. -/
def decodeLoop (type : Nat) : Bytes → Res (Nat × Bytes)
  | [] => .error .fault
  | c :: fmt =>
    if c = 0 then .ok (type, c :: fmt)
    else if c = 37 ∧ type ≠ FMT_INVALID then .ok (type, c :: fmt)
    else if c ≠ 37 then decodeLoop FMT_NONE fmt
    else decodeDirective fmt

/-- `decode_format`. -/
def decodeFormat (fmt : Bytes) : Res (Nat × Bytes) := decodeLoop FMT_INVALID fmt

/-! ## Directives -/

/-- `-`, `+`, space, `#` and `0`. -/
inductive Flag where
  | minus | plus | space | hash | zero
  deriving DecidableEq

def Flag.char : Flag → Int8
  | minus => 45
  | plus => 43
  | space => 32
  | hash => 35
  | zero => 48

/-- `hh`, `h`, nothing, `l` and `ll`. -/
inductive Modifier where
  | hh | h | none | l | ll
  deriving DecidableEq

namespace Modifier

def text : Modifier → Bytes
  | hh => [104, 104]
  | h => [104]
  | none => []
  | l => [108]
  | ll => [108, 108]

def spec : Modifier → Nat
  | hh => FMT_SSHORT
  | h => FMT_SHORT
  | none => 0
  | l => FMT_LONG
  | ll => FMT_LLONG

end Modifier

/-- `p`, `x`, `X`, `o`, `u`, `d`, `i`, `s`, `c` and `%`. -/
inductive Conv where
  | p | x | X | o | u | d | i | s | c | percent
  deriving DecidableEq

def Conv.char : Conv → Int8
  | p => 112
  | x => 120
  | X => 88
  | o => 111
  | u => 117
  | d => 100
  | i => 105
  | s => 115
  | c => 99
  | percent => 37

/-- **A directive**: `%[-+ #0][digits][.digits][hh|h|l|ll][pxXodiusc%]`. -/
structure Directive where
  flag : Option Flag
  width : Bytes
  precision : Option Bytes
  modifier : Modifier
  conv : Conv
  width_digits : ∀ c ∈ width, isdigit c = true
  precision_digits : ∀ ds ∈ precision, ∀ c ∈ ds, isdigit c = true

theorem no_width : ∀ c ∈ ([] : Bytes), isdigit c = true := List.forall_mem_nil _

theorem no_precision : ∀ ds ∈ (none : Option Bytes), ∀ c ∈ ds, isdigit c = true :=
  fun _ h => absurd h (Option.not_mem_none _)

/-- The flag as it is written. -/
def flagText (flag : Option Flag) : Bytes := (flag.map Flag.char).toList

/-- The precision as it is written. -/
def precisionText : Option Bytes → Bytes
  | none => []
  | some ds => 46 :: ds

namespace Directive

variable (d : Directive)

/-- The directive as it is written, behind the `%`. -/
def body : Bytes :=
  flagText d.flag ++ (d.width ++ (precisionText d.precision ++ (d.modifier.text ++ [d.conv.char])))

/-- **The directive as it is written.** -/
def text : Bytes := 37 :: d.body

/-- `type | spec` of the directive. -/
def code : Nat :=
  (conversion d.conv.char d.modifier.spec).1 ||| (conversion d.conv.char d.modifier.spec).2

end Directive

/-! ## Reading a directive -/

variable {c : Int8} {fmt rest : Bytes} {ds : Bytes}

/-- A character that ends digits and is no flag. -/
def Stops (fmt : Bytes) : Prop :=
  ∃ c fmt', fmt = c :: fmt' ∧ isdigit c = false ∧ ¬ (c = 45 ∨ c = 43 ∨ c = 32 ∨ c = 35)

theorem skipDigits_append (hds : ∀ c ∈ ds, isdigit c = true) (h : Stops fmt) :
    skipDigits (ds ++ fmt) = .ok fmt := by
  induction ds with
  | nil =>
    obtain ⟨c, fmt, rfl, hc, -⟩ := h
    rw [List.nil_append, skipDigits, if_neg (by simp [hc])]
  | cons c ds ih =>
    have hc := hds c List.mem_cons_self
    have hne : c ≠ 0 := by
      rintro rfl
      exact absurd hc (by decide)
    rw [List.cons_append, skipDigits, if_pos ⟨hne, hc⟩]
    exact ih fun x hx => hds x (List.mem_cons_of_mem c hx)

theorem skipFlag_skipDigits (flag : Option Flag) (hds : ∀ c ∈ ds, isdigit c = true)
    (h : Stops fmt) : (skipFlag (flagText flag ++ (ds ++ fmt)) >>= skipDigits) = .ok fmt := by
  cases flag with
  | some f =>
    have hflag : skipFlag (f.char :: (ds ++ fmt)) = .ok (ds ++ fmt) := by cases f <;> rfl
    exact (congrArg (· >>= skipDigits) hflag).trans (skipDigits_append hds h)
  | none =>
    cases ds with
    | nil =>
      obtain ⟨c, fmt, rfl, hc, hflag⟩ := id h
      have h48 : c ≠ 48 := by
        rintro rfl
        exact absurd hc (by decide)
      have hnone : ¬ (c = 45 ∨ c = 43 ∨ c = 32 ∨ c = 35 ∨ c = 48) := by
        rintro (hc | hc | hc | hc | hc)
        · exact hflag (.inl hc)
        · exact hflag (.inr (.inl hc))
        · exact hflag (.inr (.inr (.inl hc)))
        · exact hflag (.inr (.inr (.inr hc)))
        · exact h48 hc
      have hskip : skipFlag (c :: fmt) = .ok (c :: fmt) := by
        rw [skipFlag, deref, ok_bind, if_neg hnone]
        rfl
      exact (congrArg (· >>= skipDigits) hskip).trans (skipDigits_append hds h)
    | cons c ds =>
      have htail : ∀ x ∈ ds, isdigit x = true := fun x hx => hds x (List.mem_cons_of_mem c hx)
      have hskip : skipFlag (c :: (ds ++ fmt)) = .ok (ds ++ fmt) ∨
          skipFlag (c :: (ds ++ fmt)) = .ok (c :: ds ++ fmt) := by
        rw [skipFlag, deref, ok_bind]
        split
        · exact .inl rfl
        · exact .inr rfl
      rcases hskip with hskip | hskip
      · exact (congrArg (· >>= skipDigits) hskip).trans (skipDigits_append htail h)
      · exact (congrArg (· >>= skipDigits) hskip).trans (skipDigits_append hds h)

theorem modifier_stops (m : Modifier) (k : Conv) (rest : Bytes) :
    Stops (m.text ++ k.char :: rest) ∧ (m.text ++ k.char :: rest).head? ≠ some 46 := by
  cases m with
  | none =>
    cases k <;> exact ⟨⟨_, _, rfl, by decide, by decide⟩, by simp [Conv.char, Modifier.text]⟩
  | _ => exact ⟨⟨_, _, rfl, by decide, by decide⟩, by simp [Modifier.text]⟩

theorem skipPrecision_append {precision : Option Bytes}
    (hds : ∀ ds ∈ precision, ∀ c ∈ ds, isdigit c = true) (h : Stops fmt)
    (hhead : fmt.head? ≠ some 46) : skipPrecision (precisionText precision ++ fmt) = .ok fmt := by
  cases precision with
  | some ds => exact skipDigits_append (hds ds rfl) h
  | none =>
    obtain ⟨c, fmt, rfl, -, -⟩ := h
    have hc : c ≠ 46 := fun hc => hhead (congrArg some hc)
    rw [precisionText, List.nil_append, skipPrecision, deref, ok_bind, if_neg hc]
    rfl

theorem precision_stops (precision : Option Bytes) (h : Stops fmt) :
    Stops (precisionText precision ++ fmt) := by
  cases precision with
  | none => exact h
  | some ds => exact ⟨46, ds ++ fmt, rfl, by decide, by decide⟩

theorem lengthModifier_append (m : Modifier) (k : Conv) (rest : Bytes) :
    lengthModifier (m.text ++ k.char :: rest) = .ok (m.spec, k.char :: rest) := by
  cases m with
  | hh => rfl
  | ll => rfl
  | _ => cases k <;> rfl

/-- **A directive is read to its end.** -/
theorem decodeFormat_directive (d : Directive) (rest : Bytes) :
    decodeFormat (d.text ++ rest) = .ok (d.code, rest) := by
  have hmod := modifier_stops d.modifier d.conv rest
  have hbody : d.body ++ rest = flagText d.flag ++ (d.width ++ (precisionText d.precision ++
      (d.modifier.text ++ d.conv.char :: rest))) := by
    simp [Directive.body]
  have hskip := skipFlag_skipDigits d.flag d.width_digits (precision_stops d.precision hmod.1)
  rw [← hbody] at hskip
  have hdecode : decodeDirective (d.body ++ rest) = (do
      let fmt ← skipFlag (d.body ++ rest) >>= skipDigits
      let fmt ← skipPrecision fmt
      let (spec, fmt) ← lengthModifier fmt
      let c ← deref fmt
      let (type, spec) := conversion c spec
      return (type ||| spec, fmt.tail)) := by
    rw [decodeDirective, bind_assoc]
  rw [decodeFormat, Directive.text, List.cons_append, decodeLoop, if_neg (by decide),
    if_neg (by simp),
    if_neg (by simp), hdecode, hskip, ok_bind,
      skipPrecision_append d.precision_digits hmod.1 hmod.2,
    ok_bind, lengthModifier_append]
  rfl

/-- **A literal run is read to its end**, which is a `%` or the end of the string. -/
theorem decodeFormat_literal {l : Bytes} (hne : l ≠ []) (hl : ∀ c ∈ l, c ≠ 0 ∧ c ≠ 37)
    (hrest : ∃ c fmt, rest = c :: fmt ∧ (c = 0 ∨ c = 37)) :
    decodeFormat (l ++ rest) = .ok (FMT_NONE, rest) := by
  have hloop : ∀ l : Bytes, (∀ c ∈ l, c ≠ 0 ∧ c ≠ 37) →
      decodeLoop FMT_NONE (l ++ rest) = .ok (FMT_NONE, rest) := by
    intro l hl
    induction l with
    | nil =>
      obtain ⟨c, fmt, rfl, rfl | rfl⟩ := hrest
      · rfl
      · rfl
    | cons c l ih =>
      have hc := hl c List.mem_cons_self
      rw [List.cons_append, decodeLoop, if_neg hc.1, if_neg fun h => hc.2 h.1, if_pos hc.2]
      exact ih fun x hx => hl x (List.mem_cons_of_mem c hx)
  cases l with
  | nil => exact absurd rfl hne
  | cons c l =>
    have hc := hl c List.mem_cons_self
    rw [List.cons_append, decodeFormat, decodeLoop, if_neg hc.1,
      if_neg fun h => hc.2 h.1, if_pos hc.2]
    exact hloop l fun x hx => hl x (List.mem_cons_of_mem c hx)

/-! ## What is no directive -/

theorem skipFlag_cut (t : Bytes) : ∃ flag t', t = flagText flag ++ t' ∧
    skipFlag (t ++ [0]) = .ok (t' ++ [0]) := by
  cases t with
  | nil => exact ⟨none, [], rfl, rfl⟩
  | cons c t =>
    have hskip : skipFlag (c :: t ++ [0]) =
        .ok (if c = 45 ∨ c = 43 ∨ c = 32 ∨ c = 35 ∨ c = 48 then t ++ [0] else c :: t ++ [0]) := rfl
    by_cases hc : c = 45 ∨ c = 43 ∨ c = 32 ∨ c = 35 ∨ c = 48
    · rw [if_pos hc] at hskip
      rcases hc with rfl | rfl | rfl | rfl | rfl
      · exact ⟨some .minus, t, rfl, hskip⟩
      · exact ⟨some .plus, t, rfl, hskip⟩
      · exact ⟨some .space, t, rfl, hskip⟩
      · exact ⟨some .hash, t, rfl, hskip⟩
      · exact ⟨some .zero, t, rfl, hskip⟩
    · rw [if_neg hc] at hskip
      exact ⟨none, c :: t, rfl, hskip⟩

theorem skipDigits_cut (t : Bytes) : ∃ ds t', t = ds ++ t' ∧ (∀ c ∈ ds, isdigit c = true) ∧
    skipDigits (t ++ [0]) = .ok (t' ++ [0]) := by
  induction t with
  | nil => exact ⟨[], [], rfl, by simp, rfl⟩
  | cons c t ih =>
    rw [List.cons_append, skipDigits]
    split
    case isTrue hc =>
      obtain ⟨ds, t', rfl, hds, hskip⟩ := ih
      refine ⟨c :: ds, t', rfl, fun x hx => ?_, hskip⟩
      rcases List.mem_cons.mp hx with rfl | hx
      · exact hc.2
      · exact hds x hx
    case isFalse => exact ⟨[], c :: t, rfl, by simp, rfl⟩

theorem skipPrecision_cut (t : Bytes) : ∃ precision t', t = precisionText precision ++ t' ∧
    (∀ ds ∈ precision, ∀ c ∈ ds, isdigit c = true) ∧
    skipPrecision (t ++ [0]) = .ok (t' ++ [0]) := by
  cases t with
  | nil => exact ⟨none, [], rfl, by simp, rfl⟩
  | cons c t =>
    rw [List.cons_append, skipPrecision, deref, ok_bind]
    split
    case isTrue hc =>
      obtain ⟨ds, t', rfl, hds, hskip⟩ := skipDigits_cut t
      exact ⟨some ds, t', by rw [hc]; rfl, by simpa using hds, hskip⟩
    case isFalse => exact ⟨none, c :: t, rfl, by simp, rfl⟩

theorem lengthModifier_cut (t : Bytes) :
    ∃ m t', t = Modifier.text m ++ t' ∧ lengthModifier (t ++ [0]) = .ok (m.spec, t' ++ [0]) := by
  rcases t with _ | ⟨c, t⟩
  · exact ⟨.none, [], rfl, rfl⟩
  · rw [List.cons_append, lengthModifier, deref, ok_bind]
    split
    case isTrue hl =>
      subst hl
      rcases t with _ | ⟨c, t⟩
      · exact ⟨.l, [], rfl, rfl⟩
      · by_cases hl : c = 108
        · subst hl
          exact ⟨.ll, t, rfl, rfl⟩
        · exact ⟨.l, c :: t, rfl, if_neg hl⟩
    case isFalse =>
      split
      case isTrue hh =>
        subst hh
        rcases t with _ | ⟨c, t⟩
        · exact ⟨.h, [], rfl, rfl⟩
        · by_cases hh : c = 104
          · subst hh
            exact ⟨.hh, t, rfl, rfl⟩
          · exact ⟨.h, c :: t, rfl, if_neg hh⟩
      case isFalse => exact ⟨.none, c :: t, rfl, rfl⟩

/-- A character that is no conversion leaves the type as it is. -/
theorem conversion_other (hc : ∀ k : Conv, k.char ≠ c) (spec : Nat) :
    conversion c spec = (FMT_INVALID, spec) := by
  have h1 : c ≠ 112 := (hc .p).symm
  have h2 : c ≠ 120 := (hc .x).symm
  have h3 : c ≠ 88 := (hc .X).symm
  have h4 : c ≠ 111 := (hc .o).symm
  have h5 : c ≠ 117 := (hc .u).symm
  have h6 : c ≠ 100 := (hc .d).symm
  have h7 : c ≠ 105 := (hc .i).symm
  have h8 : c ≠ 115 := (hc .s).symm
  have h9 : c ≠ 99 := (hc .c).symm
  have h10 : c ≠ 37 := (hc .percent).symm
  simp [conversion, h1, h2, h3, h4, h5, h6, h7, h8, h9, h10]

/-- **A `%` that begins no directive** has the type `FMT_INVALID`, and nothing behind the NUL is
read. -/
theorem decodeFormat_malformed {t : Bytes} (h : ∀ d : Directive, ¬ d.text <+: 37 :: t) :
    ∃ type e, decodeFormat (37 :: t ++ [0]) = .ok (type, e) ∧ type &&& 0xff = FMT_INVALID := by
  obtain ⟨flag, t1, rfl, hflag⟩ := skipFlag_cut t
  obtain ⟨width, t2, rfl, hwidth, hskip⟩ := skipDigits_cut t1
  obtain ⟨precision, t3, rfl, hprecision, hskip'⟩ := skipPrecision_cut t2
  obtain ⟨m, t4, rfl, hmod⟩ := lengthModifier_cut t3
  have hdecode : ∀ c r, t4 ++ [0] = c :: r → (∀ k : Conv, k.char ≠ c) →
      decodeDirective (flagText flag ++ (width ++ (precisionText precision ++ (m.text ++ t4))) ++
        [0]) = .ok (FMT_INVALID ||| m.spec, r) := by
    intro c r hc hother
    rw [decodeDirective, hflag, ok_bind, hskip, ok_bind, hskip', ok_bind, hmod, ok_bind]
    simp only
    rw [hc, deref, ok_bind, conversion_other hother]
    rfl
  have hspec : (FMT_INVALID ||| m.spec) &&& 0xff = FMT_INVALID := by cases m <;> decide
  have hloop : ∀ u : Bytes, decodeFormat (37 :: u) = decodeDirective u := by
    intro u
    rw [decodeFormat, decodeLoop, if_neg (by decide), if_neg (by simp), if_neg (by simp)]
  rw [List.cons_append, hloop]
  cases t4 with
  | nil => exact ⟨_, _, hdecode 0 [] rfl (fun k => by cases k <;> decide), hspec⟩
  | cons c r =>
    refine ⟨_, _, hdecode c (r ++ [0]) rfl (fun k hk => ?_), hspec⟩
    apply h ⟨flag, width, precision, m, k, hwidth, hprecision⟩
    refine ⟨r, ?_⟩
    rw [← hk]
    simp [Directive.text, Directive.body]

end AuOs
