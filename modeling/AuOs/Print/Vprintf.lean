import Mathlib
import AuOs.Print.Format
import AuOs.Print.Itoa

/-!
# Formatted output

Reference model of `print`, `print_number` and `__vprintf` of `print.c`.  The sink `out` is a
parameter.  The arguments are the words of the `va_list`, `mem` gives the bytes from a pointer to
the end of its block.

* `vprintfCtx` — `__vprintf`: what it returns, the context and the arguments that are left.
* `Segment` — a literal run or a directive.  `pieces` is what segments give to the sink, `Given`
  says that a sink was given it, one piece a call.
* `vprintfLoop_segments` — the loop, segment by segment.
* `exists_segments` — every string is segments, and what follows them is empty or begins no
  directive.
* `vprintf_segments` — **what `__vprintf` does with every format string**.
* `long_literal` — a literal run of `2 ^ 31` characters.
-/

set_option autoImplicit false

namespace AuOs

def INT_MAX : Nat := 2 ^ 31 - 1

/-- The conversion to `int`. -/
def toInt (n : Int) : Int := n.bmod (2 ^ 32)

/-- `struct print_ctx` and the state of its sink. -/
structure PrintCtx (σ : Type) where
  sink : σ
  written : Int

/-- `int (*out)(struct print_ctx *ctx, const char *buf, int size)`. -/
abbrev Out (σ : Type) := PrintCtx σ → Bytes → Int → Res (Int × σ)

/-- The words of a `va_list`. -/
abbrev Args := List (BitVec 64)

/-- `va_arg`. -/
def vaArg : Args → Res (BitVec 64 × Args)
  | [] => .error .fault
  | w :: args => .ok (w, args)

/-- `strlen`. -/
def strlen : Bytes → Res Nat
  | [] => .error .fault
  | c :: str => if c = 0 then .ok 0 else do return (← strlen str) + 1

section Model

variable {σ : Type} (out : Out σ) (mem : BitVec 64 → Bytes)

/-- `print`. -/
def print (ctx : PrintCtx σ) (buf : Bytes) (size : Int) : Res (Int × PrintCtx σ) := do
  let (rc, sink) ← out ctx buf size
  if rc < 0 then return (rc, { ctx with sink := sink })
  else return (0, { sink := sink, written := toInt (ctx.written + size) })

/-- `print_number`. -/
def printNumber (ctx : PrintCtx σ) (args : Args) (type : Nat) : Res (Int × PrintCtx σ × Args) := do
  let base := if type &&& FMT_HEX ≠ 0 then 16 else if type &&& FMT_OCT ≠ 0 then 8 else 10
  let buf := List.replicate 64 0
  let (arg, args) ← vaArg args
  let buf ←
    if type &&& FMT_UNSIGNED ≠ 0 then
      ulltoa (if type &&& FMT_LONG ≠ 0 then arg else if type &&& FMT_LLONG ≠ 0 then arg
        else (arg.setWidth 32).setWidth 64) buf 0 base
    else
      lltoa (if type &&& FMT_LONG ≠ 0 then arg else if type &&& FMT_LLONG ≠ 0 then arg
        else (arg.setWidth 32).signExtend 64) buf 0 base
  let size ← strlen buf
  let (rc, ctx) ← print out ctx buf (toInt size)
  return (rc, ctx, args)

/-- `switch (type & 0xff)`: `start` is where the segment begins, `fmt` what is behind it. -/
def vprintfStep (ctx : PrintCtx σ) (start fmt : Bytes) (args : Args) (type : Nat) :
    Res (Int × PrintCtx σ × Args) :=
  if type &&& 0xff = FMT_STR then do
    let (str, args) ← vaArg args
    let size ← strlen (mem str)
    let (rc, ctx) ← print out ctx (mem str) (toInt size)
    return (rc, ctx, args)
  else if type &&& 0xff = FMT_CHAR then do
    let (c, args) ← vaArg args
    let (rc, ctx) ← print out ctx [Int8.ofBitVec (c.setWidth 8)] 1
    return (rc, ctx, args)
  else if type &&& 0xff = FMT_INT then printNumber out ctx args type
  else if type &&& 0xff = FMT_NONE then do
    let (rc, ctx) ← print out ctx start (toInt (start.length - fmt.length))
    return (rc, ctx, args)
  else if type &&& 0xff = FMT_PERCENT then do
    let (rc, ctx) ← print out ctx [37, 0] 1
    return (rc, ctx, args)
  else return (-1, ctx, args)

/-- `while (rc >= 0 && *fmt)`. -/
def vprintfLoop : Nat → PrintCtx σ → Bytes → Args → Int → Res (Int × PrintCtx σ × Args)
  | 0, _, _, _, _ => .error .hang
  | fuel + 1, ctx, fmt, args, rc =>
    if rc ≥ 0 then do
      if (← deref fmt) ≠ 0 then
        let (type, fmt') ← decodeFormat fmt
        let (rc, ctx, args) ← vprintfStep out mem ctx fmt fmt' args type
        vprintfLoop fuel ctx fmt' args rc
      else return (rc, ctx, args)
    else return (rc, ctx, args)

/-- `__vprintf`.  Every turn of the loop reads a character. -/
def vprintfCtx (ctx : PrintCtx σ) (fmt : Bytes) (args : Args) : Res (Int × PrintCtx σ × Args) := do
  let (rc, ctx, args) ← vprintfLoop out mem (fmt.length + 1) { ctx with written := 0 } fmt args 0
  return (if rc < 0 then rc else ctx.written, ctx, args)

end Model

/-! ## Segments -/

namespace Directive

variable (d : Directive)

/-- The number of arguments taken. -/
def taken : Nat := if d.conv = .percent then 0 else 1

/-- Is the argument a `long` or a `long long`? -/
def isLong : Bool := d.conv = .p || d.modifier = .l || d.modifier = .ll

/-- The value of an unsigned argument. -/
def unsignedArg (w : BitVec 64) : BitVec 64 := if d.isLong then w else (w.setWidth 32).setWidth 64

/-- The value of a signed argument. -/
def signedArg (w : BitVec 64) : BitVec 64 := if d.isLong then w else (w.setWidth 32).signExtend 64

/-- **What a directive gives to the sink** for the argument `w`. -/
def render (mem : BitVec 64 → Bytes) (w : BitVec 64) : Bytes :=
  match d.conv with
  | .p | .x | .X => unsignedText 16 (d.unsignedArg w).toNat
  | .o => unsignedText 8 (d.unsignedArg w).toNat
  | .u => unsignedText 10 (d.unsignedArg w).toNat
  | .d | .i => signedText 10 (d.signedArg w)
  | .s => (mem w).takeWhile (· ≠ 0)
  | .c => [Int8.ofBitVec (w.setWidth 8)]
  | .percent => [37]

end Directive

/-- **A segment** of a format string. -/
inductive Segment where
  | literal (l : Bytes) (hne : l ≠ []) (hl : ∀ c ∈ l, c ≠ 0 ∧ c ≠ 37)
  | directive (d : Directive)

namespace Segment

def text : Segment → Bytes
  | literal l _ _ => l
  | directive d => d.text

def isLiteral : Segment → Bool
  | literal _ _ _ => true
  | directive _ => false

def taken : Segment → Nat
  | literal _ _ _ => 0
  | directive d => d.taken

/-- What a segment gives to the sink. -/
def render (mem : BitVec 64 → Bytes) (args : Args) : Segment → Bytes
  | literal l _ _ => l
  | directive d => d.render mem (args.headD 0)

/-- The segment finds its argument, and that of `%s` is a string. -/
def Supplied (mem : BitVec 64 → Bytes) (args : Args) : Segment → Prop
  | literal _ _ _ => True
  | directive d => d.taken ≤ args.length ∧ (d.conv = .s → 0 ∈ mem (args.headD 0))

end Segment

/-- The string that segments are cut from. -/
def segmentsText (segs : List Segment) : Bytes := segs.flatMap Segment.text

/-- Literal runs are as long as they can be. -/
def Maximal (segs : List Segment) : Prop :=
  segs.IsChain fun a b => ¬ (a.isLiteral = true ∧ b.isLiteral = true)

/-- The number of arguments that segments take. -/
def segmentsTaken (segs : List Segment) : Nat := (segs.map Segment.taken).sum

/-- **What segments give to the sink**, one piece each. -/
def pieces (mem : BitVec 64 → Bytes) : List Segment → Args → List Bytes
  | [], _ => []
  | seg :: segs, args => seg.render mem args :: pieces mem segs (args.drop seg.taken)

/-- There is an argument for every directive that takes one, and those of `%s` are strings. -/
def Supplied (mem : BitVec 64 → Bytes) : List Segment → Args → Prop
  | [], _ => True
  | seg :: segs, args => seg.Supplied mem args ∧ Supplied mem segs (args.drop seg.taken)

/-- A `%` that begins no directive. -/
def Malformed (fmt : Bytes) : Prop := fmt.head? = some 37 ∧ ∀ d : Directive, ¬ d.text <+: fmt

/-- **A sink is given pieces**, one in every call, and takes them all. -/
inductive Given {σ : Type} (out : Out σ) : PrintCtx σ → List Bytes → PrintCtx σ → Prop where
  | nil (ctx : PrintCtx σ) : Given out ctx [] ctx
  | cons {ctx ctx' : PrintCtx σ} {buf : Bytes} {size : Nat} {rc : Int} {sink : σ}
      {ps : List Bytes} :
      out ctx buf size = .ok (rc, sink) → 0 ≤ rc → size ≤ buf.length →
      Given out ⟨sink, ctx.written + size⟩ ps ctx' → Given out ctx (buf.take size :: ps) ctx'

/-- A sink that never fails. -/
def NeverFails {σ : Type} (out : Out σ) : Prop :=
  ∀ ctx buf (size : Nat), size ≤ buf.length → size ≤ INT_MAX →
    ∃ rc sink, out ctx buf size = .ok (rc, sink) ∧ 0 ≤ rc

/-! ## One segment -/

section Step

variable {σ : Type} {out : Out σ} {mem : BitVec 64 → Bytes} {ctx : PrintCtx σ} {args : Args}

theorem toInt_natCast {n : Nat} (h : n ≤ INT_MAX) : toInt n = n := by
  unfold INT_MAX at h
  exact Int.bmod_eq_of_le (by omega) (by omega)

theorem strlen_append {t : Bytes} (ht : ∀ c ∈ t, c ≠ 0) (r : Bytes) :
    strlen (t ++ 0 :: r) = .ok t.length := by
  induction t with
  | nil => rfl
  | cons c t ih =>
    rw [List.cons_append, strlen, if_neg (ht c List.mem_cons_self),
      ih fun x hx => ht x (List.mem_cons_of_mem c hx)]
    rfl

theorem strlen_string {str : Bytes} (h : 0 ∈ str) :
    strlen str = .ok (str.takeWhile (· ≠ 0)).length := by
  induction str with
  | nil => cases h
  | cons c str ih =>
    rw [strlen]
    split
    case isTrue hc => rw [hc]; rfl
    case isFalse hc =>
      rw [ih ((List.mem_cons.mp h).resolve_left (Ne.symm hc)),
        List.takeWhile_cons_of_pos (by simpa using hc)]
      rfl

/-- The bytes that are given to the sink are counted. -/
theorem print_given (hout : NeverFails out) {buf : Bytes} {size : Nat} (hsize : size ≤ buf.length)
    {written : Nat} (hw : ctx.written = written) (hmax : written + size ≤ INT_MAX) :
    ∃ rc sink, out ctx buf size = .ok (rc, sink) ∧ 0 ≤ rc ∧
      print out ctx buf size = .ok (0, ⟨sink, ctx.written + size⟩) := by
  obtain ⟨rc, sink, hcall, hrc⟩ := hout ctx buf size hsize (by omega)
  have hsum : toInt (ctx.written + size) = ctx.written + size := by
    rw [hw, ← Int.natCast_add]
    exact toInt_natCast hmax
  refine ⟨rc, sink, hcall, hrc, ?_⟩
  rw [print, hcall, ok_bind]
  simp only
  rw [if_neg (by omega), hsum]
  rfl

theorem unsignedText_ne_zero {base : Nat} (hb : 2 ≤ base) (hb' : base ≤ 36) (v : Nat) :
    ∀ c ∈ unsignedText base v, c ≠ 0 :=
  fun c hc => isDigitOf_ne_zero (unsignedText_digits hb hb' v c hc)

theorem signedText_ne_zero {base : Nat} (hb : 2 ≤ base) (hb' : base ≤ 36) (v : BitVec 64) :
    ∀ c ∈ signedText base v, c ≠ 0 := by
  unfold signedText
  split
  · intro c hc
    rcases List.mem_cons.mp hc with rfl | hc
    · decide
    · exact unsignedText_ne_zero hb hb' _ c hc
  · exact unsignedText_ne_zero hb hb' _

theorem unsignedText_length {base : Nat} (hb : 8 ≤ base) {v : Nat} (hv : v < 2 ^ 64) :
    (unsignedText base v).length ≤ 22 := by
  rw [unsignedText_eq, List.length_reverse, List.length_map]
  unfold lastFirst
  split
  · exact (show 1 ≤ 22 by omega)
  · apply (Nat.digits_length_le_iff (by omega) v).mpr
    calc v < 2 ^ 64 := hv
      _ ≤ 8 ^ 22 := by decide
      _ ≤ base ^ 22 := Nat.pow_le_pow_left hb 22

theorem signedText_length {base : Nat} (hb : 8 ≤ base) (v : BitVec 64) :
    (signedText base v).length ≤ 23 := by
  unfold signedText
  split
  · exact Nat.succ_le_succ (unsignedText_length hb (-v).isLt)
  · exact (unsignedText_length hb v.isLt).trans (Nat.le_succ 22)

/-- The base that `print_number` takes from the type. -/
def typeBase (type : Nat) : Nat :=
  if type &&& FMT_HEX ≠ 0 then 16 else if type &&& FMT_OCT ≠ 0 then 8 else 10

theorem typeBase_bounds (type : Nat) : 8 ≤ typeBase type ∧ typeBase type ≤ 16 := by
  unfold typeBase
  split
  · exact ⟨by omega, by omega⟩
  · split <;> exact ⟨by omega, by omega⟩

theorem code_isLong (d : Directive) :
    d.code &&& FMT_LONG ≠ 0 ∨ d.code &&& FMT_LLONG ≠ 0 ↔ d.isLong = true := by
  unfold Directive.code Directive.isLong
  generalize d.conv = k
  generalize d.modifier = m
  cases k <;> cases m <;> decide

/-- `l`, `ll` and `p` are seen in the type. -/
theorem code_long (d : Directive) {α : Type} (a b : α) :
    (if d.code &&& FMT_LONG ≠ 0 then a else if d.code &&& FMT_LLONG ≠ 0 then a else b) =
      if d.isLong then a else b := by
  have h := code_isLong d
  split
  case isTrue hl => rw [if_pos (h.mp (.inl hl))]
  case isFalse hl =>
    split
    case isTrue hll => rw [if_pos (h.mp (.inr hll))]
    case isFalse hll => rw [if_neg fun hd => (h.mpr hd).elim hl hll]

/-- A text in the buffer of `print_number` is printed. -/
theorem printBuffer {text : Bytes} (htext : ∀ c ∈ text, c ≠ 0) : ∃ r,
    splice (List.replicate 64 0) 0 (text ++ [0]) = text ++ r ∧
      strlen (splice (List.replicate 64 0) 0 (text ++ [0])) = .ok text.length := by
  have hsplice : splice (List.replicate 64 0) 0 (text ++ [0]) =
      text ++ 0 :: (List.replicate 64 0).drop (0 + (text ++ [0]).length) := by
    rw [splice, List.take_zero, List.nil_append, List.append_assoc]
    rfl
  exact ⟨_, hsplice, hsplice ▸ strlen_append htext _⟩

/-- **Numbers.** -/
theorem printNumber_eq (out : Out σ) (ctx : PrintCtx σ) (args : Args) (d : Directive)
    (w : BitVec 64) : ∃ r, printNumber out ctx (w :: args) d.code = (do
      let text := if d.code &&& FMT_UNSIGNED ≠ 0 then unsignedText (typeBase d.code)
        (d.unsignedArg w).toNat else signedText (typeBase d.code) (d.signedArg w)
      let (rc, ctx) ← print out ctx (text ++ r) (toInt text.length)
      return (rc, ctx, args)) := by
  obtain ⟨h8, h16⟩ := typeBase_bounds d.code
  by_cases hu : d.code &&& FMT_UNSIGNED ≠ 0
  · have hlen := unsignedText_length h8 (d.unsignedArg w).isLt
    have hne : ∀ c ∈ unsignedText (typeBase d.code) (d.unsignedArg w).toNat, c ≠ 0 :=
      unsignedText_ne_zero (by omega) (by omega) _
    obtain ⟨r, hr, hstrlen⟩ := printBuffer hne
    have hroom : 0 + (unsignedText (typeBase d.code) (d.unsignedArg w).toNat).length <
        (List.replicate 64 (0 : Int8)).length := by
      rw [List.length_replicate]
      omega
    have hwrite := ulltoa_eq (show 2 ≤ typeBase d.code by omega) (by omega) hroom
    refine ⟨r, ?_⟩
    rw [printNumber, vaArg, ok_bind]
    simp only
    rw [if_pos hu, code_long, if_pos hu]
    exact (congrArg (· >>= _) hwrite).trans (by rw [ok_bind, hstrlen, ok_bind, hr])
  · have hlen := signedText_length h8 (d.signedArg w)
    have hne : ∀ c ∈ signedText (typeBase d.code) (d.signedArg w), c ≠ 0 :=
      signedText_ne_zero (by omega) (by omega) _
    obtain ⟨r, hr, hstrlen⟩ := printBuffer hne
    have hroom : 0 + (signedText (typeBase d.code) (d.signedArg w)).length <
        (List.replicate 64 (0 : Int8)).length := by
      rw [List.length_replicate]
      omega
    have hwrite := lltoa_eq (show 2 ≤ typeBase d.code by omega) (by omega) hroom
    refine ⟨r, ?_⟩
    rw [printNumber, vaArg, ok_bind]
    simp only
    rw [if_neg hu, code_long, if_neg hu]
    exact (congrArg (· >>= _) hwrite).trans (by rw [ok_bind, hstrlen, ok_bind, hr])

/-- The type of a conversion. -/
def Conv.type : Conv → Nat
  | .s => FMT_STR
  | .c => FMT_CHAR
  | .percent => FMT_PERCENT
  | _ => FMT_INT

theorem code_type (d : Directive) : d.code &&& 0xff = d.conv.type := by
  unfold Directive.code
  generalize d.conv = k
  generalize d.modifier = m
  cases k <;> cases m <;> decide

theorem code_unsigned (d : Directive) :
    d.code &&& FMT_UNSIGNED ≠ 0 ↔ d.conv = .p ∨ d.conv = .x ∨ d.conv = .X ∨ d.conv = .o ∨
    d.conv = .u := by
  unfold Directive.code
  generalize d.conv = k
  generalize d.modifier = m
  cases k <;> cases m <;> decide

theorem code_base (d : Directive) : typeBase d.code =
    if d.conv = .p ∨ d.conv = .x ∨ d.conv = .X then 16 else if d.conv = .o then 8 else 10 := by
  unfold Directive.code
  generalize d.conv = k
  generalize d.modifier = m
  cases k <;> cases m <;> decide

theorem number_render (d : Directive) (mem : BitVec 64 → Bytes) (w : BitVec 64)
    (h : d.conv.type = FMT_INT) :
    (if d.code &&& FMT_UNSIGNED ≠ 0 then unsignedText (typeBase d.code) (d.unsignedArg w).toNat
      else signedText (typeBase d.code) (d.signedArg w)) = d.render mem w := by
  simp only [code_unsigned, code_base]
  unfold Directive.render
  cases hk : d.conv with
  | s => rw [hk] at h; cases h
  | c => rw [hk] at h; cases h
  | percent => rw [hk] at h; cases h
  | _ => simp

/-- A piece at the front of what is printed. -/
theorem print_piece (hout : NeverFails out) (piece r : Bytes) {written : Nat}
    (hw : ctx.written = written)
    (hmax : written + piece.length ≤ INT_MAX) : ∃ ctx', Given out ctx [piece] ctx' ∧
      ctx'.written = ↑(written + piece.length) ∧ print out ctx (piece ++ r) (toInt piece.length) =
          .ok (0, ctx') := by
  have hsize : piece.length ≤ (piece ++ r).length := by
    rw [List.length_append]
    omega
  obtain ⟨rc, sink, hcall, hrc, hprint⟩ := print_given hout hsize hw hmax
  have hgiven := Given.cons hcall hrc hsize (.nil _)
  rw [List.take_left] at hgiven
  refine ⟨_, hgiven, ?_, ?_⟩
  · rw [hw]
    rfl
  · rw [toInt_natCast (by omega)]
    exact hprint

/-- One character. -/
theorem print_char (hout : NeverFails out) (c : Int8) (r : Bytes) {written : Nat}
    (hw : ctx.written = written)
    (hmax : written + 1 ≤ INT_MAX) : ∃ ctx', Given out ctx [[c]] ctx' ∧
      ctx'.written = ↑(written + 1) ∧ print out ctx (c :: r) 1 = .ok (0, ctx') := by
  have hone : toInt (([c].length : Nat) : Int) = 1 := toInt_natCast (n := 1) (by decide)
  obtain ⟨ctx', hgiven, hwritten, hprint⟩ := print_piece hout [c] r hw hmax
  rw [hone] at hprint
  exact ⟨ctx', hgiven, hwritten, hprint⟩

/-- One turn for a directive that takes an argument. -/
theorem vprintfStep_arg (hout : NeverFails out) (d : Directive) (start next : Bytes) (w : BitVec 64)
    (hk : d.conv ≠ .percent) (hstring : d.conv = .s → 0 ∈ mem w) {written : Nat}
    (hw : ctx.written = written) (hmax : written + (d.render mem w).length ≤ INT_MAX) :
    ∃ ctx', Given out ctx [d.render mem w] ctx' ∧
      ctx'.written = ↑(written + (d.render mem w).length) ∧
      vprintfStep out mem ctx start next (w :: args) d.code = .ok (0, ctx', args) := by
  have htype := code_type d
  by_cases hs : d.conv = .s
  · have hrender : d.render mem w = (mem w).takeWhile (· ≠ 0) := by rw [Directive.render, hs]
    have hsplit : (mem w).takeWhile (· ≠ 0) ++ (mem w).dropWhile (· ≠ 0) = mem w :=
      List.takeWhile_append_dropWhile
    rw [hrender] at hmax ⊢
    obtain ⟨ctx', hgiven, hwritten, hprint⟩ :=
      print_piece hout _ ((mem w).dropWhile (· ≠ 0)) hw hmax
    rw [hsplit] at hprint
    refine ⟨ctx', hgiven, hwritten, ?_⟩
    rw [vprintfStep, htype, hs, if_pos (by decide), vaArg, ok_bind]
    simp only
    rw [strlen_string (hstring hs), ok_bind, hprint]
    rfl
  · by_cases hc : d.conv = .c
    · have hrender : d.render mem w = [Int8.ofBitVec (w.setWidth 8)] := by rw [Directive.render, hc]
      rw [hrender] at hmax ⊢
      obtain ⟨ctx', hgiven, hwritten, hprint⟩ :=
        print_char hout (Int8.ofBitVec (w.setWidth 8)) [] hw hmax
      refine ⟨ctx', hgiven, hwritten, ?_⟩
      rw [vprintfStep, htype, hc, if_neg (by decide), if_pos (by decide), vaArg, ok_bind]
      simp only
      rw [hprint]
      rfl
    · have hint : d.conv.type = FMT_INT := by
        cases h : d.conv with
        | percent => exact absurd h hk
        | s => exact absurd h hs
        | c => exact absurd h hc
        | _ => rfl
      obtain ⟨r, hnumber⟩ := printNumber_eq out ctx args d w
      rw [number_render d mem w hint] at hnumber
      obtain ⟨ctx', hgiven, hwritten, hprint⟩ := print_piece hout _ r hw hmax
      refine ⟨ctx', hgiven, hwritten, ?_⟩
      rw [vprintfStep, htype, hint, if_neg (by decide), if_neg (by decide), if_pos rfl, hnumber]
      simp only
      rw [hprint]
      rfl

/-- One turn for a directive. -/
theorem vprintfStep_directive (hout : NeverFails out) (d : Directive) (start next : Bytes)
    (hseg : (Segment.directive d).Supplied mem args) {written : Nat} (hw : ctx.written = written)
    (hmax : written + (d.render mem (args.headD 0)).length ≤ INT_MAX) :
    ∃ ctx', Given out ctx [d.render mem (args.headD 0)] ctx' ∧
      ctx'.written = ↑(written + (d.render mem (args.headD 0)).length) ∧
      vprintfStep out mem ctx start next args d.code = .ok (0, ctx', args.drop d.taken) := by
  obtain ⟨htaken, hstring⟩ := hseg
  by_cases hk : d.conv = .percent
  · have htype := code_type d
    have hrender : d.render mem (args.headD 0) = [37] := by rw [Directive.render, hk]
    have hdrop : d.taken = 0 := if_pos hk
    rw [hrender] at hmax ⊢
    rw [hk] at htype
    obtain ⟨ctx', hgiven, hwritten, hprint⟩ := print_char hout 37 [0] hw hmax
    refine ⟨ctx', hgiven, hwritten, ?_⟩
    rw [vprintfStep, htype, if_neg (by decide), if_neg (by decide), if_neg (by decide),
      if_neg (by decide), if_pos (by decide), hprint, hdrop]
    rfl
  · have hone : d.taken = 1 := if_neg hk
    rw [hone] at htaken ⊢
    cases args with
    | nil => exact absurd htaken (by decide)
    | cons w args => exact vprintfStep_arg hout d start next w hk hstring hw hmax

/-- The type of a segment. -/
def Segment.code : Segment → Nat
  | literal _ _ _ => FMT_NONE
  | directive d => d.code

/-- **One turn** gives one piece to the sink and takes the arguments of its segment. -/
theorem vprintfStep_segment (hout : NeverFails out) (seg : Segment) (next : Bytes)
    (hseg : seg.Supplied mem args) {written : Nat} (hw : ctx.written = written)
    (hmax : written + (seg.render mem args).length ≤ INT_MAX) :
    ∃ ctx', Given out ctx [seg.render mem args] ctx' ∧
      ctx'.written = ↑(written + (seg.render mem args).length) ∧
      vprintfStep out mem ctx (seg.text ++ next) next args seg.code = .ok (0, ctx',
          args.drop seg.taken) := by
  cases seg with
  | literal l hne hl =>
    obtain ⟨ctx', hgiven, hwritten, hprint⟩ := print_piece hout l next hw hmax
    refine ⟨ctx', hgiven, hwritten, ?_⟩
    have hlen : (((l ++ next).length : Int) - next.length) = l.length := by
      rw [List.length_append]
      omega
    show vprintfStep out mem ctx (l ++ next) next args FMT_NONE = _
    rw [vprintfStep, if_neg (by decide), if_neg (by decide), if_neg (by decide),
      if_pos (by decide), hlen, hprint]
    rfl
  | directive d => exact vprintfStep_directive hout d _ next hseg hw hmax

/-! ## The loop -/

theorem Given.append {ctx' ctx'' : PrintCtx σ} {ps qs : List Bytes} (h : Given out ctx ps ctx')
    (h' : Given out ctx' qs ctx'') : Given out ctx (ps ++ qs) ctx'' := by
  induction h with
  | nil ctx => exact h'
  | cons hcall hrc hsize _ ih => exact .cons hcall hrc hsize (ih h')

theorem Segment.text_head (seg : Segment) : ∃ c t, seg.text = c :: t ∧ c ≠ 0 ∧
    (c = 37 ↔ seg.isLiteral = false) := by
  cases seg with
  | directive d => exact ⟨37, d.body, rfl, by decide, iff_of_true rfl rfl⟩
  | literal l hne hl =>
    cases l with
    | nil => exact absurd rfl hne
    | cons c l =>
      have hc := hl c List.mem_cons_self
      exact ⟨c, l, rfl, hc.1, iff_of_false hc.2 Bool.noConfusion⟩

theorem segmentsText_cons (seg : Segment) (segs : List Segment) :
    segmentsText (seg :: segs) = seg.text ++ segmentsText segs := List.flatMap_cons

/-- What follows a literal run is a `%` or the end. -/
theorem literal_next {seg : Segment} {segs : List Segment} (hmaximal : Maximal (seg :: segs))
    (hseg : seg.isLiteral = true) {rest : Bytes} (hrest : ∃ c r, rest = c :: r ∧ (c = 0 ∨ c = 37)) :
    ∃ c r, segmentsText segs ++ rest = c :: r ∧ (c = 0 ∨ c = 37) := by
  cases segs with
  | nil => exact hrest
  | cons b segs =>
    have hb : b.isLiteral = false := by
      have h := (List.isChain_cons_cons.mp hmaximal).1
      rw [hseg] at h
      simpa using h
    obtain ⟨c, t, htext, -, hc⟩ := b.text_head
    have hsplit : segmentsText (b :: segs) ++ rest = c :: (t ++ segmentsText segs ++ rest) := by
      rw [segmentsText_cons, htext]
      rfl
    exact ⟨c, _, hsplit, .inr (hc.mpr hb)⟩

theorem decodeFormat_segment {seg : Segment} (next : Bytes)
    (hnext : seg.isLiteral = true → ∃ c r, next = c :: r ∧ (c = 0 ∨ c = 37)) :
    decodeFormat (seg.text ++ next) = .ok (seg.code, next) := by
  cases seg with
  | literal l hne hl => exact decodeFormat_literal hne hl (hnext rfl)
  | directive d => exact decodeFormat_directive d next

/-- **The loop, segment by segment.** -/
theorem vprintfLoop_segments (hout : NeverFails out) (segs : List Segment) {rest : Bytes}
    (hrest : ∃ c r, rest = c :: r ∧ (c = 0 ∨ c = 37)) (hmaximal : Maximal segs)
    (hsupplied : Supplied mem segs args) (written : Nat) (hw : ctx.written = written)
    (hmax : written + (pieces mem segs args).flatten.length ≤ INT_MAX) (fuel : Nat) :
    ∃ ctx', Given out ctx (pieces mem segs args) ctx' ∧
      ctx'.written = ↑(written + (pieces mem segs args).flatten.length) ∧
      vprintfLoop out mem (segs.length + fuel) ctx (segmentsText segs ++ rest) args 0 =
        vprintfLoop out mem fuel ctx' rest (args.drop (segmentsTaken segs)) 0 := by
  induction segs generalizing ctx args written with
  | nil =>
    rw [List.length_nil, Nat.zero_add]
    exact ⟨ctx, .nil ctx, hw, rfl⟩
  | cons seg segs ih =>
    obtain ⟨hseg, hsegs⟩ := hsupplied
    rw [pieces, List.flatten_cons, List.length_append] at hmax ⊢
    obtain ⟨ctx1, hgiven1, hw1, hstep⟩ :=
      vprintfStep_segment hout seg (segmentsText segs ++ rest) hseg hw (by omega)
    obtain ⟨ctx2, hgiven2, hw2, hloop⟩ := ih (List.IsChain.tail hmaximal) hsegs _ hw1 (by omega)
    refine ⟨ctx2, hgiven1.append hgiven2, by rw [hw2, Nat.add_assoc], ?_⟩
    have hdecode := decodeFormat_segment (segmentsText segs ++ rest)
      fun h => literal_next hmaximal h hrest
    obtain ⟨c, t, htext, hc, -⟩ := seg.text_head
    have hderef : deref (seg.text ++ (segmentsText segs ++ rest)) = .ok c := by rw [htext]; rfl
    have hdrop : args.drop (segmentsTaken (seg :: segs)) = (args.drop seg.taken).drop
        (segmentsTaken segs) := by
      rw [List.drop_drop]
      rfl
    rw [List.length_cons, Nat.succ_add, segmentsText_cons, List.append_assoc, vprintfLoop,
      if_pos (by decide), hderef, ok_bind, if_pos hc, hdecode, ok_bind]
    simp only
    rw [hstep, ok_bind, hdrop]
    exact hloop

theorem vprintfLoop_end (ctx : PrintCtx σ) (args : Args) (fuel : Nat) :
    vprintfLoop out mem (fuel + 1) ctx [0] args 0 = .ok (0, ctx, args) := rfl

/-- A `%` that begins no directive ends the loop. -/
theorem vprintfLoop_malformed {rest : Bytes} (h : Malformed rest) (ctx : PrintCtx σ)
    (args : Args) (fuel : Nat) :
    vprintfLoop out mem (fuel + 2) ctx (rest ++ [0]) args 0 = .ok (-1, ctx, args) := by
  obtain ⟨hhead, hnone⟩ := h
  cases rest with
  | nil => cases hhead
  | cons c t =>
    obtain rfl : c = 37 := Option.some.inj hhead
    obtain ⟨type, e, hdecode, htype⟩ := decodeFormat_malformed hnone
    have hstep : vprintfStep out mem ctx (37 :: t ++ [0]) e args type = .ok (-1, ctx, args) := by
      rw [vprintfStep, htype, if_neg (by decide), if_neg (by decide), if_neg (by decide),
        if_neg (by decide), if_neg (by decide)]
      rfl
    rw [vprintfLoop, if_pos (by decide), List.cons_append, deref, ok_bind, if_pos (by decide),
      ← List.cons_append, hdecode, ok_bind]
    simp only
    rw [hstep, ok_bind]
    rfl

theorem segments_length_le (segs : List Segment) : segs.length ≤ (segmentsText segs).length := by
  induction segs with
  | nil => exact Nat.le_refl 0
  | cons seg segs ih =>
    obtain ⟨c, t, htext, -⟩ := seg.text_head
    rw [segmentsText_cons, htext, List.length_append, List.length_cons, List.length_cons]
    omega

end Step

/-! ## Every string -/

theorem maximal_directive (d : Directive) {segs : List Segment} (h : Maximal segs) :
    Maximal (.directive d :: segs) := by
  apply List.isChain_cons.mpr
  exact ⟨fun b _ hb => Bool.noConfusion hb.1, h⟩

theorem maximal_literal {l : Bytes} (hne : l ≠ []) (hl : ∀ c ∈ l, c ≠ 0 ∧ c ≠ 37)
    {segs : List Segment}
    (h : Maximal segs) (rest : Bytes) (hnext : ∀ c ∈ (segmentsText segs ++ rest).head?, c = 37) :
    Maximal (.literal l hne hl :: segs) := by
  apply List.isChain_cons.mpr
  refine ⟨fun b hb hlit => ?_, h⟩
  cases segs with
  | nil => cases hb
  | cons seg segs =>
    obtain rfl : seg = b := Option.some.inj hb
    obtain ⟨c, t, htext, -, hc⟩ := seg.text_head
    have h37 : c = 37 := hnext c (by rw [segmentsText_cons, htext]; rfl)
    rw [hc.mp h37] at hlit
    exact Bool.noConfusion hlit.2

/-- **Every string is segments** and a rest that is empty or begins no directive. -/
theorem exists_segments (fmt : Bytes) (hfmt : ∀ c ∈ fmt, c ≠ 0) : ∃ segs rest,
    fmt = segmentsText segs ++ rest ∧ Maximal segs ∧ (rest = [] ∨ Malformed rest) := by
  induction hn : fmt.length using Nat.strong_induction_on generalizing fmt with
  | _ n ih =>
    subst hn
    rcases fmt with _ | ⟨c, t⟩
    · exact ⟨[], [], rfl, .nil, .inl rfl⟩
    · by_cases hc : c = 37
      · by_cases hd : ∃ d : Directive, d.text <+: c :: t
        · obtain ⟨d, r, hr⟩ := hd
          have hlen : r.length < (c :: t).length := by
            rw [← hr, List.length_append]
            exact Nat.lt_add_of_pos_left (Nat.succ_pos d.body.length)
          obtain ⟨segs, rest, rfl, hmaximal, hrest⟩ :=
            ih _ hlen r (fun x hx => hfmt x (hr ▸ List.mem_append_right _ hx)) rfl
          refine ⟨.directive d :: segs, rest, ?_, maximal_directive d hmaximal, hrest⟩
          rw [segmentsText_cons, List.append_assoc, ← hr]
          rfl
        · exact ⟨[], c :: t, rfl, .nil, .inr ⟨congrArg some hc, fun d h => hd ⟨d, h⟩⟩⟩
      · -- the run of characters other than `%` is one segment
        have hsplit := List.takeWhile_append_dropWhile (p := (· ≠ (37 : Int8))) (l := c :: t)
        have hne : (c :: t).takeWhile (· ≠ (37 : Int8)) ≠ [] := by
          rw [List.takeWhile_cons_of_pos (by simpa using hc)]
          exact List.cons_ne_nil _ _
        have hl : ∀ x ∈ (c :: t).takeWhile (· ≠ (37 : Int8)), x ≠ 0 ∧ x ≠ 37 := fun x hx =>
          ⟨hfmt x ((List.takeWhile_sublist _).subset hx), by simpa using List.mem_takeWhile_imp hx⟩
        have hlen : ((c :: t).dropWhile (· ≠ (37 : Int8))).length < (c :: t).length := by
          rw [List.dropWhile_cons_of_pos (by simpa using hc)]
          exact Nat.lt_succ_of_le (List.dropWhile_sublist _).length_le
        obtain ⟨segs, rest, htext, hmaximal, hrest⟩ := ih _ hlen _
          (fun x hx => hfmt x ((List.dropWhile_sublist _).subset hx)) rfl
        refine ⟨.literal _ hne hl :: segs, rest, ?_, maximal_literal hne hl hmaximal rest ?_, hrest⟩
        · rw [segmentsText_cons, List.append_assoc, ← htext]
          exact hsplit.symm
        · rw [← htext]
          intro x hx
          have hnot := List.head?_dropWhile_not (· ≠ (37 : Int8)) (c :: t)
          rw [hx] at hnot
          simpa using hnot

/-- **What `__vprintf` does** with a format string cut into segments. -/
theorem vprintfCtx_segments {σ : Type} {out : Out σ} (hout : NeverFails out)
    (mem : BitVec 64 → Bytes)
    (ctx : PrintCtx σ) {args : Args} {segs : List Segment} {rest : Bytes} (hmaximal : Maximal segs)
    (hrest : rest = [] ∨ Malformed rest) (hsupplied : Supplied mem segs args)
    (hmax : (pieces mem segs args).flatten.length ≤ INT_MAX) :
    ∃ ret ctx', vprintfCtx out mem ctx (segmentsText segs ++ rest ++ [0]) args =
        .ok (ret, ctx', args.drop (segmentsTaken segs)) ∧
      Given out { ctx with written := 0 } (pieces mem segs args) ctx' ∧
      (rest = [] → ret = (pieces mem segs args).flatten.length) ∧ (rest ≠ [] → ret < 0) := by
  have hhead : ∃ c r, rest ++ [0] = c :: r ∧ (c = 0 ∨ c = 37) := by
    rcases hrest with rfl | hbad
    · exact ⟨0, [], rfl, .inl rfl⟩
    · cases rest with
      | nil => cases hbad.1
      | cons c r => exact ⟨c, r ++ [0], rfl, .inr (Option.some.inj hbad.1)⟩
  obtain ⟨k, hk⟩ : ∃ k, (segmentsText segs ++ rest ++ [0]).length + 1 = segs.length + (k + 2) := by
    have hle := segments_length_le segs
    exact ⟨(segmentsText segs).length - segs.length + rest.length, by simp; omega⟩
  obtain ⟨ctx', hgiven, hwritten, hloop⟩ := vprintfLoop_segments hout segs hhead
    hmaximal hsupplied 0
    (show ({ ctx with written := 0 } : PrintCtx σ).written = 0 from rfl) (by omega) (k + 2)
  rw [vprintfCtx, hk, List.append_assoc, hloop]
  rcases hrest with rfl | hbad
  · rw [List.nil_append, vprintfLoop_end, ok_bind]
    refine ⟨_, ctx', rfl, hgiven, fun _ => ?_, fun h => absurd rfl h⟩
    rw [if_neg (by decide), hwritten, Nat.zero_add]
  · rw [vprintfLoop_malformed hbad, ok_bind]
    refine ⟨-1, ctx', rfl, hgiven, fun h => ?_, fun _ => by decide⟩
    rw [h] at hbad
    cases hbad.1

/-- **What `__vprintf` does with every format string.**  It reads none of the bytes behind the NUL,
which is the last one of its block.  The rendering has at most `INT_MAX` bytes. -/
theorem vprintf_segments {σ : Type} (out : Out σ) (hout : NeverFails out) (mem : BitVec 64 → Bytes)
    (ctx : PrintCtx σ) (args : Args) (fmt : Bytes) (hfmt : ∀ c ∈ fmt, c ≠ 0) :
    (∃ segs rest, fmt = segmentsText segs ++ rest ∧ Maximal segs ∧ (rest = [] ∨ Malformed rest)) ∧
    ∀ segs rest, fmt = segmentsText segs ++ rest → Maximal segs → (rest = [] ∨ Malformed rest) →
      Supplied mem segs args → (pieces mem segs args).flatten.length ≤ INT_MAX →
      ∃ ret ctx', vprintfCtx out mem ctx (fmt ++ [0]) args = .ok (ret, ctx',
        args.drop (segmentsTaken segs)) ∧
        Given out { ctx with written := 0 } (pieces mem segs args) ctx' ∧
        (rest = [] → ret = (pieces mem segs args).flatten.length) ∧ (rest ≠ [] → ret < 0) := by
  refine ⟨exists_segments fmt hfmt, fun segs rest htext hmaximal hrest hsupplied hmax => ?_⟩
  rw [htext]
  exact vprintfCtx_segments hout mem ctx hmaximal hrest hsupplied hmax

/-- A sink that takes everything and keeps nothing. -/
def nullOut : Out Unit := fun _ _ _ => .ok (0, ())

theorem nullOut_neverFails : NeverFails nullOut := fun _ _ _ _ _ => ⟨0, (), rfl, Int.le_refl 0⟩

/-- `"%d"`. -/
def plainInt : Directive := ⟨none, [], none, .none, .d, no_width, no_precision⟩

/-- `"%d%l"` is cut off: the number is printed, the second argument is left. -/
theorem vprintf_segments_cut_off : ∃ ret ctx',
    vprintfCtx nullOut (fun _ => []) ⟨(), 0⟩ ([37, 100, 37, 108] ++ [0]) [5, 6] =
      .ok (ret, ctx', [6]) ∧ Given nullOut ⟨(), 0⟩ [[53]] ctx' ∧ ret < 0 := by
  have hnone : ∀ d : Directive, ¬ d.text <+: [37, 108] := by
    intro d h
    have hmem : d.conv.char ∈ [(108 : Int8)] :=
      (List.cons_prefix_cons.mp h).2.subset (by simp [Directive.body])
    cases hk : d.conv <;> rw [hk] at hmem <;> revert hmem <;> decide
  have hpieces : pieces (fun _ => []) [.directive plainInt] [5, 6] = [[53]] := by decide +kernel
  obtain ⟨ret, ctx', hrun, hgiven, -, hret⟩ :=
    (vprintf_segments nullOut nullOut_neverFails (fun _ => []) ⟨(), 0⟩
    [5, 6] [37, 100, 37, 108] (by decide +kernel)).2 [.directive plainInt] [37, 108] (by
      decide +kernel) (.singleton _)
    (.inr ⟨rfl, hnone⟩) ⟨⟨by decide, by decide⟩, trivial⟩ (by rw [hpieces]; decide)
  rw [hpieces] at hgiven
  exact ⟨ret, ctx', hrun, hgiven, hret (by decide)⟩

theorem print_nullOut (ctx : PrintCtx Unit) (buf : Bytes) (size : Int) :
    print nullOut ctx buf size = .ok (0, ⟨(), toInt (ctx.written + size)⟩) := rfl

/-- A literal run alone: the length is converted to an `int`. -/
theorem vprintfCtx_literal {l : Bytes} (hne : l ≠ []) (hl : ∀ c ∈ l, c ≠ 0 ∧ c ≠ 37) :
    ∃ ctx', vprintfCtx nullOut (fun _ => []) ⟨(), 0⟩ (l ++ [0]) [] =
    .ok (toInt (0 + toInt l.length), ctx', []) := by
  have hdecode := decodeFormat_literal hne hl ⟨0, [], rfl, .inl rfl⟩
  have hlen : (((l ++ [0]).length : Int) - ([0] : Bytes).length) = l.length := by simp
  obtain ⟨k, hk⟩ : ∃ k, (l ++ [0]).length + 1 = k + 2 := ⟨l.length, by simp⟩
  obtain ⟨c, t, rfl⟩ := List.exists_cons_of_ne_nil hne
  have hprint := print_nullOut ⟨(), 0⟩ (c :: t ++ [0]) (toInt (c :: t).length)
  simp only at hprint
  generalize toInt (0 + toInt (c :: t).length) = written at hprint ⊢
  have hstep : vprintfStep nullOut (fun _ => []) ⟨(), 0⟩ (c :: t ++ [0]) [0] [] FMT_NONE =
      .ok (0, ⟨(), written⟩, []) := by
    rw [vprintfStep, if_neg (by decide), if_neg (by decide), if_neg (by decide),
      if_pos (by decide), hlen, hprint]
    rfl
  refine ⟨⟨(), written⟩, ?_⟩
  rw [vprintfCtx, hk, vprintfLoop, if_pos (by decide), List.cons_append, deref, ok_bind,
    if_pos (hl c List.mem_cons_self).1, ← List.cons_append, hdecode, ok_bind]
  simp only
  rw [hstep, ok_bind]
  simp only
  rw [vprintfLoop_end, ok_bind]
  simp only
  rw [if_neg (by omega)]
  exact pure_eq_ok _

/-- **A literal run of `2 ^ 31` characters**: its length is no `int`. -/
theorem long_literal : NeverFails nullOut ∧ ∃ seg : Segment, seg.text = List.replicate (2 ^ 31) 65 ∧
    ∃ ctx', vprintfCtx nullOut (fun _ => []) ⟨(), 0⟩ (segmentsText [seg] ++ [0]) [] =
    .ok (-2 ^ 31, ctx', []) := by
  refine ⟨nullOut_neverFails, ?_⟩
  obtain ⟨n, hn⟩ : ∃ n, n = 2 ^ 31 := ⟨_, rfl⟩
  rw [← hn]
  have hne : List.replicate n (65 : Int8) ≠ [] := by
    intro h
    rw [List.replicate_eq_nil_iff] at h
    omega
  have hl : ∀ c ∈ List.replicate n (65 : Int8), c ≠ 0 ∧ c ≠ 37 := by
    intro c hc
    rw [(List.mem_replicate.mp hc).2]
    decide
  obtain ⟨ctx', hrun⟩ := vprintfCtx_literal hne hl
  have hret : toInt (0 + toInt (n : Int)) = -2 ^ 31 := by
    rw [hn]
    decide
  rw [List.length_replicate, hret] at hrun
  refine ⟨.literal _ hne hl, rfl, ctx', ?_⟩
  rw [segmentsText_cons, segmentsText, List.flatMap_nil, List.append_nil]
  exact hrun

end AuOs
