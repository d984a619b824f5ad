import Mathlib
import AuOs.Print.Vprintf

/-!
# The serial line and the buffer

Reference model of `serial_out`, `vprintf`, `str_out` and `vsnprintf` of `print.c` and of
`serial_write` of `serial.c`.  The strings of the arguments do not overlap the buffer.

* `vprintf` — what it returns and what was sent.
* `vsnprintf` — what it returns and the buffer.
* `vprintfLoop_sim` — two sinks behind the same loop.
* `vprintf_inBuffer` — what `str_out` leaves in the buffer of what `vprintf` sends.
* `vsnprintf_meets_iff` — **when the buffer holds what it should**.
-/

set_option autoImplicit false

namespace AuOs

/-- The conversion of an `int` to `size_t`. -/
def asSize (n : Int) : Nat := (n % 2 ^ 64).toNat

/-- `serial_write`: `sent` are the characters that were sent. -/
def serialWrite (sent : Bytes) : Bytes → Nat → Res Bytes
  | _, 0 => .ok sent
  | [], _ + 1 => .error .fault
  | c :: buf, size + 1 => serialWrite (sent ++ [c]) buf size

/-- `serial_out`. -/
def serialOut : Out Bytes := fun ctx buf size => do
  let sent ← serialWrite ctx.sink buf (asSize size)
  return (0, sent)

/-- `vprintf`. -/
def vprintf (mem : BitVec 64 → Bytes) (sent fmt : Bytes) (args : Args) : Res (Int × Bytes) := do
  let (rc, ctx, _) ← vprintfCtx serialOut mem ⟨sent, 0⟩ fmt args
  return (rc, ctx.sink)

/-- `struct print_str_ctx`.  The buffer is a block of its own. -/
structure StrBuf where
  buf : Bytes
  size : Int

/-- The position `buf + n`, which may not be before the buffer. -/
def offset (n : Int) : Res Nat := if 0 ≤ n then .ok n.toNat else .error .fault

/-- `str_out`. -/
def strOut : Out StrBuf := fun ctx buf size =>
  if ctx.written > ctx.sink.size then return (0, ctx.sink)
  else do
    let remain := if size < toInt (ctx.sink.size - ctx.written) then size
      else toInt (ctx.sink.size - ctx.written)
    let to_ ← offset ctx.written
    let buf ← memcpy ctx.sink.buf to_ buf (asSize remain)
    return (0, { ctx.sink with buf := buf })

/-- `vsnprintf`. -/
def vsnprintf (mem : BitVec 64 → Bytes) (buf : Bytes) (size : Nat) (fmt : Bytes) (args : Args) :
    Res (Int × Bytes) := do
  let (rc, ctx, _) ← vprintfCtx strOut mem ⟨⟨buf, toInt size⟩, 0⟩ fmt args
  if rc ≥ 0 then
    let ptr ← offset (if rc < toInt size then rc - 1 else toInt size - 1)
    let buf ← store ctx.sink.buf ptr 0
    return (rc, buf)
  else return (rc, ctx.sink.buf)

/-! ## Two sinks behind the same loop -/

section Sim

variable {mem : BitVec 64 → Bytes}

/-- An `int`. -/
def IsInt (n : Int) : Prop := -2 ^ 31 ≤ n ∧ n < 2 ^ 31

theorem toInt_isInt (n : Int) : IsInt (toInt n) := by
  have hle := Int.le_bmod (x := n) (m := 2 ^ 32) (by decide)
  have hlt := Int.bmod_lt (x := n) (m := 2 ^ 32) (by decide)
  unfold IsInt toInt
  omega

/-- **What a turn does** is the same for every sink: it stops, it prints, or it fails. -/
inductive TurnAction (mem : BitVec 64 → Bytes) (start fmt : Bytes) (args : Args)
    (type : Nat) : Prop where
  | stops (e : Stop) : (∀ (σ : Type) (out : Out σ) (ctx : PrintCtx σ),
      vprintfStep out mem ctx start fmt args type = .error e) → TurnAction mem start fmt args type
  | prints (buf : Bytes) (size : Int) (args' : Args) : IsInt size →
      (∀ (σ : Type) (out : Out σ) (ctx : PrintCtx σ),
          vprintfStep out mem ctx start fmt args type = (do
        let (rc, ctx) ← print out ctx buf size
        return (rc, ctx, args'))) → TurnAction mem start fmt args type
  | fails : (∀ (σ : Type) (out : Out σ) (ctx : PrintCtx σ),
      vprintfStep out mem ctx start fmt args type = .ok (-1, ctx, args)) →
        TurnAction mem start fmt args type

/-- What `print_number` leaves in its buffer. -/
def numberBuffer (type : Nat) (arg : BitVec 64) : Res Bytes :=
  if type &&& FMT_UNSIGNED ≠ 0 then
    ulltoa (if type &&& FMT_LONG ≠ 0 then arg else if type &&& FMT_LLONG ≠ 0 then arg
      else (arg.setWidth 32).setWidth 64) (List.replicate 64 0) 0 (typeBase type)
  else
    lltoa (if type &&& FMT_LONG ≠ 0 then arg else if type &&& FMT_LLONG ≠ 0 then arg
      else (arg.setWidth 32).signExtend 64) (List.replicate 64 0) 0 (typeBase type)

theorem printNumber_buffer {σ : Type} (out : Out σ) (ctx : PrintCtx σ) (w : BitVec 64)
    (args : Args) (type : Nat) : printNumber out ctx (w :: args) type = (do
      let buf ← numberBuffer type w
      let size ← strlen buf
      let (rc, ctx) ← print out ctx buf (toInt size)
      return (rc, ctx, args)) := by
  rw [printNumber, vaArg, ok_bind, numberBuffer]
  simp only
  split
  · rfl
  · rfl

theorem turnAction (mem : BitVec 64 → Bytes) (start fmt : Bytes) (args : Args) (type : Nat) :
    TurnAction mem start fmt args type := by
  by_cases hstr : type &&& 0xff = FMT_STR
  · cases args with
    | nil => exact .stops .fault fun σ out ctx => by rw [vprintfStep, if_pos hstr]; rfl
    | cons w args =>
      cases hlen : strlen (mem w) with
      | error e =>
        refine .stops e fun σ out ctx => ?_
        rw [vprintfStep, if_pos hstr, vaArg, ok_bind]
        simp only
        rw [hlen]
        rfl
      | ok n =>
        refine .prints (mem w) (toInt n) args (toInt_isInt _) fun σ out ctx => ?_
        rw [vprintfStep, if_pos hstr, vaArg, ok_bind]
        simp only
        rw [hlen]
        rfl
  · by_cases hchar : type &&& 0xff = FMT_CHAR
    · cases args with
      | nil =>
        exact .stops .fault fun σ out ctx => by rw [vprintfStep, if_neg hstr, if_pos hchar]; rfl
      | cons w args =>
        refine .prints [Int8.ofBitVec (w.setWidth 8)] 1 args ⟨by decide, by decide⟩
          fun σ out ctx => ?_
        rw [vprintfStep, if_neg hstr, if_pos hchar]
        rfl
    · by_cases hint : type &&& 0xff = FMT_INT
      · cases args with
        | nil =>
          exact .stops .fault fun σ out ctx => by
            rw [vprintfStep, if_neg hstr, if_neg hchar, if_pos hint]; rfl
        | cons w args =>
          cases hbuf : numberBuffer type w with
          | error e =>
            refine .stops e fun σ out ctx => ?_
            rw [vprintfStep, if_neg hstr, if_neg hchar, if_pos hint, printNumber_buffer, hbuf]
            rfl
          | ok buf =>
            cases hlen : strlen buf with
            | error e =>
              refine .stops e fun σ out ctx => ?_
              rw [vprintfStep, if_neg hstr, if_neg hchar, if_pos hint, printNumber_buffer,
                hbuf, ok_bind, hlen]
              rfl
            | ok n =>
              refine .prints buf (toInt n) args (toInt_isInt _) fun σ out ctx => ?_
              rw [vprintfStep, if_neg hstr, if_neg hchar, if_pos hint, printNumber_buffer,
                hbuf, ok_bind, hlen]
              rfl
      · by_cases hnone : type &&& 0xff = FMT_NONE
        · refine .prints start _ args (toInt_isInt (start.length - fmt.length)) fun σ out ctx => ?_
          rw [vprintfStep, if_neg hstr, if_neg hchar, if_neg hint, if_pos hnone]
        · by_cases hpercent : type &&& 0xff = FMT_PERCENT
          · refine .prints [37, 0] 1 args ⟨by decide, by decide⟩ fun σ out ctx => ?_
            rw [vprintfStep, if_neg hstr, if_neg hchar, if_neg hint, if_neg hnone, if_pos hpercent]
          · refine .fails fun σ out ctx => ?_
            rw [vprintfStep, if_neg hstr, if_neg hchar, if_neg hint, if_neg hnone, if_neg hpercent]
            rfl

/-- A call of `print` with the first sink has a counterpart with the second one, as long as what the
first one keeps is `Good`. -/
def Simulates {σ τ : Type} (out : Out σ) (out' : Out τ) (Good : PrintCtx σ → Prop)
    (R : PrintCtx σ → PrintCtx τ → Prop) : Prop :=
  ∀ ctx buf size rc ctx', IsInt size → print out ctx buf size = .ok (rc, ctx') → Good ctx' →
    Good ctx ∧ ∀ sctx, R ctx sctx → ∃ sctx', print out' sctx buf size = .ok (rc, sctx') ∧
      R ctx' sctx'

variable {σ τ : Type} {out : Out σ} {out' : Out τ} {Good : PrintCtx σ → Prop}
  {R : PrintCtx σ → PrintCtx τ → Prop}

theorem vprintfStep_sim (hsim : Simulates out out' Good R) {ctx : PrintCtx σ}
    {start fmt : Bytes} {args : Args} {type : Nat} {rc : Int} {ctx' : PrintCtx σ} {args' : Args}
    (hrun : vprintfStep out mem ctx start fmt args type = .ok (rc, ctx', args'))
    (hgood : Good ctx') : Good ctx ∧ ∀ sctx, R ctx sctx → ∃ sctx',
      vprintfStep out' mem sctx start fmt args type = .ok (rc, sctx', args') ∧ R ctx' sctx' := by
  cases turnAction mem start fmt args type with
  | stops e h =>
    rw [h] at hrun
    cases hrun
  | fails h =>
    rw [h] at hrun
    cases hrun
    exact ⟨hgood, fun sctx hR => ⟨sctx, h τ out' sctx, hR⟩⟩
  | prints buf size args'' hsize h =>
    rw [h] at hrun
    obtain ⟨⟨rc1, ctx1⟩, hprint, hret⟩ := bind_eq_ok.mp hrun
    cases hret
    obtain ⟨hgood', hR⟩ := hsim ctx buf size rc ctx' hsize hprint hgood
    refine ⟨hgood', fun sctx hs => ?_⟩
    obtain ⟨sctx', hprint', hs'⟩ := hR sctx hs
    refine ⟨sctx', ?_, hs'⟩
    rw [h, hprint']
    rfl

/-- **Two sinks behind the same loop.** -/
theorem vprintfLoop_sim (hsim : Simulates out out' Good R) (fuel : Nat)
    {ctx : PrintCtx σ} {fmt : Bytes} {args : Args} {rc rc' : Int} {ctx' : PrintCtx σ} {args' : Args}
    (hrun : vprintfLoop out mem fuel ctx fmt args rc = .ok (rc', ctx', args')) (hgood : Good ctx') :
    Good ctx ∧ ∀ sctx, R ctx sctx → ∃ sctx',
      vprintfLoop out' mem fuel sctx fmt args rc = .ok (rc', sctx', args') ∧ R ctx' sctx' := by
  induction fuel generalizing ctx fmt args rc with
  | zero => cases hrun
  | succ fuel ih =>
    rw [vprintfLoop] at hrun
    simp only [vprintfLoop]
    split at hrun
    case isFalse hrc =>
      cases hrun
      simp only [if_neg hrc]
      exact ⟨hgood, fun sctx hR => ⟨sctx, rfl, hR⟩⟩
    case isTrue hrc =>
      obtain ⟨c, hderef, hrun⟩ := bind_eq_ok.mp hrun
      simp only [if_pos hrc, hderef, ok_bind]
      split at hrun
      case isFalse hc =>
        cases hrun
        simp only [if_neg hc]
        exact ⟨hgood, fun sctx hR => ⟨sctx, rfl, hR⟩⟩
      case isTrue hc =>
        obtain ⟨⟨type, fmt'⟩, hdecode, hrun⟩ := bind_eq_ok.mp hrun
        obtain ⟨⟨rc1, ctx1, args1⟩, hstep, hrun⟩ := bind_eq_ok.mp hrun
        obtain ⟨hgood1, hloop⟩ := ih hrun
        obtain ⟨hgood0, hturn⟩ := vprintfStep_sim hsim hstep hgood1
        refine ⟨hgood0, fun sctx hR => ?_⟩
        obtain ⟨sctx1, hstep', hR1⟩ := hturn sctx hR
        obtain ⟨sctx2, hloop', hR2⟩ := hloop sctx1 hR1
        simp only [if_pos hc, hdecode, hstep', ok_bind]
        exact ⟨sctx2, hloop', hR2⟩

end Sim

/-! ## The buffer holds what is sent -/

theorem serialWrite_eq {size : Nat} {buf : Bytes} (h : size ≤ buf.length) (sent : Bytes) :
    serialWrite sent buf size = .ok (sent ++ buf.take size) := by
  induction size generalizing buf sent with
  | zero => rw [serialWrite, List.take_zero, List.append_nil]
  | succ size ih =>
    cases buf with
    | nil => exact absurd h (Nat.not_succ_le_zero size)
    | cons c buf =>
      rw [serialWrite, ih (Nat.le_of_succ_le_succ h), List.take_succ_cons, List.append_assoc]
      rfl

theorem serialWrite_fault {size : Nat} {buf : Bytes} (h : buf.length < size) (sent : Bytes) :
    serialWrite sent buf size = .error .fault := by
  induction size generalizing buf sent with
  | zero => exact absurd h (Nat.not_lt_zero _)
  | succ size ih =>
    cases buf with
    | nil => rfl
    | cons c buf => exact ih (Nat.lt_of_succ_lt_succ h) _

theorem asSize_natCast {n : Nat} (h : n < 2 ^ 64) : asSize n = n := by
  unfold asSize
  omega

theorem serialOut_neverFails : NeverFails serialOut := by
  intro ctx buf size hsize hmax
  unfold INT_MAX at hmax
  refine ⟨0, ctx.sink ++ buf.take size, ?_, Int.le_refl 0⟩
  rw [serialOut, asSize_natCast (by omega), serialWrite_eq hsize]
  rfl

/-- What a call of `print` sends. -/
theorem print_serialOut {ctx ctx' : PrintCtx Bytes} {buf : Bytes} {size rc : Int}
    (hsize : IsInt size)
    (h : print serialOut ctx buf size = .ok (rc, ctx')) (hmax : ctx'.sink.length ≤ INT_MAX) :
    ∃ n : Nat, size = n ∧ n ≤ buf.length ∧ rc = 0 ∧ ctx'.sink = ctx.sink ++ buf.take n ∧
      ctx'.written = toInt (ctx.written + n) := by
  obtain ⟨⟨rc1, sent⟩, hcall, hret⟩ := bind_eq_ok.mp h
  obtain ⟨sent', hwrite, hsent⟩ := bind_eq_ok.mp hcall
  cases hsent
  have hle : asSize size ≤ buf.length := by
    by_contra hlt
    rw [serialWrite_fault (Nat.not_le.mp hlt)] at hwrite
    cases hwrite
  rw [serialWrite_eq hle] at hwrite
  cases hwrite
  cases hret
  have hlen : asSize size ≤ INT_MAX := by
    simp only [List.length_append, List.length_take] at hmax
    omega
  obtain ⟨hlow, hhigh⟩ := hsize
  have hnonneg : size = asSize size := by
    unfold asSize INT_MAX at *
    omega
  exact ⟨asSize size, hnonneg, hle, rfl, rfl, by rw [← hnonneg]⟩

/-- What was sent so far stands in the buffer as far as it fits. -/
structure InBuffer (buf : Bytes) (ctx : PrintCtx Bytes) (sctx : PrintCtx StrBuf) : Prop where
  written : ctx.written = ctx.sink.length
  written' : sctx.written = ctx.sink.length
  sink : sctx.sink = ⟨splice buf 0 (ctx.sink.take buf.length), buf.length⟩

/-- **One call of `str_out`** puts into the buffer what is sent, as far as it fits. -/
theorem strOut_inBuffer {buf : Bytes} (hsize : buf.length ≤ INT_MAX) {ctx : PrintCtx Bytes}
    {sctx : PrintCtx StrBuf} (h : InBuffer buf ctx sctx) {src : Bytes} {n : Nat}
    (hn : n ≤ src.length) (hmax : ctx.sink.length + n ≤ INT_MAX) :
    strOut sctx src n = .ok (0, ⟨splice buf 0 ((ctx.sink ++ src.take n).take buf.length),
      buf.length⟩) := by
  unfold INT_MAX at hsize hmax
  rw [strOut, h.written', h.sink]
  simp only
  split
  case isTrue hfull =>
    have htake : (ctx.sink ++ src.take n).take buf.length = ctx.sink.take buf.length :=
      List.take_append_of_le_length (by omega)
    rw [htake]
    rfl
  case isFalse hfull =>
    have hle : ctx.sink.length ≤ buf.length := by omega
    have hrest : toInt ((buf.length : Int) - ctx.sink.length) =
        ↑(buf.length - ctx.sink.length) := by
      rw [← Int.natCast_sub hle]
      exact toInt_natCast (by unfold INT_MAX; omega)
    have hremain : (if (n : Int) < ↑(buf.length - ctx.sink.length) then (n : Int)
        else ↑(buf.length - ctx.sink.length)) = ↑(min n (buf.length - ctx.sink.length)) := by
      split <;> omega
    have hoffset : offset ctx.sink.length = .ok (0 + ctx.sink.length) := by
      rw [offset, if_pos (by omega)]
      exact congrArg Except.ok (by omega)
    have hfit : 0 + ctx.sink.length + min n (buf.length - ctx.sink.length) ≤
        (splice buf 0 ctx.sink).length := by
      rw [length_splice_of_le (by omega)]
      omega
    have htext : (ctx.sink ++ src.take n).take buf.length =
        ctx.sink ++ src.take (min n (buf.length - ctx.sink.length)) := by
      rw [List.take_append, List.take_of_length_le hle, List.take_take, Nat.min_comm]
    rw [hrest, hremain, hoffset, ok_bind, asSize_natCast (by omega), List.take_of_length_le hle,
      memcpy_eq (by omega) hfit, ok_bind, splice_append (by omega), htext]
    rfl

theorem strOut_simulates {buf : Bytes} (hsize : buf.length ≤ INT_MAX) :
    Simulates serialOut strOut (fun ctx => ctx.sink.length ≤ INT_MAX) (InBuffer buf) := by
  intro ctx src n rc ctx' hint hprint hmax
  obtain ⟨n, rfl, hn, rfl, hsink, hwritten⟩ := print_serialOut hint hprint hmax
  have hlen : ctx'.sink.length = ctx.sink.length + n := by
    rw [hsink, List.length_append, List.length_take_of_le hn]
  rw [hlen] at hmax
  refine ⟨by omega, fun sctx h => ?_⟩
  have hcall := strOut_inBuffer hsize h hn hmax
  have hsum : toInt ((ctx.sink.length : Int) + n) = ctx'.sink.length := by
    rw [hlen, ← Int.natCast_add]
    exact toInt_natCast hmax
  refine ⟨⟨⟨splice buf 0 (ctx'.sink.take buf.length), buf.length⟩, ctx'.sink.length⟩,
    ?_, ?_, rfl, rfl⟩
  · rw [print, hcall, ok_bind, h.written', hsum, ← hsink]
    rfl
  · rw [hwritten, h.written, hsum]

/-- **`str_out` leaves in the buffer what `serial_out` sends**, as far as it fits. -/
theorem vprintf_inBuffer {mem : BitVec 64 → Bytes} {buf : Bytes}
    (hsize : buf.length ≤ INT_MAX) {fmt : Bytes}
    {args : Args} {n : Int} {text : Bytes} (hrun : vprintf mem [] fmt args = .ok (n, text))
    (hmax : text.length ≤ INT_MAX) : ∃ written args',
    vprintfCtx strOut mem ⟨⟨buf, toInt buf.length⟩, 0⟩ fmt args =
      .ok (n, ⟨⟨splice buf 0 (text.take buf.length), buf.length⟩, written⟩, args') := by
  obtain ⟨⟨rc, ctx, args'⟩, hctx, hret⟩ := bind_eq_ok.mp hrun
  obtain ⟨⟨rc1, ctx1, args1⟩, hloop, hret1⟩ := bind_eq_ok.mp hctx
  cases hret
  cases hret1
  have hstart : InBuffer buf ⟨[], 0⟩ ⟨⟨buf, toInt buf.length⟩, 0⟩ :=
    ⟨rfl, rfl, by rw [List.take_nil, splice_nil, toInt_natCast hsize]⟩
  obtain ⟨-, hsim⟩ := vprintfLoop_sim (strOut_simulates hsize) _ hloop hmax
  obtain ⟨⟨sink, written⟩, hloop', hin⟩ := hsim _ hstart
  obtain ⟨hw, hw', hsink⟩ := hin
  simp only at hw' hsink
  refine ⟨written, args', ?_⟩
  rw [vprintfCtx]
  simp only
  rw [hloop', ok_bind]
  simp only
  rw [hw, hw', hsink]
  rfl

/-! ## The terminator -/

/-- What `vsnprintf` should leave in the buffer of a text: its characters as far as they fit, and a
NUL. -/
def Snprinted (size : Nat) (text buf' : Bytes) : Prop :=
  buf'.take (min text.length (size - 1) + 1) = text.take (size - 1) ++ [0]

/-- **When the buffer holds what it should**: the text is as long as the buffer or longer, or its
last character is the NUL that the text should be followed by, and another NUL is in the buffer
already. -/
def BufferOk (buf text : Bytes) : Prop :=
  buf.length ≤ text.length ∨ (text.getLast? = some 0 ∧ buf[text.length]? = some 0)

/-- `vsnprintf` where `vprintf` succeeds. -/
theorem vsnprintf_eq {mem : BitVec 64 → Bytes} {buf : Bytes}
    (hsize : buf.length ≤ INT_MAX) {fmt : Bytes}
    {args : Args} {text : Bytes} (hrun : vprintf mem [] fmt args = .ok (text.length, text))
    (hmax : text.length ≤ INT_MAX) : vsnprintf mem buf buf.length fmt args = (do
      let ptr ← offset (if text.length < buf.length then (text.length : Int) - 1 else
        (buf.length : Int) - 1)
      let buf ← store (splice buf 0 (text.take buf.length)) ptr 0
      return ((text.length : Int), buf)) := by
  obtain ⟨written, args', hctx⟩ := vprintf_inBuffer hsize hrun hmax
  rw [vsnprintf, hctx, ok_bind]
  simp only
  rw [if_pos (by omega), toInt_natCast hsize]
  simp only [Int.ofNat_lt]

theorem vsnprintf_long {mem : BitVec 64 → Bytes} {buf : Bytes} (hbuf : 1 ≤ buf.length)
    (hsize : buf.length ≤ INT_MAX) {fmt : Bytes} {args : Args} {text : Bytes}
    (hrun : vprintf mem [] fmt args = .ok (text.length, text)) (hmax : text.length ≤ INT_MAX)
    (hlong : buf.length ≤ text.length) : ∃ buf', vsnprintf mem buf buf.length fmt args =
      .ok (text.length, buf') ∧ Snprinted buf.length text buf' := by
  have hoffset : offset ((buf.length : Int) - 1) = .ok (buf.length - 1) := by
    rw [offset, if_pos (by omega)]
    exact congrArg Except.ok (by omega)
  have hsplice : splice buf 0 (text.take buf.length) = text.take buf.length := by
    rw [splice_end (by rw [List.length_take]; omega)]
    rfl
  rw [vsnprintf_eq hsize hrun hmax, if_neg (by omega), hoffset, ok_bind, hsplice,
    store_eq 0 (by rw [List.length_take]; omega)]
  refine ⟨_, rfl, ?_⟩
  have hmin : min text.length (buf.length - 1) + 1 = buf.length - 1 + [(0 : Int8)].length := by
    rw [List.length_singleton]
    omega
  rw [Snprinted, hmin, take_splice (by rw [List.length_take]; omega), List.take_take,
    Nat.min_eq_left (by omega)]

/-- The last character of a text that fits is lost. -/
theorem vsnprintf_short {mem : BitVec 64 → Bytes} {buf : Bytes} (hsize : buf.length ≤ INT_MAX)
    {fmt t : Bytes}
    {c : Int8} {args : Args} (hrun : vprintf mem [] fmt args = .ok ((t ++ [c]).length, t ++ [c]))
    (hmax : (t ++ [c]).length ≤ INT_MAX) (hshort : (t ++ [c]).length < buf.length) :
    vsnprintf mem buf buf.length fmt args =
      .ok ((t ++ [c]).length, t ++ 0 :: buf.drop (t ++ [c]).length) := by
  have hlen : (t ++ [c]).length = t.length + 1 := List.length_append
  have hoffset : offset (((t ++ [c]).length : Int) - 1) = .ok t.length := by
    rw [offset, if_pos (by omega)]
    exact congrArg Except.ok (by omega)
  have hsplice : splice buf 0 ((t ++ [c]).take buf.length) = t ++ c :: buf.drop
      (t ++ [c]).length := by
    rw [List.take_of_length_le (by omega), splice, List.take_zero, Nat.zero_add, List.nil_append,
      List.append_assoc]
    rfl
  rw [vsnprintf_eq hsize hrun hmax, if_pos hshort, hoffset, ok_bind, hsplice, store_append]
  rfl

/-- What a format string gives to the sink. -/
def rendering (mem : BitVec 64 → Bytes) (segs : List Segment) (args : Args) : Bytes :=
  (pieces mem segs args).flatten

theorem given_serialOut {ctx ctx' : PrintCtx Bytes} {ps : List Bytes}
    (h : Given serialOut ctx ps ctx')
    (hmax : ps.flatten.length ≤ INT_MAX) : ctx'.sink = ctx.sink ++ ps.flatten := by
  induction h with
  | nil ctx => exact (List.append_nil _).symm
  | @cons ctx ctx' src size rc sink ps hcall hrc hsize _ ih =>
    rw [List.flatten_cons, List.length_append, List.length_take_of_le hsize] at hmax
    have hsink : sink = ctx.sink ++ src.take size := by
      unfold INT_MAX at hmax
      rw [serialOut, asSize_natCast (by omega), serialWrite_eq hsize] at hcall
      cases hcall
      rfl
    rw [ih (by omega), hsink, List.flatten_cons, List.append_assoc]

/-- **What `vprintf` sends.** -/
theorem vprintf_rendering (mem : BitVec 64 → Bytes) (sent : Bytes)
    {segs : List Segment} {args : Args}
    (hmaximal : Maximal segs) (hsupplied : Supplied mem segs args)
    (hmax : (rendering mem segs args).length ≤ INT_MAX) :
      vprintf mem sent (segmentsText segs ++ [0]) args =
      .ok ((rendering mem segs args).length, sent ++ rendering mem segs args) := by
  obtain ⟨ret, ctx', hrun, hgiven, hret, -⟩ := vprintfCtx_segments serialOut_neverFails mem
    ⟨sent, 0⟩ hmaximal (.inl rfl) hsupplied hmax
  rw [List.append_nil] at hrun
  have hsink := given_serialOut hgiven hmax
  rw [vprintf, hrun, ok_bind]
  simp only
  rw [hret rfl, hsink]
  rfl

/-- **When `vsnprintf` does what it should**, for every format string and its arguments: it stays
inside the buffer, returns the length of what `vprintf` sends, and leaves its beginning and a
NUL. -/
theorem vsnprintf_meets_iff (mem : BitVec 64 → Bytes) (buf : Bytes) (hbuf : 1 ≤ buf.length)
    (hsize : buf.length ≤ INT_MAX) (segs : List Segment) (args : Args) (hmaximal : Maximal segs)
    (hsupplied : Supplied mem segs args) (hmax : (rendering mem segs args).length ≤ INT_MAX) :
    vprintf mem [] (segmentsText segs ++ [0]) args =
      .ok ((rendering mem segs args).length, rendering mem segs args) ∧
    ((∃ buf', vsnprintf mem buf buf.length (segmentsText segs ++ [0]) args =
        .ok ((rendering mem segs args).length, buf') ∧
          Snprinted buf.length (rendering mem segs args) buf') ↔
      BufferOk buf (rendering mem segs args)) := by
  have hrun := vprintf_rendering mem [] hmaximal hsupplied hmax
  rw [List.nil_append] at hrun
  refine ⟨hrun, ?_⟩
  generalize rendering mem segs args = text at hrun hmax ⊢
  by_cases hlong : buf.length ≤ text.length
  · exact iff_of_true (vsnprintf_long hbuf hsize hrun hmax hlong) (.inl hlong)
  · rcases List.eq_nil_or_concat text with rfl | ⟨t, c, rfl⟩
    · -- the terminator goes before the buffer
      have hfault : vsnprintf mem buf buf.length (segmentsText segs ++ [0]) args =
          .error .fault := by
        rw [vsnprintf_eq hsize hrun hmax, if_pos (Nat.not_le.mp hlong)]
        rfl
      refine iff_of_false ?_ ?_
      · rintro ⟨buf', h, -⟩
        rw [hfault] at h
        cases h
      · rintro (h | h)
        · exact hlong h
        · cases h.1
    · rw [List.concat_eq_append] at *
      have hshort := Nat.not_le.mp hlong
      have hlast : (t ++ [c]).getLast? = some c := List.getLast?_concat
      have hlen : (t ++ [c]).length = t.length + 1 := List.length_append
      obtain ⟨x, r, hx⟩ : ∃ x r, buf.drop (t ++ [c]).length = x :: r :=
        List.exists_cons_of_ne_nil (by rw [Ne, List.drop_eq_nil_iff]; exact hlong)
      have hget : buf[(t ++ [c]).length]? = some x := by
        rw [← List.head?_drop, hx]
        rfl
      have htake : (t ++ 0 :: x :: r).take (min (t ++ [c]).length (buf.length - 1) + 1) =
          t ++ [0, x] := by
        have hmin : min (t ++ [c]).length (buf.length - 1) + 1 = t.length + 2 := by omega
        rw [hmin, List.take_length_add_append]
        rfl
      have hfits : (t ++ [c]).take (buf.length - 1) = t ++ [c] := List.take_of_length_le (by omega)
      rw [vsnprintf_short hsize hrun hmax hshort, hx, BufferOk, hlast, hget]
      constructor
      · rintro ⟨buf', h, hprinted⟩
        cases h
        rw [Snprinted, htake, hfits, List.append_assoc, List.append_cancel_left_eq] at hprinted
        simp only [List.singleton_append, List.cons.injEq] at hprinted
        exact .inr ⟨congrArg some hprinted.1.symm, congrArg some hprinted.2.1⟩
      · rintro (h | ⟨hc, hx0⟩)
        · exact absurd h hlong
        · cases hc
          cases hx0
          exact ⟨_, rfl, by rw [Snprinted, htake, hfits, List.append_assoc]; rfl⟩

/-- `"abc"` and a buffer of three bytes. -/
theorem vsnprintf_meets_three : ∃ buf',
    vsnprintf (fun _ => []) [1, 1, 1] 3 [97, 98, 99, 0] [] = .ok (3, buf') ∧
      Snprinted 3 [97, 98, 99] buf' := by
  have hl : ∀ c ∈ ([97, 98, 99] : Bytes), c ≠ 0 ∧ c ≠ 37 := by decide +kernel
  obtain ⟨-, h⟩ := vsnprintf_meets_iff (fun _ => []) [1, 1, 1] (by decide) (by decide)
    [.literal [97, 98, 99] (by decide) hl] [] (.singleton _) ⟨trivial,
      trivial⟩ (show 3 ≤ INT_MAX by decide)
  exact h.mpr (.inl (Nat.le_refl 3))

/-- **The terminator is one character early**: `"ab"` in ten bytes loses its `b`, and for the empty
string it is written before the buffer. -/
theorem early_terminator :
    vprintf (fun _ => []) [] [97, 98, 0] [] = .ok (2, [97, 98]) ∧
      vsnprintf (fun _ => []) (List.replicate 10 1) 10 [97, 98, 0] [] =
        .ok (2, [97, 0, 1, 1, 1, 1, 1, 1, 1, 1]) ∧
      ¬ Snprinted 10 [97, 98] [97, 0, 1, 1, 1, 1, 1, 1, 1, 1] ∧
      vprintf (fun _ => []) [] [0] [] = .ok (0, []) ∧
      vsnprintf (fun _ => []) (List.replicate 10 1) 10 [0] [] = .error .fault := by
  unfold Snprinted
  decide +kernel

end AuOs
