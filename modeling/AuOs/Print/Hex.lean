import Mathlib
import AuOs.Print.Sinks
import AuOs.Lib.Traced

/-!
# Numbers in hexadecimal on the serial line

Reference model of `serial_write_hex` of `serial.c` and `digit_to_char` of `string.c`.  The bytes
that stand behind the static buffer are a parameter, and every byte of the buffer or behind it that
`serial_write` reads is recorded by its index.

* `serialWriteReads` — `serial_write` with its reads; `serialWriteReads_result` says it is
  `serialWrite`.
* `serialWriteHex` — `serial_write_hex`.
* `hexDigits` — the eight digits of a number, the most significant first.
* `hexLoop_eq` — the loop leaves these digits in the buffer.
* `serialWriteHex_sent` — **what is sent**: a ninth byte follows the digits.
-/

set_option autoImplicit false

namespace AuOs

open Traced

/-- `digit_to_char`. -/
def digitToChar (digit : Int) : Int8 :=
  if digit < 10 then Int8.ofInt (digit + 48) else Int8.ofInt (65 + (digit - 10))

def WRITE_HEX_BUF_SIZE : Nat := 8

/-- `for (int i = buf_size-1; i >= 0 && num; --i, num /= 16)`, for `i + 1`. -/
def hexLoop : Nat → Bytes → BitVec 32 → Res Bytes
  | 0, buf, _ => .ok buf
  | i + 1, buf, num =>
    if num = 0 then .ok buf
    else do
      let buf ← store buf i (digitToChar (num % 16).toNat)
      hexLoop i buf (num / 16)

/-- The loop of `serial_write` with `n` bytes to go. -/
def serialWriteReads (buf : Bytes) (size : Nat) : Nat → Bytes → Traced Nat Stop Bytes
  | 0, sent => pure sent
  | n + 1, sent => do
    mark (size - (n + 1))
    let c ← lift (load buf (size - (n + 1)))
    serialWriteReads buf size n (sent ++ [c])

/-- `serial_write_hex`.  Behind the buffer stand the bytes `behind`; `sent` was sent before. -/
def serialWriteHex (behind sent : Bytes) (num : BitVec 32) : Traced Nat Stop Bytes := do
  -- memset(buf, '0', buf_size)
  let buf ← lift (hexLoop WRITE_HEX_BUF_SIZE (List.replicate WRITE_HEX_BUF_SIZE 48) num)
  let sent := sent ++ [48] ++ [120]
  let size := WRITE_HEX_BUF_SIZE + 1
  let sent ← serialWriteReads (buf ++ behind) size size sent
  pure (sent ++ [10])

/-! ## The digits -/

/-- The upper-case hexadecimal digit of a value. -/
def hexDigit (d : Nat) : Int8 :=
  [48, 49, 50, 51, 52, 53, 54, 55, 56, 57, 65, 66, 67, 68, 69, 70].getD d 0

/-- The `i` last hexadecimal digits of a number, the most significant first. -/
def hexDigits (i n : Nat) : Bytes :=
  (List.range i).map fun j => hexDigit (n / 16 ^ (i - 1 - j) % 16)

/-- `digit_to_char` of a hexadecimal digit. -/
theorem digitToChar_eq : ∀ d < 16, digitToChar (d : Nat) = hexDigit d := by decide

theorem length_hexDigits (i n : Nat) : (hexDigits i n).length = i := by
  rw [hexDigits, List.length_map, List.length_range]

theorem hexDigits_succ (i n : Nat) : hexDigits (i + 1) n = hexDigits i (n / 16) ++
    [hexDigit (n % 16)] := by
  have hlow : ∀ j ∈ List.range i,
      hexDigit (n / 16 ^ (i + 1 - 1 - j) % 16) = hexDigit (n / 16 / 16 ^ (i - 1 - j) % 16) := by
    intro j hj
    have hj : j < i := List.mem_range.mp hj
    have hexp : i + 1 - 1 - j = i - 1 - j + 1 := by omega
    rw [hexp, pow_succ', Nat.div_div_eq_div_mul]
  rw [hexDigits, List.range_succ, List.map_append, List.map_congr_left hlow, hexDigits]
  simp

theorem hexDigits_zero (i : Nat) : hexDigits i 0 = List.replicate i 48 := by
  induction i with
  | zero => rfl
  | succ i ih =>
    rw [hexDigits_succ, Nat.zero_div, ih, List.replicate_succ']
    rfl

/-- **The digit loop.**  The loop may end early, when the digits that are left are zeros. -/
theorem hexLoop_eq : ∀ {i : Nat} {rest : Bytes} {num : BitVec 32},
    hexLoop i (List.replicate i 48 ++ rest) num = .ok (hexDigits i num.toNat ++ rest) := by
  intro i
  induction i with
  | zero =>
    intro rest num
    rfl
  | succ i ih =>
    intro rest num
    rw [hexLoop]
    by_cases hnum : num = 0
    · subst hnum
      have hzero : (0 : BitVec 32).toNat = 0 := rfl
      rw [if_pos rfl, hzero, hexDigits_zero]
    · have hlt : i < (List.replicate (i + 1) (48 : Int8) ++ rest).length := by
        rw [List.length_append, List.length_replicate]
        omega
      have hmod : (num % 16).toNat = num.toNat % 16 := BitVec.toNat_umod
      have hdiv : (num / 16).toNat = num.toNat / 16 := BitVec.toNat_udiv
      have hset : ∀ c : Int8, (List.replicate (i + 1) 48 ++ rest).set i c = List.replicate i 48 ++
          (c :: rest) := by
        intro c
        rw [List.replicate_succ', List.append_assoc, List.set_append, if_neg (by simp)]
        simp
      rw [if_neg hnum, store, if_pos hlt, ok_bind, hset, ih, hmod, hdiv,
        digitToChar_eq _ (Nat.mod_lt _ (by decide)), hexDigits_succ, List.append_assoc]
      rfl

/-! ## The reads -/

section Reads

variable {buf sent behind : Bytes} {num : BitVec 32}

/-- **The traced function is the function.** -/
theorem serialWriteReads_result (buf : Bytes) (size : Nat) : ∀ {n : Nat} {sent : Bytes}, n ≤ size →
    (serialWriteReads buf size n sent).result = serialWrite sent (buf.drop (size - n)) n := by
  intro n
  induction n with
  | zero =>
    intro sent _
    rw [serialWrite]
    rfl
  | succ n ih =>
    intro sent hn
    rw [serialWriteReads, result_mark_bind, result_bind, result_lift, load]
    by_cases hlt : size - (n + 1) < buf.length
    · rw [List.getElem?_eq_getElem hlt, List.drop_eq_getElem_cons hlt, serialWrite, ok_bind,
        ih (Nat.le_of_succ_le hn)]
      congr 2
      omega
    · rw [List.getElem?_eq_none (Nat.le_of_not_lt hlt),
        List.drop_eq_nil_of_le (Nat.le_of_not_lt hlt)]
      rfl

/-- Every byte is read, the one behind the block included. -/
theorem serialWriteReads_trace {size : Nat} (hsize : size ≤ buf.length + 1) :
    ∀ {n : Nat} {sent : Bytes},
    n ≤ size → (serialWriteReads buf size n sent).trace = List.range' (size - n) n := by
  intro n
  induction n with
  | zero =>
    intro sent _
    rfl
  | succ n ih =>
    intro sent hn
    have hnext : size - (n + 1) + 1 = size - n := by omega
    rw [serialWriteReads, trace_mark_bind, trace_bind, trace_lift, List.nil_append,
      result_lift, load, List.range'_succ, hnext]
    cases n with
    | zero =>
      cases buf[size - (0 + 1)]? with
      | none => rfl
      | some c => rfl
    | succ n =>
      have hlt : size - (n + 1 + 1) < buf.length := by omega
      rw [List.getElem?_eq_getElem hlt]
      exact congrArg (_ :: ·) (ih (Nat.le_of_succ_le hn))

/-- **What is sent**, when a byte `c` stands behind the buffer. -/
theorem serialWriteHex_sent (c : Int8) (behind sent : Bytes) (num : BitVec 32) :
    (serialWriteHex (c :: behind) sent num).result =
      .ok (sent ++ [48, 120] ++ hexDigits 8 num.toNat ++ [c, 10]) := by
  have hloop := @hexLoop_eq WRITE_HEX_BUF_SIZE [] num
  rw [List.append_nil, List.append_nil] at hloop
  have hlen := length_hexDigits WRITE_HEX_BUF_SIZE num.toNat
  have hle : WRITE_HEX_BUF_SIZE + 1 ≤ (hexDigits WRITE_HEX_BUF_SIZE num.toNat ++
      c :: behind).length := by
    rw [List.length_append, hlen, List.length_cons]
    omega
  have htake : (hexDigits WRITE_HEX_BUF_SIZE num.toNat ++ c :: behind).take
      (WRITE_HEX_BUF_SIZE + 1) = hexDigits WRITE_HEX_BUF_SIZE num.toNat ++ [c] := by
    rw [List.take_append, hlen, List.take_of_length_le (by omega)]
    simp
  rw [serialWriteHex, hloop, result_bind, result_lift, ok_bind, result_bind,
    serialWriteReads_result _ _ (Nat.le_refl _), Nat.sub_self, List.drop_zero, serialWrite_eq hle,
      htake, ok_bind,
    result_pure]
  simp [WRITE_HEX_BUF_SIZE]

/-- The ninth byte is read. -/
theorem serialWriteHex_trace (behind sent : Bytes) (num : BitVec 32) :
    (serialWriteHex behind sent num).trace = List.range' 0 (WRITE_HEX_BUF_SIZE + 1) := by
  have hloop := @hexLoop_eq WRITE_HEX_BUF_SIZE [] num
  rw [List.append_nil, List.append_nil] at hloop
  have hsize : WRITE_HEX_BUF_SIZE + 1 ≤ (hexDigits WRITE_HEX_BUF_SIZE num.toNat ++ behind).length +
      1 := by
    rw [List.length_append, length_hexDigits]
    omega
  have htrace := @serialWriteReads_trace _ _ hsize (WRITE_HEX_BUF_SIZE + 1) (sent ++ [48] ++ [120])
    (Nat.le_refl _)
  rw [Nat.sub_self] at htrace
  rw [serialWriteHex, hloop, trace_bind, trace_lift, result_lift, List.nil_append]
  simp only
  rw [trace_bind, htrace]
  cases (serialWriteReads (hexDigits WRITE_HEX_BUF_SIZE num.toNat ++ behind)
    (WRITE_HEX_BUF_SIZE + 1) (WRITE_HEX_BUF_SIZE + 1) (sent ++ [48] ++ [120])).result with
  | ok a => exact List.append_nil _
  | error e => exact List.append_nil _

end Reads

/-- What `serial_write_hex` is for: the prefix, the eight digits and a newline are sent, and nothing
outside of the buffer is read. -/
structure WritesHex (sent : Bytes) (num : BitVec 32) (run : Traced Nat Stop Bytes) : Prop where
  emits : run.result = .ok (sent ++ [48, 120] ++ hexDigits 8 num.toNat ++ [10])
  reads : ∀ i ∈ run.trace, i < WRITE_HEX_BUF_SIZE

/-- **No number is written so.**  `serial_write` is told to send one byte more than the buffer has,
and that byte is read from behind the buffer and sent between the digits and the newline. -/
theorem serial_write_hex_never (behind sent : Bytes) (num : BitVec 32) :
    8 ∈ (serialWriteHex behind sent num).trace ∧
    (∀ c rest, behind = c :: rest → (serialWriteHex behind sent num).result =
      .ok (sent ++ [48, 120] ++ hexDigits 8 num.toNat ++ [c, 10])) ∧
    ¬ WritesHex sent num (serialWriteHex behind sent num) := by
  have hmem : 8 ∈ (serialWriteHex behind sent num).trace := by
    rw [serialWriteHex_trace]
    decide
  refine ⟨hmem, ?_, ?_⟩
  · rintro c rest rfl
    exact serialWriteHex_sent c rest sent num
  · intro h
    exact absurd (h.reads 8 hmem) (by decide)

/-- `serial_write_hex(0x1f)` with a zero byte behind the buffer. -/
theorem serial_write_hex_counterexample :
    (serialWriteHex [0] [] 0x1f).result = .ok [48, 120, 48, 48, 48, 48, 48, 48, 49, 70, 0, 10] ∧
    ¬ WritesHex [] 0x1f (serialWriteHex [0] [] 0x1f) := by
  refine ⟨rfl, ?_⟩
  intro h
  exact absurd (h.reads 8 (by decide)) (by decide)

end AuOs
