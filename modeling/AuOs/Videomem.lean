import Mathlib
import AuOs.Monitor

/-!
# The screen of the bootstrap code

Reference model of `videomem.S`.  The rows of the screen are used in turn: the line after the last
row goes to the first one again, and nothing is ever scrolled.

* `Screen` — the cells at `ADDR`, `videomem_row`, `videomem_col` and what was sent to the ports; a
  store outside the cells is a fault.
* `videomemPutcharAt`, `videomemEmptyLine`, `videomemPutchar`, `videomemPuts`, `videomemClrscr` —
  the functions.
* `put` — the same characters on the reference terminal, which keeps every line.
* `Shows` — each row has the latest line of the terminal whose number fits it.
* `putchar_shows` — one character keeps this; `screen_shows` — the result for any strings.
-/

set_option autoImplicit false

namespace AuOs

namespace Videomem

open Vga (Terminal Line)

/-! ## The functions -/

def COLS : Nat := 80

def ROWS : Nat := 25

def ADDR : Nat := 0xb8000

def ATTR : BitVec 32 := 7

/-- The cells of the screen, the two variables, and the bytes sent to ports. -/
structure Screen where
  cells : Nat → BitVec 16
  row : BitVec 32
  col : BitVec 32
  ports : List (BitVec 16 × BitVec 8)

/-- `movw w, (addr)`. -/
def Screen.storew (s : Screen) (addr : BitVec 32) (w : BitVec 16) : Res Screen :=
  if ADDR ≤ addr.toNat ∧ addr.toNat < ADDR + 2 * (ROWS * COLS) ∧ (addr.toNat - ADDR) % 2 = 0 then
    .ok { s with cells := Function.update s.cells ((addr.toNat - ADDR) / 2) w }
  else .error .fault

/-- `videomem_putchar_at`. -/
def videomemPutcharAt (s : Screen) (c row col : BitVec 32) : Res Screen :=
  let eax := ((row * BitVec.ofNat 32 COLS + col) <<< 1) + BitVec.ofNat 32 ADDR
  s.storew eax ((c ||| ATTR <<< 8).setWidth 16)

/-- The loop of `videomem_empty_line`, from the column `ebx` on. -/
def emptyLineLoop : Nat → Screen → BitVec 32 → BitVec 32 → Res Screen
  | 0, _, _, _ => .error .hang
  | fuel + 1, s, row, ebx =>
    if ebx = BitVec.ofNat 32 COLS then .ok s
    else do
      let s ← videomemPutcharAt s (0x20#32 ||| ATTR <<< 8) row ebx
      emptyLineLoop fuel s row (ebx + 1)

/-- `videomem_empty_line`. -/
def videomemEmptyLine (s : Screen) (row : BitVec 32) : Res Screen :=
  emptyLineLoop (COLS + 1) s row 0

/-- `newline`. -/
def newline (s : Screen) : Res Screen := do
  let edx := (s.row + 1) % BitVec.ofNat 32 ROWS
  let s ← videomemEmptyLine s edx
  return { s with row := edx, col := 0 }

/-- `videomem_putchar`. -/
def videomemPutchar (s : Screen) (c : BitVec 32) : Res Screen :=
  if c = 0x0A#32 then newline s
  else if c = 0x0D#32 then .ok { s with col := 0 }
  else do
    let s ← videomemPutcharAt s c s.row s.col
    let eax := s.col + 1
    if eax = BitVec.ofNat 32 COLS then newline s else return { s with col := eax }

/-- `videomem_puts` of the string that begins the bytes. -/
def videomemPuts : List (BitVec 8) → Screen → Res Screen
  | [], _ => .error .fault
  | c :: mem, s => do
    if c = 0 then return s
    else
      let s ← videomemPutchar s (c.setWidth 32)
      videomemPuts mem s

/-- `rep stosl`. -/
def repStosl : Nat → Screen → BitVec 32 → BitVec 32 → Res Screen
  | 0, s, _, _ => .ok s
  | ecx + 1, s, edi, eax => do
    let s ← s.storew edi (eax.setWidth 16)
    let s ← s.storew (edi + 2) ((eax >>> 16).setWidth 16)
    repStosl ecx s (edi + 4) eax

/-- `videomem_clrscr`; `misc` is what the port `0x3cc` reads as. -/
def videomemClrscr (misc : BitVec 8) (s : Screen) : Res Screen := do
  let word := 0x20#32 ||| ATTR <<< 8
  let s ← repStosl (COLS * ROWS / 2) s (BitVec.ofNat 32 ADDR) (word ||| word <<< 16)
  let outs : List (BitVec 16 × BitVec 8) :=
    [(0x3c2, misc ^^^ 1), (0x3b4, 0x0a), (0x3b5, 1 <<< 5), (0x3b4, 0x0b), (0x3b5, 0)]
  return { s with ports := s.ports ++ outs }

/-- `videomem_clrscr`, then `videomem_puts` of one string after the other. -/
def run (misc : BitVec 8) (s : Screen) (mems : List (List (BitVec 8))) : Res Screen := do
  mems.foldlM (fun s mem => videomemPuts mem s) (← videomemClrscr misc s)

/-! ## The terminal -/

/-- A character on the reference terminal. -/
def put (t : Terminal) (c : BitVec 8) : Terminal :=
  if c = 0x0A#8 then t.newline
  else if c = 0x0D#8 then { t with col := 0 }
  else ({ t with row := Function.update t.row t.col c, col := t.col + 1 } : Terminal).wrap

/-- What the terminal has after these characters. -/
def after (bytes : List (BitVec 8)) : Terminal := bytes.foldl put Terminal.start

/-- The characters of the string that begins the bytes. -/
def text (mem : List (BitVec 8)) : List (BitVec 8) := mem.takeWhile (· ≠ 0)

/-- The given byte, grey on black. -/
def cell (c : BitVec 8) : BitVec 16 := 0x07#8 ++ c

/-- The line is on the screen: it is one of the last 25, or one of the first 25 as long as there are
fewer. -/
def OnScreen (t : Terminal) (i : Nat) : Prop :=
  t.above.length < i + ROWS ∧ i ≤ max t.above.length (ROWS - 1)

instance (t : Terminal) (i : Nat) : Decidable (OnScreen t i) := inferInstanceAs (Decidable (_ ∧ _))

/-- The rows of the screen: the line `i` of the terminal is in the row `i % 25`. -/
structure ShowsRows (s : Screen) (t : Terminal) : Prop where
  row : s.row.toNat = t.above.length % ROWS
  cells : ∀ i, OnScreen t i → ∀ x < COLS, s.cells (i % ROWS * COLS + x) = cell (t.line i x)

/-- **The screen shows the terminal**, and the next character goes to the same column. -/
structure Shows (s : Screen) (t : Terminal) : Prop extends ShowsRows s t where
  col : s.col.toNat = t.col
  col_lt : t.col < COLS

/-! ## Cells -/

section Cells

variable {s : Screen} {row col : BitVec 32} {c : BitVec 8} {r x : Nat}

theorem word_eq (c : BitVec 8) : (c.setWidth 32 ||| ATTR <<< 8).setWidth 16 = cell c := by
  revert c
  decide +kernel

theorem blank_eq : ((0x20#32 ||| ATTR <<< 8) ||| ATTR <<< 8).setWidth 16 = cell 0x20 := by decide

/-- A store to the cell of an address. -/
theorem storew_eq {addr : BitVec 32} {i : Nat} (haddr : addr.toNat = ADDR + 2 * i)
    (hi : i < ROWS * COLS)
    (w : BitVec 16) : s.storew addr w = .ok { s with cells := Function.update s.cells i w } := by
  have hcell : (addr.toNat - ADDR) / 2 = i := by omega
  rw [Screen.storew, if_pos (by omega), hcell]

/-- **`videomem_putchar_at`** stores to the cell of its row and column. -/
theorem putcharAt_eq (hr : row.toNat < ROWS) (hx : col.toNat < COLS) (c : BitVec 32) :
    videomemPutcharAt s c row col = .ok { s with
      cells := Function.update s.cells (row.toNat * COLS + col.toNat)
          ((c ||| ATTR <<< 8).setWidth 16) } := by
  unfold ROWS at hr
  unfold COLS at hx
  apply storew_eq
  · unfold ADDR COLS
    bv_omega
  · unfold ROWS COLS
    omega

theorem emptyLineLoop_eq (hr : row.toNat < ROWS) :
    ∀ (n : Nat) {fuel : Nat} {s : Screen} {ebx : BitVec 32}, ebx.toNat + n = COLS → n < fuel →
    emptyLineLoop fuel s row ebx = .ok { s with
      cells := fun j => if row.toNat * COLS + ebx.toNat ≤ j ∧ j < (row.toNat + 1) * COLS
        then cell 0x20 else s.cells j }
  | _, 0, _, _, _, h => absurd h (Nat.not_lt_zero _)
  | 0, fuel + 1, s, ebx, hn, _ => by
    have hend : ebx = BitVec.ofNat 32 COLS := by
      apply BitVec.eq_of_toNat_eq
      rw [Nat.add_zero] at hn
      exact hn
    have hnone : ∀ j, ¬ (row.toNat * COLS + ebx.toNat ≤ j ∧ j < (row.toNat + 1) * COLS) := by
      intro j hj
      rw [Nat.succ_mul] at hj
      omega
    rw [emptyLineLoop, if_pos hend]
    simp only [hnone, if_false]
  | n + 1, fuel + 1, s, ebx, hn, hfuel => by
    have hlt : ebx.toNat < COLS := by omega
    have hne : ebx ≠ BitVec.ofNat 32 COLS := by
      rintro rfl
      exact absurd hlt (by decide)
    have hnext : (ebx + 1).toNat = ebx.toNat + 1 := by
      unfold COLS at hlt
      bv_omega
    rw [emptyLineLoop, if_neg hne, putcharAt_eq hr hlt, ok_bind,
      emptyLineLoop_eq hr n (by omega) (Nat.lt_of_succ_lt_succ hfuel), hnext, blank_eq]
    congr 2
    funext j
    simp only [Function.update_apply]
    rw [Nat.succ_mul]
    by_cases hj : j = row.toNat * COLS + ebx.toNat
    · rw [if_neg (by omega), if_pos hj, if_pos (by omega)]
    · simp only [if_neg hj, show row.toNat * COLS + (ebx.toNat + 1) ≤ j ↔
        row.toNat * COLS + ebx.toNat ≤ j by omega]

/-- **`newline`** empties the next row. -/
theorem newline_eq (hr : s.row.toNat < ROWS) : ∃ s', newline s = .ok s' ∧ s'.col = 0 ∧
    s'.row.toNat = (s.row.toNat + 1) % ROWS ∧
    (∀ x < COLS, s'.cells ((s.row.toNat + 1) % ROWS * COLS + x) = cell 0x20) ∧
    ∀ r x, r ≠ (s.row.toNat + 1) % ROWS → x < COLS →
    s'.cells (r * COLS + x) = s.cells (r * COLS + x) := by
  have hnext : ((s.row + 1) % BitVec.ofNat 32 ROWS).toNat = (s.row.toNat + 1) % ROWS := by
    have hsucc : (s.row + 1).toNat = s.row.toNat + 1 := by
      unfold ROWS at hr
      bv_omega
    rw [BitVec.toNat_umod, hsucc]
    rfl
  have hlt : (s.row.toNat + 1) % ROWS < ROWS := Nat.mod_lt _ (by decide)
  have hempty : emptyLineLoop (COLS + 1) s ((s.row + 1) % BitVec.ofNat 32 ROWS) 0 = _ :=
    emptyLineLoop_eq (hnext ▸ hlt) COLS (Nat.zero_add _) (Nat.lt_succ_self _)
  rw [hnext] at hempty
  rw [newline, videomemEmptyLine, hempty]
  refine ⟨_, rfl, rfl, hnext, ?_, ?_⟩
  · intro x hx
    refine if_pos ⟨Nat.le_add_right _ _, ?_⟩
    rw [Nat.succ_mul]
    exact Nat.add_lt_add_left hx _
  · intro r x hne hx
    apply if_neg
    rintro ⟨hle, hlt'⟩
    generalize (s.row.toNat + 1) % ROWS = k at *
    have hzero : (0 : BitVec 32).toNat = 0 := rfl
    unfold COLS at *
    omega

end Cells

/-! ## The screen and the terminal -/

section Steps

variable {s : Screen} {t : Terminal}

theorem ShowsRows.row_lt (h : ShowsRows s t) : s.row.toNat < ROWS := by
  rw [h.row]
  exact Nat.mod_lt _ (by decide)

/-- Two lines on the screen are in different rows. -/
theorem OnScreen.row_ne {i j : Nat} (hi : OnScreen t i) (hj : OnScreen t j) (hne : i ≠ j) :
    i % ROWS ≠ j % ROWS := by
  unfold OnScreen ROWS at *
  omega

theorem onScreen_last (t : Terminal) : OnScreen t t.above.length := by
  unfold OnScreen ROWS
  omega

/-- **A new line** takes the row of the oldest one. -/
theorem ShowsRows.newline (h : ShowsRows s t) : ∃ s', newline s = .ok s' ∧ Shows s' t.newline := by
  obtain ⟨s', hs', hcol, hrow, hnew, hold⟩ := newline_eq h.row_lt
  have hlen : t.newline.above.length = t.above.length + 1 := Terminal.text_length
  have hnext : (s.row.toNat + 1) % ROWS = t.newline.above.length % ROWS := by
    rw [h.row, hlen, Nat.mod_add_mod]
  refine ⟨s', hs', ⟨?_, ?_⟩, by rw [hcol]; rfl, Nat.zero_lt_succ _⟩
  · rw [hrow, hnext]
  · intro i hi x hx
    by_cases hlast : i = t.newline.above.length
    · rw [hlast, ← hnext, hnew x hx, Terminal.line_row]
      rfl
    · have hne := hi.row_ne (onScreen_last _) hlast
      rw [hold _ _ (hnext ▸ hne) hx, Terminal.line_newline]
      refine h.cells i ?_ x hx
      unfold OnScreen ROWS at *
      omega

/-- A character in the cell of the cursor. -/
theorem Shows.write (h : Shows s t) (c : BitVec 8) (i : Nat) (hi : OnScreen t i) (x : Nat)
    (hx : x < COLS) :
    Function.update s.cells (s.row.toNat * COLS + s.col.toNat) (cell c) (i % ROWS * COLS + x) =
      cell (({ t with
        row := Function.update t.row t.col c, col := t.col + 1 } : Terminal).line i x) := by
  have hcol := h.col_lt
  rw [Terminal.line_write, Function.update_apply, h.row, h.col]
  by_cases hlast : i = t.above.length
  · subst hlast
    rw [h.cells _ hi x hx]
    simp only [Nat.add_left_cancel_iff, true_and]
    split <;> rfl
  · have hne := hi.row_ne (onScreen_last t) hlast
    rw [if_neg, if_neg fun hc => hlast hc.1, h.cells i hi x hx]
    unfold COLS at *
    omega

/-- **One character.** -/
theorem putchar_shows (h : Shows s t) (c : BitVec 8) :
    ∃ s', videomemPutchar s (c.setWidth 32) = .ok s' ∧ Shows s' (put t c) := by
  have hinj : ∀ b : BitVec 8, c.setWidth 32 = b.setWidth 32 ↔ c = b := by
    intro b
    constructor
    · intro heq
      bv_omega
    · rintro rfl
      rfl
  have hn : c.setWidth 32 = 0x0A#32 ↔ c = 0x0A#8 := hinj 0x0A#8
  have hr : c.setWidth 32 = 0x0D#32 ↔ c = 0x0D#8 := hinj 0x0D#8
  simp only [videomemPutchar, put, hn, hr]
  split
  · exact h.newline
  split
  · exact ⟨_, rfl, ⟨h.row, h.cells⟩, rfl, Nat.zero_lt_succ _⟩
  · have hcol : s.col.toNat < COLS := h.col.trans_lt h.col_lt
    have hnext : (s.col + 1).toNat = t.col + 1 := by
      rw [← h.col]
      unfold COLS at hcol
      bv_omega
    rw [putcharAt_eq h.row_lt hcol, ok_bind, word_eq, Terminal.wrap]
    have hrows : ShowsRows
        { s with cells := Function.update s.cells (s.row.toNat * COLS + s.col.toNat) (cell c) }
        { t with row := Function.update t.row t.col c, col := t.col + 1 } := ⟨h.row, h.write c⟩
    have hfull : s.col + 1 = BitVec.ofNat 32 COLS ↔ Vga.MONITOR_COLS ≤ t.col + 1 := by
      rw [← BitVec.toNat_inj, hnext]
      have hlt := h.col_lt
      unfold Vga.MONITOR_COLS COLS at *
      simp only [BitVec.toNat_ofNat]
      omega
    simp only [hfull]
    split
    · exact hrows.newline
    · exact ⟨_, rfl, ⟨hrows.row, hrows.cells⟩, hnext, Nat.not_le.mp ‹_›⟩

/-- **One string**: the bytes up to the first that is zero. -/
theorem puts_shows : ∀ {mem : List (BitVec 8)} {s : Screen} {t : Terminal}, Shows s t → 0 ∈ mem →
    ∃ s', videomemPuts mem s = .ok s' ∧ Shows s' ((text mem).foldl put t)
  | [], _, _, _, h0 => absurd h0 List.not_mem_nil
  | c :: mem, s, t, h, h0 => by
    by_cases hc : c = 0
    · refine ⟨s, ?_, ?_⟩
      · rw [videomemPuts, if_pos hc]
        rfl
      · rw [text, List.takeWhile_cons_of_neg (by simpa using hc)]
        exact h
    · obtain ⟨s₁, hs₁, h₁⟩ := putchar_shows h c
      obtain ⟨s', hs', h'⟩ := puts_shows h₁ ((List.mem_cons.mp h0).resolve_left (Ne.symm hc))
      refine ⟨s', ?_, ?_⟩
      · rw [videomemPuts, if_neg hc, hs₁, ok_bind, hs']
      · rw [text, List.takeWhile_cons_of_pos (by simpa using hc)]
        exact h'

/-! ## The empty screen -/

/-- **`rep stosl`** fills two cells at a time. -/
theorem repStosl_eq {eax : BitVec 32} {w : BitVec 16} (hlow : eax.setWidth 16 = w)
    (hhigh : (eax >>> 16).setWidth 16 = w) : ∀ (n k : Nat) (s : Screen) (edi : BitVec 32),
    edi.toNat = ADDR + 4 * k → 2 * (k + n) ≤ ROWS * COLS →
    repStosl n s edi eax = .ok
      { s with cells := fun j => if 2 * k ≤ j ∧ j < 2 * (k + n) then w else s.cells j }
  | 0, k, s, edi, _, _ => by
    simp only [repStosl, Nat.add_zero, show ∀ j, ¬ (2 * k ≤ j ∧ j < 2 * k) from
      fun j => by omega, if_false]
  | n + 1, k, s, edi, hedi, hn => by
    have hsmall : ROWS * COLS = 2000 := rfl
    have haddr : ADDR = 0xb8000 := rfl
    have hnext : (edi + 2).toNat = ADDR + 2 * (2 * k + 1) := by bv_omega
    have hlast : (edi + 4).toNat = ADDR + 4 * (k + 1) := by bv_omega
    rw [repStosl, storew_eq (i := 2 * k) (by omega) (by omega), ok_bind,
      storew_eq (i := 2 * k + 1) hnext (by omega), ok_bind,
        repStosl_eq hlow hhigh n (k + 1) _ _ hlast (by omega),
      hlow, hhigh]
    congr 2
    funext j
    simp only [Function.update_apply]
    by_cases hnew : j = 2 * k + 1 ∨ j = 2 * k
    · rw [if_neg (by omega), if_pos (show 2 * k ≤ j ∧ j < 2 * (k + (n + 1)) by omega)]
      split
      · rfl
      · exact if_pos (hnew.resolve_left ‹_›)
    · rw [not_or] at hnew
      rw [if_neg hnew.1, if_neg hnew.2]
      simp only [show 2 * (k + 1) ≤ j ∧ j < 2 * (k + 1 + n) ↔ 2 * k ≤ j ∧
        j < 2 * (k + (n + 1)) by omega]

theorem clrscr_shows (misc : BitVec 8) (hrow : s.row = 0) (hcol : s.col = 0) :
    ∃ s', videomemClrscr misc s = .ok s' ∧ Shows s' Terminal.start := by
  have hfill := @repStosl_eq ((0x20#32 ||| ATTR <<< 8) ||| (0x20#32 ||| ATTR <<< 8) <<< 16)
    (cell 0x20) (by decide) (by decide) (COLS * ROWS / 2) 0 s (BitVec.ofNat 32 ADDR) rfl (by decide)
  simp only [videomemClrscr, hfill, ok_bind]
  refine ⟨_, rfl, ⟨?_, ?_⟩, ?_, Nat.zero_lt_succ _⟩
  · simp only [hrow]
    rfl
  · intro i hi x hx
    have hempty : Terminal.start.line i = Line.empty := by
      cases i <;> rfl
    have hlt : i < ROWS := by
      have := hi.2
      unfold ROWS at *
      simp only [Terminal.start, List.length_nil] at this
      omega
    rw [hempty]
    apply if_pos
    unfold ROWS COLS at *
    omega
  · simp only [hcol]
    rfl

end Steps

/-- **Any strings, one after the other**: from the empty screen on every store is to a cell of the
screen, and the screen shows the last lines of a terminal that was given the characters of the
strings. -/
theorem screen_shows (misc : BitVec 8) (s : Screen) (hrow : s.row = 0) (hcol : s.col = 0)
    (mems : List (List (BitVec 8))) (hmems : ∀ mem ∈ mems, 0 ∈ mem) :
    ∃ s', run misc s mems = .ok s' ∧ Shows s' (after (mems.flatMap text)) := by
  obtain ⟨s₀, hclear, h₀⟩ := clrscr_shows misc hrow hcol
  have hputs : ∀ (mems : List (List (BitVec 8))) {s : Screen} {t : Terminal},
      (∀ mem ∈ mems, 0 ∈ mem) → Shows s t →
      ∃ s', mems.foldlM (fun s mem => videomemPuts mem s) s = .ok s' ∧
          Shows s' ((mems.flatMap text).foldl put t) := by
    intro mems
    induction mems with
    | nil => exact fun _ h => ⟨_, rfl, h⟩
    | cons mem mems ih =>
      intro s t hmems h
      obtain ⟨s₁, hs₁, h₁⟩ := puts_shows h (hmems mem List.mem_cons_self)
      obtain ⟨s₂, hs₂, h₂⟩ := ih (fun m hm => hmems m (List.mem_cons_of_mem _ hm)) h₁
      refine ⟨s₂, by rw [List.foldlM_cons, hs₁, ok_bind, hs₂], ?_⟩
      rwa [List.flatMap_cons, List.foldl_append]
  obtain ⟨s', hs', h'⟩ := hputs mems hmems h₀
  exact ⟨s', by rw [run, hclear, ok_bind, hs'], h'⟩

/-- `Enable paging...`, cut short, and a string behind a NUL that is not written. -/
theorem screen_shows_two : ∃ s', run 0 ⟨fun _ => 0, 0, 0, []⟩ [[0x45, 0x0A, 0, 0x46],
    [0x47, 0]] = .ok s' ∧
    Shows s' (after [0x45, 0x0A, 0x47]) ∧ s'.cells 0 = 0x0745 ∧ s'.cells 80 = 0x0747 := by
  obtain ⟨s', hs', h'⟩ := screen_shows 0 ⟨fun _ => 0, 0, 0, []⟩ rfl rfl [[0x45, 0x0A, 0, 0x46],
    [0x47, 0]] (by decide)
  exact ⟨s', hs', h', h'.cells 0 (by decide) 0 (by decide), h'.cells 1 (by decide) 0 (by decide)⟩

end Videomem

end AuOs
