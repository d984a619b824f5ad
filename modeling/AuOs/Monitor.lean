import Mathlib
import AuOs.Base

/-!
# The monitor

Reference model of `2/monitor.c`; interrupts are left out, nothing else writes to the screen.

* `Monitor` — the framebuffer and the cursor; `load` and `store` fault outside the 2000 cells.
* `scroll`, `monitorPut`, `monitorClear` — the functions of the source.
* `Terminal` — the reference terminal: every line it was ever written, without a screen.
* `Shows` — the screen has the last 25 lines of a terminal, each cell as the code makes it.
* `monitorPut_shows` — one character, whatever it is, keeps this.
* `faithful_iff` — the cells hold the characters as they were given exactly when all of them are
  below 128.
-/

set_option autoImplicit false

namespace AuOs

namespace Vga

/-! ## The functions -/

def MONITOR_ROWS : Nat := 25

def MONITOR_COLS : Nat := 80

/-- The static variables, the framebuffer and the cursor location the VGA board was told. -/
structure Monitor where
  videoMemory : Nat → BitVec 16
  cursorX : BitVec 8
  cursorY : BitVec 8
  location : BitVec 16

/-- `video_memory[i]`. -/
def Monitor.load (m : Monitor) (i : Nat) : Res (BitVec 16) :=
  if i < MONITOR_ROWS * MONITOR_COLS then .ok (m.videoMemory i) else .error .fault

/-- `video_memory[i] = w`. -/
def Monitor.store (m : Monitor) (i : Nat) (w : BitVec 16) : Res Monitor :=
  if i < MONITOR_ROWS * MONITOR_COLS then
    .ok { m with videoMemory := Function.update m.videoMemory i w }
  else .error .fault

/-- `move_cursor`; the two bytes go to the VGA board one after the other. -/
def moveCursor (m : Monitor) : Monitor :=
  { m with location := BitVec.ofNat 16 (m.cursorY.toNat * MONITOR_COLS + m.cursorX.toNat) }

/-- White on black. -/
def attributeByte : BitVec 8 := 0#8 <<< 4 ||| (15#8 &&& 0x0F#8)

/-- A space character with the default colour attributes. -/
def blank : BitVec 16 := (0x20#32 ||| attributeByte.setWidth 32 <<< 8).setWidth 16

/-- `scroll`. -/
def scroll (m : Monitor) : Res Monitor := do
  if MONITOR_ROWS ≤ m.cursorY.toNat then
    let m ← (List.range ((MONITOR_ROWS - 1) * MONITOR_COLS)).foldlM
      (fun m i => do m.store i (← m.load (i + MONITOR_COLS))) m
    let m ← (List.range MONITOR_COLS).foldlM (fun m i =>
      m.store ((MONITOR_ROWS - 1) * MONITOR_COLS + i) blank) m
    return { m with cursorY := BitVec.ofNat 8 (MONITOR_ROWS - 1) }
  else return m

/-- `c | attribute`, stored in a 16 bit cell: `char` is signed. -/
def codeCell (c : BitVec 8) : BitVec 16 :=
  let attributeWord : BitVec 16 := (attributeByte.setWidth 32 <<< 8).setWidth 16
  (c.signExtend 32 ||| attributeWord.setWidth 32).setWidth 16

/-- The `switch` of `monitor_put`. -/
def Monitor.switch (m : Monitor) (c : BitVec 8) : Res Monitor :=
  if c = 0x08#8 then .ok (if m.cursorX ≠ 0 then { m with cursorX := m.cursorX - 1 } else m)
  else if c = 0x09#8 then
    .ok { m with cursorX := ((m.cursorX.setWidth 32 + 8#32) &&& ~~~(8#32 - 1#32)).setWidth 8 }
  else if c = 0x0D#8 then .ok { m with cursorX := 0 }
  else if c = 0x0A#8 then .ok { m with cursorX := 0, cursorY := m.cursorY + 1 }
  else do
    let m ← m.store (m.cursorY.toNat * MONITOR_COLS + m.cursorX.toNat) (codeCell c)
    return { m with cursorX := m.cursorX + 1 }

/-- `monitor_put`. -/
def monitorPut (m : Monitor) (c : BitVec 8) : Res Monitor := do
  let m ← m.switch c
  let m :=
    if MONITOR_COLS ≤ m.cursorX.toNat then { m with cursorX := 0, cursorY := m.cursorY + 1 }
    else m
  let m ← scroll m
  return moveCursor m

/-- `monitor_clear`. -/
def monitorClear (m : Monitor) : Res Monitor := do
  let m ← (List.range (MONITOR_COLS * MONITOR_ROWS)).foldlM (fun m i => m.store i blank) m
  return moveCursor { m with cursorX := 0, cursorY := 0 }

/-- `monitor_clear`, then `monitor_put` for one character after the other. -/
def run (m : Monitor) (bytes : List (BitVec 8)) : Res Monitor := do
  bytes.foldlM monitorPut (← monitorClear m)

/-! ## The terminal -/

/-- A line by column. -/
abbrev Line := Nat → BitVec 8

def Line.empty : Line := fun _ => 0x20

/-- The lines above the cursor, its line and its column. -/
structure Terminal where
  above : List Line
  row : Line
  col : Nat

namespace Terminal

def start : Terminal := ⟨[], Line.empty, 0⟩

def text (t : Terminal) : List Line := t.above ++ [t.row]

/-- The last 25 lines; below them the screen is empty. -/
def screen (t : Terminal) (y : Nat) : Line :=
  (t.text.drop (t.text.length - MONITOR_ROWS)).getD y Line.empty

def newline (t : Terminal) : Terminal := ⟨t.text, Line.empty, 0⟩

/-- The effect of a character on the line and the column. -/
def act (t : Terminal) (c : BitVec 8) : Terminal :=
  if c = 0x08#8 then { t with col := t.col - 1 }
  else if c = 0x09#8 then { t with col := (t.col / 8 + 1) * 8 }
  else if c = 0x0D#8 then { t with col := 0 }
  else if c = 0x0A#8 then t.newline
  else { t with row := Function.update t.row t.col c, col := t.col + 1 }

/-- A line that is full is left. -/
def wrap (t : Terminal) : Terminal := if MONITOR_COLS ≤ t.col then t.newline else t

def put (t : Terminal) (c : BitVec 8) : Terminal := (t.act c).wrap

/-- What a terminal has after these characters. -/
def after (bytes : List (BitVec 8)) : Terminal := bytes.foldl put start

end Terminal

/-- The given byte, white on black. -/
def cell (c : BitVec 8) : BitVec 16 := 0x0F#8 ++ c

/-- **The specification**: every store of the run was to a cell of the screen, the cursor is on it,
where the terminal has it, and the cells are the last 25 lines of the terminal. -/
def Faithful (m : Monitor) (bytes : List (BitVec 8)) : Prop :=
  ∃ m', run m bytes = .ok m' ∧ m'.cursorX.toNat < MONITOR_COLS ∧ m'.cursorY.toNat < MONITOR_ROWS ∧
    m'.cursorX.toNat = (Terminal.after bytes).col ∧
    m'.cursorY.toNat = min (Terminal.after bytes).above.length (MONITOR_ROWS - 1) ∧
    ∀ y x, y < MONITOR_ROWS → x < MONITOR_COLS →
      m'.videoMemory (y * MONITOR_COLS + x) = cell ((Terminal.after bytes).screen y x)

/-! ## Cells -/

theorem blank_eq : blank = codeCell 0x20 := by decide

theorem codeCell_eq_cell {c : BitVec 8} : codeCell c = cell c ↔ c.toNat < 128 := by
  revert c
  decide +kernel

theorem tab_toNat {x : BitVec 8} (hx : x.toNat < MONITOR_COLS) :
    (((x.setWidth 32 + 8#32) &&& ~~~(8#32 - 1#32)).setWidth 8).toNat = (x.toNat / 8 + 1) * 8 := by
  revert x
  decide +kernel

/-! ## Loops over the screen -/

section Loops

variable {m : Monitor} {i n : Nat} {w : BitVec 16}

theorem load_of_lt (h : i < MONITOR_ROWS * MONITOR_COLS) : m.load i = .ok (m.videoMemory i) :=
  if_pos h

theorem store_of_lt (h : i < MONITOR_ROWS * MONITOR_COLS) :
    m.store i w = .ok { m with videoMemory := Function.update m.videoMemory i w } := if_pos h

/-- A loop that fills `n` cells from `k` on. -/
theorem fill (k : Nat) (h : k + n ≤ MONITOR_ROWS * MONITOR_COLS) :
    (List.range n).foldlM (fun m i => m.store (k + i) w) m =
      .ok { m with videoMemory := fun j => if k ≤ j ∧ j < k + n then w else m.videoMemory j } := by
  induction n with
  | zero => simp [show ∀ j, ¬ (k ≤ j ∧ j < k) by omega]
  | succ n ih =>
    rw [List.range_succ, List.foldlM_append, ih (by omega), ok_bind, List.foldlM_cons,
      store_of_lt (by omega)]
    simp only [ok_bind, List.foldlM_nil, pure_eq_ok]
    congr 2
    funext j
    simp only [Function.update_apply]
    by_cases hj : j = k + n
    · simp [hj]
    · simp only [if_neg hj, show k ≤ j ∧ j < k + (n + 1) ↔ k ≤ j ∧ j < k + n by omega]

/-- A loop that copies `n` cells from the next line; it reads ahead of what it has written. -/
theorem copyUp (h : n ≤ (MONITOR_ROWS - 1) * MONITOR_COLS) :
    (List.range n).foldlM (fun m i => do m.store i (← m.load (i + MONITOR_COLS))) m =
      .ok { m with videoMemory := fun j =>
              if j < n then m.videoMemory (j + MONITOR_COLS) else m.videoMemory j } := by
  induction n with
  | zero => simp
  | succ n ih =>
    have hcells : n + MONITOR_COLS < MONITOR_ROWS * MONITOR_COLS := by
      simp only [MONITOR_ROWS, MONITOR_COLS] at *
      omega
    rw [List.range_succ, List.foldlM_append, ih (by omega), ok_bind, List.foldlM_cons,
      load_of_lt hcells, ok_bind, store_of_lt (by omega)]
    simp only [ok_bind, List.foldlM_nil, pure_eq_ok, if_neg (show ¬ n + MONITOR_COLS < n by omega)]
    congr 2
    funext j
    simp only [Function.update_apply]
    by_cases hj : j = n
    · simp [hj]
    · simp only [if_neg hj, show j < n + 1 ↔ j < n by omega]

/-- **Scrolling**: every line goes one up and the last one is empty. -/
theorem scroll_full (h : MONITOR_ROWS ≤ m.cursorY.toNat) :
    ∃ m', scroll m = .ok m' ∧ m'.cursorX = m.cursorX ∧ m'.cursorY.toNat = MONITOR_ROWS - 1 ∧
      (∀ y x, y < MONITOR_ROWS - 1 → x < MONITOR_COLS →
        m'.videoMemory (y * MONITOR_COLS + x) = m.videoMemory ((y + 1) * MONITOR_COLS + x)) ∧
      ∀ x, x < MONITOR_COLS → m'.videoMemory ((MONITOR_ROWS - 1) * MONITOR_COLS + x) = blank := by
  rw [scroll, if_pos h, copyUp le_rfl, ok_bind, fill _ (by decide), ok_bind, pure_eq_ok]
  refine ⟨_, rfl, rfl, rfl, fun y x hy hx => ?_, fun x hx => if_pos ⟨by omega, by omega⟩⟩
  have hlt : y * MONITOR_COLS + x < (MONITOR_ROWS - 1) * MONITOR_COLS := by
    simp only [MONITOR_ROWS, MONITOR_COLS] at *
    omega
  have hrow : (y + 1) * MONITOR_COLS + x = y * MONITOR_COLS + x + MONITOR_COLS := by ring
  rw [hrow]
  exact (if_neg fun h => absurd h.1 (not_le.mpr hlt)).trans (if_pos hlt)

theorem scroll_room (h : m.cursorY.toNat < MONITOR_ROWS) : scroll m = .ok m := if_neg (by omega)

end Loops

/-! ## The screen and the terminal -/

/-- The line of a terminal by its number; no character was written below the cursor's. -/
def Terminal.line (t : Terminal) (i : Nat) : Line := t.text.getD i Line.empty

section Terminal

variable {t : Terminal} {i y : Nat}

theorem Terminal.text_length : t.text.length = t.above.length + 1 := by simp [Terminal.text]

/-- The screen from the first line that is on it. -/
theorem Terminal.screen_eq : t.screen y = t.line (t.above.length - (MONITOR_ROWS - 1) + y) := by
  rw [screen, line, List.getD_eq_getElem?_getD, List.getElem?_drop,
    List.getD_eq_getElem?_getD, text_length]
  rfl

theorem Terminal.line_newline : t.newline.line i = t.line i := by
  rw [line, line, newline, text, List.getD_eq_getElem?_getD, List.getD_eq_getElem?_getD]
  rcases Nat.lt_trichotomy i t.text.length with h | h | h
  · rw [List.getElem?_append_left h]
  · simp [h]
  · simp [List.getElem?_append_right h.le, h.le, List.getElem?_eq_none,
      show 1 ≤ i - t.text.length by omega]

theorem Terminal.line_row : t.line t.above.length = t.row := by
  simp [line, text]

/-- Lines other than the cursor's do not change with it. -/
theorem Terminal.line_ne {r : Line} {c : Nat} (h : i ≠ t.above.length) :
    ({ t with row := r, col := c } : Terminal).line i = t.line i := by
  simp only [line, text, List.getD_eq_getElem?_getD, List.getElem?_append]
  split
  · rfl
  · rw [List.getElem?_eq_none (by simp; omega), List.getElem?_eq_none (by simp; omega)]

end Terminal

/-- The screen shows the lines of the terminal from the `top`th on; the cursor may be below it, on a
line that is still empty. -/
structure Pending (m : Monitor) (t : Terminal) (top : Nat) : Prop where
  col : m.cursorX.toNat = t.col
  row : m.cursorY.toNat + top = t.above.length
  row_le : m.cursorY.toNat ≤ MONITOR_ROWS
  /-- Lines leave the screen only when it is full. -/
  full : top ≠ 0 → MONITOR_ROWS - 1 ≤ m.cursorY.toNat
  fresh : m.cursorY.toNat = MONITOR_ROWS → t.row = Line.empty ∧ t.col = 0
  cells : ∀ y x, y < MONITOR_ROWS → x < MONITOR_COLS →
    m.videoMemory (y * MONITOR_COLS + x) = codeCell (t.line (top + y) x)

/-- **The screen shows the end of the terminal**, in the cells of the code. -/
structure Shows (m : Monitor) (t : Terminal) : Prop where
  col : m.cursorX.toNat = t.col
  col_lt : t.col < MONITOR_COLS
  row : m.cursorY.toNat = min t.above.length (MONITOR_ROWS - 1)
  cells : ∀ y x, y < MONITOR_ROWS → x < MONITOR_COLS →
    m.videoMemory (y * MONITOR_COLS + x) = codeCell (t.screen y x)

section Steps

variable {m : Monitor} {t : Terminal} {top : Nat} {c : BitVec 8}

theorem Shows.pending (h : Shows m t) : Pending m t (t.above.length - (MONITOR_ROWS - 1)) where
  col := h.col
  row := by rw [h.row]; omega
  row_le := by rw [h.row]; exact (Nat.min_le_right _ _).trans (by decide)
  full := by rw [h.row]; omega
  fresh hy := by
    rw [h.row] at hy
    exact absurd (hy.symm.le.trans (Nat.min_le_right _ _)) (by decide)
  cells y x hy hx := by rw [h.cells y x hy hx, Terminal.screen_eq]

/-- A screen on which the cursor is shows the end of the terminal. -/
theorem Pending.shows (h : Pending m t top) (hx : t.col < MONITOR_COLS)
    (hy : m.cursorY.toNat < MONITOR_ROWS) : Shows m t := by
  have htop : top = t.above.length - (MONITOR_ROWS - 1) := by
    have := h.row
    have := h.full
    simp only [MONITOR_ROWS] at *
    omega
  refine ⟨h.col, hx, ?_, fun y x hy hx => ?_⟩
  · have := h.row
    simp only [MONITOR_ROWS] at *
    omega
  · rw [h.cells y x hy hx, Terminal.screen_eq, htop]

theorem Shows.row_lt (h : Shows m t) : m.cursorY.toNat < MONITOR_ROWS := by
  rw [h.row]
  exact (Nat.min_le_right _ _).trans_lt (by decide)

theorem toNat_succ {b : BitVec 8} (h : b.toNat < 255) : (b + 1).toNat = b.toNat + 1 := by
  rw [BitVec.toNat_add, Nat.mod_eq_of_lt (by simp; omega)]
  rfl

/-- The cursor on the line below. -/
theorem Pending.newline (h : Pending m t top) (hy : m.cursorY.toNat < MONITOR_ROWS) :
    Pending { m with cursorX := 0, cursorY := m.cursorY + 1 } t.newline top := by
  have hrow : (m.cursorY + 1).toNat = m.cursorY.toNat + 1 := toNat_succ (hy.trans (by decide))
  refine ⟨rfl, ?_, ?_, fun htop => ?_, fun _ => ⟨rfl, rfl⟩, fun y x hy hx => ?_⟩
  · rw [hrow, Terminal.newline, Terminal.text_length, ← h.row]
    omega
  · rw [hrow]
    exact hy
  · rw [hrow]
    exact (h.full htop).trans (Nat.le_succ _)
  · rw [h.cells y x hy hx, Terminal.line_newline]

/-- The cursor elsewhere on its line. -/
theorem Pending.move {b : BitVec 8} {k : Nat} (h : Pending m t top)
    (hy : m.cursorY.toNat < MONITOR_ROWS)
    (hb : b.toNat = k) : Pending { m with cursorX := b } { t with col := k } top where
  col := hb
  row := h.row
  row_le := h.row_le
  full := h.full
  fresh hrow := absurd hrow hy.ne
  cells y x hy hx := h.cells y x hy hx

/-- A character in the cursor's cell. -/
theorem Pending.write (h : Pending m t top) (hx : t.col < MONITOR_COLS)
    (hy : m.cursorY.toNat < MONITOR_ROWS) : Pending { m with
        cursorX := m.cursorX + 1
        videoMemory := Function.update m.videoMemory (m.cursorY.toNat * MONITOR_COLS +
          m.cursorX.toNat) (codeCell c) }
      { t with row := Function.update t.row t.col c, col := t.col + 1 } top where
  col := by rw [toNat_succ (by rw [h.col]; exact hx.trans (by decide)), h.col]
  row := h.row
  row_le := h.row_le
  full := h.full
  fresh hrow := absurd hrow hy.ne
  cells y x hy' hx' := by
    have hcol : m.cursorX.toNat < MONITOR_COLS := h.col.trans_lt hx
    by_cases hrow : y = m.cursorY.toNat
    · have hline : top + y = t.above.length := by rw [hrow, Nat.add_comm, h.row]
      have hold := h.cells y x hy' hx'
      rw [hline, Terminal.line_row] at hold
      rw [hline, show t.above.length = ({ t with
        row := Function.update t.row t.col c, col := t.col + 1 } : Terminal).above.length from rfl,
        Terminal.line_row, ← hrow, ← h.col]
      simp only [Function.update_apply, Nat.add_left_cancel_iff]
      split <;> simp [hold]
    · have hne : y * MONITOR_COLS + x ≠ m.cursorY.toNat * MONITOR_COLS + m.cursorX.toNat := by
        simp only [MONITOR_COLS] at *
        omega
      have hline : top + y ≠ t.above.length := by
        have := h.row
        omega
      simp only [Function.update_of_ne hne, h.cells y x hy' hx']
      exact congrArg (fun l : Line => codeCell (l x)) (Terminal.line_ne hline).symm

/-- **The switch** does to the screen what the character does to the terminal. -/
theorem switch_pending (h : Shows m t) (c : BitVec 8) :
    ∃ m' top, m.switch c = .ok m' ∧ Pending m' (t.act c) top := by
  have hp := h.pending
  rw [Monitor.switch, Terminal.act]
  split
  · split
    · rename_i hx
      exact ⟨_, _, rfl, hp.move h.row_lt (by rw [← h.col]; bv_omega)⟩
    · -- a backspace in the first column
      rename_i hx
      rw [not_not] at hx
      exact ⟨_, _, rfl, hp.move (b := m.cursorX) h.row_lt (by rw [← h.col, hx]; rfl)⟩
  split
  · exact ⟨_, _, rfl, hp.move h.row_lt (by rw [tab_toNat (h.col.trans_lt h.col_lt), h.col])⟩
  split
  · exact ⟨_, _, rfl, hp.move h.row_lt rfl⟩
  split
  · exact ⟨_, _, rfl, hp.newline h.row_lt⟩
  · have hcell : m.cursorY.toNat * MONITOR_COLS + m.cursorX.toNat <
      MONITOR_ROWS * MONITOR_COLS := by
      have := h.row_lt
      have := h.col.trans_lt h.col_lt
      simp only [MONITOR_ROWS, MONITOR_COLS] at *
      omega
    rw [store_of_lt hcell]
    exact ⟨_, _, rfl, hp.write h.col_lt h.row_lt⟩

/-- A line that is full is left. -/
theorem Pending.wrap (h : Pending m t top) :
    Pending (if MONITOR_COLS ≤ m.cursorX.toNat then
      { m with cursorX := 0, cursorY := m.cursorY + 1 } else m) t.wrap top ∧
        t.wrap.col < MONITOR_COLS := by
  rw [Terminal.wrap, h.col]
  split
  · rename_i hfull
    have hrow : m.cursorY.toNat < MONITOR_ROWS := by
      refine lt_of_le_of_ne h.row_le fun hrow => ?_
      rw [(h.fresh hrow).2] at hfull
      exact absurd hfull (by decide)
    exact ⟨h.newline hrow, Nat.zero_lt_succ _⟩
  · exact ⟨h, by omega⟩

/-- **Scrolling** shows the terminal's last line. -/
theorem scroll_shows (h : Pending m t top) (hx : t.col < MONITOR_COLS) : ∃ m', scroll m = .ok m' ∧
    Shows m' t := by
  rcases lt_or_eq_of_le h.row_le with hrow | hrow
  · exact ⟨m, scroll_room hrow, h.shows hx hrow⟩
  obtain ⟨m', hscroll, hx', hy', hup, hlast⟩ := scroll_full hrow.ge
  have hlines := h.row
  rw [hrow] at hlines
  have hp : Pending m' t (top + 1) := by
    refine ⟨hx' ▸ h.col, ?_, ?_, fun _ => hy'.ge, fun hf => ?_, fun y x hy hx => ?_⟩
    · simp only [MONITOR_ROWS] at *
      omega
    · exact hy'.le.trans (by decide)
    · exact absurd (hy'.symm.trans hf) (by decide)
    · rcases Nat.lt_or_ge y (MONITOR_ROWS - 1) with hlt | hge
      · rw [hup y x hlt hx, h.cells _ x (by omega) hx, Nat.add_assoc, Nat.add_comm 1]
      · -- the last line is the cursor's, and it is new
        have hline : top + 1 + y = t.above.length := by
          simp only [MONITOR_ROWS] at *
          omega
        rw [show y = MONITOR_ROWS - 1 by omega] at hline ⊢
        rw [hlast x hx, hline, Terminal.line_row, (h.fresh hrow).1, blank_eq]
        rfl
  exact ⟨m', hscroll, hp.shows hx (hy'.trans_lt (by decide))⟩

/-- **One character**, whatever it is. -/
theorem monitorPut_shows (h : Shows m t) (c : BitVec 8) : ∃ m', monitorPut m c = .ok m' ∧
    Shows m' (t.put c) := by
  obtain ⟨m₁, top, hswitch, h₁⟩ := switch_pending h c
  obtain ⟨h₂, hx⟩ := h₁.wrap
  obtain ⟨m₃, hscroll, h₃⟩ := scroll_shows h₂ hx
  refine ⟨moveCursor m₃, ?_, h₃.col, h₃.col_lt, h₃.row, h₃.cells⟩
  rw [monitorPut, hswitch, ok_bind]
  simp only [hscroll, ok_bind, pure_eq_ok]

theorem monitorClear_shows (m : Monitor) : ∃ m', monitorClear m = .ok m' ∧
    Shows m' Terminal.start := by
  have hfill := fill (m := m) (n := MONITOR_COLS * MONITOR_ROWS) (w := blank) 0 (by decide)
  simp only [Nat.zero_add] at hfill
  refine ⟨_, by rw [monitorClear, hfill, ok_bind,
    pure_eq_ok], rfl, by decide, rfl, fun y x hy hx => ?_⟩
  have hlt : y * MONITOR_COLS + x < MONITOR_COLS * MONITOR_ROWS := by
    simp only [MONITOR_ROWS, MONITOR_COLS] at *
    omega
  have hempty : Terminal.start.screen y = Line.empty := by
    rw [Terminal.screen_eq]
    cases y <;> rfl
  rw [hempty]
  exact (if_pos ⟨Nat.zero_le _, hlt⟩).trans blank_eq

end Steps

/-- **Every sequence of characters** is shown. -/
theorem run_shows (m : Monitor) (bytes : List (BitVec 8)) :
    ∃ m', run m bytes = .ok m' ∧ Shows m' (Terminal.after bytes) := by
  obtain ⟨m₀, hclear, h₀⟩ := monitorClear_shows m
  have hput : ∀ (bytes : List (BitVec 8)) {m : Monitor} {t : Terminal}, Shows m t →
      ∃ m', bytes.foldlM monitorPut m = .ok m' ∧ Shows m' (bytes.foldl Terminal.put t) := by
    intro bytes
    induction bytes with
    | nil => exact fun h => ⟨_, rfl, h⟩
    | cons c bytes ih =>
      intro m t h
      obtain ⟨m₁, hm₁, h₁⟩ := monitorPut_shows h c
      obtain ⟨m₂, hm₂, h₂⟩ := ih h₁
      exact ⟨m₂, by rw [List.foldlM_cons, hm₁, ok_bind, hm₂], h₂⟩
  obtain ⟨m', hm', h'⟩ := hput bytes h₀
  exact ⟨m', by rw [run, hclear, ok_bind, hm'], h'⟩

/-! ## Which characters are shown as they were given -/

section Faithful

variable {t : Terminal} {c : BitVec 8} {i x : Nat}

theorem Terminal.line_wrap : t.wrap.line i = t.line i := by
  rw [wrap]
  split
  · exact line_newline
  · rfl

theorem Terminal.line_write :
    ({ t with row := Function.update t.row t.col c, col := t.col + 1 } : Terminal).line i x =
    if i = t.above.length ∧ x = t.col then c else t.line i x := by
  by_cases hi : i = t.above.length
  · have hnew : ({ t with row := Function.update t.row t.col c, col := t.col + 1 } : Terminal).line
        i = Function.update t.row t.col c := hi ▸ Terminal.line_row
    rw [hnew, hi, Terminal.line_row, Function.update_apply]
    simp
  · rw [Terminal.line_ne hi, if_neg fun h => hi h.1]

/-- A character leaves every cell as it is, or is in it. -/
theorem Terminal.line_put : (t.put c).line i x = t.line i x ∨ (t.put c).line i x = c := by
  rw [put, line_wrap, act]
  split
  · exact .inl (congrFun (by rfl) x)
  split
  · exact .inl (congrFun (by rfl) x)
  split
  · exact .inl (congrFun (by rfl) x)
  split
  · exact .inl (congrFun line_newline x)
  · rw [line_write]
    split
    · exact .inr rfl
    · exact .inl rfl

/-- What the terminal has was given to it, or is empty. -/
theorem Terminal.line_after (bytes : List (BitVec 8)) :
    (after bytes).line i x ∈ bytes ∨ (after bytes).line i x = 0x20 := by
  induction bytes using List.reverseRecOn with
  | nil =>
    right
    cases i <;> rfl
  | append_singleton bytes c ih =>
    rw [after, List.foldl_append, List.foldl_cons, List.foldl_nil, ← after]
    rcases line_put (t := after bytes) (c := c) (i := i) (x := x) with h | h
    · rw [h, List.mem_append]
      exact ih.imp_left .inl
    · rw [h]
      exact .inl (by simp)

/-- A character above 127 is on the screen once it was given. -/
theorem Terminal.put_visible (hx : t.col < MONITOR_COLS) (hc : 128 ≤ c.toNat) :
    ∃ y x, y < MONITOR_ROWS ∧ x < MONITOR_COLS ∧ (t.put c).screen y x = c := by
  have hact : t.act c = { t with row := Function.update t.row t.col c, col := t.col + 1 } := by
    have h8 : c ≠ 0x08#8 := fun h => absurd (h ▸ hc) (by decide)
    have h9 : c ≠ 0x09#8 := fun h => absurd (h ▸ hc) (by decide)
    have hr : c ≠ 0x0D#8 := fun h => absurd (h ▸ hc) (by decide)
    have hn : c ≠ 0x0A#8 := fun h => absurd (h ▸ hc) (by decide)
    rw [act, if_neg h8, if_neg h9, if_neg hr, if_neg hn]
  have hline : (t.put c).line t.above.length t.col = c := by
    rw [put, hact, line_wrap, line_write, if_pos ⟨rfl, rfl⟩]
  have hlen : (t.put c).above.length ≤ t.above.length + 1 ∧
      t.above.length ≤ (t.put c).above.length := by
    rw [put, hact, wrap]
    split
    · simp [newline, text_length]
    · simp
  -- the number of the character's line on the screen
  refine ⟨t.above.length - ((t.put c).above.length - (MONITOR_ROWS - 1)), t.col, ?_, hx, ?_⟩
  · simp only [MONITOR_ROWS]
    omega
  · rw [screen_eq, Nat.add_sub_of_le (by simp only [MONITOR_ROWS]; omega), hline]

/-- **The characters are shown as they were given**, after each of them, exactly when all of them
are below 128: the sign of a greater one overwrites its colours. -/
theorem faithful_iff (m : Monitor) (bytes : List (BitVec 8)) :
    (∀ bs, bs <+: bytes → Faithful m bs) ↔ ∀ b ∈ bytes, b.toNat < 128 := by
  constructor
  · intro h b hb
    by_contra hlarge
    obtain ⟨before, rest, rfl⟩ := List.append_of_mem hb
    obtain ⟨m', hrun, -, -, -, -, hcells⟩ := h (before ++ [b]) ⟨rest, by simp⟩
    obtain ⟨m'', hrun', hshows⟩ := run_shows m (before ++ [b])
    cases hrun.symm.trans hrun'
    obtain ⟨_, _, hbefore⟩ := run_shows m before
    obtain ⟨y, x, hy, hx, hb⟩ := Terminal.put_visible (c := b) hbefore.col_lt (by omega)
    rw [show (Terminal.after before).put b = Terminal.after
      (before ++ [b]) by simp [Terminal.after]] at hb
    have hsame := (hshows.cells y x hy hx).symm.trans (hcells y x hy hx)
    rw [hb, codeCell_eq_cell] at hsame
    exact hlarge hsame
  · rintro h bs ⟨rest, rfl⟩
    obtain ⟨m', hrun, hshows⟩ := run_shows m bs
    refine ⟨m', hrun, hshows.col ▸ hshows.col_lt, hshows.row_lt, hshows.col, hshows.row,
      fun y x hy hx => ?_⟩
    rw [hshows.cells y x hy hx, codeCell_eq_cell, Terminal.screen_eq]
    rcases Terminal.line_after bs with hin | hempty
    · exact h _ (List.mem_append_left _ hin)
    · rw [hempty]
      decide

/-- The first cell of the screen gets the word `0xFF80`, white on white, not `0x0F80`. -/
theorem not_faithful_0x80 : ¬ Faithful ⟨fun _ => 0, 0, 0, 0⟩ [0x80] := by
  rintro ⟨m', hrun, -, -, -, -, hcells⟩
  obtain ⟨m'', hrun', hshows⟩ := run_shows ⟨fun _ => 0, 0, 0, 0⟩ [0x80]
  cases hrun.symm.trans hrun'
  have hsame := (hshows.cells 0 0 (by decide) (by decide)).symm.trans
    (hcells 0 0 (by decide) (by decide))
  exact absurd hsame (by decide)

end Faithful

end Vga

end AuOs
