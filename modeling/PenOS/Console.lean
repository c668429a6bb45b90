import PenOS.Lib.Fold
import PenOS.Lib.Word

/-!
# The text console (`src/ui/console.c`)

The console keeps the characters of the screen in video memory and in a shadow buffer, and a cursor;
other output goes through `ConsoleDevices`.
-/

namespace PenOS

open Function

/-- Where the console sends characters besides its two buffers. -/
class ConsoleDevices (σ : Type) where
  /-- `virtio_console_putc` -/
  serialPutc : σ → UInt8 → σ
  /-- `framebuffer_console_attach` -/
  attach : σ → σ × Bool
  /-- `framebuffer_console_draw_cell`: column, row, character, attribute -/
  drawCell : σ → ℕ → ℕ → UInt8 → UInt8 → σ
  /-- `framebuffer_console_full_refresh`: the buffer, columns, rows -/
  fullRefresh : σ → (ℕ → UInt16) → ℕ → ℕ → σ
  /-- the two halves of the cursor position are written to the ports `0x3D4`, `0x3D5` -/
  setCursor : σ → ℕ → σ

/-- The state of the console. -/
structure Console (σ : Type) where
  videoMemory : ℕ → UInt16
  shadowBuffer : ℕ → UInt16
  cursorX : ℕ
  cursorY : ℕ
  color : UInt8
  useFramebufferConsole : Bool
  dev : σ

abbrev consoleCols : ℕ := 80

abbrev consoleRows : ℕ := 25

/-- `make_entry` -/
def makeEntry (c attr : UInt8) : UInt16 := (attr.toUInt16 <<< 8) ||| c.toUInt16

namespace Console

variable {σ : Type} [ConsoleDevices σ]

omit [ConsoleDevices σ] in
/-- Write an entry to both buffers. -/
def store (s : Console σ) (idx : ℕ) (video shadow : UInt16) : Console σ :=
  { s with
    videoMemory := Function.update s.videoMemory idx video
    shadowBuffer := Function.update s.shadowBuffer idx shadow }

/-- `sync_fb_console` -/
def syncFbConsole (s : Console σ) : Console σ :=
  if s.useFramebufferConsole then
    { s with dev := ConsoleDevices.fullRefresh s.dev s.shadowBuffer consoleCols consoleRows }
  else s

/-- `draw_cell` -/
def drawCell (s : Console σ) (x y : ℕ) (c : UInt8) : Console σ :=
  if x ≥ consoleCols ∨ y ≥ consoleRows then s
  else
    let entry := makeEntry c s.color
    let s := s.store (y * consoleCols + x) entry entry
    if s.useFramebufferConsole then { s with dev := ConsoleDevices.drawCell s.dev x y c s.color }
    else s

/-- `blank_cell` -/
def blankCell (s : Console σ) (x y : ℕ) : Console σ := s.drawCell x y 32

/-- `move_cursor` -/
def moveCursor (s : Console σ) : Console σ :=
  let pos := (s.cursorY * consoleCols + s.cursorX) % 65536
  { s with dev := ConsoleDevices.setCursor s.dev pos }

omit [ConsoleDevices σ] in
/-- The first loop of `scroll`: the first `n` cells become the ones a row below them. -/
def copyUp (s : Console σ) (n : ℕ) : Console σ :=
  (List.range' 0 n).foldl (fun s i =>
    s.store i (s.videoMemory (i + consoleCols)) (s.shadowBuffer (i + consoleCols))) s

omit [ConsoleDevices σ] in
/-- The loops that blank `n` cells from `a` on. -/
def blankCells (s : Console σ) (a n : ℕ) : Console σ :=
  (List.range' a n).foldl (fun s i => s.store i (makeEntry 32 s.color) (makeEntry 32 s.color)) s

/-- `scroll` -/
def scroll (s : Console σ) : Console σ :=
  if s.cursorY < consoleRows then s
  else
    let visible := (consoleRows - 1) * consoleCols
    { (s.copyUp visible).blankCells visible consoleCols with
      cursorY := consoleRows - 1 }.syncFbConsole

/-- `console_clear` -/
def consoleClear (s : Console σ) : Console σ :=
  { s.blankCells 0 (consoleCols * consoleRows) with
    cursorX := 0
    cursorY := 0 }.moveCursor.syncFbConsole

/-- `console_init` -/
def consoleInit (s : Console σ) : Console σ :=
  let out := ConsoleDevices.attach s.dev
  { s with cursorX := 0, cursorY := 0, dev := out.1, useFramebufferConsole := out.2 }.consoleClear

/-- `console_putc` up to the test for the end of the line. -/
def place (s : Console σ) (c : UInt8) : Console σ :=
  if c = 10 then { s with cursorX := 0, cursorY := s.cursorY + 1 }
  else if c = 13 then { s with cursorX := 0 }
  else if c = 8 then
    if s.cursorX > 0 ∨ s.cursorY > 0 then
      let s :=
        if s.cursorX = 0 then { s with cursorY := s.cursorY - 1, cursorX := consoleCols - 1 }
        else { s with cursorX := s.cursorX - 1 }
      s.blankCell s.cursorX s.cursorY
    else s
  else if c = 9 then { s with cursorX := (s.cursorX + 8) &&& not32 7 }
  else
    let s := s.drawCell s.cursorX s.cursorY c
    { s with cursorX := s.cursorX + 1 }

omit [ConsoleDevices σ] in
/-- The end of the line. -/
def wrap (s : Console σ) : Console σ :=
  if s.cursorX ≥ consoleCols then { s with cursorX := 0, cursorY := s.cursorY + 1 } else s

/-- `console_putc` -/
def consolePutc (s : Console σ) (c : UInt8) : Console σ :=
  ({ s with dev := ConsoleDevices.serialPutc s.dev c }.place c).wrap.scroll.moveCursor

/-- `console_write` of the characters before the terminating NUL. -/
def consoleWrite (s : Console σ) (text : List UInt8) : Console σ := text.foldl consolePutc s

end Console

/-! ## The terminal behind the window -/

/-- A terminal of 80 columns that never scrolls. -/
structure Terminal where
  cells : ℕ → ℕ → UInt16
  x : ℕ
  y : ℕ

namespace Terminal

/-- The empty terminal. -/
def blank (color : UInt8) : Terminal := ⟨fun _ _ => makeEntry 32 color, 0, 0⟩

/-- A character is printed, or moves the cursor: newline, carriage return, tab. -/
def place (t : Terminal) (color c : UInt8) : Terminal :=
  if c = 10 then { t with x := 0, y := t.y + 1 }
  else if c = 13 then { t with x := 0 }
  else if c = 9 then { t with x := (t.x / 8 + 1) * 8 }
  else
    { t with
      cells := Function.update t.cells t.y (Function.update (t.cells t.y) t.x (makeEntry c color))
      x := t.x + 1 }

/-- The end of the line. -/
def wrap (t : Terminal) : Terminal := if 80 ≤ t.x then { t with x := 0, y := t.y + 1 } else t

/-- A character arrives. -/
def putc (color : UInt8) (t : Terminal) (c : UInt8) : Terminal := (t.place color c).wrap

end Terminal

/-! ## Loops over the buffers -/

namespace Console

variable {σ : Type} {s : Console σ}

theorem blankCells_spec (s : Console σ) (a n : ℕ) :
    (s.blankCells a n).cursorX = s.cursorX ∧ (s.blankCells a n).cursorY = s.cursorY ∧
      (s.blankCells a n).color = s.color ∧ ∀ i, (s.blankCells a n).videoMemory i =
          (if a ≤ i ∧ i < a + n then makeEntry 32 s.color else s.videoMemory i) ∧
        (s.blankCells a n).shadowBuffer i =
          if a ≤ i ∧ i < a + n then makeEntry 32 s.color else s.shadowBuffer i := by
  refine foldl_range'_induct (P := fun k (s' : Console σ) => s'.cursorX = s.cursorX ∧
      s'.cursorY = s.cursorY ∧ s'.color = s.color ∧ ∀ i, s'.videoMemory i =
          (if a ≤ i ∧ i < a + k then makeEntry 32 s.color else s.videoMemory i) ∧
        s'.shadowBuffer i =
          if a ≤ i ∧ i < a + k then makeEntry 32 s.color else s.shadowBuffer i) a ?_ ?_
  · exact ⟨rfl, rfl, rfl, fun i => by rw [if_neg (by omega), if_neg (by omega)]; exact ⟨rfl, rfl⟩⟩
  · rintro k - s' ⟨hx, hy, hc, hcells⟩
    refine ⟨hx, hy, hc, fun i => ?_⟩
    simp only [store, hc]
    by_cases hi : i = a + k
    · subst hi
      rw [update_self, update_self, if_pos (by omega), if_pos (by omega)]
      exact ⟨rfl, rfl⟩
    · have hiff : (a ≤ i ∧ i < a + (k + 1)) ↔ (a ≤ i ∧ i < a + k) := by omega
      simp only [update_of_ne hi, hiff]
      exact hcells i

theorem copyUp_spec (s : Console σ) (n : ℕ) :
    (s.copyUp n).cursorX = s.cursorX ∧ (s.copyUp n).cursorY = s.cursorY ∧
      (s.copyUp n).color = s.color ∧ ∀ i, (s.copyUp n).videoMemory i =
          (if i < n then s.videoMemory (i + 80) else s.videoMemory i) ∧
        (s.copyUp n).shadowBuffer i =
          if i < n then s.shadowBuffer (i + 80) else s.shadowBuffer i := by
  refine foldl_range'_induct (P := fun k (s' : Console σ) => s'.cursorX = s.cursorX ∧
      s'.cursorY = s.cursorY ∧ s'.color = s.color ∧ ∀ i, s'.videoMemory i =
          (if i < k then s.videoMemory (i + 80) else s.videoMemory i) ∧
        s'.shadowBuffer i = if i < k then s.shadowBuffer (i + 80) else s.shadowBuffer i) 0 ?_ ?_
  · exact ⟨rfl, rfl, rfl, fun i => ⟨rfl, rfl⟩⟩
  · rintro k - s' ⟨hx, hy, hc, hcells⟩
    refine ⟨hx, hy, hc, fun i => ?_⟩
    rw [Nat.zero_add]
    simp only [store]
    by_cases hi : i = k
    · subst hi
      -- the cell a row below has not been reached yet
      have hahead : ¬ i + 80 < i := by omega
      obtain ⟨h1, h2⟩ := hcells (i + 80)
      rw [if_neg hahead] at h1 h2
      rw [update_self, update_self, h1, h2, if_pos (Nat.lt_succ_self i),
        if_pos (Nat.lt_succ_self i)]
      exact ⟨rfl, rfl⟩
    · have hiff : i < k + 1 ↔ i < k := by omega
      simp only [update_of_ne hi, hiff]
      exact hcells i

theorem drawCell_cursor [ConsoleDevices σ] (s : Console σ) (x y : ℕ) (c : UInt8) :
    (s.drawCell x y c).cursorX = s.cursorX ∧ (s.drawCell x y c).cursorY = s.cursorY ∧
      (s.drawCell x y c).color = s.color := by
  simp only [drawCell]
  split_ifs <;> exact ⟨rfl, rfl, rfl⟩

end Console

/-! ## The window -/

/-- The screen shows the terminal from row `top` on; nothing is written below it. -/
structure ShowsFrom {σ : Type} (top : ℕ) (s : Console σ) (t : Terminal) : Prop where
  x_eq : s.cursorX = t.x
  y_eq : top + s.cursorY = t.y
  at_top : top = 0 ∨ 24 ≤ s.cursorY
  rows : ∀ r < 25, ∀ c < 80, s.videoMemory (r * 80 + c) = t.cells (top + r) c ∧
    s.shadowBuffer (r * 80 + c) = t.cells (top + r) c
  below : ∀ r, top + 25 ≤ r → ∀ c < 80, t.cells r c = makeEntry 32 s.color

namespace ShowsFrom

variable {σ : Type} [ConsoleDevices σ] {top : ℕ} {s : Console σ} {t : Terminal} {c : UInt8}

section

variable (h : ShowsFrom top s t)

include h

omit [ConsoleDevices σ] in
theorem move {x y y' : ℕ} (hy : top + y = y') (hle : s.cursorY ≤ y) :
    ShowsFrom top { s with cursorX := x, cursorY := y } { t with x := x, y := y' } :=
  ⟨rfl, hy, h.at_top.imp id fun h24 => h24.trans hle, h.rows, h.below⟩

theorem draw (hx : s.cursorX < 80) (hy : s.cursorY < 25) (c : UInt8) :
    ShowsFrom top (s.drawCell s.cursorX s.cursorY c) { t with
      cells := Function.update t.cells t.y
        (Function.update (t.cells t.y) t.x (makeEntry c s.color)) } := by
  have hcells : ∀ r < 25, ∀ k < 80,
      Function.update t.cells t.y (Function.update (t.cells t.y) t.x (makeEntry c s.color))
        (top + r) k = if r = s.cursorY ∧ k = s.cursorX then makeEntry c s.color
          else t.cells (top + r) k := by
    intro r hr k hk
    rw [← h.y_eq, ← h.x_eq]
    by_cases hrow : r = s.cursorY
    · subst hrow
      rw [update_self]
      by_cases hcol : k = s.cursorX
      · subst hcol
        rw [update_self, if_pos ⟨rfl, rfl⟩]
      · rw [update_of_ne hcol, if_neg (by tauto)]
    · rw [update_of_ne (by omega), if_neg (by tauto)]
  have hshown : ShowsFrom top (s.store (s.cursorY * 80 + s.cursorX) (makeEntry c s.color)
      (makeEntry c s.color)) { t with
        cells := Function.update t.cells t.y
          (Function.update (t.cells t.y) t.x (makeEntry c s.color)) } := by
    refine ⟨h.x_eq, h.y_eq, h.at_top, fun r hr k hk => ?_, fun r hr k hk => ?_⟩
    · dsimp only
      rw [hcells r hr k hk]
      simp only [Console.store]
      by_cases hcell : r = s.cursorY ∧ k = s.cursorX
      · obtain ⟨rfl, rfl⟩ := hcell
        rw [update_self, update_self, if_pos ⟨rfl, rfl⟩]
        exact ⟨rfl, rfl⟩
      · have hne : r * 80 + k ≠ s.cursorY * 80 + s.cursorX := by omega
        rw [update_of_ne hne, update_of_ne hne, if_neg hcell]
        exact h.rows r hr k hk
    · have hrow : r ≠ t.y := by
        have := h.y_eq
        omega
      dsimp only
      rw [update_of_ne hrow]
      exact h.below r hr k hk
  simp only [Console.drawCell, if_neg (show ¬ (s.cursorX ≥ 80 ∨ s.cursorY ≥ 25) by omega)]
  split_ifs
  · exact ⟨hshown.x_eq, hshown.y_eq, hshown.at_top, hshown.rows, hshown.below⟩
  · exact hshown

omit [ConsoleDevices σ] in
theorem withDev (d : σ) : ShowsFrom top { s with dev := d } t :=
  ⟨h.x_eq, h.y_eq, h.at_top, h.rows, h.below⟩

/-- **A character is placed**: the cursor is in the row at most, or at the start of the next one. -/
theorem place (hx : s.cursorX < 80) (hy : s.cursorY < 25) (hc : c ≠ 8) :
    ShowsFrom top (s.place c) (t.place s.color c) ∧ (s.place c).color = s.color ∧
      ((s.place c).cursorX < 80 ∧ (s.place c).cursorY ≤ 25 ∨
        (s.place c).cursorX ≤ 80 ∧ (s.place c).cursorY < 25) := by
  have hx_eq := h.x_eq
  have hy_eq := h.y_eq
  simp only [Console.place, Terminal.place]
  split_ifs with hnl hcr htab
  · exact ⟨h.move (by omega) (Nat.le_succ _), rfl, .inl ⟨Nat.zero_lt_succ 79, hy⟩⟩
  · exact ⟨h.move hy_eq le_rfl, rfl, .inl ⟨Nat.zero_lt_succ 79, hy.le⟩⟩
  · have hnext : (s.cursorX + 8) &&& not32 7 = (t.x / 8 + 1) * 8 := by
      have hlow : (s.cursorX + 8) &&& not32 7 = (s.cursorX + 8) / 8 * 8 :=
        and_not32_low (k := 3) (by omega) (by decide)
      omega
    rw [hnext]
    exact ⟨h.move hy_eq le_rfl, rfl, .inr ⟨by dsimp only; omega, hy⟩⟩
  · have hdraw := h.draw hx hy c
    obtain ⟨h1, h2, h3⟩ := s.drawCell_cursor s.cursorX s.cursorY c
    have hmoved := hdraw.move (x := t.x + 1) hdraw.y_eq le_rfl
    refine ⟨?_, h3, .inr ⟨by dsimp only; omega, by dsimp only; omega⟩⟩
    rw [hdraw.x_eq]
    exact hmoved

omit [ConsoleDevices σ] in
/-- **The end of the line.** -/
theorem wrap (hpos : s.cursorX < 80 ∧ s.cursorY ≤ 25 ∨ s.cursorX ≤ 80 ∧ s.cursorY < 25) :
    ShowsFrom top s.wrap t.wrap ∧ s.wrap.color = s.color ∧ s.wrap.cursorX < 80 ∧
      s.wrap.cursorY ≤ 25 := by
  have hy_eq := h.y_eq
  simp only [Console.wrap, Terminal.wrap, ← h.x_eq, ge_iff_le, show consoleCols = 80 from rfl]
  split_ifs with hend
  · exact ⟨h.move (by omega) (Nat.le_succ _), rfl, by dsimp only; omega, by dsimp only; omega⟩
  · exact ⟨h, rfl, by omega, by omega⟩

theorem syncFbConsole : ShowsFrom top s.syncFbConsole t ∧
    s.syncFbConsole.color = s.color ∧ s.syncFbConsole.cursorX = s.cursorX ∧
    s.syncFbConsole.cursorY = s.cursorY := by
  simp only [Console.syncFbConsole]
  split_ifs
  · exact ⟨h.withDev _, rfl, rfl, rfl⟩
  · exact ⟨h, rfl, rfl, rfl⟩

/-- **Scrolling** moves the window down by one row, to a row nothing has been written to. -/
theorem scroll (hy : s.cursorY ≤ 25) :
    ∃ top', ShowsFrom top' s.scroll t ∧ s.scroll.color = s.color ∧
      s.scroll.cursorX = s.cursorX ∧ s.scroll.cursorY < 25 := by
  simp only [Console.scroll]
  split_ifs with hin
  · exact ⟨top, h, rfl, rfl, hin⟩
  have hy_eq := h.y_eq
  have hfull : s.cursorY = 25 := le_antisymm hy (not_lt.mp hin)
  -- kept as a variable: the loops are not to be run
  obtain ⟨n, hn⟩ : ∃ n, n = (consoleRows - 1) * consoleCols := ⟨_, rfl⟩
  obtain ⟨m, hm⟩ : ∃ m, m = consoleCols := ⟨_, rfl⟩
  rw [← hn, ← hm]
  have hn' : n = 1920 := hn
  have hm' : m = 80 := hm
  obtain ⟨hx1, -, hc1, hup⟩ := s.copyUp_spec n
  obtain ⟨hx2, -, hc2, hblank⟩ := (s.copyUp n).blankCells_spec n m
  have hmoved : ShowsFrom (top + 1)
      { (s.copyUp n).blankCells n m with cursorY := 24 } t := by
    refine ⟨hx2.trans (hx1.trans h.x_eq), by dsimp only; omega, .inr le_rfl,
      fun r hr k hk => ?_, fun r hr k hk => ?_⟩
    · obtain ⟨hv, hs⟩ := hblank (r * 80 + k)
      rw [hv, hs]
      by_cases hlast : r = 24
      · subst hlast
        have hrow := h.below (top + 1 + 24) (by omega) k hk
        rw [if_pos (by omega), if_pos (by omega), hrow, hc1]
        exact ⟨rfl, rfl⟩
      · obtain ⟨hv', hs'⟩ := hup (r * 80 + k)
        have hold := h.rows (r + 1) (by omega) k hk
        have hidx : (r + 1) * 80 + k = r * 80 + k + 80 := by omega
        have hrow : top + (r + 1) = top + 1 + r := by omega
        rw [hidx, hrow] at hold
        rw [if_neg (by omega), if_neg (by omega), hv', hs', if_pos (by omega), if_pos (by omega)]
        exact hold
    · rw [hc2, hc1]
      exact h.below r (by omega) k hk
  obtain ⟨hsync, hcolor, hx, hy'⟩ := hmoved.syncFbConsole
  exact ⟨top + 1, hsync, hcolor.trans (hc2.trans hc1), hx.trans (hx2.trans hx1),
    hy'.trans_lt (show 24 < 25 by decide)⟩

/-- **One character**: the screen shows the terminal again. -/
theorem consolePutc (hx : s.cursorX < 80) (hy : s.cursorY < 25) (hc : c ≠ 8) :
    ∃ top', ShowsFrom top' (s.consolePutc c) (t.putc s.color c) ∧
      (s.consolePutc c).color = s.color ∧ (s.consolePutc c).cursorX < 80 ∧
      (s.consolePutc c).cursorY < 25 := by
  obtain ⟨hplace, hcolor1, hpos⟩ :=
    (h.withDev (ConsoleDevices.serialPutc s.dev c)).place hx hy hc
  obtain ⟨hwrap, hcolor2, hx2, hy2⟩ := hplace.wrap hpos
  obtain ⟨top', hscroll, hcolor3, hx3, hy3⟩ := hwrap.scroll hy2
  exact ⟨top', hscroll.withDev _, hcolor3.trans (hcolor2.trans hcolor1), hx3.trans_lt hx2, hy3⟩

/-- **A text**, character by character. -/
theorem consoleWrite (hx : s.cursorX < 80) (hy : s.cursorY < 25)
    {text : List UInt8} (htext : 8 ∉ text) :
    ∃ top', ShowsFrom top' (s.consoleWrite text) (text.foldl (Terminal.putc s.color) t) ∧
      (s.consoleWrite text).cursorY < 25 := by
  induction text generalizing top s t with
  | nil => exact ⟨top, h, hy⟩
  | cons c text ih =>
    obtain ⟨hc, hrest⟩ := not_or.mp (mt List.mem_cons.mpr htext)
    obtain ⟨top1, h1, hcolor, hx1, hy1⟩ := h.consolePutc hx hy (Ne.symm hc)
    obtain ⟨top2, h2, hy2⟩ := ih h1 hx1 hy1 hrest
    rw [hcolor] at h2
    exact ⟨top2, h2, hy2⟩

end

end ShowsFrom

variable {σ : Type} [ConsoleDevices σ]

theorem Console.consoleClear_shows (s : Console σ) :
    ShowsFrom 0 s.consoleClear (Terminal.blank s.color) ∧ s.consoleClear.color = s.color ∧
      s.consoleClear.cursorX = 0 ∧ s.consoleClear.cursorY = 0 := by
  simp only [Console.consoleClear, Console.moveCursor]
  obtain ⟨n, hn⟩ : ∃ n, n = consoleCols * consoleRows := ⟨_, rfl⟩
  rw [← hn]
  have hn' : n = 2000 := hn
  obtain ⟨-, -, hc, hblank⟩ := s.blankCells_spec 0 n
  have hclear : ShowsFrom 0 { s.blankCells 0 n with cursorX := 0, cursorY := 0 }
      (Terminal.blank s.color) := by
    refine ⟨rfl, rfl, .inl rfl, fun r hr k hk => ?_, fun r _ k _ => ?_⟩
    · obtain ⟨hv, hs⟩ := hblank (r * 80 + k)
      rw [hv, hs, if_pos (by omega), if_pos (by omega)]
      exact ⟨rfl, rfl⟩
    · rw [hc]
      rfl
  obtain ⟨hsync, hcolor, hx, hy⟩ := (hclear.withDev (ConsoleDevices.setCursor
    (s.blankCells 0 n).dev 0)).syncFbConsole
  exact ⟨hsync, hcolor.trans hc, hx, hy⟩

/-- **The console is a window on an unbounded terminal**: without a backspace, both buffers hold the
25 rows of the terminal that end with that of its cursor, or its first 25 rows. -/
theorem console_is_window (s : Console σ) {text : List UInt8} (htext : 8 ∉ text) :
    let con := s.consoleClear.consoleWrite text
    let term := text.foldl (Terminal.putc s.color) (Terminal.blank s.color)
    con.cursorX = term.x ∧ con.cursorY = min term.y 24 ∧
      ∀ r < 25, ∀ c < 80, con.shadowBuffer (r * 80 + c) = term.cells (term.y - 24 + r) c ∧
        con.videoMemory (r * 80 + c) = term.cells (term.y - 24 + r) c := by
  obtain ⟨hclear, hcolor, hx, hy⟩ := s.consoleClear_shows
  obtain ⟨top, h, hlast⟩ := hclear.consoleWrite (by omega) (by omega) htext
  rw [hcolor] at h
  have hy_eq := h.y_eq
  have htop := h.at_top
  have hrow : ∀ {n : ℕ}, top + (s.consoleClear.consoleWrite text).cursorY = n →
      (s.consoleClear.consoleWrite text).cursorY = min n 24 ∧ n - 24 = top := by
    intro n hn
    omega
  obtain ⟨hcursor, hoffset⟩ := hrow hy_eq
  refine ⟨h.x_eq, hcursor, fun r hr c hc => ?_⟩
  rw [hoffset]
  exact (h.rows r hr c hc).symm

/-- A console without devices behind it. -/
instance : ConsoleDevices Unit where
  serialPutc s _ := s
  attach s := (s, false)
  drawCell s _ _ _ _ := s
  fullRefresh s _ _ _ := s
  setCursor s _ := s

/-- Thirty lines of one letter each: the first row shows the seventh line. -/
theorem console_is_window_lines :
    let s : Console Unit := ⟨fun _ => 0, fun _ => 0, 3, 4, 15, false, ()⟩
    let text : List UInt8 := (List.range 30).flatMap fun k => [UInt8.ofNat (65 + k), 10]
    8 ∉ text ∧ (s.consoleClear.consoleWrite text).cursorY = 24 ∧
      (s.consoleClear.consoleWrite text).shadowBuffer 0 = makeEntry 71 15 := by
  have htext : (8 : UInt8) ∉ (List.range 30).flatMap fun k => [UInt8.ofNat (65 + k), 10] := by
    decide
  obtain ⟨-, hy, hrows⟩ := console_is_window
    (⟨fun _ => 0, fun _ => 0, 3, 4, 15, false, ()⟩ : Console Unit) htext
  have hterm : (((List.range 30).flatMap fun k => [UInt8.ofNat (65 + k), 10]).foldl
      (Terminal.putc 15) (Terminal.blank 15)).y = 30 := by decide +kernel
  have hcell : (((List.range 30).flatMap fun k => [UInt8.ofNat (65 + k), 10]).foldl
      (Terminal.putc 15) (Terminal.blank 15)).cells 6 0 = makeEntry 71 15 := by decide +kernel
  refine ⟨htext, ?_, ?_⟩
  · rw [hy, hterm]
    rfl
  · have hrow := (hrows 0 (by decide) 0 (by decide)).1
    rw [hterm, show 30 - 24 + 0 = 6 from rfl, hcell, show 0 * 80 + 0 = 0 from rfl] at hrow
    exact hrow

end PenOS
