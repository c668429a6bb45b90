import PenOS.Framebuffer

/-!
# The pixels of the console

Every cell is painted as a whole and the cells are the tiles of a grid, so a full refresh paints a
picture of the shadow buffer (`picture`). The console keeps it: a character paints its cell,
`scroll` and `console_clear` paint everything.
-/

namespace PenOS

open Function List

variable {hw : FramebufferInfo} {con : FramebufferConsoleState} {x y w h : ℕ}

/-! ## What the drawing functions paint -/

namespace Framebuffer

/-- The parts of the state that drawing leaves alone. -/
def Is (hw : FramebufferInfo) (con : FramebufferConsoleState) (fb : Framebuffer) : Prop :=
  fb.hw = hw ∧ fb.present = true ∧ fb.console = con

/-- What the pixels look like. -/
def look (hw : FramebufferInfo) (fb : Framebuffer) (p : ℕ × ℕ) : ℕ :=
  fb.mem (hw.pixelAddr p.1 p.2)

end Framebuffer

/-- The pixels on the screen. -/
def FramebufferInfo.screen (hw : FramebufferInfo) : Set (ℕ × ℕ) :=
  {p | p.1 < hw.width ∧ p.2 < hw.height}

/-- `f` paints on the framebuffer. -/
abbrev Draws (hw : FramebufferInfo) (con : FramebufferConsoleState)
    (f : Framebuffer → Framebuffer) (paint : ℕ × ℕ → Option ℕ) : Prop :=
  Paints (Framebuffer.Is hw con) hw.screen (Framebuffer.look hw) f paint

/-- Storing the word of one pixel. -/
theorem draws_store (hfit : hw.Fits) (hx : x < hw.width) (color : ℕ) :
    Draws hw con (fun fb => fb.store (hw.pixelAddr x y) color)
      fun p => if p = (x, y) then some color else none := by
  refine ⟨fun fb hfb => hfb, fun fb _ p hp => ?_⟩
  rw [Framebuffer.look, Framebuffer.store]
  split_ifs with heq
  · rw [heq]
    exact update_self ..
  · refine update_of_ne (fun haddr => heq ?_) _ _
    obtain ⟨h1, h2⟩ := hfit.pixelAddr_inj hp.1 hx haddr
    exact Prod.ext h1 h2

theorem pixelAddr_eq (hfit : hw.Fits) (hx : x < hw.width) (hy : y < hw.height) :
    u32 (u32 (hw.addr + y * hw.pitch) + x * 4) = hw.pixelAddr x y := by
  have hlt := hfit.pixelAddr_lt hx hy
  rw [FramebufferInfo.pixelAddr] at hlt ⊢
  rw [u32_of_lt (n := hw.addr + y * hw.pitch) (by omega), u32_of_lt hlt]

theorem draws_pixel (hfit : hw.Fits) (hx : x < hw.width) (hy : y < hw.height) (color : ℕ) :
    Draws hw con (fun fb => fb.framebufferDrawPixel x y color)
      fun p => if p = (x, y) then some color else none := by
  refine (draws_store hfit hx color).of_eq ?_
  rintro fb ⟨rfl, hpresent, -⟩
  have hin : ¬(x ≥ fb.hw.width ∨ y ≥ fb.hw.height) := by omega
  rw [Framebuffer.framebufferDrawPixel, hpresent, if_neg (by decide), if_neg hin]
  simp only [Framebuffer.bppBytes, hfit.bpp, show 32 / 8 = 4 from rfl, pixelAddr_eq hfit hx hy]

theorem draws_box {f : ℕ → ℕ → Framebuffer → Framebuffer} {color : ℕ}
    (hf : ∀ j < h, ∀ i < w, Draws hw con (f j i)
      fun p => if p = (x + i, y + j) then some color else none) :
    Draws hw con (fun fb => (List.range h).foldl (fun fb j =>
        (List.range w).foldl (fun fb i => f j i fb) fb) fb)
      fun p => if Paints.InBox x y w h p then some color else none := by
  refine (Paints.grid (x := x) (y := y) (w := 1) (h := 1) hf fun j i p c hp => ?_).congr
    fun p _ => ?_
  · split_ifs at hp with heq
    rw [heq]
    exact ⟨by dsimp only; omega, by dsimp only; omega, by dsimp only; omega, by dsimp only; omega⟩
  · rw [Nat.mul_one, Nat.mul_one, Nat.div_one, Nat.div_one]
    split_ifs with hp hpos
    · rfl
    · refine absurd (Prod.ext ?_ ?_) hpos
      · exact (Nat.add_sub_of_le hp.1).symm
      · exact (Nat.add_sub_of_le hp.2.2.1).symm
    · rfl

theorem draws_rect (hfit : hw.Fits) (hx : x + w ≤ hw.width) (hy : y + h ≤ hw.height)
    (hw0 : 0 < w) (hh0 : 0 < h) (color : ℕ) :
    Draws hw con (fun fb => fb.framebufferDrawRect x y w h color)
      fun p => if Paints.InBox x y w h p then some color else none := by
  have hwidth := hfit.width_lt
  have hheight := hfit.height_lt
  have hloops : Draws hw con
      (fun fb => (List.range h).foldl (fun fb j => (List.range w).foldl (fun fb i =>
        fb.store (u32 (u32 (fb.hw.addr + u32 (y + j) * fb.hw.pitch) + u32 (x + i) * 4)) color)
          fb) fb)
      fun p => if Paints.InBox x y w h p then some color else none := by
    refine draws_box fun j hj i hi => ?_
    refine (draws_store hfit (show x + i < hw.width by omega) color).of_eq ?_
    rintro fb ⟨rfl, -, -⟩
    rw [u32_of_lt (n := y + j) (by omega), u32_of_lt (n := x + i) (by omega),
      pixelAddr_eq hfit (by omega) (by omega)]
  refine hloops.of_eq ?_
  rintro fb ⟨rfl, hpresent, -⟩
  have hin : ¬(x ≥ fb.hw.width ∨ y ≥ fb.hw.height) := by omega
  rw [Framebuffer.framebufferDrawRect, hpresent, if_neg (by decide), if_neg hin,
    u32_of_lt (n := x + w) (by omega), u32_of_lt (n := y + h) (by omega)]
  simp only [gt_iff_lt, if_neg (Nat.not_lt.mpr hx), if_neg (Nat.not_lt.mpr hy)]

/-- The colour of a bit of the font. -/
def glyphColor (c fg bg col row : ℕ) : ℕ :=
  if (font8x8Basic.getD c []).getD row 0 &&& (1 <<< col) ≠ 0 then fg else bg

theorem draws_glyph {scale : ℕ} (hfit : hw.Fits) (hscale : 0 < scale)
    (hx : x + 8 * scale ≤ hw.width) (hy : y + 8 * scale ≤ hw.height) (c fg bg : ℕ) :
    Draws hw con (fun fb => fb.framebufferDrawGlyph x y c fg bg scale)
      fun p => if Paints.InBox x y (8 * scale) (8 * scale) p then
        some (glyphColor c fg bg ((p.1 - x) / scale) ((p.2 - y) / scale)) else none := by
  have hwidth := hfit.width_lt
  have hheight := hfit.height_lt
  have hbits : ∀ row < 8, ∀ col < 8, Draws hw con
      (fun fb => (List.range scale).foldl (fun fb dy => (List.range scale).foldl (fun fb dx =>
        fb.framebufferDrawPixel (u32 (u32 (x + col * scale) + dx))
          (u32 (u32 (y + row * scale) + dy)) (glyphColor c fg bg col row)) fb) fb)
      fun p => if Paints.InBox (x + col * scale) (y + row * scale) scale scale p then
        some (glyphColor c fg bg col row) else none := by
    intro row hrow col hcol
    have hcols : (col + 1) * scale ≤ 8 * scale := Nat.mul_le_mul_right _ hcol
    have hrows : (row + 1) * scale ≤ 8 * scale := Nat.mul_le_mul_right _ hrow
    rw [Nat.succ_mul] at hcols hrows
    refine draws_box fun dy hdy dx hdx => ?_
    rw [u32_of_lt (n := x + col * scale) (by omega), u32_of_lt (n := y + row * scale) (by omega),
      u32_of_lt (by omega), u32_of_lt (by omega)]
    exact draws_pixel hfit (by omega) (by omega) _
  have hloops := Paints.grid (x := x) (y := y) hbits fun row col p color hp => by
    split_ifs at hp with hbox
    exact hbox
  refine (hloops.congr fun p _ => ?_).of_eq fun fb _ => ?_
  · split_ifs with hp hbox
    · rfl
    · exact absurd (hp.tile hscale hscale) hbox
    · rfl
  · rw [Framebuffer.framebufferDrawGlyph, if_neg hscale.ne']
    rfl

/-! ## Cells and the picture -/

/-- The console is set up for 80 by 25 cells of 16 by 16 pixels, all on the screen. -/
structure ConsoleOn (hw : FramebufferInfo) (con : FramebufferConsoleState) : Prop where
  fits : hw.Fits
  cols : con.cols = 80
  rows : con.rows = 25
  cellW : con.cellW = 16
  cellH : con.cellH = 16
  glyphScale : con.glyphScale = 2
  active : con.active = true
  visible : con.visible = true
  width : con.originX + 1280 ≤ hw.width
  height : con.originY + 400 ≤ hw.height

/-- What a cell with the character `c` looks like. -/
def cellPaint (con : FramebufferConsoleState) (col row c attr : ℕ) (p : ℕ × ℕ) : Option ℕ :=
  let x := con.originX + col * 16
  let y := con.originY + row * 16
  if Paints.InBox x y 16 16 p then
    some (glyphColor c (attrToColor attr true) (attrToColor attr false) ((p.1 - x) / 2)
      ((p.2 - y) / 2))
  else none

/-- What the entry of a buffer looks like. -/
def entryPaint (con : FramebufferConsoleState) (buffer : ℕ → UInt16) (row col : ℕ) :
    ℕ × ℕ → Option ℕ :=
  let entry := (buffer (row * 80 + col)).toNat
  cellPaint con col row (entry &&& 0xFF) (entry >>> 8)

/-- What the console shows of a buffer. -/
def picture (con : FramebufferConsoleState) (buffer : ℕ → UInt16) (p : ℕ × ℕ) : Option ℕ :=
  if Paints.InBox con.originX con.originY (80 * 16) (25 * 16) p then
    entryPaint con buffer ((p.2 - con.originY) / 16) ((p.1 - con.originX) / 16) p
  else none

namespace ConsoleOn

variable {col row : ℕ}

theorem draws_cell (hon : ConsoleOn hw con) (hcol : col < 80) (hrow : row < 25) (c attr : ℕ) :
    Draws hw con (fun fb => fb.framebufferConsoleDrawCell col row c attr)
      (cellPaint con col row c attr) := by
  have hwidth := hon.width
  have hheight := hon.height
  have hwidth_lt := hon.fits.width_lt
  have hheight_lt := hon.fits.height_lt
  have hrect : Draws hw con (fun fb => fb.framebufferDrawRect (con.originX + col * 16)
      (con.originY + row * 16) 16 16 (attrToColor attr false)) _ :=
    draws_rect hon.fits (by omega) (by omega) (by decide) (by decide) _
  have hglyph : Draws hw con (fun fb => fb.framebufferDrawGlyph (con.originX + col * 16)
      (con.originY + row * 16) c (attrToColor attr true) (attrToColor attr false) 2) _ :=
    draws_glyph hon.fits (by decide) (by omega) (by omega) _ _ _
  refine ((hglyph.comp hrect).congr fun p _ => ?_).of_eq ?_
  · rw [cellPaint]
    split_ifs with hbox
    · rfl
    · rfl
  · rintro fb ⟨-, -, rfl⟩
    rw [Framebuffer.framebufferConsoleDrawCell, hon.active, hon.visible, if_neg (by decide),
      hon.cols, hon.rows, if_neg (by omega), hon.cellW, hon.cellH, hon.glyphScale,
      u32_of_lt (by omega), u32_of_lt (by omega)]

/-- **A full refresh paints the picture of the buffer.** -/
theorem draws_refresh (hon : ConsoleOn hw con) (buffer : ℕ → UInt16) :
    Draws hw con (fun fb => fb.framebufferConsoleFullRefresh buffer 80 25)
      (picture con buffer) := by
  have hloops : Draws hw con (fun fb => (List.range 25).foldl (fun fb row =>
      (List.range 80).foldl (fun fb col => fb.framebufferConsoleDrawCell col row
        ((buffer (row * 80 + col)).toNat &&& 0xFF) ((buffer (row * 80 + col)).toNat >>> 8)) fb) fb)
      (picture con buffer) :=
    Paints.grid (fun row hrow col hcol => hon.draws_cell hcol hrow _ _)
      fun row col p color (hp : entryPaint con buffer row col p = some color) => by
        rw [entryPaint, cellPaint] at hp
        split_ifs at hp with hbox
        exact hbox
  refine hloops.of_eq ?_
  rintro fb ⟨-, -, rfl⟩
  rw [Framebuffer.framebufferConsoleFullRefresh, hon.active, hon.visible, if_neg (by decide),
    hon.cols, hon.rows]
  simp only [ne_eq, not_true_eq_false, or_self, if_false]

end ConsoleOn

theorem picture_update {col row : ℕ} (hcol : col < 80) (hrow : row < 25) (buffer : ℕ → UInt16)
    (entry : UInt16) (p : ℕ × ℕ) : picture con (Function.update buffer (row * 80 + col) entry) p =
      (cellPaint con col row (entry.toNat &&& 0xFF) (entry.toNat >>> 8) p).or
        (picture con buffer p) := by
  by_cases hbox : Paints.InBox (con.originX + col * 16) (con.originY + row * 16) 16 16 p
  · obtain ⟨hc, hr⟩ := hbox.div_eq
    have hin : Paints.InBox con.originX con.originY (80 * 16) (25 * 16) p := by
      obtain ⟨h1, h2, h3, h4⟩ := hbox
      exact ⟨by omega, by omega, by omega, by omega⟩
    rw [picture, if_pos hin, hc, hr, entryPaint, update_self, cellPaint, if_pos hbox,
      Option.some_or]
  · rw [show cellPaint con col row _ _ p = none from if_neg hbox, Option.none_or, picture, picture]
    split_ifs with hin
    · rw [entryPaint, entryPaint, update_of_ne]
      -- another cell has another index
      have htile := hin.tile (show 0 < 16 by decide) (show 0 < 16 by decide)
      obtain ⟨h1, h2, h3, h4⟩ := hin
      intro heq
      have hcol' : (p.1 - con.originX) / 16 = col := by omega
      have hrow' : (p.2 - con.originY) / 16 = row := by omega
      rw [hcol', hrow'] at htile
      exact hbox htile
    · rfl

/-! ## The console keeps the picture on the screen -/

theorem makeEntry_parts (c attr : UInt8) :
    (makeEntry c attr).toNat &&& 0xFF = c.toNat ∧ (makeEntry c attr).toNat >>> 8 = attr.toNat := by
  have hc : c.toNat < 256 := c.toNat_lt
  have ha : attr.toNat < 256 := attr.toNat_lt
  have hval : (makeEntry c attr).toNat = attr.toNat * 256 + c.toNat := by
    rw [makeEntry, UInt16.toNat_or, UInt16.toNat_shiftLeft, UInt8.toNat_toUInt16,
      UInt8.toNat_toUInt16, show (8 : UInt16).toNat % 16 = 8 from rfl, Nat.shiftLeft_eq,
      Nat.mod_eq_of_lt (by omega), ← Nat.shiftLeft_eq, ← Nat.shiftLeft_add_eq_or_of_lt hc,
      Nat.shiftLeft_eq]
  rw [hval, Nat.shiftRight_eq_div_pow, show 0xFF = 2 ^ 8 - 1 from rfl,
    Nat.and_two_pow_sub_one_eq_mod]
  omega

/-- The two buffers agree and hold characters of the font. -/
structure Agree (hw : FramebufferInfo) (con : FramebufferConsoleState) (s : Console Framebuffer) :
    Prop where
  dev : s.dev.Is hw con
  attached : s.useFramebufferConsole = true
  same : ∀ i < 2000, s.videoMemory i = s.shadowBuffer i
  ascii : ∀ i < 2000, (s.shadowBuffer i).toNat &&& 0xFF < 128

/-- The screen shows the shadow buffer. -/
structure Shown (hw : FramebufferInfo) (con : FramebufferConsoleState) (s : Console Framebuffer) :
    Prop extends Agree hw con s where
  shows : ∀ p ∈ hw.screen, ∀ color, picture con s.shadowBuffer p = some color →
    s.dev.look hw p = color

variable {s : Console Framebuffer} {c : UInt8}

theorem Agree.sync (h : Agree hw con s) (hon : ConsoleOn hw con) :
    Shown hw con s.syncFbConsole := by
  have hdraws := hon.draws_refresh s.shadowBuffer
  rw [Console.syncFbConsole, if_pos h.attached]
  refine ⟨⟨hdraws.keeps _ h.dev, h.attached, h.same, h.ascii⟩, fun p hp color hcolor => ?_⟩
  have hlook := hdraws.look_eq _ h.dev p hp
  rw [hcolor] at hlook
  exact hlook

theorem Shown.refresh_eq (h : Shown hw con s) (hon : ConsoleOn hw con) {p : ℕ × ℕ}
    (hp : p ∈ hw.screen) :
    (s.dev.framebufferConsoleFullRefresh s.shadowBuffer 80 25).look hw p = s.dev.look hw p := by
  rw [(hon.draws_refresh s.shadowBuffer).look_eq _ h.dev p hp]
  cases hcolor : picture con s.shadowBuffer p with
  | none => rfl
  | some color => exact (h.shows p hp color hcolor).symm

/-- **One character** is drawn in its cell. -/
theorem Shown.drawCell (h : Shown hw con s) (hon : ConsoleOn hw con) (x y : ℕ)
    (hc : c.toNat < 128) : Shown hw con (s.drawCell x y c) := by
  by_cases hout : x ≥ consoleCols ∨ y ≥ consoleRows
  · rwa [Console.drawCell, if_pos hout]
  have hx : x < 80 := Nat.lt_of_not_le fun hle => hout (.inl hle)
  have hy : y < 25 := Nat.lt_of_not_le fun hle => hout (.inr hle)
  obtain ⟨hchar, hattr⟩ := makeEntry_parts c s.color
  have hdraws := hon.draws_cell hx hy c.toNat s.color.toNat
  have hcell : s.drawCell x y c = { s with
      videoMemory := Function.update s.videoMemory (y * 80 + x) (makeEntry c s.color)
      shadowBuffer := Function.update s.shadowBuffer (y * 80 + x) (makeEntry c s.color)
      dev := s.dev.framebufferConsoleDrawCell x y c.toNat s.color.toNat } := by
    simp only [Console.drawCell, if_neg hout, Console.store, h.attached, if_true]
    rfl
  rw [hcell]
  refine ⟨⟨hdraws.keeps _ h.dev, h.attached, fun i hi => ?_, fun i hi => ?_⟩,
    fun p hp color hcolor => ?_⟩
  · simp only [update_apply]
    split_ifs
    · rfl
    · exact h.same i hi
  · simp only [update_apply]
    split_ifs
    · rwa [hchar]
    · exact h.ascii i hi
  · rw [picture_update hx hy, hchar, hattr] at hcolor
    refine (hdraws.look_eq _ h.dev p hp).trans ?_
    cases hpaint : cellPaint con x y c.toNat s.color.toNat p with
    | some color' =>
      rw [hpaint, Option.some_or] at hcolor
      exact Option.some.inj hcolor
    | none =>
      rw [hpaint, Option.none_or] at hcolor
      exact h.shows p hp color hcolor

/-- The cursor is not on the screen. -/
theorem Shown.withCursor (h : Shown hw con s) (x y : ℕ) :
    Shown hw con { s with cursorX := x, cursorY := y } :=
  ⟨⟨h.dev, h.attached, h.same, h.ascii⟩, h.shows⟩

theorem blankCells_dev (s : Console Framebuffer) (a n : ℕ) : (s.blankCells a n).dev = s.dev ∧
      (s.blankCells a n).useFramebufferConsole = s.useFramebufferConsole := by
  refine foldl_range'_induct (P := fun _ (s' : Console Framebuffer) => s'.dev = s.dev ∧
    s'.useFramebufferConsole = s.useFramebufferConsole) a ⟨rfl, rfl⟩ ?_
  exact fun _ _ s' hs' => hs'

theorem copyUp_dev (s : Console Framebuffer) (n : ℕ) :
    (s.copyUp n).dev = s.dev ∧ (s.copyUp n).useFramebufferConsole = s.useFramebufferConsole := by
  refine foldl_range'_induct (P := fun _ (s' : Console Framebuffer) => s'.dev = s.dev ∧
    s'.useFramebufferConsole = s.useFramebufferConsole) 0 ⟨rfl, rfl⟩ ?_
  exact fun _ _ s' hs' => hs'

theorem ascii_blank (attr : UInt8) : (makeEntry 32 attr).toNat &&& 0xFF < 128 := by
  rw [(makeEntry_parts 32 attr).1]
  decide

/-- **Scrolling**: the rows move up in both buffers, and everything is painted. -/
theorem Shown.scroll (h : Shown hw con s) (hon : ConsoleOn hw con) (hx : s.cursorX < 80) :
    Shown hw con s.scroll ∧ s.scroll.cursorX < 80 ∧ s.scroll.cursorY < 25 := by
  rw [Console.scroll]
  split_ifs with hin
  · exact ⟨h, hx, hin⟩
  -- kept as variables: the loops are not to be run
  obtain ⟨n, hn⟩ : ∃ n, n = (consoleRows - 1) * consoleCols := ⟨_, rfl⟩
  obtain ⟨m, hm⟩ : ∃ m, m = consoleCols := ⟨_, rfl⟩
  rw [← hn, ← hm]
  have hn' : n = 1920 := hn
  obtain ⟨hx1, -, hc1, hup⟩ := s.copyUp_spec n
  obtain ⟨hx2, -, -, hblank⟩ := (s.copyUp n).blankCells_spec n m
  obtain ⟨hdev1, huse1⟩ := copyUp_dev s n
  obtain ⟨hdev2, huse2⟩ := blankCells_dev (s.copyUp n) n m
  have hagree : Agree hw con { (s.copyUp n).blankCells n m with cursorY := consoleRows - 1 } := by
    refine ⟨?_, huse2.trans (huse1.trans h.attached), fun i hi => ?_, fun i hi => ?_⟩
    · rw [hdev2, hdev1]
      exact h.dev
    · rw [(hblank i).1, (hblank i).2, (hup i).1, (hup i).2]
      split_ifs
      · rfl
      · exact h.same _ (by omega)
      · exact h.same _ (by omega)
    · rw [(hblank i).2, (hup i).2]
      split_ifs
      · exact ascii_blank _
      · exact h.ascii _ (by omega)
      · exact h.ascii _ (by omega)
  refine ⟨hagree.sync hon, ?_, ?_⟩
  · rw [Console.syncFbConsole]
    split_ifs
    · exact (hx2.trans hx1).trans_lt hx
    · exact (hx2.trans hx1).trans_lt hx
  · rw [Console.syncFbConsole]
    split_ifs
    · exact (show 24 < 25 by decide)
    · exact (show 24 < 25 by decide)

/-- **Clearing the screen.** -/
theorem Agree.clear (hdev : s.dev.Is hw con) (huse : s.useFramebufferConsole = true)
    (hon : ConsoleOn hw con) :
    Shown hw con s.consoleClear ∧ s.consoleClear.cursorX < 80 ∧ s.consoleClear.cursorY < 25 := by
  obtain ⟨-, -, hx, hy⟩ := s.consoleClear_shows
  refine ⟨?_, by rw [hx]; decide, by rw [hy]; decide⟩
  rw [Console.consoleClear, Console.moveCursor]
  obtain ⟨n, hn⟩ : ∃ n, n = consoleCols * consoleRows := ⟨_, rfl⟩
  rw [← hn]
  have hn' : n = 2000 := hn
  obtain ⟨-, -, -, hblank⟩ := s.blankCells_spec 0 n
  obtain ⟨hdev1, huse1⟩ := blankCells_dev s 0 n
  refine Agree.sync ⟨?_, huse1.trans huse, fun i hi => ?_, fun i hi => ?_⟩ hon
  · rw [hdev1]
    exact hdev
  · rw [(hblank i).1, (hblank i).2, if_pos (by omega), if_pos (by omega)]
  · rw [(hblank i).2, if_pos (by omega)]
    exact ascii_blank _

/-- **A character is placed**, or moves the cursor. -/
theorem Shown.place (h : Shown hw con s) (hon : ConsoleOn hw con) (hc : c.toNat < 128) :
    Shown hw con (s.place c) := by
  rw [Console.place]
  split_ifs with hnl hcr hback hpos hzero htab
  · exact h.withCursor _ _
  · exact h.withCursor _ _
  · exact (h.withCursor _ _).drawCell hon _ _ (by decide)
  · exact (h.withCursor _ _).drawCell hon _ _ (by decide)
  · exact h
  · exact h.withCursor _ _
  · exact (h.drawCell hon _ _ hc).withCursor _ _

/-- **One character.** -/
theorem Shown.putc (h : Shown hw con s) (hon : ConsoleOn hw con) (hc : c.toNat < 128) :
    Shown hw con (s.consolePutc c) ∧ (s.consolePutc c).cursorX < 80 ∧
      (s.consolePutc c).cursorY < 25 := by
  have hplace : Shown hw con (s.place c) := h.place hon hc
  have hwrap : Shown hw con (s.place c).wrap ∧ (s.place c).wrap.cursorX < 80 := by
    rw [Console.wrap]
    split_ifs with hend
    · exact ⟨hplace.withCursor _ _, show 0 < 80 by decide⟩
    · exact ⟨hplace, not_le.mp hend⟩
  exact hwrap.1.scroll hon hwrap.2

/-! ## From the start -/

/-- A call that changes the screen. -/
inductive ConsoleCall where
  | clear
  | putc (c : UInt8)

/-- Make a call. -/
def Console.call {σ : Type} [ConsoleDevices σ] (s : Console σ) : ConsoleCall → Console σ
  | .clear => s.consoleClear
  | .putc c => s.consolePutc c

/-- The calls print characters of the font only. -/
def AsciiCalls (calls : List ConsoleCall) : Prop := ∀ c, .putc c ∈ calls → c.toNat < 128

/-- What the boot information must say: 32 bits per pixel, enough pixels, rows in the address
space. -/
structure MultibootFramebuffer.Usable (mb : MultibootFramebuffer) : Prop where
  flag : mb.flags &&& (1 <<< 12) ≠ 0
  type : mb.framebufferType = 1
  bpp : mb.framebufferBpp = 32
  width : 1280 ≤ mb.framebufferWidth
  height : 400 ≤ mb.framebufferHeight
  row : mb.framebufferWidth * 4 ≤ mb.framebufferPitch
  size : mb.framebufferAddr + mb.framebufferHeight * mb.framebufferPitch ≤ 4294967296

/-- The framebuffer as the kernel sets it up before `console_init`. -/
def Framebuffer.configured (fb : Framebuffer) (mb : MultibootFramebuffer) : Framebuffer :=
  (fb.framebufferInit (some mb)).framebufferConsoleConfigure 80 25

theorem attach_configured {mb : MultibootFramebuffer} (hmb : mb.Usable) (fb : Framebuffer) :
    ∃ fb' hw con, (fb.configured mb).framebufferConsoleAttach = (fb', true) ∧ ConsoleOn hw con ∧
      fb'.Is hw con := by
  have hwidth := hmb.width
  have hheight := hmb.height
  have hrow := hmb.row
  have hsize := hmb.size
  have hpitch : 400 * mb.framebufferPitch ≤ mb.framebufferHeight * mb.framebufferPitch :=
    Nat.mul_le_mul_right _ hheight
  have hrows : mb.framebufferHeight * 5120 ≤ mb.framebufferHeight * mb.framebufferPitch :=
    Nat.mul_le_mul_left _ (by omega)
  have hinit : fb.framebufferInit (some mb) = { fb with
      hw := ⟨mb.framebufferAddr, mb.framebufferWidth, mb.framebufferHeight, mb.framebufferPitch,
        mb.framebufferBpp⟩
      present := true } := by
    have htype : ¬(mb.framebufferType ≠ 1 ∨ mb.framebufferBpp ≠ 32) := by
      rw [hmb.type, hmb.bpp]
      decide
    simp only [Framebuffer.framebufferInit, if_neg hmb.flag, if_neg htype]
    rw [u32_of_lt (by omega)]
  rw [Framebuffer.configured, hinit]
  refine ⟨_, _, _, rfl, ?_, rfl, rfl, rfl⟩
  have hfits : FramebufferInfo.Fits ⟨mb.framebufferAddr, mb.framebufferWidth,
      mb.framebufferHeight, mb.framebufferPitch, mb.framebufferBpp⟩ :=
    ⟨hmb.bpp, hrow, hsize, by dsimp only; omega, by dsimp only; omega⟩
  refine ⟨hfits, rfl, rfl, rfl, rfl, rfl, rfl, rfl, ?_, ?_⟩
  · change (if mb.framebufferWidth > 1280 then (mb.framebufferWidth - 1280) / 2 else 0) + 1280 ≤
      mb.framebufferWidth
    split_ifs <;> omega
  · change (if mb.framebufferHeight > 432 then sub32 (sub32 mb.framebufferHeight 400) 24 else 0) +
      400 ≤ mb.framebufferHeight
    split_ifs
    · rw [sub32_of_le (a := mb.framebufferHeight) (by omega) (by omega),
        sub32_of_le (by omega) (by omega)]
      omega
    · omega

/-- **Incremental and full repainting agree**: after any `console_clear` and `console_putc` on a
usable framebuffer both buffers hold the same characters of the font, and a full refresh would not
change a pixel. -/
theorem console_repaint_agrees {mb : MultibootFramebuffer} (hmb : mb.Usable) (fb : Framebuffer)
    {s : Console Framebuffer} (hdev : s.dev = fb.configured mb) {calls : List ConsoleCall}
    (hcalls : AsciiCalls calls) : let t := calls.foldl Console.call s.consoleInit
    t.cursorX < 80 ∧ t.cursorY < 25 ∧
      (∀ i < 80 * 25, t.videoMemory i = t.shadowBuffer i) ∧
      (∀ i < 80 * 25, (t.shadowBuffer i).toNat &&& 0xFF < 128) ∧
      ∀ x < t.dev.hw.width, ∀ y < t.dev.hw.height, t.dev.pixel x y =
        (t.dev.framebufferConsoleFullRefresh t.shadowBuffer 80 25).pixel x y := by
  obtain ⟨fb', hw, con, hattach, hon, hfb⟩ := attach_configured hmb fb
  have hstart : Shown hw con s.consoleInit ∧ s.consoleInit.cursorX < 80 ∧
      s.consoleInit.cursorY < 25 := by
    have hout : ConsoleDevices.attach s.dev = (fb', true) := by rw [hdev]; exact hattach
    rw [Console.consoleInit, hout]
    exact Agree.clear hfb rfl hon
  have hrun : ∀ t : Console Framebuffer, Shown hw con t ∧ t.cursorX < 80 ∧ t.cursorY < 25 →
      Shown hw con (calls.foldl Console.call t) ∧ (calls.foldl Console.call t).cursorX < 80 ∧
        (calls.foldl Console.call t).cursorY < 25 := by
    induction calls with
    | nil => exact fun t ht => ht
    | cons call calls ih =>
      intro t ht
      refine ih (fun c hc => hcalls c (mem_cons_of_mem call hc)) _ ?_
      cases call with
      | clear => exact Agree.clear ht.1.dev ht.1.attached hon
      | putc c => exact ht.1.putc hon (hcalls c mem_cons_self)
  obtain ⟨hshown, hx, hy⟩ := hrun _ hstart
  refine ⟨hx, hy, hshown.same, hshown.ascii, fun x hx' y hy' => ?_⟩
  have hkeep := (hon.draws_refresh (calls.foldl Console.call s.consoleInit).shadowBuffer).keeps _
    hshown.dev
  rw [hshown.dev.1] at hx' hy'
  rw [Framebuffer.pixel, Framebuffer.pixel, hshown.dev.1, hkeep.1]
  exact (hshown.refresh_eq hon (p := (x, y)) ⟨hx', hy'⟩).symm

theorem console_repaint_agrees_letter :
    let mb : MultibootFramebuffer := ⟨4096, 0xE0000000, 5120, 1280, 720, 32, 1⟩
    let fb : Framebuffer :=
      ⟨⟨0, 0, 0, 0, 0⟩, false, ⟨0, 0, 0, 0, 0, 0, 0, false, false, false⟩, fun _ => 0⟩
    let s : Console Framebuffer := ⟨fun _ => 0, fun _ => 0, 0, 0, 15, false, fb.configured mb⟩
    let t := [ConsoleCall.putc 65, .putc 10].foldl Console.call s.consoleInit
    mb.Usable ∧ t.cursorX < 80 ∧ t.cursorY < 25 := by
  intro mb fb s t
  have hmb : mb.Usable :=
    ⟨by decide, rfl, rfl, by decide, by decide, by decide, by decide⟩
  have hcalls : AsciiCalls [.putc 65, .putc 10] := by
    intro c hc
    rcases List.mem_cons.mp hc with hc | hc
    · obtain rfl := ConsoleCall.putc.inj hc
      decide
    · obtain rfl := ConsoleCall.putc.inj (List.mem_singleton.mp hc)
      decide
  obtain ⟨hx, hy, -⟩ := console_repaint_agrees hmb fb (s := s) rfl hcalls
  exact ⟨hmb, hx, hy⟩

end PenOS
