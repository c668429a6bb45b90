import PenOS.Console
import PenOS.Lib.Paint

/-!
# The framebuffer (`src/ui/framebuffer.c`)

A picture of 32-bit pixels, and the console drawn on it: each cell is filled with the background and
covered by the glyph, every bit of the font being a square of `glyph_scale` pixels. The memory is a
table of words.
-/

namespace PenOS

/-! ## The picture -/

/-- `vga_palette` -/
def vgaPalette : List ℕ :=
  [0xFF000000, 0xFFAA0000, 0xFF00AA00, 0xFFAA5500, 0xFF0000AA, 0xFFAA00AA, 0xFF00AAAA, 0xFFAAAAAA,
    0xFF555555, 0xFFFF5555, 0xFF55FF55, 0xFFFFFF55, 0xFF5555FF, 0xFFFF55FF, 0xFF55FFFF, 0xFFFFFFFF]

/-- `attr_to_color` -/
def attrToColor (attr : ℕ) (foreground : Bool) : ℕ :=
  let idx := if foreground then attr &&& 0x0F else (attr >>> 4) &&& 0x0F
  vgaPalette.getD (idx &&& 0x0F) 0

/-- `font8x8_basic`: for each character eight rows of eight bits. -/
def font8x8Basic : List (List ℕ) :=
  [
    [0x00,0x00,0x00,0x00,0x00,0x00,0x00,0x00], [0x7E,0x81,0xA5,0x81,0xBD,0x99,0x81,0x7E],
    [0x7E,0xFF,0xDB,0xFF,0xC3,0xE7,0xFF,0x7E], [0x6C,0xFE,0xFE,0xFE,0x7C,0x38,0x10,0x00],
    [0x10,0x38,0x7C,0xFE,0x7C,0x38,0x10,0x00], [0x38,0x7C,0x38,0xFE,0xFE,0xD6,0x10,0x38],
    [0x10,0x38,0x7C,0xFE,0xFE,0x7C,0x10,0x38], [0x00,0x00,0x18,0x3C,0x3C,0x18,0x00,0x00],
    [0xFF,0xFF,0xE7,0xC3,0xC3,0xE7,0xFF,0xFF], [0x00,0x3C,0x66,0x42,0x42,0x66,0x3C,0x00],
    [0xFF,0xC3,0x99,0xBD,0xBD,0x99,0xC3,0xFF], [0x0F,0x07,0x0F,0x7D,0xCC,0xCC,0xCC,0x78],
    [0x3C,0x66,0x66,0x66,0x3C,0x18,0x7E,0x18], [0x3F,0x33,0x3F,0x30,0x30,0x70,0xF0,0xE0],
    [0x7F,0x63,0x7F,0x63,0x63,0x67,0xE6,0xC0], [0x99,0x5A,0x3C,0xE7,0xE7,0x3C,0x5A,0x99],
    [0x80,0xE0,0xF8,0xFE,0xF8,0xE0,0x80,0x00], [0x02,0x0E,0x3E,0xFE,0x3E,0x0E,0x02,0x00],
    [0x18,0x3C,0x7E,0x18,0x18,0x7E,0x3C,0x18], [0x66,0x66,0x66,0x66,0x66,0x00,0x66,0x00],
    [0x7F,0xDB,0xDB,0x7B,0x1B,0x1B,0x1B,0x00], [0x3E,0x63,0x38,0x6C,0x6C,0x38,0xC6,0x7C],
    [0x00,0x00,0x00,0x00,0x7E,0x7E,0x7E,0x00], [0x18,0x3C,0x7E,0x18,0x7E,0x3C,0x18,0xFF],
    [0x18,0x3C,0x7E,0x18,0x18,0x18,0x18,0x00], [0x18,0x18,0x18,0x18,0x7E,0x3C,0x18,0x00],
    [0x00,0x18,0x0C,0xFE,0x0C,0x18,0x00,0x00], [0x00,0x30,0x60,0xFE,0x60,0x30,0x00,0x00],
    [0x00,0x00,0xC0,0xC0,0xC0,0xFE,0x00,0x00], [0x00,0x24,0x66,0xFF,0x66,0x24,0x00,0x00],
    [0x00,0x18,0x3C,0x7E,0xFF,0xFF,0x00,0x00], [0x00,0xFF,0xFF,0x7E,0x3C,0x18,0x00,0x00],
    [0x00,0x00,0x00,0x00,0x00,0x00,0x00,0x00], [0x18,0x3C,0x3C,0x18,0x18,0x00,0x18,0x00],
    [0x66,0x66,0x24,0x00,0x00,0x00,0x00,0x00], [0x6C,0x6C,0xFE,0x6C,0xFE,0x6C,0x6C,0x00],
    [0x18,0x7E,0xC0,0x7C,0x06,0xFC,0x18,0x00], [0x00,0xC6,0xCC,0x18,0x30,0x66,0xC6,0x00],
    [0x38,0x6C,0x38,0x76,0xDC,0xCC,0x76,0x00], [0x30,0x30,0x60,0x00,0x00,0x00,0x00,0x00],
    [0x0C,0x18,0x30,0x30,0x30,0x18,0x0C,0x00], [0x30,0x18,0x0C,0x0C,0x0C,0x18,0x30,0x00],
    [0x00,0x66,0x3C,0xFF,0x3C,0x66,0x00,0x00], [0x00,0x18,0x18,0x7E,0x18,0x18,0x00,0x00],
    [0x00,0x00,0x00,0x00,0x00,0x18,0x18,0x30], [0x00,0x00,0x00,0x7E,0x00,0x00,0x00,0x00],
    [0x00,0x00,0x00,0x00,0x00,0x18,0x18,0x00], [0x06,0x0C,0x18,0x30,0x60,0xC0,0x80,0x00],
    [0x7C,0xC6,0xCE,0xDE,0xF6,0xE6,0x7C,0x00], [0x18,0x38,0x18,0x18,0x18,0x18,0x7E,0x00],
    [0x7C,0xC6,0x0E,0x1C,0x70,0xC0,0xFE,0x00], [0x7C,0xC6,0x06,0x3C,0x06,0xC6,0x7C,0x00],
    [0x1C,0x3C,0x6C,0xCC,0xFE,0x0C,0x1E,0x00], [0xFE,0xC0,0xFC,0x06,0x06,0xC6,0x7C,0x00],
    [0x3C,0x60,0xC0,0xFC,0xC6,0xC6,0x7C,0x00], [0xFE,0xC6,0x0C,0x18,0x30,0x30,0x30,0x00],
    [0x7C,0xC6,0xC6,0x7C,0xC6,0xC6,0x7C,0x00], [0x7C,0xC6,0xC6,0x7E,0x06,0x0C,0x78,0x00],
    [0x00,0x18,0x18,0x00,0x00,0x18,0x18,0x00], [0x00,0x18,0x18,0x00,0x00,0x18,0x18,0x30],
    [0x0E,0x1C,0x38,0x70,0x38,0x1C,0x0E,0x00], [0x00,0x00,0x7E,0x00,0x00,0x7E,0x00,0x00],
    [0x70,0x38,0x1C,0x0E,0x1C,0x38,0x70,0x00], [0x7C,0xC6,0x0E,0x1C,0x18,0x00,0x18,0x00],
    [0x7C,0xC6,0xDE,0xDE,0xDE,0xC0,0x7C,0x00], [0x38,0x6C,0xC6,0xC6,0xFE,0xC6,0xC6,0x00],
    [0xFC,0x66,0x66,0x7C,0x66,0x66,0xFC,0x00], [0x3C,0x66,0xC0,0xC0,0xC0,0x66,0x3C,0x00],
    [0xF8,0x6C,0x66,0x66,0x66,0x6C,0xF8,0x00], [0xFE,0x62,0x68,0x78,0x68,0x62,0xFE,0x00],
    [0xFE,0x62,0x68,0x78,0x68,0x60,0xF0,0x00], [0x3C,0x66,0xC0,0xC0,0xCE,0x66,0x3A,0x00],
    [0xC6,0xC6,0xC6,0xFE,0xC6,0xC6,0xC6,0x00], [0x3C,0x18,0x18,0x18,0x18,0x18,0x3C,0x00],
    [0x1E,0x0C,0x0C,0x0C,0xCC,0xCC,0x78,0x00], [0xE6,0x66,0x6C,0x78,0x6C,0x66,0xE6,0x00],
    [0xF0,0x60,0x60,0x60,0x62,0x66,0xFE,0x00], [0xC6,0xEE,0xFE,0xFE,0xD6,0xC6,0xC6,0x00],
    [0xC6,0xE6,0xF6,0xDE,0xCE,0xC6,0xC6,0x00], [0x38,0x6C,0xC6,0xC6,0xC6,0x6C,0x38,0x00],
    [0xFC,0x66,0x66,0x7C,0x60,0x60,0xF0,0x00], [0x7C,0xC6,0xC6,0xC6,0xD6,0xCC,0x7A,0x00],
    [0xFC,0x66,0x66,0x7C,0x6C,0x66,0xE6,0x00], [0x7C,0xC6,0x60,0x38,0x0C,0xC6,0x7C,0x00],
    [0x7E,0x7E,0x5A,0x18,0x18,0x18,0x3C,0x00], [0xC6,0xC6,0xC6,0xC6,0xC6,0xC6,0x7C,0x00],
    [0xC6,0xC6,0xC6,0xC6,0x6C,0x38,0x10,0x00], [0xC6,0xC6,0xD6,0xFE,0xFE,0xEE,0xC6,0x00],
    [0xC6,0xC6,0x6C,0x38,0x6C,0xC6,0xC6,0x00], [0x66,0x66,0x66,0x3C,0x18,0x18,0x3C,0x00],
    [0xFE,0xC6,0x8C,0x18,0x32,0x66,0xFE,0x00], [0x3C,0x30,0x30,0x30,0x30,0x30,0x3C,0x00],
    [0xC0,0x60,0x30,0x18,0x0C,0x06,0x02,0x00], [0x3C,0x0C,0x0C,0x0C,0x0C,0x0C,0x3C,0x00],
    [0x10,0x38,0x6C,0xC6,0x00,0x00,0x00,0x00], [0x00,0x00,0x00,0x00,0x00,0x00,0x00,0xFF],
    [0x30,0x18,0x0C,0x00,0x00,0x00,0x00,0x00], [0x00,0x00,0x78,0x0C,0x7C,0xCC,0x76,0x00],
    [0xE0,0x60,0x60,0x7C,0x66,0x66,0xDC,0x00], [0x00,0x00,0x7C,0xC6,0xC0,0xC6,0x7C,0x00],
    [0x1C,0x0C,0x0C,0x7C,0xCC,0xCC,0x76,0x00], [0x00,0x00,0x7C,0xC6,0xFE,0xC0,0x7C,0x00],
    [0x1C,0x36,0x30,0x7C,0x30,0x30,0x78,0x00], [0x00,0x00,0x76,0xCC,0xCC,0x7C,0x0C,0xF8],
    [0xE0,0x60,0x6C,0x76,0x66,0x66,0xE6,0x00], [0x18,0x00,0x38,0x18,0x18,0x18,0x3C,0x00],
    [0x06,0x00,0x06,0x06,0x06,0x66,0x66,0x3C], [0xE0,0x60,0x66,0x6C,0x78,0x6C,0xE6,0x00],
    [0x38,0x18,0x18,0x18,0x18,0x18,0x3C,0x00], [0x00,0x00,0xEC,0xFE,0xD6,0xD6,0xC6,0x00],
    [0x00,0x00,0xDC,0x66,0x66,0x66,0x66,0x00], [0x00,0x00,0x7C,0xC6,0xC6,0xC6,0x7C,0x00],
    [0x00,0x00,0xDC,0x66,0x66,0x7C,0x60,0xF0], [0x00,0x00,0x76,0xCC,0xCC,0x7C,0x0C,0x1E],
    [0x00,0x00,0xDC,0x76,0x66,0x60,0xF0,0x00], [0x00,0x00,0x7E,0xC0,0x7C,0x06,0xFC,0x00],
    [0x30,0x30,0xFC,0x30,0x30,0x36,0x1C,0x00], [0x00,0x00,0xCC,0xCC,0xCC,0xCC,0x76,0x00],
    [0x00,0x00,0xC6,0xC6,0x6C,0x38,0x10,0x00], [0x00,0x00,0xC6,0xD6,0xFE,0xEE,0xC6,0x00],
    [0x00,0x00,0xC6,0x6C,0x38,0x6C,0xC6,0x00], [0x00,0x00,0xC6,0xC6,0xCE,0x7E,0x06,0xFC],
    [0x00,0x00,0xFE,0x8C,0x18,0x32,0xFE,0x00], [0x0E,0x18,0x18,0x70,0x18,0x18,0x0E,0x00],
    [0x18,0x18,0x18,0x00,0x18,0x18,0x18,0x00], [0x70,0x18,0x18,0x0E,0x18,0x18,0x70,0x00],
    [0x76,0xDC,0x00,0x00,0x00,0x00,0x00,0x00], [0x10,0x38,0x6C,0xC6,0xC6,0xFE,0x00,0x00]
  ]

/-- `framebuffer_info_t` -/
structure FramebufferInfo where
  addr : ℕ
  width : ℕ
  height : ℕ
  pitch : ℕ
  bpp : ℕ

/-- `framebuffer_console_state_t` -/
structure FramebufferConsoleState where
  cols : ℕ
  rows : ℕ
  cellW : ℕ
  cellH : ℕ
  originX : ℕ
  originY : ℕ
  glyphScale : ℕ
  configured : Bool
  active : Bool
  visible : Bool

/-- The variables `fb` and `fb_console`, and the memory. -/
structure Framebuffer where
  hw : FramebufferInfo
  present : Bool
  console : FramebufferConsoleState
  mem : ℕ → ℕ

/-- What `framebuffer_init` reads of the boot information. -/
structure MultibootFramebuffer where
  flags : ℕ
  framebufferAddr : ℕ
  framebufferPitch : ℕ
  framebufferWidth : ℕ
  framebufferHeight : ℕ
  framebufferBpp : ℕ
  framebufferType : ℕ

namespace Framebuffer

/-- `framebuffer_init` -/
def framebufferInit (fb : Framebuffer) (mbInfo : Option MultibootFramebuffer) : Framebuffer :=
  let fb := { fb with present := false }
  match mbInfo with
  | none => fb
  | some mb =>
    if mb.flags &&& (1 <<< 12) = 0 then fb
    else if mb.framebufferType ≠ 1 ∨ mb.framebufferBpp ≠ 32 then fb
    else
      { fb with
        hw := ⟨u32 mb.framebufferAddr, mb.framebufferWidth, mb.framebufferHeight,
          mb.framebufferPitch, mb.framebufferBpp⟩
        present := true }

/-- `bpp_bytes` -/
def bppBytes (fb : Framebuffer) : ℕ := fb.hw.bpp / 8

/-- Store a word. -/
def store (fb : Framebuffer) (a color : ℕ) : Framebuffer :=
  { fb with mem := Function.update fb.mem a color }

/-- `framebuffer_draw_pixel` -/
def framebufferDrawPixel (fb : Framebuffer) (x y color : ℕ) : Framebuffer :=
  if !fb.present then fb
  else if x ≥ fb.hw.width ∨ y ≥ fb.hw.height then fb
  else
    let row := u32 (fb.hw.addr + y * fb.hw.pitch)
    let pixel := u32 (row + x * fb.bppBytes)
    fb.store pixel color

/-- `framebuffer_draw_rect` -/
def framebufferDrawRect (fb : Framebuffer) (x y w h color : ℕ) : Framebuffer :=
  if !fb.present then fb
  else if x ≥ fb.hw.width ∨ y ≥ fb.hw.height then fb
  else
    let w := if u32 (x + w) > fb.hw.width then fb.hw.width - x else w
    let h := if u32 (y + h) > fb.hw.height then fb.hw.height - y else h
    (List.range h).foldl (fun fb yy => (List.range w).foldl (fun fb xx =>
      let row := u32 (fb.hw.addr + u32 (y + yy) * fb.hw.pitch)
      fb.store (u32 (row + u32 (x + xx) * 4)) color) fb) fb

/-- `framebuffer_draw_glyph` -/
def framebufferDrawGlyph (fb : Framebuffer) (x y c fg bg scale : ℕ) : Framebuffer :=
  let glyph := font8x8Basic.getD c []
  let scale := if scale = 0 then 1 else scale
  (List.range 8).foldl (fun fb row => (List.range 8).foldl (fun fb col =>
    let bits := glyph.getD row 0
    let color := if bits &&& (1 <<< col) ≠ 0 then fg else bg
    let px := u32 (x + col * scale)
    let py := u32 (y + row * scale)
    (List.range scale).foldl (fun fb dy => (List.range scale).foldl (fun fb dx =>
      fb.framebufferDrawPixel (u32 (px + dx)) (u32 (py + dy)) color) fb) fb) fb) fb

/-! ## The console -/

/-- `framebuffer_console_configure` -/
def framebufferConsoleConfigure (fb : Framebuffer) (cols rows : ℕ) : Framebuffer :=
  if !fb.present then fb
  else
    let cellW := 8 * 2
    let cellH := 8 * 2
    let widthPx := u32 (cellW * cols)
    let heightPx := u32 (cellH * rows)
    { fb with console := { fb.console with
        cols := cols
        rows := rows
        glyphScale := 2
        cellW := cellW
        cellH := cellH
        originX := if fb.hw.width > widthPx then (fb.hw.width - widthPx) / 2 else 0
        originY := if fb.hw.height > u32 (heightPx + 32) then
          sub32 (sub32 fb.hw.height heightPx) 24 else 0
        visible := true
        configured := true } }

/-- `framebuffer_console_attach` -/
def framebufferConsoleAttach (fb : Framebuffer) : Framebuffer × Bool :=
  if !fb.present || !fb.console.configured then (fb, false)
  else ({ fb with console.active := true }, true)

/-- `framebuffer_console_draw_cell` -/
def framebufferConsoleDrawCell (fb : Framebuffer) (col row c attr : ℕ) : Framebuffer :=
  if !fb.console.active || !fb.console.visible then fb
  else if col ≥ fb.console.cols ∨ row ≥ fb.console.rows then fb
  else
    let fg := attrToColor attr true
    let bg := attrToColor attr false
    let x := u32 (fb.console.originX + col * fb.console.cellW)
    let y := u32 (fb.console.originY + row * fb.console.cellH)
    (fb.framebufferDrawRect x y fb.console.cellW fb.console.cellH bg).framebufferDrawGlyph x y c
      fg bg fb.console.glyphScale

/-- `framebuffer_console_full_refresh` -/
def framebufferConsoleFullRefresh (fb : Framebuffer) (buffer : ℕ → UInt16) (cols rows : ℕ) :
    Framebuffer :=
  if !fb.console.active || !fb.console.visible then fb
  else
    let other := cols ≠ fb.console.cols ∨ rows ≠ fb.console.rows
    let cols := if other then fb.console.cols else cols
    let rows := if other then fb.console.rows else rows
    (List.range rows).foldl (fun fb row => (List.range cols).foldl (fun fb col =>
      let entry := (buffer (row * cols + col)).toNat
      fb.framebufferConsoleDrawCell col row (entry &&& 0xFF) (entry >>> 8)) fb) fb

end Framebuffer

/-- The framebuffer behind the console. The serial console and the cursor register are
elsewhere. -/
instance : ConsoleDevices Framebuffer where
  serialPutc fb _ := fb
  attach := Framebuffer.framebufferConsoleAttach
  drawCell fb col row c attr := fb.framebufferConsoleDrawCell col row c.toNat attr.toNat
  fullRefresh := Framebuffer.framebufferConsoleFullRefresh
  setCursor fb _ := fb

/-! ## Where the pixels are -/

/-- The address of a pixel. -/
def FramebufferInfo.pixelAddr (hw : FramebufferInfo) (x y : ℕ) : ℕ :=
  hw.addr + y * hw.pitch + x * 4

/-- What a pixel looks like. -/
def Framebuffer.pixel (fb : Framebuffer) (x y : ℕ) : ℕ := fb.mem (fb.hw.pixelAddr x y)

/-- The rows do not overlap and lie inside the address space. -/
structure FramebufferInfo.Fits (hw : FramebufferInfo) : Prop where
  bpp : hw.bpp = 32
  row : hw.width * 4 ≤ hw.pitch
  size : hw.addr + hw.height * hw.pitch ≤ 4294967296
  width_lt : hw.width < 4294967296
  height_lt : hw.height < 4294967296

namespace FramebufferInfo.Fits

variable {hw : FramebufferInfo} {x y x' y' : ℕ}

theorem pixelAddr_lt (h : hw.Fits) (hx : x < hw.width) (hy : y < hw.height) :
    hw.pixelAddr x y < 4294967296 := by
  have hrow := h.row
  have hsize := h.size
  have hrows : (y + 1) * hw.pitch ≤ hw.height * hw.pitch := Nat.mul_le_mul_right _ hy
  rw [Nat.succ_mul] at hrows
  rw [pixelAddr]
  omega

/-- Different pixels are at different addresses. -/
theorem pixelAddr_inj (h : hw.Fits) (hx : x < hw.width) (hx' : x' < hw.width)
    (heq : hw.pixelAddr x y = hw.pixelAddr x' y') : x = x' ∧ y = y' := by
  have hrow := h.row
  have hpos : 0 < hw.pitch := by omega
  have hsum : x * 4 + y * hw.pitch = x' * 4 + y' * hw.pitch := by
    rw [pixelAddr, pixelAddr] at heq
    omega
  have hy : y = y' := by
    have hdiv : (x * 4 + y * hw.pitch) / hw.pitch = (x' * 4 + y' * hw.pitch) / hw.pitch := by
      rw [hsum]
    rwa [Nat.add_mul_div_right _ _ hpos, Nat.add_mul_div_right _ _ hpos,
      Nat.div_eq_of_lt (by omega), Nat.div_eq_of_lt (by omega), Nat.zero_add, Nat.zero_add] at hdiv
  subst hy
  exact ⟨by omega, rfl⟩

end FramebufferInfo.Fits

end PenOS
