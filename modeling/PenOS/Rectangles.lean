import Mathlib.Data.List.Induction
import PenOS.ConsolePixels

/-!
# Rectangles

`framebuffer_draw_rect` cuts a rectangle to the screen by comparing the sums `x + w` and `y + h`
with its sizes. The sums have 32 bits: one that wraps passes the test, and the loops run out of
the screen.
-/

namespace PenOS

/-- The address at which `framebuffer_draw_pixel` sets a pixel, in 32 bits. -/
def FramebufferInfo.pixelWord (hw : FramebufferInfo) (x y : ℕ) : ℕ :=
  u32 (u32 (hw.addr + y * hw.pitch) + x * 4)

/-- The pixel is one of the screen and of the rectangle. -/
def FramebufferInfo.InRect (hw : FramebufferInfo) (x y w h px py : ℕ) : Prop :=
  Paints.InBox x y w h (px, py) ∧ px < hw.width ∧ py < hw.height

/-- Drawing the rectangle gives its pixels on the screen the colour and changes nothing else. -/
def FramebufferInfo.Clips (hw : FramebufferInfo) (x y w h : ℕ) : Prop :=
  ∀ (fb : Framebuffer) (color : ℕ), fb.hw = hw → fb.present = true →
    ∃ mem, fb.framebufferDrawRect x y w h color = { fb with mem := mem } ∧
      (∀ px py, hw.InRect x y w h px py → mem (hw.pixelWord px py) = color) ∧
      ∀ a, (∀ px py, hw.InRect x y w h px py → a ≠ hw.pixelWord px py) → mem a = fb.mem a

/-- The rectangle starts outside of the screen, is empty or has a far corner of 32 bits. -/
abbrev FramebufferInfo.RectFits (hw : FramebufferInfo) (x y w h : ℕ) : Prop :=
  (x ≥ hw.width ∨ y ≥ hw.height) ∨ (w = 0 ∨ h = 0) ∨ (x + w < 4294967296 ∧ y + h < 4294967296)

namespace Framebuffer

theorem foldl_store {ι : Type} (addr : FramebufferInfo → ι → ℕ) (color : ℕ) (l : List ι)
    (fb : Framebuffer) :
    ∃ mem, l.foldl (fun fb i => fb.store (addr fb.hw i) color) fb = { fb with mem := mem } ∧
      (∀ i ∈ l, mem (addr fb.hw i) = color) ∧
      ∀ a, (∀ i ∈ l, a ≠ addr fb.hw i) → mem a = fb.mem a := by
  induction l using List.reverseRecOn with
  | nil => exact ⟨fb.mem, rfl, by simp, by simp⟩
  | append_singleton l i ih =>
    obtain ⟨mem, heq, hin, hout⟩ := ih
    refine ⟨Function.update mem (addr fb.hw i) color, ?_, fun j hj => ?_, fun a ha => ?_⟩
    · rw [List.foldl_append, heq]
      rfl
    · by_cases hji : addr fb.hw j = addr fb.hw i
      · rw [hji, Function.update_self]
      · rw [Function.update_of_ne hji]
        rcases List.mem_append.mp hj with hj | hj
        · exact hin j hj
        · exact absurd (by rw [List.mem_singleton.mp hj]) hji
    · rw [Function.update_of_ne (ha i (by simp)), hout a fun j hj => ha j (by simp [hj])]

/-- What the loops of `framebuffer_draw_rect` write, `w'` and `h'` being the sizes after the
tests. -/
theorem framebufferDrawRect_mem (fb : Framebuffer) {x y : ℕ} (w h color : ℕ)
    (hpresent : fb.present = true) (hx : x < fb.hw.width) (hy : y < fb.hw.height) {w' h' : ℕ}
    (hw' : w' = if u32 (x + w) > fb.hw.width then fb.hw.width - x else w)
    (hh' : h' = if u32 (y + h) > fb.hw.height then fb.hw.height - y else h) :
    ∃ mem, fb.framebufferDrawRect x y w h color = { fb with mem := mem } ∧
      (∀ xx < w', ∀ yy < h', mem (fb.hw.pixelWord (u32 (x + xx)) (u32 (y + yy))) = color) ∧
      ∀ a, (∀ xx < w', ∀ yy < h', a ≠ fb.hw.pixelWord (u32 (x + xx)) (u32 (y + yy))) →
        mem a = fb.mem a := by
  obtain ⟨mem, heq, hin, hout⟩ := foldl_store
    (fun hw (i : ℕ × ℕ) => hw.pixelWord (u32 (x + i.2)) (u32 (y + i.1))) color
    ((List.range h').flatMap fun yy => (List.range w').map (yy, ·)) fb
  refine ⟨mem, ?_, fun xx hxx yy hyy => ?_, fun a ha => ?_⟩
  · rw [← heq, framebufferDrawRect, hpresent, if_neg (by decide),
      if_neg (by omega : ¬(x ≥ fb.hw.width ∨ y ≥ fb.hw.height))]
    simp only [← hw', ← hh']
    rw [List.foldl_flatMap]
    simp only [List.foldl_map]
    rfl
  · exact hin (yy, xx) (by simp [hxx, hyy])
  · refine hout a ?_
    simp only [List.mem_flatMap, List.mem_map, List.mem_range]
    rintro i ⟨yy, hyy, xx, hxx, rfl⟩
    exact ha xx hxx yy hyy

end Framebuffer

namespace FramebufferInfo

variable {hw : FramebufferInfo} {x y w h : ℕ}

theorem clips_of_outside (hout : x ≥ hw.width ∨ y ≥ hw.height) : hw.Clips x y w h := by
  rintro fb color rfl hpresent
  refine ⟨fb.mem, ?_, ?_, fun _ _ => rfl⟩
  · rw [Framebuffer.framebufferDrawRect, if_neg (by simp [hpresent]), if_pos hout]
  · rintro px py ⟨⟨hpx, -, hpy, -⟩, hpw, hph⟩
    simp only at hpx hpy
    omega

variable (hwidth : hw.width < 4294967296) (hheight : hw.height < 4294967296)
  (hx : x < hw.width) (hy : y < hw.height)

include hwidth hheight hx hy

theorem clips_of_empty (hempty : w = 0 ∨ h = 0) : hw.Clips x y w h := by
  rintro fb color rfl hpresent
  obtain ⟨mem, heq, -, hkept⟩ := fb.framebufferDrawRect_mem w h color hpresent hx hy rfl rfl
  refine ⟨mem, heq, ?_, fun a _ => hkept a fun xx hxx yy hyy => ?_⟩
  · rintro px py ⟨⟨hpx, hpx', hpy, hpy'⟩, -, -⟩
    simp only at hpx hpx' hpy hpy'
    omega
  · rcases hempty with rfl | rfl
    · rw [Nat.add_zero, u32_of_lt (by omega), if_neg (by omega)] at hxx
      exact absurd hxx (Nat.not_lt_zero _)
    · rw [Nat.add_zero, u32_of_lt (by omega), if_neg (by omega)] at hyy
      exact absurd hyy (Nat.not_lt_zero _)

theorem clips_of_lt (hxw : x + w < 4294967296) (hyh : y + h < 4294967296) :
    hw.Clips x y w h := by
  rintro fb color rfl hpresent
  obtain ⟨mem, heq, hset, hkept⟩ :=
    fb.framebufferDrawRect_mem w h color hpresent hx hy rfl rfl
  rw [u32_of_lt hxw, u32_of_lt hyh] at hset hkept
  refine ⟨mem, heq, ?_, fun a ha => hkept a ?_⟩
  · rintro px py ⟨⟨hpx, hpx', hpy, hpy'⟩, hpw, hph⟩
    simp only at hpx hpx' hpy hpy'
    have hpixel := hset (px - x) (by split_ifs <;> omega) (py - y) (by split_ifs <;> omega)
    rwa [Nat.add_sub_cancel' hpx, Nat.add_sub_cancel' hpy, u32_of_lt (by omega),
      u32_of_lt (by omega)] at hpixel
  · intro xx hxx yy hyy
    have hcol : x + xx < x + w ∧ x + xx < fb.hw.width := by split_ifs at hxx <;> omega
    have hrow : y + yy < y + h ∧ y + yy < fb.hw.height := by split_ifs at hyy <;> omega
    rw [u32_of_lt (n := x + xx) (by omega), u32_of_lt (n := y + yy) (by omega)]
    exact ha _ _ ⟨⟨by simp, hcol.1, by simp, hrow.1⟩, hcol.2, hrow.2⟩

omit hwidth hheight hx hy

/-- The word behind the last column is none of the pixels further down, the first column
apart. -/
theorem Fits.column_ne (hfit : hw.Fits) {px py : ℕ} (hx : 0 < px) (hpx : px < hw.width)
    (hyp : y ≤ py) (hpy : py < hw.height) : hw.pixelWord hw.width y ≠ hw.pixelWord px py := by
  have hrow := hfit.row
  have hsize := hfit.size
  have hlast : (y + 1) * hw.pitch ≤ hw.height * hw.pitch := Nat.mul_le_mul_right _ (by omega)
  have hrows : y = py ∨ (y + 1) * hw.pitch ≤ py * hw.pitch :=
    (eq_or_lt_of_le hyp).imp_right fun hlt => Nat.mul_le_mul_right _ hlt
  rw [Nat.succ_mul] at hlast hrows
  have hpixel : hw.pixelWord px py = hw.addr + py * hw.pitch + px * 4 := pixelAddr_eq hfit hpx hpy
  rw [hpixel]
  simp only [pixelWord, u32]
  rcases hrows with rfl | hrows <;> omega

/-- The word behind the last row is none of the pixels further right, the first row apart. -/
theorem Fits.row_ne (hfit : hw.Fits) {px py : ℕ} (hxp : x ≤ px) (hpx : px < hw.width)
    (hy : 0 < py) (hpy : py < hw.height) : hw.pixelWord x hw.height ≠ hw.pixelWord px py := by
  have hrow := hfit.row
  have hsize := hfit.size
  have hlast : (py + 1) * hw.pitch ≤ hw.height * hw.pitch := Nat.mul_le_mul_right _ hpy
  have hfirst : 1 * hw.pitch ≤ py * hw.pitch := Nat.mul_le_mul_right _ hy
  rw [Nat.succ_mul] at hlast
  have hpixel : hw.pixelWord px py = hw.addr + py * hw.pitch + px * 4 := pixelAddr_eq hfit hpx hpy
  rw [hpixel]
  simp only [pixelWord, u32]
  omega

/-- A sum that wraps passes the test and leaves the size as it is. -/
theorem size_of_wrap {s : ℕ} (hx : x < s) (hs : s < 4294967296) (hw : w < 4294967296)
    (hwrap : 4294967296 ≤ x + w) :
    (if u32 (x + w) > s then s - x else w) = w ∧ 0 < x ∧ s - x < w := by
  have hsum : u32 (x + w) = x + w - 4294967296 := by
    simp only [u32]
    omega
  rw [hsum, if_neg (by omega)]
  omega

theorem size_pos {s : ℕ} (hx : x < s) (hw : 0 < w) :
    0 < if u32 (x + w) > s then s - x else w := by
  split_ifs <;> omega

/-- A rectangle that is not empty and whose sizes wrap is not clipped. -/
theorem Fits.not_clips (hfit : hw.Fits) (hx : x < hw.width) (hy : y < hw.height)
    (hw32 : 0 < w ∧ w < 4294967296) (hh32 : 0 < h ∧ h < 4294967296)
    (hwrap : 4294967296 ≤ x + w ∨ 4294967296 ≤ y + h) : ¬hw.Clips x y w h := by
  intro hclips
  have hwidth := hfit.width_lt
  have hheight := hfit.height_lt
  -- on a black picture the word behind the columns or the rows turns white
  let fb : Framebuffer :=
    ⟨hw, true, ⟨0, 0, 0, 0, 0, 0, 0, false, false, false⟩, fun _ => 0⟩
  obtain ⟨mem, heq, -, hout⟩ := hclips fb 1 rfl rfl
  obtain ⟨mem', heq', hset, -⟩ :=
    fb.framebufferDrawRect_mem w h 1 rfl hx hy rfl rfl
  obtain rfl : mem' = mem := (Framebuffer.mk.inj (heq'.symm.trans heq)).2.2.2
  rcases hwrap with hwrap | hwrap
  · obtain ⟨hsize, hpos, hlt⟩ := size_of_wrap hx hwidth hw32.2 hwrap
    have hwhite := hset (hw.width - x) (by rw [hsize]; exact hlt) 0 (size_pos hy hh32.1)
    rw [Nat.add_sub_cancel' hx.le, u32_of_lt hwidth, Nat.add_zero, u32_of_lt (by omega)] at hwhite
    rw [hout _ fun px py hp => hfit.column_ne (hpos.trans_le hp.1.1) hp.2.1 hp.1.2.2.1 hp.2.2]
      at hwhite
    exact absurd hwhite zero_ne_one
  · obtain ⟨hsize, hpos, hlt⟩ := size_of_wrap hy hheight hh32.2 hwrap
    have hwhite := hset 0 (size_pos hx hw32.1) (hw.height - y) (by rw [hsize]; exact hlt)
    rw [Nat.add_sub_cancel' hy.le, u32_of_lt hheight, Nat.add_zero, u32_of_lt (by omega)] at hwhite
    rw [hout _ fun px py hp => hfit.row_ne hp.1.1 hp.2.1 (hpos.trans_le hp.1.2.2.1) hp.2.2]
      at hwhite
    exact absurd hwhite zero_ne_one

end FramebufferInfo

/-- **Rectangles are clipped to the screen** if they start outside, are empty or have a far corner
of 32 bits; where the screen fits into memory, only then. -/
theorem rect_clipped_iff (hw : FramebufferInfo) (hwidth : hw.width < 4294967296)
    (hheight : hw.height < 4294967296) (x y w h : UInt32) :
    (hw.RectFits x.toNat y.toNat w.toNat h.toNat → hw.Clips x.toNat y.toNat w.toNat h.toNat) ∧
      (hw.Fits → hw.Clips x.toNat y.toNat w.toNat h.toNat →
        hw.RectFits x.toNat y.toNat w.toNat h.toNat) := by
  have hw32 := w.toNat_lt
  have hh32 := h.toNat_lt
  by_cases hout : x.toNat ≥ hw.width ∨ y.toNat ≥ hw.height
  · exact ⟨fun _ => FramebufferInfo.clips_of_outside hout, fun _ _ => Or.inl hout⟩
  have hx : x.toNat < hw.width := by omega
  have hy : y.toNat < hw.height := by omega
  constructor
  · rintro (hout' | hempty | hlt)
    · exact absurd hout' hout
    · exact FramebufferInfo.clips_of_empty hwidth hheight hx hy hempty
    · exact FramebufferInfo.clips_of_lt hwidth hheight hx hy hlt.1 hlt.2
  · intro hfit hclips
    by_contra hbad
    simp only [FramebufferInfo.RectFits, not_or, not_and_or, not_lt] at hbad
    exact hfit.not_clips hx hy ⟨by omega, hw32⟩ ⟨by omega, hh32⟩ hbad.2.2 hclips

/-- A screen of 640 by 480 pixels clips a rectangle of 700 by 500. -/
theorem rect_clipped_large :
    (⟨0xE0000000, 640, 480, 2560, 32⟩ : FramebufferInfo).Clips 10 10 700 500 :=
  (rect_clipped_iff ⟨0xE0000000, 640, 480, 2560, 32⟩ (by decide) (by decide) 10 10 700 500).1
    (by decide)

/-- A rectangle of the full 32-bit width from the second column on is drawn past the end of the
row. -/
theorem wide_rect_not_clipped :
    ¬(⟨0xE0000000, 640, 480, 2560, 32⟩ : FramebufferInfo).Clips 1 0 0xFFFFFFFF 1 :=
  FramebufferInfo.Fits.not_clips ⟨by decide, by decide, by decide, by decide, by decide⟩ (by decide)
    (by decide) (by decide) (by decide) (by decide)

end PenOS
