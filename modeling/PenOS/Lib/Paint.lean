import Mathlib.Data.Set.Basic
import Mathlib.Tactic.Common

/-!
# Painting

`Paints` says what drawing code does as a whole: which points get which colour, the others being
left alone. Such descriptions compose, and a loop whose rounds paint different tiles paints the
tiling.
-/

namespace PenOS

variable {S P C : Type*}

/-- In every state that is `Ok`, `f` gives the points of `area` the colours of `paint`, and
leaves those alone that have none. -/
structure Paints (Ok : S → Prop) (area : Set P) (look : S → P → C) (f : S → S)
    (paint : P → Option C) : Prop where
  keeps : ∀ s, Ok s → Ok (f s)
  look_eq : ∀ s, Ok s → ∀ p ∈ area, look (f s) p = (paint p).getD (look s p)

namespace Paints

variable {Ok : S → Prop} {area : Set P} {look : S → P → C} {f g : S → S}
  {paint paint' : P → Option C}

theorem congr (h : Paints Ok area look f paint) (heq : ∀ p ∈ area, paint p = paint' p) :
    Paints Ok area look f paint' :=
  ⟨h.keeps, fun s hs p hp => by rw [h.look_eq s hs p hp, heq p hp]⟩

theorem of_eq (h : Paints Ok area look f paint) (heq : ∀ s, Ok s → g s = f s) :
    Paints Ok area look g paint :=
  ⟨fun s hs => by rw [heq s hs]; exact h.keeps s hs,
    fun s hs p hp => by rw [heq s hs]; exact h.look_eq s hs p hp⟩

theorem comp (hg : Paints Ok area look g paint') (hf : Paints Ok area look f paint) :
    Paints Ok area look (fun s => g (f s)) fun p => (paint' p).or (paint p) := by
  refine ⟨fun s hs => hg.keeps _ (hf.keeps s hs), fun s hs p hp => ?_⟩
  rw [hg.look_eq _ (hf.keeps s hs) p hp, hf.look_eq s hs p hp]
  cases paint' p <;> rfl

/-- **A loop over tiles**: `tile p` is the only round that can paint `p`. -/
theorem tiles {n : ℕ} {f : ℕ → S → S} {paint : ℕ → P → Option C} (tile : P → ℕ)
    (hf : ∀ i < n, Paints Ok area look (f i) (paint i))
    (htile : ∀ i p c, paint i p = some c → tile p = i) :
    Paints Ok area look (fun s => (List.range n).foldl (fun s i => f i s) s)
      fun p => if tile p < n then paint (tile p) p else none := by
  induction n with
  | zero => exact ⟨fun s hs => hs, fun s _ p _ => by rw [if_neg (Nat.not_lt_zero _)]; rfl⟩
  | succ n ih =>
    have hcomp := (hf n (Nat.lt_succ_self n)).comp (ih fun i hi => hf i (Nat.lt_succ_of_lt hi))
    have hloop : (fun s => (List.range (n + 1)).foldl (fun s i => f i s) s) =
        fun s => f n ((List.range n).foldl (fun s i => f i s) s) := by
      funext s
      rw [List.range_succ, List.foldl_append]
      rfl
    rw [hloop]
    refine hcomp.congr fun p _ => ?_
    cases hn : paint n p with
    | some c => rw [htile n p c hn, if_pos (Nat.lt_succ_self n), hn, Option.some_or]
    | none =>
      rw [Option.none_or]
      rcases Nat.lt_trichotomy (tile p) n with hlt | heq | hgt
      · rw [if_pos hlt, if_pos (Nat.lt_succ_of_lt hlt)]
      · rw [heq, if_neg (Nat.lt_irrefl n), if_pos (Nat.lt_succ_self n), hn]
      · rw [if_neg (by omega), if_neg (by omega)]

/-- The point `p` is in the box of width `w` and height `h` whose corner is at `x`, `y`. -/
abbrev InBox (x y w h : ℕ) (p : ℕ × ℕ) : Prop :=
  x ≤ p.1 ∧ p.1 < x + w ∧ y ≤ p.2 ∧ p.2 < y + h

/-- A point is in its tile of the grid. -/
theorem InBox.tile {x y w h w' h' : ℕ} {p : ℕ × ℕ} (hp : InBox x y w' h' p) (hw : 0 < w)
    (hh : 0 < h) : InBox (x + (p.1 - x) / w * w) (y + (p.2 - y) / h * h) w h p := by
  obtain ⟨hx, -, hy, -⟩ := hp
  have h1 := Nat.div_mul_le_self (p.1 - x) w
  have h2 := Nat.lt_div_mul_add hw (a := p.1 - x)
  have h3 := Nat.div_mul_le_self (p.2 - y) h
  have h4 := Nat.lt_div_mul_add hh (a := p.2 - y)
  exact ⟨by omega, by omega, by omega, by omega⟩

/-- The tile of a point. -/
theorem InBox.div_eq {x y w h col row : ℕ} {p : ℕ × ℕ}
    (hp : InBox (x + col * w) (y + row * h) w h p) : (p.1 - x) / w = col ∧ (p.2 - y) / h = row := by
  obtain ⟨h1, h2, h3, h4⟩ := hp
  refine ⟨Nat.div_eq_of_lt_le (by omega) ?_, Nat.div_eq_of_lt_le (by omega) ?_⟩
  all_goals
    rw [Nat.succ_mul]
    omega

/-- **A loop over the rows and columns of a grid** of tiles, `w` wide and `h` high. -/
theorem grid {area : Set (ℕ × ℕ)} {look : S → ℕ × ℕ → C} {f : ℕ → ℕ → S → S}
    {paint : ℕ → ℕ → ℕ × ℕ → Option C} {rows cols x y w h : ℕ}
    (hf : ∀ row < rows, ∀ col < cols, Paints Ok area look (f row col) (paint row col))
    (hin : ∀ row col p c, paint row col p = some c → InBox (x + col * w) (y + row * h) w h p) :
    Paints Ok area look (fun s => (List.range rows).foldl (fun s row =>
        (List.range cols).foldl (fun s col => f row col s) s) s)
      fun p => if InBox x y (cols * w) (rows * h) p then
        paint ((p.2 - y) / h) ((p.1 - x) / w) p else none := by
  have hcols : ∀ row < rows, Paints Ok area look
      (fun s => (List.range cols).foldl (fun s col => f row col s) s)
      fun p => if (p.1 - x) / w < cols then paint row ((p.1 - x) / w) p else none := by
    intro row hrow
    exact tiles (fun p => (p.1 - x) / w) (hf row hrow) fun col p c hc =>
      (hin row col p c hc).div_eq.1
  refine (tiles (fun p => (p.2 - y) / h) hcols fun row p c hc => ?_).congr fun p _ => ?_
  · split_ifs at hc
    exact (hin row _ p c hc).div_eq.2
  · cases hc : paint ((p.2 - y) / h) ((p.1 - x) / w) p with
    | none => simp only [ite_self]
    | some c =>
      obtain ⟨h1, h2, h3, h4⟩ := hin _ _ p c hc
      have hw : 0 < w := by omega
      have hh : 0 < h := by omega
      have hcol : (p.1 - x) / w < cols ↔ p.1 < x + cols * w := by
        rw [Nat.div_lt_iff_lt_mul hw]
        omega
      have hrow : (p.2 - y) / h < rows ↔ p.2 < y + rows * h := by
        rw [Nat.div_lt_iff_lt_mul hh]
        omega
      have hx : x ≤ p.1 := le_trans (Nat.le_add_right _ _) h1
      have hy : y ≤ p.2 := le_trans (Nat.le_add_right _ _) h3
      simp only [InBox, hcol, hrow, hx, hy, true_and]
      by_cases hpx : p.1 < x + cols * w <;> by_cases hpy : p.2 < y + rows * h <;> simp [hpx, hpy]

end Paints

end PenOS
