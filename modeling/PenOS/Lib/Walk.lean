import Mathlib.Data.List.Nodup
import Mathlib.Logic.Function.Iterate

/-!
# Lists threaded through a table

A table that gives each entry a successor holds lists: one reads a number of entries from a
start (`walk`), or follows them as long as there is one more (`chase`).
-/

namespace PenOS

open List

variable {α : Type*} {next next' : α → α} {more more' : α → Bool} {a : α} {l : List α}

/-- The first `n` entries from `a` on. -/
def walk (next : α → α) : ℕ → α → List α
  | 0, _ => []
  | n + 1, a => a :: walk next n (next a)

/-- The entries from `a` on up to the first one without `more`, if there is one
among the first `n`. -/
def chase (next : α → α) (more : α → Bool) : ℕ → α → Option (List α)
  | 0, _ => none
  | n + 1, a => if more a then (chase next more n (next a)).map (a :: ·) else some [a]

@[simp] theorem length_walk (next : α → α) (n : ℕ) (a : α) : (walk next n a).length = n := by
  induction n generalizing a with
  | zero => rfl
  | succ n ih => rw [walk, length_cons, ih]

theorem walk_congr {n : ℕ} (h : ∀ x ∈ walk next n a, next' x = next x) :
    walk next' n a = walk next n a := by
  induction n generalizing a with
  | zero => rfl
  | succ n ih =>
    have hhead : next' a = next a := h a mem_cons_self
    rw [walk, walk, hhead, ih fun x hx => h x (mem_cons_of_mem a hx)]

theorem walk_add (next : α → α) (m n : ℕ) (a : α) :
    walk next (m + n) a = walk next m a ++ walk next n (next^[m] a) := by
  induction m generalizing a with
  | zero => simp [walk]
  | succ m ih =>
    rw [Nat.add_right_comm, walk, walk, ih, Function.iterate_succ_apply, cons_append]

/-- Entries that follow each other are walked in order. -/
theorem walk_eq_range' {next : ℕ → ℕ} {n a : ℕ}
    (h : ∀ i, a ≤ i → i + 1 < a + n → next i = i + 1) : walk next n a = List.range' a n := by
  induction n generalizing a with
  | zero => rfl
  | succ n ih =>
    rw [walk, range'_succ]
    cases n with
    | zero => rfl
    | succ n => rw [h a (Nat.le_refl a) (by omega), ih fun i hi hlt => h i (by omega) (by omega)]

/-- A chase starts where it was told to. -/
theorem chase_cons {n : ℕ} (h : chase next more n a = some l) : ∃ n' xs, n = n' + 1 ∧ l = a :: xs ∧
      ((more a = false ∧ xs = []) ∨ (more a = true ∧ chase next more n' (next a) = some xs)) := by
  cases n with
  | zero => cases h
  | succ n =>
    rw [chase] at h
    split at h
    · obtain ⟨xs, hxs, rfl⟩ := Option.map_eq_some_iff.mp h
      exact ⟨n, xs, rfl, rfl, Or.inr ⟨by assumption, hxs⟩⟩
    · rename_i hmore
      exact ⟨n, [], rfl, (Option.some.inj h).symm, Or.inl ⟨by simpa using hmore, rfl⟩⟩

theorem chase_congr {n : ℕ} (h : chase next more n a = some l)
    (heq : ∀ x ∈ l, next' x = next x ∧ more' x = more x) : chase next' more' n a = some l := by
  induction n generalizing a l with
  | zero => cases h
  | succ n ih =>
    obtain ⟨n', xs, hn, rfl, hcase⟩ := chase_cons h
    obtain rfl := Nat.succ.inj hn
    obtain ⟨hnext, hmore⟩ := heq a mem_cons_self
    rw [chase, hmore, hnext]
    rcases hcase with ⟨hlast, rfl⟩ | ⟨hgo, hrest⟩
    · rw [hlast]
      rfl
    · rw [hgo, if_pos rfl, ih hrest fun x hx => heq x (mem_cons_of_mem a hx)]
      rfl

/-- More steps than needed change nothing. -/
theorem chase_mono {m n : ℕ} (h : chase next more n a = some l) (hmn : n ≤ m) :
    chase next more m a = some l := by
  induction n generalizing m a l with
  | zero => cases h
  | succ n ih =>
    obtain ⟨n', xs, hn, rfl, hcase⟩ := chase_cons h
    obtain rfl := Nat.succ.inj hn
    obtain ⟨m, rfl⟩ : ∃ m', m = m' + 1 := ⟨m - 1, by omega⟩
    rw [chase]
    rcases hcase with ⟨hlast, rfl⟩ | ⟨hgo, hrest⟩
    · rw [hlast]
      rfl
    · rw [hgo, if_pos rfl, ih hrest (by omega)]
      rfl

end PenOS
