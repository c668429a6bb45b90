import Mathlib.Tactic.Common

/-!
# Loops with a counter

Loops over an interval of numbers that change a state, possibly stopping with an error.
-/

namespace PenOS

variable {β ε : Type*} {P : ℕ → β → Prop} {n : ℕ} {b : β}

variable {E : Prop} {α : Type*}

/-- A loop that cannot fail. -/
theorem foldl_range'_induct {f : β → ℕ → β} (a : ℕ) (h0 : P 0 b)
    (hstep : ∀ k < n, ∀ b, P k b → P (k + 1) (f b (a + k))) :
    P n ((List.range' a n).foldl f b) := by
  induction n with
  | zero => exact h0
  | succ n ih =>
    rw [List.range'_concat, List.foldl_append, Nat.one_mul]
    exact hstep n (Nat.lt_succ_self n) _ (ih fun k hk => hstep k (Nat.lt_succ_of_lt hk))

variable {f : β → ℕ → Except ε β}

theorem foldlM_range_succ (f : β → ℕ → Except ε β) (n : ℕ) (b : β) :
    (List.range (n + 1)).foldlM f b = (List.range n).foldlM f b >>= fun b => f b n := by
  rw [List.range_succ, List.foldlM_append]
  simp only [List.foldlM_cons, List.foldlM_nil, bind_pure]

theorem bind_ok {α γ : Type} {x : Except ε α} {f : α → Except ε γ} {c : γ}
    (h : x >>= f = .ok c) : ∃ a, x = .ok a ∧ f a = .ok c := by
  cases x with
  | error e => cases h
  | ok a => exact ⟨a, rfl, h⟩

/-- A result that is mapped. -/
theorem map_ok {γ : Type*} {x : Except ε α} {g : α → γ} {c : γ} (h : x.map g = .ok c) :
    ∃ a, x = .ok a ∧ g a = c := by
  rcases x with e | a
  · cases h
  · exact ⟨a, rfl, Except.ok.inj h⟩

/-- `x` gives a result with the property `Q`, or fails, if `E` allows that. -/
def Ends {α : Type*} (E : Prop) (x : Except ε α) (Q : α → Prop) : Prop :=
  match x with
  | .ok a => Q a
  | .error _ => E

theorem Ends.of_ok {x : Except ε α} {Q : α → Prop} {a : α}
    (h : Ends E x Q) (hx : x = .ok a) : Q a := by
  rw [hx] at h
  exact h

theorem Ends.of_forall {x : Except ε α} {Q : α → Prop} (h : ∀ a, x = .ok a → Q a) :
    Ends True x Q := by
  cases x with
  | error e => exact trivial
  | ok a => exact h a rfl

/-- What must not fail gives a result. -/
theorem Ends.exists_ok {x : Except ε α} {Q : α → Prop} (h : Ends False x Q) :
    ∃ a, x = .ok a ∧ Q a := by
  cases x with
  | error e => exact h.elim
  | ok a => exact ⟨a, rfl, h⟩

theorem Ends.mono {x : Except ε α} {Q Q' : α → Prop} (h : Ends E x Q)
    (hQ : ∀ a, x = .ok a → Q a → Q' a) : Ends E x Q' := by
  cases x with
  | error e => exact h
  | ok a => exact hQ a rfl h

/-- **A loop that may fail**: the invariant after the last round, unless a round failed. -/
theorem foldlM_range_ends (h0 : P 0 b) (hstep : ∀ k < n, ∀ b, P k b → Ends E (f b k) (P (k + 1))) :
    Ends E ((List.range n).foldlM f b) (P n) := by
  induction n with
  | zero => exact h0
  | succ n ih =>
    have hn := ih fun k hk => hstep k (Nat.lt_succ_of_lt hk)
    rw [foldlM_range_succ]
    rcases hloop : (List.range n).foldlM f b with e | b1
    · rw [hloop] at hn
      exact hn
    · exact hstep n (Nat.lt_succ_self n) b1 (hn.of_ok hloop)

theorem foldlM_range_induct {b' : β} (h0 : P 0 b)
    (hstep : ∀ k < n, ∀ b b', P k b → f b k = .ok b' → P (k + 1) b')
    (h : (List.range n).foldlM f b = .ok b') : P n b' := by
  exact (foldlM_range_ends h0 fun k hk b1 hb1 =>
    Ends.of_forall fun b2 hf => hstep k hk b1 b2 hb1 hf).of_ok h

theorem foldlM_range_ok (h0 : P 0 b)
    (hstep : ∀ k < n, ∀ b, P k b → ∃ b', f b k = .ok b' ∧ P (k + 1) b') :
    ∃ b', (List.range n).foldlM f b = .ok b' ∧ P n b' := by
  refine (foldlM_range_ends (E := False) h0 fun k hk b1 hb1 => ?_).exists_ok
  obtain ⟨b2, hf, hb2⟩ := hstep k hk b1 hb1
  rw [hf]
  exact hb2

/-- A loop in which only the first round does anything. -/
theorem foldlM_range_first {b' : β} (h0 : f b 0 = .ok b')
    (hrest : ∀ k, 0 < k → f b' k = .ok b') : (List.range (n + 1)).foldlM f b = .ok b' := by
  have hstep : ∀ k < n + 1, ∀ b1, (b1 = if k = 0 then b else b') →
      ∃ b2, f b1 k = .ok b2 ∧ b2 = if k + 1 = 0 then b else b' := by
    rintro k - b1 rfl
    rcases k.eq_zero_or_pos with rfl | hk
    · exact ⟨b', h0, rfl⟩
    · rw [if_neg (Nat.ne_of_gt hk)]
      exact ⟨b', hrest k hk, rfl⟩
  obtain ⟨b1, hrun, hb1⟩ := foldlM_range_ok (b := b)
    (P := fun k b1 => b1 = if k = 0 then b else b') rfl hstep
  rw [hrun, hb1, if_neg n.succ_ne_zero]

end PenOS
