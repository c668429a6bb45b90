import Mathlib.Data.List.TakeWhile
import PenOS.Lib.Bytes

/-!
# Strings in memory and the names in them

A C string is a run of bytes that ends with a zero byte. A loop that goes on while a condition holds
that a zero byte does not satisfy comes to where `takeWhile` ends. Separators cut a list into its
*fields*, the longest pieces without one.
-/

namespace PenOS

open List

/-! ## Fields of a list -/

section Fields

variable {α : Type*} {p : α → Bool} {a : α} {l w : List α}

/-- The longest nonempty pieces of a list without an element that satisfies `p`, in order. -/
def fields (p : α → Bool) (l : List α) : List (List α) :=
  (l.splitOnP p).filter fun w => !w.isEmpty

@[simp] theorem fields_nil : fields p [] = [] := by simp [fields]

theorem fields_cons_of_sep (ha : p a = true) : fields p (a :: l) = fields p l := by
  simp [fields, splitOnP_cons_eq_if_modifyHead, ha]

theorem fields_dropWhile (p : α → Bool) (l : List α) : fields p (l.dropWhile p) = fields p l := by
  induction l with
  | nil => rfl
  | cons a l ih =>
    by_cases ha : p a = true
    · rw [dropWhile_cons_of_pos ha, ih, fields_cons_of_sep ha]
    · rw [dropWhile_cons_of_neg ha]

theorem of_dropWhile_eq_cons (h : l.dropWhile p = a :: w) : p a = false := by
  have hhead := head_dropWhile_not p (l := l) (by simp [h])
  simpa [h] using hhead

theorem fields_of_forall (hw : ∀ x ∈ w, p x = false) (hne : w ≠ []) : fields p w = [w] := by
  rw [fields, splitOnP_eq_singleton hw]
  simp [hne]

theorem fields_append_sep (hw : ∀ x ∈ w, p x = false) (hne : w ≠ []) (ha : p a = true) :
    fields p (w ++ a :: l) = w :: fields p l := by
  rw [fields, splitOnP_append_cons_of_forall_mem hw a ha]
  simp [fields, hne]

theorem fields_append (ha : p a = true) : fields p (l ++ a :: w) = fields p l ++ fields p w := by
  rw [fields, splitOnP_append_cons l w ha, filter_append]
  rfl

/-- The first field of a list that does not begin with a separator. -/
theorem fields_eq_cons (ha : p a = false) :
    fields p (a :: l) = (a :: l).takeWhile (fun x => !p x) ::
      fields p (((a :: l).dropWhile fun x => !p x).drop 1) := by
  have hsplit := takeWhile_append_dropWhile (p := fun x => !p x) (l := a :: l)
  have hw : ∀ x ∈ (a :: l).takeWhile (fun x => !p x), p x = false := by
    intro x hx
    simpa using mem_takeWhile_imp hx
  have hne : (a :: l).takeWhile (fun x => !p x) ≠ [] := by simp [ha]
  rcases hrest : (a :: l).dropWhile (fun x => !p x) with _ | ⟨b, rest⟩
  · rw [hrest, append_nil] at hsplit
    rw [drop_nil, fields_nil, hsplit]
    rw [hsplit] at hw
    exact fields_of_forall hw (by simp)
  · have hb : p b = true := by simpa using of_dropWhile_eq_cons hrest
    conv_lhs => rw [← hsplit, hrest]
    exact fields_append_sep hw hne hb

/-- The fields are all there is apart from the separators. -/
theorem flatten_fields (p : α → Bool) (l : List α) :
    (fields p l).flatten = l.filter fun x => !p x := by
  rw [fields, flatten_filter_not_isEmpty]
  induction l with
  | nil => rfl
  | cons a l ih =>
    rw [splitOnP_cons_eq_if_modifyHead]
    by_cases ha : p a = true
    · rw [if_pos ha, flatten_cons, nil_append, ih, filter_cons_of_neg (by simp [ha])]
    · rw [if_neg ha, filter_cons_of_pos (by simp [ha]), ← ih]
      rcases hs : l.splitOnP p with _ | ⟨w, ws⟩
      · exact absurd hs (splitOnP_ne_nil _ _)
      · rfl

theorem length_flatten_fields_le (p : α → Bool) (l : List α) :
    (fields p l).flatten.length ≤ l.length := by
  rw [flatten_fields]
  exact length_filter_le _ _

theorem length_le_of_mem_fields (hw : w ∈ fields p l) : w.length ≤ l.length :=
  (sublist_flatten_of_mem hw).length_le.trans (length_flatten_fields_le p l)

/-- No field is empty, so there are at most as many as there are elements. -/
theorem length_fields_le (p : α → Bool) (l : List α) : (fields p l).length ≤ l.length := by
  refine le_trans ?_ (length_flatten_fields_le p l)
  have hne : ∀ w ∈ fields p l, w ≠ [] := by
    intro w hw
    simpa using (List.mem_filter.mp hw).2
  generalize fields p l = ws at hne
  induction ws with
  | nil => exact le_refl _
  | cons w ws ih =>
    obtain ⟨hw, hws⟩ := List.forall_mem_cons.mp hne
    have hpos := List.length_pos_iff.mpr hw
    have hrest := ih hws
    rw [length_cons, flatten_cons, length_append]
    omega

end Fields

/-! ## Strings in memory -/

namespace Mem

variable {m m' : Mem} {a fuel : ℕ} {p : UInt8 → Bool} {l w : List UInt8}

/-- The bytes from `a` on are those of `l`, none of them zero, and then comes a zero byte. -/
def IsStr (m : Mem) : ℕ → List UInt8 → Prop
  | a, [] => m a = 0
  | a, c :: l => m a = c ∧ c ≠ 0 ∧ m.IsStr (a + 1) l

/-- Go on from `a` while the bytes satisfy `p`. -/
def skipWhile (m : Mem) (p : UInt8 → Bool) : ℕ → ℕ → ℕ
  | 0, a => a
  | fuel + 1, a => if p (m a) then m.skipWhile p fuel (a + 1) else a

/-- A list of bytes and a zero behind it. -/
theorem isStr_of_getD (h0 : 0 ∉ l) (h : ∀ k ≤ l.length, m (a + k) = l.getD k 0) : m.IsStr a l := by
  induction l generalizing a with
  | nil => exact h 0 (le_refl _)
  | cons c l ih =>
    rw [mem_cons, not_or] at h0
    refine ⟨h 0 (Nat.zero_le _), fun hc => h0.1 hc.symm, ih h0.2 fun k hk => ?_⟩
    have hstep := h (k + 1) (by simpa using hk)
    rw [getD_cons_succ] at hstep
    rw [← hstep]
    congr 1
    omega

theorem IsStr.congr (h : m.IsStr a l) (heq : ∀ x, a ≤ x → x ≤ a + l.length → m' x = m x) :
    m'.IsStr a l := by
  induction l generalizing a with
  | nil => exact (heq a (by omega) (by simp)).trans h
  | cons c l ih =>
    rw [length_cons] at heq
    obtain ⟨hc, hne, hl⟩ := h
    exact ⟨(heq a (by omega) (by omega)).trans hc, hne, ih hl fun x hx hx' =>
      heq x (by omega) (by omega)⟩

theorem IsStr.of_append (h : m.IsStr a (w ++ l)) : m.IsStr (a + w.length) l := by
  induction w generalizing a with
  | nil => exact h
  | cons c w ih =>
    have hrest := ih h.2.2
    rwa [Nat.add_assoc, Nat.add_comm 1, ← length_cons] at hrest

theorem IsStr.head_eq_zero (h : m.IsStr a l) : m a = 0 ↔ l = [] := by
  cases l with
  | nil => exact ⟨fun _ => rfl, fun _ => h⟩
  | cons c l => exact ⟨fun h0 => absurd (h.1.symm.trans h0) h.2.1, by simp⟩

/-- A loop that a zero byte ends stops inside the string; what it says of a zero byte is of
no other matter. -/
theorem IsStr.skipWhile {q : UInt8 → Bool} (h : m.IsStr a l) (h0 : p 0 = false)
    (hpq : ∀ c, c ≠ 0 → p c = q c) (hfuel : l.length < fuel) :
    m.skipWhile p fuel a = a + (l.takeWhile q).length := by
  induction l generalizing a fuel with
  | nil =>
    obtain ⟨fuel, rfl⟩ := Nat.exists_eq_succ_of_ne_zero (Nat.ne_of_gt (Nat.zero_lt_of_lt hfuel))
    have ha : m a = 0 := h
    rw [Mem.skipWhile, ha, h0]
    rfl
  | cons c l ih =>
    obtain ⟨fuel, rfl⟩ := Nat.exists_eq_succ_of_ne_zero (Nat.ne_of_gt (Nat.zero_lt_of_lt hfuel))
    obtain ⟨hc, hne, hl⟩ := h
    rw [Mem.skipWhile, hc, hpq c hne]
    by_cases hq : q c = true
    · rw [if_pos hq, takeWhile_cons_of_pos hq, length_cons,
        ih hl (by simpa using hfuel)]
      omega
    · rw [if_neg hq, takeWhile_cons_of_neg hq]
      rfl

/-- The bytes of a string. -/
theorem IsStr.map_range (h : m.IsStr a l) : (List.range l.length).map (fun k => m (a + k)) = l := by
  induction l generalizing a with
  | nil => rfl
  | cons c l ih =>
    obtain ⟨hc, -, hl⟩ := h
    rw [length_cons, range_succ_eq_map, map_cons, map_map, Nat.add_zero, hc]
    refine congrArg _ ((map_congr_left fun k _ => ?_).trans (ih hl))
    rw [Function.comp_apply, Nat.add_right_comm, Nat.add_assoc]

/-- A zero byte in the place of the separator ends the string there. -/
theorem IsStr.cut (h : m.IsStr a (w ++ l)) (hset : m' (a + w.length) = 0)
    (heq : ∀ x, a ≤ x → x < a + w.length → m' x = m x) : m'.IsStr a w := by
  induction w generalizing a with
  | nil => exact hset
  | cons c w ih =>
    rw [length_cons] at hset heq
    obtain ⟨hc, hne, hl⟩ := h
    refine ⟨(heq a (by omega) (by omega)).trans hc, hne, ih hl ?_ fun x hx hx' =>
      heq x (by omega) (by omega)⟩
    rw [← hset]
    congr 1
    omega

end Mem

end PenOS
