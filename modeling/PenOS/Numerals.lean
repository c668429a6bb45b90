import PenOS.Console

/-!
# Decimal numbers

`console_write_dec` (`src/ui/console.c`) puts the digits of a word into an array from the last to
the first and prints them backwards. `parse_uint` (`src/shell/shell.c`) reads a numeral in
32-bit arithmetic, without looking for an overflow.
-/

namespace PenOS

/-- `' '` -/
abbrev space : UInt8 := 32

/-! ## Reading -/

/-- The loop of `parse_uint`. -/
def parseLoop : ℕ → List UInt8 → Option ℕ
  | value, [] => some value
  | value, c :: str =>
    if c < 48 ∨ c > 57 then none else parseLoop (u32 (value * 10 + (c.toNat - 48))) str

/-- `parse_uint` on a string; `none` for -1. -/
def parseUint (str : List UInt8) : Option ℕ := if str = [] then none else parseLoop 0 str

/-- The task that `cmd_kill` gives to `sched_kill`. -/
def killTarget (args : List UInt8) : Option ℕ := parseUint (args.dropWhile (· = space))

/-- The time zone that `cmd_date` sets. -/
def dateOffset (args : List UInt8) : Option ℤ :=
  let args := args.dropWhile (· = space)
  let sign : ℤ := if args.head? = some 45 then -1 else 1
  let digits := if args.head? = some 45 ∨ args.head? = some 43 then args.tail else args
  (parseUint digits).bind fun val => if val > 14 then none else some (sign * val)

/-- A string of decimal digits. -/
def IsNumeral (str : List UInt8) : Prop := str ≠ [] ∧ ∀ c ∈ str, 48 ≤ c ∧ c ≤ 57

/-- The number that a string of digits stands for, read behind the number `value`. -/
def numeralFrom (value : ℕ) (str : List UInt8) : ℕ :=
  str.foldl (fun v c => v * 10 + (c.toNat - 48)) value

theorem parseLoop_eq (value : ℕ) (str : List UInt8) : ((∀ c ∈ str, 48 ≤ c ∧ c ≤ 57) →
      parseLoop (u32 value) str = some (u32 (numeralFrom value str))) ∧
    ((¬∀ c ∈ str, 48 ≤ c ∧ c ≤ 57) → parseLoop (u32 value) str = none) := by
  induction str generalizing value with
  | nil => simp [parseLoop, numeralFrom]
  | cons c str ih =>
    have hstep : u32 (u32 value * 10 + (c.toNat - 48)) = u32 (value * 10 + (c.toNat - 48)) := by
      simp only [u32]
      omega
    have hdigit : (c < 48 ∨ c > 57) ↔ ¬(48 ≤ c ∧ c ≤ 57) := by
      rw [not_and_or, UInt8.not_le, UInt8.not_le]
    rw [parseLoop, hstep, List.forall_mem_cons]
    simp only [hdigit]
    by_cases hc : 48 ≤ c ∧ c ≤ 57
    · simp only [hc, not_true_eq_false, if_false, true_and]
      exact ih _
    · simp only [hc, not_false_eq_true, if_true, false_and, implies_true, false_implies, true_and]

theorem parseUint_eq (str : List UInt8) [Decidable (IsNumeral str)] :
    parseUint str = if IsNumeral str then some (u32 (numeralFrom 0 str)) else none := by
  have hloop := parseLoop_eq 0 str
  rw [parseUint]
  split_ifs with hnil hnum hnum
  · exact absurd hnil hnum.1
  · rfl
  · exact hloop.1 hnum.2
  · exact hloop.2 fun h => hnum ⟨hnil, h⟩

/-- The commands read a numeral as `parse_uint` does. -/
theorem IsNumeral.commands {str : List UInt8} (h : IsNumeral str) :
    killTarget str = parseUint str ∧ dateOffset str =
      (parseUint str).bind fun val => if val > 14 then none else some (val : ℤ) := by
  obtain ⟨c, rest, rfl⟩ := List.exists_cons_of_ne_nil h.1
  have hc := h.2 c List.mem_cons_self
  have hspace : c ≠ space := by rintro rfl; exact absurd hc.1 (by decide)
  have hminus : c ≠ 45 := by rintro rfl; exact absurd hc.1 (by decide)
  have hplus : c ≠ 43 := by rintro rfl; exact absurd hc.1 (by decide)
  simp [killTarget, dateOffset, hspace, hminus, hplus]

/-- **Numbers are parsed exactly**, and `kill` and `date` act on the number typed, if and only if
the numeral is below `2 ^ 32`. -/
theorem numbers_parsed_iff (str : List UInt8) :
    (((parseUint str).isSome ↔ IsNumeral str ∧ numeralFrom 0 str < 4294967296) ∧
      (∀ v, parseUint str = some v → v = numeralFrom 0 str) ∧
      (IsNumeral str → (∀ pid, killTarget str = some pid → pid = numeralFrom 0 str) ∧
        ∀ offset, dateOffset str = some offset → numeralFrom 0 str ≤ 14)) ↔
    (IsNumeral str → numeralFrom 0 str < 4294967296) := by
  classical
  by_cases hnum : IsNumeral str
  · obtain ⟨hkill, hdate⟩ := hnum.commands
    rw [hkill, hdate, parseUint_eq, if_pos hnum]
    simp only [hnum, Option.isSome_some, true_and, true_imp_iff, true_iff]
    refine ⟨fun h => h.1, fun hlt => ⟨hlt, ?_⟩⟩
    rw [u32_of_lt hlt]
    refine ⟨fun v hv => (Option.some.inj hv).symm, fun v hv => (Option.some.inj hv).symm, ?_⟩
    intro offset hoffset
    by_contra hgt
    simp [show numeralFrom 0 str > 14 by omega] at hoffset
  · rw [parseUint_eq, if_neg hnum]
    simp [hnum]

/-- `kill 4294967296` acts on task 0, and `date 4294967296` is accepted. -/
theorem long_numeral_wraps : ∃ str, IsNumeral str ∧ numeralFrom 0 str = 4294967296 ∧
    killTarget str = some 0 ∧ dateOffset str = some 0 := by
  refine ⟨[52, 50, 57, 52, 57, 54, 55, 50, 57, 54], ⟨by decide, by decide +kernel⟩, ?_, ?_, ?_⟩
  all_goals decide

/-! ## Writing -/

/-- The first loop of `console_write_dec`, with room for `room` more digits: the last digit
first. -/
def decDigits : ℕ → ℕ → List UInt8
  | 0, _ => []
  | room + 1, v => if v > 0 then UInt8.ofNat (48 + v % 10) :: decDigits room (v / 10) else []

/-- The characters that `console_write_dec` prints. -/
def decChars (v : ℕ) : List UInt8 := if v = 0 then [48] else (decDigits 15 v).reverse

/-- `console_write_dec` -/
def Console.consoleWriteDec {σ : Type} [ConsoleDevices σ] (s : Console σ) (v : ℕ) : Console σ :=
  if v = 0 then s.consolePutc 48
  else (decDigits 15 v).foldr (fun c s => s.consolePutc c) s

theorem Console.consoleWriteDec_eq {σ : Type} [ConsoleDevices σ] (s : Console σ) (v : ℕ) :
    s.consoleWriteDec v = s.consoleWrite (decChars v) := by
  rw [consoleWriteDec, decChars, consoleWrite]
  split_ifs
  · rfl
  · exact List.foldl_reverse.symm

theorem numeralFrom_concat (value : ℕ) (str : List UInt8) (c : UInt8) :
    numeralFrom value (str ++ [c]) = numeralFrom value str * 10 + (c.toNat - 48) :=
  List.foldl_append

theorem decDigits_length (v n room : ℕ) (h : v < 10 ^ n) : (decDigits room v).length ≤ n := by
  induction room generalizing v n with
  | zero => exact Nat.zero_le _
  | succ room ih =>
    rw [decDigits]
    split_ifs with hpos
    · obtain ⟨n, rfl⟩ : ∃ m, n = m + 1 := Nat.exists_eq_succ_of_ne_zero (by rintro rfl; omega)
      rw [Nat.pow_succ] at h
      exact Nat.succ_le_succ (ih _ n (by omega))
    · exact Nat.zero_le _

theorem decDigits_room (v n room : ℕ) (h : v < 10 ^ n) (hroom : n ≤ room) :
    decDigits room v = decDigits n v := by
  induction n generalizing v room with
  | zero =>
    obtain rfl : v = 0 := by omega
    cases room <;> rfl
  | succ n ih =>
    obtain ⟨room, rfl⟩ := Nat.exists_eq_add_one_of_ne_zero (by omega : room ≠ 0)
    rw [Nat.pow_succ] at h
    rw [decDigits, decDigits, ih (v / 10) room (by omega) (by omega)]

/-- The digits of a number are those of a numeral that stands for it and has no zero in front. -/
theorem decDigits_spec (v room : ℕ) (h : v < 10 ^ room) :
    (∀ c ∈ decDigits room v, 48 ≤ c ∧ c ≤ 57) ∧ numeralFrom 0 (decDigits room v).reverse = v ∧
      (decDigits room v).reverse.head? ≠ some 48 := by
  induction room generalizing v with
  | zero =>
    obtain rfl : v = 0 := by omega
    simp [decDigits, numeralFrom]
  | succ room ih =>
    rw [decDigits]
    split_ifs with hpos
    · rw [Nat.pow_succ] at h
      obtain ⟨hdigits, hvalue, hhead⟩ := ih (v / 10) (by omega)
      have hmod : 48 + v % 10 < 256 := by omega
      have hnat : (UInt8.ofNat (48 + v % 10)).toNat = 48 + v % 10 := UInt8.toNat_ofNat_of_lt' hmod
      refine ⟨?_, ?_, ?_⟩
      · refine List.forall_mem_cons.mpr ⟨?_, hdigits⟩
        rw [UInt8.le_iff_toNat_le, UInt8.le_iff_toNat_le, hnat]
        exact ⟨Nat.le_add_right _ _, by change _ ≤ 57; omega⟩
      · rw [List.reverse_cons, numeralFrom_concat, hvalue, hnat]
        omega
      · rw [List.reverse_cons]
        rcases hrev : (decDigits room (v / 10)).reverse with _ | ⟨c, cs⟩ <;>
        rw [hrev] at hvalue hhead
        · -- a single digit is the number itself
          intro hzero
          have hcode := congrArg UInt8.toNat (Option.some.inj hzero)
          rw [hnat] at hcode
          change 48 + v % 10 = 48 at hcode
          change 0 = v / 10 at hvalue
          omega
        · exact hhead
    · obtain rfl : v = 0 := by omega
      simp [numeralFrom]

/-- **Decimal output reads back**: `console_write_dec` prints the numeral of a word, without a zero
in front, of ten digits at most, and `parse_uint` reads it. -/
theorem decimal_output_reads_back (v : ℕ) (hv : v < 4294967296) :
    (∀ {σ : Type} [ConsoleDevices σ] (s : Console σ),
        s.consoleWriteDec v = s.consoleWrite (decChars v)) ∧
      IsNumeral (decChars v) ∧ numeralFrom 0 (decChars v) = v ∧
      ((decChars v).head? = some 48 → decChars v = [48]) ∧
      (decDigits 15 v).length ≤ 10 ∧ (∀ room, 15 ≤ room → decDigits room v = decDigits 15 v) ∧
      parseUint (decChars v) = some v := by
  have hten : v < 10 ^ 10 := by omega
  have hlen := decDigits_length v 10 15 hten
  have hroom : ∀ room, 15 ≤ room → decDigits room v = decDigits 15 v := fun room hr =>
    (decDigits_room v 10 room hten (by omega)).trans (decDigits_room v 10 15 hten (by omega)).symm
  obtain ⟨hnum, hvalue, hhead⟩ : IsNumeral (decChars v) ∧ numeralFrom 0 (decChars v) = v ∧
      ((decChars v).head? = some 48 → decChars v = [48]) := by
    rw [decChars]
    split_ifs with hzero
    · exact ⟨⟨by decide, by decide +kernel⟩, hzero.symm, fun _ => rfl⟩
    · obtain ⟨hdigits, hvalue, hhead⟩ := decDigits_spec v 15 (by omega)
      refine ⟨⟨fun hnil => ?_, fun c hc => hdigits c (List.mem_reverse.mp hc)⟩, hvalue,
        fun h => absurd h hhead⟩
      rw [hnil] at hvalue
      exact hzero hvalue.symm
  refine ⟨fun s => s.consoleWriteDec_eq v, hnum, hvalue, hhead, hlen, hroom, ?_⟩
  classical
  rw [parseUint_eq, if_pos hnum, hvalue, u32_of_lt hv]

/-- The largest word. -/
theorem decimal_output_reads_back_max : parseUint (decChars 4294967295) = some 4294967295 :=
  (decimal_output_reads_back 4294967295 (by decide)).2.2.2.2.2.2

end PenOS
