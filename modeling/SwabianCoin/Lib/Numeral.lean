import Mathlib.Data.Nat.Digits.Defs
import Mathlib.Data.UInt
import Mathlib.Tactic.IntervalCases

/-!
# Numbers as texts

The digits of a number in a base up to sixteen, with upper-case letters and no leading zeros, as
bytes. A text gives its number back, and no digit is a separator, so numbers can be put into a text
between separators and found again (`eq_of_append_separator_eq`).
-/

namespace Numeral

/-- The byte of a digit. -/
def digitByte (digit : Nat) : UInt8 := UInt8.ofNat digit.digitChar.toUpper.toNat

/-- The digits of a number. -/
def numeral (base n : Nat) : List UInt8 :=
  (Nat.toDigits base n).map fun c => UInt8.ofNat c.toUpper.toNat

/-- The underscore. -/
def separator : UInt8 := 95

/-- The digit behind a byte. -/
def digitValue (byte : UInt8) : Nat :=
  if byte.toNat < 65 then byte.toNat - 48 else byte.toNat - 55

/-- The number behind some digits. -/
def value (base : Nat) (digits : List UInt8) : Nat :=
  digits.foldl (fun n byte => n * base + digitValue byte) 0

theorem digitValue_digitByte {digit : Nat} (h : digit < 16) :
    digitValue (digitByte digit) = digit := by
  interval_cases digit <;> decide

theorem digitByte_ne_separator {digit : Nat} (h : digit < 16) : digitByte digit ≠ separator := by
  interval_cases digit <;> decide

section Base

variable {base : Nat}

theorem numeral_of_lt {n : Nat} (h : n < base) : numeral base n = [digitByte n] := by
  rw [numeral, Nat.toDigits_of_lt_base h]
  rfl

theorem numeral_of_le (hbase : 1 < base) {n : Nat} (h : base ≤ n) :
    numeral base n = numeral base (n / base) ++ [digitByte (n % base)] := by
  rw [numeral, Nat.toDigits_of_base_le hbase h, List.map_append]
  rfl

/-- **Induction along the digits.** -/
theorem numeral_induction (hbase : 1 < base) {P : Nat → List UInt8 → Prop}
    (hdigit : ∀ n < base, P n [digitByte n])
    (hmore : ∀ n, base ≤ n → P (n / base) (numeral base (n / base)) →
      P n (numeral base (n / base) ++ [digitByte (n % base)])) (n : Nat) :
    P n (numeral base n) := by
  induction n using Nat.strong_induction_on with
  | _ n ih =>
    rcases lt_or_ge n base with hlt | hge
    · rw [numeral_of_lt hlt]
      exact hdigit n hlt
    · rw [numeral_of_le hbase hge]
      exact hmore n hge (ih (n / base) (Nat.div_lt_self (by omega) hbase))

theorem separator_notMem_numeral (hbase : 1 < base) (hsixteen : base ≤ 16) (n : Nat) :
    separator ∉ numeral base n := by
  induction n using numeral_induction hbase with
  | hdigit n h =>
    rw [List.mem_singleton]
    exact (digitByte_ne_separator (by omega)).symm
  | hmore n h ih =>
    have hlast : n % base < 16 := lt_of_lt_of_le (Nat.mod_lt n (by omega)) hsixteen
    rw [List.mem_append, List.mem_singleton, not_or]
    exact ⟨ih, (digitByte_ne_separator hlast).symm⟩

theorem value_numeral (hbase : 1 < base) (hsixteen : base ≤ 16) (n : Nat) :
    value base (numeral base n) = n := by
  induction n using numeral_induction hbase with
  | hdigit n h =>
    show 0 * base + digitValue (digitByte n) = n
    rw [digitValue_digitByte (by omega)]
    omega
  | hmore n h ih =>
    have hlast : n % base < 16 := lt_of_lt_of_le (Nat.mod_lt n (by omega)) hsixteen
    rw [value, List.foldl_append, ← value, ih]
    show n / base * base + digitValue (digitByte (n % base)) = n
    rw [digitValue_digitByte hlast]
    exact Nat.div_add_mod' n base

theorem numeral_injective (hbase : 1 < base) (hsixteen : base ≤ 16) :
    Function.Injective (numeral base) := by
  intro a b h
  rw [← value_numeral hbase hsixteen a, h, value_numeral hbase hsixteen b]

theorem length_numeral_le {n width : Nat} (hwidth : 0 < width) (h : n < base ^ width) :
    (numeral base n).length ≤ width := by
  rw [numeral, List.length_map]
  exact Nat.toDigits_length base n width hwidth h

end Base

/-- Two texts that agree up to a separator, without one before it. -/
theorem eq_of_append_separator_eq {α : Type*} {sep : α} {field field' rest rest' : List α}
    (h : sep ∉ field) (h' : sep ∉ field')
    (heq : field ++ sep :: rest = field' ++ sep :: rest') : field = field' ∧ rest = rest' := by
  induction field generalizing field' with
  | nil =>
    cases field' with
    | nil => exact ⟨rfl, (List.cons.inj heq).2⟩
    | cons first field' =>
      have hfirst := (List.cons.inj heq).1
      exact absurd (hfirst ▸ List.mem_cons_self) h'
  | cons first field ih =>
    cases field' with
    | nil =>
      have hfirst := (List.cons.inj heq).1
      exact absurd (hfirst ▸ List.mem_cons_self) h
    | cons first' field' =>
      obtain ⟨hfirst, hrest⟩ := List.cons.inj heq
      obtain ⟨hfield, hrest⟩ := ih (fun hmem => h (List.mem_cons_of_mem _ hmem))
        (fun hmem => h' (List.mem_cons_of_mem _ hmem)) hrest
      exact ⟨by rw [hfirst, hfield], hrest⟩

end Numeral
