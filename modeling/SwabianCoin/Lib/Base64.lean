import Mathlib.Data.List.Basic
import Mathlib.Data.UInt

/-!
# Base64

Bytes regrouped as sextets and back, and the letters that stand for sextets. Regrouping to sextets
fills the last one up with zeros (`narrow`). Regrouping to bytes (`widen`) drops the bits that are
left over at the end, so it forgets more than the filling; a single sextet at the end leaves a
byte incomplete, and that is an error.

The letter `=` is read as a zero.
-/

namespace Base64

/-- The letter `=`. -/
def pad : UInt8 := 61

/-- The sextet of a letter. -/
def value (letter : UInt8) : Option Nat :=
  let code := letter.toNat
  if 65 ≤ code ∧ code ≤ 90 then some (code - 65)
  else if 97 ≤ code ∧ code ≤ 122 then some (code - 71)
  else if 48 ≤ code ∧ code ≤ 57 then some (code + 4)
  else if code = 43 then some 62
  else if code = 47 then some 63
  else if code = 61 then some 0
  else none

/-- The letter of a sextet. -/
def letter (sextet : Nat) : UInt8 :=
  if sextet < 26 then UInt8.ofNat (sextet + 65)
  else if sextet < 52 then UInt8.ofNat (sextet + 71)
  else if sextet < 62 then UInt8.ofNat (sextet - 4)
  else if sextet = 62 then 43
  else 47

/-- Bytes as sextets, filled up with zeros. -/
def narrow : List UInt8 → List Nat
  | [] => []
  | [a] => [a.toNat / 4, a.toNat % 4 * 16]
  | [a, b] => [a.toNat / 4, a.toNat % 4 * 16 + b.toNat / 16, b.toNat % 16 * 4]
  | a :: b :: c :: rest =>
    [a.toNat / 4, a.toNat % 4 * 16 + b.toNat / 16, b.toNat % 16 * 4 + c.toNat / 64,
      c.toNat % 64] ++ narrow rest

/-- Sextets as bytes. -/
def widen : List Nat → Option (List UInt8)
  | [] => some []
  | [_] => none
  | [a, b] => some [UInt8.ofNat (a * 4 + b / 16)]
  | [a, b, c] => some [UInt8.ofNat (a * 4 + b / 16), UInt8.ofNat (b % 16 * 16 + c / 4)]
  | a :: b :: c :: d :: rest =>
    (widen rest).map fun bytes =>
      [UInt8.ofNat (a * 4 + b / 16), UInt8.ofNat (b % 16 * 16 + c / 4),
        UInt8.ofNat (c % 4 * 64 + d)] ++ bytes

/-! ## Letters -/

theorem value_letter {sextet : Nat} (h : sextet < 64) : value (letter sextet) = some sextet := by
  have hall : ∀ i : Fin 64, value (letter i) = some i.val := by decide
  exact hall ⟨sextet, h⟩

theorem letter_ne_pad {sextet : Nat} (h : sextet < 64) : letter sextet ≠ pad := by
  have hall : ∀ i : Fin 64, letter i ≠ pad := by decide
  exact hall ⟨sextet, h⟩

theorem mapM_value_letter {sextets : List Nat} (h : ∀ sextet ∈ sextets, sextet < 64) :
    (sextets.map letter).mapM value = some sextets := by
  induction sextets with
  | nil => rfl
  | cons first rest ih =>
    obtain ⟨hfirst, hrest⟩ := List.forall_mem_cons.1 h
    simp [List.mapM_cons, value_letter hfirst, ih hrest]

theorem exists_mapM_value {letters : List UInt8} (h : ∀ byte ∈ letters, value byte ≠ none) :
    ∃ sextets, letters.mapM value = some sextets ∧ sextets.length = letters.length := by
  induction letters with
  | nil => exact ⟨[], rfl, rfl⟩
  | cons first rest ih =>
    obtain ⟨hfirst, hrest⟩ := List.forall_mem_cons.1 h
    obtain ⟨sextet, hsextet⟩ := Option.ne_none_iff_exists'.1 hfirst
    obtain ⟨sextets, hsextets, hlength⟩ := ih hrest
    refine ⟨sextet :: sextets, ?_, by rw [List.length_cons, hlength, List.length_cons]⟩
    simp [List.mapM_cons, hsextet, hsextets]

/-! ## Regrouping -/

theorem narrow_lt (bytes : List UInt8) : ∀ sextet ∈ narrow bytes, sextet < 64 := by
  induction bytes using narrow.induct with
  | case1 => simp [narrow]
  | case2 a =>
    have ha := a.toNat_lt
    intro sextet hmem
    simp only [narrow, List.mem_cons, List.not_mem_nil, or_false] at hmem
    omega
  | case3 a b =>
    have ha := a.toNat_lt
    have hb := b.toNat_lt
    intro sextet hmem
    simp only [narrow, List.mem_cons, List.not_mem_nil, or_false] at hmem
    omega
  | case4 a b c rest ih =>
    have ha := a.toNat_lt
    have hb := b.toNat_lt
    have hc := c.toNat_lt
    intro sextet hmem
    rcases List.mem_append.1 hmem with hhead | hrest
    · simp only [List.mem_cons, List.not_mem_nil, or_false] at hhead
      omega
    · exact ih sextet hrest

theorem length_narrow (bytes : List UInt8) :
    (narrow bytes).length = (bytes.length * 4 + 2) / 3 := by
  induction bytes using narrow.induct with
  | case1 => rfl
  | case2 a => simp [narrow]
  | case3 a b => simp [narrow]
  | case4 a b c rest ih =>
    simp only [narrow, List.length_append, List.length_cons, List.length_nil, ih]
    omega

theorem length_widen {sextets : List Nat} {bytes : List UInt8} (h : widen sextets = some bytes) :
    bytes.length = sextets.length * 3 / 4 := by
  induction sextets using widen.induct generalizing bytes with
  | case1 =>
    cases h
    rfl
  | case2 a => cases h
  | case3 a b =>
    cases h
    simp
  | case4 a b c =>
    cases h
    simp
  | case5 a b c d rest ih =>
    rw [widen, Option.map_eq_some_iff] at h
    obtain ⟨restBytes, hrest, rfl⟩ := h
    have hlength := ih hrest
    simp only [List.length_append, List.length_cons, List.length_nil, hlength]
    omega

/-- A single sextet is left over. -/
theorem widen_eq_none_iff {sextets : List Nat} :
    widen sextets = none ↔ sextets.length % 4 = 1 := by
  induction sextets using widen.induct with
  | case1 => simp [widen]
  | case2 a => simp [widen]
  | case3 a b => simp [widen]
  | case4 a b c => simp [widen]
  | case5 a b c d rest ih =>
    rw [widen, Option.map_eq_none_iff, ih]
    simp only [List.length_cons]
    omega

theorem ofNat_toNat_eq {a : UInt8} {n : Nat} (h : n = a.toNat) : UInt8.ofNat n = a := by
  rw [h]
  exact UInt8.ofNat_toNat

/-- **Regrouping and back.** Sextets appended to a whole number of triples stand by themselves. -/
theorem widen_narrow_append (bytes : List UInt8) (h : bytes.length % 3 = 0) (sextets : List Nat) :
    widen (narrow bytes ++ sextets) = (widen sextets).map (bytes ++ ·) := by
  induction bytes using narrow.induct with
  | case1 => simp [narrow]
  | case2 a => simp at h
  | case3 a b => simp at h
  | case4 a b c rest ih =>
    have ha := a.toNat_lt
    have hb := b.toNat_lt
    have hc := c.toNat_lt
    have hrest : rest.length % 3 = 0 := by
      simp only [List.length_cons] at h
      omega
    have hfirst : UInt8.ofNat (a.toNat / 4 * 4 + (a.toNat % 4 * 16 + b.toNat / 16) / 16) = a :=
      ofNat_toNat_eq (by omega)
    have hsecond : UInt8.ofNat ((a.toNat % 4 * 16 + b.toNat / 16) % 16 * 16 +
        (b.toNat % 16 * 4 + c.toNat / 64) / 4) = b := ofNat_toNat_eq (by omega)
    have hthird : UInt8.ofNat ((b.toNat % 16 * 4 + c.toNat / 64) % 4 * 64 + c.toNat % 64) = c :=
      ofNat_toNat_eq (by omega)
    simp only [narrow, List.cons_append, List.nil_append, widen, ih hrest, hfirst, hsecond, hthird,
      Option.map_map]
    rfl

/-- Zero sextets that fill up a group give zero bytes. -/
theorem widen_narrow_replicate (bytes : List UInt8) (count : Nat)
    (h : count = 0 ∨ (bytes.length + count) % 3 = 0 ∧ count < 3) :
    widen (narrow bytes ++ List.replicate count 0) = some (bytes ++ List.replicate count 0) := by
  induction bytes using narrow.induct with
  | case1 =>
    have hcount : count = 0 := by
      simp only [List.length_nil] at h
      omega
    simp [hcount, narrow, widen]
  | case2 a =>
    have ha := a.toNat_lt
    have hfirst : UInt8.ofNat (a.toNat / 4 * 4 + a.toNat % 4 * 16 / 16) = a :=
      ofNat_toNat_eq (by omega)
    have hsecond : a.toNat % 4 * 16 % 16 * 16 = 0 := by omega
    -- One byte makes two sextets, so two more fill up the group.
    have hcount : count = 0 ∨ count = 2 := by
      simp only [List.length_cons, List.length_nil] at h
      omega
    rcases hcount with rfl | rfl
    · simp only [narrow, List.replicate, List.append_nil, widen, hfirst]
    · simp only [narrow, List.replicate, List.cons_append, List.nil_append, widen, hfirst, hsecond]
      rfl
  | case3 a b =>
    have ha := a.toNat_lt
    have hb := b.toNat_lt
    have hfirst : UInt8.ofNat (a.toNat / 4 * 4 + (a.toNat % 4 * 16 + b.toNat / 16) / 16) = a :=
      ofNat_toNat_eq (by omega)
    have hsecond : UInt8.ofNat ((a.toNat % 4 * 16 + b.toNat / 16) % 16 * 16 +
        b.toNat % 16 * 4 / 4) = b := ofNat_toNat_eq (by omega)
    have hthird : b.toNat % 16 * 4 % 4 * 64 = 0 := by omega
    -- Two bytes make three sextets.
    have hcount : count = 0 ∨ count = 1 := by
      simp only [List.length_cons, List.length_nil] at h
      omega
    rcases hcount with rfl | rfl
    · simp only [narrow, List.replicate, List.append_nil, widen, hfirst, hsecond]
    · simp only [narrow, List.replicate, List.cons_append, List.nil_append, widen, hfirst, hsecond,
        hthird]
      rfl
  | case4 a b c rest ih =>
    have hrest : count = 0 ∨ (rest.length + count) % 3 = 0 ∧ count < 3 := by
      simp only [List.length_cons] at h
      omega
    have hgroup := widen_narrow_append [a, b, c] (by simp)
      (narrow rest ++ List.replicate count 0)
    rw [ih hrest] at hgroup
    simpa only [narrow, List.append_nil, List.append_assoc, List.cons_append, List.nil_append,
      Option.map_some]
      using hgroup

end Base64
