import Mathlib.Data.List.Basic
import Mathlib.Data.List.Infix

/-!
# Looking for a pattern

The place where a pattern first occurs in a text, as `std::string::find` returns it. A pattern can
only start at its first letter, so a part of the text without this letter is passed over.
-/

namespace Search

variable {α : Type*} [DecidableEq α]

/-- Where the pattern first occurs. -/
def find (pattern : List α) : List α → Option Nat
  | [] => if pattern = [] then some 0 else none
  | a :: rest => if pattern <+: a :: rest then some 0 else (find pattern rest).map (· + 1)

/-- Leave out a letter. -/
def erase (a : α) (text : List α) : List α := text.filter fun b => decide (b ≠ a)

variable {pattern text : List α}

theorem find_of_isPrefix (h : pattern <+: text) : find pattern text = some 0 := by
  cases text with
  | nil => exact if_pos (List.prefix_nil.1 h)
  | cons a rest => exact if_pos h

theorem find_cons_of_not_isPrefix {a : α} (h : ¬ pattern <+: a :: text) :
    find pattern (a :: text) = (find pattern text).map (· + 1) :=
  if_neg h

/-- A part of the text where the pattern does not start is passed over. -/
theorem find_append_of_not_isPrefix {front : List α}
    (h : ∀ a part, a :: part <:+ front → ¬ pattern <+: a :: (part ++ text)) :
    find pattern (front ++ text) = (find pattern text).map (· + front.length) := by
  induction front with
  | nil => exact Option.map_id'.symm
  | cons b rest ih =>
    have hrest := ih fun a part hpart => h a part (hpart.trans (List.suffix_cons b rest))
    rw [List.cons_append, find_cons_of_not_isPrefix (h b rest (List.suffix_refl _)), hrest,
      Option.map_map]
    rfl

/-- A part of the text without the first letter of the pattern is passed over. -/
theorem find_append {a : α} {front : List α} (h : a ∉ front) (text : List α) :
    find (a :: pattern) (front ++ text) =
      (find (a :: pattern) text).map (· + front.length) := by
  apply find_append_of_not_isPrefix
  intro b part hpart hbegin
  rw [List.cons_prefix_cons] at hbegin
  exact h (hbegin.1 ▸ hpart.subset (List.mem_cons_self ..))

theorem add_length_le_of_find {place : Nat} (h : find pattern text = some place) :
    place + pattern.length ≤ text.length := by
  induction text generalizing place with
  | nil =>
    rw [find] at h
    split_ifs at h with hnil
    cases h
    simp [hnil]
  | cons a rest ih =>
    by_cases hbegin : pattern <+: a :: rest
    · rw [find_of_isPrefix hbegin] at h
      cases h
      rw [Nat.zero_add]
      exact hbegin.length_le
    · rw [find_cons_of_not_isPrefix hbegin, Option.map_eq_some_iff] at h
      obtain ⟨place', hplace, rfl⟩ := h
      have hle := ih hplace
      rw [List.length_cons]
      omega

theorem mem_erase {a b : α} : b ∈ erase a text ↔ b ∈ text ∧ b ≠ a := by
  rw [erase, List.mem_filter, decide_eq_true_iff]

theorem erase_append (a : α) (text text' : List α) :
    erase a (text ++ text') = erase a text ++ erase a text' :=
  List.filter_append ..

theorem erase_of_not_mem {a : α} (h : a ∉ text) : erase a text = text :=
  List.filter_eq_self.2 fun _ hb => decide_eq_true fun hba => h (hba ▸ hb)

end Search
