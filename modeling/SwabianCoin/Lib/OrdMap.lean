import Mathlib.Data.List.Sort
import Mathlib.Data.Finset.Image
import Mathlib.Algebra.BigOperators.Group.Finset.Basic
import Mathlib.Algebra.Order.BigOperators.Group.Finset
import Mathlib.Tactic.Ring

/-!
# Ordered maps

A finite map whose entries are kept in strictly ascending key order, as `std::map` keeps them.
The order is part of the type: iteration order, the first entry and the last entry mean
something, and two maps with the same entries are equal.

Every operation is specified by membership of entries (`mem_insert`, `mem_erase`, ...), and
`ext_mem` turns those into equalities of maps. Lookups go through `find?_eq_some_iff`.
-/

/-- A finite map with its entries in strictly ascending key order. -/
structure OrdMap (α : Type*) (β : Type*) [LinearOrder α] where
  /-- The entries, in iteration order. -/
  entries : List (α × β)
  /-- The keys ascend strictly, so no key occurs twice. -/
  sorted : entries.Pairwise fun a b => a.1 < b.1

namespace OrdMap

variable {α β γ : Type*} [LinearOrder α]

instance [DecidableEq β] : DecidableEq (OrdMap α β) := fun m n =>
  decidable_of_iff (m.entries = n.entries) (by cases m; cases n; simp)

instance : Membership (α × β) (OrdMap α β) := ⟨fun m e => e ∈ m.entries⟩

theorem mem_def {m : OrdMap α β} {e : α × β} : e ∈ m ↔ e ∈ m.entries := Iff.rfl

instance [DecidableEq β] (m : OrdMap α β) (e : α × β) : Decidable (e ∈ m) :=
  inferInstanceAs (Decidable (e ∈ m.entries))

instance (p : α × β → Prop) [DecidablePred p] (m : OrdMap α β) : Decidable (∀ e ∈ m, p e) :=
  inferInstanceAs (Decidable (∀ e ∈ m.entries, p e))

/-! ## Operations -/

def empty : OrdMap α β := ⟨[], List.Pairwise.nil⟩

instance : EmptyCollection (OrdMap α β) := ⟨empty⟩

instance : Inhabited (OrdMap α β) := ⟨∅⟩

def size (m : OrdMap α β) : Nat := m.entries.length

def keys (m : OrdMap α β) : List α := m.entries.map Prod.fst

def values (m : OrdMap α β) : List β := m.entries.map Prod.snd

def isEmpty (m : OrdMap α β) : Bool := m.entries.isEmpty

/-- The value under `k`, if there is one. -/
def find? (m : OrdMap α β) (k : α) : Option β := (m.entries.find? fun e => e.1 == k).map Prod.snd

/-- The value under `k`, or `d`. -/
def getD (m : OrdMap α β) (k : α) (d : β) : β := (m.find? k).getD d

def contains (m : OrdMap α β) (k : α) : Bool := (m.find? k).isSome

/-- Put `v` under `k` in an ascending list of entries. -/
def insertEntry (k : α) (v : β) : List (α × β) → List (α × β)
  | [] => [(k, v)]
  | e :: es =>
    if k < e.1 then (k, v) :: e :: es
    else if k = e.1 then (k, v) :: es
    else e :: insertEntry k v es

theorem mem_insertEntry {k : α} {v : β} {e : α × β} {l : List (α × β)}
    (hl : l.Pairwise fun a b => a.1 < b.1) :
    e ∈ insertEntry k v l ↔ e = (k, v) ∨ (e.1 ≠ k ∧ e ∈ l) := by
  induction l with
  | nil => simp [insertEntry]
  | cons a l ih =>
    obtain ⟨ha, hl⟩ := List.pairwise_cons.1 hl
    have ih := ih hl
    rw [insertEntry]
    split_ifs with h₁ h₂
    · -- The new key stands before every old one, so no old entry has it.
      have hne : ∀ x ∈ a :: l, x.1 ≠ k := by
        intro x hx
        rcases List.mem_cons.1 hx with rfl | hx
        · exact ne_of_gt h₁
        · exact ne_of_gt (h₁.trans (ha x hx))
      rw [List.mem_cons]
      exact or_congr_right ⟨fun h => ⟨hne e h, h⟩, And.right⟩
    · subst h₂
      rw [List.mem_cons, List.mem_cons]
      refine or_congr_right ⟨fun h => ⟨ne_of_gt (ha e h), Or.inr h⟩, ?_⟩
      rintro ⟨hne, rfl | h⟩
      · exact absurd rfl hne
      · exact h
    · rw [List.mem_cons, List.mem_cons, ih]
      constructor
      · rintro (rfl | h | ⟨hne, h⟩)
        · exact Or.inr ⟨Ne.symm h₂, Or.inl rfl⟩
        · exact Or.inl h
        · exact Or.inr ⟨hne, Or.inr h⟩
      · rintro (h | ⟨hne, rfl | h⟩)
        · exact Or.inr (Or.inl h)
        · exact Or.inl rfl
        · exact Or.inr (Or.inr ⟨hne, h⟩)

theorem insertEntry_sorted (k : α) (v : β) {l : List (α × β)}
    (hl : l.Pairwise fun a b => a.1 < b.1) :
    (insertEntry k v l).Pairwise fun a b => a.1 < b.1 := by
  induction l with
  | nil => exact List.pairwise_singleton _ _
  | cons a l ih =>
    obtain ⟨ha, hl'⟩ := List.pairwise_cons.1 hl
    rw [insertEntry]
    split_ifs with h₁ h₂
    · refine List.pairwise_cons.2 ⟨fun x hx => ?_, hl⟩
      rcases List.mem_cons.1 hx with rfl | hx
      · exact h₁
      · exact h₁.trans (ha x hx)
    · subst h₂
      exact List.pairwise_cons.2 ⟨ha, hl'⟩
    · refine List.pairwise_cons.2 ⟨fun x hx => ?_, ih hl'⟩
      rcases (mem_insertEntry hl').1 hx with rfl | ⟨-, hx⟩
      · exact lt_of_le_of_ne (not_lt.1 h₁) (Ne.symm h₂)
      · exact ha x hx

/-- `m[k] = v`. -/
def insert (m : OrdMap α β) (k : α) (v : β) : OrdMap α β :=
  ⟨insertEntry k v m.entries, insertEntry_sorted k v m.sorted⟩

/-- `m[k] = f(m[k])`, where `operator[]` first creates a missing entry with the value `d`. -/
def update (m : OrdMap α β) (k : α) (d : β) (f : β → β) : OrdMap α β :=
  m.insert k (f (m.getD k d))

/-- Reading `m[k]`: a missing entry is created with the value `d`. -/
def touch (m : OrdMap α β) (k : α) (d : β) : OrdMap α β :=
  if m.contains k then m else m.insert k d

/-- Keep the entries that satisfy `p`. -/
def filter (m : OrdMap α β) (p : α × β → Bool) : OrdMap α β :=
  ⟨m.entries.filter p, m.sorted.sublist List.filter_sublist⟩

/-- `m.erase(k)`. -/
def erase (m : OrdMap α β) (k : α) : OrdMap α β := m.filter fun e => !(e.1 == k)

/-- Replace every value by one that depends on it and its key. -/
def mapEntries (m : OrdMap α β) (f : α → β → γ) : OrdMap α γ :=
  ⟨m.entries.map fun e => (e.1, f e.1 e.2), List.pairwise_map.2 m.sorted⟩

/-- `m.insert(n.begin(), n.end())`: the entries of `n` whose keys are new are added. -/
def union (m n : OrdMap α β) : OrdMap α β := n.entries.foldl (fun m e => m.touch e.1 e.2) m

/-- `m.erase(std::prev(m.end()))`: drop the entry with the largest key. -/
def eraseLast (m : OrdMap α β) : OrdMap α β :=
  ⟨m.entries.dropLast, m.sorted.sublist (List.dropLast_sublist _)⟩

/-! ## Membership -/

theorem keys_sorted (m : OrdMap α β) : m.keys.Pairwise (· < ·) :=
  List.pairwise_map.2 m.sorted

theorem keys_nodup (m : OrdMap α β) : m.keys.Nodup := m.keys_sorted.imp ne_of_lt

theorem eq_of_mem_of_fst_eq {m : OrdMap α β} {a b : α × β} (ha : a ∈ m) (hb : b ∈ m)
    (h : a.1 = b.1) : a = b :=
  List.inj_on_of_nodup_map m.keys_nodup ha hb h

theorem ext_mem {m n : OrdMap α β} (h : ∀ e, e ∈ m ↔ e ∈ n) : m = n := by
  have hperm : m.entries.Perm n.entries :=
    (List.perm_ext_iff_of_nodup (List.Nodup.of_map _ m.keys_nodup)
      (List.Nodup.of_map _ n.keys_nodup)).2 h
  have heq : m.entries = n.entries :=
    hperm.eq_of_pairwise (fun a b _ _ hab hba => absurd hab (not_lt.2 hba.le)) m.sorted n.sorted
  cases m; cases n; simpa using heq

@[simp] theorem not_mem_empty (e : α × β) : ¬ e ∈ (∅ : OrdMap α β) := List.not_mem_nil

theorem isEmpty_iff {m : OrdMap α β} : m.isEmpty = true ↔ m = ∅ := by
  rw [isEmpty, List.isEmpty_iff]
  constructor
  · intro h
    refine ext_mem fun e => ?_
    rw [mem_def, h]
    rfl
  · intro h
    rw [h]
    rfl

theorem mem_insert {m : OrdMap α β} {k : α} {v : β} {e : α × β} :
    e ∈ m.insert k v ↔ e = (k, v) ∨ (e.1 ≠ k ∧ e ∈ m) :=
  mem_insertEntry m.sorted

@[simp] theorem mem_filter {m : OrdMap α β} {p : α × β → Bool} {e : α × β} :
    e ∈ m.filter p ↔ e ∈ m ∧ p e = true :=
  List.mem_filter

theorem mem_erase {m : OrdMap α β} {k : α} {e : α × β} : e ∈ m.erase k ↔ e.1 ≠ k ∧ e ∈ m := by
  simp [erase, and_comm]

theorem mem_eraseLast_sub {m : OrdMap α β} {e : α × β} (h : e ∈ m.eraseLast) : e ∈ m :=
  (List.dropLast_sublist _).subset h

/-- Dropping the last entry keeps the entries that have a larger key after them. -/
theorem mem_eraseLast {m : OrdMap α β} {e : α × β} :
    e ∈ m.eraseLast ↔ e ∈ m ∧ ∃ f ∈ m, e.1 < f.1 := by
  constructor
  · intro h
    refine ⟨mem_eraseLast_sub h, ?_⟩
    have hne : m.entries ≠ [] := List.ne_nil_of_mem (mem_eraseLast_sub h)
    refine ⟨m.entries.getLast hne, List.getLast_mem hne, ?_⟩
    have hsplit := List.dropLast_append_getLast hne
    have hsorted := m.sorted
    rw [← hsplit, List.pairwise_append] at hsorted
    exact hsorted.2.2 e h _ (List.mem_singleton_self _)
  · rintro ⟨he, f, hf, hlt⟩
    have hne : m.entries ≠ [] := List.ne_nil_of_mem he
    have hsplit := List.dropLast_append_getLast hne
    have hsorted := m.sorted
    rw [← hsplit, List.pairwise_append] at hsorted
    have hcase : ∀ x ∈ m, x ∈ m.entries.dropLast ∨ x = m.entries.getLast hne := by
      intro x hx
      have hx : x ∈ m.entries := hx
      rw [← hsplit, List.mem_append, List.mem_singleton] at hx
      exact hx
    rcases hcase e he with h | rfl
    · exact h
    · -- The last entry has nothing after it.
      rcases hcase f hf with h | rfl
      · exact absurd hlt (not_lt.2 (hsorted.2.2 f h _ (List.mem_singleton_self _)).le)
      · exact absurd hlt (lt_irrefl _)

theorem size_eraseLast (m : OrdMap α β) : m.eraseLast.size = m.size - 1 :=
  List.length_dropLast ..

theorem mem_keys {m : OrdMap α β} {k : α} : k ∈ m.keys ↔ ∃ v, (k, v) ∈ m := by
  simp [keys, mem_def]

theorem mem_values {m : OrdMap α β} {v : β} : v ∈ m.values ↔ ∃ k, (k, v) ∈ m := by
  simp [values, mem_def]

/-! ## Lookup -/

theorem find?_eq_some_iff {m : OrdMap α β} {k : α} {v : β} :
    m.find? k = some v ↔ (k, v) ∈ m := by
  constructor
  · intro h
    obtain ⟨e, he, rfl⟩ := Option.map_eq_some_iff.1 h
    have hk : e.1 = k := by simpa using List.find?_some he
    subst hk
    exact List.mem_of_find?_eq_some he
  · intro h
    cases hf : m.entries.find? fun e => e.1 == k with
    | none => exact absurd (List.find?_eq_none.1 hf _ h) (by simp)
    | some e =>
      have hk : e.1 = k := by simpa using List.find?_some hf
      have he : e = (k, v) := eq_of_mem_of_fst_eq (List.mem_of_find?_eq_some hf) h hk
      simp [find?, hf, he]

theorem find?_eq_none_iff {m : OrdMap α β} {k : α} : m.find? k = none ↔ k ∉ m.keys := by
  rw [mem_keys, Option.eq_none_iff_forall_ne_some]
  simp only [ne_eq, find?_eq_some_iff, not_exists]

theorem contains_iff {m : OrdMap α β} {k : α} : m.contains k = true ↔ k ∈ m.keys := by
  rw [contains, Option.isSome_iff_exists, mem_keys]
  simp only [find?_eq_some_iff]

@[simp] theorem find?_empty (k : α) : (∅ : OrdMap α β).find? k = none := rfl

theorem find?_insert (m : OrdMap α β) (k : α) (v : β) (a : α) :
    (m.insert k v).find? a = if a = k then some v else m.find? a := by
  refine Option.ext fun w => ?_
  rw [find?_eq_some_iff, mem_insert]
  split_ifs with h
  · subst h; simp [eq_comm]
  · simp [h, find?_eq_some_iff]

theorem find?_erase (m : OrdMap α β) (k a : α) :
    (m.erase k).find? a = if a = k then none else m.find? a := by
  refine Option.ext fun w => ?_
  rw [find?_eq_some_iff, mem_erase]
  split_ifs with h
  · subst h; simp
  · simp [h, find?_eq_some_iff]

theorem getD_of_mem {m : OrdMap α β} {k : α} {v d : β} (h : (k, v) ∈ m) : m.getD k d = v := by
  rw [getD, find?_eq_some_iff.2 h]; rfl

theorem getD_of_not_mem {m : OrdMap α β} {k : α} {d : β} (h : k ∉ m.keys) : m.getD k d = d := by
  rw [getD, find?_eq_none_iff.2 h]; rfl

@[simp] theorem getD_empty (k : α) (d : β) : (∅ : OrdMap α β).getD k d = d := rfl

theorem getD_insert (m : OrdMap α β) (k : α) (v : β) (a : α) (d : β) :
    (m.insert k v).getD a d = if a = k then v else m.getD a d := by
  rw [getD, find?_insert, getD]
  split_ifs <;> rfl

theorem getD_erase (m : OrdMap α β) (k a : α) (d : β) :
    (m.erase k).getD a d = if a = k then d else m.getD a d := by
  rw [getD, find?_erase, getD]
  split_ifs <;> rfl

theorem getD_update (m : OrdMap α β) (k : α) (d : β) (f : β → β) (a : α) :
    (m.update k d f).getD a d = if a = k then f (m.getD k d) else m.getD a d :=
  getD_insert ..

theorem ext_find? {m n : OrdMap α β} (h : ∀ k, m.find? k = n.find? k) : m = n := by
  apply ext_mem
  intro e
  rw [← find?_eq_some_iff, ← find?_eq_some_iff, h]

/-- Updates of different entries commute, and so do updates with functions that commute. -/
theorem update_comm (m : OrdMap α β) (a b : α) (d : β) {f g : β → β}
    (h : ∀ v, f (g v) = g (f v)) :
    (m.update a d f).update b d g = (m.update b d g).update a d f := by
  apply ext_find?
  intro k
  simp only [update, find?_insert, getD_insert]
  by_cases hab : a = b
  · subst hab
    by_cases hka : k = a
    · simp [hka, h]
    · simp [hka]
  · by_cases hka : k = a
    · subst hka
      simp [hab]
    · by_cases hkb : k = b
      · subst hkb
        simp [hka]
      · simp [hka, hkb]

/-- Reading a missing entry does not change any lookup with the same default. -/
@[simp] theorem getD_touch (m : OrdMap α β) (k : α) (d : β) (a : α) :
    (m.touch k d).getD a d = m.getD a d := by
  unfold touch
  split_ifs with h
  · rfl
  · rw [getD_insert]
    split_ifs with ha
    · subst ha
      exact (getD_of_not_mem fun hk => h (contains_iff.2 hk)).symm
    · rfl

theorem touch_eq_self_iff {m : OrdMap α β} {k : α} {d : β} : m.touch k d = m ↔ k ∈ m.keys := by
  unfold touch
  split_ifs with h
  · exact iff_of_true rfl (contains_iff.1 h)
  · refine iff_of_false (fun he => h (contains_iff.2 (mem_keys.2 ⟨d, ?_⟩)))
      fun hk => h (contains_iff.2 hk)
    rw [← he]
    exact mem_insert.2 (Or.inl rfl)

/-! ## Keys -/

theorem mem_keys_insert {m : OrdMap α β} {k a : α} {v : β} :
    a ∈ (m.insert k v).keys ↔ a = k ∨ a ∈ m.keys := by
  simp only [mem_keys, mem_insert]
  by_cases h : a = k <;> simp [h]

theorem mem_keys_update {m : OrdMap α β} {k a : α} {d : β} {f : β → β} :
    a ∈ (m.update k d f).keys ↔ a = k ∨ a ∈ m.keys :=
  mem_keys_insert

theorem mem_keys_touch {m : OrdMap α β} {k a : α} {d : β} :
    a ∈ (m.touch k d).keys ↔ a = k ∨ a ∈ m.keys := by
  unfold touch
  split_ifs with h
  · exact ⟨Or.inr, fun ha => ha.elim (fun e => e ▸ contains_iff.1 h) id⟩
  · exact mem_keys_insert

theorem mem_keys_erase {m : OrdMap α β} {k a : α} : a ∈ (m.erase k).keys ↔ a ≠ k ∧ a ∈ m.keys := by
  simp [mem_keys, mem_erase]

theorem mem_touch {m : OrdMap α β} {k : α} {d : β} {e : α × β} :
    e ∈ m.touch k d ↔ e ∈ m ∨ e = (k, d) ∧ k ∉ m.keys := by
  unfold touch
  split_ifs with hk
  · rw [contains_iff] at hk
    exact ⟨Or.inl, fun h => h.resolve_right fun hnew => hnew.2 hk⟩
  · rw [contains_iff] at hk
    rw [mem_insert]
    constructor
    · rintro (rfl | ⟨-, he⟩)
      · exact Or.inr ⟨rfl, hk⟩
      · exact Or.inl he
    · rintro (he | ⟨rfl, -⟩)
      · exact Or.inr ⟨fun heq => hk (heq ▸ mem_keys.2 ⟨e.2, he⟩), he⟩
      · exact Or.inl rfl

theorem mem_union {m n : OrdMap α β} {e : α × β} :
    e ∈ m.union n ↔ e ∈ m ∨ e ∈ n ∧ e.1 ∉ m.keys := by
  have hlist : ∀ (l : List (α × β)) (m : OrdMap α β), (l.map Prod.fst).Nodup →
      (e ∈ l.foldl (fun m e => m.touch e.1 e.2) m ↔ e ∈ m ∨ e ∈ l ∧ e.1 ∉ m.keys) := by
    intro l
    induction l with
    | nil => simp
    | cons a l ih =>
      intro m hnodup
      obtain ⟨ha, hl⟩ := List.nodup_cons.1 hnodup
      rw [List.foldl_cons, ih _ hl, mem_touch, mem_keys_touch, List.mem_cons]
      have hne : e ∈ l → e.1 ≠ a.1 := fun he heq => ha (heq ▸ List.mem_map_of_mem he)
      constructor
      · rintro ((he | ⟨rfl, hk⟩) | ⟨he, hk⟩)
        · exact Or.inl he
        · exact Or.inr ⟨Or.inl rfl, hk⟩
        · exact Or.inr ⟨Or.inr he, fun h => hk (Or.inr h)⟩
      · rintro (he | ⟨rfl | he, hk⟩)
        · exact Or.inl (Or.inl he)
        · exact Or.inl (Or.inr ⟨rfl, hk⟩)
        · exact Or.inr ⟨he, fun h => h.elim (hne he) hk⟩
  exact hlist n.entries m n.keys_nodup

theorem entries_sublist {m n : OrdMap α β} (h : ∀ e ∈ m, e ∈ n) : m.entries.Sublist n.entries := by
  have hasymm : Std.Antisymm fun a b : α × β => a.1 < b.1 :=
    ⟨fun _ _ hab hba => absurd hba (lt_asymm hab)⟩
  have hnodup : m.entries.Nodup := m.keys_nodup.of_map
  exact List.sublist_of_subperm_of_pairwise (List.subperm_of_subset hnodup h) m.sorted n.sorted

theorem mem_mapEntries {m : OrdMap α β} {f : α → β → γ} {e : α × γ} :
    e ∈ m.mapEntries f ↔ ∃ v, (e.1, v) ∈ m ∧ f e.1 v = e.2 := by
  rw [mem_def, mapEntries, List.mem_map]
  constructor
  · rintro ⟨a, ha, rfl⟩
    exact ⟨a.2, ha, rfl⟩
  · rintro ⟨v, hv, hf⟩
    exact ⟨(e.1, v), hv, Prod.ext rfl hf⟩

theorem mapEntries_self (m : OrdMap α β) : (m.mapEntries fun _ v => v) = m := by
  apply ext_mem
  rintro ⟨k, v⟩
  simp [mem_mapEntries]

theorem keys_mapEntries (m : OrdMap α β) (f : α → β → γ) : (m.mapEntries f).keys = m.keys := by
  simp [keys, mapEntries]

/-- A fold whose steps add exactly the keys that the folded elements name. -/
theorem mem_keys_foldl (step : OrdMap α β → γ → OrdMap α β) {names : γ → α → Prop}
    (hstep : ∀ m x k, k ∈ (step m x).keys ↔ k ∈ m.keys ∨ names x k) {l : List γ}
    {m : OrdMap α β} {k : α} :
    k ∈ (l.foldl step m).keys ↔ k ∈ m.keys ∨ ∃ x ∈ l, names x k := by
  induction l generalizing m with
  | nil => simp
  | cons x rest ih => rw [List.foldl_cons, ih, hstep, or_assoc, List.exists_mem_cons_iff]

theorem length_keys (m : OrdMap α β) : m.keys.length = m.size := List.length_map _

/-- The keys as a finite set. -/
def keySet (m : OrdMap α β) : Finset α := m.keys.toFinset

theorem mem_keySet {m : OrdMap α β} {k : α} : k ∈ m.keySet ↔ k ∈ m.keys := List.mem_toFinset

theorem card_keySet (m : OrdMap α β) : m.keySet.card = m.size := by
  rw [keySet, List.toFinset_card_of_nodup m.keys_nodup, length_keys]

/-- Counting values is counting keys. -/
theorem card_filter_keySet (m : OrdMap α β) (p : β → Bool) :
    (m.keySet.filter fun k => (m.find? k).any p = true).card = m.values.countP p := by
  have hnodup : ((m.entries.filter fun e => p e.2).map Prod.fst).Nodup :=
    m.keys_nodup.sublist (List.filter_sublist.map _)
  have hkeys : (m.keySet.filter fun k => (m.find? k).any p = true) =
      ((m.entries.filter fun e => p e.2).map Prod.fst).toFinset := by
    ext k
    simp only [Finset.mem_filter, mem_keySet, List.mem_toFinset, List.mem_map, List.mem_filter,
      Option.any_eq_true, find?_eq_some_iff]
    constructor
    · rintro ⟨-, v, hv, hp⟩
      exact ⟨(k, v), ⟨hv, hp⟩, rfl⟩
    · rintro ⟨e, ⟨he, hp⟩, rfl⟩
      exact ⟨mem_keys.2 ⟨e.2, he⟩, e.2, he, hp⟩
  rw [hkeys, List.toFinset_card_of_nodup hnodup, List.length_map, values, List.countP_map,
    List.countP_eq_length_filter]
  rfl

theorem size_insert_le (m : OrdMap α β) (k : α) (v : β) : (m.insert k v).size ≤ m.size + 1 := by
  have hsub : (m.insert k v).keySet ⊆ Insert.insert k m.keySet := by
    intro a ha
    rw [mem_keySet, mem_keys_insert] at ha
    exact Finset.mem_insert.2 (ha.imp id mem_keySet.2)
  rw [← card_keySet, ← card_keySet]
  exact (Finset.card_le_card hsub).trans (Finset.card_insert_le _ _)

/-! ## Values that know their keys -/

/-- File every value under its own key, one after the other. -/
def ofValues (key : β → α) (values : List β) : OrdMap α β :=
  values.foldl (fun m v => m.insert (key v) v) ∅

theorem map_key_values {key : β → α} {m : OrdMap α β} (h : ∀ e ∈ m, e.1 = key e.2) :
    m.values.map key = m.keys := by
  rw [values, keys, List.map_map]
  exact List.map_congr_left fun e he => (h e he).symm

/-- Every value is under its own key. -/
def Keyed (key : β → α) (m : OrdMap α β) : Prop := ∀ e ∈ m, e.1 = key e.2

namespace Keyed

variable {key : β → α} {m : OrdMap α β}

theorem empty : Keyed key (∅ : OrdMap α β) := fun e he => absurd he (not_mem_empty e)

theorem insert (h : m.Keyed key) {k : α} {v : β} (hk : k = key v) : (m.insert k v).Keyed key := by
  intro e he
  rcases mem_insert.1 he with rfl | ⟨-, he⟩
  · exact hk
  · exact h e he

theorem mono (h : m.Keyed key) {m' : OrdMap α β} (hsub : ∀ e ∈ m', e ∈ m) : m'.Keyed key :=
  fun e he => h e (hsub e he)

theorem values_nodup (h : m.Keyed key) : m.values.Nodup :=
  List.Nodup.of_map key (by rw [map_key_values h]; exact m.keys_nodup)

end Keyed

/-! ## Sums -/

/-- A sum over the values is a sum of lookups, over any set that covers the keys. -/
theorem sum_values {M : Type*} [AddCommMonoid M] (m : OrdMap α β) (f : β → M) {d : β}
    (hd : f d = 0) {S : Finset α} (hS : m.keySet ⊆ S) :
    (m.values.map f).sum = ∑ k ∈ S, f (m.getD k d) := by
  have hkeys : (m.values.map f).sum = ∑ k ∈ m.keySet, f (m.getD k d) := by
    rw [keySet, List.sum_toFinset _ m.keys_nodup, values, keys, List.map_map, List.map_map]
    refine congrArg List.sum (List.map_congr_left fun e he => ?_)
    rw [Function.comp_apply, Function.comp_apply, getD_of_mem (v := e.2) he]
  rw [hkeys]
  refine Finset.sum_subset hS fun k _ hk => ?_
  rw [getD_of_not_mem fun h => hk (mem_keySet.2 h), hd]

end OrdMap
