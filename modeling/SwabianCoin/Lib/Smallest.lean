import SwabianCoin.Lib.Ballot

/-!
# The smallest entries of a set

Entries are offered one at a time to a map that keeps at most `n` of them. Entries may compete: of
all entries in one group only that with the lowest key is wanted (`Lowest`). `IsSmallest n S T`
says that the map `T` holds the `n` entries of `S` with the smallest keys, or all if there are
fewer. There is at most one such map (`IsSmallest.unique`), and admitting an entry, getting rid of
its rivals and dropping the largest key keeps the map right for the larger set
(`IsSmallest.letIn`). So it does not matter in which order entries are offered, or how often.
-/

variable {α β δ : Type*} [LinearOrder α]

/-- Entries with the same key are the same. -/
def UniqueKeys (U : Set (α × β)) : Prop := ∀ e ∈ U, ∀ f ∈ U, e.1 = f.1 → e = f

/-- The entries with the lowest key of their group. -/
def Lowest (group : α × β → δ) (U : Set (α × β)) : Set (α × β) :=
  {e | e ∈ U ∧ ∀ f ∈ U, group f = group e → e.1 ≤ f.1}

/-- `T` holds the `n` entries of `S` with the smallest keys. -/
structure IsSmallest (n : Nat) (S : Set (α × β)) (T : OrdMap α β) : Prop where
  mem : ∀ e ∈ T, e ∈ S
  lt : ∀ t ∈ T, ∀ s ∈ S, s ∉ T → t.1 < s.1
  size_le : T.size ≤ n
  all : T.size < n → ∀ s ∈ S, s ∈ T

namespace IsSmallest

variable {n : Nat} {S : Set (α × β)} {T T' : OrdMap α β}

theorem mem_of_mem (h : IsSmallest n S T) (h' : IsSmallest n S T') {e : α × β} (he : e ∈ T) :
    e ∈ T' := by
  by_contra hnot
  have heS := h.mem e he
  -- Everything in `T'` is below `e` and so in `T`, which is then too large.
  have hbelow : ∀ t ∈ T', t.1 < e.1 := fun t ht => h'.lt t ht e heS hnot
  have hsub : T'.keySet ⊆ T.keySet.erase e.1 := by
    intro k hk
    obtain ⟨v, hv⟩ := OrdMap.mem_keys.1 (OrdMap.mem_keySet.1 hk)
    refine Finset.mem_erase.2 ⟨ne_of_lt (hbelow (k, v) hv), ?_⟩
    refine OrdMap.mem_keySet.2 (OrdMap.mem_keys.2 ⟨v, ?_⟩)
    by_contra hout
    exact lt_asymm (hbelow (k, v) hv) (h.lt e he (k, v) (h'.mem _ hv) hout)
  have hek : e.1 ∈ T.keySet := OrdMap.mem_keySet.2 (OrdMap.mem_keys.2 ⟨e.2, he⟩)
  have hcard := Finset.card_le_card hsub
  rw [Finset.card_erase_of_mem hek, OrdMap.card_keySet, OrdMap.card_keySet] at hcard
  have hpos : 0 < T.size := by
    rw [← OrdMap.card_keySet]
    exact Finset.card_pos.2 ⟨e.1, hek⟩
  have hle := h.size_le
  exact hnot (h'.all (by omega) e heS)

/-- **There is only one such map.** -/
theorem unique (h : IsSmallest n S T) (h' : IsSmallest n S T') : T = T' :=
  OrdMap.ext_mem fun _ => ⟨h.mem_of_mem h', h'.mem_of_mem h⟩

theorem self (T : OrdMap α β) (h : T.size ≤ n) : IsSmallest n {e | e ∈ T} T where
  mem _ he := he
  lt _ _ _ hs hnot := absurd hs hnot
  size_le := h
  all _ _ hs := hs

end IsSmallest

/-! ## Groups -/

section Lowest

variable {group : α × β → δ} {U : Set (α × β)} {x e r : α × β}

theorem lowest_eq_self (h : ∀ e ∈ U, ∀ f ∈ U, group e = group f → e = f) : Lowest group U = U := by
  ext e
  refine ⟨fun he => he.1, fun he => ⟨he, fun f hf hg => ?_⟩⟩
  rw [h f hf e he hg]

theorem eq_of_lowest_of_group_eq (hkeys : UniqueKeys U) (he : e ∈ Lowest group U)
    (hr : r ∈ Lowest group U) (h : group e = group r) : e = r :=
  hkeys e he.1 r hr.1 (le_antisymm (he.2 r hr.1 h.symm) (hr.2 e he.1 h))

theorem exists_lowest [WellFoundedLT α] (group : α × β → δ) (he : e ∈ U) :
    ∃ r ∈ Lowest group U, group r = group e ∧ r.1 ≤ e.1 := by
  have hne : {k | ∃ f ∈ U, group f = group e ∧ f.1 = k}.Nonempty := ⟨e.1, e, he, rfl, rfl⟩
  obtain ⟨r, hr, hg, hk⟩ := wellFounded_lt.min_mem _ hne
  have hmin : ∀ f ∈ U, group f = group e → r.1 ≤ f.1 := by
    intro f hf hgf
    rw [hk]
    have hmem : f.1 ∈ {k | ∃ f ∈ U, group f = group e ∧ f.1 = k} := ⟨f, hf, hgf, rfl⟩
    exact not_lt.1 (wellFounded_lt.not_lt_min _ hmem)
  exact ⟨r, ⟨hr, fun f hf hgf => hmin f hf (hgf.trans hg)⟩, hg, hmin e he rfl⟩

theorem lowest_of_insert (h : e ∈ Lowest group (insert x U)) (hne : e ≠ x) :
    e ∈ Lowest group U :=
  ⟨h.1.resolve_left hne, fun f hf => h.2 f (Or.inr hf)⟩

theorem lowest_insert_of_group_ne (h : e ∈ Lowest group U) (hne : group e ≠ group x) :
    e ∈ Lowest group (insert x U) := by
  refine ⟨Or.inr h.1, fun f hf hg => ?_⟩
  rcases hf with rfl | hf
  · exact absurd hg.symm hne
  · exact h.2 f hf hg

theorem lowest_insert_of_lt (hr : r ∈ U) (hg : group r = group x) (hlt : r.1 < x.1) :
    Lowest group (insert x U) = Lowest group U := by
  ext e
  constructor
  · intro he
    refine lowest_of_insert he ?_
    rintro rfl
    exact absurd (he.2 r (Or.inr hr) hg) (not_le.2 hlt)
  · intro he
    refine ⟨Or.inr he.1, fun f hf hgf => ?_⟩
    rcases hf with rfl | hf
    · exact (he.2 r hr (hg.trans hgf)).trans hlt.le
    · exact he.2 f hf hgf

theorem mem_lowest_insert_self (h : ∀ f ∈ U, group f = group x → x.1 ≤ f.1) :
    x ∈ Lowest group (insert x U) := by
  refine ⟨Or.inl rfl, fun f hf hg => ?_⟩
  rcases hf with rfl | hf
  · exact le_refl _
  · exact h f hf hg

end Lowest

/-! ## Admitting an entry -/

namespace IsSmallest

variable {n : Nat} {group : α × β → δ} {U : Set (α × β)} {x : α × β} {T T' : OrdMap α β}

/-- No rival is in the map, and there is room. -/
theorem letIn_room [WellFoundedLT α] (h : IsSmallest n (Lowest group U) T)
    (hrival : ∀ e ∈ T, group e ≠ group x) (hT' : ∀ e, e ∈ T' ↔ e = x ∨ e ∈ T)
    (hsize : T'.size = T.size + 1) (hroom : T.size < n) :
    IsSmallest n (Lowest group (insert x U)) T' := by
  have hall := h.all hroom
  have hx : x ∈ Lowest group (insert x U) := by
    refine mem_lowest_insert_self fun f hf hg => ?_
    obtain ⟨r, hr, hgr, -⟩ := exists_lowest group hf
    exact absurd (hgr.trans hg) (hrival r (hall r hr))
  refine ⟨fun e he => ?_, fun t _ s hs hnot => ?_, by omega, fun _ s hs => ?_⟩
  · rcases (hT' e).1 he with rfl | he
    · exact hx
    · exact lowest_insert_of_group_ne (h.mem e he) (hrival e he)
  · refine absurd ?_ hnot
    by_cases hsx : s = x
    · exact (hT' s).2 (Or.inl hsx)
    · exact (hT' s).2 (Or.inr (hall s (lowest_of_insert hs hsx)))
  · by_cases hsx : s = x
    · exact (hT' s).2 (Or.inl hsx)
    · exact (hT' s).2 (Or.inr (hall s (lowest_of_insert hs hsx)))

/-- No rival is in the map, and the largest key has to go. -/
theorem letIn_full [WellFoundedLT α] (h : IsSmallest n (Lowest group U) T)
    (hrival : ∀ e ∈ T, group e ≠ group x) (hT' : ∀ e, e ∈ T' ↔ e = x ∨ e ∈ T)
    (hsize : T'.size = T.size + 1) (hfull : T.size = n) :
    IsSmallest n (Lowest group (insert x U)) T'.eraseLast := by
  -- Below an entry of the map, the new one has no rival at all.
  have hx : ∀ f ∈ T, x.1 < f.1 → x ∈ Lowest group (insert x U) := by
    intro f hf hlt
    refine mem_lowest_insert_self fun g hg hgroup => ?_
    obtain ⟨r, hr, hgr, hle⟩ := exists_lowest group hg
    have hout : r ∉ T := fun hin => hrival r hin (hgr.trans hgroup)
    exact (hlt.trans (h.lt f hf r hr hout)).le.trans hle
  have hold : ∀ f ∈ T', x.1 < f.1 → f ∈ T := by
    intro f hf hlt
    rcases (hT' f).1 hf with rfl | hf
    · exact absurd hlt (lt_irrefl _)
    · exact hf
  have hsize' := OrdMap.size_eraseLast T'
  refine ⟨fun e he => ?_, fun t ht s hs hnot => ?_, by omega, fun hlt => by omega⟩
  · obtain ⟨he, f, hf, hlt⟩ := OrdMap.mem_eraseLast.1 he
    rcases (hT' e).1 he with rfl | he
    · exact hx f (hold f hf hlt) hlt
    · exact lowest_insert_of_group_ne (h.mem e he) (hrival e he)
  · obtain ⟨ht, f, hf, hlt⟩ := OrdMap.mem_eraseLast.1 ht
    by_cases hsT' : s ∈ T'
    · -- `s` is the entry that went.
      have hmax : ¬ ∃ g ∈ T', s.1 < g.1 := fun hg => hnot (OrdMap.mem_eraseLast.2 ⟨hsT', hg⟩)
      push Not at hmax
      exact hlt.trans_le (hmax f hf)
    · have hsx : s ≠ x := fun heq => hsT' ((hT' s).2 (Or.inl heq))
      have hsT : s ∉ T := fun hin => hsT' ((hT' s).2 (Or.inr hin))
      have hsS := lowest_of_insert hs hsx
      rcases (hT' t).1 ht with rfl | ht
      · exact hlt.trans (h.lt f (hold f hf hlt) s hsS hsT)
      · exact h.lt t ht s hsS hsT

/-- The new entry takes the place of a rival with a larger key. -/
theorem letIn_replace {r : α × β} (hkeys : UniqueKeys (insert x U))
    (h : IsSmallest n (Lowest group U) T) (hr : r ∈ T) (hgroup : group r = group x)
    (hlt : x.1 < r.1) (hT' : ∀ e, e ∈ T' ↔ e = x ∨ e ∈ T ∧ group e ≠ group x)
    (hsize : T'.size = T.size) : IsSmallest n (Lowest group (insert x U)) T' := by
  have hx : x ∈ Lowest group (insert x U) :=
    mem_lowest_insert_self fun f hf hg =>
      hlt.le.trans ((h.mem r hr).2 f hf (hg.trans hgroup.symm))
  have hother : ∀ s ∈ Lowest group (insert x U), s ∉ T' → s ∈ Lowest group U ∧ s ∉ T := by
    intro s hs hnot
    have hsx : s ≠ x := fun heq => hnot ((hT' s).2 (Or.inl heq))
    refine ⟨lowest_of_insert hs hsx, fun hin => ?_⟩
    have hg : group s = group x := by
      by_contra hg
      exact hnot ((hT' s).2 (Or.inr ⟨hin, hg⟩))
    exact hsx (eq_of_lowest_of_group_eq hkeys hs hx hg)
  have hle := h.size_le
  refine ⟨fun e he => ?_, fun t ht s hs hnot => ?_, by omega, fun hroom s hs => ?_⟩
  · rcases (hT' e).1 he with rfl | ⟨he, hg⟩
    · exact hx
    · exact lowest_insert_of_group_ne (h.mem e he) hg
  · obtain ⟨hsS, hsT⟩ := hother s hs hnot
    rcases (hT' t).1 ht with rfl | ⟨ht, -⟩
    · exact hlt.trans (h.lt r hr s hsS hsT)
    · exact h.lt t ht s hsS hsT
  · by_contra hnot
    obtain ⟨hsS, hsT⟩ := hother s hs hnot
    exact hsT (h.all (by omega) s hsS)

theorem size_of_gained (hx : x.1 ∉ T.keys) (hT' : ∀ e, e ∈ T' ↔ e = x ∨ e ∈ T) :
    T'.size = T.size + 1 := by
  have hset : T'.keySet = insert x.1 T.keySet := by
    ext k
    rw [Finset.mem_insert, OrdMap.mem_keySet, OrdMap.mem_keySet, OrdMap.mem_keys, OrdMap.mem_keys]
    constructor
    · rintro ⟨v, hv⟩
      rcases (hT' _).1 hv with rfl | hv
      · exact Or.inl rfl
      · exact Or.inr ⟨v, hv⟩
    · rintro (rfl | ⟨v, hv⟩)
      · exact ⟨x.2, (hT' _).2 (Or.inl rfl)⟩
      · exact ⟨v, (hT' _).2 (Or.inr hv)⟩
  rw [← OrdMap.card_keySet, hset, Finset.card_insert_of_notMem fun h => hx (OrdMap.mem_keySet.1 h),
    OrdMap.card_keySet]

theorem size_of_replaced {r : α × β} (hx : x.1 ∉ T.keys) (hr : r ∈ T)
    (hT' : ∀ e, e ∈ T' ↔ e = x ∨ e ∈ T ∧ e ≠ r) : T'.size = T.size := by
  have hrk : r.1 ∈ T.keySet := OrdMap.mem_keySet.2 (OrdMap.mem_keys.2 ⟨r.2, hr⟩)
  have hset : T'.keySet = insert x.1 (T.keySet.erase r.1) := by
    ext k
    rw [Finset.mem_insert, Finset.mem_erase, OrdMap.mem_keySet, OrdMap.mem_keySet, OrdMap.mem_keys,
      OrdMap.mem_keys]
    constructor
    · rintro ⟨v, hv⟩
      rcases (hT' _).1 hv with rfl | ⟨hv, hne⟩
      · exact Or.inl rfl
      · exact Or.inr ⟨fun hk => hne (OrdMap.eq_of_mem_of_fst_eq hv hr hk), v, hv⟩
    · rintro (rfl | ⟨hk, v, hv⟩)
      · exact ⟨x.2, (hT' _).2 (Or.inl rfl)⟩
      · exact ⟨v, (hT' _).2 (Or.inr ⟨hv, fun heq => hk (congrArg Prod.fst heq)⟩)⟩
  have hxk : x.1 ∉ T.keySet.erase r.1 := fun h =>
    hx (OrdMap.mem_keySet.1 (Finset.mem_of_mem_erase h))
  have hpos : 0 < T.keySet.card := Finset.card_pos.2 ⟨r.1, hrk⟩
  rw [← OrdMap.card_keySet, hset, Finset.card_insert_of_notMem hxk,
    Finset.card_erase_of_mem hrk, ← OrdMap.card_keySet]
  omega

theorem eq_self_of_rival_lt {r : α × β} (hr : r ∈ T) (hgroup : group r = group x)
    (honly : ∀ e ∈ T, group e = group x → e = r) (hlt : r.1 < x.1)
    (hT' : ∀ e, e ∈ T' ↔ (e = x ∨ e ∈ T) ∧
      (group e = group x → ∀ f, f = x ∨ f ∈ T → group f = group x → e.1 ≤ f.1)) :
    T' = T := by
  refine OrdMap.ext_mem fun e => ?_
  rw [hT']
  constructor
  · intro ⟨he, hlowest⟩
    rcases he with rfl | he
    · exact absurd (hlowest rfl r (Or.inr hr) hgroup) (not_le.2 hlt)
    · exact he
  · intro he
    refine ⟨Or.inr he, fun hg f hf hgf => ?_⟩
    rw [honly e he hg]
    rcases hf with rfl | hf
    · exact hlt.le
    · rw [honly f hf hgf]

/-- A rival with a larger key goes when the new entry is put in. -/
theorem mem_iff_of_lt_rival {r : α × β} (honly : ∀ e ∈ T, group e = group x → e = r)
    (hlt : x.1 < r.1)
    (hT' : ∀ e, e ∈ T' ↔ (e = x ∨ e ∈ T) ∧
      (group e = group x → ∀ f, f = x ∨ f ∈ T → group f = group x → e.1 ≤ f.1))
    (e : α × β) : e ∈ T' ↔ e = x ∨ e ∈ T ∧ group e ≠ group x := by
  rw [hT']
  constructor
  · intro ⟨he, hlowest⟩
    rcases he with rfl | he
    · exact Or.inl rfl
    · refine Or.inr ⟨he, fun hg => ?_⟩
      have hle := hlowest hg x (Or.inl rfl) rfl
      rw [honly e he hg] at hle
      exact absurd hle (not_le.2 hlt)
  · intro he
    rcases he with rfl | ⟨he, hg⟩
    · refine ⟨Or.inl rfl, fun _ f hf hgf => ?_⟩
      rcases hf with rfl | hf
      · exact le_refl _
      · rw [honly f hf hgf]
        exact hlt.le
    · exact ⟨Or.inr he, fun hg' => absurd hg' hg⟩

theorem mem_iff_of_no_rival (hrival : ∀ e ∈ T, group e ≠ group x)
    (hT' : ∀ e, e ∈ T' ↔ (e = x ∨ e ∈ T) ∧
      (group e = group x → ∀ f, f = x ∨ f ∈ T → group f = group x → e.1 ≤ f.1))
    (e : α × β) : e ∈ T' ↔ e = x ∨ e ∈ T := by
  rw [hT']
  refine ⟨And.left, fun he => ⟨he, fun hg f hf hgf => ?_⟩⟩
  rcases he with rfl | he
  · rcases hf with rfl | hf
    · exact le_refl _
    · exact absurd hgf (hrival f hf)
  · exact absurd hg (hrival e he)

/-- **One entry.** An entry whose key is new is put in, all its rivals but the lowest go, and so
does the largest key if there are too many. -/
theorem letIn [WellFoundedLT α] (hkeys : UniqueKeys (insert x U))
    (h : IsSmallest n (Lowest group U) T) (hx : x.1 ∉ T.keys)
    (hT' : ∀ e, e ∈ T' ↔ (e = x ∨ e ∈ T) ∧
      (group e = group x → ∀ f, f = x ∨ f ∈ T → group f = group x → e.1 ≤ f.1)) :
    IsSmallest n (Lowest group (insert x U)) (if n < T'.size then T'.eraseLast else T') := by
  have hle := h.size_le
  have hkeysU : UniqueKeys U := fun e he f hf => hkeys e (Or.inr he) f (Or.inr hf)
  by_cases hrival : ∃ r ∈ T, group r = group x
  · obtain ⟨r, hr, hgroup⟩ := hrival
    -- The rival is the only one.
    have honly : ∀ e ∈ T, group e = group x → e = r := fun e he hg =>
      eq_of_lowest_of_group_eq hkeysU (h.mem e he) (h.mem r hr) (hg.trans hgroup.symm)
    have hne : r.1 ≠ x.1 := fun heq => hx (heq ▸ OrdMap.mem_keys.2 ⟨r.2, hr⟩)
    rcases lt_or_gt_of_ne hne with hlt | hlt
    · have heq : T' = T := eq_self_of_rival_lt hr hgroup honly hlt hT'
      rw [heq, if_neg (by omega), lowest_insert_of_lt (h.mem r hr).1 hgroup hlt]
      exact h
    · have hmem := mem_iff_of_lt_rival honly hlt hT'
      have hsize : T'.size = T.size := by
        refine size_of_replaced hx hr fun e => ?_
        rw [hmem]
        refine or_congr_right (and_congr_right fun he => not_congr ⟨honly e he, fun heq => ?_⟩)
        rw [heq, hgroup]
      rw [if_neg (by omega)]
      exact h.letIn_replace hkeys hr hgroup hlt hmem hsize
  · have hrival : ∀ e ∈ T, group e ≠ group x := fun e he hg => hrival ⟨e, he, hg⟩
    have hmem := mem_iff_of_no_rival hrival hT'
    have hsize := size_of_gained hx hmem
    by_cases hroom : T.size < n
    · rw [if_neg (by omega)]
      exact h.letIn_room hrival hmem hsize hroom
    · rw [if_pos (by omega)]
      exact h.letIn_full hrival hmem hsize (by omega)

end IsSmallest

/-! ## Ballots -/

/-- Admitting puts the entry in, gets rid of its rivals, and drops the largest key if there are
more than `n`. -/
def AdmitsSmallest (group : α × β → δ) (n : Nat) (letIn : OrdMap α β → α → β → OrdMap α β) : Prop :=
  ∀ (T : OrdMap α β) (x : α × β), x.1 ∉ T.keys → ∃ T' : OrdMap α β,
    (∀ e, e ∈ T' ↔ (e = x ∨ e ∈ T) ∧
      (group e = group x → ∀ f, f = x ∨ f ∈ T → group f = group x → e.1 ≤ f.1)) ∧
    letIn T x.1 x.2 = if n < T'.size then T'.eraseLast else T'

namespace Ballot

variable {letIn : OrdMap α β → α → β → OrdMap α β} {n : Nat} {group : α × β → δ}
  {U : Set (α × β)} {ballot : Ballot α β} {threshold : UInt32}

/-- One proposal is taken into account or not, and it is if its count suffices. -/
theorem offer_isSmallest [WellFoundedLT α] (hletIn : AdmitsSmallest group n letIn) {x : α × β}
    (hkeys : UniqueKeys (insert x U)) (h : IsSmallest n (Lowest group U) ballot.admitted) :
    ∃ V, U ⊆ V ∧ V ⊆ insert x U ∧
      IsSmallest n (Lowest group V) (offer letIn threshold ballot x).admitted ∧
      (threshold ≤ ballot.counter.getD x.1 0 + 1 → x ∈ V) := by
  rcases offer_cases letIn threshold ballot x with ⟨hin, heq⟩ | ⟨-, hlt, heq⟩ | ⟨hout, -, heq⟩ <;>
    rw [heq]
  · -- The entry under this key is the offered one.
    obtain ⟨v, hv⟩ := OrdMap.mem_keys.1 hin
    have hU := (h.mem _ hv).1
    refine ⟨U, subset_rfl, Set.subset_insert x U, h, fun _ => ?_⟩
    rw [← hkeys _ (Or.inr hU) x (Or.inl rfl) rfl]
    exact hU
  · exact ⟨U, subset_rfl, Set.subset_insert x U, h, fun hge => absurd hlt (UInt32.not_lt.2 hge)⟩
  · obtain ⟨T', hT', hadmitted⟩ := hletIn ballot.admitted x hout
    refine ⟨insert x U, Set.subset_insert x U, subset_rfl, ?_, fun _ => Or.inl rfl⟩
    show IsSmallest n _ (letIn ballot.admitted x.1 x.2)
    rw [hadmitted]
    exact h.letIn hkeys hout hT'

theorem foldl_offer_isSmallest [WellFoundedLT α] (hletIn : AdmitsSmallest group n letIn)
    (proposals : List (α × β)) (hnodup : (proposals.map Prod.fst).Nodup)
    (hkeys : UniqueKeys (U ∪ {e | e ∈ proposals}))
    (h : IsSmallest n (Lowest group U) ballot.admitted) :
    ∃ V, U ⊆ V ∧ V ⊆ U ∪ {e | e ∈ proposals} ∧
      IsSmallest n (Lowest group V) (proposals.foldl (offer letIn threshold) ballot).admitted ∧
      ∀ e ∈ proposals, threshold ≤ ballot.counter.getD e.1 0 + 1 → e ∈ V := by
  induction proposals generalizing ballot U with
  | nil => exact ⟨U, subset_rfl, Set.subset_union_left, h, fun e he => absurd he List.not_mem_nil⟩
  | cons x rest ih =>
    obtain ⟨hhead, hrest⟩ := List.nodup_cons.1 hnodup
    have hsub : insert x U ∪ {e | e ∈ rest} ⊆ U ∪ {e | e ∈ x :: rest} := by
      intro e he
      rcases he with (rfl | he) | he
      · exact Or.inr (List.mem_cons_self ..)
      · exact Or.inl he
      · exact Or.inr (List.mem_cons_of_mem _ he)
    have hkeysx : UniqueKeys (insert x U) := fun e he f hf =>
      hkeys e (hsub (Or.inl he)) f (hsub (Or.inl hf))
    obtain ⟨W, hUW, hWU, hsmallest, hcount⟩ := offer_isSmallest hletIn hkeysx h
    have hsubW : W ∪ {e | e ∈ rest} ⊆ U ∪ {e | e ∈ x :: rest} :=
      (Set.union_subset_union_left _ hWU).trans hsub
    obtain ⟨V, hWV, hVW, hall, hcounts⟩ :=
      ih hrest (fun e he f hf => hkeys e (hsubW he) f (hsubW hf)) hsmallest
    refine ⟨V, hUW.trans hWV, hVW.trans hsubW, hall, fun e he hge => ?_⟩
    rcases List.mem_cons.1 he with rfl | he
    · exact hWV (hcount hge)
    · -- The counts of the others have not changed.
      have hne : e.1 ≠ x.1 := fun heq => hhead (heq ▸ List.mem_map_of_mem he)
      rw [← counter_offer_of_ne letIn threshold ballot x hne] at hge
      exact hcounts e he hge

/-- **Many proposals.** The map ends up with the smallest entries of what it had and of some of
the proposals, those with a sufficient count included. -/
theorem offerAll_isSmallest [WellFoundedLT α] (ballot : Ballot α β) (threshold : UInt32)
    (hletIn : AdmitsSmallest group n letIn) {proposals : OrdMap α β}
    (hkeys : UniqueKeys (U ∪ {e | e ∈ proposals}))
    (h : IsSmallest n (Lowest group U) ballot.admitted) :
    ∃ V, U ⊆ V ∧ V ⊆ U ∪ {e | e ∈ proposals} ∧
      IsSmallest n (Lowest group V) (offerAll letIn threshold ballot proposals).admitted ∧
      ∀ e ∈ proposals, threshold ≤ ballot.counter.getD e.1 0 + 1 → e ∈ V :=
  foldl_offer_isSmallest hletIn proposals.entries proposals.keys_nodup hkeys h

theorem counter_offer_one (letIn : OrdMap α β → α → β → OrdMap α β) (hcounter : ballot.counter = ∅)
    (x : α × β) : (offer letIn 1 ballot x).counter = ∅ := by
  rcases offer_cases letIn 1 ballot x with ⟨-, h⟩ | ⟨-, hlt, -⟩ | ⟨-, -, h⟩
  · rw [h]
    exact hcounter
  · rw [hcounter, OrdMap.getD_empty] at hlt
    exact absurd hlt (by decide)
  · rw [h, hcounter]
    refine OrdMap.ext_mem fun e => ?_
    rw [OrdMap.mem_erase, OrdMap.update, OrdMap.mem_insert]
    constructor
    · rintro ⟨hne, rfl | ⟨-, he⟩⟩
      · exact absurd rfl hne
      · exact he
    · exact fun he => absurd he (OrdMap.not_mem_empty e)

theorem counter_foldl_offer_one (letIn : OrdMap α β → α → β → OrdMap α β)
    (proposals : List (α × β)) (hcounter : ballot.counter = ∅) :
    (proposals.foldl (offer letIn 1) ballot).counter = ∅ := by
  induction proposals generalizing ballot with
  | nil => exact hcounter
  | cons x rest ih => exact ih (counter_offer_one letIn hcounter x)

/-- **Many proposals, one vote each.** With the threshold one, all of them count. -/
theorem offerAll_one_isSmallest [WellFoundedLT α] (ballot : Ballot α β)
    (hletIn : AdmitsSmallest group n letIn) {proposals : OrdMap α β}
    (hkeys : UniqueKeys (U ∪ {e | e ∈ proposals})) (hcounter : ballot.counter = ∅)
    (h : IsSmallest n (Lowest group U) ballot.admitted) :
    (offerAll letIn 1 ballot proposals).counter = ∅ ∧
      IsSmallest n (Lowest group (U ∪ {e | e ∈ proposals}))
        (offerAll letIn 1 ballot proposals).admitted := by
  refine ⟨counter_foldl_offer_one letIn proposals.entries hcounter, ?_⟩
  obtain ⟨V, hUV, hVU, hsmallest, hcounts⟩ := offerAll_isSmallest ballot 1 hletIn hkeys h
  have hV : V = U ∪ {e | e ∈ proposals} := by
    refine Set.Subset.antisymm hVU (Set.union_subset hUV fun e he => hcounts e he ?_)
    rw [hcounter, OrdMap.getD_empty]
    decide
  rw [← hV]
  exact hsmallest

end Ballot
