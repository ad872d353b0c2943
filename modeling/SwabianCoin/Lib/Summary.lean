import SwabianCoin.Lib.Smallest
import Mathlib.Combinatorics.Enumerative.DoubleCounting

/-!
# Summaries

The smallest entries of a set are a summary of it: to merge two sets it is enough to merge their
summaries (`IsSmallest.absorb`). So parties that only pass their summaries around still end up
with the summary of everything, as long as everybody's entries reach everybody in some summary.

`Accounts W U seen ballot` is the invariant of such a party. What it has admitted is the summary
of a set between `W`, the entries it must have taken into account, and `U`, all entries there are.
Of the entries it has `seen`, each is in this set or being counted.
-/

variable {α β δ : Type*} [LinearOrder α]

/-! ## Merging summaries -/

section Absorb

variable {n : Nat} {group : α × β → δ} {A U V : Set (α × β)} {T M : OrdMap α β}

theorem lowest_of_subset {e : α × β} (h : V ⊆ U) (he : e ∈ Lowest group U) (hV : e ∈ V) :
    e ∈ Lowest group V :=
  ⟨hV, fun f hf => he.2 f (h hf)⟩

/-- Entries of different groups have as many lowest rivals, so there are not more of them than
keys these can have. -/
theorem size_le_card_of_lowest [WellFoundedLT α] (hkeys : UniqueKeys A)
    (hgroups : ∀ e ∈ T, ∀ f ∈ T, group e = group f → e = f) (hsub : ∀ t ∈ T, t ∈ A)
    {F : Finset α}
    (hF : ∀ r ∈ Lowest group A, (∃ t ∈ T, group r = group t ∧ r.1 ≤ t.1) → r.1 ∈ F) :
    T.size ≤ F.card := by
  rw [← OrdMap.card_keySet]
  refine Finset.card_le_card_of_forall_subsingleton
    (fun k l => ∃ t ∈ T, t.1 = k ∧ ∃ r ∈ Lowest group A, r.1 = l ∧ group r = group t) ?_ ?_
  · intro k hk
    obtain ⟨v, hv⟩ := OrdMap.mem_keys.1 (OrdMap.mem_keySet.1 hk)
    obtain ⟨r, hr, hg, hle⟩ := exists_lowest group (hsub _ hv)
    exact ⟨r.1, hF r hr ⟨_, hv, hg, hle⟩, _, hv, rfl, r, hr, rfl, hg⟩
  · rintro l - k ⟨-, t, ht, rfl, r, hr, hkey, hg⟩ k' ⟨-, t', ht', rfl, r', hr', hkey', hg'⟩
    obtain rfl : r = r' := hkeys r hr.1 r' hr'.1 (hkey.trans hkey'.symm)
    rw [hgroups t ht t' ht' (hg.symm.trans hg')]

/-- A full summary leaves no room for an entry above all of it. -/
theorem IsSmallest.size_lt_of_lt [WellFoundedLT α] (hkeys : UniqueKeys A)
    (h : IsSmallest n (Lowest group A) M) {e : α × β} (he : e ∈ M)
    (hgroups : ∀ e ∈ T, ∀ f ∈ T, group e = group f → e = f) (hsub : ∀ t ∈ T, t ∈ A)
    (hlt : ∀ t ∈ T, t.1 < e.1) : T.size < n := by
  have hek : e.1 ∈ M.keySet := OrdMap.mem_keySet.2 (OrdMap.mem_keys.2 ⟨e.2, he⟩)
  have hle : T.size ≤ (M.keySet.erase e.1).card := by
    refine size_le_card_of_lowest hkeys hgroups hsub fun r hr hrival => ?_
    obtain ⟨t, ht, -, hrt⟩ := hrival
    have hbelow : r.1 < e.1 := hrt.trans_lt (hlt t ht)
    refine Finset.mem_erase.2 ⟨ne_of_lt hbelow, OrdMap.mem_keySet.2 (OrdMap.mem_keys.2 ⟨r.2, ?_⟩)⟩
    by_contra hout
    exact lt_asymm hbelow (h.lt e he r hr hout)
  have hpos : 0 < M.keySet.card := Finset.card_pos.2 ⟨e.1, hek⟩
  rw [Finset.card_erase_of_mem hek, OrdMap.card_keySet] at hle
  rw [OrdMap.card_keySet] at hpos
  have hn := h.size_le
  omega

/-- **Merging summaries.** The summary of a set and of the summary of another is the summary of
both sets. -/
theorem IsSmallest.absorb [WellFoundedLT α] (hkeys : UniqueKeys (U ∪ V))
    (hT : IsSmallest n (Lowest group V) T)
    (hM : IsSmallest n (Lowest group (U ∪ {e | e ∈ T})) M) :
    IsSmallest n (Lowest group (U ∪ V)) M := by
  have hTV : ∀ t ∈ T, t ∈ V := fun t ht => (hT.mem t ht).1
  have hsub : U ∪ {e | e ∈ T} ⊆ U ∪ V := Set.union_subset_union_right U hTV
  have hkeysV : UniqueKeys V := fun e he f hf => hkeys e (Or.inr he) f (Or.inr hf)
  have hkeysT : UniqueKeys (U ∪ {e | e ∈ T}) := fun e he f hf =>
    hkeys e (hsub he) f (hsub hf)
  have hgroups : ∀ e ∈ T, ∀ f ∈ T, group e = group f → e = f := fun e he f hf =>
    eq_of_lowest_of_group_eq hkeysV (hT.mem e he) (hT.mem f hf)
  -- What is missing in the summary of `V` lies above a full summary.
  have hfull : ∀ r ∈ Lowest group V, r ∉ T → T.size = n ∧ ∀ t ∈ T, t.1 < r.1 := by
    intro r hr hout
    refine ⟨le_antisymm hT.size_le ?_, fun t ht => hT.lt t ht r hr hout⟩
    by_contra hroom
    exact hout (hT.all (not_le.1 hroom) r hr)
  have hnone : ∀ e ∈ M, ∀ r ∈ Lowest group V, r ∉ T → e.1 < r.1 := by
    intro e he r hr hout
    by_contra hle
    obtain ⟨hsize, hbelow⟩ := hfull r hr hout
    have hlt := hM.size_lt_of_lt hkeysT he hgroups (fun t ht => Or.inr ht)
      fun t ht => (hbelow t ht).trans_le (not_lt.1 hle)
    omega
  refine ⟨fun e he => ?_, fun e he s hs hout => ?_, hM.size_le, fun hroom s hs => ?_⟩
  · have hlow := hM.mem e he
    refine ⟨hsub hlow.1, fun f hf hg => ?_⟩
    rcases hf with hf | hf
    · exact hlow.2 f (Or.inl hf) hg
    · obtain ⟨r, hr, hgr, hle⟩ := exists_lowest group hf
      refine le_trans ?_ hle
      by_cases hin : r ∈ T
      · exact hlow.2 r (Or.inr hin) (hgr.trans hg)
      · exact (hnone e he r hr hin).le
  · by_cases hin : s ∈ U ∪ {e | e ∈ T}
    · exact hM.lt e he s (lowest_of_subset hsub hs hin) hout
    · have hV : s ∈ V := hs.1.resolve_left fun h => hin (Or.inl h)
      exact hnone e he s (lowest_of_subset Set.subset_union_right hs hV) fun h => hin (Or.inr h)
  · by_contra hout
    have hin : s ∉ U ∪ {e | e ∈ T} := fun hin =>
      hout (hM.all hroom s (lowest_of_subset hsub hs hin))
    have hV : s ∈ V := hs.1.resolve_left fun h => hin (Or.inl h)
    obtain ⟨hsize, -⟩ :=
      hfull s (lowest_of_subset Set.subset_union_right hs hV) fun h => hin (Or.inr h)
    -- Everything lowest is admitted, so there are as many entries as in the full summary.
    have hle : T.size ≤ M.keySet.card :=
      size_le_card_of_lowest hkeysT hgroups (fun t ht => Or.inr ht) fun r hr _ =>
        OrdMap.mem_keySet.2 (OrdMap.mem_keys.2 ⟨r.2, hM.all hroom r hr⟩)
    rw [OrdMap.card_keySet] at hle
    omega

theorem IsSmallest.absorb_of_subset [WellFoundedLT α] (hkeys : UniqueKeys (U ∪ V))
    (hT : IsSmallest n (Lowest group V) T) (hM : IsSmallest n (Lowest group U) M)
    (hsub : ∀ t ∈ T, t ∈ U) : IsSmallest n (Lowest group (U ∪ V)) M := by
  refine IsSmallest.absorb hkeys hT ?_
  have hunion : U ∪ {e | e ∈ T} = U := Set.union_eq_left.2 hsub
  rw [hunion]
  exact hM

end Absorb

/-! ## Parties -/

/-- What has been admitted is the summary of a set that contains `W` and lies in `U`, and what has
been seen is in this set or being counted. -/
def Accounts (n : Nat) (group : α × β → δ) (W U seen : Set (α × β)) (ballot : Ballot α β) : Prop :=
  ∃ V, W ⊆ V ∧ V ⊆ U ∧ IsSmallest n (Lowest group V) ballot.admitted ∧
    ∀ e ∈ seen, e ∈ V ∨ e.1 ∈ ballot.counter.keys

namespace Accounts

variable {n : Nat} {group : α × β → δ} {W W' U U' seen seen' : Set (α × β)}
  {ballot : Ballot α β} {letIn : OrdMap α β → α → β → OrdMap α β} {threshold : UInt32}

theorem mono (h : Accounts n group W U seen ballot) (hW : W' ⊆ W) (hU : U ⊆ U')
    (hseen : seen' ⊆ seen) : Accounts n group W' U' seen' ballot := by
  obtain ⟨V, hWV, hVU, hsmallest, hcounted⟩ := h
  exact ⟨V, hW.trans hWV, hVU.trans hU, hsmallest, fun e he => hcounted e (hseen he)⟩

theorem mem (h : Accounts n group W U seen ballot) {e : α × β} (he : e ∈ ballot.admitted) :
    e ∈ U := by
  obtain ⟨V, -, hVU, hsmallest, -⟩ := h
  exact hVU (hsmallest.mem e he).1

theorem isSmallest (h : Accounts n group U U seen ballot) :
    IsSmallest n (Lowest group U) ballot.admitted := by
  obtain ⟨V, hUV, hVU, hsmallest, -⟩ := h
  rw [← hVU.antisymm hUV]
  exact hsmallest

theorem offer [WellFoundedLT α] (hletIn : AdmitsSmallest group n letIn) (hkeys : UniqueKeys U)
    (hseen : seen ⊆ U) (h : Accounts n group W U seen ballot) {x : α × β} (hx : x ∈ U) :
    Accounts n group W U (insert x seen) (Ballot.offer letIn threshold ballot x) := by
  obtain ⟨V, hWV, hVU, hsmallest, hcounted⟩ := h
  have hinsert : insert x V ⊆ U := Set.insert_subset hx hVU
  rcases Ballot.offer_cases letIn threshold ballot x with
    ⟨hin, heq⟩ | ⟨-, -, heq⟩ | ⟨hout, -, heq⟩ <;> rw [heq]
  · -- The entry under this key is the offered one.
    obtain ⟨v, hv⟩ := OrdMap.mem_keys.1 hin
    have hmem := (hsmallest.mem _ hv).1
    refine ⟨V, hWV, hVU, hsmallest, fun e he => ?_⟩
    rcases he with rfl | he
    · rw [← hkeys _ (hVU hmem) e hx rfl]
      exact Or.inl hmem
    · exact hcounted e he
  · refine ⟨V, hWV, hVU, hsmallest, fun e he => ?_⟩
    rw [OrdMap.mem_keys_update]
    rcases he with rfl | he
    · exact Or.inr (Or.inl rfl)
    · exact (hcounted e he).imp id Or.inr
  · obtain ⟨T', hT', hadmitted⟩ := hletIn ballot.admitted x hout
    refine ⟨insert x V, hWV.trans (Set.subset_insert x V), hinsert, ?_, fun e he => ?_⟩
    · show IsSmallest n _ (letIn ballot.admitted x.1 x.2)
      rw [hadmitted]
      exact hsmallest.letIn (fun e he f hf => hkeys e (hinsert he) f (hinsert hf)) hout hT'
    · -- A count that has been dropped was the count of the admitted entry.
      rw [OrdMap.mem_keys_erase, OrdMap.mem_keys_update]
      rcases he with rfl | he
      · exact Or.inl (Or.inl rfl)
      · by_cases hk : e.1 = x.1
        · exact Or.inl (Or.inl (hkeys e (hseen he) x hx hk))
        · exact (hcounted e he).imp Or.inr fun hc => ⟨hk, Or.inr hc⟩

/-- **Many proposals.** -/
theorem offerAll [WellFoundedLT α] (hletIn : AdmitsSmallest group n letIn) (hkeys : UniqueKeys U)
    (hseen : seen ⊆ U) (h : Accounts n group W U seen ballot) {proposals : OrdMap α β}
    (hproposals : ∀ e ∈ proposals, e ∈ U) :
    Accounts n group W U (seen ∪ {e | e ∈ proposals})
      (Ballot.offerAll letIn threshold ballot proposals) := by
  have hlist : ∀ (elements : List (α × β)) (ballot : Ballot α β) (seen : Set (α × β)),
      seen ⊆ U → (∀ e ∈ elements, e ∈ U) → Accounts n group W U seen ballot →
      Accounts n group W U (seen ∪ {e | e ∈ elements})
        (elements.foldl (Ballot.offer letIn threshold) ballot) := by
    intro elements
    induction elements with
    | nil =>
      intro ballot seen _ _ h
      refine h.mono subset_rfl subset_rfl fun e he => ?_
      exact he.resolve_right List.not_mem_nil
    | cons x rest ih =>
      intro ballot seen hseen helements h
      have hx := helements x (List.mem_cons_self ..)
      refine (ih _ _ (Set.insert_subset hx hseen)
        (fun e he => helements e (List.mem_cons_of_mem _ he))
        (h.offer hletIn hkeys hseen hx)).mono subset_rfl subset_rfl ?_
      rintro e (he | he)
      · exact Or.inl (Or.inr he)
      · rcases List.mem_cons.1 he with rfl | he
        · exact Or.inl (Or.inl rfl)
        · exact Or.inr he
  exact hlist proposals.entries ballot seen hseen hproposals h

/-- What another party accounts for is accounted for as well once its summary has been seen and
nothing is being counted. -/
theorem absorb [WellFoundedLT α] (hkeys : UniqueKeys U) {other : Ballot α β}
    (h : Accounts n group W U seen ballot) (hother : Accounts n group W' U seen' other)
    (hcounter : ballot.counter = ∅) (hseen : ∀ e ∈ other.admitted, e ∈ seen) :
    Accounts n group (W ∪ W') U seen ballot := by
  obtain ⟨V, hWV, hVU, hsmallest, hcounted⟩ := h
  obtain ⟨V', hWV', hVU', hsmallest', -⟩ := hother
  have hin : ∀ e ∈ seen, e ∈ V := by
    intro e he
    refine (hcounted e he).resolve_right ?_
    rw [hcounter]
    exact List.not_mem_nil
  have hunion : V ∪ V' ⊆ U := Set.union_subset hVU hVU'
  refine ⟨V ∪ V', Set.union_subset_union hWV hWV', hunion, ?_,
    fun e he => Or.inl (Or.inl (hin e he))⟩
  exact hsmallest'.absorb_of_subset (fun e he f hf => hkeys e (hunion he) f (hunion hf)) hsmallest
    fun e he => hin e (hseen e he)

end Accounts
