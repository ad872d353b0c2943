import SwabianCoin.Lib.OrdMap

/-!
# Admission by counting

Proposals arrive one at a time, as values under keys. A proposal whose key is already admitted is
passed over. Any other is counted under its key, and when the count reaches the threshold it is
admitted and its count dropped. How a proposal is admitted is a parameter, since admitting one may
push out another.

A ballot also keeps a record of what was counted and granted. Nothing is decided by it.
-/

/-- What happened to a proposal. -/
inductive Vote (α β : Type*) where
  | counted (key : α)
  | granted (key : α) (value : β)
  deriving DecidableEq

/-- What has been admitted, and the counts of what has not. -/
structure Ballot (α β : Type*) [LinearOrder α] where
  admitted : OrdMap α β
  counter : OrdMap α UInt32
  /-- What was counted and granted so far. -/
  record : List (Vote α β) := []

namespace Ballot

variable {α β : Type*} [LinearOrder α]

section Offer

variable (letIn : OrdMap α β → α → β → OrdMap α β) (threshold : UInt32)

/-- One proposal. -/
def offer (ballot : Ballot α β) (element : α × β) : Ballot α β :=
  if ballot.admitted.contains element.1 then ballot
  else
    let counter := ballot.counter.update element.1 0 (· + 1)
    if threshold ≤ counter.getD element.1 0 then
      { admitted := letIn ballot.admitted element.1 element.2
        counter := counter.erase element.1
        record := ballot.record ++ [.counted element.1, .granted element.1 element.2] }
    else { ballot with counter, record := ballot.record ++ [.counted element.1] }

/-- All proposals of a map, in key order. -/
def offerAll (ballot : Ballot α β) (proposals : OrdMap α β) : Ballot α β :=
  proposals.entries.foldl (offer letIn threshold) ballot

end Offer

/-! ## One proposal -/

section Facts

variable (letIn : OrdMap α β → α → β → OrdMap α β) (threshold : UInt32)

/-- **What one proposal does.** It is passed over, counted, or counted and granted. -/
theorem offer_cases (ballot : Ballot α β) (element : α × β) :
    element.1 ∈ ballot.admitted.keys ∧ offer letIn threshold ballot element = ballot ∨
    element.1 ∉ ballot.admitted.keys ∧ ballot.counter.getD element.1 0 + 1 < threshold ∧
      offer letIn threshold ballot element =
        { ballot with
          counter := ballot.counter.update element.1 0 (· + 1)
          record := ballot.record ++ [.counted element.1] } ∨
    element.1 ∉ ballot.admitted.keys ∧ threshold ≤ ballot.counter.getD element.1 0 + 1 ∧
      offer letIn threshold ballot element =
        { admitted := letIn ballot.admitted element.1 element.2
          counter := (ballot.counter.update element.1 0 (· + 1)).erase element.1
          record := ballot.record ++ [.counted element.1, .granted element.1 element.2] } := by
  unfold offer
  dsimp only
  rw [OrdMap.getD_update, if_pos rfl]
  split_ifs with hin hcount
  · exact Or.inl ⟨OrdMap.contains_iff.1 hin, rfl⟩
  · exact Or.inr (Or.inr ⟨fun h => hin (OrdMap.contains_iff.2 h), hcount, rfl⟩)
  · exact Or.inr (Or.inl ⟨fun h => hin (OrdMap.contains_iff.2 h), UInt32.not_le.1 hcount, rfl⟩)

/-! ## Many proposals -/

/-- What every admission of a proposal keeps, a vote keeps. -/
theorem admitted_offerAll {P : OrdMap α β → Prop} (proposals : OrdMap α β)
    (hletIn : ∀ admitted, ∀ element ∈ proposals, P admitted →
      P (letIn admitted element.1 element.2))
    {ballot : Ballot α β} (h : P ballot.admitted) :
    P (offerAll letIn threshold ballot proposals).admitted := by
  have hlist : ∀ (elements : List (α × β)) (ballot : Ballot α β),
      (∀ element ∈ elements, element ∈ proposals) → P ballot.admitted →
        P (elements.foldl (offer letIn threshold) ballot).admitted := by
    intro elements
    induction elements with
    | nil => exact fun _ _ h => h
    | cons element rest ih =>
      intro ballot hmem h
      obtain ⟨hfirst, hrest⟩ := List.forall_mem_cons.1 hmem
      refine ih _ hrest ?_
      rcases offer_cases letIn threshold ballot element with
        ⟨-, heq⟩ | ⟨-, -, heq⟩ | ⟨-, -, heq⟩ <;> rw [heq]
      · exact h
      · exact h
      · exact hletIn _ element hfirst h
  exact hlist proposals.entries ballot (fun _ hmem => hmem) h

theorem record_length_le (proposals : List (α × β)) (ballot : Ballot α β) :
    ballot.record.length ≤ (proposals.foldl (offer letIn threshold) ballot).record.length := by
  induction proposals generalizing ballot with
  | nil => exact le_refl _
  | cons element rest ih =>
    refine le_trans ?_ (ih _)
    rcases offer_cases letIn threshold ballot element with ⟨-, h⟩ | ⟨-, -, h⟩ | ⟨-, -, h⟩ <;>
      rw [h]
    · simp
    · simp

/-- **Nothing is counted exactly when everything is admitted already.** -/
theorem record_offerAll_eq_iff (ballot : Ballot α β) (proposals : OrdMap α β) :
    (offerAll letIn threshold ballot proposals).record = ballot.record ↔
      ∀ element ∈ proposals, element.1 ∈ ballot.admitted.keys := by
  have hlist : ∀ proposals : List (α × β),
      (proposals.foldl (offer letIn threshold) ballot).record = ballot.record ↔
        ∀ element ∈ proposals, element.1 ∈ ballot.admitted.keys := by
    intro proposals
    induction proposals with
    | nil => simp
    | cons element rest ih =>
      rw [List.foldl_cons, List.forall_mem_cons]
      rcases offer_cases letIn threshold ballot element with ⟨hin, h⟩ | ⟨hout, -, h⟩ | ⟨hout, -, h⟩
      · rw [h, ih]
        simp [hin]
      · -- The first vote stays on the record.
        refine iff_of_false (fun heq => ?_) fun hall => hout hall.1
        have hle := record_length_le letIn threshold rest (offer letIn threshold ballot element)
        rw [heq, h] at hle
        simp at hle
      · refine iff_of_false (fun heq => ?_) fun hall => hout hall.1
        have hle := record_length_le letIn threshold rest (offer letIn threshold ballot element)
        rw [heq, h] at hle
        simp at hle
  exact hlist proposals.entries

theorem counter_offer_of_ne (ballot : Ballot α β) (element : α × β) {k : α} (hk : k ≠ element.1) :
    (offer letIn threshold ballot element).counter.getD k 0 = ballot.counter.getD k 0 := by
  rcases offer_cases letIn threshold ballot element with ⟨-, h⟩ | ⟨-, -, h⟩ | ⟨-, -, h⟩ <;> rw [h]
  · rw [OrdMap.getD_update, if_neg hk]
  · rw [OrdMap.getD_erase, if_neg hk, OrdMap.getD_update, if_neg hk]

theorem counter_foldl_of_not_mem (proposals : List (α × β)) (ballot : Ballot α β) {k : α}
    (hk : k ∉ proposals.map Prod.fst) :
    (proposals.foldl (offer letIn threshold) ballot).counter.getD k 0 =
      ballot.counter.getD k 0 := by
  induction proposals generalizing ballot with
  | nil => rfl
  | cons element rest ih =>
    rw [List.map_cons, List.mem_cons, not_or] at hk
    rw [List.foldl_cons, ih _ hk.2, counter_offer_of_ne letIn threshold ballot element hk.1]

/-- **What becomes of a count.** It stays, is dropped, or grows by one below the threshold. -/
theorem counter_offerAll (ballot : Ballot α β) (proposals : OrdMap α β) (k : α) :
    (offerAll letIn threshold ballot proposals).counter.getD k 0 = ballot.counter.getD k 0 ∨
      (offerAll letIn threshold ballot proposals).counter.getD k 0 = 0 ∨
      (∃ v, (k, v) ∈ proposals) ∧ ballot.counter.getD k 0 + 1 < threshold ∧
        (offerAll letIn threshold ballot proposals).counter.getD k 0 =
          ballot.counter.getD k 0 + 1 := by
  have hlist : ∀ (proposals : List (α × β)) (ballot : Ballot α β),
      (proposals.map Prod.fst).Nodup →
        (proposals.foldl (offer letIn threshold) ballot).counter.getD k 0 =
            ballot.counter.getD k 0 ∨
          (proposals.foldl (offer letIn threshold) ballot).counter.getD k 0 = 0 ∨
          (∃ v, (k, v) ∈ proposals) ∧ ballot.counter.getD k 0 + 1 < threshold ∧
            (proposals.foldl (offer letIn threshold) ballot).counter.getD k 0 =
              ballot.counter.getD k 0 + 1 := by
    intro proposals
    induction proposals with
    | nil => exact fun _ _ => Or.inl rfl
    | cons element rest ih =>
      intro ballot hnodup
      obtain ⟨hhead, hrest⟩ := List.nodup_cons.1 hnodup
      rw [List.foldl_cons]
      by_cases hk : k = element.1
      · -- The key's own turn; the rest does not touch it.
        subst hk
        rw [counter_foldl_of_not_mem letIn threshold rest _ hhead]
        rcases offer_cases letIn threshold ballot element with ⟨-, h⟩ | ⟨-, hlt, h⟩ | ⟨-, -, h⟩ <;>
          rw [h]
        · exact Or.inl rfl
        · refine Or.inr (Or.inr ⟨⟨element.2, List.mem_cons_self ..⟩, hlt, ?_⟩)
          rw [OrdMap.getD_update, if_pos rfl]
        · refine Or.inr (Or.inl ?_)
          rw [OrdMap.getD_erase, if_pos rfl]
      · have hsame := counter_offer_of_ne letIn threshold ballot element hk
        rcases ih (offer letIn threshold ballot element) hrest with h | h | ⟨⟨v, hv⟩, hlt, h⟩
        · exact Or.inl (h.trans hsame)
        · exact Or.inr (Or.inl h)
        · rw [hsame] at hlt h
          exact Or.inr (Or.inr ⟨⟨v, List.mem_cons_of_mem _ hv⟩, hlt, h⟩)
  exact hlist proposals.entries ballot proposals.keys_nodup

/-- **What is granted** was proposed and had reached the threshold with this proposal. -/
theorem granted_offerAll (ballot : Ballot α β) (proposals : OrdMap α β) {k : α} {v : β}
    (hgranted : Vote.granted k v ∈ (offerAll letIn threshold ballot proposals).record) :
    Vote.granted k v ∈ ballot.record ∨
      (k, v) ∈ proposals ∧ threshold ≤ ballot.counter.getD k 0 + 1 := by
  have hlist : ∀ (proposals : List (α × β)) (ballot : Ballot α β),
      (proposals.map Prod.fst).Nodup →
      Vote.granted k v ∈ (proposals.foldl (offer letIn threshold) ballot).record →
        Vote.granted k v ∈ ballot.record ∨
          (k, v) ∈ proposals ∧ threshold ≤ ballot.counter.getD k 0 + 1 := by
    intro proposals
    induction proposals with
    | nil => exact fun _ _ h => Or.inl h
    | cons element rest ih =>
      intro ballot hnodup h
      obtain ⟨hhead, hrest⟩ := List.nodup_cons.1 hnodup
      rw [List.foldl_cons] at h
      rcases ih (offer letIn threshold ballot element) hrest h with hrecord | ⟨hmem, hcount⟩
      · rcases offer_cases letIn threshold ballot element with
          ⟨-, heq⟩ | ⟨-, -, heq⟩ | ⟨-, hge, heq⟩ <;> rw [heq] at hrecord
        · exact Or.inl hrecord
        · exact Or.inl (by simpa using hrecord)
        · rcases List.mem_append.1 hrecord with hold | hnew
          · exact Or.inl hold
          · have hpair : k = element.1 ∧ v = element.2 := by simpa using hnew
            obtain ⟨rfl, rfl⟩ := hpair
            exact Or.inr ⟨List.mem_cons_self .., hge⟩
      · have hne : k ≠ element.1 := by
          intro heq
          exact hhead (heq ▸ List.mem_map_of_mem hmem)
        rw [counter_offer_of_ne letIn threshold ballot element hne] at hcount
        exact Or.inr ⟨List.mem_cons_of_mem _ hmem, hcount⟩
  exact hlist proposals.entries ballot proposals.keys_nodup hgranted

end Facts

end Ballot
