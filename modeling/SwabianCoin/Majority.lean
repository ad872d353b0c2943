import Mathlib.Data.List.DropRight
import SwabianCoin.Lib.Numeral
import SwabianCoin.Monitors

/-!
# A majority that disagrees

Between two restarts the `OutOfSyncDetector` collects what the other peers name as the block before
their next one. Its map holds the latest vote of every peer (`Tallies`), so its flag should be set
exactly when more than half of the voters disagree. Both counts have 32 bits: the flag is right as
long as fewer than `2 ^ 32` peers have voted (`outOfSync_iff_majority`).
-/

namespace SwabianCoin

inductive DetectorCall where
  | restartCheckCycle (bc : Blockchain) (now : BlockchainTime)
  | blockReceivedCallback (peer : PeerId) (block : CollectionBlock) (reply : Bool)

namespace OutOfSyncDetector

/-- One call. A restart reads the newest block of the chain, so there has to be one. -/
def call (detector : OutOfSyncDetector) : DetectorCall → Option OutOfSyncDetector
  | .restartCheckCycle bc now =>
    bc.getNewestBlock.map fun _ => detector.restartCheckCycle bc now
  | .blockReceivedCallback peer block reply =>
    some (detector.blockReceivedCallback peer block reply)

/-- The detector after some calls. -/
def after (calls : List DetectorCall) : Option OutOfSyncDetector :=
  calls.foldlM call {}

/-! ## Votes -/

/-- The newest block a restart finds, its hash and its id. -/
def restartedAt : DetectorCall → Option (Hash × BlockUid)
  | .restartCheckCycle bc _ =>
    bc.getNewestBlock.map fun newest =>
      (newest.header.genericHeader.blockHash, newest.header.blockUid)
  | .blockReceivedCallback .. => none

/-- The newest block at the last restart. -/
def newestAt (calls : List DetectorCall) : Hash × BlockUid :=
  (calls.filterMap restartedAt).getLast?.getD (0, 0)

def isCallback : DetectorCall → Bool
  | .restartCheckCycle .. => false
  | .blockReceivedCallback .. => true

def sinceRestart (calls : List DetectorCall) : List DetectorCall := calls.rtakeWhile isCallback

/-- A block that follows the newest one and is no reply is a vote: its sender names a hash. -/
def voteOf (newest : BlockUid) : DetectorCall → Option (PeerId × Hash)
  | .restartCheckCycle .. => none
  | .blockReceivedCallback peer block reply =>
    if reply = false ∧ block.header.blockUid = newest + 1 then
      some (peer, block.header.genericHeader.previousBlockHash)
    else none

def votes (calls : List DetectorCall) : List (PeerId × Hash) :=
  (sinceRestart calls).filterMap (voteOf (newestAt calls).2)

/-- The peers that have voted since the last restart. -/
def voters (calls : List DetectorCall) : Finset PeerId := ((votes calls).map Prod.fst).toFinset

def latestVote (peer : PeerId) (calls : List DetectorCall) : Option Hash :=
  ((votes calls).filter fun vote => decide (vote.1 = peer)).getLast?.map Prod.snd

/-- The voters whose latest vote names another hash. -/
def dissenters (calls : List DetectorCall) : Finset PeerId :=
  (voters calls).filter fun peer => latestVote peer calls ≠ some (newestAt calls).1

/-- More than half of the voters disagree. -/
def Majority (calls : List DetectorCall) : Prop := (voters calls).card < 2 * (dissenters calls).card

instance (calls : List DetectorCall) : Decidable (Majority calls) :=
  inferInstanceAs (Decidable (_ < _))

variable {calls : List DetectorCall} {detector : OutOfSyncDetector}

/-! ### One more call -/

theorem votes_restart {bc : Blockchain} {now : BlockchainTime} :
    votes (calls ++ [.restartCheckCycle bc now]) = [] := by
  rw [votes, sinceRestart, List.rtakeWhile_concat_neg _ _ _ (by simp [isCallback])]
  rfl

theorem newestAt_restart {bc : Blockchain} {now : BlockchainTime} {newest : Block}
    (h : bc.getNewestBlock = some newest) :
    newestAt (calls ++ [.restartCheckCycle bc now]) =
      (newest.header.genericHeader.blockHash, newest.header.blockUid) := by
  have hrestarted : restartedAt (.restartCheckCycle bc now) =
      some (newest.header.genericHeader.blockHash, newest.header.blockUid) := by
    rw [restartedAt, h]
    rfl
  rw [newestAt, List.filterMap_append, List.filterMap_cons_some hrestarted]
  simp

section Callback

variable {peer : PeerId} {block : CollectionBlock} {reply : Bool}

theorem newestAt_callback :
    newestAt (calls ++ [.blockReceivedCallback peer block reply]) = newestAt calls := by
  rw [newestAt, List.filterMap_append, List.filterMap_cons_none rfl, List.filterMap_nil,
    List.append_nil]
  rfl

theorem votes_callback :
    votes (calls ++ [.blockReceivedCallback peer block reply]) =
      votes calls ++
        (voteOf (newestAt calls).2 (.blockReceivedCallback peer block reply)).toList := by
  rw [votes, newestAt_callback, sinceRestart, List.rtakeWhile_concat_pos _ _ _ rfl,
    List.filterMap_append]
  cases h : voteOf (newestAt calls).2 (.blockReceivedCallback peer block reply) with
  | none =>
    rw [List.filterMap_cons_none h]
    rfl
  | some vote =>
    rw [List.filterMap_cons_some h]
    rfl

theorem votes_of_not_vote (h : ¬ (reply = false ∧ block.header.blockUid = (newestAt calls).2 + 1)) :
    votes (calls ++ [.blockReceivedCallback peer block reply]) = votes calls := by
  rw [votes_callback, voteOf, if_neg h]
  exact List.append_nil _

theorem votes_of_vote (h : reply = false ∧ block.header.blockUid = (newestAt calls).2 + 1) :
    votes (calls ++ [.blockReceivedCallback peer block reply]) =
      votes calls ++ [(peer, block.header.genericHeader.previousBlockHash)] := by
  rw [votes_callback, voteOf, if_pos h]
  rfl

theorem latestVote_of_vote (h : reply = false ∧ block.header.blockUid = (newestAt calls).2 + 1)
    (other : PeerId) :
    latestVote other (calls ++ [.blockReceivedCallback peer block reply]) =
      if other = peer then some block.header.genericHeader.previousBlockHash
      else latestVote other calls := by
  rw [latestVote, votes_of_vote h, List.filter_append]
  split_ifs with hself
  · rw [List.filter_cons_of_pos (by simpa using hself.symm), List.filter_nil,
      List.getLast?_concat]
    rfl
  · rw [List.filter_cons_of_neg (by simpa using Ne.symm hself), List.filter_nil, List.append_nil]
    rfl

end Callback

theorem latestVote_isSome {peer : PeerId} :
    (latestVote peer calls).isSome = true ↔ peer ∈ voters calls := by
  rw [latestVote, Option.isSome_map, Option.isSome_iff_ne_none, Ne, List.getLast?_eq_none_iff,
    List.filter_eq_nil_iff, voters, List.mem_toFinset, List.mem_map]
  push Not
  exact exists_congr fun vote => and_congr_right fun _ => decide_eq_true_iff

/-! ## The map -/

/-- The detector has counted the latest votes, in 32 bits. -/
structure Tallies (detector : OutOfSyncDetector) (calls : List DetectorCall) : Prop where
  newest : (detector.newestBlockHash, detector.newestBlockId) = newestAt calls
  votes : ∀ peer, detector.peerInSyncMap.find? peer =
    (latestVote peer calls).map fun hash => hash == (newestAt calls).1
  flag : detector.inputMsgsOutOfSync =
    decide ((UInt32.ofNat detector.peerInSyncMap.size).toNat <
      2 * (UInt32.ofNat (detector.peerInSyncMap.values.countP (!·))).toNat)

theorem Tallies.restart (bc : Blockchain) (now : BlockchainTime) {newest : Block}
    (hnewest : bc.getNewestBlock = some newest) :
    Tallies (detector.restartCheckCycle bc now) (calls ++ [.restartCheckCycle bc now]) := by
  have hdetector : detector.restartCheckCycle bc now =
      { inputMsgsOutOfSync := false
        newestBlockHash := newest.header.genericHeader.blockHash
        newestBlockId := newest.header.blockUid
        peerInSyncMap := ∅
        timeOutOfSync := getBlockId now != newest.header.blockUid } := by
    rw [restartCheckCycle, hnewest]
  rw [hdetector]
  refine ⟨(newestAt_restart hnewest).symm, fun peer => ?_, rfl⟩
  rw [latestVote, votes_restart]
  rfl

theorem Tallies.callback (h : Tallies detector calls) (peer : PeerId) (block : CollectionBlock)
    (reply : Bool) :
    Tallies (detector.blockReceivedCallback peer block reply)
      (calls ++ [.blockReceivedCallback peer block reply]) := by
  have hid : detector.newestBlockId = (newestAt calls).2 := congrArg Prod.snd h.newest
  have hhash : detector.newestBlockHash = (newestAt calls).1 := congrArg Prod.fst h.newest
  by_cases hvote : reply = false ∧ block.header.blockUid = (newestAt calls).2 + 1
  · have hcounts : (!reply && block.header.blockUid == detector.newestBlockId + 1) = true := by
      rw [hvote.1, hvote.2, hid]
      exact beq_self_eq_true _
    rw [blockReceivedCallback, if_pos hcounts]
    refine ⟨?_, fun other => ?_, rfl⟩
    · rw [newestAt_callback]
      exact h.newest
    · rw [OrdMap.find?_insert, latestVote_of_vote hvote, newestAt_callback, hhash]
      split_ifs
      · rfl
      · exact h.votes other
  · have hignored : ¬ (!reply && block.header.blockUid == detector.newestBlockId + 1) = true := by
      rw [hid]
      simpa using hvote
    rw [blockReceivedCallback, if_neg hignored]
    refine ⟨?_, fun other => ?_, h.flag⟩
    · rw [newestAt_callback]
      exact h.newest
    · rw [newestAt_callback, latestVote, votes_of_not_vote hvote]
      exact h.votes other

/-- **The detector has counted the latest votes** after every sequence of calls. -/
theorem tallies_after (h : after calls = some detector) : Tallies detector calls := by
  induction calls using List.reverseRecOn generalizing detector with
  | nil =>
    obtain rfl := Option.some.inj h
    exact ⟨rfl, fun _ => rfl, rfl⟩
  | append_singleton calls last ih =>
    rw [after, List.foldlM_append] at h
    obtain ⟨earlier, hearlier, hlast⟩ := Option.bind_eq_some_iff.1 h
    obtain ⟨next, hnext, hdone⟩ := Option.bind_eq_some_iff.1 hlast
    obtain rfl := Option.some.inj hdone
    cases last with
    | restartCheckCycle bc now =>
      obtain ⟨newest, hnewest, rfl⟩ := Option.map_eq_some_iff.1 hnext
      exact Tallies.restart bc now hnewest
    | blockReceivedCallback peer block reply =>
      obtain rfl := Option.some.inj hnext
      exact (ih hearlier).callback peer block reply

theorem Tallies.keySet_eq (h : Tallies detector calls) :
    detector.peerInSyncMap.keySet = voters calls := by
  ext peer
  rw [OrdMap.mem_keySet, ← OrdMap.contains_iff, OrdMap.contains, h.votes, Option.isSome_map,
    latestVote_isSome]

theorem Tallies.size_eq (h : Tallies detector calls) :
    detector.peerInSyncMap.size = (voters calls).card := by
  rw [← OrdMap.card_keySet, h.keySet_eq]

theorem Tallies.countP_eq (h : Tallies detector calls) :
    detector.peerInSyncMap.values.countP (!·) = (dissenters calls).card := by
  rw [← OrdMap.card_filter_keySet, h.keySet_eq]
  congr 1
  refine Finset.filter_congr fun peer hpeer => ?_
  obtain ⟨hash, hhash⟩ := Option.isSome_iff_exists.1 (latestVote_isSome.2 hpeer)
  rw [h.votes, hhash]
  simp

/-- The flag compares the two numbers modulo `2 ^ 32`. -/
theorem Tallies.flag_iff (h : Tallies detector calls) :
    detector.inputMsgsOutOfSync = true ↔
      (voters calls).card % 2 ^ 32 < 2 * ((dissenters calls).card % 2 ^ 32) := by
  rw [h.flag, decide_eq_true_iff, h.size_eq, h.countP_eq, UInt32.toNat_ofNat',
    UInt32.toNat_ofNat']

theorem card_dissenters_le : (dissenters calls).card ≤ (voters calls).card :=
  Finset.card_le_card (Finset.filter_subset _ _)

theorem exists_vote_of_mem_dissenters {peer : PeerId} (h : peer ∈ dissenters calls) :
    ∃ vote ∈ votes calls, vote.1 = peer ∧ vote.2 ≠ (newestAt calls).1 := by
  obtain ⟨hvoter, hother⟩ := Finset.mem_filter.1 h
  obtain ⟨hash, hhash⟩ := Option.isSome_iff_exists.1 (latestVote_isSome.2 hvoter)
  obtain ⟨vote, hlast, rfl⟩ := Option.map_eq_some_iff.1 hhash
  obtain ⟨hvote, hpeer⟩ := List.mem_filter.1 (List.mem_of_getLast? hlast)
  refine ⟨vote, hvote, by simpa using hpeer, fun heq => hother ?_⟩
  rw [hhash, heq]

/-! ## The flag -/

/-- **Being out of sync needs a majority**, as long as fewer than `2 ^ 32` peers have voted; and
peers that are at most half of the voters cannot set the flag, whatever they send. -/
theorem outOfSync_iff_majority (calls : List DetectorCall) (detector : OutOfSyncDetector)
    (hrun : after calls = some detector) (hfew : (voters calls).card < 2 ^ 32) :
    (detector.inputMsgsOutOfSync = true ↔ Majority calls) ∧
      ∀ peers : Finset PeerId,
        (∀ vote ∈ votes calls, vote.2 ≠ (newestAt calls).1 → vote.1 ∈ peers) →
        2 * peers.card ≤ (voters calls).card → detector.inputMsgsOutOfSync = false := by
  have hflag : detector.inputMsgsOutOfSync = true ↔ Majority calls := by
    rw [(tallies_after hrun).flag_iff, Nat.mod_eq_of_lt hfew,
      Nat.mod_eq_of_lt (card_dissenters_le.trans_lt hfew)]
    exact Iff.rfl
  refine ⟨hflag, fun peers hpeers hhalf => ?_⟩
  have hsub : dissenters calls ⊆ peers := by
    intro peer hpeer
    obtain ⟨vote, hvote, rfl, hother⟩ := exists_vote_of_mem_dissenters hpeer
    exact hpeers vote hvote hother
  have hcard := Finset.card_le_card hsub
  rw [Bool.eq_false_iff, Ne, hflag, Majority]
  omega

/-- A block that follows a block with a given hash. -/
def blockAfter (previous : Hash) : CollectionBlock where
  header :=
    { genericHeader := { previousBlockHash := previous, blockType := .CollectionBlock }
      blockUid := 1 }

/-- One of two peers is no majority any more. -/
theorem majority_lost :
    Majority [.blockReceivedCallback [1] (blockAfter 5) false] ∧
      ¬ Majority [.blockReceivedCallback [1] (blockAfter 5) false,
        .blockReceivedCallback [2] (blockAfter 0) false] ∧
      ∃ detector, after [.blockReceivedCallback [1] (blockAfter 5) false,
        .blockReceivedCallback [2] (blockAfter 0) false] = some detector ∧
        detector.inputMsgsOutOfSync = false := by
  have hdissent : Majority [.blockReceivedCallback [1] (blockAfter 5) false] := by
    decide +kernel
  have hhalf : ¬ Majority [.blockReceivedCallback [1] (blockAfter 5) false,
      .blockReceivedCallback [2] (blockAfter 0) false] := by
    decide +kernel
  refine ⟨hdissent, hhalf, _, rfl, ?_⟩
  rw [Bool.eq_false_iff, Ne,
    (outOfSync_iff_majority [.blockReceivedCallback [1] (blockAfter 5) false,
      .blockReceivedCallback [2] (blockAfter 0) false] _ rfl (by decide +kernel)).1]
  exact hhalf

/-! ### Too many peers -/

/-- So many peers name another block than the newest one. -/
def disagree (n : Nat) : List DetectorCall :=
  (List.range n).map fun i => .blockReceivedCallback (Numeral.numeral 10 i) (blockAfter 1) false

theorem disagree_succ (n : Nat) :
    disagree (n + 1) = disagree n ++
      [.blockReceivedCallback (Numeral.numeral 10 n) (blockAfter 1) false] := by
  rw [disagree, List.range_succ, List.map_append]
  rfl

theorem newestAt_disagree (n : Nat) : newestAt (disagree n) = (0, 0) := by
  induction n with
  | zero => rfl
  | succ n ih => rw [disagree_succ, newestAt_callback, ih]

theorem votes_disagree (n : Nat) :
    votes (disagree n) = (List.range n).map fun i => (Numeral.numeral 10 i, 1) := by
  induction n with
  | zero => rfl
  | succ n ih =>
    have hvote : false = false ∧
        (blockAfter 1).header.blockUid = (newestAt (disagree n)).2 + 1 := by
      rw [newestAt_disagree]
      exact ⟨rfl, rfl⟩
    rw [disagree_succ, votes_of_vote hvote, ih, List.range_succ, List.map_append]
    rfl

theorem exists_after_disagree (n : Nat) : ∃ detector, after (disagree n) = some detector := by
  induction n with
  | zero => exact ⟨_, rfl⟩
  | succ n ih =>
    obtain ⟨detector, hdetector⟩ := ih
    rw [disagree_succ, after, List.foldlM_append, ← after, hdetector]
    exact ⟨_, rfl⟩

theorem card_voters_disagree (n : Nat) : (voters (disagree n)).card = n := by
  have hnodup : ((votes (disagree n)).map Prod.fst).Nodup := by
    rw [votes_disagree, List.map_map]
    exact List.nodup_range.map (Numeral.numeral_injective (by decide) (by decide))
  rw [voters, List.toFinset_card_of_nodup hnodup, List.length_map, votes_disagree, List.length_map,
    List.length_range]

theorem dissenters_disagree (n : Nat) : dissenters (disagree n) = voters (disagree n) := by
  refine Finset.filter_true_of_mem fun peer _ hlatest => ?_
  obtain ⟨vote, hlast, hvote⟩ := Option.map_eq_some_iff.1 hlatest
  have hmem := (List.mem_filter.1 (List.mem_of_getLast? hlast)).1
  rw [votes_disagree] at hmem
  obtain ⟨i, -, rfl⟩ := List.mem_map.1 hmem
  rw [newestAt_disagree] at hvote
  exact absurd hvote (show (1 : Hash) ≠ 0 by decide)

/-- All of `2 ^ 32` peers disagree, and both counts come out as zero. -/
theorem counts_wrap :
    Majority (disagree (2 ^ 32)) ∧ ∃ detector, after (disagree (2 ^ 32)) = some detector ∧
      detector.inputMsgsOutOfSync = false := by
  obtain ⟨detector, hdetector⟩ := exists_after_disagree (2 ^ 32)
  refine ⟨?_, detector, hdetector, ?_⟩
  · rw [Majority, dissenters_disagree, card_voters_disagree]
    omega
  · rw [Bool.eq_false_iff, Ne, (tallies_after hdetector).flag_iff, dissenters_disagree,
      card_voters_disagree, Nat.mod_self]
    omega

end OutOfSyncDetector

end SwabianCoin
