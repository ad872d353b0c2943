import SwabianCoin.HonestPeers

/-!
# The chain of the network

The blocks that follow a baseline in the network (`Continuation`), and a chain that has some of them
after that baseline (`HoldsGenuine`). It accepts the rest of them one after the other, in the order
in which `processFinishedAgents` takes the answers.
-/

namespace SwabianCoin

open Machine

variable {crypto : CryptoHelper} {genuine : BlockUid → CollectionBlock}

/-- The blocks of the network after a baseline, up to the newest one. -/
structure Continuation (crypto : CryptoHelper) (genuine : BlockUid → CollectionBlock)
    (root : BaselineBlock) (last : BlockUid) : Prop where
  root_le : root.header.blockUid ≤ last
  follows : FollowsRoot crypto genuine root last
  /-- There is no other baseline among them. -/
  noBaseline : ∀ uid, root.header.blockUid < uid → uid ≤ last → isBaselineBlock uid = false
  /-- There are ids left for all agents. -/
  idsLeft : last.toNat + 51 < 2 ^ 64

/-- The next baseline is `720` ids away at most. -/
theorem Continuation.length_lt {root : BaselineBlock} {last : BlockUid}
    (h : Continuation crypto genuine root last) (hroot : root.header.blockUid ≠ 0) :
    last.toNat < root.header.blockUid.toNat + 720 := by
  by_contra hlong
  have hlast := last.toNat_lt
  have hpos : root.header.blockUid.toNat ≠ 0 := fun h0 => hroot (UInt64.toNat_inj.1 h0)
  -- the first id of a baseline after the root
  generalize hdistance : 720 - (root.header.blockUid.toNat - 1) % 720 = distance
  have hnext : (UInt64.ofNat (root.header.blockUid.toNat + distance)).toNat =
      root.header.blockUid.toNat + distance := by
    rw [UInt64.toNat_ofNat']
    omega
  have hnot := h.noBaseline (UInt64.ofNat (root.header.blockUid.toNat + distance))
    (by rw [UInt64.lt_iff_toNat_lt]; omega) (by rw [UInt64.le_iff_toNat_le]; omega)
  have hne : UInt64.ofNat (root.header.blockUid.toNat + distance) ≠ 0 := by
    intro h0
    rw [h0, UInt64.toNat_zero] at hnext
    omega
  have hbaseline : isBaselineBlock
      (UInt64.ofNat (root.header.blockUid.toNat + distance)) = true := by
    rw [isBaselineBlock_iff, toNat_sub_one hne, hnext]
    omega
  rw [hnot] at hbaseline
  exact absurd hbaseline (by decide)

theorem genuineAfter_add (uid : BlockUid) (count more : Nat) :
    genuineAfter genuine uid (count + more) = genuineAfter genuine uid count ++
      genuineAfter genuine (uid + UInt64.ofNat count) more := by
  unfold genuineAfter
  rw [List.range_add, List.map_append, List.map_map]
  congr 1
  apply List.map_congr_left
  intro i _
  rw [Function.comp_apply, UInt64.ofNat_add]
  congr 1
  ac_rfl

theorem genuineAfter_cons (uid : BlockUid) (count : Nat) :
    genuineAfter genuine uid (count + 1) =
      genuine (uid + 1) :: genuineAfter genuine (uid + 1) count := by
  have hone : genuineAfter genuine uid 1 = [genuine (uid + 1)] := by simp [genuineAfter]
  rw [Nat.add_comm, genuineAfter_add, hone]
  rfl

theorem AcceptedInTurn.sameView {bc bc' : Blockchain} {blocks : List CollectionBlock}
    (h : AcceptedInTurn crypto bc blocks) (hview : Blockchain.SameView bc bc') :
    AcceptedInTurn crypto bc' blocks := by
  induction blocks generalizing bc bc' with
  | nil => trivial
  | cons block blocks ih =>
    exact ⟨hview.accepts.2 h.1, ih h.2 (hview.addBlock crypto block)⟩

theorem ofNat_sub_toNat {a b : UInt64} (h : a ≤ b) : a + UInt64.ofNat (b.toNat - a.toNat) = b := by
  have hle := UInt64.le_iff_toNat_le.1 h
  have hlt := b.toNat_lt
  rw [← UInt64.toNat_inj, UInt64.toNat_add, UInt64.toNat_ofNat']
  omega

/-- The chain of the network, up to some block. -/
structure HoldsGenuine (crypto : CryptoHelper) (genuine : BlockUid → CollectionBlock)
    (baseline : BaselineBlock) (bc : Blockchain) : Prop extends Replayed crypto bc where
  rootBlock : baseline ∈ bc.rootBlock
  stored : bc.blocksSinceRoot = genuineAfter genuine baseline.header.blockUid
    (bc.getNewestBlockId.toNat - baseline.header.blockUid.toNat)

namespace HoldsGenuine

variable {root : BaselineBlock} {last : BlockUid} {bc : Blockchain}

theorem rootId (h : HoldsGenuine crypto genuine root bc) :
    bc.getRootBlockId = root.header.blockUid := by
  obtain ⟨block, hblock, huid⟩ := h.root
  rw [eq_of_mem_rootBlock h.rootBlock hblock, huid]

theorem root_le_newest (h : HoldsGenuine crypto genuine root bc) :
    root.header.blockUid ≤ bc.getNewestBlockId := h.rootId ▸ h.root_le

/-- **The rest of the network's chain is accepted.** -/
theorem accepts_rest (h : HoldsGenuine crypto genuine root bc)
    (hc : Continuation crypto genuine root last) (hle : bc.getNewestBlockId ≤ last) :
    AcceptedInTurn crypto bc (genuineAfter genuine bc.getNewestBlockId
      (last.toNat - bc.getNewestBlockId.toNat)) := by
  have hroot := UInt64.le_iff_toNat_le.1 h.root_le_newest
  have hnewest := UInt64.le_iff_toNat_le.1 hle
  by_cases heq : root.header.blockUid = last
  · have hnone : last.toNat - bc.getNewestBlockId.toNat = 0 := by
      rw [← heq]
      omega
    rw [hnone]
    trivial
  · have hall := hc.follows (lt_of_le_of_ne hc.root_le heq)
    have hcount : last.toNat - root.header.blockUid.toNat =
        (bc.getNewestBlockId.toNat - root.header.blockUid.toNat) +
          (last.toNat - bc.getNewestBlockId.toNat) := by
      omega
    rw [hcount, genuineAfter_add, ofNat_sub_toNat h.root_le_newest, ← h.stored,
      acceptedInTurn_append] at hall
    exact hall.2.sameView (h.view root h.rootBlock)

theorem uid_next (h : HoldsGenuine crypto genuine root bc)
    (hc : Continuation crypto genuine root last) (hlt : bc.getNewestBlockId < last) :
    (genuine (bc.getNewestBlockId + 1)).header.blockUid = bc.getNewestBlockId + 1 := by
  have hall := h.accepts_rest hc (le_of_lt hlt)
  have hlt' := UInt64.lt_iff_toNat_lt.1 hlt
  have hcount : last.toNat - bc.getNewestBlockId.toNat =
      last.toNat - bc.getNewestBlockId.toNat - 1 + 1 := by
    omega
  rw [hcount, genuineAfter_cons] at hall
  rw [h.tipOk.uid_of_accepts hall.1, h.tipOk.next]

theorem addBlock (h : HoldsGenuine crypto genuine root bc)
    (hacc : bc.Accepts crypto (genuine (bc.getNewestBlockId + 1))) :
    HoldsGenuine crypto genuine root
      (bc.addBlock crypto (genuine (bc.getNewestBlockId + 1))) where
  toReplayed := h.toReplayed.addBlock hacc
  rootBlock := by
    have hne := h.succ_ne_zero hacc
    rw [rootBlock_congr (h.getBlock_addBlock hne _ h.root_le) rfl]
    exact h.rootBlock
  stored := by
    have hne := h.succ_ne_zero hacc
    have hroot := UInt64.le_iff_toNat_le.1 h.root_le_newest
    have hnewest : (bc.addBlock crypto (genuine (bc.getNewestBlockId + 1))).getNewestBlockId =
        bc.getNewestBlockId + 1 := h.next
    have hcount : bc.getNewestBlockId.toNat + 1 - root.header.blockUid.toNat =
        bc.getNewestBlockId.toNat - root.header.blockUid.toNat + 1 := by
      omega
    have hlast : root.header.blockUid + 1 +
        UInt64.ofNat (bc.getNewestBlockId.toNat - root.header.blockUid.toNat) =
          bc.getNewestBlockId + 1 := by
      rw [UInt64.add_assoc, UInt64.add_comm 1, ← UInt64.add_assoc,
        ofNat_sub_toNat h.root_le_newest]
    rw [blocksSinceRoot_addBlock h.next h.root_le hne, hnewest, toNat_add_one hne, hcount,
      genuineAfter_succ, hlast, h.stored]

theorem cacheThread (h : HoldsGenuine crypto genuine root bc) :
    HoldsGenuine crypto genuine root { bc with cache := bc.cache.cacheThread } := by
  have hblock (uid : BlockUid) (hle : bc.getRootBlockId ≤ uid) :
      ({ bc with cache := bc.cache.cacheThread } : Blockchain).getBlock uid = bc.getBlock uid :=
    Cache.getBlock_cacheThread h.wellKeyed (Or.inl (h.ne_zero hle))
  refine ⟨h.toReplayed.cacheThread, ?_, ?_⟩
  · rw [rootBlock_congr (hblock _ (le_refl _)) rfl]
    exact h.rootBlock
  · have hstored : Blockchain.blocksSinceRoot { bc with cache := bc.cache.cacheThread } =
        bc.blocksSinceRoot := blocksSinceRoot_congr rfl hblock
    rw [hstored]
    exact h.stored

end HoldsGenuine

/-! ## Processing answers -/

/-- The agents are for the ids after the newest block, in their order. -/
theorem FetchingNode.HasAgentsUpTo.keys_eq {node : FetchingNode} {nextIdToFetch : BlockUid}
    (h : node.HasAgentsUpTo nextIdToFetch)
    (hsize : node.state.blockFetchAgentMap.size ≤ maxParallelBlockFetchers)
    (hleft : node.base.blockchain.getNewestBlockId.toNat + 51 < 2 ^ 64) :
    node.state.blockFetchAgentMap.keys.map UInt64.toNat =
      List.range' (node.base.blockchain.getNewestBlockId.toNat + 1)
        node.state.blockFetchAgentMap.size := by
  have hlength := length_between_eq_size h
  have hbetween : (between node.base.blockchain.getNewestBlockId nextIdToFetch).map UInt64.toNat =
      List.range' (node.base.blockchain.getNewestBlockId.toNat + 1)
        node.state.blockFetchAgentMap.size := by
    rw [← hlength, between, List.length_map, List.length_range, List.map_map,
      List.range'_eq_map_range]
    apply List.map_congr_left
    intro i hi
    rw [length_between] at hlength
    rw [List.mem_range, hlength] at hi
    have hlt : i < 50 := lt_of_lt_of_le hi hsize
    exact toNat_after (by omega)
  have hperm := (List.perm_ext_iff_of_nodup node.state.blockFetchAgentMap.keys_nodup
    (nodup_between _ _)).2 h
  have hsorted : (node.state.blockFetchAgentMap.keys.map UInt64.toNat).Pairwise (· < ·) :=
    List.pairwise_map.2 (node.state.blockFetchAgentMap.keys_sorted.imp UInt64.lt_iff_toNat_lt.1)
  have hrange : (List.range' (node.base.blockchain.getNewestBlockId.toNat + 1)
      node.state.blockFetchAgentMap.size).Pairwise (· < ·) := List.pairwise_lt_range'
  rw [← hbetween] at hrange ⊢
  exact (hperm.map UInt64.toNat).eq_of_pairwise
    (fun a b _ _ hab hba => absurd hab (not_lt.2 hba.le)) hsorted hrange

theorem finishedBlocks_eq_genuineAfter {last : BlockUid}
    (entries : List (BlockUid × BlockFetchAgent CollectionBlock)) (uid : BlockUid)
    (hkeys : entries.map (fun entry => entry.1.toNat) = List.range' (uid.toNat + 1) entries.length)
    (hreplies : ∀ entry ∈ entries, ∀ reply ∈ entry.2.receivedBlock,
      reply.2 = genuine entry.1 ∧ entry.1 ≤ last) :
    ∃ count, finishedBlocks entries = genuineAfter genuine uid count ∧
      (0 < count → uid.toNat + count ≤ last.toNat) := by
  induction entries generalizing uid with
  | nil => exact ⟨0, rfl, by simp⟩
  | cons first rest ih =>
    obtain ⟨key, agent⟩ := first
    rw [List.map_cons, List.length_cons, List.range'_succ] at hkeys
    obtain ⟨hkey, hrest⟩ := List.cons.inj hkeys
    have hkey : key.toNat = uid.toNat + 1 := hkey
    have hnext : key = uid + 1 := by
      have hlt := key.toNat_lt
      rw [← UInt64.toNat_inj, UInt64.toNat_add, UInt64.toNat_one]
      omega
    rw [finishedBlocks]
    cases hreceived : agent.receivedBlock with
    | none => exact ⟨0, rfl, by simp⟩
    | some received =>
      obtain ⟨peer, block⟩ := received
      obtain ⟨hblock, hlast⟩ := hreplies (key, agent) List.mem_cons_self (peer, block) hreceived
      rw [← hkey] at hrest
      obtain ⟨count, hcount, hbound⟩ :=
        ih key hrest fun entry hentry => hreplies entry (List.mem_cons_of_mem _ hentry)
      refine ⟨count + 1, ?_, fun _ => ?_⟩
      · rw [genuineAfter_cons, ← hnext, ← hcount, ← show block = genuine key from hblock]
      · have hle : key.toNat ≤ last.toNat := UInt64.le_iff_toNat_le.1 hlast
        rcases Nat.eq_zero_or_pos count with rfl | hpos
        · omega
        · have hbound' := hbound hpos
          omega

theorem FetchingNode.processAgents_accepted
    (entries : List (BlockUid × BlockFetchAgent CollectionBlock)) (node : FetchingNode)
    (haccepted : AcceptedInTurn crypto node.base.blockchain (finishedBlocks entries)) :
    (node.processAgents crypto entries).2 = [] ∧
      (node.processAgents crypto entries).1.base.blockchain =
        (finishedBlocks entries).foldl (Blockchain.addBlock crypto) node.base.blockchain := by
  induction entries generalizing node with
  | nil => exact ⟨rfl, rfl⟩
  | cons first rest ih =>
    obtain ⟨uid, agent⟩ := first
    rw [processAgents, finishedBlocks]
    cases hreceived : agent.receivedBlock with
    | none => exact ⟨rfl, rfl⟩
    | some received =>
      obtain ⟨peer, block⟩ := received
      rw [finishedBlocks, hreceived] at haccepted
      obtain ⟨hacc, hrest⟩ := haccepted
      have hsame : (node.base.blockchain.validateBlock crypto block).2 = node.base.blockchain :=
        Blockchain.validateBlock_snd_eq_self_iff.2 hacc.leavesWallets
      have htrue : (node.base.blockchain.validateBlock crypto block).1 = true := hacc
      dsimp only
      rw [hsame, htrue, if_pos rfl]
      obtain ⟨heffects, hchain⟩ := ih
        ⟨{ node.base with blockchain := node.base.blockchain.addBlock crypto block },
          { node.state with blockFetchAgentMap := node.state.blockFetchAgentMap.erase uid }⟩ hrest
      exact ⟨by rw [heffects]; rfl, hchain⟩

theorem HoldsGenuine.foldl_addBlock {root : BaselineBlock} {bc : Blockchain}
    (h : HoldsGenuine crypto genuine root bc) (count : Nat)
    (haccepted : AcceptedInTurn crypto bc (genuineAfter genuine bc.getNewestBlockId count)) :
    HoldsGenuine crypto genuine root
        ((genuineAfter genuine bc.getNewestBlockId count).foldl (Blockchain.addBlock crypto) bc) ∧
      ((genuineAfter genuine bc.getNewestBlockId count).foldl (Blockchain.addBlock crypto)
        bc).getNewestBlockId.toNat = bc.getNewestBlockId.toNat + count := by
  induction count generalizing bc with
  | zero => exact ⟨h, rfl⟩
  | succ count ih =>
    rw [genuineAfter_cons] at haccepted ⊢
    obtain ⟨hacc, hrest⟩ := haccepted
    have hnewest : (bc.addBlock crypto (genuine (bc.getNewestBlockId + 1))).getNewestBlockId =
        bc.getNewestBlockId + 1 := h.next
    have hgrown := toNat_add_one (h.succ_ne_zero hacc)
    obtain ⟨hholds, hlast⟩ := ih (h.addBlock hacc) (by rw [hnewest]; exact hrest)
    rw [hnewest] at hholds hlast
    rw [List.foldl_cons]
    exact ⟨hholds, by omega⟩

end SwabianCoin
