import SwabianCoin.Conservation
import SwabianCoin.HashArea
import SwabianCoin.Queries

/-!
# Honest baselines are acceptable

`updateCurrentBaseline` keeps the mining state up to date block by block; a joining node has only
the finished baseline and checks it from scratch. The two agree because of an invariant on the
current baseline: all epochs before the current one are full, every epoch ascends strictly inside
its hash area, and the mining state describes the last two epochs (`MiningOk`); the wallets have
valid keys and hold, modulo `2 ^ 64`, one coin for each hash (`WalletsOk`).
-/

namespace SwabianCoin

open Machine

/-! ## The mining state -/

/-- The hashes of one epoch: they ascend strictly and lie in the epoch's area. -/
structure EpochHashesOk (epoch : Nat) (hashes : List Hash) : Prop where
  ascending : hashes.Pairwise (· < ·)
  inArea : ∀ hash ∈ hashes, InHashArea (UInt64.ofNat epoch) hash

/-- Every epoch of the list is in order. -/
def AllEpochsOk (epochs : List (List Hash)) : Prop :=
  ∀ i hashes, epochs[i]? = some hashes → EpochHashesOk i hashes

theorem AllEpochsOk.concat {epochs : List (List Hash)} {last : List Hash}
    (h : AllEpochsOk epochs) (hlast : EpochHashesOk epochs.length last) :
    AllEpochsOk (epochs ++ [last]) := by
  intro i hashes hget
  rw [List.getElem?_append] at hget
  split_ifs at hget with hi
  · exact h i hashes hget
  · obtain ⟨hlt, rfl⟩ := List.getElem?_eq_some_iff.1 hget
    have hi : i = epochs.length := by
      rw [List.length_singleton] at hlt
      omega
    subst hi
    simpa using hlast

theorem AllEpochsOk.init {epochs : List (List Hash)} {last : List Hash}
    (h : AllEpochsOk (epochs ++ [last])) : AllEpochsOk epochs := by
  intro i hashes hget
  refine h i hashes ?_
  rw [List.getElem?_append_left (List.getElem?_eq_some_iff.1 hget).1]
  exact hget

theorem AllEpochsOk.last {epochs : List (List Hash)} {last : List Hash}
    (h : AllEpochsOk (epochs ++ [last])) : EpochHashesOk epochs.length last :=
  h _ _ List.getElem?_concat_length

theorem epochHashesOk_nil (epoch : Nat) : EpochHashesOk epoch [] :=
  ⟨List.Pairwise.nil, fun _ hmem => absurd hmem List.not_mem_nil⟩

/-- The data value hashes are those of some full epochs and of the current one, and the mining
state belongs to them. -/
structure MiningOk (baseline : BaselineBlock) (full : List (List Hash)) (current : List Hash) :
    Prop where
  epochs : baseline.dataValueHashes = full ++ [current]
  epoch : baseline.miningState.epoch.toNat = full.length
  fullSize : ∀ hashes ∈ full, hashes.length = maxNumCreations.toNat
  currentSize : current.length < maxNumCreations.toNat
  hashesOk : AllEpochsOk (full ++ [current])
  highestCurrent : baseline.miningState.highestHashOfCurrentEpoch = current.getLastD 0
  highestLast : baseline.miningState.highestHashOfLastEpoch = (full.getLastD []).getLastD 0
  count : baseline.miningState.numMiningsInEpoch = Int32.ofNat current.length

/-- Full epochs come before the exhausted one. -/
theorem length_le_exhaustedEpoch {epochs : List (List Hash)}
    (hsize : ∀ hashes ∈ epochs, hashes.length = maxNumCreations.toNat)
    (hok : AllEpochsOk epochs) : epochs.length ≤ exhaustedEpoch := by
  by_contra hlong
  have hi : exhaustedEpoch < epochs.length := not_le.1 hlong
  have hget : epochs[exhaustedEpoch]? = some epochs[exhaustedEpoch] := List.getElem?_eq_getElem hi
  obtain ⟨hasc, harea⟩ := hok _ _ hget
  have hlen := hsize _ (List.mem_of_getElem? hget)
  have hlt := epoch_lt_of_two_hashes hasc harea (by rw [hlen]; decide)
  exact absurd hlt (by decide)

theorem MiningOk.full_length_le {baseline : BaselineBlock} {full : List (List Hash)}
    {current : List Hash} (h : MiningOk baseline full current) : full.length ≤ exhaustedEpoch :=
  length_le_exhaustedEpoch h.fullSize h.hashesOk.init

theorem MiningOk.empty (crypto : CryptoHelper) (bc : Blockchain) :
    MiningOk (bc.initEmptyChain crypto).currentBaseline [] [] where
  epochs := rfl
  epoch := rfl
  fullSize := by simp
  currentSize := by decide
  hashesOk := AllEpochsOk.concat (fun _ _ hget => absurd hget (by simp)) (epochHashesOk_nil 0)
  highestCurrent := rfl
  highestLast := rfl
  count := rfl

theorem MiningOk.congr {baseline baseline' : BaselineBlock} {full : List (List Hash)}
    {current : List Hash} (h : MiningOk baseline full current)
    (hstate : baseline'.miningState = baseline.miningState)
    (hhashes : baseline'.dataValueHashes = baseline.dataValueHashes) :
    MiningOk baseline' full current where
  epochs := hhashes.trans h.epochs
  epoch := by rw [hstate]; exact h.epoch
  fullSize := h.fullSize
  currentSize := h.currentSize
  hashesOk := h.hashesOk
  highestCurrent := by rw [hstate]; exact h.highestCurrent
  highestLast := by rw [hstate]; exact h.highestLast
  count := by rw [hstate]; exact h.count

/-! ## The hashes a block adds -/

section Mining

variable {crypto : CryptoHelper}

/-- The hashes of a block's data values. -/
def blockHashes (crypto : CryptoHelper) (block : CollectionBlock) : List Hash :=
  block.creations.values.map fun creation => crypto.calcHash creation.dataValue

/-- Data values of the block with the same hash are the same. -/
def NoCollision (crypto : CryptoHelper) (block : CollectionBlock) : Prop :=
  ∀ c ∈ block.creations.values, ∀ c' ∈ block.creations.values,
    crypto.calcHash c.dataValue = crypto.calcHash c'.dataValue → c.dataValue = c'.dataValue

theorem blockHashes_nodup {block : CollectionBlock}
    (hvalues : (block.creations.values.map CreationSubBlock.dataValue).Nodup)
    (hcoll : NoCollision crypto block) : (blockHashes crypto block).Nodup := by
  unfold blockHashes
  rw [show (fun creation : CreationSubBlock => crypto.calcHash creation.dataValue) =
    crypto.calcHash ∘ CreationSubBlock.dataValue from rfl, ← List.map_map]
  refine hvalues.map_on ?_
  intro d hd d' hd' heq
  obtain ⟨c, hc, rfl⟩ := List.mem_map.1 hd
  obtain ⟨c', hc', rfl⟩ := List.mem_map.1 hd'
  exact hcoll c hc c' hc' heq

theorem mem_addDataValues {block : CollectionBlock} {hashes : List Hash} {hash : Hash} :
    hash ∈ addDataValues crypto block hashes ↔ hash ∈ hashes ∨ hash ∈ blockHashes crypto block := by
  unfold addDataValues
  rw [(List.perm_insertionSort _ _).mem_iff, List.mem_append]
  rfl

theorem EpochHashesOk.addDataValues {epoch : Nat} {hashes : List Hash} {block : CollectionBlock}
    (h : EpochHashesOk epoch hashes) (hnodup : (blockHashes crypto block).Nodup)
    (harea : ∀ hash ∈ blockHashes crypto block, InHashArea (UInt64.ofNat epoch) hash)
    (hnew : ∀ hash ∈ blockHashes crypto block, hash ∉ hashes) :
    EpochHashesOk epoch (addDataValues crypto block hashes) where
  ascending := by
    have hsorted : (SwabianCoin.addDataValues crypto block hashes).Pairwise (· ≤ ·) :=
      List.pairwise_insertionSort _ _
    have hdistinct : (SwabianCoin.addDataValues crypto block hashes).Nodup := by
      refine (List.perm_insertionSort _ _).nodup_iff.2 ?_
      refine List.nodup_append.2 ⟨h.ascending.imp ne_of_lt, hnodup, ?_⟩
      intro a ha b hb hab
      exact hnew b hb (hab ▸ ha)
    exact (hsorted.and hdistinct).imp fun hle => lt_of_le_of_ne hle.1 hle.2
  inArea hash hmem := by
    rcases mem_addDataValues.1 hmem with hold | hblock
    · exact h.inArea hash hold
    · exact harea hash hblock

theorem dataValueHashesOfEpoch_eq {bc : Blockchain} {full : List (List Hash)} {current : List Hash}
    (h : MiningOk bc.currentBaseline full current) : bc.dataValueHashesOfEpoch = current := by
  unfold Blockchain.dataValueHashesOfEpoch
  rw [h.epochs]
  simp

theorem creationsLeft_eq {baseline : BaselineBlock} {full : List (List Hash)}
    {current : List Hash} (h : MiningOk baseline full current) :
    creationsLeft baseline.miningState = maxNumCreations.toNat - current.length := by
  have hlt := h.currentSize
  have hmax : maxNumCreations.toNat = 1000 := rfl
  unfold creationsLeft
  rw [h.count, UInt32.toNat_sub]
  have : (Int32.ofNat current.length).toUInt32.toNat = current.length := by
    simp
    omega
  rw [this]
  omega

theorem blockHashes_of_accepts {bc : Blockchain} {block : CollectionBlock}
    {full : List (List Hash)} {current : List Hash}
    (h : MiningOk bc.currentBaseline full current) (hacc : bc.Accepts crypto block) :
    ∀ hash ∈ blockHashes crypto block,
      InHashArea (UInt64.ofNat full.length) hash ∧ hash ∉ current := by
  intro hash hmem
  obtain ⟨creation, hc, rfl⟩ := List.mem_map.1 hmem
  obtain ⟨newest, -, hok⟩ := hacc.contents
  have hvalid := hok.creations creation hc
  have hepoch : bc.getMiningState.epoch = UInt64.ofNat full.length := by
    rw [← h.epoch]
    exact UInt64.ofNat_toNat.symm
  rw [dataValueHashesOfEpoch_eq h, hepoch] at hvalid
  have hcreation := validateCreationSubBlock_iff.1 hvalid
  exact ⟨⟨hcreation.dataValue.above, hcreation.dataValue.below⟩, hcreation.new⟩

theorem numCreations_of_accepts {bc : Blockchain} {block : CollectionBlock}
    {full : List (List Hash)} {current : List Hash}
    (h : MiningOk bc.currentBaseline full current) (hacc : bc.Accepts crypto block) :
    (addDataValues crypto block current).length ≤ maxNumCreations.toNat := by
  obtain ⟨newest, -, hok⟩ := hacc.contents
  have hnum := hok.numCreations
  rw [show creationsLeft bc.getMiningState = _ from creationsLeft_eq h] at hnum
  have hlt := h.currentSize
  rw [length_addDataValues]
  omega

/-- The epochs after a block: the current one has grown. -/
theorem enterBlock_dataValueHashes {baseline : BaselineBlock} {full : List (List Hash)}
    {current : List Hash} (h : MiningOk baseline full current) (uid : BlockUid)
    (block : CollectionBlock) :
    (enterBlock crypto baseline uid block).dataValueHashes =
      full ++ [addDataValues crypto block current] := by
  show baseline.dataValueHashes.modify baseline.miningState.epoch.toNat _ = _
  rw [h.epochs, h.epoch, List.modify_eq_take_drop]
  simp

theorem allEpochsOk_addDataValues {bc : Blockchain} {block : CollectionBlock}
    {full : List (List Hash)} {current : List Hash}
    (h : MiningOk bc.currentBaseline full current) (hacc : bc.Accepts crypto block)
    (hcoll : NoCollision crypto block) :
    AllEpochsOk (full ++ [addDataValues crypto block current]) := by
  obtain ⟨newest, -, hok⟩ := hacc.contents
  refine h.hashesOk.init.concat (h.hashesOk.last.addDataValues ?_ ?_ ?_)
  · exact blockHashes_nodup hok.dataValues hcoll
  · exact fun hash hmem => (blockHashes_of_accepts h hacc hash hmem).1
  · exact fun hash hmem => (blockHashes_of_accepts h hacc hash hmem).2

theorem enterBlock_count (crypto : CryptoHelper) {baseline : BaselineBlock}
    {full : List (List Hash)} {current : List Hash} (h : MiningOk baseline full current)
    (uid : BlockUid) (block : CollectionBlock) :
    (enterBlock crypto baseline uid block).miningState.numMiningsInEpoch =
      Int32.ofNat (addDataValues crypto block current).length := by
  show baseline.miningState.numMiningsInEpoch + Int32.ofNat block.creations.size = _
  rw [h.count, length_addDataValues, Int32.ofNat_add]

theorem enterBlock_highest {baseline : BaselineBlock} {full : List (List Hash)}
    {current : List Hash} (h : MiningOk baseline full current) (uid : BlockUid)
    (block : CollectionBlock) :
    (enterBlock crypto baseline uid block).miningState.highestHashOfCurrentEpoch =
      (addDataValues crypto block current).getLastD 0 := by
  show ((enterBlock crypto baseline uid block).dataValueHashes.getD
    baseline.miningState.epoch.toNat []).getLastD 0 = _
  rw [enterBlock_dataValueHashes h, h.epoch]
  simp

/-- The block leaves room in the epoch. -/
theorem MiningOk.enterBlock {bc : Blockchain} {block : CollectionBlock}
    {full : List (List Hash)} {current : List Hash}
    (h : MiningOk bc.currentBaseline full current) (hacc : bc.Accepts crypto block)
    (hcoll : NoCollision crypto block) (uid : BlockUid)
    (hroom : (addDataValues crypto block current).length < maxNumCreations.toNat) :
    MiningOk (enterBlock crypto bc.currentBaseline uid block) full
      (addDataValues crypto block current) where
  epochs := enterBlock_dataValueHashes h uid block
  epoch := h.epoch
  fullSize := h.fullSize
  currentSize := hroom
  hashesOk := allEpochsOk_addDataValues h hacc hcoll
  highestCurrent := enterBlock_highest h uid block
  highestLast := h.highestLast
  count := enterBlock_count crypto h uid block

/-- The block fills the epoch exactly. -/
theorem MiningOk.rollOver {bc : Blockchain} {block : CollectionBlock}
    {full : List (List Hash)} {current : List Hash}
    (h : MiningOk bc.currentBaseline full current) (hacc : bc.Accepts crypto block)
    (hcoll : NoCollision crypto block) (uid : BlockUid)
    (hfull : (addDataValues crypto block current).length = maxNumCreations.toNat) :
    MiningOk (rollOver (SwabianCoin.enterBlock crypto bc.currentBaseline uid block))
      (full ++ [addDataValues crypto block current]) [] := by
  have hbound := h.full_length_le
  have hexhausted : exhaustedEpoch = 100096 := rfl
  have hepoch : (bc.currentBaseline.miningState.epoch + 1).toNat = full.length + 1 := by
    rw [UInt64.toNat_add, h.epoch, UInt64.toNat_one]
    omega
  -- The epoch stays far below the end of its type, so nothing wraps.
  have hsize : (bc.currentBaseline.miningState.epoch + 1 + 1).toNat = full.length + 2 := by
    rw [UInt64.toNat_add, hepoch, UInt64.toNat_one]
    omega
  exact
    { epochs := by
        show resizeEpochs (SwabianCoin.enterBlock crypto _ _ block).dataValueHashes
          (bc.currentBaseline.miningState.epoch + 1 + 1).toNat = _
        rw [enterBlock_dataValueHashes h, hsize, resizeEpochs_of_le (by simp)]
        simp
      epoch := by
        show (bc.currentBaseline.miningState.epoch + 1).toNat = _
        rw [hepoch, List.length_append, List.length_singleton]
      fullSize := by
        intro hashes hmem
        rcases List.mem_append.1 hmem with hold | hlast
        · exact h.fullSize hashes hold
        · rw [List.mem_singleton.1 hlast]
          exact hfull
      currentSize := by decide
      hashesOk := (allEpochsOk_addDataValues h hacc hcoll).concat (epochHashesOk_nil _)
      highestCurrent := rfl
      highestLast := by
        rw [List.getLastD_concat]
        exact enterBlock_highest h uid block
      count := rfl }

/-- **The mining state after a block.** Either the current epoch has grown, or it is full and the
next one has begun. -/
theorem MiningOk.addBlock {bc : Blockchain} {block : CollectionBlock}
    {full : List (List Hash)} {current : List Hash}
    (h : MiningOk bc.currentBaseline full current) (hacc : bc.Accepts crypto block)
    (hcoll : NoCollision crypto block) :
    ∃ full' current', MiningOk (bc.addBlock crypto block).currentBaseline full' current' := by
  have hle := numCreations_of_accepts h hacc
  have hcount := enterBlock_count crypto h bc.cache.nextFreeBlockId block
  have hto : (Int32.ofNat (addDataValues crypto block current).length).toUInt32.toNat =
      (addDataValues crypto block current).length := by
    have : maxNumCreations.toNat = 1000 := rfl
    simp
    omega
  simp only [Blockchain.addBlock]
  rcases updateCurrentBaseline_cases crypto bc.currentBaseline bc.cache.nextFreeBlockId block with
    ⟨heq, hnum⟩ | ⟨heq, hnum⟩ <;> rw [heq]
  · refine ⟨full, addDataValues crypto block current, h.enterBlock hacc hcoll _ ?_⟩
    refine lt_of_le_of_ne hle fun hfull => hnum ?_
    rw [hcount, ← UInt32.toNat_inj, hto, hfull]
  · refine ⟨full ++ [addDataValues crypto block current], [], h.rollOver hacc hcoll _ ?_⟩
    rw [← hto, ← hcount, hnum]

end Mining

/-! ## The wallets -/

section Wallets

variable {crypto : CryptoHelper}

/-- A key that verifies a signature can be read. -/
def KeysReadable (crypto : CryptoHelper) : Prop :=
  ∀ bytes signature key, crypto.verifySignature bytes signature key = true →
    crypto.isPublicKeyValid key = true

/-- All wallets have valid keys, and they hold a coin for each hash, modulo `2 ^ 64`. -/
structure WalletsOk (crypto : CryptoHelper) (bc : Blockchain) : Prop where
  keys : ∀ key ∈ bc.currentBaseline.wallets.keys, crypto.isPublicKeyValid key = true
  total : (totalBalance bc.currentBaseline.wallets : ℤ) ≡
    fractionPerCoin.toNat * totalHashes bc.currentBaseline.dataValueHashes [ZMOD 2 ^ 64]

theorem names_of_mem_walletDiffs {block : CollectionBlock} {key : PublicKeyPEM}
    (h : key ∈ (walletDiffs block).keys) : block.Names key := by
  rw [walletDiffs, OrdMap.mem_keys_foldl diffTransaction (fun _ _ _ => mem_keys_transaction),
    OrdMap.mem_keys_foldl diffCreation (fun _ _ _ => mem_keys_creation)] at h
  rcases h with (hk | hc) | ht
  · exact absurd hk List.not_mem_nil
  · exact Or.inl hc
  · exact Or.inr ht

/-- The keys a block names are valid: the others have signed, payees are checked. -/
theorem ContentsOk.isPublicKeyValid (hread : KeysReadable crypto) {bc : Blockchain}
    {block : CollectionBlock} {newest : Block} (h : ContentsOk crypto bc block newest)
    {key : PublicKeyPEM} (hkey : block.Names key) : crypto.isPublicKeyValid key = true := by
  rcases hkey with ⟨creation, hc, rfl⟩ | ⟨transaction, ht, howner⟩
  · exact hread _ _ _ (validateCreationSubBlock_iff.1 (h.creations creation hc)).signature
  · have hvalid := h.transactions transaction ht
    simp only [validateTransactionSubBlock, Bool.and_eq_true] at hvalid
    rcases howner with rfl | rfl
    · exact hread _ _ _ hvalid.1.1.1.2
    · exact hvalid.1.2

theorem WalletsOk.empty (crypto : CryptoHelper) (bc : Blockchain) :
    WalletsOk crypto (bc.initEmptyChain crypto) where
  keys _ hkey := absurd hkey List.not_mem_nil
  total := rfl

theorem WalletsOk.addBlock (hread : KeysReadable crypto) {bc : Blockchain}
    {block : CollectionBlock} (h : WalletsOk crypto bc) (hepochs : EpochsOk bc)
    (hroom : EpochRoom bc) (hacc : bc.Accepts crypto block) :
    WalletsOk crypto (bc.addBlock crypto block) where
  keys key hkey := by
    have hkey : key ∈ (applyBlock bc.currentBaseline.wallets block).keys := by
      rw [← updateCurrentBaseline_wallets crypto _ bc.cache.nextFreeBlockId]
      exact hkey
    rcases mem_keys_applyBlock.1 hkey with hold | hnamed
    · exact h.keys key hold
    · obtain ⟨newest, -, hok⟩ := hacc.contents
      exact hok.isPublicKeyValid hread hnamed
  total := by
    rw [totalBalance_addBlock, totalHashes_addBlock crypto hepochs hroom]
    have hcarries : ∀ x y : ℤ, x - 2 ^ 64 * y ≡ x [ZMOD 2 ^ 64] := fun x y =>
      (Int.modEq_sub_modulus_mul_iff.2 (Int.ModEq.refl x)).symm
    refine (hcarries _ _).trans ((h.total.add_right _).trans (modEq_of_eq ?_))
    push_cast
    ring

/-- A question may open a wallet, but only an empty one with a valid key. -/
theorem WalletsOk.afterQuery (hread : KeysReadable crypto) {bc : Blockchain}
    (h : WalletsOk crypto bc) (question : ChainQuery) :
    WalletsOk crypto (bc.afterQuery crypto question) where
  keys key hkey := by
    cases question with
    | validateBlock block =>
      rcases Blockchain.mem_keys_validateBlock.1 hkey with hold | ⟨newest, -, hok, hfirst⟩
      · exact h.keys key hold
      · obtain ⟨d, hd, rfl⟩ := Option.map_eq_some_iff.1 hfirst
        have hdiff : d.1 ∈ (walletDiffs block).keys :=
          OrdMap.mem_keys.2 ⟨d.2, List.mem_of_find?_eq_some hd⟩
        exact (checkContents_iff.1 hok).isPublicKeyValid hread (names_of_mem_walletDiffs hdiff)
    | _ => exact h.keys key hkey
  total := by
    have hs := Blockchain.afterQuery_sameBalances crypto bc question
    rw [totalBalance_congr hs.balance, hs.dataValueHashes]
    exact h.total

end Wallets

/-! ## The invariant -/

/-- The ids of the chain have not come to their end. -/
def IdsLeft (bc : Blockchain) : Prop := bc.getNewestBlockId.toNat + 1 < 2 ^ 64

/-- What holds of the current baseline of an honest chain. -/
structure BaselineInv (crypto : CryptoHelper) (bc : Blockchain) : Prop where
  tip : TipOk bc
  mining : ∃ full current, MiningOk bc.currentBaseline full current
  wallets : WalletsOk crypto bc
  hash : bc.currentBaseline.header.genericHeader.blockHash = 0
  /-- The baseline follows the newest block, or is the newest block. -/
  uid : bc.currentBaseline.header.blockUid = bc.getNewestBlockId + 1 ∨
    bc.currentBaseline.header.blockUid = bc.getNewestBlockId ∧ bc.getNewestBlockId ≠ 0

namespace BaselineInv

variable {crypto : CryptoHelper} {bc : Blockchain}

theorem initEmptyChain (crypto : CryptoHelper) (bc : Blockchain) :
    BaselineInv crypto (bc.initEmptyChain crypto) where
  tip := TipOk.initEmptyChain crypto bc
  mining := ⟨[], [], MiningOk.empty crypto bc⟩
  wallets := WalletsOk.empty crypto bc
  hash := rfl
  uid := Or.inr ⟨rfl, show (1 : UInt64) ≠ 0 by decide⟩

theorem uid_ne_zero (h : BaselineInv crypto bc) (hids : IdsLeft bc) :
    bc.currentBaseline.header.blockUid ≠ 0 := by
  rcases h.uid with huid | ⟨huid, hne⟩ <;> rw [huid]
  · intro hzero
    have hnat := congrArg UInt64.toNat hzero
    unfold IdsLeft at hids
    rw [UInt64.toNat_add, UInt64.toNat_one, Nat.mod_eq_of_lt hids] at hnat
    exact absurd hnat (Nat.succ_ne_zero _)
  · exact hne

theorem epochsOk (h : BaselineInv crypto bc) : EpochsOk bc := by
  obtain ⟨full, current, hm⟩ := h.mining
  show bc.currentBaseline.dataValueHashes.length = bc.currentBaseline.miningState.epoch.toNat + 1
  rw [hm.epochs, hm.epoch, List.length_append, List.length_singleton]

theorem epochRoom (h : BaselineInv crypto bc) : EpochRoom bc := by
  obtain ⟨full, current, hm⟩ := h.mining
  have hbound := hm.full_length_le
  have hexhausted : exhaustedEpoch = 100096 := rfl
  show bc.currentBaseline.miningState.epoch.toNat + 2 < 2 ^ 64
  rw [hm.epoch]
  omega

theorem addBlock (hread : KeysReadable crypto) (h : BaselineInv crypto bc)
    {block : CollectionBlock} (hacc : bc.Accepts crypto block) (hcoll : NoCollision crypto block) :
    BaselineInv crypto (bc.addBlock crypto block) where
  tip := h.tip.addBlock hacc
  mining := by
    obtain ⟨full, current, hm⟩ := h.mining
    exact hm.addBlock hacc hcoll
  wallets := h.wallets.addBlock hread h.epochsOk h.epochRoom hacc
  hash := by
    simp only [Blockchain.addBlock, updateCurrentBaseline]
    split_ifs <;> rfl
  uid := by
    simp only [Blockchain.addBlock, updateCurrentBaseline]
    split_ifs <;> exact Or.inl rfl

theorem establishBaseline (h : BaselineInv crypto bc) (hids : IdsLeft bc) :
    BaselineInv crypto (bc.establishBaseline crypto) where
  tip := h.tip.establishBaseline
  mining := by
    obtain ⟨full, current, hm⟩ := h.mining
    exact ⟨full, current, hm.congr rfl rfl⟩
  wallets := ⟨h.wallets.keys, h.wallets.total⟩
  hash := rfl
  uid := Or.inr ⟨rfl, h.uid_ne_zero hids⟩

theorem afterQuery (hread : KeysReadable crypto) (h : BaselineInv crypto bc)
    (question : ChainQuery) : BaselineInv crypto (bc.afterQuery crypto question) := by
  have hs := Blockchain.afterQuery_sameBalances crypto bc question
  refine ⟨h.tip.sameBalances hs, ?_, h.wallets.afterQuery hread question, ?_, ?_⟩
  · obtain ⟨full, current, hm⟩ := h.mining
    exact ⟨full, current, hm.congr hs.miningState hs.dataValueHashes⟩
  · rw [hs.header]
    exact h.hash
  · rw [hs.header, Blockchain.getNewestBlockId, hs.metaData]
    exact h.uid

theorem step (hread : KeysReadable crypto) {op : ChainOp} (h : BaselineInv crypto bc)
    (hop : Blockchain.Admissible crypto bc op) (hids : IdsLeft bc)
    (hcoll : OnAdd (fun _ block => NoCollision crypto block) bc op) :
    BaselineInv crypto (bc.step crypto op) := by
  cases op with
  | addBlock block => exact h.addBlock hread hop hcoll
  | establishBaseline => exact h.establishBaseline hids
  | cacheThread =>
    exact ⟨h.tip.cacheThread, h.mining, ⟨h.wallets.keys, h.wallets.total⟩, h.hash, h.uid⟩
  | query question => exact h.afterQuery hread question

end BaselineInv

/-! ## The check from scratch -/

theorem epochSizesOk_append {full : List (List Hash)} {current : List Hash}
    (hfull : ∀ hashes ∈ full, hashes.length = maxNumCreations.toNat)
    (hcurrent : current.length ≤ maxNumCreations.toNat) :
    epochSizesOk (full ++ [current]) = true := by
  induction full with
  | nil => simpa [epochSizesOk] using hcurrent
  | cons hashes rest ih =>
    obtain ⟨hhead, hrest⟩ := List.forall_mem_cons.1 hfull
    have hne : ∃ first others, rest ++ [current] = first :: others :=
      List.exists_cons_of_ne_nil (by simp)
    obtain ⟨first, others, heq⟩ := hne
    rw [List.cons_append, heq, epochSizesOk, ← heq, ih hrest, hhead]
    · simp
    · simp

theorem insideHashArea_of_ok {epoch : Nat} {hashes : List Hash} (h : EpochHashesOk epoch hashes) :
    insideHashArea (UInt64.ofNat epoch) hashes = true := by
  unfold insideHashArea
  cases hashes with
  | nil => rfl
  | cons first rest =>
    have hfirst := h.inArea first (List.mem_cons_self ..)
    have hlast : InHashArea (UInt64.ofNat epoch) ((first :: rest).getLastD 0) := by
      refine h.inArea _ ?_
      rw [List.getLastD_eq_getLast?, List.getLast?_eq_some_getLast (List.cons_ne_nil _ _)]
      exact List.getLast_mem _
    simp only [List.isEmpty_cons, Bool.false_or, List.headD_cons, Bool.and_eq_true]
    exact ⟨⟨⟨decide_eq_true hfirst.1, decide_eq_true hfirst.2⟩, decide_eq_true hlast.1⟩,
      decide_eq_true hlast.2⟩

/-- The loop with its 32-bit counter, as long as the counter does not wrap. -/
theorem hashAreasOk_of_ok {epochs : List (List Hash)} (start : Nat)
    (hok : ∀ i hashes, epochs[i]? = some hashes → EpochHashesOk (start + i) hashes)
    (hlen : start + epochs.length < 2 ^ 32) :
    hashAreasOk (UInt32.ofNat start) epochs = true := by
  induction epochs generalizing start with
  | nil => rfl
  | cons hashes rest ih =>
    have hcounter : (UInt32.ofNat start).toUInt64 = UInt64.ofNat start := by
      refine UInt64.toNat_inj.1 ?_
      rw [UInt32.toNat_toUInt64, UInt32.toNat_ofNat', UInt64.toNat_ofNat']
      omega
    have hnext : UInt32.ofNat start + 1 = UInt32.ofNat (start + 1) :=
      (UInt32.ofNat_add start 1).symm
    rw [hashAreasOk, hcounter, hnext, Bool.and_eq_true]
    refine ⟨insideHashArea_of_ok (hok 0 hashes rfl), ih (start + 1) ?_ ?_⟩
    · intro i hashes' hget
      have := hok (i + 1) hashes' hget
      rwa [Nat.add_comm i, ← Nat.add_assoc] at this
    · rw [List.length_cons] at hlen
      omega

theorem sum_epochs_modEq (epochs : List (List Hash)) :
    (((epochs.map fun hashes =>
      UInt64.ofNat hashes.length * fractionPerCoin.toUInt64).sum.toNat : ℕ) : ℤ) ≡
      fractionPerCoin.toNat * totalHashes epochs [ZMOD 2 ^ 64] := by
  induction epochs with
  | nil => rfl
  | cons hashes rest ih =>
    rw [List.map_cons, List.sum_cons]
    refine (toNat_add_modEq _ _).trans ?_
    have hterm := (toNat_mul_modEq (UInt64.ofNat hashes.length) fractionPerCoin.toUInt64).trans
      ((toNat_ofNat_modEq hashes.length).mul_right _)
    refine (hterm.add ih).trans (modEq_of_eq ?_)
    rw [show fractionPerCoin.toUInt64.toNat = fractionPerCoin.toNat from rfl]
    simp only [totalHashes, List.map_cons, List.sum_cons]
    push_cast
    ring

/-- The two sums of the check agree modulo `2 ^ 64`. -/
theorem sum_epochs_eq_sum_wallets {bc : Blockchain} {crypto : CryptoHelper}
    (h : WalletsOk crypto bc) :
    (bc.currentBaseline.dataValueHashes.map fun hashes =>
      UInt64.ofNat hashes.length * fractionPerCoin.toUInt64).sum =
      bc.currentBaseline.wallets.values.sum := by
  refine eq_of_toNat_modEq ((sum_epochs_modEq _).trans (h.total.symm.trans ?_))
  exact (toNat_sum_modEq _).symm

/-- **The invariant passes the check.** -/
theorem BaselineInv.validateBlockWithoutContext {crypto : CryptoHelper} {bc : Blockchain}
    (h : BaselineInv crypto bc) (hids : IdsLeft bc) :
    validateBlockWithoutContext crypto (bc.establishedBaseline crypto) = true := by
  obtain ⟨full, current, hm⟩ := h.mining
  have hbound := hm.full_length_le
  have hexhausted : exhaustedEpoch = 100096 := rfl
  have hfill : bc.establishedBaseline crypto =
      Hashed.withBlockHash bc.currentBaseline (crypto.contentHash bc.currentBaseline) :=
    crypto.fillHash_of_blockHash_zero h.hash
  have hepoch : (bc.currentBaseline.miningState.epoch + 1).toNat = full.length + 1 := by
    rw [UInt64.toNat_add, hm.epoch, UInt64.toNat_one]
    omega
  have hascends : ∀ hashes ∈ full ++ [current], hashes.IsChain (· < ·) := by
    intro hashes hmem
    obtain ⟨i, hget⟩ := List.getElem?_of_mem hmem
    exact (hm.hashesOk i hashes hget).ascending.isChain
  have htype : (bc.establishedBaseline crypto).header.genericHeader.blockType = .BaselineBlock :=
    h.tip.blockType
  have huid : (bc.establishedBaseline crypto).header.blockUid ≠ 0 := h.uid_ne_zero hids
  have hhash : crypto.verifyHash (bc.establishedBaseline crypto) = true := by
    rw [hfill]
    exact crypto.verifyHash_withBlockHash_contentHash _
  have hepochs : (bc.establishedBaseline crypto).dataValueHashes = full ++ [current] := hm.epochs
  have hstate : (bc.establishedBaseline crypto).miningState = bc.currentBaseline.miningState := rfl
  have hwallets : (bc.establishedBaseline crypto).wallets = bc.currentBaseline.wallets := rfl
  have hsum := sum_epochs_eq_sum_wallets h.wallets
  rw [hm.epochs] at hsum
  -- The checks come in the order of the source.
  simp only [SwabianCoin.validateBlockWithoutContext]
  rw [hepochs, hstate, hwallets]
  simp only [Bool.and_eq_true, beq_iff_eq, bne_iff_ne, List.all_eq_true]
  refine ⟨⟨⟨⟨⟨⟨⟨⟨⟨⟨⟨⟨htype, huid⟩, hhash⟩, hsum⟩, h.wallets.keys⟩, ?_⟩, ?_⟩, ?_⟩, ?_⟩, ?_⟩, ?_⟩,
    ?_⟩, ?_⟩
  · rw [hepoch, List.length_append, List.length_singleton]
  · exact epochSizesOk_append hm.fullSize hm.currentSize.le
  · exact fun hashes hmem => decide_eq_true ((hascends hashes hmem).imp fun _ _ => le_of_lt)
  · exact fun hashes hmem => decide_eq_true ((hascends hashes hmem).imp fun _ _ => ne_of_lt)
  · refine hashAreasOk_of_ok 0 ?_ ?_
    · intro i hashes hget
      rw [Nat.zero_add]
      exact hm.hashesOk i hashes hget
    · rw [List.length_append, List.length_singleton]
      omega
  · rw [hm.highestCurrent, List.getLastD_concat]
  · rw [hm.highestLast, List.dropLast_concat]
  · rw [hm.count, List.getLastD_concat]

/-! ## Baselines of a run -/

instance (bc : Blockchain) : Decidable (IdsLeft bc) := inferInstanceAs (Decidable (_ < _))

/-- The data values of all blocks a run adds. -/
def addedDataValues (ops : List ChainOp) : List Bytes :=
  ops.flatMap fun
    | .addBlock block => block.creations.values.map CreationSubBlock.dataValue
    | _ => []

/-- Two data values of the run with the same hash are the same. -/
def NoCollisions (crypto : CryptoHelper) (ops : List ChainOp) : Prop :=
  ∀ d ∈ addedDataValues ops, ∀ d' ∈ addedDataValues ops,
    crypto.calcHash d = crypto.calcHash d' → d = d'

instance (crypto : CryptoHelper) (ops : List ChainOp) : Decidable (NoCollisions crypto ops) :=
  inferInstanceAs (Decidable (∀ d ∈ addedDataValues ops, _))

theorem NoCollisions.block {crypto : CryptoHelper} {ops : List ChainOp} {block : CollectionBlock}
    (h : NoCollisions crypto ops) (hmem : ChainOp.addBlock block ∈ ops) :
    NoCollision crypto block := by
  intro c hc c' hc'
  exact h _ (List.mem_flatMap.2 ⟨_, hmem, List.mem_map_of_mem hc⟩) _
    (List.mem_flatMap.2 ⟨_, hmem, List.mem_map_of_mem hc'⟩)

/-- **Honest baselines are acceptable.** Every baseline that a run writes passes the check of a
joining node. -/
theorem ChainRun.validateBlockWithoutContext_storedBaselines {crypto : CryptoHelper}
    (run : ChainRun crypto) (hread : KeysReadable crypto) (hcoll : NoCollisions crypto run.ops)
    (hids : run.AllStates IdsLeft) :
    ∀ block ∈ storedBaselines crypto run.start run.ops,
      validateBlockWithoutContext crypto block = true := by
  have hcoll : run.AllSteps (OnAdd fun _ block => NoCollision crypto block) := by
    refine Run.AllSteps.of_forall_mem fun op hop bc => ?_
    cases op with
    | addBlock block => exact hcoll.block hop
    | _ => trivial
  have hsteps := Run.AllSteps.and.2 ⟨run.admissible, Run.AllSteps.and.2 ⟨hids.allSteps, hcoll⟩⟩
  have hinv := Run.AllSteps.with_invariant
    (fun bc op (h : BaselineInv crypto bc) hop => h.step hread hop.1 hop.2.1 hop.2.2)
    (BaselineInv.initEmptyChain crypto run.before) hsteps
  exact forall_mem_storedBaselines
    (hinv.mono fun bc op h => h.1.validateBlockWithoutContext h.2.2.1)

/-- The baseline of a run in which a coin is mined and spent. -/
theorem spendingRun_baseline_valid :
    storedBaselines .sample Sample.spendingRun.start Sample.spendingRun.ops ≠ [] ∧
      ∀ block ∈ storedBaselines .sample Sample.spendingRun.start Sample.spendingRun.ops,
        validateBlockWithoutContext .sample block = true := by
  refine ⟨by simp [storedBaselines, Sample.spendingRun], ?_⟩
  refine Sample.spendingRun.validateBlockWithoutContext_storedBaselines ?_ (by decide +kernel) ?_
  · intro bytes signature key h
    exact (Bool.and_eq_true_iff.1 h).1
  · exact ⟨by decide +kernel, by decide +kernel, by decide +kernel, by decide +kernel,
      by unfold Run.AllStates; decide +kernel⟩

end SwabianCoin
