import SwabianCoin.Blockchain

/-!
# What validation checks and what it leaves behind

One description of `validateBlock` that everything else uses, instead of its body:

* `accepts_iff` — a block is accepted exactly when its contents pass (`ContentsOk`) and no wallet
  is overdrawn.
* `validateBlock_snd` — the chain it leaves differs at most in the wallets, and no balance
  differs.
* `validateBlock_snd_eq_self_iff` — it leaves the chain alone exactly when the first overdrawn
  wallet of the block, if there is one, exists already.
-/

namespace SwabianCoin

open Machine

variable {crypto : CryptoHelper}

/-! ## The balance check -/

theorem checkBalances_cons (d : PublicKeyPEM × Int64) (rest : List (PublicKeyPEM × Int64))
    (wallets : Wallets) :
    checkBalances (d :: rest) wallets =
      if d.2 < 0 then
        if d.2 + (wallets.getD d.1 0).toInt64 < 0 then (false, wallets.touch d.1 0)
        else checkBalances rest (wallets.touch d.1 0)
      else checkBalances rest wallets := by
  rw [checkBalances]
  simp only [OrdMap.getD_touch]

theorem checkBalances_getD (diffs : List (PublicKeyPEM × Int64)) (wallets : Wallets)
    (key : PublicKeyPEM) : (checkBalances diffs wallets).2.getD key 0 = wallets.getD key 0 := by
  induction diffs generalizing wallets with
  | nil => rfl
  | cons d rest ih =>
    rw [checkBalances_cons]
    split_ifs
    · exact OrdMap.getD_touch wallets d.1 0 key
    · rw [ih, OrdMap.getD_touch]
    · exact ih wallets

theorem checkBalances_fst (diffs : List (PublicKeyPEM × Int64)) (wallets : Wallets) :
    (checkBalances diffs wallets).1 = true ↔
      ∀ d ∈ diffs, overdrawn d.2 (wallets.getD d.1 0) = false := by
  induction diffs generalizing wallets with
  | nil => simp [checkBalances]
  | cons d rest ih =>
    rw [checkBalances_cons, List.forall_mem_cons]
    split_ifs with hneg hover
    · simp [overdrawn, hneg, hover]
    · rw [ih]
      simp [overdrawn, hover]
    · rw [ih]
      simp [overdrawn, hneg]

theorem overdrawn_zero {diff : Int64} (h : diff < 0) : overdrawn diff 0 = true := by
  simp [overdrawn, h]

/-- A wallet that can pay holds something, so it exists. -/
theorem mem_keys_of_covered {wallets : Wallets} {d : PublicKeyPEM × Int64} (hneg : d.2 < 0)
    (hcovered : overdrawn d.2 (wallets.getD d.1 0) = false) : d.1 ∈ wallets.keys := by
  by_contra hmem
  rw [OrdMap.getD_of_not_mem hmem, overdrawn_zero hneg] at hcovered
  exact absurd hcovered (by simp)

/-- The check creates the first wallet it finds overdrawn, if it is missing. -/
theorem checkBalances_snd (diffs : List (PublicKeyPEM × Int64)) (wallets : Wallets) :
    (checkBalances diffs wallets).2 =
      match diffs.find? fun d => overdrawn d.2 (wallets.getD d.1 0) with
      | none => wallets
      | some d => wallets.touch d.1 0 := by
  induction diffs with
  | nil => rfl
  | cons d rest ih =>
    rw [checkBalances_cons, List.find?_cons]
    split_ifs with hneg hover
    · have ho : overdrawn d.2 (wallets.getD d.1 0) = true := by simp [overdrawn, hneg, hover]
      rw [ho]
    · have ho : overdrawn d.2 (wallets.getD d.1 0) = false := by simp [overdrawn, hover]
      rw [ho, OrdMap.touch_eq_self_iff.2 (mem_keys_of_covered hneg ho)]
      exact ih
    · have ho : overdrawn d.2 (wallets.getD d.1 0) = false := by simp [overdrawn, hneg]
      rw [ho]
      exact ih

/-! ## The contents -/

/-- What `validateSubBlock` requires of the data value of a creation. -/
structure DataValueOk (crypto : CryptoHelper) (miningState : MiningState) (hashArea : Hash × Hash)
    (subBlock : CreationSubBlock) : Prop where
  length : subBlock.dataValue.length ≤ maxDataValueLength.toNat
  beginning :
    (dataValueBeginning miningState subBlock.creator).isPrefixOf subBlock.dataValue = true
  above : hashArea.2 ≤ crypto.calcHash subBlock.dataValue
  below : crypto.calcHash subBlock.dataValue ≤ hashArea.1

/-- What `validateSubBlock` requires of a creation. -/
structure CreationOk (crypto : CryptoHelper) (subBlock : CreationSubBlock) (newest : Block)
    (miningState : MiningState) (hashArea : Hash × Hash) (dataValueHashesOfEpoch : List Hash) :
    Prop where
  blockType : subBlock.header.genericHeader.blockType = .CreationSubBlock
  hash : crypto.verifyHash subBlock = true
  signature : crypto.verifyBlockSignature subBlock subBlock.creator = true
  dataValue : DataValueOk crypto miningState hashArea subBlock
  previous :
    subBlock.header.genericHeader.previousBlockHash = newest.header.genericHeader.blockHash
  new : crypto.calcHash subBlock.dataValue ∉ dataValueHashesOfEpoch

theorem validateCreationSubBlock_iff {subBlock : CreationSubBlock} {newest : Block}
    {miningState : MiningState} {hashArea : Hash × Hash} {dataValueHashesOfEpoch : List Hash} :
    validateCreationSubBlock crypto subBlock newest miningState hashArea dataValueHashesOfEpoch =
        true ↔
      CreationOk crypto subBlock newest miningState hashArea dataValueHashesOfEpoch := by
  simp only [validateCreationSubBlock, Bool.and_eq_true, beq_iff_eq, decide_eq_true_eq,
    Bool.not_eq_true', List.contains_eq_mem, decide_eq_false_iff_not]
  constructor
  · rintro ⟨⟨⟨⟨⟨⟨⟨⟨htype, hhash⟩, hsignature⟩, hlength⟩, hbeginning⟩, habove⟩, hbelow⟩, hprevious⟩,
      hnew⟩
    exact ⟨htype, hhash, hsignature, ⟨hlength, hbeginning, habove, hbelow⟩, hprevious, hnew⟩
  · rintro ⟨htype, hhash, hsignature, ⟨hlength, hbeginning, habove, hbelow⟩, hprevious, hnew⟩
    exact ⟨⟨⟨⟨⟨⟨⟨⟨htype, hhash⟩, hsignature⟩, hlength⟩, hbeginning⟩, habove⟩, hbelow⟩, hprevious⟩,
      hnew⟩

/-- What `validateBlock` requires of a block besides the balances. -/
structure ContentsOk (crypto : CryptoHelper) (bc : Blockchain) (block : CollectionBlock)
    (newest : Block) : Prop where
  uid_ne_zero : block.header.blockUid ≠ 0
  uid : block.header.blockUid = newest.header.blockUid + 1
  blockType : block.header.genericHeader.blockType = .CollectionBlock
  hash : crypto.verifyHash block = true
  transactions : ∀ transaction ∈ block.transactions.values,
    validateTransactionSubBlock crypto transaction newest = true
  creations : ∀ creation ∈ block.creations.values,
    validateCreationSubBlock crypto creation newest bc.getMiningState
      (getHashArea bc.getMiningState.epoch) bc.dataValueHashesOfEpoch = true
  sorted : creationsSorted 0 block.creations.values = true
  numCreations : block.creations.size ≤ creationsLeft bc.getMiningState
  numTransactions : block.transactions.size ≤ maxNumTransactions.toNat
  previous : block.header.genericHeader.previousBlockHash = newest.header.genericHeader.blockHash
  dataValues : (block.creations.values.map CreationSubBlock.dataValue).Nodup

theorem checkContents_iff {bc : Blockchain} {block : CollectionBlock} {newest : Block} :
    checkContents crypto bc block newest = true ↔ ContentsOk crypto bc block newest := by
  simp only [checkContents, Bool.and_eq_true, bne_iff_ne, beq_iff_eq, List.all_eq_true,
    decide_eq_true_eq]
  constructor
  · rintro ⟨⟨⟨⟨⟨⟨⟨⟨⟨⟨h0, h1⟩, h2⟩, h3⟩, h4⟩, h5⟩, h6⟩, h7⟩, h8⟩, h9⟩, h10⟩
    exact ⟨h0, h1, h2, h3, h4, h5, h6, h7, h8, h9, h10⟩
  · rintro ⟨h0, h1, h2, h3, h4, h5, h6, h7, h8, h9, h10⟩
    exact ⟨⟨⟨⟨⟨⟨⟨⟨⟨⟨h0, h1⟩, h2⟩, h3⟩, h4⟩, h5⟩, h6⟩, h7⟩, h8⟩, h9⟩, h10⟩

namespace Blockchain

variable {bc : Blockchain} {block : CollectionBlock}

/-- **When a block is accepted.** -/
theorem accepts_iff :
    bc.Accepts crypto block ↔
      (∃ newest, bc.getNewestBlock = some newest ∧ ContentsOk crypto bc block newest) ∧
        ∀ d ∈ (walletDiffs block).entries, overdrawn d.2 (bc.getBalance d.1) = false := by
  unfold Accepts validateBlock
  cases hn : bc.getNewestBlock with
  | none => simp
  | some newest =>
    by_cases hc : checkContents crypto bc block newest = true
    · simp only [hc, if_true, checkBalances_fst, ← checkContents_iff, Option.some.injEq,
        exists_eq_left', true_and]
      rfl
    · simp only [hc, ← checkContents_iff, Option.some.injEq, exists_eq_left']
      simp

theorem Accepts.contents (h : bc.Accepts crypto block) :
    ∃ newest, bc.getNewestBlock = some newest ∧ ContentsOk crypto bc block newest :=
  (accepts_iff.1 h).1

/-- The same chain with other wallets that hold the same balances. -/
structure SameBalances (bc bc' : Blockchain) : Prop where
  cache : bc'.cache = bc.cache
  metaData : bc'.metaData = bc.metaData
  header : bc'.currentBaseline.header = bc.currentBaseline.header
  miningState : bc'.currentBaseline.miningState = bc.currentBaseline.miningState
  dataValueHashes : bc'.currentBaseline.dataValueHashes = bc.currentBaseline.dataValueHashes
  balance : ∀ key, bc'.getBalance key = bc.getBalance key

theorem SameBalances.refl (bc : Blockchain) : SameBalances bc bc :=
  ⟨rfl, rfl, rfl, rfl, rfl, fun _ => rfl⟩

theorem SameBalances.trans {a b c : Blockchain} (h : SameBalances a b) (h' : SameBalances b c) :
    SameBalances a c :=
  ⟨h'.cache.trans h.cache, h'.metaData.trans h.metaData, h'.header.trans h.header,
    h'.miningState.trans h.miningState, h'.dataValueHashes.trans h.dataValueHashes,
    fun key => (h'.balance key).trans (h.balance key)⟩

theorem SameBalances.newest {bc' : Blockchain} (h : SameBalances bc bc') :
    bc'.getNewestBlock = bc.getNewestBlock := by
  unfold getNewestBlock getBlock getNewestBlockId
  rw [h.cache, h.metaData]

theorem SameBalances.contents {bc' : Blockchain} (h : SameBalances bc bc') {newest : Block} :
    ContentsOk crypto bc' block newest ↔ ContentsOk crypto bc block newest := by
  have hm : bc'.getMiningState = bc.getMiningState := h.miningState
  have hd : bc'.dataValueHashesOfEpoch = bc.dataValueHashesOfEpoch := by
    unfold dataValueHashesOfEpoch
    rw [h.dataValueHashes]
  constructor
  · intro hc
    exact { hc with creations := hm ▸ hd ▸ hc.creations, numCreations := hm ▸ hc.numCreations }
  · intro hc
    exact { hc with
      creations := by rw [hm, hd]; exact hc.creations
      numCreations := by rw [hm]; exact hc.numCreations }

/-- A verdict depends on balances, not on which empty wallets exist. -/
theorem SameBalances.accepts {bc' : Blockchain} (h : SameBalances bc bc') :
    bc'.Accepts crypto block ↔ bc.Accepts crypto block := by
  simp only [accepts_iff, h.newest, h.contents, h.balance]

/-- **What a verdict leaves behind.** -/
theorem validateBlock_snd (crypto : CryptoHelper) (bc : Blockchain) (block : CollectionBlock) :
    SameBalances bc (bc.validateBlock crypto block).2 := by
  unfold validateBlock
  split
  · exact SameBalances.refl bc
  · split_ifs
    · exact ⟨rfl, rfl, rfl, rfl, rfl, fun key => checkBalances_getD _ _ key⟩
    · exact SameBalances.refl bc

/-- The first wallet, in key order, that the block would take below zero. -/
def firstOverdrawn (bc : Blockchain) (block : CollectionBlock) : Option PublicKeyPEM :=
  ((walletDiffs block).entries.find? fun d => overdrawn d.2 (bc.getBalance d.1)).map Prod.fst

/-- Validating the block leaves every wallet of the chain as it is: it fails before the balances
are looked at, or its first overdrawn wallet is one the chain knows. -/
def LeavesWallets (crypto : CryptoHelper) (bc : Blockchain) (block : CollectionBlock) : Prop :=
  ∀ newest key, bc.getNewestBlock = some newest → checkContents crypto bc block newest = true →
    bc.firstOverdrawn block = some key → key ∈ bc.currentBaseline.wallets.keys

theorem Accepts.leavesWallets (h : bc.Accepts crypto block) : LeavesWallets crypto bc block := by
  intro newest key _ _ hover
  obtain ⟨d, hd, -⟩ := Option.map_eq_some_iff.1 hover
  have hfine := (accepts_iff.1 h).2 d (List.mem_of_find?_eq_some hd)
  have hbad := List.find?_some hd
  rw [hfine] at hbad
  exact absurd hbad (by simp)

theorem wallets_validateBlock {newest : Block} (hn : bc.getNewestBlock = some newest)
    (hc : checkContents crypto bc block newest = true) :
    (bc.validateBlock crypto block).2.currentBaseline.wallets =
      match bc.firstOverdrawn block with
      | none => bc.currentBaseline.wallets
      | some key => bc.currentBaseline.wallets.touch key 0 := by
  simp only [validateBlock, hn, if_pos hc]
  show (checkBalances (walletDiffs block).entries bc.currentBaseline.wallets).2 = _
  rw [checkBalances_snd, firstOverdrawn]
  unfold getBalance
  split <;> rename_i hfind <;> rw [hfind] <;> rfl

/-- A verdict opens a wallet exactly for the first overdrawn key of a block whose contents pass. -/
theorem mem_keys_validateBlock {key : PublicKeyPEM} :
    key ∈ (bc.validateBlock crypto block).2.currentBaseline.wallets.keys ↔
      key ∈ bc.currentBaseline.wallets.keys ∨
        ∃ newest, bc.getNewestBlock = some newest ∧
          checkContents crypto bc block newest = true ∧ bc.firstOverdrawn block = some key := by
  cases hn : bc.getNewestBlock with
  | none => simp [validateBlock, hn]
  | some newest =>
    by_cases hc : checkContents crypto bc block newest = true
    · rw [wallets_validateBlock hn hc]
      cases hfirst : bc.firstOverdrawn block with
      | none => simp
      | some payer =>
        rw [OrdMap.mem_keys_touch, or_comm]
        refine or_congr_right ⟨fun hkey => ⟨newest, rfl, hc, congrArg some hkey.symm⟩, ?_⟩
        rintro ⟨_, -, -, hkey⟩
        exact (Option.some.inj hkey).symm
    · simp [validateBlock, hn, hc]

/-- **When validating is invisible.** -/
theorem validateBlock_snd_eq_self_iff :
    (bc.validateBlock crypto block).2 = bc ↔ LeavesWallets crypto bc block := by
  cases hn : bc.getNewestBlock with
  | none => simp [validateBlock, LeavesWallets, hn]
  | some newest =>
    by_cases hc : checkContents crypto bc block newest = true
    · have hwith : (bc.validateBlock crypto block).2 = bc ↔
          (bc.validateBlock crypto block).2.currentBaseline.wallets =
            bc.currentBaseline.wallets := by
        refine ⟨fun h => congrArg (fun b : Blockchain => b.currentBaseline.wallets) h, fun h => ?_⟩
        simp only [validateBlock, hn, if_pos hc] at h ⊢
        exact congrArg bc.withWallets h
      rw [hwith, wallets_validateBlock hn hc]
      cases hfirst : bc.firstOverdrawn block with
      | none => simp [LeavesWallets, hfirst]
      | some payer => simp [LeavesWallets, hn, hc, hfirst, OrdMap.touch_eq_self_iff]
    · refine iff_of_true (by simp [validateBlock, hn, hc]) fun newest' key hn' hc' => ?_
      rw [hn] at hn'
      cases hn'
      exact absurd hc' hc

end Blockchain

/-! ## Baselines -/

theorem validateBlockWithoutContext_header {block : BaselineBlock}
    (h : validateBlockWithoutContext crypto block = true) :
    block.header.genericHeader.blockType = .BaselineBlock ∧ block.header.blockUid ≠ 0 := by
  simp only [validateBlockWithoutContext, Bool.and_eq_true, and_assoc, beq_iff_eq, bne_iff_ne] at h
  exact ⟨h.1, h.2.1⟩

end SwabianCoin
