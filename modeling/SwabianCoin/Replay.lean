import SwabianCoin.Rooted
import SwabianCoin.Serialization
import SwabianCoin.View

/-!
# A payment is made once

Every sub-block names the hash of the block it was made on top of, and that is covered by its
signature. So a transaction or a creation that is accepted can only be accepted again on a block
with the same hash. Blocks with different ids have different bytes, and if those have different
hashes there is no such block, as long as the ids grow.

The ids are 64-bit numbers. `validateBlock` refuses a block with the id `0`, so collections never
wrap round; but nobody looks at the id of a baseline that is established. So it is asked of a run
that those ids are valid (`BaselineIdValid`).
-/

namespace SwabianCoin

open Machine

variable {crypto : CryptoHelper}

/-! ## Statement -/

/-- The bytes the hash of a block is computed over. -/
def Block.hashedBytes : Block → Bytes
  | .baseline block => archive (Hashed.ser (Hashed.withBlockHash block 0))
  | .collection block => archive (Hashed.ser (Hashed.withBlockHash block 0))

/-- What a signature covers: all fields but the hash and the signature. -/
def signedContent {β : Type} [Signed β] (block : β) : β :=
  Signed.withSignature (Hashed.withBlockHash block 0) []

/-- No transaction and no creation of one block has the content of one of the other. -/
structure NothingShared (block block' : CollectionBlock) : Prop where
  transactions : ∀ transaction ∈ block.transactions.values,
    ∀ transaction' ∈ block'.transactions.values,
      signedContent transaction ≠ signedContent transaction'
  creations : ∀ creation ∈ block.creations.values, ∀ creation' ∈ block'.creations.values,
    signedContent creation ≠ signedContent creation'

/-- The collections that are added. -/
def addedBlocks (ops : List ChainOp) : List CollectionBlock :=
  ops.filterMap fun
    | .addBlock block => some block
    | _ => none

/-- The newest blocks of all states, one after the other. -/
def tips (crypto : CryptoHelper) (bc : Blockchain) (ops : List ChainOp) : List Block :=
  (Run.states (Blockchain.step crypto) bc ops).filterMap Blockchain.getNewestBlock

/-- Different bytes have different hashes. -/
def Distinguishes (crypto : CryptoHelper) (blocks : List Block) : Prop :=
  ∀ block ∈ blocks, ∀ block' ∈ blocks, block.hashedBytes ≠ block'.hashedBytes →
    crypto.calcHash block.hashedBytes ≠ crypto.calcHash block'.hashedBytes

/-- A baseline that is established gets a valid id. -/
def BaselineIdValid (bc : Blockchain) : ChainOp → Prop
  | .establishBaseline => bc.currentBaseline.header.blockUid ≠ 0
  | _ => True

/-! ## Ids -/

/-- The hashed bytes begin with the header, where the hash is zero. -/
theorem hashedBytes_eq (block : Block) : ∃ rest, block.hashedBytes = archive
    (BlockHeader.ser { block.header with
      genericHeader := { block.header.genericHeader with blockHash := 0 } } ++ rest) := by
  cases block with
  | baseline block =>
    refine ⟨block.miningState.ser ++ (serList (serList serHash) block.dataValueHashes ++
      serMap PublicKeyPEM.ser serUInt64 block.wallets), ?_⟩
    simp only [Block.hashedBytes, Hashed.ser, BaselineBlock.ser, List.append_assoc]
    rfl
  | collection block =>
    refine ⟨serMap serHash TransactionSubBlock.ser block.transactions ++
      serMap serHash CreationSubBlock.ser block.creations, ?_⟩
    simp only [Block.hashedBytes, Hashed.ser, CollectionBlock.ser, List.append_assoc]
    rfl

/-- The id of a block is among the bytes that are hashed. -/
theorem blockUid_of_hashedBytes {block block' : Block}
    (h : block.hashedBytes = block'.hashedBytes) :
    block.header.blockUid = block'.header.blockUid := by
  obtain ⟨rest, hbytes⟩ := hashedBytes_eq block
  obtain ⟨rest', hbytes'⟩ := hashedBytes_eq block'
  rw [hbytes, hbytes'] at h
  have hsame := (BlockHeader.reads_ser _).unique (BlockHeader.reads_ser _) (List.cons.inj h).2
  have huid := congrArg BlockHeader.blockUid hsame.1
  exact huid

/-- What holds of the newest block and of the baseline that would be next. -/
structure ReplayInv (crypto : CryptoHelper) (bc : Blockchain) : Prop extends TipOk bc where
  hashed : ∀ newest, bc.getNewestBlock = some newest →
    newest.header.genericHeader.blockHash = crypto.calcHash newest.hashedBytes
  noHash : bc.currentBaseline.header.genericHeader.blockHash = 0
  nextId : bc.currentBaseline.header.blockUid = bc.getNewestBlockId ∨
    bc.currentBaseline.header.blockUid = bc.getNewestBlockId + 1

namespace ReplayInv

variable {bc : Blockchain}

theorem of_root {cache : Cache} {block : BaselineBlock} {uid : BlockUid}
    (huid : block.header.blockUid = uid)
    (htype : block.header.genericHeader.blockType = .BaselineBlock)
    (hhash : crypto.verifyHash block = true) :
    ReplayInv crypto
      { cache := (cache.resetCache uid).addBlock (.baseline block)
        currentBaseline := Hashed.withBlockHash block 0
        metaData := ⟨uid, uid⟩ } where
  toTipOk := TipOk.of_root huid htype
  hashed newest hn := by
    have hself := Cache.getBlock_addBlock_self (cache.resetCache uid) (.baseline block)
    have heq : some newest = some (.baseline block) := hn.symm.trans hself
    cases heq
    exact crypto.verifyHash_iff.1 hhash
  noHash := rfl
  nextId := Or.inl huid

theorem addBlock (h : ReplayInv crypto bc) {block : CollectionBlock}
    (hacc : bc.Accepts crypto block) : ReplayInv crypto (bc.addBlock crypto block) where
  toTipOk := h.toTipOk.addBlock hacc
  hashed newest hn := by
    have hself := Cache.getBlock_addBlock_self bc.cache (.collection block)
    have heq : some newest = some (.collection block) := hn.symm.trans hself
    cases heq
    obtain ⟨_, -, hc⟩ := hacc.contents
    exact crypto.verifyHash_iff.1 hc.hash
  noHash := by
    rcases updateCurrentBaseline_cases crypto bc.currentBaseline bc.cache.nextFreeBlockId block with
      ⟨heq, -⟩ | ⟨heq, -⟩ <;> exact congrArg (fun b => b.header.genericHeader.blockHash) heq
  nextId := by
    rcases updateCurrentBaseline_cases crypto bc.currentBaseline bc.cache.nextFreeBlockId block with
      ⟨heq, -⟩ | ⟨heq, -⟩ <;> exact Or.inr (congrArg (fun b => b.header.blockUid) heq)

theorem establishBaseline (h : ReplayInv crypto bc) :
    ReplayInv crypto (bc.establishBaseline crypto) := by
  refine of_root rfl h.blockType ?_
  rw [Blockchain.establishedBaseline, crypto.fillHash_of_blockHash_zero h.noHash]
  exact crypto.verifyHash_withBlockHash_contentHash _

theorem sameBalances {bc' : Blockchain} (h : ReplayInv crypto bc)
    (hs : Blockchain.SameBalances bc bc') : ReplayInv crypto bc' where
  toTipOk := h.toTipOk.sameBalances hs
  hashed newest hn := h.hashed newest (hs.newest ▸ hn)
  noHash := by
    rw [hs.header]
    exact h.noHash
  nextId := by
    rw [hs.header, Blockchain.getNewestBlockId, hs.metaData]
    exact h.nextId

theorem cacheThread (h : ReplayInv crypto bc) :
    ReplayInv crypto { bc with cache := bc.cache.cacheThread } where
  toTipOk := h.toTipOk.cacheThread
  hashed newest hn := h.hashed newest (h.toTipOk.getNewestBlock_cacheThread ▸ hn)
  noHash := h.noHash
  nextId := h.nextId

theorem step (h : ReplayInv crypto bc) {op : ChainOp} (hop : Blockchain.Admissible crypto bc op) :
    ReplayInv crypto (bc.step crypto op) := by
  cases op with
  | addBlock block => exact h.addBlock hop
  | establishBaseline => exact h.establishBaseline
  | cacheThread => exact h.cacheThread
  | query question => exact h.sameBalances (Blockchain.afterQuery_sameBalances crypto bc question)

theorem newestBlockId_lt_addBlock (h : ReplayInv crypto bc) {block : CollectionBlock}
    (hacc : bc.Accepts crypto block) :
    bc.getNewestBlockId.toNat < (bc.addBlock crypto block).getNewestBlockId.toNat := by
  show _ < bc.cache.nextFreeBlockId.toNat
  rw [← h.toTipOk.uid_of_accepts hacc, h.toTipOk.toNat_uid_of_accepts hacc]
  exact Nat.lt_succ_self _

/-- **The ids grow.** -/
theorem newestBlockId_le_step (h : ReplayInv crypto bc) {op : ChainOp}
    (hop : Blockchain.Admissible crypto bc op) (hid : BaselineIdValid bc op) :
    bc.getNewestBlockId.toNat ≤ (bc.step crypto op).getNewestBlockId.toNat := by
  cases op with
  | addBlock block => exact le_of_lt (h.newestBlockId_lt_addBlock hop)
  | establishBaseline =>
    show _ ≤ bc.currentBaseline.header.blockUid.toNat
    rcases h.nextId with heq | heq
    · rw [heq]
    · rw [BaselineIdValid, heq] at hid
      rw [heq, toNat_add_one hid]
      exact Nat.le_succ _
  | cacheThread => exact le_refl _
  | query question =>
    have hs := Blockchain.afterQuery_sameBalances crypto bc question
    show _ ≤ (bc.afterQuery crypto question).metaData.newestBlockId.toNat
    rw [hs.metaData]
    exact le_refl _

end ReplayInv

/-! ## What sub-blocks name -/

/-- The sub-blocks of the block were made on top of `tip`. -/
structure StandsOn (block : CollectionBlock) (tip : Block) : Prop where
  transactions : ∀ transaction ∈ block.transactions.values,
    transaction.header.genericHeader.previousBlockHash = tip.header.genericHeader.blockHash
  creations : ∀ creation ∈ block.creations.values,
    creation.header.genericHeader.previousBlockHash = tip.header.genericHeader.blockHash

theorem standsOn_of_contentsOk {bc : Blockchain} {block : CollectionBlock} {newest : Block}
    (h : ContentsOk crypto bc block newest) : StandsOn block newest := by
  constructor
  · intro transaction hmem
    have hvalid := h.transactions transaction hmem
    simp only [validateTransactionSubBlock, Bool.and_eq_true, beq_iff_eq] at hvalid
    exact hvalid.2
  · intro creation hmem
    exact (validateCreationSubBlock_iff.1 (h.creations creation hmem)).previous

/-- The hash that is named is part of the signed content. -/
theorem StandsOn.nothingShared {block block' : CollectionBlock} {tip tip' : Block}
    (h : StandsOn block tip) (h' : StandsOn block' tip')
    (hne : tip.header.genericHeader.blockHash ≠ tip'.header.genericHeader.blockHash) :
    NothingShared block block' := by
  constructor
  · intro transaction hmem transaction' hmem' heq
    have hprevious : transaction.header.genericHeader.previousBlockHash =
        transaction'.header.genericHeader.previousBlockHash :=
      congrArg (fun t => t.header.genericHeader.previousBlockHash) heq
    rw [h.transactions _ hmem, h'.transactions _ hmem'] at hprevious
    exact hne hprevious
  · intro creation hmem creation' hmem' heq
    have hprevious : creation.header.genericHeader.previousBlockHash =
        creation'.header.genericHeader.previousBlockHash :=
      congrArg (fun c => c.header.genericHeader.previousBlockHash) heq
    rw [h.creations _ hmem, h'.creations _ hmem'] at hprevious
    exact hne hprevious

/-- A block with a hash of its own content and an id from `uid` on. -/
structure TipFrom (crypto : CryptoHelper) (uid : BlockUid) (tip : Block) : Prop where
  hashed : tip.header.genericHeader.blockHash = crypto.calcHash tip.hashedBytes
  le : uid.toNat ≤ tip.header.blockUid.toNat

theorem ReplayInv.tipFrom {bc : Blockchain} (h : ReplayInv crypto bc) {newest : Block}
    (hn : bc.getNewestBlock = some newest) :
    newest.header.blockUid = bc.getNewestBlockId ∧
      TipFrom crypto bc.getNewestBlockId newest := by
  obtain ⟨newest', hn', huid⟩ := h.newest
  rw [hn] at hn'
  cases hn'
  exact ⟨huid, h.hashed newest hn, by rw [huid]⟩

/-- A run from a state in order, with valid ids. -/
def ValidRun (crypto : CryptoHelper) (bc : Blockchain) (ops : List ChainOp) : Prop :=
  Run.AllSteps (Blockchain.step crypto)
    (fun bc op => Blockchain.Admissible crypto bc op ∧ BaselineIdValid bc op) bc ops

theorem mem_tips_of_mem_tail {bc : Blockchain} {op : ChainOp} {ops : List ChainOp} {tip : Block}
    (h : tip ∈ tips crypto (bc.step crypto op) ops) : tip ∈ tips crypto bc (op :: ops) := by
  unfold tips at *
  rw [Run.states, List.filterMap_cons]
  split
  · exact h
  · exact List.mem_cons_of_mem _ h

theorem mem_tips_of_newest {bc : Blockchain} {op : ChainOp} {ops : List ChainOp} {newest : Block}
    (h : bc.getNewestBlock = some newest) : newest ∈ tips crypto bc (op :: ops) := by
  unfold tips
  rw [Run.states, List.filterMap_cons, h]
  exact List.mem_cons_self

/-- Every block of a run stands on a newest block of it. -/
theorem exists_tip {bc : Blockchain} {ops : List ChainOp} (hinv : ReplayInv crypto bc)
    (hrun : ValidRun crypto bc ops) {block : CollectionBlock} (hblock : block ∈ addedBlocks ops) :
    ∃ tip ∈ tips crypto bc ops, StandsOn block tip ∧ TipFrom crypto bc.getNewestBlockId tip := by
  induction ops generalizing bc with
  | nil => exact absurd hblock List.not_mem_nil
  | cons op ops ih =>
    obtain ⟨⟨hop, hid⟩, hrest⟩ := hrun
    by_cases hhere : op = .addBlock block
    · subst hhere
      obtain ⟨newest, hn, hc⟩ := Blockchain.Accepts.contents hop
      exact ⟨newest, mem_tips_of_newest hn, standsOn_of_contentsOk hc, (hinv.tipFrom hn).2⟩
    · have hlater : block ∈ addedBlocks ops := by
        obtain ⟨op', hop', heq⟩ := List.mem_filterMap.1 hblock
        rcases List.mem_cons.1 hop' with rfl | hmem
        · cases op' <;> simp_all
        · exact List.mem_filterMap.2 ⟨op', hmem, heq⟩
      obtain ⟨tip, hmem, hstands, htip⟩ := ih (hinv.step hop) hrest hlater
      refine ⟨tip, mem_tips_of_mem_tail hmem, hstands, htip.hashed, ?_⟩
      exact le_trans (hinv.newestBlockId_le_step hop hid) htip.le

/-- Blocks on newest blocks with different ids share nothing. -/
theorem nothingShared_of_uid_lt {blocks : List Block} (hhash : Distinguishes crypto blocks)
    {block block' : CollectionBlock} {tip tip' : Block} (hmem : tip ∈ blocks)
    (hmem' : tip' ∈ blocks) (h : StandsOn block tip) (h' : StandsOn block' tip')
    (hself : tip.header.genericHeader.blockHash = crypto.calcHash tip.hashedBytes)
    (hself' : tip'.header.genericHeader.blockHash = crypto.calcHash tip'.hashedBytes)
    (hlt : tip.header.blockUid.toNat < tip'.header.blockUid.toNat) :
    NothingShared block block' := by
  apply h.nothingShared h'
  rw [hself, hself']
  apply hhash tip hmem tip' hmem'
  intro hbytes
  rw [blockUid_of_hashedBytes hbytes] at hlt
  exact lt_irrefl _ hlt

theorem nothingShared_of_validRun {bc : Blockchain} {ops : List ChainOp}
    (hinv : ReplayInv crypto bc) (hrun : ValidRun crypto bc ops)
    (hhash : Distinguishes crypto (tips crypto bc ops)) :
    (addedBlocks ops).Pairwise NothingShared := by
  induction ops generalizing bc with
  | nil => exact List.Pairwise.nil
  | cons op ops ih =>
    obtain ⟨⟨hop, hid⟩, hrest⟩ := hrun
    have hinv' := hinv.step hop
    have htail := ih hinv' hrest fun block hmem block' hmem' =>
      hhash block (mem_tips_of_mem_tail hmem) block' (mem_tips_of_mem_tail hmem')
    cases op with
    | addBlock block =>
      refine List.Pairwise.cons (fun block' hblock' => ?_) htail
      -- the first block stands on the newest one, the others on blocks with larger ids
      obtain ⟨newest, hn, hc⟩ := Blockchain.Accepts.contents hop
      obtain ⟨huid, htip⟩ := hinv.tipFrom hn
      obtain ⟨tip, hmem, hstands, hlater⟩ := exists_tip hinv' hrest hblock'
      refine nothingShared_of_uid_lt hhash (mem_tips_of_newest hn) (mem_tips_of_mem_tail hmem)
        (standsOn_of_contentsOk hc) hstands htip.hashed hlater.hashed ?_
      rw [huid]
      exact lt_of_lt_of_le (hinv.newestBlockId_lt_addBlock hop) hlater.le
    | establishBaseline => exact htail
    | cacheThread => exact htail
    | query question => exact htail

theorem RootedRun.replayInv (run : RootedRun crypto) : ReplayInv crypto run.start := by
  have hvalid := run.valid
  simp only [validateBlockWithoutContext, Bool.and_eq_true, and_assoc] at hvalid
  rw [run.start_eq]
  exact ReplayInv.of_root rfl (validateBlockWithoutContext_header run.valid).1 hvalid.2.2.1

/-- **No replay.** -/
theorem RootedRun.noReplay (run : RootedRun crypto) (hids : run.AllSteps BaselineIdValid)
    (hhash : Distinguishes crypto (tips crypto run.start run.ops)) :
    (addedBlocks run.ops).Pairwise NothingShared :=
  nothingShared_of_validRun run.replayInv (Run.AllSteps.and.2 ⟨run.admissible, hids⟩) hhash

instance (bc : Blockchain) : ∀ op, Decidable (BaselineIdValid bc op)
  | .establishBaseline => inferInstanceAs (Decidable (_ ≠ _))
  | .addBlock _ => inferInstanceAs (Decidable True)
  | .cacheThread => inferInstanceAs (Decidable True)
  | .query _ => inferInstanceAs (Decidable True)

instance (blocks : List Block) : Decidable (Distinguishes crypto blocks) :=
  inferInstanceAs (Decidable (∀ block ∈ blocks, ∀ block' ∈ blocks, _ → _))

namespace Sample

/-- A coin is mined, a part of it is paid, and a baseline is established. -/
def paidRun : RootedRun .sample where
  root := Blockchain.emptyBaseline .sample
  valid := by decide +kernel
  before := {}
  ops := [.addBlock mining, .addBlock (block (.collection mining)
    [payment (.collection mining) keyA keyB 300000] []), .establishBaseline]
  admissible := by decide +kernel

end Sample

/-- The coin and the payment cannot be used again. -/
theorem paid_once :
    Sample.paidRun.AllSteps BaselineIdValid ∧
      Distinguishes .sample (tips .sample Sample.paidRun.start Sample.paidRun.ops) ∧
      (addedBlocks Sample.paidRun.ops).Pairwise NothingShared := by
  have hids : Sample.paidRun.AllSteps BaselineIdValid := by
    unfold RootedRun.AllSteps
    decide +kernel
  have hhash : Distinguishes .sample (tips .sample Sample.paidRun.start Sample.paidRun.ops) := by
    decide +kernel
  exact ⟨hids, hhash, Sample.paidRun.noReplay hids hhash⟩

/-! ## Round the corner -/

theorem accepts_empty {bc : Blockchain} {newest : Block} (hn : bc.getNewestBlock = some newest)
    {header : BlockHeader} (h0 : header.blockUid ≠ 0)
    (huid : header.blockUid = newest.header.blockUid + 1)
    (htype : header.genericHeader.blockType = .CollectionBlock)
    (hhash : crypto.verifyHash ({ header } : CollectionBlock) = true)
    (hprevious : header.genericHeader.previousBlockHash =
      newest.header.genericHeader.blockHash) :
    bc.Accepts crypto { header } := by
  refine Blockchain.accepts_iff.2 ⟨⟨newest, hn, ?_⟩, fun _ hmem => absurd hmem List.not_mem_nil⟩
  exact
    { uid_ne_zero := h0
      uid := huid
      blockType := htype
      hash := hhash
      transactions := fun _ hmem => absurd hmem List.not_mem_nil
      creations := fun _ hmem => absurd hmem List.not_mem_nil
      sorted := rfl
      numCreations := Nat.zero_le _
      numTransactions := Nat.zero_le _
      previous := hprevious
      dataValues := List.nodup_nil }

namespace Sample

/-- A hash that is made of the id of the block and the number of its bytes. -/
def ringCrypto : CryptoHelper where
  calcHash bytes := Fin.ofNat (2 ^ 256)
    (leValue ((bytes.drop 66).take 8) + 2 ^ 64 * (bytes.length % 2 ^ 64))
  verifySignature := CryptoHelper.sample.verifySignature
  isPublicKeyValid := CryptoHelper.sample.isPublicKeyValid

/-- The sizes of the blocks of the ring: two baselines, one block with payments, empty ones. -/
def ringSize (uid : BlockUid) : Nat :=
  if uid = 0 ∨ uid = 2 then 209 else if uid = 3 then 357 else 90

def ringHash (uid : BlockUid) : Hash :=
  Fin.ofNat (2 ^ 256) (uid.toNat + 2 ^ 64 * ringSize uid)

def ringHeader (uid : BlockUid) (blockType : BlockType) : BlockHeader where
  genericHeader :=
    { blockHash := ringHash uid, previousBlockHash := ringHash (uid - 1), blockType }
  blockUid := uid

/-- A key of two letters, so that payments in both directions differ in size. -/
def keyBB : PublicKeyPEM := ⟨[66, 66]⟩

/-- A baseline with two empty wallets. -/
def ringRoot (uid : BlockUid) : BaselineBlock where
  header := ringHeader uid .BaselineBlock
  miningState := {}
  dataValueHashes := [[]]
  wallets := ((∅ : Wallets).insert keyA 0).insert keyBB 0

/-- An empty block. -/
def ringLink (uid : BlockUid) : CollectionBlock where
  header := ringHeader uid .CollectionBlock

/-- There and back again. -/
def ringPayments (fraction : UInt64) : List TransactionSubBlock :=
  [buildTransaction ringCrypto (.baseline (ringRoot 2)) keyA keyBB fraction keyA.shortString,
    buildTransaction ringCrypto (.baseline (ringRoot 2)) keyBB keyA fraction keyBB.shortString]

/-- The first block after the root. -/
def ringBlock : CollectionBlock where
  header := ringHeader 3 .CollectionBlock
  transactions := (ringPayments 1).foldl storeTransaction ∅

/-- The block after the root the next time, with two more payments. -/
def ringBlockAgain : CollectionBlock :=
  placeBlock ringCrypto 2 (.baseline (ringRoot 2))
    { transactions := (ringPayments 1 ++ ringPayments 2).foldl storeTransaction ∅ }

theorem length_serHash (hash : Hash) : (serHash hash).length = 32 := by
  simp [serHash, serUInt64]

theorem ringCrypto_calcHash (block : Block) :
    ringCrypto.calcHash block.hashedBytes = Fin.ofNat (2 ^ 256)
      (block.header.blockUid.toNat + 2 ^ 64 * (block.hashedBytes.length % 2 ^ 64)) := by
  obtain ⟨rest, hbytes⟩ := hashedBytes_eq block
  have hdrop : block.hashedBytes.drop 66 = serUInt64 block.header.blockUid ++ rest := by
    rw [hbytes, archive, List.drop_succ_cons, BlockHeader.ser, List.append_assoc]
    apply List.drop_left'
    simp [GenericHeader.ser, length_serHash]
  have huid : leValue (serUInt64 block.header.blockUid) = block.header.blockUid.toNat := by
    rw [serUInt64, leValue_leBytes]
    exact Nat.mod_eq_of_lt block.header.blockUid.toNat_lt
  simp only [ringCrypto]
  rw [hdrop, List.take_left' (by simp [serUInt64]), huid]

theorem ringCrypto_calcHash_inj {block block' : Block}
    (h : ringCrypto.calcHash block.hashedBytes = ringCrypto.calcHash block'.hashedBytes) :
    block.header.blockUid = block'.header.blockUid ∧
      block.hashedBytes.length % 2 ^ 64 = block'.hashedBytes.length % 2 ^ 64 := by
  rw [ringCrypto_calcHash, ringCrypto_calcHash] at h
  have hval := congrArg Fin.val h
  simp only [Fin.val_ofNat] at hval
  have hlt := block.header.blockUid.toNat_lt
  have hlt' := block'.header.blockUid.toNat_lt
  rw [← UInt64.toNat_inj]
  omega

/-- The block of the ring with an id and a size. -/
def ringTip (uid : BlockUid) (size : Nat) : Block :=
  if uid = 0 ∨ uid = 2 then .baseline (ringRoot uid)
  else if uid = 3 then .collection (if size = 357 then ringBlock else ringBlockAgain)
  else .collection (ringLink uid)

/-- The block is one of the ring. -/
def InRing (block : Block) : Prop :=
  block = ringTip block.header.blockUid (block.hashedBytes.length % 2 ^ 64)

instance (block : Block) : Decidable (InRing block) := inferInstanceAs (Decidable (_ = _))

theorem distinguishes_of_inRing {blocks : List Block} (h : ∀ block ∈ blocks, InRing block) :
    Distinguishes ringCrypto blocks := by
  intro block hmem block' hmem' hne heq
  obtain ⟨huid, hsize⟩ := ringCrypto_calcHash_inj heq
  have hblock := h block hmem
  have hblock' := h block' hmem'
  rw [InRing, huid, hsize] at hblock
  rw [InRing] at hblock'
  exact hne (congrArg Block.hashedBytes (hblock.trans hblock'.symm))

/-- An id without a block of its own. -/
def IsLink (uid : BlockUid) : Prop := uid ≠ 0 ∧ uid ≠ 2 ∧ uid ≠ 3

theorem inRing_ringLink {uid : BlockUid} (h : IsLink uid) :
    InRing (.collection (ringLink uid)) := by
  obtain ⟨h0, h2, h3⟩ := h
  have hbase : ¬ (uid = 0 ∨ uid = 2) := fun heq => heq.elim h0 h2
  show _ = ringTip uid _
  rw [ringTip, if_neg hbase, if_neg h3]

theorem verifyHash_ringLink {uid : BlockUid} (h : IsLink uid) :
    ringCrypto.verifyHash (ringLink uid) = true := by
  obtain ⟨h0, h2, h3⟩ := h
  have hbase : ¬ (uid = 0 ∨ uid = 2) := fun heq => heq.elim h0 h2
  have hsize : (Block.hashedBytes (.collection (ringLink uid))).length = 90 := by
    have htransactions : (Hashed.withBlockHash (ringLink uid) 0).transactions.entries = [] := rfl
    have hcreations : (Hashed.withBlockHash (ringLink uid) 0).creations.entries = [] := rfl
    simp [Block.hashedBytes, archive, Hashed.ser, CollectionBlock.ser, BlockHeader.ser,
      GenericHeader.ser, length_serHash, serUInt64, serMap, serList, serSize, htransactions,
      hcreations]
  rw [CryptoHelper.verifyHash_iff]
  have hhash := ringCrypto_calcHash (.collection (ringLink uid))
  rw [hsize] at hhash
  refine Eq.trans ?_ hhash.symm
  show ringHash uid = _
  rw [ringHash, ringSize, if_neg hbase, if_neg h3]
  rfl

/-! ### Walking round -/

/-- The newest block is a block of the ring. -/
def TipInRing (bc : Blockchain) : Prop := ∃ tip, bc.getNewestBlock = some tip ∧ InRing tip

/-- The newest block is a collection of the ring, and the next baseline would be, too. -/
structure RingState (bc : Blockchain) (uid : BlockUid) : Prop where
  tipOk : TipOk bc
  newest : ∃ block, bc.getNewestBlock = some (.collection block) ∧ block.header.blockUid = uid ∧
    block.header.genericHeader.blockHash = ringHash uid ∧ InRing (.collection block)
  baseline : bc.currentBaseline = Hashed.withBlockHash (ringRoot (uid + 1)) 0

/-- The newest block is a baseline of the ring. -/
structure RootState (bc : Blockchain) (uid : BlockUid) : Prop where
  tipOk : TipOk bc
  newest : bc.getNewestBlock = some (.baseline (ringRoot uid))
  baseline : bc.currentBaseline = Hashed.withBlockHash (ringRoot uid) 0

theorem RingState.tipInRing {bc : Blockchain} {uid : BlockUid} (h : RingState bc uid) :
    TipInRing bc := by
  obtain ⟨block, hn, -, -, hring⟩ := h.newest
  exact ⟨_, hn, hring⟩

theorem updateCurrentBaseline_ringRoot {uid : BlockUid} {block : CollectionBlock}
    (hcreations : block.creations = ∅)
    (hwallets : applyBlock (ringRoot uid).wallets block = (ringRoot uid).wallets)
    (hhash : block.header.genericHeader.blockHash = ringHash block.header.blockUid) :
    updateCurrentBaseline ringCrypto (Hashed.withBlockHash (ringRoot uid) 0)
        block.header.blockUid block =
      Hashed.withBlockHash (ringRoot (block.header.blockUid + 1)) 0 := by
  have hprevious : ringHash (block.header.blockUid + 1 - 1) =
      block.header.genericHeader.blockHash := by
    rw [UInt64.add_sub_cancel, hhash]
  have hentered : enterBlock ringCrypto (Hashed.withBlockHash (ringRoot uid) 0)
      block.header.blockUid block =
        Hashed.withBlockHash (ringRoot (block.header.blockUid + 1)) 0 := by
    unfold enterBlock addDataValues
    rw [hcreations]
    show _ = ({
      header := {
        genericHeader := {
          blockHash := 0
          previousBlockHash := ringHash (block.header.blockUid + 1 - 1)
          blockType := .BaselineBlock }
        blockUid := block.header.blockUid + 1 }
      miningState := {}
      dataValueHashes := [[]]
      wallets := (ringRoot uid).wallets } : BaselineBlock)
    rw [hprevious, ← hwallets]
    rfl
  unfold updateCurrentBaseline
  rw [hentered]
  rfl

theorem ringState_addBlock {bc : Blockchain} (htip : TipOk bc) {uid : BlockUid}
    (hbaseline : bc.currentBaseline = Hashed.withBlockHash (ringRoot uid) 0)
    {block : CollectionBlock} (hacc : bc.Accepts ringCrypto block)
    (hcreations : block.creations = ∅)
    (hwallets : applyBlock (ringRoot uid).wallets block = (ringRoot uid).wallets)
    (hhash : block.header.genericHeader.blockHash = ringHash block.header.blockUid)
    (hring : InRing (.collection block)) :
    RingState (bc.addBlock ringCrypto block) block.header.blockUid where
  tipOk := htip.addBlock hacc
  newest := ⟨block, Cache.getBlock_addBlock_self bc.cache (.collection block), rfl, hhash, hring⟩
  baseline := by
    have huid := htip.uid_of_accepts hacc
    show updateCurrentBaseline ringCrypto bc.currentBaseline bc.cache.nextFreeBlockId block = _
    rw [hbaseline, ← huid, updateCurrentBaseline_ringRoot hcreations hwallets hhash]

theorem RingState.addLink {bc : Blockchain} {uid : BlockUid} (h : RingState bc uid)
    (hlink : IsLink (uid + 1)) :
    bc.Accepts ringCrypto (ringLink (uid + 1)) ∧
      RingState (bc.addBlock ringCrypto (ringLink (uid + 1))) (uid + 1) := by
  obtain ⟨block, hn, huid, hhash, -⟩ := h.newest
  have hprevious : ringHash (uid + 1 - 1) = block.header.genericHeader.blockHash := by
    rw [UInt64.add_sub_cancel, hhash]
  have hacc : bc.Accepts ringCrypto (ringLink (uid + 1)) :=
    accepts_empty hn hlink.1 (congrArg (· + 1) huid.symm) rfl (verifyHash_ringLink hlink) hprevious
  exact ⟨hacc, ringState_addBlock h.tipOk h.baseline hacc rfl rfl rfl (inRing_ringLink hlink)⟩

theorem RingState.establishBaseline {bc : Blockchain} {uid : BlockUid} (h : RingState bc uid)
    (hhash : ringCrypto.contentHash (ringRoot (uid + 1)) = ringHash (uid + 1)) :
    RootState (bc.establishBaseline ringCrypto) (uid + 1) := by
  have hroot : bc.establishedBaseline ringCrypto = ringRoot (uid + 1) := by
    rw [Blockchain.establishedBaseline, h.baseline, CryptoHelper.fillHash_withBlockHash_zero,
      hhash]
    rfl
  refine ⟨h.tipOk.establishBaseline, ?_, ?_⟩
  · unfold Blockchain.establishBaseline
    rw [hroot]
    exact Cache.getBlock_addBlock_self _ _
  · unfold Blockchain.establishBaseline
    rw [hroot]

/-- The run is one of accepted blocks, and it stays in the ring. -/
def Walks (bc : Blockchain) (ops : List ChainOp) : Prop :=
  Run.AllSteps (Blockchain.step ringCrypto) (Blockchain.Admissible ringCrypto) bc ops ∧
    Run.AllStates (Blockchain.step ringCrypto) TipInRing bc ops

theorem walks_cons {bc : Blockchain} {op : ChainOp} {ops : List ChainOp} (h : TipInRing bc)
    (hop : Blockchain.Admissible ringCrypto bc op) (hrest : Walks (bc.step ringCrypto op) ops) :
    Walks bc (op :: ops) :=
  ⟨⟨hop, hrest.1⟩, h, hrest.2⟩

/-- `count` empty blocks after `uid`. -/
def linkOps (uid : BlockUid) : Nat → List ChainOp
  | 0 => []
  | count + 1 => .addBlock (ringLink (uid + 1)) :: linkOps (uid + 1) count

/-- **Walking along empty blocks.** -/
theorem walks_linkOps {rest : List ChainOp} (count : Nat) {bc : Blockchain} {uid : BlockUid}
    (h : RingState bc uid) (hlow : 3 ≤ uid.toNat) (hhigh : uid.toNat + count < 2 ^ 64)
    (hrest : ∀ bc' uid', RingState bc' uid' → uid'.toNat = uid.toNat + count → Walks bc' rest) :
    Walks bc (linkOps uid count ++ rest) := by
  induction count generalizing bc uid with
  | zero => exact hrest bc uid h rfl
  | succ count ih =>
    have hnext : (uid + 1).toNat = uid.toNat + 1 := by
      rw [UInt64.toNat_add, UInt64.toNat_one]
      exact Nat.mod_eq_of_lt (by omega)
    have hlink : IsLink (uid + 1) := by
      refine ⟨?_, ?_, ?_⟩ <;> intro heq <;> rw [heq] at hnext
      · have hzero : (0 : UInt64).toNat = 0 := rfl
        omega
      · have htwo : (2 : UInt64).toNat = 2 := rfl
        omega
      · have hthree : (3 : UInt64).toNat = 3 := rfl
        omega
    obtain ⟨hacc, hstate⟩ := h.addLink hlink
    refine walks_cons h.tipInRing hacc (ih hstate (by omega) (by omega) ?_)
    intro bc' uid' hring huid
    exact hrest bc' uid' hring (by omega)

/-- Once round the ring, and the first step again. -/
def ringOps (count : Nat) : List ChainOp :=
  .addBlock ringBlock :: (linkOps 3 count ++
    [.establishBaseline, .addBlock (ringLink 1), .establishBaseline, .addBlock ringBlockAgain])

theorem rootState_setRootBlock : RootState (({} : Blockchain).setRootBlock (ringRoot 2)) 2 where
  tipOk := TipOk.setRootBlock (by decide) rfl
  newest := by decide +kernel
  baseline := rfl

theorem RootState.sameView {bc bc' : Blockchain} {uid : BlockUid} (h : RootState bc uid)
    (h' : RootState bc' uid) : bc.SameView bc' := by
  have hnext {chain : Blockchain} (hroot : RootState chain uid) :
      chain.cache.nextFreeBlockId = uid + 1 := by
    obtain ⟨newest, hn, huid⟩ := hroot.tipOk.newest
    rw [hroot.newest] at hn
    cases hn
    rw [hroot.tipOk.next, ← huid]
    rfl
  have hbaseline : bc'.currentBaseline = bc.currentBaseline := h'.baseline.trans h.baseline.symm
  refine ⟨h'.newest.trans h.newest.symm, (hnext h').trans (hnext h).symm, ?_, ?_, ?_, ?_⟩
  · rw [hbaseline]
  · rw [hbaseline]
  · rw [hbaseline]
  · intro key
    unfold Blockchain.getBalance
    rw [hbaseline]

theorem RootState.accepts {bc : Blockchain} (h : RootState bc 2) :
    bc.Accepts ringCrypto ringBlock ∧ bc.Accepts ringCrypto ringBlockAgain := by
  have hview := rootState_setRootBlock.sameView h
  rw [hview.accepts, hview.accepts]
  decide +kernel

/-- **Once round the ring.** -/
theorem walks_ringOps {count : Nat} (hcount : count + 4 = 2 ^ 64) :
    Walks (({} : Blockchain).setRootBlock (ringRoot 2)) (ringOps count) := by
  have hstart := rootState_setRootBlock
  refine walks_cons ⟨_, hstart.newest, by decide +kernel⟩ hstart.accepts.1 ?_
  have hthree : RingState ((({} : Blockchain).setRootBlock (ringRoot 2)).addBlock ringCrypto
      ringBlock) 3 :=
    ringState_addBlock hstart.tipOk hstart.baseline hstart.accepts.1 rfl (by decide +kernel) rfl
      (by decide +kernel)
  have hlow : (3 : UInt64).toNat = 3 := rfl
  refine walks_linkOps count hthree (le_of_eq hlow.symm) (by omega) ?_
  -- the last id is reached, and the baseline gets the id zero
  intro bc uid hlast huid
  have hwrap : uid + 1 = 0 := by
    have hlast : uid.toNat + 1 = 2 ^ 64 := by omega
    rw [← UInt64.toNat_inj, UInt64.toNat_add, UInt64.toNat_one, hlast]
    rfl
  refine walks_cons hlast.tipInRing trivial ?_
  have hzero : RootState (bc.establishBaseline ringCrypto) 0 := by
    have hestablished := hlast.establishBaseline (by rw [hwrap]; decide +kernel)
    rwa [hwrap] at hestablished
  have hlink : IsLink 1 := by
    unfold IsLink
    decide
  have hone : (bc.establishBaseline ringCrypto).Accepts ringCrypto (ringLink 1) :=
    accepts_empty hzero.newest hlink.1 rfl rfl (verifyHash_ringLink hlink) rfl
  refine walks_cons ⟨_, hzero.newest, by decide +kernel⟩ hone ?_
  have honce := ringState_addBlock hzero.tipOk hzero.baseline hone rfl rfl rfl
    (inRing_ringLink hlink)
  refine walks_cons honce.tipInRing trivial ?_
  have htwo := honce.establishBaseline (by decide +kernel)
  refine walks_cons ⟨_, htwo.newest, by decide +kernel⟩ htwo.accepts.2 ?_
  exact ⟨trivial, _, Cache.getBlock_addBlock_self _ _, by decide +kernel⟩

end Sample

/-- The ids of a run come round, and a payment of the first block is accepted once more: after
`2 ^ 64` steps a baseline is the root again. -/
theorem payment_replayed :
    ¬ ∀ (crypto : CryptoHelper) (run : RootedRun crypto),
      Distinguishes crypto (tips crypto run.start run.ops) →
      ∀ block ∈ addedBlocks run.ops, ∀ block' ∈ addedBlocks run.ops, block ≠ block' →
        NothingShared block block' := by
  intro h
  obtain ⟨count, hcount⟩ : ∃ count, count + 4 = 2 ^ 64 := ⟨2 ^ 64 - 4, by norm_num⟩
  have hwalks := Sample.walks_ringOps hcount
  have hring : Distinguishes Sample.ringCrypto
      (tips Sample.ringCrypto (({} : Blockchain).setRootBlock (Sample.ringRoot 2))
        (Sample.ringOps count)) := by
    apply Sample.distinguishes_of_inRing
    intro block hmem
    obtain ⟨bc, hbc, hnewest⟩ := List.mem_filterMap.1 hmem
    obtain ⟨tip, htip, hinside⟩ := hwalks.2.of_mem_states hbc
    rw [hnewest] at htip
    cases htip
    exact hinside
  have hadded {block : CollectionBlock} (hop : .addBlock block ∈ Sample.ringOps count) :
      block ∈ addedBlocks (Sample.ringOps count) := List.mem_filterMap.2 ⟨_, hop, rfl⟩
  have hshared := h Sample.ringCrypto
    { root := Sample.ringRoot 2
      valid := by decide +kernel
      before := {}
      ops := Sample.ringOps count
      admissible := hwalks.1 } hring Sample.ringBlock (hadded (by simp [Sample.ringOps]))
    Sample.ringBlockAgain (hadded (by simp [Sample.ringOps])) (by decide +kernel)
  have hpayment : ∃ payment, payment ∈ Sample.ringBlock.transactions.values ∧
      payment ∈ Sample.ringBlockAgain.transactions.values := by
    refine ⟨(Sample.ringPayments 1).headD {}, ?_, ?_⟩ <;> decide +kernel
  obtain ⟨payment, hfirst, hagain⟩ := hpayment
  exact hshared.transactions payment hfirst payment hagain rfl

end SwabianCoin
