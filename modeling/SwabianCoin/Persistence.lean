import SwabianCoin.HonestPeers
import SwabianCoin.Queries
import SwabianCoin.Reset

/-!
# A chain that is left behind

The meta file of a chain is written with every change, a block only when `cacheThread` moves it out
of memory. The destructor writes nothing, so the newest blocks of a chain are gone with it, and
`importBlockchain` reads a null pointer where the first of them should be.

The files lead back to the chain exactly if each block that was still in memory happens to be on
disk as well, left over from an earlier chain (`importable_iff`).
-/

namespace SwabianCoin

open Machine

/-! ## Importing -/

/-- What a chain leaves in its folder. -/
structure ChainFolder where
  /-- The file `meta`, if there is one. -/
  metaFile : Option MetaData := none
  /-- The files `<id>.blk`. -/
  files : OrdMap BlockUid Block := ∅

namespace ChainFolder

/-- A file that cannot be read counts as two zeros. -/
def getExternalMetaData (folder : ChainFolder) : MetaData := folder.metaFile.getD ⟨0, 0⟩

/-- `Cache::getExternalBlockFromDisk`. -/
def getExternalBlockFromDisk (folder : ChainFolder) (uid : BlockUid) : Option Block :=
  if uid = 0 then none else folder.files.find? uid

end ChainFolder

namespace Blockchain

/-- The folder after the destructor: `setMetaData` has written the meta file with every change,
`cacheThread` has written the files of the cache. -/
def destroyed (bc : Blockchain) : ChainFolder := ⟨some bc.metaData, bc.cache.disk⟩

/-- `for (i = …; i <= newest_block_id; i++)`, in at most `fuel` rounds. A null pointer is read when
a block is not there, and a block of the other class is not one. -/
def importBlocks (crypto : CryptoHelper) (folder : ChainFolder) (newestBlockId : BlockUid) :
    Nat → BlockUid → Blockchain → Option Blockchain
  | 0, i, bc => if i ≤ newestBlockId then none else some bc
  | fuel + 1, i, bc =>
    if i ≤ newestBlockId then
      match folder.getExternalBlockFromDisk i with
      | some (.collection block) =>
        importBlocks crypto folder newestBlockId fuel (i + 1) (bc.addBlock crypto block)
      | _ => none
    else some bc

/-- `importBlockchain`, with its loops in at most `fuel` rounds. -/
def importBlockchain (crypto : CryptoHelper) (fuel : Nat) (bc : Blockchain) (folder : ChainFolder) :
    Option Blockchain :=
  let metaData := folder.getExternalMetaData
  if metaData.rootBlockId = 0 ∨ metaData.newestBlockId = 0 then some (bc.initEmptyChain crypto)
  else
    match folder.getExternalBlockFromDisk metaData.rootBlockId with
    | some (.baseline block) =>
      (bc.setRootBlockWithin fuel block).bind
        (importBlocks crypto folder metaData.newestBlockId fuel (metaData.rootBlockId + 1))
    | _ => none

/-! ## Statement -/

/-- What the chain leaves behind can be imported into another one: every block of the chain is
found, and the other chain ends up with the same ids and the same current baseline. -/
structure Importable (crypto : CryptoHelper) (bc other : Blockchain) : Prop where
  found : ∀ uid, bc.getRootBlockId ≤ uid → uid ≤ bc.getNewestBlockId →
    ∃ block, bc.getBlock uid = some block ∧
      bc.destroyed.getExternalBlockFromDisk uid = some block
  imported : ∃ fuel result, other.importBlockchain crypto fuel bc.destroyed = some result ∧
    result.getRootBlockId = bc.getRootBlockId ∧
    result.getNewestBlockId = bc.getNewestBlockId ∧
    result.currentBaseline = bc.currentBaseline

/-- Every block in memory is on disk as well. -/
def OnDisk (bc : Blockchain) : Prop :=
  ∀ entry ∈ bc.cache.cachedBlocks, bc.cache.disk.find? entry.1 = some entry.2

/-- The calls that write: blocks have the asserted id and type, and the ids have not come to their
end. -/
def Writes (bc : Blockchain) : ChainCall → Prop
  | .op (.addBlock block) =>
    block.header.blockUid = bc.cache.nextFreeBlockId ∧ (Block.collection block).WellTyped ∧
      bc.cache.nextFreeBlockId ≠ 0
  | .op .establishBaseline => bc.currentBaseline.header.blockUid ≠ 0
  | .op .cacheThread => True
  | .op (.query _) => False
  | .initEmptyChain => True
  | .setRootBlock block => (Block.baseline block).WellTyped

instance (bc : Blockchain) : Decidable bc.OnDisk :=
  inferInstanceAs (Decidable (∀ entry ∈ bc.cache.cachedBlocks,
    bc.cache.disk.find? entry.1 = some entry.2))

instance (bc : Blockchain) : ∀ call, Decidable (bc.Writes call)
  | .op (.addBlock _) => inferInstanceAs (Decidable (_ ∧ _ ∧ _))
  | .op .establishBaseline => inferInstanceAs (Decidable (_ ≠ _))
  | .op .cacheThread => inferInstanceAs (Decidable True)
  | .op (.query _) => inferInstanceAs (Decidable False)
  | .initEmptyChain => inferInstanceAs (Decidable True)
  | .setRootBlock block => inferInstanceAs (Decidable (Block.baseline block).WellTyped)

end Blockchain

variable {crypto : CryptoHelper} {bc : Blockchain}

/-! ## The chain and its blocks -/

/-- What a chain keeps while it is written: its blocks are there, those in memory lie between the
root and the newest one, and the current baseline comes from adding the others to the root. -/
structure Stored (crypto : CryptoHelper) (bc : Blockchain) : Prop where
  wellKeyed : bc.cache.WellKeyed
  root_ne_zero : bc.getRootBlockId ≠ 0
  root_le : bc.getRootBlockId ≤ bc.getNewestBlockId
  next : bc.cache.nextFreeBlockId = bc.getNewestBlockId + 1
  inRange : ∀ entry ∈ bc.cache.cachedBlocks,
    bc.getRootBlockId ≤ entry.1 ∧ entry.1 ≤ bc.getNewestBlockId
  baselineType : bc.currentBaseline.header.genericHeader.blockType = .BaselineBlock
  root : ∃ block, bc.getBlock bc.getRootBlockId = some (.baseline block) ∧
    block.header.blockUid = bc.getRootBlockId
  collections : ∀ uid, bc.getRootBlockId < uid → uid ≤ bc.getNewestBlockId →
    ∃ block, bc.getBlock uid = some (.collection block)
  baseline : ∀ root ∈ bc.rootBlock, SameBaseline (replay crypto root bc.blocksSinceRoot) bc

namespace Stored

theorem ne_zero (h : Stored crypto bc) {uid : BlockUid} (hle : bc.getRootBlockId ≤ uid) :
    uid ≠ 0 := by
  intro h0
  rw [h0] at hle
  exact h.root_ne_zero (UInt64.le_zero_iff.1 hle)

theorem of_root {cache : Cache} {block : BaselineBlock} (h0 : block.header.blockUid ≠ 0)
    (htype : block.header.genericHeader.blockType = .BaselineBlock) :
    Stored crypto
      { cache := (cache.resetCache block.header.blockUid).addBlock (.baseline block)
        currentBaseline := Hashed.withBlockHash block 0
        metaData := ⟨block.header.blockUid, block.header.blockUid⟩ } := by
  have hself := Cache.getBlock_addBlock_self (cache.resetCache block.header.blockUid)
    (.baseline block)
  refine ⟨(Cache.wellKeyed_resetCache cache _).addBlock rfl htype, h0, le_refl _, rfl, ?_, htype,
    ⟨block, hself, rfl⟩, fun uid hlt hle => absurd hlt (not_lt.2 hle), fun root hroot => ?_⟩
  · intro entry hentry
    rcases OrdMap.mem_insert.1 hentry with rfl | ⟨-, hold⟩
    · exact ⟨le_refl _, le_refl _⟩
    · exact absurd hold (OrdMap.not_mem_empty entry)
  · rw [eq_of_mem_rootBlock hroot hself, blocksSinceRoot_eq_nil rfl, replay, List.foldl_nil,
      Blockchain.setRootBlock, if_neg h0]
    exact ⟨rfl, rfl⟩

theorem setRootBlock {block : BaselineBlock} (h : Stored crypto bc)
    (htype : (Block.baseline block).WellTyped) : Stored crypto (bc.setRootBlock block) := by
  by_cases h0 : block.header.blockUid = 0
  · rw [Blockchain.setRootBlock, if_pos h0]
    exact h
  · rw [Blockchain.setRootBlock, if_neg h0]
    exact of_root h0 htype

theorem initEmptyChain (crypto : CryptoHelper) (bc : Blockchain) :
    Stored crypto (bc.initEmptyChain crypto) := by
  have h0 : (Blockchain.emptyBaseline crypto).header.blockUid ≠ 0 :=
    show (1 : BlockUid) ≠ 0 by decide
  rw [Blockchain.initEmptyChain, Blockchain.setRootBlock, if_neg h0]
  exact of_root h0 rfl

theorem addBlock (h : Stored crypto bc) {block : CollectionBlock}
    (huid : block.header.blockUid = bc.cache.nextFreeBlockId)
    (htyped : (Block.collection block).WellTyped) (hne : bc.cache.nextFreeBlockId ≠ 0) :
    Stored crypto (bc.addBlock crypto block) := by
  rw [h.next] at hne
  have hlt := Blockchain.newest_lt_next h.next hne
  have hself : (bc.addBlock crypto block).getBlock bc.cache.nextFreeBlockId =
      some (.collection block) := Cache.getBlock_addBlock_self bc.cache _
  have hold (uid : BlockUid) (hle : uid ≤ bc.getNewestBlockId) :
      (bc.addBlock crypto block).getBlock uid = bc.getBlock uid :=
    Blockchain.getBlock_addBlock_of_le h.next hne block hle
  refine ⟨h.wellKeyed.addBlock huid htyped, h.root_ne_zero, h.root_le.trans hlt.le, rfl, ?_,
    (TipOk.updateCurrentBaseline_blockType _ _ _).trans h.baselineType, ?_, ?_, ?_⟩
  · intro entry hentry
    rcases OrdMap.mem_insert.1 hentry with rfl | ⟨-, hbefore⟩
    · exact ⟨h.root_le.trans hlt.le, le_refl _⟩
    · obtain ⟨hlow, hhigh⟩ := h.inRange entry hbefore
      exact ⟨hlow, hhigh.trans hlt.le⟩
  · obtain ⟨root, hroot, hrootUid⟩ := h.root
    exact ⟨root, (hold _ h.root_le).trans hroot, hrootUid⟩
  · intro uid hlow hhigh
    change uid ≤ bc.cache.nextFreeBlockId at hhigh
    rcases lt_or_eq_of_le hhigh with hbefore | rfl
    · have hle : uid ≤ bc.getNewestBlockId := by
        rw [h.next, UInt64.lt_iff_toNat_lt, toNat_add_one hne] at hbefore
        rw [UInt64.le_iff_toNat_le]
        omega
      obtain ⟨earlier, hearlier⟩ := h.collections uid hlow hle
      exact ⟨earlier, (hold uid hle).trans hearlier⟩
    · exact ⟨block, hself⟩
  · intro root hroot
    rw [rootBlock_congr (hold _ h.root_le) rfl] at hroot
    rw [blocksSinceRoot_addBlock h.next h.root_le hne, replay_append]
    exact (h.baseline root hroot).addBlock block

theorem cacheThread (h : Stored crypto bc) :
    Stored crypto { bc with cache := bc.cache.cacheThread } := by
  have hblock (uid : BlockUid) (hle : bc.getRootBlockId ≤ uid) :
      ({ bc with cache := bc.cache.cacheThread } : Blockchain).getBlock uid = bc.getBlock uid :=
    Cache.getBlock_cacheThread h.wellKeyed (Or.inl (h.ne_zero hle))
  have hstored : Blockchain.blocksSinceRoot { bc with cache := bc.cache.cacheThread } =
      bc.blocksSinceRoot := blocksSinceRoot_congr rfl hblock
  have hnext : bc.cache.cacheThread.nextFreeBlockId = bc.cache.nextFreeBlockId :=
    Cache.nextFreeBlockId_cacheThread bc.cache
  refine ⟨h.wellKeyed.cacheThread, h.root_ne_zero, h.root_le, hnext.trans h.next, ?_,
    h.baselineType, ?_, ?_, ?_⟩
  · intro entry hentry
    apply h.inRange
    rcases Cache.cacheThread_cases h.wellKeyed with heq | ⟨k, block, -, -, heq⟩
    · rw [← heq]
      exact hentry
    · have herased : entry ∈ bc.cache.cachedBlocks.erase k := by
        rw [heq] at hentry
        exact hentry
      exact (OrdMap.mem_erase.1 herased).2
  · obtain ⟨root, hroot, hrootUid⟩ := h.root
    exact ⟨root, (hblock _ (le_refl _)).trans hroot, hrootUid⟩
  · intro uid hlow hhigh
    obtain ⟨block, hfound⟩ := h.collections uid hlow hhigh
    exact ⟨block, (hblock uid hlow.le).trans hfound⟩
  · intro root hroot
    rw [rootBlock_congr (hblock _ (le_refl _)) rfl] at hroot
    rw [hstored]
    have hbaseline := h.baseline root hroot
    exact ⟨hbaseline.currentBaseline, hbaseline.nextFreeBlockId.trans hnext.symm⟩

theorem call (h : Stored crypto bc) {call : ChainCall} (hcall : bc.Writes call) :
    Stored crypto (bc.call crypto call) := by
  cases call with
  | op op =>
    cases op with
    | addBlock block => exact h.addBlock hcall.1 hcall.2.1 hcall.2.2
    | establishBaseline => exact of_root hcall h.baselineType
    | cacheThread => exact h.cacheThread
    | query question => exact hcall.elim
  | initEmptyChain => exact initEmptyChain crypto bc
  | setRootBlock block => exact h.setRootBlock hcall

end Stored

/-! ## Reading the files -/

section Import

variable {folder : ChainFolder} {newest : BlockUid}

/-- No counter passes the largest id. -/
theorem importBlocks_maxBlockUid (fuel : Nat) (i : BlockUid) (bc : Blockchain) :
    bc.importBlocks crypto folder maxBlockUid fuel i = none := by
  induction fuel generalizing i bc with
  | zero => exact if_pos (le_maxBlockUid i)
  | succ fuel ih =>
    rw [Blockchain.importBlocks, if_pos (le_maxBlockUid i)]
    split
    · exact ih _ _
    · rfl

theorem importBlocks_eq (hnewest : newest ≠ maxBlockUid) (count : Nat) {fuel : Nat}
    (hfuel : count ≤ fuel) {i : BlockUid} (hcount : i.toNat + count = newest.toNat + 1)
    (hfiles : ∀ j < count, ∃ block,
      folder.getExternalBlockFromDisk (i + UInt64.ofNat j) = some (.collection block))
    (bc : Blockchain) :
    bc.importBlocks crypto folder newest fuel i =
      some (((List.range count).filterMap fun j =>
        (folder.getExternalBlockFromDisk (i + UInt64.ofNat j)).bind Block.asCollection).foldl
          (Blockchain.addBlock crypto) bc) := by
  induction count generalizing fuel i bc with
  | zero =>
    have hlt : ¬ i ≤ newest := by
      rw [UInt64.le_iff_toNat_le]
      omega
    cases fuel <;> exact if_neg hlt
  | succ count ih =>
    have hle : i ≤ newest := by
      rw [UInt64.le_iff_toNat_le]
      omega
    have hsucc := toNat_succ_of_le hle hnewest
    -- The rest of the loop begins one id later.
    have hshift (j : Nat) : i + UInt64.ofNat (j + 1) = i + 1 + UInt64.ofNat j := by
      rw [UInt64.ofNat_add, UInt64.add_assoc, UInt64.add_comm 1]
      rfl
    obtain ⟨block, hblock⟩ := hfiles 0 (Nat.succ_pos count)
    have hfirst : folder.getExternalBlockFromDisk i = some (.collection block) := by
      rw [← hblock]
      exact congrArg folder.getExternalBlockFromDisk (UInt64.add_zero i).symm
    cases fuel with
    | zero => omega
    | succ fuel =>
      have hrest := ih (Nat.le_of_succ_le_succ hfuel) (i := i + 1) (by omega)
        (fun j hj => hshift j ▸ hfiles (j + 1) (by omega)) (bc.addBlock crypto block)
      rw [Blockchain.importBlocks, if_pos hle, hfirst, List.range_succ_eq_map,
        List.filterMap_cons_some (b := block) (by rw [hblock]; rfl), List.foldl_cons,
        List.filterMap_map]
      simp only [hrest, Function.comp_def, hshift]

theorem sameBaseline_foldl {bc' : Blockchain} (h : SameBaseline bc bc')
    (blocks : List CollectionBlock) :
    SameBaseline (blocks.foldl (Blockchain.addBlock crypto) bc)
      (blocks.foldl (Blockchain.addBlock crypto) bc') := by
  induction blocks generalizing bc bc' with
  | nil => exact h
  | cons block rest ih => exact ih (h.addBlock block)

theorem ids_foldl (blocks : List CollectionBlock)
    (hnext : bc.cache.nextFreeBlockId = bc.getNewestBlockId + 1) :
    (blocks.foldl (Blockchain.addBlock crypto) bc).cache.nextFreeBlockId =
        (blocks.foldl (Blockchain.addBlock crypto) bc).getNewestBlockId + 1 ∧
      (blocks.foldl (Blockchain.addBlock crypto) bc).getRootBlockId = bc.getRootBlockId := by
  induction blocks generalizing bc with
  | nil => exact ⟨hnext, rfl⟩
  | cons block rest ih => exact @ih (bc.addBlock crypto block) rfl

/-- With all blocks on disk, the files are the chain. -/
theorem Stored.external_eq (hdisk : bc.OnDisk) {uid : BlockUid} (hne : uid ≠ 0) :
    bc.destroyed.getExternalBlockFromDisk uid = bc.getBlock uid := by
  rw [ChainFolder.getExternalBlockFromDisk, if_neg hne, Blockchain.getBlock, Cache.getBlock,
    Cache.getBlockFromDisk, if_neg hne]
  split
  · rename_i block hcached
    exact hdisk (uid, block) (OrdMap.find?_eq_some_iff.1 hcached)
  · rfl

theorem Stored.importBlocks_eq (h : Stored crypto bc) (hdisk : bc.OnDisk)
    (hnewest : bc.getNewestBlockId ≠ maxBlockUid) {fuel : Nat}
    (hfuel : bc.getNewestBlockId.toNat - bc.getRootBlockId.toNat ≤ fuel) (other : Blockchain) :
    other.importBlocks crypto bc.destroyed bc.getNewestBlockId fuel (bc.getRootBlockId + 1) =
      some (bc.blocksSinceRoot.foldl (Blockchain.addBlock crypto) other) := by
  have hle := UInt64.le_iff_toNat_le.1 h.root_le
  have hsucc := toNat_succ_of_le h.root_le hnewest
  have hid (j : Nat) (hj : j < bc.getNewestBlockId.toNat - bc.getRootBlockId.toNat) :
      bc.getRootBlockId < bc.getRootBlockId + 1 + UInt64.ofNat j ∧
        bc.getRootBlockId + 1 + UInt64.ofNat j ≤ bc.getNewestBlockId := by
    have hbound := bc.getNewestBlockId.toNat_lt
    rw [UInt64.lt_iff_toNat_lt, UInt64.le_iff_toNat_le, toNat_after (by omega)]
    omega
  have hexternal (j : Nat) (hj : j < bc.getNewestBlockId.toNat - bc.getRootBlockId.toNat) :
      bc.destroyed.getExternalBlockFromDisk (bc.getRootBlockId + 1 + UInt64.ofNat j) =
        bc.getBlock (bc.getRootBlockId + 1 + UInt64.ofNat j) :=
    external_eq hdisk (h.ne_zero (hid j hj).1.le)
  rw [SwabianCoin.importBlocks_eq hnewest _ hfuel (by omega)]
  · congr 2
    apply List.filterMap_congr
    intro j hj
    rw [hexternal j (List.mem_range.1 hj)]
  · intro j hj
    rw [hexternal j hj]
    exact h.collections _ (hid j hj).1 (hid j hj).2

theorem importBlockchain_eq {metaData : MetaData} (hmeta : folder.getExternalMetaData = metaData)
    (hrootId : metaData.rootBlockId ≠ 0) (hnewestId : metaData.newestBlockId ≠ 0)
    {root : BaselineBlock}
    (hroot : folder.getExternalBlockFromDisk metaData.rootBlockId = some (.baseline root))
    (hne : root.header.blockUid ≠ maxBlockUid) {fuel : Nat}
    (hfuel : root.header.blockUid.toNat ≤ fuel) (other : Blockchain) :
    other.importBlockchain crypto fuel folder =
      (other.setRootBlock root).importBlocks crypto folder metaData.newestBlockId fuel
        (metaData.rootBlockId + 1) := by
  simp only [Blockchain.importBlockchain, hmeta, hrootId, hnewestId, or_self, if_false, hroot,
    Blockchain.setRootBlockWithin_eq hne other hfuel, Option.bind_some]

/-- **What is on disk can be imported.** -/
theorem Stored.import_eq (h : Stored crypto bc) (hdisk : bc.OnDisk)
    (hnewest : bc.getNewestBlockId ≠ maxBlockUid) (other : Blockchain) :
    ∃ fuel, ∃ root ∈ bc.rootBlock, root.header.blockUid = bc.getRootBlockId ∧
      other.importBlockchain crypto fuel bc.destroyed =
        some (bc.blocksSinceRoot.foldl (Blockchain.addBlock crypto) (other.setRootBlock root)) := by
  obtain ⟨root, hroot, hrootUid⟩ := h.root
  have hrootNe : root.header.blockUid ≠ maxBlockUid := by
    intro hmax
    rw [hrootUid] at hmax
    exact hnewest (le_antisymm (le_maxBlockUid _) (hmax ▸ h.root_le))
  have hrootFile : bc.destroyed.getExternalBlockFromDisk bc.getRootBlockId =
      some (.baseline root) := (external_eq hdisk h.root_ne_zero).trans hroot
  refine ⟨root.header.blockUid.toNat + (bc.getNewestBlockId.toNat - bc.getRootBlockId.toNat), root,
    mem_rootBlock.2 hroot, hrootUid, ?_⟩
  have hmeta : bc.destroyed.getExternalMetaData = bc.metaData := rfl
  rw [importBlockchain_eq hmeta h.root_ne_zero (h.ne_zero h.root_le) hrootFile hrootNe
    (Nat.le_add_right _ _)]
  exact h.importBlocks_eq hdisk hnewest (Nat.le_add_left _ _) _

/-- A chain that has used the largest id cannot be imported. -/
theorem Stored.import_maxBlockUid (h : Stored crypto bc)
    (hnewest : bc.getNewestBlockId = maxBlockUid) (fuel : Nat) (other : Blockchain) :
    other.importBlockchain crypto fuel bc.destroyed = none := by
  have hids : ¬ (bc.destroyed.getExternalMetaData.rootBlockId = 0 ∨
      bc.destroyed.getExternalMetaData.newestBlockId = 0) := by
    rintro (h0 | h0)
    · exact h.root_ne_zero h0
    · exact h.ne_zero h.root_le h0
  have hmax : bc.destroyed.getExternalMetaData.newestBlockId = maxBlockUid := hnewest
  rw [Blockchain.importBlockchain, if_neg hids, hmax]
  split
  · cases other.setRootBlockWithin fuel _ with
    | none => rfl
    | some installed => exact importBlocks_maxBlockUid fuel _ installed
  · rfl

end Import

/-! ## When a chain can be imported -/

/-- What can be imported has been written. -/
theorem Stored.onDisk_of_importable (h : Stored crypto bc) {other : Blockchain}
    (himport : bc.Importable crypto other) :
    bc.getNewestBlockId ≠ maxBlockUid ∧ bc.OnDisk := by
  constructor
  · intro hnewest
    obtain ⟨fuel, result, hresult, -⟩ := himport.imported
    rw [h.import_maxBlockUid hnewest] at hresult
    cases hresult
  · intro entry hentry
    obtain ⟨hlow, hhigh⟩ := h.inRange entry hentry
    obtain ⟨block, hblock, hfile⟩ := himport.found entry.1 hlow hhigh
    have hcached : bc.getBlock entry.1 = some entry.2 :=
      Cache.getBlock_eq_some_of_cached (OrdMap.find?_eq_some_iff.2 hentry)
    rw [hcached] at hblock
    rw [ChainFolder.getExternalBlockFromDisk, if_neg (h.ne_zero hlow), ← hblock] at hfile
    exact hfile

theorem Stored.importable_of_onDisk (h : Stored crypto bc)
    (hnewest : bc.getNewestBlockId ≠ maxBlockUid) (hdisk : bc.OnDisk) (other : Blockchain) :
    bc.Importable crypto other where
  found uid hlow hhigh := by
    rw [external_eq hdisk (h.ne_zero hlow)]
    rcases lt_or_eq_of_le hlow with hlater | rfl
    · obtain ⟨block, hblock⟩ := h.collections uid hlater hhigh
      exact ⟨_, hblock, hblock⟩
    · obtain ⟨root, hroot, -⟩ := h.root
      exact ⟨_, hroot, hroot⟩
  imported := by
    obtain ⟨fuel, root, hroot, hrootUid, hresult⟩ := h.import_eq hdisk hnewest other
    have h0 : root.header.blockUid ≠ 0 := by
      rw [hrootUid]
      exact h.root_ne_zero
    have hstart : SameBaseline (other.setRootBlock root) (({} : Blockchain).setRootBlock root) :=
      SameBaseline.setRootBlock h0 _ _
    have hset : (other.setRootBlock root).cache.nextFreeBlockId =
          (other.setRootBlock root).getNewestBlockId + 1 ∧
        (other.setRootBlock root).getRootBlockId = root.header.blockUid := by
      rw [Blockchain.setRootBlock, if_neg h0]
      exact ⟨rfl, rfl⟩
    -- the blocks that are read are added to the same root as those of the chain
    have hbaseline := h.baseline root hroot
    have hsame := @sameBaseline_foldl crypto _ _ hstart bc.blocksSinceRoot
    have hids := @ids_foldl crypto _ bc.blocksSinceRoot hset.1
    refine ⟨fuel, _, hresult, hids.2.trans (hset.2.trans hrootUid), ?_,
      hsame.currentBaseline.trans hbaseline.currentBaseline⟩
    have hnext := hids.1.symm.trans
      (hsame.nextFreeBlockId.trans (hbaseline.nextFreeBlockId.trans h.next))
    exact add_right_cancel hnext

/-- **A chain keeps its blocks** along a run that writes. -/
theorem stored_exec {folder : OrdMap BlockUid Block} {calls : List ChainCall}
    (hwrites : Run.AllSteps (Blockchain.call crypto) Blockchain.Writes
      (Blockchain.construct crypto folder) calls) :
    Stored crypto
      (Run.exec (Blockchain.call crypto) (Blockchain.construct crypto folder) calls) := by
  have hstates : Run.AllStates (Blockchain.call crypto) (Stored crypto)
      (Blockchain.construct crypto folder) calls :=
    Run.AllStates.of_steps (fun _ _ h hcall => h.call hcall) (Stored.initEmptyChain crypto _)
      hwrites
  exact hstates.last

/-- **When a chain can be imported.** After any run that writes blocks, what the destructor leaves
leads back to the chain exactly if the largest id is not used and every block that was still in
memory is on disk as well. -/
theorem importable_iff (crypto : CryptoHelper) (folder : OrdMap BlockUid Block)
    (calls : List ChainCall) (other : Blockchain)
    (hwrites : Run.AllSteps (Blockchain.call crypto) Blockchain.Writes
      (Blockchain.construct crypto folder) calls) :
    (Run.exec (Blockchain.call crypto) (Blockchain.construct crypto folder) calls).Importable
        crypto other ↔
      (Run.exec (Blockchain.call crypto) (Blockchain.construct crypto folder) calls
        ).getNewestBlockId ≠ maxBlockUid ∧
      (Run.exec (Blockchain.call crypto) (Blockchain.construct crypto folder) calls).OnDisk := by
  have hstored := stored_exec hwrites
  constructor
  · exact fun himport => hstored.onDisk_of_importable himport
  · exact fun hcondition => hstored.importable_of_onDisk hcondition.1 hcondition.2 other

namespace Sample

/-- The files of a chain of empty blocks, but for its root. -/
def leftFiles : OrdMap BlockUid Block :=
  OrdMap.ofValues (fun block => block.header.blockUid) ((emptyBlocks 11 root).map Block.collection)

end Sample

/-- The files of the same chain are still there: it can be imported. -/
theorem repeated_chain_importable :
    Run.AllSteps (Blockchain.call .sample) Blockchain.Writes
        (Blockchain.construct .sample Sample.leftFiles) Sample.longChain ∧
      (Run.exec (Blockchain.call .sample) (Blockchain.construct .sample Sample.leftFiles)
        Sample.longChain).Importable .sample {} := by
  have hwrites : Run.AllSteps (Blockchain.call .sample) Blockchain.Writes
      (Blockchain.construct .sample Sample.leftFiles) Sample.longChain := by decide +kernel
  exact ⟨hwrites, (importable_iff .sample Sample.leftFiles Sample.longChain {} hwrites).2
    (by decide +kernel)⟩

/-- In an empty folder, the blocks from the third on are lost with the chain. -/
theorem memory_lost :
    Run.AllSteps (Blockchain.call .sample) Blockchain.Writes (Blockchain.construct .sample ∅)
        Sample.longChain ∧
      ∀ other, ¬ (Run.exec (Blockchain.call .sample) (Blockchain.construct .sample ∅)
        Sample.longChain).Importable .sample other := by
  have hwrites : Run.AllSteps (Blockchain.call .sample) Blockchain.Writes
      (Blockchain.construct .sample ∅) Sample.longChain := by decide +kernel
  refine ⟨hwrites, fun other himport => ?_⟩
  exact absurd ((stored_exec hwrites).onDisk_of_importable himport).2 (by decide +kernel)

end SwabianCoin
