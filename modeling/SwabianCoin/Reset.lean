import SwabianCoin.ChainRun
import SwabianCoin.Assembly

/-!
# A new root

`resetCache` clears the memory and removes the files up to the id of the new root. Its loop counts
in the type of the ids and compares with `≤`, so it ends for every root but the largest id
(`removeFiles_eq`), and then it has removed what the filter in `Cache.resetCache` removes.

Files above the new root stay. They belong to an older, longer chain, and `getBlock` goes on
serving them. What is left of the reset as an abstraction, a chain from the root to the newest
block and nothing else (`Blockchain.Forgets`), holds throughout a run exactly if every reset meets
a folder without such files and the ids do not run out (`Blockchain.LeavesNothing`).
-/

namespace SwabianCoin

open Machine

/-! ## The loop over the file names -/

/-- `for (i = …; i <= root_block_uid; i++) remove(i)`, in at most `fuel` rounds. -/
def removeFiles (rootBlockUid : BlockUid) :
    Nat → BlockUid → OrdMap BlockUid Block → Option (OrdMap BlockUid Block)
  | 0, i, disk => if i ≤ rootBlockUid then none else some disk
  | fuel + 1, i, disk =>
    if i ≤ rootBlockUid then removeFiles rootBlockUid fuel (i + 1) (disk.erase i) else some disk

/-- `resetCache` with the loop as it is written, in at most `fuel` rounds. -/
def Cache.resetCacheWithin (fuel : Nat) (cache : Cache) (rootBlockUid : BlockUid) : Option Cache :=
  (removeFiles rootBlockUid fuel 1 cache.disk).map fun disk =>
    { cachedBlocks := ∅, disk, nextFreeBlockId := rootBlockUid }

/-- `setRootBlock` with the loop as it is written, in at most `fuel` rounds. -/
def Blockchain.setRootBlockWithin (fuel : Nat) (bc : Blockchain) (block : BaselineBlock) :
    Option Blockchain :=
  if block.header.blockUid = 0 then some bc
  else
    (bc.cache.resetCacheWithin fuel block.header.blockUid).map fun cache =>
      { ({ bc with cache } : Blockchain).addBaselineBlock block with
        metaData := ⟨block.header.blockUid, block.header.blockUid⟩ }

/-- The largest id. -/
def maxBlockUid : BlockUid := 18446744073709551615

theorem le_maxBlockUid (uid : BlockUid) : uid ≤ maxBlockUid := by
  have hlt := uid.toNat_lt
  have hmax : maxBlockUid.toNat = 2 ^ 64 - 1 := rfl
  rw [UInt64.le_iff_toNat_le]
  omega

theorem removeFiles_maxBlockUid (fuel : Nat) (i : BlockUid) (disk : OrdMap BlockUid Block) :
    removeFiles maxBlockUid fuel i disk = none := by
  induction fuel generalizing i disk with
  | zero => rw [removeFiles, if_pos (le_maxBlockUid i)]
  | succ fuel ih => rw [removeFiles, if_pos (le_maxBlockUid i), ih]

theorem toNat_succ_of_le {i root : BlockUid} (hi : i ≤ root) (hroot : root ≠ maxBlockUid) :
    (i + 1).toNat = i.toNat + 1 := by
  have hlt := root.toNat_lt
  have hmax : maxBlockUid.toNat = 2 ^ 64 - 1 := rfl
  rw [UInt64.le_iff_toNat_le] at hi
  rw [ne_eq, ← UInt64.toNat_inj] at hroot
  rw [UInt64.toNat_add, UInt64.toNat_one, Nat.mod_eq_of_lt (by omega)]

theorem filter_of_lt {i root : BlockUid} (h : ¬ i ≤ root) (disk : OrdMap BlockUid Block) :
    (disk.filter fun file => !(decide (i ≤ file.1) && decide (file.1 ≤ root))) = disk := by
  apply OrdMap.ext_mem
  intro file
  have hout : file.1 < i ∨ root < file.1 := by
    by_cases hle : i ≤ file.1
    · exact Or.inr ((not_le.1 h).trans_le hle)
    · exact Or.inl (not_le.1 hle)
  simp [OrdMap.mem_filter, hout]

theorem filter_erase {i root : BlockUid} (hi : i ≤ root) (hroot : root ≠ maxBlockUid)
    (disk : OrdMap BlockUid Block) :
    ((disk.erase i).filter fun file => !(decide (i + 1 ≤ file.1) && decide (file.1 ≤ root))) =
      disk.filter fun file => !(decide (i ≤ file.1) && decide (file.1 ≤ root)) := by
  apply OrdMap.ext_mem
  intro file
  have hsucc := toNat_succ_of_le hi hroot
  have hnext : i + 1 ≤ file.1 ↔ i ≤ file.1 ∧ file.1 ≠ i := by
    rw [UInt64.le_iff_toNat_le, UInt64.le_iff_toNat_le, ne_eq, ← UInt64.toNat_inj, hsucc]
    omega
  simp only [OrdMap.mem_filter, OrdMap.mem_erase, Bool.not_eq_true', Bool.and_eq_false_iff,
    decide_eq_false_iff_not, hnext]
  by_cases heq : file.1 = i
  · simp [heq, hi]
  · simp [heq]

/-- The loop is done after as many rounds as there are ids from the counter to the root, and has
removed the files with these ids. -/
theorem removeFiles_eq {root : BlockUid} (hroot : root ≠ maxBlockUid) (fuel : Nat) (i : BlockUid)
    (disk : OrdMap BlockUid Block) :
    removeFiles root fuel i disk =
      if root.toNat + 1 ≤ i.toNat + fuel then
        some (disk.filter fun file => !(decide (i ≤ file.1) && decide (file.1 ≤ root)))
      else none := by
  induction fuel generalizing i disk with
  | zero =>
    rw [removeFiles]
    by_cases hi : i ≤ root
    · have hnat := UInt64.le_iff_toNat_le.1 hi
      rw [if_pos hi, if_neg (by omega)]
    · have hnat := UInt64.le_iff_toNat_le.not.1 hi
      rw [if_neg hi, if_pos (by omega), filter_of_lt hi]
  | succ fuel ih =>
    rw [removeFiles]
    by_cases hi : i ≤ root
    · rw [if_pos hi, ih, filter_erase hi hroot, toNat_succ_of_le hi hroot, add_right_comm,
        add_assoc]
    · have hnat := UInt64.le_iff_toNat_le.not.1 hi
      rw [if_neg hi, if_pos (by omega), filter_of_lt hi]

/-- When the loop ends, `resetCache` has done what `Cache.resetCache` says. -/
theorem Cache.resetCacheWithin_eq {root : BlockUid} (hroot : root ≠ maxBlockUid) (cache : Cache)
    (fuel : Nat) :
    cache.resetCacheWithin fuel root =
      if root.toNat ≤ fuel then some (cache.resetCache root) else none := by
  have hone : (1 : BlockUid).toNat = 1 := rfl
  rw [resetCacheWithin, removeFiles_eq hroot, hone]
  by_cases hfuel : root.toNat ≤ fuel
  · rw [if_pos hfuel, if_pos (by omega)]
    rfl
  · rw [if_neg hfuel, if_neg (by omega)]
    rfl

theorem Cache.resetCacheWithin_maxBlockUid (cache : Cache) (fuel : Nat) :
    cache.resetCacheWithin fuel maxBlockUid = none := by
  rw [resetCacheWithin, removeFiles_maxBlockUid]
  rfl

/-- When `setRootBlock` returns, it has done what `Blockchain.setRootBlock` says. -/
theorem Blockchain.setRootBlockWithin_eq {block : BaselineBlock}
    (huid : block.header.blockUid ≠ maxBlockUid) (bc : Blockchain) {fuel : Nat}
    (hfuel : block.header.blockUid.toNat ≤ fuel) :
    bc.setRootBlockWithin fuel block = some (bc.setRootBlock block) := by
  unfold setRootBlockWithin setRootBlock
  by_cases h0 : block.header.blockUid = 0
  · rw [if_pos h0, if_pos h0]
  · rw [if_neg h0, if_neg h0, Cache.resetCacheWithin_eq huid, if_pos hfuel]
    rfl

theorem Blockchain.setRootBlockWithin_maxBlockUid {block : BaselineBlock}
    (huid : block.header.blockUid = maxBlockUid) (bc : Blockchain) (fuel : Nat) :
    bc.setRootBlockWithin fuel block = none := by
  have h0 : block.header.blockUid ≠ 0 := by
    rw [huid]
    decide
  rw [setRootBlockWithin, if_neg h0, huid, Cache.resetCacheWithin_maxBlockUid]
  rfl

/-- The loop in `setRootBlock` comes to its end. -/
def Blockchain.InstallsRoot (bc : Blockchain) (block : BaselineBlock) : Prop :=
  ∃ fuel, (bc.setRootBlockWithin fuel block).isSome = true

/-- **When a root is installed**: unless it has the largest id. -/
theorem installsRoot_iff (bc : Blockchain) (block : BaselineBlock) :
    bc.InstallsRoot block ↔ block.header.blockUid ≠ maxBlockUid := by
  constructor
  · intro h huid
    obtain ⟨fuel, hfuel⟩ := h
    rw [Blockchain.setRootBlockWithin_maxBlockUid huid] at hfuel
    cases hfuel
  · intro huid
    refine ⟨block.header.blockUid.toNat, ?_⟩
    rw [Blockchain.setRootBlockWithin_eq huid bc le_rfl]
    rfl

namespace Sample

/-- An empty baseline under an id. -/
def emptyRoot (uid : BlockUid) : BaselineBlock :=
  CryptoHelper.sample.fillHash
    { Blockchain.emptyBaseline .sample with
      header := { genericHeader := { blockType := .BaselineBlock }, blockUid := uid } }

end Sample

/-- A baseline with the largest id is accepted and never installed. -/
theorem root_with_largest_id_hangs :
    ¬ ∀ (crypto : CryptoHelper) (bc : Blockchain) (block : BaselineBlock),
      validateBlockWithoutContext crypto block = true → bc.InstallsRoot block := by
  intro h
  have hacc : validateBlockWithoutContext .sample (Sample.emptyRoot maxBlockUid) = true := by
    decide +kernel
  obtain ⟨fuel, hfuel⟩ := h .sample {} (Sample.emptyRoot maxBlockUid) hacc
  rw [Blockchain.setRootBlockWithin_maxBlockUid rfl] at hfuel
  cases hfuel

/-! ## Calls on a blockchain -/

/-- The calls of a running node: those of `ChainOp`, and the ones that start a new chain. -/
inductive ChainCall where
  | op (op : ChainOp)
  | initEmptyChain
  | setRootBlock (block : BaselineBlock)

namespace Blockchain

/-- The constructor, on a folder that may hold files. -/
def construct (crypto : CryptoHelper) (folder : OrdMap BlockUid Block) : Blockchain :=
  initEmptyChain crypto { cache := { disk := folder } }

def call (crypto : CryptoHelper) (bc : Blockchain) : ChainCall → Blockchain
  | .op op => bc.step crypto op
  | .initEmptyChain => bc.initEmptyChain crypto
  | .setRootBlock block => bc.setRootBlock block

/-- What is asserted about the block in `Cache::addBlock` and `cacheThread`: it has the next free
id and the type of its class. -/
def Asserted (bc : Blockchain) : ChainCall → Prop
  | .op (.addBlock block) =>
    block.header.blockUid = bc.cache.nextFreeBlockId ∧ (Block.collection block).WellTyped
  | .setRootBlock block => (Block.baseline block).WellTyped
  | _ => True

instance (bc : Blockchain) : ∀ call, Decidable (bc.Asserted call)
  | .op (.addBlock _) => inferInstanceAs (Decidable (_ ∧ _))
  | .op .establishBaseline => inferInstanceAs (Decidable True)
  | .op .cacheThread => inferInstanceAs (Decidable True)
  | .op (.query _) => inferInstanceAs (Decidable True)
  | .initEmptyChain => inferInstanceAs (Decidable True)
  | .setRootBlock block => inferInstanceAs (Decidable (Block.baseline block).WellTyped)

/-- A reset forgets the old chain: there is no block outside the range of the chain. -/
def Forgets (bc : Blockchain) : Prop :=
  ∀ uid, uid < bc.getRootBlockId ∨ bc.getNewestBlockId < uid → bc.getBlock uid = none

/-- No file has an id above `uid`. -/
def NoFileAbove (bc : Blockchain) (uid : BlockUid) : Prop :=
  ∀ file ∈ bc.cache.disk, file.1 ≤ uid

/-- A reset meets no file above the new root, and a block does not get the invalid id. -/
def LeavesNothing (bc : Blockchain) : ChainCall → Prop
  | .op (.addBlock _) => bc.cache.nextFreeBlockId ≠ 0
  | .op .establishBaseline => bc.NoFileAbove bc.currentBaseline.header.blockUid
  | .op _ => True
  | .initEmptyChain => bc.NoFileAbove 1
  | .setRootBlock block => block.header.blockUid ≠ 0 → bc.NoFileAbove block.header.blockUid

instance (bc : Blockchain) (uid : BlockUid) : Decidable (bc.NoFileAbove uid) :=
  inferInstanceAs (Decidable (∀ file ∈ bc.cache.disk.entries, file.1 ≤ uid))

instance (bc : Blockchain) : ∀ call, Decidable (bc.LeavesNothing call)
  | .op (.addBlock _) => inferInstanceAs (Decidable (_ ≠ _))
  | .op .establishBaseline => inferInstanceAs (Decidable (bc.NoFileAbove _))
  | .op .cacheThread => inferInstanceAs (Decidable True)
  | .op (.query _) => inferInstanceAs (Decidable True)
  | .initEmptyChain => inferInstanceAs (Decidable (bc.NoFileAbove 1))
  | .setRootBlock _ => inferInstanceAs (Decidable (_ → bc.NoFileAbove _))

end Blockchain

/-! ## Resets -/

variable {crypto : CryptoHelper} {bc : Blockchain}

theorem getBlock_reset {cache : Cache} {block : Block} {root uid : BlockUid} (hne : uid ≠ root) :
    ((cache.resetCache root).addBlock block).getBlock uid =
      if root < uid then cache.disk.find? uid else none := by
  have hnext : (cache.resetCache root).nextFreeBlockId = root := rfl
  rw [Cache.getBlock_addBlock_of_ne (by rw [hnext]; exact hne), Cache.getBlock]
  have hmemory : (cache.resetCache root).cachedBlocks.find? uid = none := rfl
  rw [hmemory]
  refine Option.ext fun found => ?_
  have hone : uid ≠ 0 ↔ 1 ≤ uid := by
    rw [UInt64.le_iff_toNat_le, ne_eq, ← UInt64.toNat_inj]
    exact Nat.pos_iff_ne_zero.symm
  by_cases h0 : uid = 0
  · -- The invalid id is not looked up on disk.
    subst h0
    simp [Cache.getBlockFromDisk, UInt64.not_lt_zero]
  · by_cases habove : root < uid
    · simp [Cache.getBlockFromDisk, Cache.resetCache, OrdMap.find?_eq_some_iff, h0, habove]
    · simp [Cache.getBlockFromDisk, Cache.resetCache, OrdMap.find?_eq_some_iff, h0, habove,
        hone.1 h0]

/-- After a reset the old chain is forgotten exactly if no file is above the root. -/
theorem forgets_reset_iff {block baseline : BaselineBlock} {root : BlockUid} :
    Blockchain.Forgets
        { cache := (bc.cache.resetCache root).addBlock (.baseline block)
          currentBaseline := baseline
          metaData := ⟨root, root⟩ } ↔
      bc.NoFileAbove root := by
  constructor
  · intro h file hfile
    by_contra habove
    have hlt := not_le.1 habove
    have hnone := h file.1 (Or.inr hlt)
    change ((bc.cache.resetCache root).addBlock (.baseline block)).getBlock file.1 = none at hnone
    rw [getBlock_reset hlt.ne', if_pos hlt, OrdMap.find?_eq_some_iff.2 hfile] at hnone
    cases hnone
  · intro h uid hout
    have hne : uid ≠ root := hout.elim (fun hlt => hlt.ne) fun hlt => hlt.ne'
    change ((bc.cache.resetCache root).addBlock (.baseline block)).getBlock uid = none
    rw [getBlock_reset hne]
    split_ifs with habove
    · cases hfind : bc.cache.disk.find? uid with
      | none => rfl
      | some stale => exact absurd habove (not_lt.2 (h _ (OrdMap.find?_eq_some_iff.1 hfind)))
    · rfl

theorem forgets_setRootBlock_iff {block : BaselineBlock} (h0 : block.header.blockUid ≠ 0) :
    (bc.setRootBlock block).Forgets ↔ bc.NoFileAbove block.header.blockUid := by
  rw [Blockchain.setRootBlock, if_neg h0]
  exact forgets_reset_iff

theorem forgets_initEmptyChain_iff : (bc.initEmptyChain crypto).Forgets ↔ bc.NoFileAbove 1 :=
  forgets_setRootBlock_iff (show (1 : BlockUid) ≠ 0 by decide)

/-! ## Blocks -/

/-- The newest block is there, so the range is not empty. -/
theorem Blockchain.Forgets.root_le_newest (h : bc.Forgets) (htip : TipOk bc) :
    bc.getRootBlockId ≤ bc.getNewestBlockId := by
  obtain ⟨newest, hnewest, -⟩ := htip.newest
  by_contra hlt
  have hnone : bc.getNewestBlock = none := h _ (Or.inl (not_le.1 hlt))
  rw [hnewest] at hnone
  cases hnone

/-- A block is added behind the newest one, unless the ids have run out. -/
theorem forgets_addBlock_iff (htip : TipOk bc) (h : bc.Forgets) (block : CollectionBlock) :
    (bc.addBlock crypto block).Forgets ↔ bc.cache.nextFreeBlockId ≠ 0 := by
  constructor
  · intro hafter hzero
    have hlast : bc.getNewestBlockId ≠ 0 := by
      intro hnewest
      rw [htip.next, hnewest] at hzero
      cases hzero
    -- The block gets the id `0`, and the one before it is left behind.
    obtain ⟨newest, hnewest, -⟩ := htip.newest
    have habove : (bc.addBlock crypto block).getNewestBlockId < bc.getNewestBlockId := by
      show bc.cache.nextFreeBlockId < _
      rw [hzero]
      exact UInt64.pos_iff_ne_zero.2 hlast
    have hnone := hafter bc.getNewestBlockId (Or.inr habove)
    change (bc.cache.addBlock _).getBlock _ = none at hnone
    rw [Cache.getBlock_addBlock_of_ne (hzero ▸ hlast)] at hnone
    change bc.getNewestBlock = none at hnone
    rw [hnewest] at hnone
    cases hnone
  · intro hne uid hout
    change uid < bc.getRootBlockId ∨ bc.cache.nextFreeBlockId < uid at hout
    have hroot := h.root_le_newest htip
    have hlt : bc.getNewestBlockId < bc.cache.nextFreeBlockId := by
      rw [htip.next] at hne ⊢
      rw [UInt64.lt_iff_toNat_lt, toNat_add_one hne]
      exact Nat.lt_succ_self _
    have hother : uid ≠ bc.cache.nextFreeBlockId :=
      hout.elim (fun hbelow => (hbelow.trans_le (hroot.trans hlt.le)).ne) fun habove => habove.ne'
    exact (Cache.getBlock_addBlock_of_ne hother).trans (h uid (hout.imp_right hlt.trans))

theorem Blockchain.Forgets.cacheThread (h : bc.Forgets) (htip : TipOk bc) :
    ({ bc with cache := bc.cache.cacheThread } : Blockchain).Forgets := by
  intro uid hout
  have hnone : bc.cache.getBlock uid = none := h uid hout
  show bc.cache.cacheThread.getBlock uid = none
  rcases Cache.cacheThread_cases htip.wellKeyed with heq | ⟨k, block, hmem, -, heq⟩ <;> rw [heq]
  · exact hnone
  · have hne : uid ≠ k := by
      intro huid
      rw [huid, Cache.getBlock_eq_some_of_cached (OrdMap.find?_eq_some_iff.2 hmem)] at hnone
      cases hnone
    simpa [Cache.getBlock, Cache.getBlockFromDisk, OrdMap.find?_erase, OrdMap.find?_insert, hne]
      using hnone

theorem forgets_afterQuery (question : ChainQuery) (h : bc.Forgets) :
    (bc.afterQuery crypto question).Forgets := by
  have hsame := Blockchain.afterQuery_sameBalances crypto bc question
  intro uid hout
  rw [Blockchain.getRootBlockId, Blockchain.getNewestBlockId, hsame.metaData] at hout
  rw [Blockchain.getBlock, hsame.cache]
  exact h uid hout

/-! ## Runs -/

theorem forgets_call_iff {call : ChainCall} (htip : TipOk bc) (h : bc.Forgets) :
    (bc.call crypto call).Forgets ↔ bc.LeavesNothing call := by
  cases call with
  | op op =>
    cases op with
    | addBlock block => exact forgets_addBlock_iff htip h block
    | establishBaseline => exact forgets_reset_iff
    | cacheThread => exact iff_of_true (h.cacheThread htip) trivial
    | query question => exact iff_of_true (forgets_afterQuery question h) trivial
  | initEmptyChain => exact forgets_initEmptyChain_iff
  | setRootBlock block =>
    by_cases h0 : block.header.blockUid = 0
    · have hskip : bc.setRootBlock block = bc := if_pos h0
      refine iff_of_true ?_ fun hne => absurd h0 hne
      rw [Blockchain.call, hskip]
      exact h
    · exact (forgets_setRootBlock_iff h0).trans ⟨fun hno _ => hno, fun hno => hno h0⟩

theorem TipOk.call {call : ChainCall} (h : TipOk bc) (hasserted : bc.Asserted call)
    (hleaves : bc.LeavesNothing call) : TipOk (bc.call crypto call) := by
  cases call with
  | op op =>
    cases op with
    | addBlock block => exact h.addBlock_of_uid hasserted.1 hasserted.2 hleaves
    | establishBaseline => exact h.establishBaseline
    | cacheThread => exact h.cacheThread
    | query question =>
      exact h.sameBalances (Blockchain.afterQuery_sameBalances crypto bc question)
  | initEmptyChain => exact TipOk.initEmptyChain crypto bc
  | setRootBlock block =>
    by_cases h0 : block.header.blockUid = 0
    · have hskip : bc.setRootBlock block = bc := if_pos h0
      rw [Blockchain.call, hskip]
      exact h
    · exact TipOk.setRootBlock h0 hasserted

/-- **When resets forget.** From the constructor on any folder, the ids outside the chain are
empty in every state exactly if no reset, the first one included, meets a file above the new root,
and the ids do not run out. -/
theorem forgets_iff_leavesNothing (crypto : CryptoHelper) (folder : OrdMap BlockUid Block)
    (calls : List ChainCall)
    (hasserted : Run.AllSteps (Blockchain.call crypto) Blockchain.Asserted
      (Blockchain.construct crypto folder) calls) :
    Run.AllStates (Blockchain.call crypto) Blockchain.Forgets
        (Blockchain.construct crypto folder) calls ↔
      (∀ file ∈ folder, file.1 ≤ 1) ∧
        Run.AllSteps (Blockchain.call crypto) Blockchain.LeavesNothing
          (Blockchain.construct crypto folder) calls := by
  have hstart : (Blockchain.construct crypto folder).Forgets ↔ ∀ file ∈ folder, file.1 ≤ 1 :=
    forgets_initEmptyChain_iff
  have htip : TipOk (Blockchain.construct crypto folder) := TipOk.initEmptyChain crypto _
  have hstep (bc : Blockchain) (call : ChainCall) (htip : TipOk bc) (h : bc.Forgets)
      (hcall : bc.Asserted call) :
      ((bc.call crypto call).Forgets ↔ bc.LeavesNothing call) ∧
        ((bc.call crypto call).Forgets → TipOk (bc.call crypto call)) :=
    ⟨forgets_call_iff htip h, fun hafter => htip.call hcall ((forgets_call_iff htip h).1 hafter)⟩
  constructor
  · intro h
    have hfirst := h.first
    exact ⟨hstart.1 hfirst,
      (Run.AllStates.iff_allSteps_with hstep htip hfirst hasserted).1 h⟩
  · intro h
    obtain ⟨hfolder, hsteps⟩ := h
    exact (Run.AllStates.iff_allSteps_with hstep htip (hstart.2 hfolder) hasserted).2 hsteps

namespace Sample

/-- A chain of empty blocks on top of `newest`. -/
def emptyBlocks : Nat → Block → List CollectionBlock
  | 0, _ => []
  | count + 1, newest =>
    Sample.block newest [] [] :: emptyBlocks count (.collection (Sample.block newest [] []))

/-- Eleven blocks are added to an empty chain, and two blocks are moved to disk. -/
def longChain : List ChainCall :=
  (emptyBlocks 11 root).map (fun block => .op (.addBlock block)) ++
    [.op .cacheThread, .op .cacheThread]

end Sample

/-- A chain is kept in memory and on disk, with nothing outside its range. -/
theorem longChain_forgets :
    Run.AllStates (Blockchain.call .sample) Blockchain.Forgets
      (Blockchain.construct .sample ∅) Sample.longChain :=
  (forgets_iff_leavesNothing .sample ∅ Sample.longChain (by decide +kernel)).2 (by decide +kernel)

/-- A long chain is given up for an empty one, as every synchronisation begins. The block `2` of
the long one is still served. -/
theorem abandoned_block_served :
    ¬ ∀ (crypto : CryptoHelper) (folder : OrdMap BlockUid Block) (calls : List ChainCall),
      Run.AllSteps (Blockchain.call crypto) Blockchain.Asserted
        (Blockchain.construct crypto folder) calls →
      Run.AllStates (Blockchain.call crypto) Blockchain.Forgets
        (Blockchain.construct crypto folder) calls := by
  intro h
  have hrun := h .sample ∅ (Sample.longChain ++ [.initEmptyChain]) (by decide +kernel)
  have hnone := hrun.last 2 (by decide +kernel)
  have hserved : ((Run.exec (Blockchain.call .sample) (Blockchain.construct .sample ∅)
      (Sample.longChain ++ [.initEmptyChain])).getBlock 2).isSome = true := by decide +kernel
  rw [hnone] at hserved
  cases hserved

end SwabianCoin
