import SwabianCoin.BlockDefinitions

/-!
# The block cache

`Cache` keeps the blocks of the chain by id: the newest ones in memory, older ones in files that
`cacheThread` writes in the background. The folder is a map from the id in the file name to the
block in the file.
-/

namespace SwabianCoin

/-- The blocks in memory, the files of the others, and the next id. -/
structure Cache where
  cachedBlocks : OrdMap BlockUid Block := ∅
  /-- The files `<id>.blk` of the folder. -/
  disk : OrdMap BlockUid Block := ∅
  nextFreeBlockId : BlockUid := 1

namespace Cache

/-- `target_cache_size`: so many blocks stay in memory. -/
def targetCacheSize : Nat := 10

def getBlockFromDisk (cache : Cache) (uid : BlockUid) : Option Block :=
  if uid = 0 then none else cache.disk.find? uid

/-- The block under `uid`; `none` is the source's `nullptr`. -/
def getBlock (cache : Cache) (uid : BlockUid) : Option Block :=
  match cache.cachedBlocks.find? uid with
  | some block => some block
  | none => cache.getBlockFromDisk uid

/-- Add a block under the next free id. The id in its header is only asserted. -/
def addBlock (cache : Cache) (block : Block) : Cache :=
  { cache with
    cachedBlocks := cache.cachedBlocks.insert cache.nextFreeBlockId block
    nextFreeBlockId := cache.nextFreeBlockId + 1 }

/-- The file is named after the id in the block's header. -/
def writeBlockToDisk (cache : Cache) (block : Block) : Cache :=
  { cache with disk := cache.disk.insert block.header.blockUid block }

/-- Forget everything in memory and every file up to the new root. The loop over the file names
is one filter here; it does not end for the largest id. -/
def resetCache (cache : Cache) (rootBlockUid : BlockUid) : Cache where
  cachedBlocks := ∅
  disk := cache.disk.filter fun file => !(decide (1 ≤ file.1) && decide (file.1 ≤ rootBlockUid))
  nextFreeBlockId := rootBlockUid

/-- One round of `cacheThread`: move the block with the smallest id to disk if there are too
many in memory. A block whose header names no block type is dropped without being written. -/
def cacheThread (cache : Cache) : Cache :=
  if cache.cachedBlocks.size > targetCacheSize then
    match cache.cachedBlocks.entries with
    | [] => cache
    | (_, block) :: _ =>
      let written := match block.header.genericHeader.blockType with
        | .BaselineBlock | .CollectionBlock => cache.writeBlockToDisk block
        | _ => cache
      { written with cachedBlocks := written.cachedBlocks.erase block.header.blockUid }
  else cache

theorem getBlock_eq_some_of_cached {cache : Cache} {uid : BlockUid} {block : Block}
    (h : cache.cachedBlocks.find? uid = some block) : cache.getBlock uid = some block := by
  simp [getBlock, h]

@[simp] theorem getBlock_addBlock_self (cache : Cache) (block : Block) :
    (cache.addBlock block).getBlock cache.nextFreeBlockId = some block :=
  getBlock_eq_some_of_cached (by simp [addBlock, OrdMap.find?_insert])

theorem getBlock_addBlock_of_ne {cache : Cache} {block : Block} {uid : BlockUid}
    (h : uid ≠ cache.nextFreeBlockId) :
    (cache.addBlock block).getBlock uid = cache.getBlock uid := by
  simp [getBlock, getBlockFromDisk, addBlock, OrdMap.find?_insert, h]

/-! ## Moving blocks to disk -/

/-- Every block in memory is stored under the id in its header and has the type of its class. -/
structure WellKeyed (cache : Cache) : Prop where
  uid : ∀ entry ∈ cache.cachedBlocks, entry.2.header.blockUid = entry.1
  typed : ∀ entry ∈ cache.cachedBlocks, entry.2.WellTyped

instance (cache : Cache) : Decidable cache.WellKeyed :=
  decidable_of_iff (∀ entry ∈ cache.cachedBlocks.entries,
      entry.2.header.blockUid = entry.1 ∧ entry.2.WellTyped)
    ⟨fun h => ⟨fun entry he => (h entry he).1, fun entry he => (h entry he).2⟩,
      fun h entry he => ⟨h.uid entry he, h.typed entry he⟩⟩

theorem WellKeyed.addBlock {cache : Cache} (h : cache.WellKeyed) {block : Block}
    (huid : block.header.blockUid = cache.nextFreeBlockId) (htyped : block.WellTyped) :
    (cache.addBlock block).WellKeyed := by
  constructor <;> intro entry he <;> rcases OrdMap.mem_insert.1 he with rfl | ⟨-, he⟩
  · exact huid
  · exact h.uid entry he
  · exact htyped
  · exact h.typed entry he

theorem wellKeyed_resetCache (cache : Cache) (uid : BlockUid) :
    (cache.resetCache uid).WellKeyed :=
  ⟨fun entry he => absurd he (OrdMap.not_mem_empty entry),
    fun entry he => absurd he (OrdMap.not_mem_empty entry)⟩

/-- A round of `cacheThread` leaves everything alone, or moves one well-typed block. -/
theorem cacheThread_cases {cache : Cache} (h : cache.WellKeyed) :
    cache.cacheThread = cache ∨
      ∃ k block, (k, block) ∈ cache.cachedBlocks ∧ targetCacheSize < cache.cachedBlocks.size ∧
        cache.cacheThread =
          { cache with
            cachedBlocks := cache.cachedBlocks.erase k
            disk := cache.disk.insert k block } := by
  unfold Cache.cacheThread
  split_ifs with hsize
  · split
    · exact Or.inl rfl
    · rename_i k block rest hentries
      have hmem : (k, block) ∈ cache.cachedBlocks := by
        rw [OrdMap.mem_def, hentries]
        exact List.mem_cons_self ..
      have hk : block.header.blockUid = k := h.uid _ hmem
      refine Or.inr ⟨k, block, hmem, hsize, ?_⟩
      have htyped := h.typed _ hmem
      cases block with
      | baseline block =>
        have ht : block.header.genericHeader.blockType = .BaselineBlock := htyped
        simp [writeBlockToDisk, Block.header, ht] at hk ⊢
        simp [hk]
      | collection block =>
        have ht : block.header.genericHeader.blockType = .CollectionBlock := htyped
        simp [writeBlockToDisk, Block.header, ht] at hk ⊢
        simp [hk]
  · exact Or.inl rfl

theorem WellKeyed.cacheThread {cache : Cache} (h : cache.WellKeyed) :
    cache.cacheThread.WellKeyed := by
  rcases cacheThread_cases h with heq | ⟨k, block, -, -, heq⟩ <;> rw [heq]
  · exact h
  · exact ⟨fun entry he => h.uid entry (OrdMap.mem_erase.1 he).2,
      fun entry he => h.typed entry (OrdMap.mem_erase.1 he).2⟩

/-- Moving blocks to disk changes no lookup, the invalid id `0` aside. -/
theorem getBlock_cacheThread {cache : Cache} (h : cache.WellKeyed) {uid : BlockUid}
    (huid : uid ≠ 0 ∨ cache.cachedBlocks.size ≤ targetCacheSize) :
    cache.cacheThread.getBlock uid = cache.getBlock uid := by
  rcases cacheThread_cases h with heq | ⟨k, block, hmem, hsize, heq⟩ <;> rw [heq]
  have huid : uid ≠ 0 := huid.resolve_right (by omega)
  by_cases hu : uid = k
  · -- The moved block is found on disk instead.
    subst hu
    have hfind : cache.cachedBlocks.find? uid = some block := OrdMap.find?_eq_some_iff.2 hmem
    simp [getBlock, getBlockFromDisk, OrdMap.find?_erase, OrdMap.find?_insert, huid, hfind]
  · simp [getBlock, getBlockFromDisk, OrdMap.find?_erase, OrdMap.find?_insert, hu]

@[simp] theorem nextFreeBlockId_cacheThread (cache : Cache) :
    cache.cacheThread.nextFreeBlockId = cache.nextFreeBlockId := by
  unfold Cache.cacheThread
  split_ifs
  · split
    · rfl
    · dsimp only
      split <;> rfl
  · rfl

end Cache

end SwabianCoin
