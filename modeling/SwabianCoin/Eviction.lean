import SwabianCoin.Cache
import SwabianCoin.Lib.Run

/-!
# Eviction never loses a block

`cacheThread` moves a block in three steps, each under a lock of its own: it picks the block with
the smallest id, writes its file, and erases it from memory. `getBlock` looks into memory and,
if the block is not there, reads the file, with both locks released in between. Here these steps
are the steps of a machine, so that blocks may be added and moved between any two of them. The
folder may hold files of earlier chains under the same ids.

The invariant is that a block leaves memory only after its file is complete (`EvictionInv`). The
invalid id `0` is different: its file is written, but `getBlockFromDisk` does not read it.
-/

namespace SwabianCoin

open Machine

/-! ## The machine -/

/-- Where `cacheThread` is. -/
inductive Transfer where
  | idle
  | picked (blockToTransfer : Block)
  | written (blockToTransfer : Block)

/-- A call of `getBlock` that has not found its block in memory. -/
structure PendingRead where
  uid : BlockUid
  /-- What had been added under the id when the call began. -/
  atCall : Option Block

/-- The cache, its thread and the calls that are under way. -/
structure CacheSystem where
  cache : Cache
  transfer : Transfer := .idle
  readers : OrdMap Nat PendingRead := ∅
  /-- The blocks added since `resetCache`, for the record. -/
  added : OrdMap BlockUid Block := ∅

inductive CacheEvent where
  | addBlock (block : Block)
  /-- The three steps of `cacheThread`. -/
  | pick
  | write
  | erase
  /-- The two steps of `getBlock`. -/
  | look (reader : Nat) (uid : BlockUid)
  | read (reader : Nat)

/-- The end of a call of `getBlock`. -/
structure CacheReturn where
  uid : BlockUid
  atCall : Option Block
  result : Option Block
  deriving DecidableEq

/-- Write a file for a block, if its header names a type of block. -/
def Cache.writeByType (cache : Cache) (block : Block) : Cache :=
  match block.header.genericHeader.blockType with
  | .BaselineBlock | .CollectionBlock => cache.writeBlockToDisk block
  | _ => cache

theorem Cache.writeByType_of_wellTyped (cache : Cache) {block : Block}
    (h : block.WellTyped) : cache.writeByType block = cache.writeBlockToDisk block := by
  cases block with
  | baseline block =>
    have htype : block.header.genericHeader.blockType = .BaselineBlock := h
    simp [Cache.writeByType, Block.header, htype]
  | collection block =>
    have htype : block.header.genericHeader.blockType = .CollectionBlock := h
    simp [Cache.writeByType, Block.header, htype]

namespace CacheSystem

variable (s : CacheSystem)

/-- The thread takes the first block if there are too many in memory. -/
def pick : CacheSystem :=
  match s.transfer with
  | .idle =>
    if s.cache.cachedBlocks.size > Cache.targetCacheSize then
      match s.cache.cachedBlocks.entries with
      | [] => s
      | (_, block) :: _ => { s with transfer := .picked block }
    else s
  | _ => s

/-- The block is written to its file. -/
def write : CacheSystem :=
  match s.transfer with
  | .picked block => { s with cache := s.cache.writeByType block, transfer := .written block }
  | _ => s

def erase : CacheSystem :=
  match s.transfer with
  | .written block =>
    { s with
      cache := { s.cache with cachedBlocks := s.cache.cachedBlocks.erase block.header.blockUid }
      transfer := .idle }
  | _ => s

/-- A reader makes one call at a time. -/
def look (reader : Nat) (uid : BlockUid) : CacheSystem × Option CacheReturn :=
  if s.readers.contains reader then (s, none)
  else
    match s.cache.cachedBlocks.find? uid with
    | some block => (s, some ⟨uid, s.added.find? uid, some block⟩)
    | none => ({ s with readers := s.readers.insert reader ⟨uid, s.added.find? uid⟩ }, none)

/-- The second step of a call: the file is read. -/
def read (reader : Nat) : CacheSystem × Option CacheReturn :=
  match s.readers.find? reader with
  | none => (s, none)
  | some pending =>
    ({ s with readers := s.readers.erase reader },
      some ⟨pending.uid, pending.atCall, s.cache.getBlockFromDisk pending.uid⟩)

def act : CacheEvent → CacheSystem × Option CacheReturn
  | .addBlock block =>
    ({ s with
        cache := s.cache.addBlock block
        added := s.added.insert s.cache.nextFreeBlockId block }, none)
  | .pick => (s.pick, none)
  | .write => (s.write, none)
  | .erase => (s.erase, none)
  | .look reader uid => s.look reader uid
  | .read reader => s.read reader

def step (event : CacheEvent) : CacheSystem := (s.act event).1

/-- The state `resetCache` leaves, on any folder. No transfer is under way then. -/
def start (cache : Cache) (rootBlockUid : BlockUid) : CacheSystem where
  cache := cache.resetCache rootBlockUid

/-- A call for an id under which a block had been added returns that block. -/
def ReturnsAdded (event : CacheEvent) : Prop :=
  ∀ returned ∈ (s.act event).2, ∀ block ∈ returned.atCall, returned.result = some block

/-- Blocks are added under the ids they carry, and have the types of their classes. -/
def AddsInOrder : CacheEvent → Prop
  | .addBlock block => block.header.blockUid = s.cache.nextFreeBlockId ∧ block.WellTyped
  | _ => True

/-- No block is added under the invalid id. -/
def AddsValidId : CacheEvent → Prop
  | .addBlock block => block.header.blockUid ≠ 0
  | _ => True

instance : ∀ event, Decidable (s.AddsInOrder event)
  | .addBlock _ => inferInstanceAs (Decidable (_ ∧ _))
  | .pick => inferInstanceAs (Decidable True)
  | .write => inferInstanceAs (Decidable True)
  | .erase => inferInstanceAs (Decidable True)
  | .look _ _ => inferInstanceAs (Decidable True)
  | .read _ => inferInstanceAs (Decidable True)

instance : ∀ event, Decidable (AddsValidId event)
  | .addBlock _ => inferInstanceAs (Decidable (_ ≠ _))
  | .pick => inferInstanceAs (Decidable True)
  | .write => inferInstanceAs (Decidable True)
  | .erase => inferInstanceAs (Decidable True)
  | .look _ _ => inferInstanceAs (Decidable True)
  | .read _ => inferInstanceAs (Decidable True)

/-! ## Steps with nothing in between -/

/-- The three steps of a transfer make one round of `Cache.cacheThread`. -/
theorem transfer_eq_cacheThread (h : s.transfer = .idle) :
    s.pick.write.erase.cache = s.cache.cacheThread := by
  have hidle : s.write.erase = s := by simp [write, erase, h]
  unfold pick Cache.cacheThread
  rw [h]
  dsimp only
  split_ifs
  · cases s.cache.cachedBlocks.entries with
    | nil => exact congrArg cache hidle
    | cons entry rest => rfl
  · exact congrArg cache hidle

/-- The two steps of a call return what `Cache.getBlock` says. -/
theorem look_read_eq_getBlock (reader : Nat) (uid : BlockUid)
    (h : s.readers.contains reader = false) :
    (((s.look reader uid).2.or ((s.look reader uid).1.read reader).2).map CacheReturn.result) =
      some (s.cache.getBlock uid) := by
  unfold look Cache.getBlock
  rw [if_neg (by simp [h])]
  cases hfind : s.cache.cachedBlocks.find? uid with
  | some block => rfl
  | none =>
    unfold read
    simp [OrdMap.find?_insert]

end CacheSystem

/-! ## The invariant -/

/-- Every block that was added is in memory or in its file. `cacheThread` and the pending calls
know what they may rely on. -/
structure EvictionInv (s : CacheSystem) : Prop where
  ids : ∀ uid ∈ s.added.keys, uid ≠ 0 ∧
    (s.cache.nextFreeBlockId = 0 ∨ uid < s.cache.nextFreeBlockId)
  memory : ∀ entry ∈ s.cache.cachedBlocks, entry ∈ s.added ∧
    entry.2.header.blockUid = entry.1 ∧ entry.2.WellTyped
  stored : ∀ entry ∈ s.added, entry ∈ s.cache.cachedBlocks ∨
    s.cache.disk.find? entry.1 = some entry.2
  picked : ∀ block, s.transfer = .picked block →
    (block.header.blockUid, block) ∈ s.cache.cachedBlocks
  written : ∀ block, s.transfer = .written block →
    (block.header.blockUid, block) ∈ s.cache.cachedBlocks ∧
      s.cache.disk.find? block.header.blockUid = some block
  readers : ∀ entry ∈ s.readers, ∀ block ∈ entry.2.atCall,
    (entry.2.uid, block) ∈ s.added ∧ entry.2.uid ∉ s.cache.cachedBlocks.keys

namespace EvictionInv

variable {s : CacheSystem}

theorem start (cache : Cache) (rootBlockUid : BlockUid) :
    EvictionInv (CacheSystem.start cache rootBlockUid) where
  ids _ h := absurd h (List.not_mem_nil)
  memory entry h := absurd h (OrdMap.not_mem_empty entry)
  stored entry h := absurd h (OrdMap.not_mem_empty entry)
  picked _ h := by cases h
  written _ h := by cases h
  readers entry h := absurd h (OrdMap.not_mem_empty entry)

theorem not_mem_added (h : EvictionInv s) (hne : s.cache.nextFreeBlockId ≠ 0) :
    s.cache.nextFreeBlockId ∉ s.added.keys := by
  intro hmem
  exact absurd ((h.ids _ hmem).2.resolve_left hne) (lt_irrefl _)

theorem addBlock (h : EvictionInv s) {block : Block}
    (huid : block.header.blockUid = s.cache.nextFreeBlockId) (htyped : block.WellTyped)
    (hne : block.header.blockUid ≠ 0) : EvictionInv (s.step (.addBlock block)) := by
  rw [huid] at hne
  have hnew := h.not_mem_added hne
  have hkey {uid : BlockUid} {old : Block} (hmem : (uid, old) ∈ s.added) :
      uid ≠ s.cache.nextFreeBlockId :=
    fun heq => hnew (heq ▸ OrdMap.mem_keys.2 ⟨old, hmem⟩)
  -- What is in memory stays, since the id of the new block is new.
  have hkeep {uid : BlockUid} {old : Block} (hmem : (uid, old) ∈ s.cache.cachedBlocks) :
      (uid, old) ∈ (s.cache.addBlock block).cachedBlocks :=
    OrdMap.mem_insert.2 (Or.inr ⟨hkey (h.memory _ hmem).1, hmem⟩)
  constructor
  · intro uid hmem
    have hsucc := add_one_eq_zero_or_lt s.cache.nextFreeBlockId
    rcases OrdMap.mem_keys_insert.1 hmem with rfl | hmem
    · exact ⟨hne, hsucc⟩
    · obtain ⟨hzero, hbefore⟩ := h.ids uid hmem
      exact ⟨hzero, hsucc.imp id (lt_trans (hbefore.resolve_left hne))⟩
  · intro entry hmem
    rcases OrdMap.mem_insert.1 hmem with rfl | ⟨hother, hmem⟩
    · exact ⟨OrdMap.mem_insert.2 (Or.inl rfl), huid, htyped⟩
    · obtain ⟨hadded, hrest⟩ := h.memory entry hmem
      exact ⟨OrdMap.mem_insert.2 (Or.inr ⟨hother, hadded⟩), hrest⟩
  · intro entry hmem
    rcases OrdMap.mem_insert.1 hmem with rfl | ⟨hother, hmem⟩
    · exact Or.inl (OrdMap.mem_insert.2 (Or.inl rfl))
    · exact (h.stored entry hmem).imp (fun hin => hkeep hin) id
  · intro moved hmoved
    exact hkeep (h.picked moved hmoved)
  · intro moved hmoved
    exact ⟨hkeep (h.written moved hmoved).1, (h.written moved hmoved).2⟩
  · intro entry hentry old hold
    obtain ⟨hadded, hout⟩ := h.readers entry hentry old hold
    refine ⟨OrdMap.mem_insert.2 (Or.inr ⟨hkey hadded, hadded⟩), fun hin => ?_⟩
    rcases OrdMap.mem_keys_insert.1 hin with heq | hin
    · exact hkey hadded heq
    · exact hout hin

theorem pick (h : EvictionInv s) : EvictionInv s.pick := by
  unfold CacheSystem.pick
  split
  · split_ifs
    · split
      · exact h
      · rename_i uid block rest hentries
        have hmem : (uid, block) ∈ s.cache.cachedBlocks := by
          rw [OrdMap.mem_def, hentries]
          exact List.mem_cons_self ..
        have huid : block.header.blockUid = uid := (h.memory _ hmem).2.1
        refine ⟨h.ids, h.memory, h.stored, ?_, (fun _ hmoved => by cases hmoved), h.readers⟩
        intro moved hmoved
        cases hmoved
        rw [huid]
        exact hmem
    · exact h
  · exact h

theorem write (h : EvictionInv s) : EvictionInv s.write := by
  unfold CacheSystem.write
  split
  · rename_i block hpicked
    have hmem := h.picked block hpicked
    obtain ⟨hadded, -, htyped⟩ := h.memory _ hmem
    rw [Cache.writeByType_of_wellTyped s.cache htyped]
    refine ⟨h.ids, h.memory, ?_, (fun _ hmoved => by cases hmoved), ?_, h.readers⟩
    · intro entry hentry
      refine (h.stored entry hentry).imp id fun hdisk => ?_
      show (s.cache.disk.insert _ _).find? _ = _
      rw [OrdMap.find?_insert]
      split_ifs with heq
      · -- An older file of this id is replaced by the same block.
        have hsame : entry = (block.header.blockUid, block) :=
          OrdMap.eq_of_mem_of_fst_eq hentry hadded heq
        rw [hsame]
      · exact hdisk
    · intro moved hmoved
      cases hmoved
      exact ⟨hmem, by simp [Cache.writeBlockToDisk, OrdMap.find?_insert]⟩
  · exact h

theorem erase (h : EvictionInv s) : EvictionInv s.erase := by
  unfold CacheSystem.erase
  split
  · rename_i block hwritten
    obtain ⟨hmem, hdisk⟩ := h.written block hwritten
    have hadded := (h.memory _ hmem).1
    refine ⟨h.ids, ?_, ?_, (fun _ hmoved => by cases hmoved), (fun _ hmoved => by cases hmoved), ?_⟩
    · intro entry hentry
      exact h.memory entry (OrdMap.mem_erase.1 hentry).2
    · intro entry hentry
      by_cases heq : entry.1 = block.header.blockUid
      · have hsame : entry = (block.header.blockUid, block) :=
          OrdMap.eq_of_mem_of_fst_eq hentry hadded heq
        rw [hsame]
        exact Or.inr hdisk
      · exact (h.stored entry hentry).imp (fun hin => OrdMap.mem_erase.2 ⟨heq, hin⟩) id
    · intro entry hentry old hold
      obtain ⟨hin, hout⟩ := h.readers entry hentry old hold
      exact ⟨hin, fun hkey => hout (OrdMap.mem_keys_erase.1 hkey).2⟩
  · exact h

theorem look (h : EvictionInv s) (reader : Nat) (uid : BlockUid) :
    EvictionInv (s.look reader uid).1 := by
  unfold CacheSystem.look
  split_ifs
  · exact h
  · split
    · exact h
    · rename_i hfind
      refine ⟨h.ids, h.memory, h.stored, h.picked, h.written, ?_⟩
      intro entry hentry block hblock
      rcases OrdMap.mem_insert.1 hentry with rfl | ⟨-, hentry⟩
      · exact ⟨OrdMap.find?_eq_some_iff.1 hblock, OrdMap.find?_eq_none_iff.1 hfind⟩
      · exact h.readers entry hentry block hblock

theorem read (h : EvictionInv s) (reader : Nat) : EvictionInv (s.read reader).1 := by
  unfold CacheSystem.read
  split
  · exact h
  · exact ⟨h.ids, h.memory, h.stored, h.picked, h.written,
      fun entry hentry => h.readers entry (OrdMap.mem_erase.1 hentry).2⟩

theorem step (h : EvictionInv s) {event : CacheEvent} (horder : s.AddsInOrder event)
    (hvalid : CacheSystem.AddsValidId event) : EvictionInv (s.step event) := by
  cases event with
  | addBlock block => exact h.addBlock horder.1 horder.2 hvalid
  | pick => exact h.pick
  | write => exact h.write
  | erase => exact h.erase
  | look reader uid => exact h.look reader uid
  | read reader => exact h.read reader

/-- **What a call returns**, at its first step or at its second. -/
theorem returnsAdded (h : EvictionInv s) (event : CacheEvent) : s.ReturnsAdded event := by
  intro returned hreturned block hblock
  cases event with
  | look reader uid =>
    change returned ∈ (s.look reader uid).2 at hreturned
    unfold CacheSystem.look at hreturned
    split_ifs at hreturned
    · cases hreturned
    · split at hreturned
      · rename_i found hfind
        cases hreturned
        have hadded := (h.memory _ (OrdMap.find?_eq_some_iff.1 hfind)).1
        have hsame := OrdMap.eq_of_mem_of_fst_eq hadded (OrdMap.find?_eq_some_iff.1 hblock) rfl
        exact congrArg (fun entry : BlockUid × Block => some entry.2) hsame
      · cases hreturned
  | read reader =>
    change returned ∈ (s.read reader).2 at hreturned
    unfold CacheSystem.read at hreturned
    split at hreturned
    · cases hreturned
    · rename_i pending hfind
      cases hreturned
      obtain ⟨hadded, hout⟩ := h.readers _ (OrdMap.find?_eq_some_iff.1 hfind) block hblock
      have hdisk := (h.stored _ hadded).resolve_left fun hin =>
        hout (OrdMap.mem_keys.2 ⟨block, hin⟩)
      have hne := (h.ids _ (OrdMap.mem_keys.2 ⟨block, hadded⟩)).1
      show s.cache.getBlockFromDisk pending.uid = some block
      rw [Cache.getBlockFromDisk, if_neg hne]
      exact hdisk
  | addBlock block => cases hreturned
  | pick => cases hreturned
  | write => cases hreturned
  | erase => cases hreturned

end EvictionInv

/-- **Eviction never loses a block.** Blocks are added under their own valid ids, in any
interleaving with transfers and calls of `getBlock`, on any folder: every call for an id under
which a block has been added returns this block. -/
theorem CacheSystem.returnsAdded_of_valid_ids (cache : Cache) (rootBlockUid : BlockUid)
    (events : List CacheEvent)
    (horder : Run.AllSteps CacheSystem.step CacheSystem.AddsInOrder (start cache rootBlockUid)
      events)
    (hvalid : ∀ event ∈ events, AddsValidId event) :
    Run.AllSteps CacheSystem.step CacheSystem.ReturnsAdded (start cache rootBlockUid) events := by
  have hsteps : Run.AllSteps CacheSystem.step (fun s event => s.AddsInOrder event ∧
      AddsValidId event) (start cache rootBlockUid) events :=
    Run.AllSteps.and.2 ⟨horder, Run.AllSteps.of_forall_mem fun event he _ => hvalid event he⟩
  have hinv : Run.AllStates CacheSystem.step EvictionInv (start cache rootBlockUid) events :=
    Run.AllStates.of_steps (fun _ _ h hop => h.step hop.1 hop.2)
      (EvictionInv.start cache rootBlockUid) hsteps
  exact hinv.allSteps.mono fun _ event h => h.returnsAdded event

namespace Sample

/-- An empty collection block with an id. -/
def numbered (uid : BlockUid) : Block :=
  .collection { header := { genericHeader := { blockType := .CollectionBlock }, blockUid := uid } }

/-- Eleven blocks from `uid` on. -/
def addEleven (uid : BlockUid) : List CacheEvent :=
  (List.range 11).map fun i => .addBlock (numbered (uid + UInt64.ofNat i))

/-- Eleven blocks are added. The first is moved to disk, while a call for it comes and misses it
in memory just after it is erased. -/
def moveFirst (uid : BlockUid) : List CacheEvent :=
  addEleven uid ++ [.pick, .look 0 uid, .write, .erase, .look 1 uid, .read 1]

/-- A folder with a file of an earlier chain under the id `3`. -/
def oldFolder : Cache where
  disk := OrdMap.insert ∅ 3 (.collection {})

end Sample

/-- The first of the blocks `3` to `13` is moved over an older file and read again. -/
theorem first_block_read_back :
    (Run.exec CacheSystem.step (CacheSystem.start Sample.oldFolder 3)
        (Sample.moveFirst 3)).cache.cachedBlocks.contains 3 = false ∧
      Run.AllSteps CacheSystem.step CacheSystem.ReturnsAdded
        (CacheSystem.start Sample.oldFolder 3) (Sample.moveFirst 3) :=
  ⟨by decide +kernel, CacheSystem.returnsAdded_of_valid_ids Sample.oldFolder 3 (Sample.moveFirst 3)
    (by decide +kernel) (by decide +kernel)⟩

/-- After `resetCache` with the id `0`, the block under this id is lost when it is moved. -/
theorem block_zero_lost :
    ¬ ∀ (cache : Cache) (rootBlockUid : BlockUid) (events : List CacheEvent),
      Run.AllSteps CacheSystem.step CacheSystem.AddsInOrder (CacheSystem.start cache rootBlockUid)
        events →
      Run.AllSteps CacheSystem.step CacheSystem.ReturnsAdded
        (CacheSystem.start cache rootBlockUid) events := by
  intro h
  have hrun := h {} 0 (Sample.moveFirst 0) (by decide +kernel)
  unfold Sample.moveFirst at hrun
  have hlast := (Run.AllSteps.append.1 hrun).2.2.2.2.2.2.1
  have hreturned := hlast ⟨0, some (Sample.numbered 0), none⟩ (by decide +kernel)
    (Sample.numbered 0) rfl
  exact absurd hreturned (by decide +kernel)

end SwabianCoin
