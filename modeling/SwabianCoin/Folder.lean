import SwabianCoin.Eviction
import SwabianCoin.Reset
import SwabianCoin.RoundTrip

/-!
# Resets between transfers

The machine of `Eviction` with `resetCache` among its threads and with files of bytes. A reset
takes the lock of the transfers, removes the files up to the new root, clears the memory, releases
the lock and only then sets the next id; calls of `getBlock` come in between any two of these steps.
Blocks are added by the thread that resets, so not during a reset.

The lock keeps a transfer that has begun before a reset from writing its file after it. So the
files up to the root are files of blocks that were added since (`FolderInv.files`). Files above the
root are left from earlier and may be served until their ids are taken.
-/

namespace SwabianCoin

/-! ## The machine -/

/-- Where `resetCache` is. -/
inductive ResetStep where
  | done
  /-- It holds the lock of the transfers. -/
  | locked (rootBlockUid : BlockUid)
  | removed (rootBlockUid : BlockUid)
  /-- The lock is released, the next id is still the old one. -/
  | cleared (rootBlockUid : BlockUid)
  deriving DecidableEq

/-- Whether `resetCache` holds the lock of the transfers. -/
def ResetStep.holdsLock : ResetStep → Bool
  | .locked _ => true
  | .removed _ => true
  | _ => false

/-- A call of `getBlock` that has not found its block in memory. -/
structure FolderRead where
  uid : BlockUid
  /-- What had been added under the id since the last reset when the call began. -/
  atCall : Option Block
  /-- Whether the call began between two resets, and no reset has begun since. -/
  undisturbed : Bool

/-- The end of a call of `getBlock`. -/
structure FolderReturn extends FolderRead where
  result : Option Block

/-- The cache, the folder, both threads and the calls that are under way. -/
structure CacheThreads where
  cachedBlocks : OrdMap BlockUid Block := ∅
  folder : BlockFolder := ∅
  nextFreeBlockId : BlockUid := 1
  /-- Where `cacheThread` is. It holds the lock of the transfers unless it is idle. -/
  transfer : Transfer := .idle
  reset : ResetStep := .done
  readers : OrdMap Nat FolderRead := ∅
  /-- For the record: the last root, and the blocks added since. -/
  rootBlockUid : BlockUid := 0
  added : OrdMap BlockUid Block := ∅

inductive FolderEvent where
  | addBlock (block : Block)
  /-- The three steps of `cacheThread`. -/
  | pick
  | write
  | erase
  /-- The two steps of `getBlock`. -/
  | look (reader : Nat) (uid : BlockUid)
  | read (reader : Nat)
  /-- The four steps of `resetCache`. -/
  | lock (rootBlockUid : BlockUid)
  | remove
  | clear
  | setNext

namespace CacheThreads

variable (s : CacheThreads)

/-- A block is added in memory, unless a reset is under way. -/
def addBlock (block : Block) : CacheThreads :=
  if s.reset = .done then
    { s with
      cachedBlocks := s.cachedBlocks.insert s.nextFreeBlockId block
      nextFreeBlockId := s.nextFreeBlockId + 1
      added := s.added.insert s.nextFreeBlockId block }
  else s

/-- The thread takes the first block if there are too many in memory, and the lock. -/
def pick : CacheThreads :=
  match s.transfer with
  | .idle =>
    if s.reset.holdsLock then s
    else if s.cachedBlocks.size > Cache.targetCacheSize then
      match s.cachedBlocks.entries with
      | [] => s
      | (_, block) :: _ => { s with transfer := .picked block }
    else s
  | _ => s

/-- The block is written to its file, if its header names a type of block. -/
def write : CacheThreads :=
  match s.transfer with
  | .picked block =>
    match block.header.genericHeader.blockType with
    | .BaselineBlock | .CollectionBlock =>
      { s with folder := s.folder.writeBlockToDisk block, transfer := .written block }
    | _ => { s with transfer := .written block }
  | _ => s

def erase : CacheThreads :=
  match s.transfer with
  | .written block =>
    { s with
      cachedBlocks := s.cachedBlocks.erase block.header.blockUid
      transfer := .idle }
  | _ => s

/-- What is known of a call that begins now. -/
def call (uid : BlockUid) : FolderRead :=
  ⟨uid, s.added.find? uid, decide (s.reset = .done)⟩

/-- A reader makes one call at a time. -/
def look (reader : Nat) (uid : BlockUid) : CacheThreads × Option FolderReturn :=
  if s.readers.contains reader then (s, none)
  else
    match s.cachedBlocks.find? uid with
    | some block => (s, some ⟨s.call uid, some block⟩)
    | none => ({ s with readers := s.readers.insert reader (s.call uid) }, none)

/-- The second step of a call: the file is read. -/
def read (reader : Nat) : CacheThreads × Option FolderReturn :=
  match s.readers.find? reader with
  | none => (s, none)
  | some pending =>
    ({ s with readers := s.readers.erase reader },
      some ⟨pending, s.folder.getBlockFromDisk pending.uid⟩)

/-- The lock is free when no transfer is under way. What had been added before is forgotten. -/
def lock (rootBlockUid : BlockUid) : CacheThreads :=
  match s.transfer, s.reset with
  | .idle, .done =>
    { s with
      reset := .locked rootBlockUid
      readers := s.readers.mapEntries fun _ pending => ⟨pending.uid, none, false⟩
      added := ∅ }
  | _, _ => s

/-- The loop over the file names, which does not end for the largest id. -/
def remove : CacheThreads :=
  match s.reset with
  | .locked root =>
    if root = maxBlockUid then s
    else
      { s with
        folder := s.folder.filter fun file => !(decide (1 ≤ file.1) && decide (file.1 ≤ root))
        reset := .removed root
        rootBlockUid := root }
  | _ => s

/-- The blocks in memory are forgotten. -/
def clear : CacheThreads :=
  match s.reset with
  | .removed root => { s with cachedBlocks := ∅, reset := .cleared root }
  | _ => s

/-- The root will get the next id. -/
def setNext : CacheThreads :=
  match s.reset with
  | .cleared root => { s with nextFreeBlockId := root, reset := .done }
  | _ => s

def act : FolderEvent → CacheThreads × Option FolderReturn
  | .addBlock block => (s.addBlock block, none)
  | .pick => (s.pick, none)
  | .write => (s.write, none)
  | .erase => (s.erase, none)
  | .look reader uid => s.look reader uid
  | .read reader => s.read reader
  | .lock root => (s.lock root, none)
  | .remove => (s.remove, none)
  | .clear => (s.clear, none)
  | .setNext => (s.setNext, none)

def step (event : FolderEvent) : CacheThreads := (s.act event).1

/-- A call for an id under which a block had been added returns this block; and an undisturbed call
finds nothing below the last root, and under it only what was added. -/
def Serves (event : FolderEvent) : Prop :=
  ∀ returned ∈ (s.act event).2,
    (∀ block ∈ returned.atCall, returned.result = some block) ∧
    (returned.undisturbed = true → ∀ block ∈ returned.result, returned.uid ≤ s.rootBlockUid →
      returned.uid = s.rootBlockUid ∧ (s.rootBlockUid, block) ∈ s.added)

/-- Blocks are added under the ids they carry, which are valid; they have the types of their
classes and fit into a file. -/
def AddsBlocks : FolderEvent → Prop
  | .addBlock block => block.header.blockUid = s.nextFreeBlockId ∧ block.header.blockUid ≠ 0 ∧
      block.WellTyped ∧ block.Sized
  | _ => True

end CacheThreads

/-! ## The invariant -/

/-- Every block that was added since the last reset is in memory or in its file. -/
structure FolderInv (s : CacheThreads) : Prop where
  ids : ∀ uid ∈ s.added.keys, uid ≠ 0 ∧ s.rootBlockUid ≤ uid ∧
    (s.nextFreeBlockId = 0 ∨ uid < s.nextFreeBlockId)
  next : s.reset = .done → s.nextFreeBlockId = 0 ∨ s.rootBlockUid ≤ s.nextFreeBlockId
  root : ∀ root, s.reset = .removed root ∨ s.reset = .cleared root → s.rootBlockUid = root
  blocks : ∀ entry ∈ s.added, entry.2.header.blockUid = entry.1 ∧ entry.2.WellTyped ∧
    entry.2.Sized
  resetting : s.reset ≠ .done → s.added = ∅
  memory : s.reset.holdsLock = false → ∀ entry ∈ s.cachedBlocks, entry ∈ s.added
  stored : ∀ entry ∈ s.added, entry ∈ s.cachedBlocks ∨
    s.folder.find? entry.1 = some (blockFile entry.2)
  /-- The lock has one holder. -/
  exclusive : s.reset.holdsLock = true → s.transfer = .idle
  picked : ∀ block, s.transfer = .picked block →
    (block.header.blockUid, block) ∈ s.cachedBlocks
  written : ∀ block, s.transfer = .written block →
    (block.header.blockUid, block) ∈ s.cachedBlocks ∧
      s.folder.find? block.header.blockUid = some (blockFile block)
  readers : ∀ entry ∈ s.readers, ∀ block ∈ entry.2.atCall,
    (entry.2.uid, block) ∈ s.added ∧ entry.2.uid ∉ s.cachedBlocks.keys
  undisturbed : ∀ entry ∈ s.readers, entry.2.undisturbed = true → s.reset = .done
  /-- No file up to the root is left from before. -/
  files : (∀ root, s.reset ≠ .locked root) → ∀ uid, uid ≠ 0 → uid ≤ s.rootBlockUid →
    ∀ bytes, s.folder.find? uid = some bytes →
      ∃ block, (uid, block) ∈ s.added ∧ bytes = blockFile block

namespace FolderInv

open Machine

variable {s : CacheThreads}

theorem start (folder : BlockFolder) : FolderInv { folder } where
  ids _ h := absurd h List.not_mem_nil
  next _ := Or.inr (show (0 : BlockUid) ≤ 1 by decide)
  root _ h := by rcases h with h | h <;> cases h
  blocks entry h := absurd h (OrdMap.not_mem_empty entry)
  resetting h := absurd rfl h
  memory _ entry h := absurd h (OrdMap.not_mem_empty entry)
  stored entry h := absurd h (OrdMap.not_mem_empty entry)
  exclusive _ := rfl
  picked _ h := by cases h
  written _ h := by cases h
  readers entry h := absurd h (OrdMap.not_mem_empty entry)
  undisturbed entry h := absurd h (OrdMap.not_mem_empty entry)
  files _ uid hne hle := absurd (UInt64.le_zero_iff.1 hle) hne

theorem not_mem_added (h : FolderInv s) (hne : s.nextFreeBlockId ≠ 0) :
    s.nextFreeBlockId ∉ s.added.keys := by
  intro hmem
  exact absurd ((h.ids _ hmem).2.2.resolve_left hne) (lt_irrefl _)

theorem addBlock (h : FolderInv s) {block : Block} (hadds : s.AddsBlocks (.addBlock block)) :
    FolderInv (s.addBlock block) := by
  obtain ⟨huid, hne, htyped, hsized⟩ := hadds
  rw [huid] at hne
  have hnew := h.not_mem_added hne
  have hkey {uid : BlockUid} {old : Block} (hmem : (uid, old) ∈ s.added) :
      uid ≠ s.nextFreeBlockId :=
    fun heq => hnew (heq ▸ OrdMap.mem_keys.2 ⟨old, hmem⟩)
  have hsucc := add_one_eq_zero_or_lt s.nextFreeBlockId
  unfold CacheThreads.addBlock
  split_ifs with hdone
  · have hroot := (h.next hdone).resolve_left hne
    have hmemory := h.memory (by rw [hdone]; rfl)
    -- What is in memory stays, since the id of the new block is new.
    have hkeep {uid : BlockUid} {old : Block} (hmem : (uid, old) ∈ s.cachedBlocks) :
        (uid, old) ∈ s.cachedBlocks.insert s.nextFreeBlockId block :=
      OrdMap.mem_insert.2 (Or.inr ⟨hkey (hmemory _ hmem), hmem⟩)
    constructor
    · intro uid hmem
      rcases OrdMap.mem_keys_insert.1 hmem with rfl | hmem
      · exact ⟨hne, hroot, hsucc⟩
      · obtain ⟨hzero, hroot, hbefore⟩ := h.ids uid hmem
        exact ⟨hzero, hroot, hsucc.imp id (lt_trans (hbefore.resolve_left hne))⟩
    · exact fun _ => hsucc.imp id fun hlt => hroot.trans hlt.le
    · exact h.root
    · intro entry hmem
      rcases OrdMap.mem_insert.1 hmem with rfl | ⟨-, hmem⟩
      · exact ⟨huid, htyped, hsized⟩
      · exact h.blocks entry hmem
    · exact fun hreset => absurd hdone hreset
    · intro _ entry hmem
      rcases OrdMap.mem_insert.1 hmem with rfl | ⟨hother, hmem⟩
      · exact OrdMap.mem_insert.2 (Or.inl rfl)
      · exact OrdMap.mem_insert.2 (Or.inr ⟨hother, hmemory entry hmem⟩)
    · intro entry hmem
      rcases OrdMap.mem_insert.1 hmem with rfl | ⟨-, hmem⟩
      · exact Or.inl (OrdMap.mem_insert.2 (Or.inl rfl))
      · exact (h.stored entry hmem).imp (fun hin => hkeep hin) id
    · exact h.exclusive
    · exact fun moved hmoved => hkeep (h.picked moved hmoved)
    · exact fun moved hmoved => ⟨hkeep (h.written moved hmoved).1, (h.written moved hmoved).2⟩
    · intro entry hentry old hold
      obtain ⟨hadded, hout⟩ := h.readers entry hentry old hold
      refine ⟨OrdMap.mem_insert.2 (Or.inr ⟨hkey hadded, hadded⟩), fun hin => ?_⟩
      rcases OrdMap.mem_keys_insert.1 hin with heq | hin
      · exact hkey hadded heq
      · exact hout hin
    · exact h.undisturbed
    · intro hlocked uid hzero hle bytes hbytes
      obtain ⟨old, hold, hfile⟩ := h.files hlocked uid hzero hle bytes hbytes
      exact ⟨old, OrdMap.mem_insert.2 (Or.inr ⟨hkey hold, hold⟩), hfile⟩
  · exact h

theorem pick (h : FolderInv s) : FolderInv s.pick := by
  unfold CacheThreads.pick
  split
  · split_ifs with hlock hsize
    · exact h
    · split
      · exact h
      · next uid block rest hentries =>
        have hmem : (uid, block) ∈ s.cachedBlocks := by
          rw [OrdMap.mem_def, hentries]
          exact List.mem_cons_self ..
        have huid : block.header.blockUid = uid :=
          (h.blocks _ (h.memory (by simpa using hlock) _ hmem)).1
        refine { h with exclusive := fun hholds => absurd hholds hlock, picked := ?_,
                        written := fun _ hmoved => (by cases hmoved) }
        intro moved hmoved
        cases hmoved
        rw [huid]
        exact hmem
    · exact h
  · exact h

/-- The lock is with the transfer that is under way. -/
theorem added_of_cached (h : FolderInv s) (htransfer : s.transfer ≠ .idle)
    {entry : BlockUid × Block} (hmem : entry ∈ s.cachedBlocks) : entry ∈ s.added := by
  refine h.memory ?_ entry hmem
  by_contra hholds
  exact htransfer (h.exclusive (by simpa using hholds))

theorem write_eq (h : FolderInv s) {block : Block} (hpicked : s.transfer = .picked block) :
    s.write = { s with folder := s.folder.insert block.header.blockUid (blockFile block),
                       transfer := .written block } := by
  have hadded := h.added_of_cached (by simp [hpicked]) (h.picked block hpicked)
  have htyped := (h.blocks _ hadded).2.1
  cases block with
  | baseline block =>
    have htype : block.header.genericHeader.blockType = .BaselineBlock := htyped
    simp [CacheThreads.write, hpicked, Block.header, htype, BlockFolder.writeBlockToDisk]
  | collection block =>
    have htype : block.header.genericHeader.blockType = .CollectionBlock := htyped
    simp [CacheThreads.write, hpicked, Block.header, htype, BlockFolder.writeBlockToDisk]

theorem write (h : FolderInv s) : FolderInv s.write := by
  cases htransfer : s.transfer with
  | picked block =>
    have hmem := h.picked block htransfer
    have hadded := h.added_of_cached (by simp [htransfer]) hmem
    rw [h.write_eq htransfer]
    refine { h with stored := ?_, exclusive := ?_, picked := fun _ hmoved => (by cases hmoved),
                    written := ?_, files := ?_ }
    · intro entry hentry
      refine (h.stored entry hentry).imp id fun hdisk => ?_
      rw [OrdMap.find?_insert]
      split_ifs with heq
      · -- An older file of this id is replaced by the same block.
        have hsame : entry = (block.header.blockUid, block) :=
          OrdMap.eq_of_mem_of_fst_eq hentry hadded heq
        rw [hsame]
      · exact hdisk
    · intro hholds
      have hidle := h.exclusive hholds
      rw [htransfer] at hidle
      cases hidle
    · intro moved hmoved
      cases hmoved
      exact ⟨hmem, by rw [OrdMap.find?_insert, if_pos rfl]⟩
    · intro hlocked uid hzero hle bytes hbytes
      rw [OrdMap.find?_insert] at hbytes
      split_ifs at hbytes with heq
      · exact ⟨block, heq ▸ hadded, (Option.some.inj hbytes).symm⟩
      · exact h.files hlocked uid hzero hle bytes hbytes
  | idle =>
    rw [CacheThreads.write, htransfer]
    exact h
  | written block =>
    rw [CacheThreads.write, htransfer]
    exact h

theorem erase (h : FolderInv s) : FolderInv s.erase := by
  unfold CacheThreads.erase
  split
  · next block hwritten =>
    obtain ⟨hmem, hdisk⟩ := h.written block hwritten
    have hadded := h.added_of_cached (by simp [hwritten]) hmem
    refine { h with memory := ?_, stored := ?_, exclusive := fun _ => rfl,
                    picked := fun _ hmoved => (by cases hmoved),
                    written := fun _ hmoved => (by cases hmoved), readers := ?_ }
    · exact fun hholds entry hentry => h.memory hholds entry (OrdMap.mem_erase.1 hentry).2
    · intro entry hentry
      by_cases heq : entry.1 = block.header.blockUid
      · have hsame : entry = (block.header.blockUid, block) :=
          OrdMap.eq_of_mem_of_fst_eq hentry hadded heq
        rw [hsame]
        exact Or.inr hdisk
      · exact (h.stored entry hentry).imp (fun hin => OrdMap.mem_erase.2 ⟨heq, hin⟩) id
    · intro entry hentry old hold
      obtain ⟨hin, hout⟩ := h.readers entry hentry old hold
      exact ⟨hin, fun hkey => hout (OrdMap.mem_keys_erase.1 hkey).2⟩
  · exact h

theorem look (h : FolderInv s) (reader : Nat) (uid : BlockUid) :
    FolderInv (s.look reader uid).1 := by
  unfold CacheThreads.look
  split_ifs
  · exact h
  · split
    · exact h
    · next hfind =>
      refine { h with readers := ?_, undisturbed := ?_ }
      · intro entry hentry block hblock
        rcases OrdMap.mem_insert.1 hentry with rfl | ⟨-, hentry⟩
        · exact ⟨OrdMap.find?_eq_some_iff.1 hblock, OrdMap.find?_eq_none_iff.1 hfind⟩
        · exact h.readers entry hentry block hblock
      · intro entry hentry hundisturbed
        rcases OrdMap.mem_insert.1 hentry with rfl | ⟨-, hentry⟩
        · exact of_decide_eq_true hundisturbed
        · exact h.undisturbed entry hentry hundisturbed

theorem read (h : FolderInv s) (reader : Nat) : FolderInv (s.read reader).1 := by
  unfold CacheThreads.read
  split
  · exact h
  · exact { h with
      readers := fun entry hentry => h.readers entry (OrdMap.mem_erase.1 hentry).2
      undisturbed := fun entry hentry => h.undisturbed entry (OrdMap.mem_erase.1 hentry).2 }

theorem lock (h : FolderInv s) (root : BlockUid) : FolderInv (s.lock root) := by
  unfold CacheThreads.lock
  split
  · next hidle hdone =>
    exact {
      ids := fun uid hmem => absurd hmem List.not_mem_nil
      next := fun hreset => by cases hreset
      root := fun _ hreset => by rcases hreset with hreset | hreset <;> cases hreset
      blocks := fun entry hmem => absurd hmem (OrdMap.not_mem_empty entry)
      resetting := fun _ => rfl
      memory := fun hholds => by cases hholds
      stored := fun entry hmem => absurd hmem (OrdMap.not_mem_empty entry)
      exclusive := fun _ => hidle
      picked := h.picked
      written := h.written
      readers := fun entry hentry block hblock => by
        obtain ⟨pending, -, heq⟩ := OrdMap.mem_mapEntries.1 hentry
        rw [← heq] at hblock
        cases hblock
      undisturbed := fun entry hentry hundisturbed => by
        obtain ⟨pending, -, heq⟩ := OrdMap.mem_mapEntries.1 hentry
        rw [← heq] at hundisturbed
        cases hundisturbed
      files := fun hlocked => absurd rfl (hlocked root) }
  · exact h

theorem remove (h : FolderInv s) : FolderInv s.remove := by
  unfold CacheThreads.remove
  split
  · next root hlocked =>
    split_ifs
    · exact h
    -- The lock was taken, so nothing is on record and no transfer is under way.
    · have hadded : s.added = ∅ := h.resetting (by simp [hlocked])
      have hidle : s.transfer = .idle := h.exclusive (by rw [hlocked]; rfl)
      refine { h with
        ids := ?_, next := (fun hreset => by cases hreset), root := ?_,
        resetting := fun _ => hadded,
        memory := (fun hholds => by cases hholds), stored := ?_, exclusive := fun _ => hidle,
        written := ?_, undisturbed := ?_, files := ?_ }
      · intro uid hmem
        rw [hadded] at hmem
        exact absurd hmem List.not_mem_nil
      · rintro _ (hreset | hreset) <;> cases hreset
        rfl
      · intro entry hmem
        rw [hadded] at hmem
        exact absurd hmem (OrdMap.not_mem_empty entry)
      · intro block hwritten
        rw [hidle] at hwritten
        cases hwritten
      · intro entry hentry hundisturbed
        have hdone := h.undisturbed entry hentry hundisturbed
        rw [hlocked] at hdone
        cases hdone
      · intro _ uid hne hle bytes hbytes
        have hfile := (OrdMap.mem_filter.1 (OrdMap.find?_eq_some_iff.1 hbytes)).2
        have hone : (1 : BlockUid) ≤ uid := by
          rw [UInt64.le_iff_toNat_le, UInt64.toNat_one]
          rw [ne_eq, ← UInt64.toNat_inj, UInt64.toNat_zero] at hne
          omega
        have hle' : uid ≤ root := hle
        simp [hone, hle'] at hfile
  · exact h

theorem clear (h : FolderInv s) : FolderInv s.clear := by
  unfold CacheThreads.clear
  split
  · next root hremoved =>
    have hadded : s.added = ∅ := h.resetting (by simp [hremoved])
    have hidle : s.transfer = .idle := h.exclusive (by rw [hremoved]; rfl)
    refine { h with
      next := (fun hreset => by cases hreset), root := ?_, resetting := fun _ => hadded,
      memory := fun _ entry hmem => absurd hmem (OrdMap.not_mem_empty entry), stored := ?_,
      exclusive := fun _ => hidle, picked := ?_, written := ?_, readers := ?_, undisturbed := ?_,
      files := ?_ }
    · rintro _ (hreset | hreset) <;> cases hreset
      exact h.root root (Or.inl hremoved)
    · intro entry hmem
      rw [hadded] at hmem
      exact absurd hmem (OrdMap.not_mem_empty entry)
    · intro block hpicked
      rw [hidle] at hpicked
      cases hpicked
    · intro block hwritten
      rw [hidle] at hwritten
      cases hwritten
    · intro entry hentry block hblock
      exact ⟨(h.readers entry hentry block hblock).1, List.not_mem_nil⟩
    · intro entry hentry hundisturbed
      have hdone := h.undisturbed entry hentry hundisturbed
      rw [hremoved] at hdone
      cases hdone
    · exact fun _ => h.files (by simp [hremoved])
  · exact h

theorem setNext (h : FolderInv s) : FolderInv s.setNext := by
  unfold CacheThreads.setNext
  split
  · next root hcleared =>
    have hadded : s.added = ∅ := h.resetting (by simp [hcleared])
    refine { h with
      ids := ?_, next := fun _ => Or.inr (le_of_eq (h.root root (Or.inr hcleared))), root := ?_,
      resetting := fun hreset => absurd rfl hreset,
      memory := fun _ => h.memory (by rw [hcleared]; rfl),
      exclusive := (fun hholds => by cases hholds), undisturbed := fun _ _ _ => rfl,
      files := fun _ => h.files (by simp [hcleared]) }
    · intro uid hmem
      rw [hadded] at hmem
      exact absurd hmem List.not_mem_nil
    · rintro _ (hreset | hreset) <;> cases hreset
  · exact h

theorem step (h : FolderInv s) {event : FolderEvent} (hadds : s.AddsBlocks event) :
    FolderInv (s.step event) := by
  cases event with
  | addBlock block => exact h.addBlock hadds
  | pick => exact h.pick
  | write => exact h.write
  | erase => exact h.erase
  | look reader uid => exact h.look reader uid
  | read reader => exact h.read reader
  | lock root => exact h.lock root
  | remove => exact h.remove
  | clear => exact h.clear
  | setNext => exact h.setNext

theorem getBlockFromDisk_of_file (h : FolderInv s) {uid : BlockUid} {block : Block}
    (hadded : (uid, block) ∈ s.added) (hfile : s.folder.find? uid = some (blockFile block)) :
    s.folder.getBlockFromDisk uid = some block := by
  obtain ⟨-, htyped, hsized⟩ := h.blocks _ hadded
  have hne := (h.ids uid (OrdMap.mem_keys.2 ⟨block, hadded⟩)).1
  have hread := reads_blockFile htyped hsized []
  rw [List.append_nil] at hread
  rw [BlockFolder.getBlockFromDisk, if_neg hne, hfile, Option.bind_some, hread, Option.map_some]

theorem added_of_read (h : FolderInv s) (hdone : s.reset = .done) {uid : BlockUid} {block : Block}
    (hread : s.folder.getBlockFromDisk uid = some block) (hle : uid ≤ s.rootBlockUid) :
    (uid, block) ∈ s.added := by
  have hfiles := h.files (by simp [hdone]) uid
  have hresult := hread
  unfold BlockFolder.getBlockFromDisk at hread
  split_ifs at hread with hzero
  cases hbytes : s.folder.find? uid with
  | none => simp [hbytes] at hread
  | some bytes =>
    obtain ⟨other, hother, rfl⟩ := hfiles hzero hle bytes hbytes
    rw [h.getBlockFromDisk_of_file hother hbytes] at hresult
    exact Option.some.inj hresult ▸ hother

/-- **What a call returns**, at its first step or at its second. -/
theorem serves (h : FolderInv s) (event : FolderEvent) : s.Serves event := by
  have hroot : ∀ {uid block}, (uid, block) ∈ s.added → uid ≤ s.rootBlockUid →
      uid = s.rootBlockUid ∧ (s.rootBlockUid, block) ∈ s.added := by
    intro uid block hadded hle
    have heq := le_antisymm hle (h.ids uid (OrdMap.mem_keys.2 ⟨block, hadded⟩)).2.1
    exact ⟨heq, heq ▸ hadded⟩
  intro returned hreturned
  cases event with
  | look reader uid =>
    change returned ∈ (s.look reader uid).2 at hreturned
    unfold CacheThreads.look at hreturned
    split_ifs at hreturned
    · cases hreturned
    · split at hreturned
      · next found hfind =>
        cases hreturned
        have hmem := OrdMap.find?_eq_some_iff.1 hfind
        refine ⟨fun block hblock => ?_, fun hundisturbed block hblock hle => ?_⟩
        · have hadded : (uid, block) ∈ s.added := OrdMap.find?_eq_some_iff.1 hblock
          -- A reset that is under way has forgotten what was added.
          have hdone : s.reset.holdsLock = false := by
            cases hreset : s.reset with
            | done => rfl
            | _ =>
              rw [h.resetting (by simp [hreset])] at hadded
              exact absurd hadded (OrdMap.not_mem_empty _)
          have hsame := OrdMap.eq_of_mem_of_fst_eq (h.memory hdone _ hmem) hadded rfl
          exact congrArg (fun entry : BlockUid × Block => some entry.2) hsame
        · have hdone : s.reset = .done := of_decide_eq_true hundisturbed
          cases hblock
          exact hroot (h.memory (by rw [hdone]; rfl) _ hmem) hle
      · cases hreturned
  | read reader =>
    change returned ∈ (s.read reader).2 at hreturned
    unfold CacheThreads.read at hreturned
    split at hreturned
    · cases hreturned
    · next pending hfind =>
      cases hreturned
      have hpending := OrdMap.find?_eq_some_iff.1 hfind
      refine ⟨fun block hblock => ?_, fun hundisturbed block hblock hle => ?_⟩
      · obtain ⟨hadded, hout⟩ := h.readers _ hpending block hblock
        have hfile := (h.stored _ hadded).resolve_left fun hin =>
          hout (OrdMap.mem_keys.2 ⟨block, hin⟩)
        exact h.getBlockFromDisk_of_file hadded hfile
      · exact hroot (h.added_of_read (h.undisturbed _ hpending hundisturbed) hblock hle) hle
  | _ => cases hreturned

end FolderInv

namespace CacheThreads

/-- **Blocks are served across resets.** On any folder, in any interleaving of resets, additions,
transfers and calls of `getBlock`: a call for an id under which a block has been added since the
last reset returns this block, read back from the bytes of its file if need be; and an undisturbed
call never returns a block from before the last reset for an id up to its root. -/
theorem serves_across_resets (folder : BlockFolder) (events : List FolderEvent)
    (hadds : Run.AllSteps step AddsBlocks { folder } events) :
    Run.AllSteps step Serves { folder } events := by
  have hinv : Run.AllStates step FolderInv { folder } events :=
    Run.AllStates.of_steps (fun _ _ h hop => h.step hop) (FolderInv.start folder) hadds
  exact hinv.allSteps.mono fun _ event h => h.serves event

end CacheThreads

namespace Sample

/-- The folder of an earlier chain. -/
def earlierFolder : BlockFolder := BlockFolder.writeBlockToDisk ∅ (numbered 3)

/-- A call misses block `3` in memory, and its file is removed before it is read. -/
def resetAtThree : List FolderEvent :=
  [.look 0 3, .lock 3, .remove, .read 0, .clear, .setNext, .addBlock (numbered 3), .look 1 3]

theorem sized_numbered (uid : BlockUid) : (numbered uid).Sized :=
  ⟨fitsSize_zero, fun _ he => absurd he (OrdMap.not_mem_empty _), fitsSize_zero,
    fun _ he => absurd he (OrdMap.not_mem_empty _)⟩

end Sample

theorem CacheThreads.serves_resetAtThree :
    (Run.exec step { folder := Sample.earlierFolder } Sample.resetAtThree).rootBlockUid = 3 ∧
      Run.AllSteps step Serves { folder := Sample.earlierFolder } Sample.resetAtThree := by
  refine ⟨by decide +kernel, serves_across_resets Sample.earlierFolder Sample.resetAtThree ?_⟩
  exact ⟨trivial, trivial, trivial, trivial, trivial, trivial,
    ⟨by decide +kernel, by decide, rfl, Sample.sized_numbered 3⟩, trivial, trivial⟩

end SwabianCoin
