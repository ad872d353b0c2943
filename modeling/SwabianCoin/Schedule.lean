import SwabianCoin.Grid
import SwabianCoin.Reset
import SwabianCoin.UpdateStateThread

/-!
# Ids and the clock

A cycle of two minutes belongs to every id. `updateStateThread` enters `IntroduceBlock` a quarter
into a cycle, with the block of the cycle before as the newest one, and adds its own block when the
cycle is over. Where the next but one id is on the grid, the thread inserts a whole cycle for the
baseline, and the baseline takes the id of this cycle. So the newest id and the clock stay in step,
and an id of the grid is never given to a collection block, once the thread has begun with a chain
that is in step (`AlignedStart`) and as long as it is in time (`OnSchedule`).

The invariant (`ScheduleInv`) says for each place of the thread when the next change is due, counted
from the newest id.
-/

namespace SwabianCoin

open Machine

variable {crypto : CryptoHelper}

/-! ## Cycles -/

/-- The begin of the cycle of an id. -/
def cycleStart (uid : BlockUid) : Nat := (uid.toNat + 12892961) * 120000

theorem getBlockId_eq {uid : BlockUid} {now : BlockchainTime} (hlow : cycleStart uid ≤ now.toNat)
    (hhigh : now.toNat < cycleStart uid + 120000) : getBlockId now = uid := by
  have hcycle : cycleLengthMs.toNat = 120000 := rfl
  have hoffset : (12892961 : UInt64).toNat = 12892961 := rfl
  have hdiv : (now / cycleLengthMs).toNat = uid.toNat + 12892961 := by
    rw [UInt64.toNat_div, hcycle]
    unfold cycleStart at hlow hhigh
    omega
  have hmin : min (now / cycleLengthMs) 12892961 = 12892961 := by
    rw [min_eq_right_iff, UInt64.le_iff_toNat_le, hdiv, hoffset]
    omega
  rw [getBlockId, hmin, ← UInt64.toNat_inj, UInt64.toNat_sub, hdiv, hoffset]
  have hlt := uid.toNat_lt
  omega

/-- The id the clock asks for is that of the cycle going on. -/
theorem cycleStart_getBlockId {now : BlockchainTime} (hlate : 12892961 < now / cycleLengthMs) :
    cycleStart (getBlockId now) = now.toNat / 120000 * 120000 := by
  have hcycle : cycleLengthMs.toNat = 120000 := rfl
  have hoffset : (12892961 : UInt64).toNat = 12892961 := rfl
  have hmin : min (now / cycleLengthMs) 12892961 = 12892961 := min_eq_right hlate.le
  rw [UInt64.lt_iff_toNat_lt, UInt64.toNat_div, hcycle, hoffset] at hlate
  have hlt := now.toNat_lt
  rw [cycleStart, getBlockId, hmin, UInt64.toNat_sub, UInt64.toNat_div, hcycle, hoffset]
  omega

theorem cycleStart_add_one {uid : BlockUid} (h : uid + 1 ≠ 0) :
    cycleStart (uid + 1) = cycleStart uid + 120000 := by
  rw [cycleStart, cycleStart, toNat_add_one h]
  omega

theorem isBaselineBlock_add_one {uid : BlockUid} (h : isBaselineBlock uid = true) :
    isBaselineBlock (uid + 1) = false := by
  have hgrid := isBaselineBlock_iff.1 h
  rw [toNat_sub_one (ne_zero_of_isBaselineBlock h)] at hgrid
  have h0 := ne_zero_of_isBaselineBlock h
  rw [ne_eq, ← UInt64.toNat_inj] at h0
  have hzero : (0 : UInt64).toNat = 0 := rfl
  rw [Bool.eq_false_iff, ne_eq, isBaselineBlock_iff, UInt64.add_sub_cancel]
  omega

/-! ## Statements -/

namespace UpdateStateThread

variable (crypto : CryptoHelper) (t : UpdateStateThread)

/-- The newest block of the chain. -/
def newestBlockId : BlockUid := t.node.base.blockchain.getNewestBlockId

/-- A state that lasts for `duration` is entered before it should be left again. -/
def InTime (duration : BlockchainTime) : Prop := t.now < t.timeNextStateChange + duration

/-- The thread begins, or goes on after fetching, with a chain that is in step with the clock. -/
structure AlignedStart : Prop where
  late : 12892961 < t.now / cycleLengthMs
  newest : t.newestBlockId = getBlockId t.now
  offGrid : isBaselineBlock (t.newestBlockId + 1) = false
  change : t.timeNextStateChange = firstStateChange t.now

/-- The changes of state happen at their times: not before, and before the next one is due. -/
structure OnSchedule (event : ThreadEvent) : Prop where
  start : t.EntersIntroduceBlock event → t.resynced = true → t.AlignedStart
  due : t.EntersIntroduceBlock event → t.resynced = false → t.Due
  introduceBlock : t.EntersIntroduceBlock event → t.InTime (cycleLengthMs * 3 / 4)
  introduceBaseline : t.EntersIntroduceBaseline event → t.InTime cycleLengthMs
  collect : t.EntersCollect event → t.InTime (cycleLengthMs / 4)

instance (duration : BlockchainTime) : Decidable (t.InTime duration) :=
  inferInstanceAs (Decidable (_ < _))

instance : Decidable t.AlignedStart :=
  decidable_of_iff (12892961 < t.now / cycleLengthMs ∧ t.newestBlockId = getBlockId t.now ∧
      isBaselineBlock (t.newestBlockId + 1) = false ∧
      t.timeNextStateChange = firstStateChange t.now)
    ⟨fun h => ⟨h.1, h.2.1, h.2.2.1, h.2.2.2⟩, fun h => ⟨h.late, h.newest, h.offGrid, h.change⟩⟩

instance (event : ThreadEvent) : Decidable (t.OnSchedule event) :=
  decidable_of_iff ((t.EntersIntroduceBlock event → t.resynced = true → t.AlignedStart) ∧
      (t.EntersIntroduceBlock event → t.resynced = false → t.Due) ∧
      (t.EntersIntroduceBlock event → t.InTime (cycleLengthMs * 3 / 4)) ∧
      (t.EntersIntroduceBaseline event → t.InTime cycleLengthMs) ∧
      (t.EntersCollect event → t.InTime (cycleLengthMs / 4)))
    ⟨fun h => ⟨h.1, h.2.1, h.2.2.1, h.2.2.2.1, h.2.2.2.2⟩,
      fun h => ⟨h.start, h.due, h.introduceBlock, h.introduceBaseline, h.collect⟩⟩

/-- The ids are in step with the clock. -/
structure Aligned (event : ThreadEvent) : Prop where
  /-- `IntroduceBlock` is entered with the block the clock asks for. -/
  entry : t.EntersIntroduceBlock event →
    t.newestBlockId = getBlockId t.now ∧
      (t.act crypto event).newestBlockId = getBlockId t.now ∧
      (t.act crypto event).node.base.outOfSyncDetector.timeOutOfSync = false
  /-- The own block is added under an id that is not on the grid. -/
  block : t.LeavesIntroduceBlock event →
    isBaselineBlock t.node.base.blockchain.cache.nextFreeBlockId = false
  /-- A baseline is established under an id that is. -/
  baseline : t.EntersIntroduceBaseline event →
    isBaselineBlock (t.act crypto event).node.base.blockchain.getRootBlockId = true
  /-- The chain is not fetched because of the clock. -/
  collected : t.position = .collecting → t.node.base.outOfSyncDetector.timeOutOfSync = false

/-! ## The invariant -/

/-- The next change is due `wait` milliseconds after the begin of the cycle of the newest block. -/
structure InStep (wait : Nat) : Prop where
  time : t.timeNextStateChange.toNat = cycleStart t.newestBlockId + wait
  inSync : t.node.base.outOfSyncDetector.timeOutOfSync = false

/-- When the next change is due at each place of the thread. -/
def Timed : Prop :=
  match t.position with
  | .introducingBlock => isBaselineBlock (t.newestBlockId + 1) = false ∧ t.InStep 120000
  | .introducingBaseline => isBaselineBlock t.newestBlockId = true ∧ t.InStep 0
  | .collecting => isBaselineBlock (t.newestBlockId + 1) = false ∧ t.InStep 30000
  | .loopHead =>
    t.resynced = false → isBaselineBlock (t.newestBlockId + 1) = false ∧ t.InStep 30000
  | _ => True

/-- The chain hangs together, the node is where the thread put it, and the changes are in step. -/
structure ScheduleInv : Prop where
  chain : HashChainInv crypto t.node
  position : t.PositionOk
  timed : t.Timed

variable {crypto t}

namespace InStep

variable {wait : Nat}

theorem toNat_lt (h : t.InStep wait) : t.newestBlockId.toNat < 2 ^ 48 := by
  have hlt := t.timeNextStateChange.toNat_lt
  rw [h.time, cycleStart] at hlt
  omega

theorem succ_ne_zero (h : t.InStep wait) : t.newestBlockId + 1 ≠ 0 := by
  have hlt := h.toNat_lt
  rw [ne_eq, ← UInt64.toNat_inj, UInt64.toNat_add, UInt64.toNat_one]
  have hzero : (0 : UInt64).toNat = 0 := rfl
  omega

theorem idsLeft (h : t.InStep wait) : IdsLeft t.node.base.blockchain := by
  have hlt := h.toNat_lt
  unfold newestBlockId at hlt
  unfold IdsLeft
  omega

theorem congr {t' : UpdateStateThread} (h : t.InStep wait)
    (htime : t'.timeNextStateChange = t.timeNextStateChange)
    (hnewest : t'.newestBlockId = t.newestBlockId)
    (hsync : t'.node.base.outOfSyncDetector.timeOutOfSync =
      t.node.base.outOfSyncDetector.timeOutOfSync) : t'.InStep wait :=
  ⟨by rw [htime, hnewest, h.time], hsync.trans h.inSync⟩

end InStep

/-! ## Entering `IntroduceBlock` -/

/-- The end of the cycle going on, unless the clock ends before. -/
theorem toNat_firstStateChange_add {now : BlockchainTime}
    (hin : now < firstStateChange now + cycleLengthMs * 3 / 4) :
    (firstStateChange now + cycleLengthMs * 3 / 4).toNat =
      now.toNat / 120000 * 120000 + 120000 := by
  have hsum : (firstStateChange now + cycleLengthMs * 3 / 4).toNat =
      (now.toNat / 120000 * 120000 + 120000) % 2 ^ 64 := by
    have hlong : (cycleLengthMs * 3 / 4).toNat = 90000 := rfl
    have hshort : (cycleLengthMs / 4).toNat = 30000 := rfl
    have hcycle : cycleLengthMs.toNat = 120000 := rfl
    rw [UInt64.toNat_add, firstStateChange, UInt64.toNat_add, UInt64.toNat_mul, UInt64.toNat_div,
      hlong, hshort, hcycle]
    omega
  have hlt := now.toNat_lt
  rw [UInt64.lt_iff_toNat_lt, hsum] at hin
  rw [hsum]
  omega

/-- At the begin the first change is set to the end of the cycle going on. -/
theorem AlignedStart.time (h : t.AlignedStart) (hin : t.InTime (cycleLengthMs * 3 / 4)) :
    (t.timeNextStateChange + cycleLengthMs * 3 / 4).toNat =
      cycleStart t.newestBlockId + 120000 := by
  rw [InTime, h.change] at hin
  rw [h.newest, cycleStart_getBlockId h.late, h.change, toNat_firstStateChange_add hin]

/-- A quarter into its cycle, an id is the one the clock asks for. -/
theorem InStep.getBlockId_eq (h : t.InStep 30000) (hdue : t.Due)
    (hin : t.InTime (cycleLengthMs * 3 / 4)) :
    t.newestBlockId = getBlockId t.now ∧
      (t.timeNextStateChange + cycleLengthMs * 3 / 4).toNat =
        cycleStart t.newestBlockId + 120000 := by
  have hlong : (cycleLengthMs * 3 / 4).toNat = 90000 := rfl
  have hsum := toNat_add_of_lt_add hdue hin
  have htime := h.time
  rw [InTime, UInt64.lt_iff_toNat_lt] at hin
  rw [Due, UInt64.le_iff_toNat_le] at hdue
  have hlow : cycleStart t.newestBlockId ≤ t.now.toNat := by omega
  have hhigh : t.now.toNat < cycleStart t.newestBlockId + 120000 := by omega
  exact ⟨(SwabianCoin.getBlockId_eq hlow hhigh).symm, by omega⟩

/-- Whichever way the thread has come, the newest block is the one the clock asks for. -/
theorem ScheduleInv.entry (h : t.ScheduleInv crypto) {event : ThreadEvent}
    (hon : t.OnSchedule event) (henters : t.EntersIntroduceBlock event) :
    t.newestBlockId = getBlockId t.now ∧ isBaselineBlock (t.newestBlockId + 1) = false ∧
      (t.timeNextStateChange + cycleLengthMs * 3 / 4).toNat =
        cycleStart t.newestBlockId + 120000 := by
  have hin := hon.introduceBlock henters
  cases hresynced : t.resynced with
  | true =>
    have hstart := hon.start henters hresynced
    exact ⟨hstart.newest, hstart.offGrid, hstart.time hin⟩
  | false =>
    have hdue := hon.due henters hresynced
    have hposition : t.position = .loopHead := by
      cases event with
      | step slow =>
        rcases henters with hhead | ⟨hleaving, -⟩
        · exact hhead.1
        · have hposition := h.position
          rw [PositionOk, hleaving] at hposition
          rw [hposition.2.2] at hresynced
          cases hresynced
      | stop => cases henters
      | node event => cases henters
      | pauseMiner => cases henters
      | resumeMiner => cases henters
      | clock now => cases henters
    have htimed := h.timed
    rw [Timed, hposition] at htimed
    obtain ⟨hgrid, hstep⟩ := htimed hresynced
    obtain ⟨hid, htime⟩ := hstep.getBlockId_eq hdue hin
    exact ⟨hid, hgrid, htime⟩

theorem enterIntroduceBlock_inSync {m : BlockchainManager} {now : BlockchainTime}
    (htip : TipOk m.blockchain) (hid : m.blockchain.getNewestBlockId = getBlockId now) :
    (m.enterState crypto .introduceBlock now).1.outOfSyncDetector.timeOutOfSync = false := by
  obtain ⟨newest, hn, huid⟩ := htip.newest
  have hdetector : (m.enterState crypto .introduceBlock now).1.outOfSyncDetector =
      m.outOfSyncDetector.restartCheckCycle m.blockchain now := rfl
  rw [hdetector, OutOfSyncDetector.restartCheckCycle, hn]
  show (getBlockId now != newest.header.blockUid) = false
  rw [huid, hid, bne_self_eq_false]

theorem ScheduleInv.enterIntroduceBlock (h : t.ScheduleInv crypto) {slow : Bool}
    (hon : t.OnSchedule (.step slow)) (henters : t.EntersIntroduceBlock (.step slow)) :
    (t.enterIntroduceBlock crypto slow).newestBlockId = t.newestBlockId ∧
      (t.enterIntroduceBlock crypto slow).Timed := by
  obtain ⟨hid, hgrid, htime⟩ := h.entry hon henters
  obtain ⟨-, hstate⟩ := h.position.mayIntroduce henters
  have hbase : (t.enterIntroduceBlock crypto slow).node.base =
      (t.node.base.enterState crypto .introduceBlock t.now).1 :=
    congrArg Prod.fst (BlockchainManager.setState_introduceBlock crypto t.now
      (hstate.imp And.left And.left))
  have hnewest : (t.enterIntroduceBlock crypto slow).newestBlockId = t.newestBlockId := by
    unfold newestBlockId
    rw [hbase]
    rfl
  refine ⟨hnewest, ?_, ?_, ?_⟩
  · rw [hnewest]
    exact hgrid
  · rw [hnewest]
    exact htime
  · rw [hbase]
    exact enterIntroduceBlock_inSync h.chain.manager.chain.tipOk hid

/-! ## Leaving `IntroduceBlock` -/

theorem succ_succ (uid : BlockUid) : uid + 1 + 1 = uid + 2 := by
  rw [UInt64.add_assoc]
  rfl

theorem exitIntroduceBlock_ids {m : BlockchainManager} (hchain : ChainInv crypto m.blockchain) :
    (m.exitIntroduceBlock crypto).1.blockchain.getNewestBlockId =
        m.blockchain.getNewestBlockId + 1 ∧
      (m.exitIntroduceBlock crypto).1.blockchain.currentBaseline.header.blockUid =
        m.blockchain.getNewestBlockId + 2 := by
  rw [m.exitIntroduceBlock_blockchain crypto]
  exact ⟨hchain.next, baselineUid_addBlock crypto hchain.next _⟩

theorem enterCollect_blockchain (crypto : CryptoHelper) (m : BlockchainManager)
    (now : BlockchainTime) :
    (m.enterState crypto .collect now).1.blockchain = m.blockchain :=
  rfl

theorem enterIntroduceBaseline_ids (crypto : CryptoHelper) (m : BlockchainManager)
    (now : BlockchainTime) :
    (m.enterState crypto .introduceBaseline now).1.blockchain.getNewestBlockId =
        m.blockchain.currentBaseline.header.blockUid ∧
      (m.enterState crypto .introduceBaseline now).1.blockchain.getRootBlockId =
        m.blockchain.currentBaseline.header.blockUid :=
  ⟨rfl, rfl⟩

theorem changeState_ids (hchain : ChainInv crypto t.node.base.blockchain)
    (hstate : t.node.base.currentState = some .introduceBlock) (slow : Bool) :
    (t.enterCollect crypto slow).newestBlockId = t.newestBlockId + 1 ∧
      (t.enterIntroduceBaseline crypto slow).newestBlockId = t.newestBlockId + 2 ∧
      (t.enterIntroduceBaseline crypto slow).node.base.blockchain.getRootBlockId =
        t.newestBlockId + 2 := by
  have hcollect : (t.enterCollect crypto slow).node.base = _ :=
    BlockchainManager.setState_of_introduceBlock crypto t.now hstate (by simp)
  have hbaseline : (t.enterIntroduceBaseline crypto slow).node.base = _ :=
    BlockchainManager.setState_of_introduceBlock crypto t.now hstate (by simp)
  obtain ⟨hnewest, huid⟩ := exitIntroduceBlock_ids hchain
  obtain ⟨htip, hroot⟩ :=
    enterIntroduceBaseline_ids crypto (t.node.base.exitIntroduceBlock crypto).1 t.now
  unfold newestBlockId
  rw [hcollect, hbaseline, enterCollect_blockchain, htip, hroot]
  exact ⟨hnewest, huid, huid⟩

theorem changeState_inSync (crypto : CryptoHelper)
    (hstate : t.node.base.currentState = some .introduceBlock)
    (hsync : t.node.base.outOfSyncDetector.timeOutOfSync = false) (slow : Bool) :
    (t.enterCollect crypto slow).node.base.outOfSyncDetector.timeOutOfSync = false ∧
      (t.enterIntroduceBaseline crypto slow).node.base.outOfSyncDetector.timeOutOfSync = false := by
  have hcollect : (t.enterCollect crypto slow).node.base = _ :=
    BlockchainManager.setState_of_introduceBlock crypto t.now hstate (by simp)
  have hbaseline : (t.enterIntroduceBaseline crypto slow).node.base = _ :=
    BlockchainManager.setState_of_introduceBlock crypto t.now hstate (by simp)
  have hdetector := t.node.base.exitIntroduceBlock_detector crypto
  rw [hcollect, hbaseline]
  constructor
  · show (t.node.base.exitIntroduceBlock crypto).1.outOfSyncDetector.timeOutOfSync = false
    rw [hdetector, hsync]
  · show (t.node.base.exitIntroduceBlock crypto).1.outOfSyncDetector.timeOutOfSync = false
    rw [hdetector, hsync]

theorem ScheduleInv.introducing (h : t.ScheduleInv crypto)
    (hposition : t.position = .introducingBlock) :
    t.node.base.currentState = some .introduceBlock ∧
      isBaselineBlock (t.newestBlockId + 1) = false ∧ t.InStep 120000 := by
  have htimed := h.timed
  rw [Timed, hposition] at htimed
  exact ⟨(h.position.introducingBlock hposition).2, htimed⟩

theorem ScheduleInv.collectAfterBlock (h : t.ScheduleInv crypto) {slow : Bool}
    (hposition : t.position = .introducingBlock) (hdue : t.Due)
    (hgrid : isBaselineBlock (t.newestBlockId + 2) = false) (hin : t.InTime (cycleLengthMs / 4)) :
    (t.enterCollect crypto slow).Timed := by
  obtain ⟨hstate, -, hstep⟩ := h.introducing hposition
  have hnewest := (changeState_ids h.chain.manager.chain hstate slow).1
  have hsync := (changeState_inSync crypto hstate hstep.inSync slow).1
  refine ⟨?_, ?_, hsync⟩
  · rw [hnewest, succ_succ]
    exact hgrid
  · have hshort : (cycleLengthMs / 4).toNat = 30000 := rfl
    have htime : (t.enterCollect crypto slow).timeNextStateChange.toNat = _ :=
      toNat_add_of_lt_add hdue hin
    have hcycle := cycleStart_add_one hstep.succ_ne_zero
    have hbefore := hstep.time
    rw [htime, hnewest]
    omega

theorem ScheduleInv.introduceBaseline (h : t.ScheduleInv crypto) {slow : Bool}
    (hposition : t.position = .introducingBlock) (hdue : t.Due)
    (hgrid : isBaselineBlock (t.newestBlockId + 2) = true) (hin : t.InTime cycleLengthMs) :
    (t.enterIntroduceBaseline crypto slow).Timed := by
  obtain ⟨hstate, -, hstep⟩ := h.introducing hposition
  have hnewest := (changeState_ids h.chain.manager.chain hstate slow).2.1
  have hsync := (changeState_inSync crypto hstate hstep.inSync slow).2
  refine ⟨?_, ?_, hsync⟩
  · rw [hnewest]
    exact hgrid
  · have hlong : cycleLengthMs.toNat = 120000 := rfl
    have htime : (t.enterIntroduceBaseline crypto slow).timeNextStateChange.toNat = _ :=
      toNat_add_of_lt_add hdue hin
    have hsucc : t.newestBlockId + 1 + 1 ≠ 0 := by
      rw [succ_succ]
      exact ne_zero_of_isBaselineBlock hgrid
    have hcycle := cycleStart_add_one hstep.succ_ne_zero
    have hcycle' := cycleStart_add_one hsucc
    have hbefore := hstep.time
    rw [succ_succ] at hcycle'
    rw [htime, hnewest]
    omega

/-- The cycle of a baseline is followed by an ordinary one. -/
theorem ScheduleInv.collectAfterBaseline (h : t.ScheduleInv crypto) {slow : Bool}
    (hposition : t.position = .introducingBaseline) (hdue : t.Due)
    (hin : t.InTime (cycleLengthMs / 4)) : (t.enterCollect crypto slow).Timed := by
  obtain ⟨-, hstate, -⟩ := h.position.introducingBaseline hposition
  have htimed := h.timed
  rw [Timed, hposition] at htimed
  obtain ⟨hgrid, hstep⟩ := htimed
  have hbase : (t.enterCollect crypto slow).node.base = _ :=
    BlockchainManager.setState_of_introduceBaseline crypto t.now hstate
  have hnewest : (t.enterCollect crypto slow).newestBlockId = t.newestBlockId := by
    unfold newestBlockId
    rw [hbase]
    rfl
  refine ⟨?_, ?_, ?_⟩
  · rw [hnewest]
    exact isBaselineBlock_add_one hgrid
  · have hshort : (cycleLengthMs / 4).toNat = 30000 := rfl
    have htime : (t.enterCollect crypto slow).timeNextStateChange.toNat = _ :=
      toNat_add_of_lt_add hdue hin
    have hbefore := hstep.time
    rw [htime, hnewest]
    omega
  · rw [hbase]
    exact hstep.inSync

/-! ## Runs -/

theorem Timed.congr {t' : UpdateStateThread} (h : t.Timed) (hok : t.PositionOk)
    (hposition : t'.position = t.position) (hresynced : t'.resynced = t.resynced)
    (htime : t'.timeNextStateChange = t.timeNextStateChange)
    (hnewest : t.node.Left → t'.newestBlockId = t.newestBlockId)
    (hsync : t'.node.base.outOfSyncDetector.timeOutOfSync =
      t.node.base.outOfSyncDetector.timeOutOfSync) : t'.Timed := by
  unfold Timed at h ⊢
  unfold PositionOk at hok
  rw [hposition, hresynced]
  cases hat : t.position with
  | introducingBlock =>
    rw [hat] at h hok
    have heq := hnewest hok.1
    exact ⟨heq ▸ h.1, h.2.congr htime heq hsync⟩
  | introducingBaseline =>
    rw [hat] at h hok
    have heq := hnewest hok.1
    exact ⟨heq ▸ h.1, h.2.congr htime heq hsync⟩
  | collecting =>
    rw [hat] at h hok
    have heq := hnewest hok.1
    exact ⟨heq ▸ h.1, h.2.congr htime heq hsync⟩
  | loopHead =>
    rw [hat] at h hok
    intro hregular
    -- At the head of the loop with a regular cycle, the fetching state has been left.
    have hleft : t.node.Left := by
      rcases hok with ⟨-, -, hfetched⟩ | ⟨hleft, -⟩
      · rw [hfetched] at hregular
        cases hregular
      · exact hleft
    have heq := hnewest hleft
    exact ⟨heq ▸ (h hregular).1, (h hregular).2.congr htime heq hsync⟩
  | beginning initialFetch => trivial
  | fetchingInitially => trivial
  | starting => trivial
  | leavingFetchBlockchain => trivial
  | fetching => trivial
  | stopped => trivial

namespace ScheduleInv

theorem idsLeft (h : t.ScheduleInv crypto)
    (hstate : t.node.base.currentState = some .introduceBlock) :
    IdsLeft t.node.base.blockchain :=
  (h.introducing (h.position.position_of_introduceBlock hstate)).2.2.idsLeft

theorem timed_threadStep (h : t.ScheduleInv crypto) {slow : Bool}
    (hon : t.OnSchedule (.step slow)) : (t.threadStep crypto slow).Timed := by
  have hsteps := t.steps_threadStep crypto slow
  generalize t.threadStep crypto slow = next at hsteps ⊢
  cases hsteps with
  | waits => exact h.timed
  | fetchInitially hposition => trivial
  | skipFetching hposition => trivial
  | fetchedInitially hposition => trivial
  | start hposition =>
    intro hregular
    have hok := h.position
    rw [PositionOk, hposition] at hok
    exact absurd (hok.2.2.symm.trans hregular) (by simp)
  | leaveFetchBlockchain hposition hrunning => trivial
  | introduceBlock hat => exact (h.enterIntroduceBlock hon hat).2
  | introduceBaseline hposition hdue hgrid =>
    exact h.introduceBaseline hposition hdue hgrid
      (hon.introduceBaseline ⟨⟨hposition, hdue⟩, hgrid⟩)
  | collectAfterBlock hposition hdue hgrid =>
    exact h.collectAfterBlock hposition hdue hgrid
      (hon.collect (Or.inl ⟨⟨hposition, hdue⟩, hgrid⟩))
  | collectAfterBaseline hposition hdue =>
    exact h.collectAfterBaseline hposition hdue (hon.collect (Or.inr ⟨hposition, hdue⟩))
  | resynchronise hposition hdue => trivial
  | again hposition hdue hsync =>
    intro _
    have htimed := h.timed
    rw [Timed, hposition] at htimed
    exact ⟨htimed.1, htimed.2.congr rfl rfl rfl⟩
  | fetched hposition =>
    intro hregular
    have hok := h.position
    rw [PositionOk, hposition] at hok
    exact absurd (hok.2.2.symm.trans hregular) (by simp)

theorem chain_threadStep (h : t.ScheduleInv crypto) (slow : Bool) :
    HashChainInv crypto (t.threadStep crypto slow).node := by
  rcases threadStep_node h.position slow with heq | ⟨-, heq⟩ | heq | heq | heq <;> rw [heq]
  · exact h.chain
  · exact ⟨h.chain.manager.sameNegotiation ⟨rfl, rfl, rfl, rfl⟩, h.chain.fetching⟩
  · exact h.chain.nodeStep h.idsLeft _
  · exact h.chain.nodeStep h.idsLeft _
  · exact h.chain.nodeStep h.idsLeft _

/-- When the thread ends, the own block is added once more. -/
theorem chain_stopStep (h : t.ScheduleInv crypto) :
    HashChainInv crypto (t.stopStep crypto).node := by
  unfold stopStep
  split_ifs with hrunning
  · have hexit : t.node.nodeStep crypto (.fetch (.onExit t.now)) = t.node.onExit t.now := by
      simp [FetchingNode.nodeStep, FetchingNode.step, FetchingNode.act, hrunning]
    have hchain := h.chain.nodeStep h.idsLeft (.fetch (.onExit t.now))
    rw [hexit] at hchain
    exact hchain
  · refine ⟨.of_not_introducing ?_ ?_ (by simp [withBase]), fun _ => rfl⟩
    · show ChainInv crypto (t.node.base.exitState crypto).1.blockchain
      unfold BlockchainManager.exitState
      split
      · exact h.chain.manager.exitIntroduceBlock ‹_› (h.idsLeft ‹_›)
      · exact h.chain.manager.chain
    · show (t.node.base.exitState crypto).1.newBlock.header.genericHeader.blockType = _
      unfold BlockchainManager.exitState
      split
      · exact h.chain.manager.newBlockType_exit
      · exact h.chain.manager.newBlockType

/-- **One event on schedule.** -/
theorem act (h : t.ScheduleInv crypto) {event : ThreadEvent} (hon : t.OnSchedule event) :
    (t.act crypto event).ScheduleInv crypto := by
  have hok : (t.act crypto event).PositionOk := h.position.act event
  cases event with
  | step slow => exact ⟨h.chain_threadStep slow, hok, h.timed_threadStep hon⟩
  | stop =>
    simp only [UpdateStateThread.act] at hok ⊢
    split_ifs with hstops
    · refine ⟨h.chain_stopStep, by rwa [if_pos hstops] at hok, ?_⟩
      unfold stopStep
      split_ifs <;> trivial
    · exact h
  | node event =>
    simp only [UpdateStateThread.act] at hok ⊢
    split_ifs with hallows
    · have hkeeps := (Bool.and_eq_true_iff.1 hallows).1
      have hsame := t.node.nodeStep_sameState crypto hkeeps
      refine ⟨h.chain.nodeStep h.idsLeft _, by rwa [if_pos hallows] at hok, ?_⟩
      refine h.timed.congr h.position rfl rfl rfl (fun hleft => ?_) hsame.side.timeOutOfSync
      exact congrArg MetaData.newestBlockId (FetchingNode.nodeStep_chain hleft hkeeps).1
    · exact h
  | pauseMiner =>
    exact ⟨⟨h.chain.manager.sameNegotiation ⟨rfl, rfl, rfl, rfl⟩, h.chain.fetching⟩, hok,
      h.timed.congr h.position rfl rfl rfl (fun _ => rfl) rfl⟩
  | resumeMiner =>
    exact ⟨⟨h.chain.manager.sameNegotiation ⟨rfl, rfl, rfl, rfl⟩, h.chain.fetching⟩, hok,
      h.timed.congr h.position rfl rfl rfl (fun _ => rfl) rfl⟩
  | clock now =>
    exact ⟨h.chain, hok, h.timed.congr h.position rfl rfl rfl (fun _ => rfl) rfl⟩

/-- **The event finds the ids in step.** -/
theorem aligned (h : t.ScheduleInv crypto) {event : ThreadEvent} (hon : t.OnSchedule event) :
    t.Aligned crypto event := by
  constructor
  · intro henters
    obtain ⟨slow, rfl⟩ := henters.isStep
    have hid := (h.entry hon henters).1
    have hstep : t.act crypto (.step slow) = _ := threadStep_introduceBlock henters
    obtain ⟨hnewest, -, hinstep⟩ := h.enterIntroduceBlock hon henters
    rw [hstep]
    exact ⟨hid, hnewest.trans hid, hinstep.inSync⟩
  · intro hleaves
    rw [h.chain.manager.chain.next]
    exact (h.introducing hleaves.position).2.1
  · intro henters
    obtain ⟨slow, rfl⟩ := henters.isStep
    have hstep : t.act crypto (.step slow) = _ := threadStep_introduceBaseline henters
    have hstate := (h.introducing henters.1.1).1
    rw [hstep, (changeState_ids h.chain.manager.chain hstate slow).2.2]
    exact henters.2
  · intro hposition
    have htimed := h.timed
    rw [Timed, hposition] at htimed
    exact htimed.2.inSync

theorem construct {blockchain : Blockchain} (hchain : ChainInv crypto blockchain)
    (ourPublicKey : PublicKeyPEM) (initialFetch : Bool) (now : BlockchainTime) :
    (UpdateStateThread.construct ourPublicKey blockchain initialFetch now).ScheduleInv crypto :=
  ⟨⟨.of_not_introducing hchain rfl (fun hstate => by cases hstate), fun _ => rfl⟩,
    PositionOk.construct ourPublicKey blockchain initialFetch now, trivial⟩

end ScheduleInv

/-- **Ids stay in step with the clock.** A manager begins with any chain that hangs together. If
`IntroduceBlock` is first entered with a chain in step, also after the chain has been fetched anew,
and the changes of state happen at their times, the ids are in step with the clock at every event,
with any number of baselines in between. -/
theorem aligned_of_onSchedule (crypto : CryptoHelper) (ourPublicKey : PublicKeyPEM)
    (blockchain : Blockchain) (initialFetch : Bool) (now : BlockchainTime)
    (events : List ThreadEvent) (hchain : ChainInv crypto blockchain)
    (hon : Run.AllSteps (act crypto) OnSchedule
      (construct ourPublicKey blockchain initialFetch now) events) :
    Run.AllSteps (act crypto) (Aligned crypto)
      (construct ourPublicKey blockchain initialFetch now) events := by
  have hsteps := Run.AllSteps.with_invariant (I := ScheduleInv crypto)
    (fun _ _ h hevent => h.act hevent)
    (ScheduleInv.construct hchain ourPublicKey initialFetch now) hon
  exact hsteps.mono fun _ _ h => h.1.aligned h.2

end UpdateStateThread

namespace Sample

/-- The begin of the cycle of the id `719`. -/
def cycle719 : BlockchainTime := 1547241600000

/-- From the id `719` over the baseline `721` to the next block. -/
def overBaseline : List ThreadEvent :=
  [.step false, .step false, .step false, .clock (cycle719 + 120000), .step false,
    .clock (cycle719 + 240000), .step false, .clock (cycle719 + 270100), .step false, .step false]

/-- A manager over a chain that begins with `719`. -/
def startAt719 : UpdateStateThread :=
  .construct keyC (Blockchain.setRootBlock {} (emptyRoot 719)) false (cycle719 + 5000)

end Sample

/-- The baseline `721` is established, and the next block follows in time. -/
theorem overBaseline_aligned :
    (Run.exec (UpdateStateThread.act .sample) Sample.startAt719 Sample.overBaseline).newestBlockId =
        721 ∧
      Run.AllSteps (UpdateStateThread.act .sample) (UpdateStateThread.Aligned .sample)
        Sample.startAt719 Sample.overBaseline :=
  ⟨by decide +kernel, UpdateStateThread.aligned_of_onSchedule .sample Sample.keyC
    (Blockchain.setRootBlock {} (Sample.emptyRoot 719)) false (Sample.cycle719 + 5000)
    Sample.overBaseline (ChainInv.setRootBlock (by decide) (by decide)) (by decide +kernel)⟩

end SwabianCoin
