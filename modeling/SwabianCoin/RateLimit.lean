import SwabianCoin.Lib.Window
import SwabianCoin.Manager

/-!
# The rate limit

`PeersMonitor` keeps the times of the last fifty messages of every peer and counts a violation when
they came too fast. For one peer this is a window that raises alarms, fed with the times of its own
messages that are no replies (`history_after`, `violations_after`). So a violation is reported at
the end of a fast run of fifty messages, and there is one in every such run.

The peer should be banned from the fourth violation on. The counter has 32 bits, so this holds as
long as a peer does not send `2 ^ 32` fast runs (`limitsRate_iff`).
-/

namespace SwabianCoin

/-- A call of `PeersMonitor::blockReceivedCallback`, with the time the timer shows. -/
structure MonitorCall where
  peer : PeerId
  reply : Bool
  now : BlockchainTime
  deriving DecidableEq

namespace PeersMonitor

/-- `PeersMonitor::blockReceivedCallback`: the monitor afterwards, whether a violation is reported
and whether `banPeer` is called. -/
def blockReceivedCallback (monitor : PeersMonitor) (call : MonitorCall) :
    PeersMonitor × Bool × Bool :=
  if call.reply then (monitor, false, false)
  else
    let recorded := monitor.recordMessage call.peer call.now
    if recorded.2 then
      let reported := recorded.1.reportViolation call.peer
      (reported.1, true, reported.2)
    else (recorded.1, false, false)

/-- The manager hands every collection block on to the monitor. -/
theorem monitorMessage_eq (m : BlockchainManager) (peer : PeerId) (reply : Bool)
    (now : BlockchainTime) :
    m.monitorMessage peer reply now =
      let result := m.peersMonitor.blockReceivedCallback ⟨peer, reply, now⟩
      ({ m with peersMonitor := result.1 },
        if result.2.1 then
          .reportViolation peer .tooFast :: if result.2.2 then [.banPeer peer] else []
        else []) := by
  cases reply with
  | true => rfl
  | false =>
    by_cases hfast : (m.peersMonitor.recordMessage peer now).2 = true
    · simp only [BlockchainManager.monitorMessage, blockReceivedCallback, Bool.false_eq_true,
        if_false, hfast, if_true]
      rfl
    · simp only [BlockchainManager.monitorMessage, blockReceivedCallback, Bool.false_eq_true,
        if_false, hfast]

/-- The monitor after some calls. -/
def after (calls : List MonitorCall) : PeersMonitor :=
  calls.foldl (fun monitor call => (monitor.blockReceivedCallback call).1) {}

/-- A violation of the sender is reported at a call that comes after some others. -/
def Reports (before : List MonitorCall) (call : MonitorCall) : Prop :=
  ((after before).blockReceivedCallback call).2.1 = true

/-- `banPeer` is called for the sender. -/
def Bans (before : List MonitorCall) (call : MonitorCall) : Prop :=
  ((after before).blockReceivedCallback call).2.2 = true

/-- A message of the peer that counts. -/
def Counts (peer : PeerId) (call : MonitorCall) : Prop := call.peer = peer ∧ call.reply = false

instance (peer : PeerId) : DecidablePred (Counts peer) := fun _ =>
  inferInstanceAs (Decidable (_ ∧ _))

instance (before : List MonitorCall) (call : MonitorCall) : Decidable (Reports before call) :=
  inferInstanceAs (Decidable (_ = true))

instance (before : List MonitorCall) (call : MonitorCall) : Decidable (Bans before call) :=
  inferInstanceAs (Decidable (_ = true))

/-- The times of the peer's messages that count. -/
def timesOf (peer : PeerId) (calls : List MonitorCall) : List BlockchainTime :=
  (calls.filter fun call => decide (Counts peer call)).map MonitorCall.now

/-- The violations of a peer in some calls, one after the other. -/
def violationsFrom (peer : PeerId) (before : List MonitorCall) : List MonitorCall → Nat
  | [] => 0
  | call :: calls =>
    (if call.peer = peer ∧ Reports before call then 1 else 0) +
      violationsFrom peer (before ++ [call]) calls

def violations (peer : PeerId) (calls : List MonitorCall) : Nat := violationsFrom peer [] calls

/-! ## Statement -/

/-- Fifty messages in less time than is allowed. -/
structure FastRun (run : List BlockchainTime) : Prop where
  length : run.length = 50
  span : ∀ first ∈ run.head?, ∀ last ∈ run.getLast?, last.toNat - first.toNat < 49 * 3200

/-- So many fast runs one after the other, with anything in between. -/
def FastRuns : Nat → List BlockchainTime → Prop
  | 0, _ => True
  | n + 1, times => ∃ front run back, times = front ++ run ++ back ∧ FastRun run ∧ FastRuns n front

/-- The clock is not set back. -/
def ClockRuns (calls : List MonitorCall) : Prop :=
  calls.Pairwise fun call call' => call.now ≤ call'.now

/-- The monitor does what it is for. -/
structure LimitsRate (calls : List MonitorCall) : Prop where
  /-- A violation is the end of a fast run. -/
  sound : ∀ before call, before ++ [call] <+: calls → Reports before call →
    call.reply = false ∧
      ∃ front run, timesOf call.peer (before ++ [call]) = front ++ run ∧ FastRun run
  /-- In every fast run of a peer there is a violation. -/
  complete : ∀ peer front run back, timesOf peer calls = front ++ run ++ back → FastRun run →
    ∃ before call, before ++ [call] <+: calls ∧ Counts peer call ∧ Reports before call ∧
      front.length ≤ (timesOf peer before).length ∧
      (timesOf peer before).length < front.length + run.length
  /-- Other peers and replies do not matter. -/
  independent : ∀ before call, before ++ [call] <+: calls →
    (Reports before call ↔
      Reports (before.filter fun other => decide (Counts call.peer other)) call) ∧
    (Bans before call ↔
      Bans (before.filter fun other => decide (Counts call.peer other)) call)
  /-- The peer is banned at its fourth violation and at every later one. -/
  bans : ∀ before call, before ++ [call] <+: calls →
    (Bans before call ↔ Reports before call ∧ 4 ≤ violations call.peer (before ++ [call]))

/-! ## A window for each peer -/

/-- Two messages are too close to be the first and the last of fifty. -/
def tooClose (first last : BlockchainTime) : Bool :=
  decide (last - first <
    minAllowedAvgTimeBetweenPropagationsMs * UInt64.ofNat (messageHistorySize - 1))

theorem messageHistorySize_pos : 0 < messageHistorySize := by decide

theorem recordMessage_eq (monitor : PeersMonitor) (peer : PeerId) (now : BlockchainTime) :
    monitor.recordMessage peer now =
      let window := monitor.peerMessageHistory.getD peer []
      ({ monitor with
          peerMessageHistory := monitor.peerMessageHistory.insert peer
            (Window.push messageHistorySize tooClose window now) },
        Window.alarm messageHistorySize tooClose window now) := by
  obtain ⟨dropped, kept, -, hextend, -⟩ := Window.extend_eq messageHistorySize_pos
    (monitor.peerMessageHistory.getD peer []) now
  have hhistory : (if messageHistorySize < (monitor.peerMessageHistory.getD peer [] ++ [now]).length
      then (monitor.peerMessageHistory.getD peer [] ++ [now]).tail
      else monitor.peerMessageHistory.getD peer [] ++ [now]) = kept ++ [now] := hextend
  have hhead : (kept ++ [now]).headD 0 = (kept ++ [now]).headD now := by
    cases kept <;> rfl
  simp only [recordMessage, Window.push, Window.alarm, hextend, hhistory, List.getLastD_concat,
    hhead, tooClose]

variable {calls before : List MonitorCall} {call : MonitorCall} {peer : PeerId}

theorem after_append_singleton (calls : List MonitorCall) (call : MonitorCall) :
    after (calls ++ [call]) = ((after calls).blockReceivedCallback call).1 := by
  rw [after, List.foldl_append]
  rfl

theorem timesOf_append (peer : PeerId) (calls calls' : List MonitorCall) :
    timesOf peer (calls ++ calls') = timesOf peer calls ++ timesOf peer calls' := by
  rw [timesOf, List.filter_append, List.map_append]
  rfl

theorem timesOf_of_counts (h : Counts peer call) : timesOf peer [call] = [call.now] := by
  rw [timesOf, List.filter_cons_of_pos (by simpa using h)]
  rfl

theorem timesOf_of_not_counts (h : ¬ Counts peer call) : timesOf peer [call] = [] := by
  rw [timesOf, List.filter_cons_of_neg (by simpa using h)]
  rfl

/-- The monitor is one window and one counter for each peer. -/
structure Follows (monitor : PeersMonitor) (calls : List MonitorCall) : Prop where
  history : ∀ peer, monitor.peerMessageHistory.getD peer [] =
    Window.after messageHistorySize tooClose (timesOf peer calls)
  violations : ∀ peer, monitor.peerViolationsMap.getD peer 0 =
    UInt32.ofNat (Window.count messageHistorySize tooClose (timesOf peer calls))

/-- The call raises an alarm in the window of its sender. -/
def RaisesAlarm (before : List MonitorCall) (call : MonitorCall) : Prop :=
  call.reply = false ∧
    Window.Alarms messageHistorySize tooClose (timesOf call.peer before) call.now

theorem timesOf_snoc_self (h : call.reply = false) :
    timesOf call.peer (before ++ [call]) = timesOf call.peer before ++ [call.now] := by
  rw [timesOf_append, timesOf_of_counts ⟨rfl, h⟩]

theorem timesOf_snoc_of_not_counts (h : ¬ Counts peer call) :
    timesOf peer (before ++ [call]) = timesOf peer before := by
  rw [timesOf_append, timesOf_of_not_counts h, List.append_nil]

theorem Follows.of_reply {monitor : PeersMonitor} (h : Follows monitor before)
    (hreply : call.reply = true) : Follows monitor (before ++ [call]) := by
  have htimes (peer : PeerId) : timesOf peer (before ++ [call]) = timesOf peer before :=
    timesOf_snoc_of_not_counts fun hcounts => by
      rw [hcounts.2] at hreply
      cases hreply
  constructor <;> intro peer <;> rw [htimes]
  · exact h.history peer
  · exact h.violations peer

theorem Follows.getD_recordMessage {monitor : PeersMonitor} (h : Follows monitor before)
    (hreply : call.reply = false) (peer : PeerId) :
    (monitor.recordMessage call.peer call.now).1.peerMessageHistory.getD peer [] =
      Window.after messageHistorySize tooClose (timesOf peer (before ++ [call])) := by
  rw [recordMessage_eq]
  simp only [OrdMap.getD_insert]
  split_ifs with hself
  · rw [hself, timesOf_snoc_self hreply, Window.after_append_singleton, h.history]
  · rw [timesOf_snoc_of_not_counts fun hcounts => hself hcounts.1.symm]
    exact h.history peer

theorem Follows.recordMessage_alarm {monitor : PeersMonitor} (h : Follows monitor before)
    (hreply : call.reply = false) :
    (monitor.recordMessage call.peer call.now).2 = true ↔ RaisesAlarm before call := by
  rw [recordMessage_eq]
  simp only [h.history]
  exact (and_iff_right hreply).symm

theorem Follows.of_quiet {monitor : PeersMonitor} (h : Follows monitor before)
    (hreply : call.reply = false) (hquiet : ¬ RaisesAlarm before call) :
    Follows (monitor.recordMessage call.peer call.now).1 (before ++ [call]) where
  history := h.getD_recordMessage hreply
  violations peer := by
    have hsame : (monitor.recordMessage call.peer call.now).1.peerViolationsMap =
        monitor.peerViolationsMap := by rw [recordMessage_eq]
    rw [hsame, h.violations]
    by_cases hself : peer = call.peer
    · rw [hself, timesOf_snoc_self hreply,
        Window.count_of_not_alarms fun halarm => hquiet ⟨hreply, halarm⟩]
    · rw [timesOf_snoc_of_not_counts fun hcounts => hself hcounts.1.symm]

theorem Follows.of_alarm {monitor : PeersMonitor} (h : Follows monitor before)
    (halarm : RaisesAlarm before call) :
    Follows ((monitor.recordMessage call.peer call.now).1.reportViolation call.peer).1
      (before ++ [call]) where
  history := h.getD_recordMessage halarm.1
  violations peer := by
    have hsame : (monitor.recordMessage call.peer call.now).1.peerViolationsMap =
        monitor.peerViolationsMap := by rw [recordMessage_eq]
    simp only [reportViolation, hsame, OrdMap.getD_update]
    split_ifs with hself
    · rw [hself, h.violations, timesOf_snoc_self halarm.1, Window.count_of_alarms halarm.2,
        UInt32.ofNat_add]
      rfl
    · rw [timesOf_snoc_of_not_counts fun hcounts => hself hcounts.1.symm]
      exact h.violations peer

/-- **The monitor follows the windows.** -/
theorem Follows.callback {monitor : PeersMonitor} (h : Follows monitor before)
    (call : MonitorCall) :
    Follows (monitor.blockReceivedCallback call).1 (before ++ [call]) := by
  rw [blockReceivedCallback]
  split_ifs with hreply
  · exact h.of_reply hreply
  · have hreply : call.reply = false := by simpa using hreply
    dsimp only
    split_ifs with hfast
    · exact h.of_alarm ((h.recordMessage_alarm hreply).1 hfast)
    · exact h.of_quiet hreply fun halarm => hfast ((h.recordMessage_alarm hreply).2 halarm)

theorem follows_after (calls : List MonitorCall) : Follows (after calls) calls := by
  induction calls using List.reverseRecOn with
  | nil => exact ⟨fun _ => rfl, fun _ => rfl⟩
  | append_singleton calls call ih =>
    rw [after_append_singleton]
    exact ih.callback call

/-- **A violation is an alarm.** -/
theorem reports_iff : Reports before call ↔ RaisesAlarm before call := by
  have h := follows_after before
  rw [Reports, blockReceivedCallback]
  split_ifs with hreply
  · refine iff_of_false not_false fun halarm => ?_
    rw [halarm.1] at hreply
    cases hreply
  · have hreply : call.reply = false := by simpa using hreply
    rw [← h.recordMessage_alarm hreply]
    dsimp only
    split_ifs with hfast
    · exact iff_of_true rfl hfast
    · exact iff_of_false not_false hfast

theorem bans_iff : Bans before call ↔ RaisesAlarm before call ∧
    numToleratedViolations < UInt32.ofNat
      (Window.count messageHistorySize tooClose (timesOf call.peer (before ++ [call]))) := by
  have h := follows_after before
  rw [Bans, blockReceivedCallback]
  split_ifs with hreply
  · refine iff_of_false not_false fun hban => ?_
    rw [hban.1.1] at hreply
    cases hreply
  · have hreply : call.reply = false := by simpa using hreply
    dsimp only
    split_ifs with hfast
    · have halarm := (h.recordMessage_alarm hreply).1 hfast
      rw [and_iff_right halarm, ← (h.of_alarm halarm).violations call.peer]
      exact decide_eq_true_iff
    · exact iff_of_false not_false fun hban => hfast ((h.recordMessage_alarm hreply).2 hban.1)

theorem violationsFrom_append_singleton (before : List MonitorCall) :
    violationsFrom peer before (calls ++ [call]) = violationsFrom peer before calls +
      if call.peer = peer ∧ Reports (before ++ calls) call then 1 else 0 := by
  induction calls generalizing before with
  | nil =>
    rw [List.append_nil]
    exact Nat.add_comm _ 0
  | cons first rest ih =>
    rw [List.cons_append, violationsFrom, ih, violationsFrom, Nat.add_assoc, List.append_assoc,
      List.singleton_append]

/-- The violations of a peer are the alarms of its window. -/
theorem violations_eq (peer : PeerId) (calls : List MonitorCall) :
    violations peer calls = Window.count messageHistorySize tooClose (timesOf peer calls) := by
  induction calls using List.reverseRecOn with
  | nil => rfl
  | append_singleton calls call ih =>
    rw [violations, violationsFrom_append_singleton, ← violations, ih, List.nil_append]
    by_cases hcounts : Counts peer call
    · obtain ⟨rfl, hreply⟩ := hcounts
      rw [timesOf_snoc_self hreply]
      by_cases halarm : RaisesAlarm calls call
      · rw [if_pos ⟨rfl, reports_iff.2 halarm⟩, Window.count_of_alarms halarm.2]
      · rw [if_neg fun h => halarm (reports_iff.1 h.2),
          Window.count_of_not_alarms fun h => halarm ⟨hreply, h⟩]
        rfl
    · rw [timesOf_snoc_of_not_counts hcounts,
        if_neg fun h => hcounts ⟨h.1, (reports_iff.1 h.2).1⟩]
      rfl

/-! ## Runs and the clock -/

theorem pairwise_timesOf (h : ClockRuns calls) (peer : PeerId) :
    (timesOf peer calls).Pairwise (· ≤ ·) :=
  List.pairwise_map.2 (h.filter _)

/-- While the clock runs, the difference of two times is the time between them. -/
theorem tooClose_iff {first last : BlockchainTime} (h : first ≤ last) :
    tooClose first last = true ↔ last.toNat - first.toNat < 49 * 3200 := by
  have hlimit : (minAllowedAvgTimeBetweenPropagationsMs *
      UInt64.ofNat (messageHistorySize - 1)).toNat = 49 * 3200 := by decide
  rw [tooClose, decide_eq_true_iff, UInt64.lt_iff_toNat_lt, hlimit, UInt64.toNat_sub_of_le _ _ h]

theorem isRun_iff {run : List BlockchainTime} (h : run.Pairwise (· ≤ ·)) :
    Window.IsRun messageHistorySize tooClose run ↔ FastRun run := by
  have hends : ∀ first ∈ run.head?, ∀ last ∈ run.getLast?, first ≤ last := by
    intro first hfirst last hlast
    cases run with
    | nil => cases hfirst
    | cons head rest =>
      cases hfirst
      rcases List.mem_cons.1 (List.mem_of_getLast? hlast) with rfl | hrest
      · exact le_refl _
      · exact (List.pairwise_cons.1 h).1 last hrest
  constructor
  · intro hrun
    exact ⟨hrun.length, fun first hfirst last hlast =>
      (tooClose_iff (hends first hfirst last hlast)).1 (hrun.close first hfirst last hlast)⟩
  · intro hrun
    exact ⟨hrun.length, fun first hfirst last hlast =>
      (tooClose_iff (hends first hfirst last hlast)).2 (hrun.span first hfirst last hlast)⟩

theorem runs_iff {n : Nat} {times : List BlockchainTime} (h : times.Pairwise (· ≤ ·)) :
    Window.Runs messageHistorySize tooClose n times ↔ FastRuns n times := by
  induction n generalizing times with
  | zero => exact Iff.rfl
  | succ n ih =>
    refine exists_congr fun front => exists_congr fun run => exists_congr fun back =>
      and_congr_right fun heq => ?_
    rw [heq, List.append_assoc, List.pairwise_append, List.pairwise_append] at h
    rw [isRun_iff h.2.1.1, ih h.1]

theorem exists_call {times : List BlockchainTime} {now : BlockchainTime}
    (h : times ++ [now] <+: timesOf peer calls) :
    ∃ before call, before ++ [call] <+: calls ∧ Counts peer call ∧ call.now = now ∧
      timesOf peer before = times := by
  induction calls using List.reverseRecOn with
  | nil => exact absurd (List.prefix_nil.1 h) (by simp)
  | append_singleton calls call ih =>
    have hearlier (h : times ++ [now] <+: timesOf peer calls) :
        ∃ before call', before ++ [call'] <+: calls ++ [call] ∧ Counts peer call' ∧
          call'.now = now ∧ timesOf peer before = times := by
      obtain ⟨before, call', hbegin, hcall⟩ := ih h
      exact ⟨before, call', hbegin.trans (List.prefix_append calls [call]), hcall⟩
    by_cases hcounts : Counts peer call
    · rw [timesOf_append, timesOf_of_counts hcounts, List.prefix_concat_iff] at h
      rcases h with hlast | hbefore
      · obtain ⟨htimes, hnow⟩ := List.append_inj' hlast rfl
        exact ⟨calls, call, List.prefix_refl _, hcounts, (List.cons.inj hnow).1.symm, htimes.symm⟩
      · exact hearlier hbefore
    · rw [timesOf_snoc_of_not_counts hcounts] at h
      exact hearlier h

theorem timesOf_isPrefix (peer : PeerId) (h : before <+: calls) :
    timesOf peer before <+: timesOf peer calls := by
  obtain ⟨rest, rfl⟩ := h
  rw [timesOf_append]
  exact List.prefix_append _ _

/-! ## The limit -/

/-- A counter that stays below `2 ^ 32` bans at the fourth violation and at every later one. -/
theorem bans_iff_of_lt
    (h : Window.count messageHistorySize tooClose (timesOf call.peer (before ++ [call])) < 2 ^ 32) :
    Bans before call ↔ Reports before call ∧ 4 ≤ violations call.peer (before ++ [call]) := by
  rw [bans_iff, reports_iff, violations_eq, UInt32.lt_iff_toNat_lt, UInt32.toNat_ofNat',
    Nat.mod_eq_of_lt h]
  exact Iff.rfl

/-- The counter comes round at `2 ^ 32`. -/
theorem not_bans_of_eq
    (h : Window.count messageHistorySize tooClose (timesOf call.peer (before ++ [call])) = 2 ^ 32) :
    ¬ Bans before call := by
  rw [bans_iff, h]
  exact fun hban => absurd hban.2 (by decide)

theorem timesOf_filter (peer : PeerId) (calls : List MonitorCall) :
    timesOf peer (calls.filter fun call => decide (Counts peer call)) = timesOf peer calls := by
  rw [timesOf, List.filter_filter]
  simp only [Bool.and_self]
  rfl

theorem exists_fastRun_of_reports (hclock : ClockRuns calls) (hbegin : before ++ [call] <+: calls)
    (hreports : Reports before call) :
    call.reply = false ∧
      ∃ front run, timesOf call.peer (before ++ [call]) = front ++ run ∧ FastRun run := by
  obtain ⟨hreply, halarm⟩ := reports_iff.1 hreports
  obtain ⟨front, run, hsplit, hrun, -⟩ := halarm.exists_run messageHistorySize_pos
  refine ⟨hreply, front, run, ?_, ?_⟩
  · rw [timesOf_snoc_self hreply, hsplit]
  · have hsorted := (pairwise_timesOf hclock call.peer).sublist
      (timesOf_isPrefix call.peer hbegin).sublist
    rw [timesOf_snoc_self hreply, hsplit, List.pairwise_append] at hsorted
    exact (isRun_iff hsorted.2.1).1 hrun

theorem exists_reports_of_fastRun (hclock : ClockRuns calls)
    {front run back : List BlockchainTime} (hsplit : timesOf peer calls = front ++ run ++ back)
    (hrun : FastRun run) :
    ∃ before call, before ++ [call] <+: calls ∧ Counts peer call ∧ Reports before call ∧
      front.length ≤ (timesOf peer before).length ∧
      (timesOf peer before).length < front.length + run.length := by
  have hsorted := pairwise_timesOf hclock peer
  rw [hsplit, List.append_assoc, List.pairwise_append, List.pairwise_append] at hsorted
  obtain ⟨times, now, hbegin, halarm⟩ := Window.exists_alarms_of_run messageHistorySize_pos
    front ((isRun_iff hsorted.2.1.1).2 hrun)
  have hwhole : front ++ times ++ [now] <+: timesOf peer calls := by
    rw [hsplit, List.append_assoc]
    exact ((List.prefix_append_right_inj front).2 hbegin).trans (List.prefix_append _ back)
  obtain ⟨before, call, hcall, hcounts, rfl, htimes⟩ := exists_call hwhole
  have hlength := hbegin.length_le
  rw [List.length_append, List.length_singleton] at hlength
  refine ⟨before, call, hcall, hcounts, reports_iff.2 ⟨hcounts.2, ?_⟩, ?_, ?_⟩
  · rw [hcounts.1, htimes]
    exact halarm
  · rw [htimes, List.length_append]
    omega
  · rw [htimes, List.length_append]
    omega

/-- Fewer than `2 ^ 32` violations: all is well. -/
theorem limitsRate_of_few (hclock : ClockRuns calls)
    (hfew : ∀ peer, ¬ FastRuns (2 ^ 32) (timesOf peer calls)) : LimitsRate calls where
  sound _ _ hbegin hreports := exists_fastRun_of_reports hclock hbegin hreports
  complete _ _ _ _ hsplit hrun := exists_reports_of_fastRun hclock hsplit hrun
  independent before call _ := by
    rw [reports_iff, reports_iff, bans_iff, bans_iff, RaisesAlarm, RaisesAlarm, timesOf_append,
      timesOf_append, timesOf_filter]
    exact ⟨Iff.rfl, Iff.rfl⟩
  bans before call hbegin := by
    apply bans_iff_of_lt
    have hle : Window.count messageHistorySize tooClose (timesOf call.peer (before ++ [call])) ≤
        Window.count messageHistorySize tooClose (timesOf call.peer calls) :=
      Window.count_le_of_isPrefix (timesOf_isPrefix call.peer hbegin)
    have hcount := hfew call.peer
    rw [← runs_iff (pairwise_timesOf hclock call.peer),
      ← Window.le_count_iff messageHistorySize_pos] at hcount
    omega

/-- At the `2 ^ 32`-th violation the peer is not banned. -/
theorem not_limitsRate_of_many (hclock : ClockRuns calls)
    (hmany : FastRuns (2 ^ 32) (timesOf peer calls)) : ¬ LimitsRate calls := by
  intro h
  rw [← runs_iff (pairwise_timesOf hclock peer), ← Window.le_count_iff messageHistorySize_pos]
    at hmany
  obtain ⟨times, now, hbegin, halarm, hcount⟩ := Window.exists_alarms_of_lt_count
    (show 2 ^ 32 - 1 < Window.count messageHistorySize tooClose (timesOf peer calls) by omega)
  obtain ⟨before, call, hcall, ⟨rfl, hreply⟩, rfl, rfl⟩ := exists_call hbegin
  have hreached : Window.count messageHistorySize tooClose
      (timesOf call.peer (before ++ [call])) = 2 ^ 32 := by
    rw [timesOf_snoc_self hreply, Window.count_of_alarms halarm, hcount]
    rfl
  refine not_bans_of_eq hreached ((h.bans before call hcall).2 ⟨reports_iff.2 ⟨hreply, halarm⟩, ?_⟩)
  rw [violations_eq, hreached]
  decide

/-- **When the rate is limited as it should be**: as long as no peer sends `2 ^ 32` fast runs. -/
theorem limitsRate_iff (calls : List MonitorCall) (hclock : ClockRuns calls) :
    LimitsRate calls ↔ ∀ peer, ¬ FastRuns (2 ^ 32) (timesOf peer calls) :=
  ⟨fun h _ hmany => not_limitsRate_of_many hclock hmany h, limitsRate_of_few hclock⟩

theorem FastRuns.length_le {n : Nat} {times : List BlockchainTime} (h : FastRuns n times) :
    n ≤ times.length := by
  induction n generalizing times with
  | zero => exact Nat.zero_le _
  | succ n ih =>
    obtain ⟨front, run, back, rfl, hrun, hfront⟩ := h
    have hn := ih hfront
    rw [List.length_append, List.length_append, hrun.length]
    omega

theorem length_timesOf_le (peer : PeerId) (calls : List MonitorCall) :
    (timesOf peer calls).length ≤ calls.length := by
  rw [timesOf, List.length_map]
  exact List.length_filter_le _ _

/-- Four fast runs of one peer, then a message of another one and a reply. -/
def fourRuns : List MonitorCall :=
  List.replicate 200 ⟨[1], false, 5⟩ ++ [⟨[2], false, 5⟩, ⟨[1], true, 7⟩]

theorem short_run_limited :
    ClockRuns fourRuns ∧ Reports (List.replicate 49 ⟨[1], false, 5⟩) ⟨[1], false, 5⟩ ∧
      Bans (List.replicate 199 ⟨[1], false, 5⟩) ⟨[1], false, 5⟩ ∧ LimitsRate fourRuns := by
  have hclock : ClockRuns fourRuns := by
    refine List.pairwise_append.2 ⟨List.pairwise_replicate.2 (Or.inr le_rfl), by decide, ?_⟩
    intro call hcall call' hcall'
    rw [List.eq_of_mem_replicate hcall]
    revert call'
    decide
  have hbans : Bans (List.replicate 199 ⟨[1], false, 5⟩) ⟨[1], false, 5⟩ := by
    set_option maxRecDepth 4000 in decide +kernel
  refine ⟨hclock, by decide +kernel, hbans, (limitsRate_iff _ hclock).2 fun peer hmany => ?_⟩
  have hlength := hmany.length_le.trans (length_timesOf_le peer _)
  rw [fourRuns, List.length_append, List.length_replicate] at hlength
  exact absurd hlength (by decide)

theorem fastRuns_replicate (now : BlockchainTime) (n : Nat) :
    FastRuns n (List.replicate (n * 50) now) := by
  induction n with
  | zero => trivial
  | succ n ih =>
    refine ⟨List.replicate (n * 50) now, List.replicate 50 now, [], ?_, ⟨?_, ?_⟩, ih⟩
    · rw [List.append_nil, List.replicate_append_replicate, Nat.succ_mul]
    · exact List.length_replicate
    · intro first hfirst last hlast
      rw [List.eq_of_mem_replicate (List.mem_of_mem_head? hfirst),
        List.eq_of_mem_replicate (List.mem_of_getLast? hlast), Nat.sub_self]
      decide

theorem timesOf_replicate (peer : PeerId) (now : BlockchainTime) (n : Nat) :
    timesOf peer (List.replicate n ⟨peer, false, now⟩) = List.replicate n now := by
  induction n with
  | zero => rfl
  | succ n ih =>
    have hcounts : Counts peer ⟨peer, false, now⟩ := ⟨rfl, rfl⟩
    rw [List.replicate_succ', timesOf_append, ih, timesOf_of_counts hcounts, List.replicate_succ']

/-- A peer that goes on for `2 ^ 32` violations is not banned at the last one. -/
theorem violations_wrap :
    ClockRuns (List.replicate (2 ^ 32 * 50) ⟨[1], false, 0⟩) ∧
      ¬ LimitsRate (List.replicate (2 ^ 32 * 50) ⟨[1], false, 0⟩) := by
  have hclock : ClockRuns (List.replicate (2 ^ 32 * 50) ⟨[1], false, 0⟩) :=
    List.pairwise_replicate.2 (Or.inr (le_refl _))
  refine ⟨hclock, @not_limitsRate_of_many _ [1] hclock ?_⟩
  rw [timesOf_replicate]
  exact fastRuns_replicate 0 (2 ^ 32)

end PeersMonitor

end SwabianCoin
