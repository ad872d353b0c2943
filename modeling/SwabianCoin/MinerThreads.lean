import SwabianCoin.DataValue
import SwabianCoin.Lib.Run

/-!
# The threads of the miner

`MinerLocal` with its workers, its statistics thread and the queue that the found values go into.
`start`, `stop` and `changeNumWorkerThreads` are taken apart at the places where they wait: `stop`
joins one thread after the other, `start` makes one worker after the other. In between, the workers
go on, each one round at a time, and look at `running_` only at the beginning of a round.

That one call is made at a time is an assumption. The manager makes its calls under
`mtx_control_miner_`, but the user interface changes the number of workers without it.

The joined threads stay in `workers_`; joining them once more throws, which is ignored.
-/

namespace SwabianCoin

/-! ## The machine -/

/-- Where a worker is. -/
inductive Worker where
  | created
  /-- Before `running_` is looked at. The text is what all its data values begin with. -/
  | loop (beginning : Bytes) (value : MiningCounter)
  /-- In the body of the loop. -/
  | round (beginning : Bytes) (value : MiningCounter)
  | finished
  deriving DecidableEq

/-- What follows on `stop`. -/
inductive AfterStop where
  | leave
  | start (arguments : MinerLocal)
  | change (numWorkerThreads : UInt32)
  deriving DecidableEq

/-- Where the call to the miner is. -/
inductive MinerControl where
  | idle
  /-- Joining the statistics thread. -/
  | joinStats (next : AfterStop)
  /-- Joining the worker with this number. -/
  | join (number : Nat) (next : AfterStop)
  /-- `start`, before it sets the variables; with a function to call back, or with an empty one. -/
  | set (arguments : MinerLocal) (foundValueCallback : Bool)
  /-- Making the worker with this number. -/
  | create (number : Nat)
  | createStats
  deriving DecidableEq

/-- Where the statistics thread is. -/
inductive StatsThread where
  | ended
  | begun
  /-- With the number of checks it has seen last. -/
  | counting (lastStatsCheckCounter : UInt64)
  deriving DecidableEq

/-- The miner, its threads and the queue of the manager. -/
structure MinerThreads where
  /-- What `start` has set. -/
  miner : MinerLocal := ⟨0, ⟨[]⟩, 0, 0, 0⟩
  /-- Whether `found_value_callback_` has been set. -/
  foundValueCallback : Bool := false
  running : Bool := false
  numWorkerThreads : UInt32
  workers : List Worker := []
  statsThread : StatsThread := .ended
  statsCheckCounter : UInt64 := 0
  statsCheckCounterPerSec : UInt64 := 0
  control : MinerControl := .idle
  /-- The queue of the manager. -/
  foundHashQueue : List Bytes := []
  /-- A call of an empty function ends the process. -/
  terminated : Bool := false

inductive MinerEvent where
  | start (previousEpochHighestHash : Hash) (ownerPublicKey : PublicKeyPEM) (epoch : Epoch)
  | stop
  | changeNumWorkerThreads (numWorkerThreads : UInt32)
  /-- The call goes on. -/
  | control
  /-- A worker goes on. The number is drawn when it begins. -/
  | work (number : Nat) (randomValue : UInt32)
  | stats
  /-- The manager empties the queue or takes a value from it. -/
  | clearFoundHashQueue
  | popFoundHash

/-- What the body of the loop of `miningThread` calls back with. -/
def findValue (sha : Sha256) (miner : MinerLocal) (beginning : Bytes) (value : MiningCounter) :
    Option (Epoch × Bytes) :=
  let common := sha.update sha.init beginning
  let cycle := sha.update common (MinerLocal.payload value)
  let hash := hashFromArray (sha.final cycle)
  if miner.minAllowedValue ≤ hash ∧ hash ≤ miner.maxAllowedValue then
    some (miner.epoch, beginning ++ MinerLocal.payload value)
  else none

namespace MinerThreads

variable (sha : Sha256) (s : MinerThreads)

/-- The beginning of `stop`. -/
def beginStop (next : AfterStop) : MinerThreads :=
  { s with running := false, control := .joinStats next }

/-- The call that is made, unless another one is under way. -/
def call (event : MinerEvent) : MinerThreads :=
  match s.control, event with
  | .idle, .start previousEpochHighestHash ownerPublicKey epoch =>
    let arguments := MinerLocal.start previousEpochHighestHash ownerPublicKey epoch
    if s.running then s.beginStop (.start arguments)
    else { s with control := .set arguments true }
  | .idle, .stop => s.beginStop .leave
  | .idle, .changeNumWorkerThreads numWorkerThreads => s.beginStop (.change numWorkerThreads)
  | _, _ => s

/-- What comes after the last join. -/
def afterStop : AfterStop → MinerThreads
  | .leave => { s with control := .idle }
  | .start arguments => { s with control := .set arguments true }
  | .change numWorkerThreads =>
    { s with
      numWorkerThreads
      control := .set (MinerLocal.start s.miner.previousEpochHighestHash s.miner.ownerPublicKey
        s.miner.epoch) s.foundValueCallback }

/-- A step of the call that is under way. -/
def goOn : MinerThreads :=
  match s.control with
  | .idle => s
  | .joinStats next => if s.statsThread = .ended then { s with control := .join 0 next } else s
  | .join number next =>
    match s.workers[number]? with
    | none => s.afterStop next
    | some .finished => { s with control := .join (number + 1) next }
    | some _ => s
  | .set arguments foundValueCallback =>
    { s with
      miner := arguments
      foundValueCallback
      statsCheckCounter := 0
      statsCheckCounterPerSec := 0
      running := true
      control := .create 0 }
  | .create number =>
    if number < s.numWorkerThreads.toNat then
      { s with workers := s.workers ++ [.created], control := .create (number + 1) }
    else { s with control := .createStats }
  | .createStats =>
    { s with statsThread := .begun, control := .idle }

/-- The call of `found_value_callback_` in a step of a worker. -/
def found (number : Nat) : Option (Epoch × Bytes) :=
  match s.workers[number]? with
  | some (.round beginning value) => findValue sha s.miner beginning value
  | _ => none

/-- A step of a worker. -/
def nextWorker (randomValue : UInt32) : Worker → Worker
  | .created => .loop (s.miner.dataValuePrefix randomValue) 0
  | .loop beginning value => if s.running then .round beginning value else .finished
  | .round beginning value => .loop beginning (value + 1)
  | .finished => .finished

def work (number : Nat) (randomValue : UInt32) : MinerThreads :=
  match s.workers[number]? with
  | none => s
  | some worker =>
    let s' := { s with
      workers := s.workers.set number (s.nextWorker randomValue worker)
      statsCheckCounter := match worker with
        | .round _ _ => s.statsCheckCounter + 1
        | _ => s.statsCheckCounter }
    match s.found sha number with
    | none => s'
    | some call =>
      if s.foundValueCallback then { s' with foundHashQueue := s.foundHashQueue ++ [call.2] }
      else { s' with terminated := true }

/-- A round of the statistics thread, which takes a second, or its end. -/
def stats : MinerThreads :=
  match s.statsThread with
  | .ended => s
  | .begun => { s with statsThread := .counting s.statsCheckCounter }
  | .counting last =>
    if s.running then
      { s with
        statsCheckCounterPerSec :=
          if s.statsCheckCounter < last then 0 else (s.statsCheckCounter - last) * 1000 / 1000
        statsThread := .counting s.statsCheckCounter }
    else { s with statsCheckCounterPerSec := 0, statsThread := .ended }

def step (event : MinerEvent) : MinerThreads :=
  match event with
  | .control => s.goOn
  | .work number randomValue => s.work sha number randomValue
  | .stats => s.stats
  | .clearFoundHashQueue => { s with foundHashQueue := [] }
  | .popFoundHash => { s with foundHashQueue := s.foundHashQueue.tail }
  | event => s.call event

/-- The number of workers that have not come to their end. -/
def numUnfinished : Nat := s.workers.countP fun worker => worker ≠ .finished

/-! ## The invariant -/

variable {sha s}

/-- What is so at each place of a call. -/
def ControlOk (s : MinerThreads) : MinerControl → Prop
  | .idle =>
    (s.running = true → s.numUnfinished = s.numWorkerThreads.toNat) ∧
      (s.running = false → s.statsThread = .ended ∧ ∀ worker ∈ s.workers, worker = .finished)
  | .joinStats _ => s.running = false
  | .join number _ =>
    s.running = false ∧ s.statsThread = .ended ∧
      ∀ worker ∈ s.workers.take number, worker = .finished
  | .set _ _ =>
    s.running = false ∧ s.statsThread = .ended ∧ ∀ worker ∈ s.workers, worker = .finished
  | .create number =>
    s.running = true ∧ s.statsThread = .ended ∧ s.numUnfinished = number ∧
      number ≤ s.numWorkerThreads.toNat
  | .createStats =>
    s.running = true ∧ s.statsThread = .ended ∧ s.numUnfinished = s.numWorkerThreads.toNat

/-- The threads are where the call needs them. -/
structure Inv (s : MinerThreads) : Prop where
  control : s.ControlOk s.control
  /-- Every worker works with what `start` has set last. -/
  beginnings : ∀ beginning value, .loop beginning value ∈ s.workers ∨
    .round beginning value ∈ s.workers → ∃ randomValue,
      beginning = s.miner.dataValuePrefix randomValue
  perSec : s.statsThread = .ended → s.statsCheckCounterPerSec = 0

theorem numUnfinished_eq_zero (h : ∀ worker ∈ s.workers, worker = .finished) :
    s.numUnfinished = 0 := by
  refine List.countP_eq_zero.2 fun worker hmem => ?_
  simp [h worker hmem]

theorem inv_new (numWorkerThreads : UInt32) : Inv { numWorkerThreads } where
  control := ⟨(fun h => by cases h), fun _ => ⟨rfl, fun worker h => absurd h List.not_mem_nil⟩⟩
  beginnings _ _ h := by rcases h with h | h <;> exact absurd h List.not_mem_nil
  perSec _ := rfl

theorem Inv.call (h : s.Inv) (event : MinerEvent) : (s.call event).Inv := by
  unfold MinerThreads.call
  split
  · next previousEpochHighestHash ownerPublicKey epoch hidle =>
    have hcontrol := h.control
    rw [hidle] at hcontrol
    dsimp only
    split_ifs with hrunning
    · exact ⟨rfl, h.beginnings, h.perSec⟩
    · have hstopped : s.running = false := by simpa using hrunning
      exact ⟨⟨hstopped, hcontrol.2 hstopped⟩, h.beginnings, h.perSec⟩
  · exact ⟨rfl, h.beginnings, h.perSec⟩
  · exact ⟨rfl, h.beginnings, h.perSec⟩
  · exact h

theorem Inv.afterStop (h : s.Inv) (next : AfterStop) (hrunning : s.running = false)
    (hstats : s.statsThread = .ended) (hworkers : ∀ worker ∈ s.workers, worker = .finished) :
    (s.afterStop next).Inv := by
  cases next with
  | leave =>
    refine ⟨⟨fun htrue => ?_, fun _ => ⟨hstats, hworkers⟩⟩, h.beginnings, h.perSec⟩
    exact absurd (hrunning.symm.trans htrue) (by simp)
  | start arguments => exact ⟨⟨hrunning, hstats, hworkers⟩, h.beginnings, h.perSec⟩
  | change numWorkerThreads => exact ⟨⟨hrunning, hstats, hworkers⟩, h.beginnings, h.perSec⟩

theorem Inv.goOn (h : s.Inv) : s.goOn.Inv := by
  have hcontrol := h.control
  unfold MinerThreads.goOn
  split
  · exact h
  · next next hjoin =>
    rw [hjoin] at hcontrol
    split_ifs with hended
    · exact ⟨⟨hcontrol, hended, fun worker hmem => absurd hmem List.not_mem_nil⟩, h.beginnings,
        h.perSec⟩
    · exact h
  · next number next hjoin =>
    rw [hjoin] at hcontrol
    obtain ⟨hrunning, hstats, hfinished⟩ := hcontrol
    split
    · next hnone =>
      -- Past the last worker, all have been joined.
      have hall : s.workers.take number = s.workers :=
        List.take_of_length_le (List.getElem?_eq_none_iff.1 hnone)
      rw [hall] at hfinished
      exact h.afterStop next hrunning hstats hfinished
    · next hsome =>
      refine ⟨⟨hrunning, hstats, fun worker hmem => ?_⟩, h.beginnings, h.perSec⟩
      rw [List.take_add_one, hsome, Option.toList_some, List.mem_append, List.mem_singleton]
        at hmem
      exact hmem.elim (hfinished worker) id
    · exact h
  · next arguments callback hset =>
    rw [hset] at hcontrol
    obtain ⟨-, hstats, hfinished⟩ := hcontrol
    refine ⟨⟨rfl, hstats, numUnfinished_eq_zero hfinished, Nat.zero_le _⟩,
      fun beginning value hmem => ?_, fun _ => rfl⟩
    -- No worker is left that has a beginning of before.
    rcases hmem with hmem | hmem <;> cases hfinished _ hmem
  · next number hcreate =>
    rw [hcreate] at hcontrol
    obtain ⟨hrunning, hstats, hnumber, hle⟩ := hcontrol
    split_ifs with hlt
    · refine ⟨⟨hrunning, hstats, ?_, hlt⟩, fun beginning value hmem => ?_, h.perSec⟩
      · unfold numUnfinished at hnumber ⊢
        rw [List.countP_append, hnumber]
        rfl
      · refine h.beginnings beginning value (hmem.imp (fun hmem => ?_) fun hmem => ?_) <;>
          simpa using hmem
    · have hall : number = s.numWorkerThreads.toNat := by omega
      exact ⟨⟨hrunning, hstats, hnumber.trans hall⟩, h.beginnings, h.perSec⟩
  · next hcreate =>
    rw [hcreate] at hcontrol
    obtain ⟨hrunning, hstats, hnumber⟩ := hcontrol
    refine ⟨⟨fun _ => hnumber, fun hfalse => ?_⟩, h.beginnings, fun hended => by cases hended⟩
    exact absurd (hrunning.symm.trans hfalse) (by simp)

/-- A worker goes on with what `start` has set, and the rest stays. -/
theorem work_eq (sha : Sha256) (number : Nat) (randomValue : UInt32) {worker : Worker}
    (hworker : s.workers[number]? = some worker) :
    ∃ statsCheckCounter foundHashQueue terminated, s.work sha number randomValue =
      { s with
        workers := s.workers.set number (s.nextWorker randomValue worker)
        statsCheckCounter
        foundHashQueue
        terminated } := by
  unfold work
  rw [hworker]
  dsimp only
  split
  · exact ⟨_, _, _, rfl⟩
  · split_ifs <;> exact ⟨_, _, _, rfl⟩

/-- Only a worker that sees that it should stop comes to its end. -/
theorem nextWorker_eq_finished (hrunning : s.running = true) (randomValue : UInt32)
    (worker : Worker) : s.nextWorker randomValue worker = .finished ↔ worker = .finished := by
  cases worker <;> simp [nextWorker, hrunning]

theorem numUnfinished_set (hrunning : s.running = true) {number : Nat} {worker : Worker}
    (hworker : s.workers[number]? = some worker) (randomValue : UInt32) :
    (s.workers.set number (s.nextWorker randomValue worker)).countP
      (fun worker => worker ≠ .finished) = s.numUnfinished := by
  obtain ⟨hlt, rfl⟩ := List.getElem?_eq_some_iff.1 hworker
  have hsame : (s.workers.set number (s.nextWorker randomValue s.workers[number])).map
      (fun worker => decide (worker ≠ .finished)) =
      s.workers.map fun worker => decide (worker ≠ .finished) := by
    rw [List.map_set]
    have hdecide : decide (s.nextWorker randomValue s.workers[number] ≠ .finished) =
        decide (s.workers[number] ≠ .finished) :=
      decide_eq_decide.2 (not_congr (nextWorker_eq_finished hrunning randomValue _))
    rw [hdecide]
    exact List.ext_getElem (by simp) fun i _ _ => by
      by_cases hi : number = i
      · subst hi
        simp
      · simp [List.getElem_set_ne hi]
  have hcount := congrArg (List.countP id) hsame
  rw [List.countP_map, List.countP_map] at hcount
  exact hcount

theorem finished_set {number : Nat} {worker : Worker}
    (hworker : s.workers[number]? = some worker) (randomValue : UInt32) (count : Nat)
    (h : ∀ other ∈ s.workers.take count, other = .finished) :
    ∀ other ∈ (s.workers.set number (s.nextWorker randomValue worker)).take count,
      other = .finished := by
  rcases Nat.lt_or_ge number count with hlt | hle
  · have hmem : worker ∈ s.workers.take count := by
      refine List.mem_of_getElem? (i := number) ?_
      rw [List.getElem?_take_of_lt hlt, hworker]
    intro other hother
    rw [List.take_set] at hother
    rcases List.mem_or_eq_of_mem_set hother with hold | hnew
    · exact h other hold
    · rw [hnew, h worker hmem, nextWorker]
  · rw [List.take_set_of_le hle]
    exact h

theorem Inv.controlOk_work (h : s.Inv) {number : Nat} {worker : Worker}
    (hworker : s.workers[number]? = some worker) (randomValue : UInt32) :
    ControlOk { s with workers := s.workers.set number (s.nextWorker randomValue worker) }
      s.control := by
  have hfinished := finished_set hworker randomValue s.workers.length
  rw [List.take_length, List.take_of_length_le (by rw [List.length_set])] at hfinished
  have hcount := fun hrunning => numUnfinished_set hrunning hworker randomValue
  have hcontrol := h.control
  cases hplace : s.control with
  | idle =>
    rw [hplace] at hcontrol
    refine ⟨fun hrunning => (hcount hrunning).trans (hcontrol.1 hrunning), fun hstopped => ?_⟩
    exact ⟨(hcontrol.2 hstopped).1, hfinished (hcontrol.2 hstopped).2⟩
  | joinStats next =>
    rw [hplace] at hcontrol
    exact hcontrol
  | join place next =>
    rw [hplace] at hcontrol
    exact ⟨hcontrol.1, hcontrol.2.1, finished_set hworker randomValue place hcontrol.2.2⟩
  | set arguments callback =>
    rw [hplace] at hcontrol
    exact ⟨hcontrol.1, hcontrol.2.1, hfinished hcontrol.2.2⟩
  | create place =>
    rw [hplace] at hcontrol
    exact ⟨hcontrol.1, hcontrol.2.1, (hcount hcontrol.1).trans hcontrol.2.2.1, hcontrol.2.2.2⟩
  | createStats =>
    rw [hplace] at hcontrol
    exact ⟨hcontrol.1, hcontrol.2.1, (hcount hcontrol.1).trans hcontrol.2.2⟩

/-- What is new about a worker that has just begun is its beginning. -/
theorem Inv.beginning_nextWorker (h : s.Inv) {worker : Worker} (hmem : worker ∈ s.workers)
    {randomValue : UInt32} {beginning : Bytes} {value : MiningCounter}
    (hnext : .loop beginning value = s.nextWorker randomValue worker ∨
      .round beginning value = s.nextWorker randomValue worker) :
    ∃ randomValue, beginning = s.miner.dataValuePrefix randomValue := by
  cases worker with
  | created =>
    simp only [nextWorker, Worker.loop.injEq, reduceCtorEq, or_false] at hnext
    exact ⟨randomValue, hnext.1⟩
  | loop first count =>
    obtain ⟨drawn, hdrawn⟩ := h.beginnings first count (Or.inl hmem)
    unfold nextWorker at hnext
    -- Whether it is still to run does not matter to its beginning.
    split_ifs at hnext <;> simp at hnext
    exact ⟨drawn, hnext.1.trans hdrawn⟩
  | round first count =>
    obtain ⟨drawn, hdrawn⟩ := h.beginnings first count (Or.inr hmem)
    simp only [nextWorker, Worker.loop.injEq, reduceCtorEq, or_false] at hnext
    exact ⟨drawn, hnext.1.trans hdrawn⟩
  | finished => simp [nextWorker] at hnext

theorem Inv.work (h : s.Inv) (number : Nat) (randomValue : UInt32) :
    (s.work sha number randomValue).Inv := by
  cases hworker : s.workers[number]? with
  | none =>
    unfold MinerThreads.work
    rw [hworker]
    exact h
  | some worker =>
    obtain ⟨counter, queue, terminated, heq⟩ := work_eq sha number randomValue hworker
    have hold := List.mem_of_getElem? hworker
    rw [heq]
    refine ⟨?_, fun beginning value hmem => ?_, h.perSec⟩
    · have hcontrol := h.controlOk_work hworker randomValue
      cases hplace : s.control <;> rw [hplace] at hcontrol <;> exact hcontrol
    · rcases hmem with hmem | hmem <;>
        rcases List.mem_or_eq_of_mem_set hmem with hmem | hnext
      · exact h.beginnings beginning value (Or.inl hmem)
      · exact h.beginning_nextWorker hold (Or.inl hnext)
      · exact h.beginnings beginning value (Or.inr hmem)
      · exact h.beginning_nextWorker hold (Or.inr hnext)

theorem Inv.stats (h : s.Inv) : s.stats.Inv := by
  have hcontrol := h.control
  have hother : ∀ statsThread perSec, statsThread ≠ .ended → s.statsThread ≠ .ended →
      Inv { s with statsThread, statsCheckCounterPerSec := perSec } := by
    intro statsThread perSec hnew hold
    refine ⟨?_, h.beginnings, fun hended => absurd hended hnew⟩
    dsimp only
    cases hplace : s.control <;> rw [hplace] at hcontrol
    · exact ⟨hcontrol.1, fun hstopped => absurd (hcontrol.2 hstopped).1 hold⟩
    · exact hcontrol
    · exact absurd hcontrol.2.1 hold
    · exact absurd hcontrol.2.1 hold
    · exact absurd hcontrol.2.1 hold
    · exact absurd hcontrol.2.1 hold
  unfold MinerThreads.stats
  split
  · exact h
  · next hbegun => exact hother _ _ (by simp) (by simp [hbegun])
  · next last hcounting =>
    have hold : s.statsThread ≠ .ended := by simp [hcounting]
    by_cases hrunning : s.running = true
    · rw [if_pos hrunning]
      exact hother _ _ (by simp) hold
    · rw [if_neg hrunning]
      have hstopped : s.running = false := by simpa using hrunning
      refine ⟨?_, h.beginnings, fun _ => rfl⟩
      dsimp only
      cases hplace : s.control <;> rw [hplace] at hcontrol
      · exact ⟨hcontrol.1, fun _ => ⟨rfl, (hcontrol.2 hstopped).2⟩⟩
      · exact hcontrol
      · exact absurd hcontrol.2.1 hold
      · exact absurd hcontrol.2.1 hold
      · exact absurd hcontrol.2.1 hold
      · exact absurd hcontrol.2.1 hold

theorem Inv.step (h : s.Inv) (event : MinerEvent) : (s.step sha event).Inv := by
  cases event with
  | control => exact h.goOn
  | work number randomValue => exact h.work number randomValue
  | stats => exact h.stats
  | clearFoundHashQueue => exact ⟨h.control, h.beginnings, h.perSec⟩
  | popFoundHash => exact ⟨h.control, h.beginnings, h.perSec⟩
  | start hash owner epoch => exact h.call (.start hash owner epoch)
  | stop => exact h.call .stop
  | changeNumWorkerThreads numWorkerThreads => exact h.call (.changeNumWorkerThreads _)

theorem inv_run (sha : Sha256) (numWorkerThreads : UInt32) (events : List MinerEvent) :
    Run.AllStates (step sha) Inv { numWorkerThreads } events := by
  have hsteps : Run.AllSteps (step sha) (fun _ _ => True) { numWorkerThreads } events :=
    Run.AllSteps.of_forall_mem fun _ _ _ => trivial
  exact Run.AllStates.of_steps (fun _ event h _ => h.step event) (inv_new numWorkerThreads) hsteps

/-! ## Runs -/

/-- What a worker finds it finds with what `start` has set last. -/
theorem Inv.found (h : s.Inv) {number : Nat} {call : Epoch × Bytes}
    (hfound : s.found sha number = some call) :
    ∃ randomValue value, s.miner.mineValue sha randomValue value = some call := by
  unfold MinerThreads.found at hfound
  split at hfound
  · next beginning value hworker =>
    obtain ⟨randomValue, rfl⟩ :=
      h.beginnings beginning value (Or.inr (List.mem_of_getElem? hworker))
    exact ⟨randomValue, value, hfound⟩
  · cases hfound

/-- **The threads of the miner.** In any interleaving of calls and threads: whatever a worker
reports, it has found with what `start` has set last, never with what was set before. When a call
has returned, there are as many workers as there should be if the miner is running; and if it is
not, all threads have come to their end and no checks are counted. -/
theorem workers_current (sha : Sha256) (numWorkerThreads : UInt32) (events : List MinerEvent) :
    Run.AllStates (step sha) (fun t =>
      (∀ number call, t.found sha number = some call →
        ∃ randomValue value, t.miner.mineValue sha randomValue value = some call) ∧
      (t.control = .idle →
        (t.running = true → t.numUnfinished = t.numWorkerThreads.toNat) ∧
        (t.running = false → t.numUnfinished = 0 ∧ t.statsThread = .ended ∧
          t.statsCheckCounterPerSec = 0))) { numWorkerThreads } events := by
  refine (inv_run sha numWorkerThreads events).mono fun t h => ⟨fun _ _ => h.found, fun hidle => ?_⟩
  have hcontrol := h.control
  rw [hidle] at hcontrol
  refine ⟨hcontrol.1, fun hstopped => ?_⟩
  obtain ⟨hended, hfinished⟩ := hcontrol.2 hstopped
  exact ⟨numUnfinished_eq_zero hfinished, hended, h.perSec hended⟩

/-! ## The queue after a restart -/

/-- Calls that let the miner work for nothing else. -/
def WorksFor (arguments : MinerLocal) (s : MinerThreads) : MinerEvent → Prop
  | .start previousEpochHighestHash ownerPublicKey epoch =>
    MinerLocal.start previousEpochHighestHash ownerPublicKey epoch = arguments
  | .changeNumWorkerThreads _ => s.miner = arguments
  | _ => True

/-- What a call is going to start the miner with. -/
def ControlFor (arguments : MinerLocal) (s : MinerThreads) : MinerControl → Prop
  | .joinStats (.start others) => others = arguments
  | .joinStats (.change _) => s.miner = arguments
  | .join _ (.start others) => others = arguments
  | .join _ (.change _) => s.miner = arguments
  | .set others _ => others = arguments
  | _ => True

/-- Everything that is started, or going to be, is started with the arguments, and what is in the
queue was found with them. -/
structure Renewed (sha : Sha256) (arguments : MinerLocal) (s : MinerThreads) : Prop where
  miner : s.miner = arguments ∨ s.running = false ∧ ∀ worker ∈ s.workers, worker = .finished
  control : s.ControlFor arguments s.control
  queue : ∀ value ∈ s.foundHashQueue, ∃ randomValue counter,
    arguments.mineValue sha randomValue counter = some (arguments.epoch, value)

section Renewed

variable {arguments : MinerLocal}

theorem Renewed.goOn (h : Renewed sha arguments s) (hinv : s.Inv) (hstart : MinerLocal.start
      arguments.previousEpochHighestHash arguments.ownerPublicKey arguments.epoch = arguments) :
    Renewed sha arguments s.goOn := by
  have hcontrol := hinv.control
  have hnext := h.control
  unfold MinerThreads.goOn
  split
  · exact h
  · next next hjoin =>
    rw [hjoin] at hnext
    split_ifs
    · exact ⟨h.miner, by cases next <;> exact hnext, h.queue⟩
    · exact h
  · next number next hjoin =>
    rw [hjoin] at hnext
    split
    · cases next with
      | leave => exact ⟨h.miner, trivial, h.queue⟩
      | start others => exact ⟨h.miner, hnext, h.queue⟩
      | change numWorkerThreads =>
        have hminer : s.miner = arguments := hnext
        refine ⟨h.miner, ?_, h.queue⟩
        show MinerLocal.start s.miner.previousEpochHighestHash s.miner.ownerPublicKey
          s.miner.epoch = arguments
        rw [hminer, hstart]
    · exact ⟨h.miner, by cases next <;> exact hnext, h.queue⟩
    · exact h
  · next others callback hset =>
    rw [hset] at hnext
    exact ⟨Or.inl hnext, trivial, h.queue⟩
  · next number hcreate =>
    rw [hcreate] at hcontrol
    have hminer : s.miner = arguments :=
      h.miner.resolve_right fun hstopped => by simp [hcontrol.1] at hstopped
    split_ifs <;> exact ⟨Or.inl hminer, trivial, h.queue⟩
  · exact ⟨h.miner, trivial, h.queue⟩

theorem Renewed.call (h : Renewed sha arguments s) (event : MinerEvent)
    (hworks : WorksFor arguments s event) : Renewed sha arguments (s.call event) := by
  have hstops : ∀ next, ControlFor arguments s (.joinStats next) →
      Renewed sha arguments (s.beginStop next) := by
    intro next hnext
    refine ⟨h.miner.imp id fun hstopped => ⟨rfl, hstopped.2⟩, ?_, h.queue⟩
    cases next <;> exact hnext
  unfold MinerThreads.call
  split
  · dsimp only
    split_ifs
    · exact hstops _ hworks
    · exact ⟨h.miner, hworks, h.queue⟩
  · exact hstops _ trivial
  · exact hstops _ hworks
  · exact h

theorem fst_of_mineValue {randomValue : UInt32} {value : MiningCounter} {call : Epoch × Bytes}
    (h : arguments.mineValue sha randomValue value = some call) :
    call = (arguments.epoch, call.2) := by
  unfold MinerLocal.mineValue at h
  dsimp only at h
  split_ifs at h
  cases h
  rfl

theorem Renewed.work (h : Renewed sha arguments s) (hinv : s.Inv) (number : Nat)
    (randomValue : UInt32) : Renewed sha arguments (s.work sha number randomValue) := by
  cases hworker : s.workers[number]? with
  | none =>
    unfold MinerThreads.work
    rw [hworker]
    exact h
  | some worker =>
    have hqueue : ∀ call, s.found sha number = some call → ∃ randomValue counter,
        arguments.mineValue sha randomValue counter = some (arguments.epoch, call.2) := by
      intro call hfound
      obtain ⟨drawn, counter, hvalue⟩ := hinv.found hfound
      rcases h.miner with hminer | ⟨-, hfinished⟩
      · rw [hminer] at hvalue
        exact ⟨drawn, counter, fst_of_mineValue hvalue ▸ hvalue⟩
      · -- There is nobody who could have found it.
        simp [MinerThreads.found, hworker, hfinished worker (List.mem_of_getElem? hworker)]
          at hfound
    have hpushed : ∀ value ∈ (s.work sha number randomValue).foundHashQueue, ∃ randomValue counter,
        arguments.mineValue sha randomValue counter = some (arguments.epoch, value) := by
      intro value hmem
      unfold MinerThreads.work at hmem
      rw [hworker] at hmem
      dsimp only at hmem
      split at hmem
      · exact h.queue value hmem
      · next call hfound =>
        split_ifs at hmem
        · rcases List.mem_append.1 hmem with hmem | hmem
          · exact h.queue value hmem
          · rw [List.mem_singleton.1 hmem]
            exact hqueue call hfound
        · exact h.queue value hmem
    obtain ⟨counter, queue, terminated, heq⟩ := work_eq sha number randomValue hworker
    have hfinished := finished_set hworker randomValue s.workers.length
    rw [List.take_length, List.take_of_length_le (by rw [List.length_set])] at hfinished
    rw [heq] at hpushed ⊢
    exact ⟨h.miner.imp id fun hstopped => ⟨hstopped.1, hfinished hstopped.2⟩, h.control, hpushed⟩

theorem Renewed.stats (h : Renewed sha arguments s) : Renewed sha arguments s.stats := by
  unfold MinerThreads.stats
  split
  · exact h
  · exact ⟨h.miner, h.control, h.queue⟩
  · split_ifs <;> exact ⟨h.miner, h.control, h.queue⟩

theorem Renewed.step (h : Renewed sha arguments s) (hinv : s.Inv) (hstart : MinerLocal.start
      arguments.previousEpochHighestHash arguments.ownerPublicKey arguments.epoch = arguments)
    (event : MinerEvent) (hworks : WorksFor arguments s event) :
    Renewed sha arguments (s.step sha event) := by
  cases event with
  | control => exact h.goOn hinv hstart
  | work number randomValue => exact h.work hinv number randomValue
  | stats => exact h.stats
  | clearFoundHashQueue =>
    exact ⟨h.miner, h.control, fun value hmem => absurd hmem List.not_mem_nil⟩
  | popFoundHash =>
    exact ⟨h.miner, h.control, fun value hmem => h.queue value (List.mem_of_mem_tail hmem)⟩
  | start hash owner epoch => exact h.call (.start hash owner epoch) hworks
  | stop => exact h.call .stop trivial
  | changeNumWorkerThreads numWorkerThreads => exact h.call (.changeNumWorkerThreads _) hworks

end Renewed

/-- **A new epoch.** The manager stops the miner, empties the queue and starts the miner anew. From
then on, as long as the miner is started with the same arguments only, every value in the queue was
found with these arguments: no worker of before can put one there after the queue was emptied. -/
theorem queue_after_restart (sha : Sha256) (numWorkerThreads : UInt32)
    (before after : List MinerEvent) (previousEpochHighestHash : Hash)
    (ownerPublicKey : PublicKeyPEM) (epoch : Epoch)
    (hidle : (Run.exec (step sha) { numWorkerThreads } before).control = .idle)
    (hstopped : (Run.exec (step sha) { numWorkerThreads } before).running = false)
    (hworks : Run.AllSteps (step sha)
      (WorksFor (MinerLocal.start previousEpochHighestHash ownerPublicKey epoch))
      ((Run.exec (step sha) { numWorkerThreads } before).step sha .clearFoundHashQueue) after) :
    Run.AllStates (step sha) (fun t => ∀ value ∈ t.foundHashQueue, ∃ randomValue counter,
        (MinerLocal.start previousEpochHighestHash ownerPublicKey epoch).mineValue sha randomValue
          counter = some (epoch, value))
      ((Run.exec (step sha) { numWorkerThreads } before).step sha .clearFoundHashQueue) after := by
  have hinv : (Run.exec (step sha) { numWorkerThreads } before).Inv :=
    (inv_run sha numWorkerThreads before).last
  have hcontrol := hinv.control
  rw [hidle] at hcontrol
  have hrenewed : Renewed sha (MinerLocal.start previousEpochHighestHash ownerPublicKey epoch)
      ((Run.exec (step sha) { numWorkerThreads } before).step sha .clearFoundHashQueue) := by
    refine ⟨Or.inr ⟨hstopped, (hcontrol.2 hstopped).2⟩, ?_,
      fun value hmem => absurd hmem List.not_mem_nil⟩
    rw [show (MinerThreads.step sha _ .clearFoundHashQueue).control = _ from hidle]
    trivial
  have hstates : Run.AllStates (step sha) (fun t => t.Inv ∧
      Renewed sha (MinerLocal.start previousEpochHighestHash ownerPublicKey epoch) t)
      ((Run.exec (step sha) { numWorkerThreads } before).step sha .clearFoundHashQueue) after :=
    Run.AllStates.of_steps
      (fun t event ht hevent => ⟨ht.1.step event, ht.2.step ht.1 rfl event hevent⟩)
      ⟨hinv.step .clearFoundHashQueue, hrenewed⟩ hworks
  exact hstates.mono fun t ht => ht.2.queue

/-! ## The function to call back -/

/-- Where a call has come to, there is a function to call back, or there will be one. -/
def ControlCallsBack (s : MinerThreads) : MinerControl → Prop
  | .set _ callback => callback = true
  | .joinStats (.change _) => s.foundValueCallback = true
  | .join _ (.change _) => s.foundValueCallback = true
  | .create _ => s.foundValueCallback = true
  | .createStats => s.foundValueCallback = true
  | _ => True

/-- There are no workers without a function to call back. -/
structure CallsBack (s : MinerThreads) : Prop where
  workers : s.foundValueCallback = true ∨ s.workers = []
  control : s.ControlCallsBack s.control
  terminated : s.terminated = false

theorem CallsBack.goOn (h : s.CallsBack) : s.goOn.CallsBack := by
  have hcontrol := h.control
  unfold MinerThreads.goOn
  split
  · exact h
  · next next hjoin =>
    rw [hjoin] at hcontrol
    split_ifs
    · exact ⟨h.workers, by cases next <;> exact hcontrol, h.terminated⟩
    · exact h
  · next number next hjoin =>
    rw [hjoin] at hcontrol
    split
    · cases next with
      | leave => exact ⟨h.workers, trivial, h.terminated⟩
      | start others => exact ⟨h.workers, rfl, h.terminated⟩
      | change numWorkerThreads => exact ⟨h.workers, hcontrol, h.terminated⟩
    · exact ⟨h.workers, by cases next <;> exact hcontrol, h.terminated⟩
    · exact h
  · next others callback hset =>
    rw [hset] at hcontrol
    exact ⟨Or.inl hcontrol, hcontrol, h.terminated⟩
  · next number hcreate =>
    rw [hcreate] at hcontrol
    split_ifs
    · exact ⟨Or.inl hcontrol, hcontrol, h.terminated⟩
    · exact ⟨h.workers, hcontrol, h.terminated⟩
  · exact ⟨h.workers, trivial, h.terminated⟩

theorem CallsBack.call (h : s.CallsBack) (event : MinerEvent)
    (hchange : ∀ numWorkerThreads, event = .changeNumWorkerThreads numWorkerThreads →
      s.foundValueCallback = true) : (s.call event).CallsBack := by
  unfold MinerThreads.call
  split
  · dsimp only
    split_ifs
    · exact ⟨h.workers, trivial, h.terminated⟩
    · exact ⟨h.workers, rfl, h.terminated⟩
  · exact ⟨h.workers, trivial, h.terminated⟩
  · next numWorkerThreads _ => exact ⟨h.workers, hchange numWorkerThreads rfl, h.terminated⟩
  · exact h

theorem CallsBack.work (h : s.CallsBack) (number : Nat) (randomValue : UInt32) :
    (s.work sha number randomValue).CallsBack := by
  unfold MinerThreads.work
  split
  · exact h
  · next worker hworker =>
    have hcallback : s.foundValueCallback = true := by
      refine h.workers.resolve_right fun hnone => ?_
      simp [hnone] at hworker
    dsimp only
    split
    · exact ⟨Or.inl hcallback, h.control, h.terminated⟩
    · rw [if_pos hcallback]
      exact ⟨Or.inl hcallback, h.control, h.terminated⟩

theorem CallsBack.stats (h : s.CallsBack) : s.stats.CallsBack := by
  unfold MinerThreads.stats
  split
  · exact h
  · exact ⟨h.workers, h.control, h.terminated⟩
  · split_ifs <;> exact ⟨h.workers, h.control, h.terminated⟩

/-- **No empty function is called.** If the number of workers is changed only after the miner was
started for the first time, no worker ever ends the process by calling an empty function. -/
theorem never_terminated (sha : Sha256) (numWorkerThreads : UInt32) (events : List MinerEvent)
    (hchanges : Run.AllSteps (step sha) (fun t event => ∀ number,
      event = .changeNumWorkerThreads number → t.foundValueCallback = true)
      { numWorkerThreads } events) :
    Run.AllStates (step sha) (fun t => t.terminated = false) { numWorkerThreads } events := by
  have hstates : Run.AllStates (step sha) CallsBack { numWorkerThreads } events := by
    refine Run.AllStates.of_steps (fun t event ht hevent => ?_) ⟨Or.inr rfl, trivial, rfl⟩ hchanges
    cases event with
    | control => exact ht.goOn
    | work number randomValue => exact ht.work number randomValue
    | stats => exact ht.stats
    | clearFoundHashQueue => exact ⟨ht.workers, ht.control, ht.terminated⟩
    | popFoundHash => exact ⟨ht.workers, ht.control, ht.terminated⟩
    | start hash owner epoch => exact ht.call (.start hash owner epoch) fun _ heq => by cases heq
    | stop => exact ht.call .stop fun _ heq => by cases heq
    | changeNumWorkerThreads number => exact ht.call (.changeNumWorkerThreads number) hevent
  exact hstates.mono fun t ht => ht.terminated

end MinerThreads

namespace Sample

/-- One worker is started and finds something in its first round. -/
def firstRound : List MinerEvent :=
  [.start 0 ⟨[65]⟩ 0, .control, .control, .control, .control, .work 0 7, .work 0 7, .work 0 7]

/-- The miner is stopped and its threads come to their ends. -/
def stopped : List MinerEvent :=
  firstRound ++ [.stop, .stats, .stats, .work 0 7, .control, .control, .control]

/-- The miner is started for another owner. The new worker has the number 1. -/
def startedAnew : List MinerEvent :=
  [.start 0 ⟨[66]⟩ 0, .control, .control, .control, .control, .work 0 7, .work 1 9, .work 1 9,
    .work 1 9]

/-- The miner goes on with two workers after its first round. -/
def changed : List MinerEvent :=
  [.work 0 7, .stats, .stats, .control, .control, .control, .control, .control, .control,
    .control, .control, .work 1 8, .work 2 9, .work 1 8, .work 2 9, .work 1 8, .work 2 9]

/-- A worker is asked for before the miner was ever started. -/
def changedTooEarly : List MinerEvent :=
  [.changeNumWorkerThreads 1, .control, .control, .control, .control, .control, .control,
    .work 0 7, .work 0 7, .work 0 7]

end Sample

-- Otherwise the first value that is found ends the process.
example : (Run.exec (MinerThreads.step Sample.sha) { numWorkerThreads := 0 }
    Sample.changedTooEarly).terminated = true := by
  decide +kernel

/-- The number of workers is changed while one is at work, and the two new ones find values, too. -/
theorem MinerThreads.firstRound_never_terminated :
    (Run.exec (step Sample.sha) { numWorkerThreads := 1 }
        (Sample.firstRound ++ .changeNumWorkerThreads 2 :: Sample.changed)).foundHashQueue.length =
      3 ∧
    Run.AllStates (step Sample.sha) (fun t => t.terminated = false) { numWorkerThreads := 1 }
      (Sample.firstRound ++ .changeNumWorkerThreads 2 :: Sample.changed) := by
  refine ⟨by decide +kernel, never_terminated Sample.sha 1 _ ?_⟩
  rw [Run.AllSteps.append]
  refine ⟨Run.AllSteps.of_forall_mem fun event he _ number heq => ?_, fun _ _ => ?_,
    Run.AllSteps.of_forall_mem fun event he _ number heq => ?_⟩
  · rw [heq] at he
    simp [Sample.firstRound] at he
  · decide +kernel
  · rw [heq] at he
    simp [Sample.changed] at he

/-- A worker has found a value and is stopped. After the queue was emptied and the miner started for
another owner, the first worker adds nothing to what the new one finds. -/
theorem MinerThreads.firstRound_queue_after_restart :
    (Run.exec (step Sample.sha) { numWorkerThreads := 1 } Sample.stopped).foundHashQueue =
      [[48, 95, 65, 95, 55, 95, 48]] ∧
    (Run.exec (step Sample.sha) { numWorkerThreads := 1 }
        (Sample.stopped ++ .clearFoundHashQueue :: Sample.startedAnew)).foundHashQueue =
      [[48, 95, 66, 95, 57, 95, 48]] ∧
    Run.AllStates (step Sample.sha) (fun t => ∀ value ∈ t.foundHashQueue, ∃ randomValue counter,
        (MinerLocal.start 0 ⟨[66]⟩ 0).mineValue Sample.sha randomValue counter = some (0, value))
      ((Run.exec (step Sample.sha) { numWorkerThreads := 1 } Sample.stopped).step Sample.sha
        .clearFoundHashQueue) Sample.startedAnew := by
  refine ⟨by decide +kernel, by decide +kernel, ?_⟩
  refine queue_after_restart Sample.sha 1 Sample.stopped Sample.startedAnew 0 ⟨[66]⟩ 0 ?_ ?_ ?_
  · decide +kernel
  · decide +kernel
  · exact ⟨rfl, trivial, trivial, trivial, trivial, trivial, trivial, trivial, trivial, trivial⟩

end SwabianCoin
