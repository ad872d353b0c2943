import Mathlib.Data.List.Basic
import Mathlib.Data.List.Induction

/-!
# A window that raises alarms

A window keeps the last `size` entries of a sequence. When it is full and its first and last entry
are too close, it raises an alarm and starts again empty.

An alarm at an entry means that the last `size` entries are such a run (`Alarms.exists_run`), and
every such run contains an alarm (`exists_alarms_of_run`), wherever the window was emptied before.
So the number of alarms is the largest number of runs that do not overlap (`le_count_iff`).
-/

namespace Window

variable {α : Type*} (size : Nat) (close : α → α → Bool)

/-- The window with one more entry, before the alarm. -/
def extend (window : List α) (a : α) : List α :=
  if size < (window ++ [a]).length then (window ++ [a]).tail else window ++ [a]

/-- The next entry raises an alarm. -/
def alarm (window : List α) (a : α) : Bool :=
  (extend size window a).length == size && close ((extend size window a).headD a) a

def push (window : List α) (a : α) : List α :=
  if alarm size close window a then [] else extend size window a

/-- The window after some entries. -/
def after (entries : List α) : List α := entries.foldl (push size close) []

/-- An alarm is raised at the entry that comes after some others. -/
def Alarms (before : List α) (a : α) : Prop := alarm size close (after size close before) a = true

/-- The number of alarms that some entries raise, starting with a window. -/
def countFrom (window : List α) : List α → Nat
  | [] => 0
  | a :: rest =>
    (if alarm size close window a then 1 else 0) + countFrom (push size close window a) rest

def count (entries : List α) : Nat := countFrom size close [] entries

/-- As many entries as the window holds, with ends that are too close. -/
structure IsRun (run : List α) : Prop where
  length : run.length = size
  close : ∀ first ∈ run.head?, ∀ last ∈ run.getLast?, close first last = true

/-- So many runs one after the other, with anything in between. -/
def Runs : Nat → List α → Prop
  | 0, _ => True
  | n + 1, entries => ∃ front run back, entries = front ++ run ++ back ∧ IsRun size close run ∧
      Runs n front

variable {size close}

instance (before : List α) (a : α) : Decidable (Alarms size close before a) :=
  inferInstanceAs (Decidable (_ = true))

/-! ## One more entry -/

theorem after_append_singleton (entries : List α) (a : α) :
    after size close (entries ++ [a]) = push size close (after size close entries) a := by
  rw [after, List.foldl_append]
  rfl

theorem after_of_alarms {entries : List α} {a : α} (h : Alarms size close entries a) :
    after size close (entries ++ [a]) = [] := by
  rw [after_append_singleton]
  exact if_pos h

theorem after_of_not_alarms {entries : List α} {a : α} (h : ¬ Alarms size close entries a) :
    after size close (entries ++ [a]) = extend size (after size close entries) a := by
  rw [after_append_singleton]
  exact if_neg h

theorem countFrom_append_singleton (window entries : List α) (a : α) :
    countFrom size close window (entries ++ [a]) =
      countFrom size close window entries +
        if alarm size close (entries.foldl (push size close) window) a then 1 else 0 := by
  induction entries generalizing window with
  | nil => exact Nat.add_comm _ 0
  | cons first rest ih =>
    rw [List.cons_append, countFrom, ih, countFrom, Nat.add_assoc]
    rfl

theorem count_of_alarms {entries : List α} {a : α} (h : Alarms size close entries a) :
    count size close (entries ++ [a]) = count size close entries + 1 := by
  rw [count, countFrom_append_singleton]
  exact congrArg _ (if_pos h)

theorem count_of_not_alarms {entries : List α} {a : α} (h : ¬ Alarms size close entries a) :
    count size close (entries ++ [a]) = count size close entries := by
  rw [count, countFrom_append_singleton]
  exact congrArg _ (if_neg h)

theorem count_le_of_isPrefix {entries entries' : List α} (h : entries <+: entries') :
    count size close entries ≤ count size close entries' := by
  obtain ⟨rest, rfl⟩ := h
  induction rest using List.reverseRecOn with
  | nil => exact Nat.le_of_eq (congrArg _ (List.append_nil entries).symm)
  | append_singleton rest a ih =>
    rw [← List.append_assoc]
    by_cases halarm : Alarms size close (entries ++ rest) a
    · rw [count_of_alarms halarm]
      omega
    · rw [count_of_not_alarms halarm]
      exact ih

/-! ## What the window holds -/

theorem extend_eq (hsize : 0 < size) (window : List α) (a : α) :
    ∃ dropped kept, window = dropped ++ kept ∧ extend size window a = kept ++ [a] ∧
      (window.length ≤ size → kept.length + 1 = min size (window.length + 1)) := by
  unfold extend
  rw [List.length_append, List.length_singleton]
  split_ifs with hfull
  · cases window with
    | nil =>
      rw [List.length_nil] at hfull
      omega
    | cons first rest =>
      refine ⟨[first], rest, rfl, rfl, fun h => ?_⟩
      rw [List.length_cons] at h hfull ⊢
      omega
  · refine ⟨[], window, rfl, rfl, fun h => ?_⟩
    omega

theorem length_after_le (hsize : 0 < size) (entries : List α) :
    (after size close entries).length ≤ size := by
  induction entries using List.reverseRecOn with
  | nil => exact Nat.zero_le size
  | append_singleton entries a ih =>
    by_cases halarm : Alarms size close entries a
    · rw [after_of_alarms halarm]
      exact Nat.zero_le size
    · obtain ⟨dropped, kept, -, hextend, hlength⟩ := extend_eq hsize (after size close entries) a
      have hlength := hlength ih
      rw [after_of_not_alarms halarm, hextend, List.length_append, List.length_singleton]
      omega

/-- **The window holds the last entries**, and none of them has raised an alarm. -/
theorem exists_front (close : α → α → Bool) (hsize : 0 < size) (entries : List α) :
    ∃ front, entries = front ++ after size close entries ∧
      count size close front = count size close entries := by
  induction entries using List.reverseRecOn with
  | nil => exact ⟨[], rfl, rfl⟩
  | append_singleton entries a ih =>
    obtain ⟨front, hfront, hcount⟩ := ih
    by_cases halarm : Alarms size close entries a
    · rw [after_of_alarms halarm]
      exact ⟨entries ++ [a], (List.append_nil _).symm, rfl⟩
    · obtain ⟨dropped, kept, hwindow, hextend, -⟩ :=
        extend_eq hsize (after size close entries) a
      have hentries : entries = (front ++ dropped) ++ kept := by
        rw [List.append_assoc, ← hwindow]
        exact hfront
      rw [after_of_not_alarms halarm, count_of_not_alarms halarm, hextend]
      refine ⟨front ++ dropped, ?_, ?_⟩
      · rw [← List.append_assoc, ← hentries]
      · -- the count does not change between the front and all entries
        have hge : count size close front ≤ count size close (front ++ dropped) :=
          count_le_of_isPrefix (List.prefix_append front dropped)
        have hle : count size close (front ++ dropped) ≤ count size close entries :=
          count_le_of_isPrefix ⟨kept, hentries.symm⟩
        omega

/-! ## Alarms and runs -/

/-- The window with one more entry raises an alarm exactly if it is a run. -/
theorem alarm_iff_isRun {window kept : List α} {a : α}
    (h : extend size window a = kept ++ [a]) :
    alarm size close window a = true ↔ IsRun size close (kept ++ [a]) := by
  have hhead : (kept ++ [a]).head? = some ((kept ++ [a]).headD a) := by
    cases kept <;> rfl
  rw [alarm, h, Bool.and_eq_true, beq_iff_eq]
  constructor
  · rintro ⟨hlength, hclose⟩
    refine ⟨hlength, fun first hfirst last hlast => ?_⟩
    rw [hhead, Option.mem_some_iff] at hfirst
    rw [List.getLast?_concat, Option.mem_some_iff] at hlast
    rw [← hfirst, ← hlast]
    exact hclose
  · intro hrun
    exact ⟨hrun.length, hrun.close _ hhead a List.getLast?_concat⟩

/-- **An alarm ends a run**, and before this run there were as many alarms as before the entry. -/
theorem Alarms.exists_run {before : List α} {a : α} (hsize : 0 < size)
    (h : Alarms size close before a) :
    ∃ front run, before ++ [a] = front ++ run ∧ IsRun size close run ∧
      count size close front = count size close before := by
  obtain ⟨front, hfront, hcount⟩ := exists_front close hsize before
  obtain ⟨dropped, kept, hwindow, hextend, -⟩ := extend_eq hsize (after size close before) a
  have hbefore : before = (front ++ dropped) ++ kept := by
    rw [List.append_assoc, ← hwindow]
    exact hfront
  refine ⟨front ++ dropped, kept ++ [a], ?_, (alarm_iff_isRun hextend).1 h, ?_⟩
  · rw [← List.append_assoc, ← hbefore]
  · have hge : count size close front ≤ count size close (front ++ dropped) :=
      count_le_of_isPrefix (List.prefix_append front dropped)
    have hle : count size close (front ++ dropped) ≤ count size close before :=
      count_le_of_isPrefix ⟨kept, hbefore.symm⟩
    omega

theorem length_after_ge (hsize : 0 < size) (front : List α) {entries : List α}
    (h : ∀ before a, before ++ [a] <+: entries → ¬ Alarms size close (front ++ before) a) :
    min size entries.length ≤ (after size close (front ++ entries)).length := by
  induction entries using List.reverseRecOn with
  | nil =>
    rw [List.length_nil]
    omega
  | append_singleton entries a ih =>
    have hbefore := ih fun before b hbegin =>
      h before b (hbegin.trans (List.prefix_append entries [a]))
    have hquiet := h entries a (List.prefix_refl _)
    obtain ⟨dropped, kept, -, hextend, hlength⟩ :=
      extend_eq hsize (after size close (front ++ entries)) a
    have hlength := hlength (length_after_le hsize (front ++ entries))
    rw [← List.append_assoc, after_of_not_alarms hquiet, hextend, List.length_append,
      List.length_append, List.length_singleton]
    omega

/-- **Every run contains an alarm**, whatever came before it. -/
theorem exists_alarms_of_run (hsize : 0 < size) (front : List α) {run : List α}
    (hrun : IsRun size close run) :
    ∃ before a, before ++ [a] <+: run ∧ Alarms size close (front ++ before) a := by
  by_contra hnone
  have hquiet : ∀ before a, before ++ [a] <+: run → ¬ Alarms size close (front ++ before) a :=
    fun before a hbegin halarm => hnone ⟨before, a, hbegin, halarm⟩
  have hlength := hrun.length
  rcases List.eq_nil_or_concat run with rfl | ⟨before, a, rfl⟩
  · rw [List.length_nil] at hlength
    omega
  · rw [List.concat_eq_append] at *
    rw [List.length_append, List.length_singleton] at hlength
    -- the last entry meets a window with all the others
    have hfull := length_after_ge hsize front fun before' b hbegin =>
      hquiet before' b (hbegin.trans (List.prefix_append before [a]))
    obtain ⟨first, hfirst, -⟩ := exists_front close hsize (front ++ before)
    obtain ⟨dropped, kept, hwindow, hextend, hkept⟩ :=
      extend_eq hsize (after size close (front ++ before)) a
    have hkept := hkept (length_after_le hsize (front ++ before))
    rw [hwindow, ← List.append_assoc] at hfirst
    have hsame : before = kept := (List.append_inj' hfirst (by omega)).2
    rw [← hsame] at hextend
    exact hquiet before a (List.prefix_refl _) ((alarm_iff_isRun hextend).2 hrun)

/-! ## Counting -/

theorem Runs.append {n : Nat} {entries : List α} (h : Runs size close n entries)
    (more : List α) : Runs size close n (entries ++ more) := by
  cases n with
  | zero => trivial
  | succ n =>
    obtain ⟨front, run, back, rfl, hrun, hfront⟩ := h
    exact ⟨front, run, back ++ more, by rw [List.append_assoc], hrun, hfront⟩

theorem Runs.le_count (hsize : 0 < size) {n : Nat} {entries : List α}
    (h : Runs size close n entries) : n ≤ count size close entries := by
  induction n generalizing entries with
  | zero => exact Nat.zero_le _
  | succ n ih =>
    obtain ⟨front, run, back, rfl, hrun, hfront⟩ := h
    obtain ⟨before, a, hbegin, halarm⟩ := exists_alarms_of_run hsize front hrun
    have hbefore : count size close front ≤ count size close (front ++ before) :=
      count_le_of_isPrefix (List.prefix_append front before)
    have hafter : count size close (front ++ before ++ [a]) ≤
        count size close (front ++ run ++ back) := by
      apply count_le_of_isPrefix
      rw [List.append_assoc]
      exact ((List.prefix_append_right_inj front).2 hbegin).trans (List.prefix_append _ back)
    rw [count_of_alarms halarm] at hafter
    have hn := ih hfront
    omega

theorem runs_of_le_count (hsize : 0 < size) {n : Nat} {entries : List α}
    (h : n ≤ count size close entries) : Runs size close n entries := by
  induction hlength : entries.length using Nat.strongRecOn generalizing entries n with
  | _ length ih =>
    rcases List.eq_nil_or_concat entries with rfl | ⟨before, a, rfl⟩
    · cases n with
      | zero => trivial
      | succ n => exact absurd h (by simp [count, countFrom])
    · rw [List.concat_eq_append] at *
      rw [List.length_append, List.length_singleton] at hlength
      by_cases halready : n ≤ count size close before
      · exact (ih before.length (by omega) halready rfl).append [a]
      · by_cases halarm : Alarms size close before a
        · rw [count_of_alarms halarm] at h
          obtain ⟨front, run, hsplit, hrun, hcount⟩ := halarm.exists_run hsize
          have hshorter : front.length + run.length = before.length + 1 := by
            rw [← List.length_append, ← hsplit, List.length_append, List.length_singleton]
          have hrunLength := hrun.length
          cases n with
          | zero => trivial
          | succ n =>
            refine ⟨front, run, [], ?_, hrun, ih front.length (by omega) (by omega) rfl⟩
            rw [List.append_nil, hsplit]
        · rw [count_of_not_alarms halarm] at h
          exact absurd h halready

theorem exists_alarms_of_lt_count {n : Nat} {entries : List α} (h : n < count size close entries) :
    ∃ before a, before ++ [a] <+: entries ∧ Alarms size close before a ∧
      count size close before = n := by
  induction entries using List.reverseRecOn with
  | nil => exact absurd h (Nat.not_lt_zero n)
  | append_singleton entries a ih =>
    by_cases hbefore : n < count size close entries
    · obtain ⟨before, b, hbegin, halarm, hcount⟩ := ih hbefore
      exact ⟨before, b, hbegin.trans (List.prefix_append entries [a]), halarm, hcount⟩
    · by_cases halarm : Alarms size close entries a
      · rw [count_of_alarms halarm] at h
        exact ⟨entries, a, List.prefix_refl _, halarm, by omega⟩
      · rw [count_of_not_alarms halarm] at h
        exact absurd h hbefore

/-- **The number of alarms** is the largest number of runs that do not overlap. -/
theorem le_count_iff (hsize : 0 < size) {n : Nat} {entries : List α} :
    n ≤ count size close entries ↔ Runs size close n entries :=
  ⟨runs_of_le_count hsize, Runs.le_count hsize⟩

end Window
