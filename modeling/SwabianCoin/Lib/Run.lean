import Mathlib.Data.List.Basic

/-!
# Runs of a deterministic machine

A machine is a step function `σ → ε → σ`; a run is a list of events. A property of runs is
either a property of every state the run passes through (`AllStates`) or a property of every
step it takes (`AllSteps`), where a step is the event together with the state it meets.

`AllStates.of_steps` is the invariant rule: what one step preserves, a run preserves.
`AllSteps.reaches` is the rule for progress.

`Follows` says that a run of another machine keeps up with a run: with each event the other machine
takes some steps, or none. What then holds of all states of the one run is so of the other
(`Follows.allStates`).
-/

namespace Run

variable {σ ε : Type*} (step : σ → ε → σ)

/-- The state after a list of events. -/
def exec (s : σ) : List ε → σ
  | [] => s
  | e :: es => exec (step s e) es

/-- `P` holds of every step of the run: of every event and the state it meets. -/
def AllSteps (P : σ → ε → Prop) : σ → List ε → Prop
  | _, [] => True
  | s, e :: es => P s e ∧ AllSteps P (step s e) es

/-- `I` holds of every state of the run, the first and the last included. -/
def AllStates (I : σ → Prop) : σ → List ε → Prop
  | s, [] => I s
  | s, e :: es => I s ∧ AllStates I (step s e) es

/-- The states of the run, the first and the last included. -/
def states : σ → List ε → List σ
  | s, [] => [s]
  | s, e :: es => s :: states (step s e) es

instance AllSteps.decidable {P : σ → ε → Prop} [∀ s e, Decidable (P s e)] :
    ∀ (s : σ) (es : List ε), Decidable (AllSteps step P s es)
  | _, [] => inferInstanceAs (Decidable True)
  | s, e :: es =>
    have := AllSteps.decidable (P := P) (step s e) es
    inferInstanceAs (Decidable (P s e ∧ AllSteps step P (step s e) es))

instance AllStates.decidable {I : σ → Prop} [∀ s, Decidable (I s)] :
    ∀ (s : σ) (es : List ε), Decidable (AllStates step I s es)
  | s, [] => inferInstanceAs (Decidable (I s))
  | s, e :: es =>
    have := AllStates.decidable (I := I) (step s e) es
    inferInstanceAs (Decidable (I s ∧ AllStates step I (step s e) es))

variable {step} {P Q : σ → ε → Prop} {I : σ → Prop} {s : σ} {es fs : List ε}

@[simp] theorem exec_nil : exec step s [] = s := rfl

@[simp] theorem exec_cons {e : ε} : exec step s (e :: es) = exec step (step s e) es := rfl

theorem exec_append : exec step s (es ++ fs) = exec step (exec step s es) fs := by
  induction es generalizing s with
  | nil => rfl
  | cons e es ih => exact ih

theorem AllSteps.append :
    AllSteps step P s (es ++ fs) ↔ AllSteps step P s es ∧ AllSteps step P (exec step s es) fs := by
  induction es generalizing s with
  | nil => simp [AllSteps]
  | cons e es ih => simp only [List.cons_append, AllSteps, exec_cons, ih, and_assoc]

theorem AllSteps.mono (h : AllSteps step P s es) (hPQ : ∀ s e, P s e → Q s e) :
    AllSteps step Q s es := by
  induction es generalizing s with
  | nil => trivial
  | cons e es ih => exact ⟨hPQ s e h.1, ih h.2⟩

theorem AllSteps.congr (hPQ : ∀ s e, P s e ↔ Q s e) :
    AllSteps step P s es ↔ AllSteps step Q s es :=
  ⟨fun h => h.mono fun s e => (hPQ s e).1, fun h => h.mono fun s e => (hPQ s e).2⟩

theorem AllSteps.and :
    AllSteps step (fun s e => P s e ∧ Q s e) s es ↔
      AllSteps step P s es ∧ AllSteps step Q s es := by
  induction es generalizing s with
  | nil => simp [AllSteps]
  | cons e es ih => simp only [AllSteps, ih]; tauto

theorem AllSteps.of_forall_mem (h : ∀ e ∈ es, ∀ s, P s e) : AllSteps step P s es := by
  induction es generalizing s with
  | nil => trivial
  | cons e es ih =>
    exact ⟨h e (List.mem_cons_self ..) s, ih fun e he => h e (List.mem_cons_of_mem _ he)⟩

theorem AllStates.first (h : AllStates step I s es) : I s := by
  cases es with
  | nil => exact h
  | cons e es => exact h.1

theorem AllStates.last (h : AllStates step I s es) : I (exec step s es) := by
  induction es generalizing s with
  | nil => exact h
  | cons e es ih => exact ih h.2

theorem AllStates.of_mem_states (h : AllStates step I s es) {t : σ} (ht : t ∈ states step s es) :
    I t := by
  induction es generalizing s with
  | nil =>
    rw [List.mem_singleton.1 ht]
    exact h
  | cons e es ih =>
    rcases List.mem_cons.1 ht with rfl | hlater
    · exact h.1
    · exact ih h.2 hlater

theorem AllStates.allSteps (h : AllStates step I s es) : AllSteps step (fun s _ => I s) s es := by
  induction es generalizing s with
  | nil => trivial
  | cons e es ih => exact ⟨h.1, ih h.2⟩

theorem AllStates.mono {J : σ → Prop} (h : AllStates step I s es) (hIJ : ∀ s, I s → J s) :
    AllStates step J s es := by
  induction es generalizing s with
  | nil => exact hIJ s h
  | cons e es ih => exact ⟨hIJ s h.1, ih h.2⟩

theorem AllStates.and {J : σ → Prop} (hI : AllStates step I s es) (hJ : AllStates step J s es) :
    AllStates step (fun s => I s ∧ J s) s es := by
  induction es generalizing s with
  | nil => exact ⟨hI, hJ⟩
  | cons e es ih => exact ⟨⟨hI.1, hJ.1⟩, ih hI.2 hJ.2⟩

/-- **The invariant rule.** -/
theorem AllStates.of_steps (hstep : ∀ s e, I s → P s e → I (step s e)) (hs : I s)
    (h : AllSteps step P s es) : AllStates step I s es := by
  induction es generalizing s with
  | nil => exact hs
  | cons e es ih => exact ⟨hs, ih (hstep s e hs h.1) h.2⟩

/-- **The simulation rule.** What steps of two machines on the same event preserve, runs of both
preserve. -/
theorem exec_simulates {τ : Type*} {step' : τ → ε → τ} {R : σ → τ → Prop}
    (hstep : ∀ s t e, R s t → R (step s e) (step' t e)) {t : τ} (h : R s t) (es : List ε) :
    R (exec step s es) (exec step' t es) := by
  induction es generalizing s t with
  | nil => exact h
  | cons e es ih => exact ih (hstep s t e h)

/-- An invariant may be used at every step. -/
theorem AllSteps.with_invariant (hstep : ∀ s e, I s → P s e → I (step s e)) (hs : I s)
    (h : AllSteps step P s es) : AllSteps step (fun s e => I s ∧ P s e) s es := by
  induction es generalizing s with
  | nil => trivial
  | cons e es ih => exact ⟨⟨hs, h.1⟩, ih (hstep s e hs h.1) h.2⟩

/-- **The rule for a change of invariants.** `I` holds until a step meets `Q`, and `J` from then
on. -/
theorem AllSteps.until {J : σ → Prop} (hI : ∀ s e, I s → P s e → ¬ Q s e → I (step s e))
    (hchange : ∀ s e, I s → P s e → Q s e → J (step s e))
    (hJ : ∀ s e, J s → P s e → J (step s e)) (hs : I s) (h : AllSteps step P s es) :
    AllSteps step (fun s e => ¬ Q s e) s es ∧ I (exec step s es) ∨
      ¬ AllSteps step (fun s e => ¬ Q s e) s es ∧ J (exec step s es) := by
  induction es generalizing s with
  | nil => exact Or.inl ⟨trivial, hs⟩
  | cons e es ih =>
    by_cases hQ : Q s e
    · have hlast := (AllStates.of_steps hJ (hchange s e hs h.1 hQ) h.2).last
      exact Or.inr ⟨fun hnever => hnever.1 hQ, hlast⟩
    · rcases ih (hI s e hs h.1 hQ) h.2 with ⟨hnever, hlast⟩ | ⟨honce, hlast⟩
      · exact Or.inl ⟨⟨hQ, hnever⟩, hlast⟩
      · exact Or.inr ⟨fun hnever => honce hnever.2, hlast⟩

/-- **The rule for progress.** Every step of one kind comes closer to `I`, and other steps do not
lead away from it. With enough steps of that kind `I` is reached, and it stays. -/
theorem AllSteps.reaches {J : σ → Prop} (rank : σ → Nat) (kind : ε → Bool)
    (hJ : ∀ s e, J s → P s e → J (step s e))
    (hstays : ∀ s e, J s → P s e → I s → I (step s e))
    (hother : ∀ s e, J s → P s e → kind e = false → rank (step s e) ≤ rank s)
    (hkind : ∀ s e, J s → P s e → kind e = true → I (step s e) ∨ rank (step s e) < rank s)
    (hs : J s) (h : AllSteps step P s es) (hcount : rank s < es.countP kind) :
    I (exec step s es) := by
  induction es generalizing s with
  | nil => exact absurd hcount (Nat.not_lt_zero _)
  | cons e es ih =>
    have hnext := hJ s e hs h.1
    cases hthis : kind e with
    | false =>
      rw [List.countP_cons_of_neg (by simp [hthis])] at hcount
      exact ih hnext h.2 (Nat.lt_of_le_of_lt (hother s e hs h.1 hthis) hcount)
    | true =>
      rw [List.countP_cons_of_pos hthis] at hcount
      rcases hkind s e hs h.1 hthis with hreached | hcloser
      · have hall := AllStates.of_steps (I := fun s => J s ∧ I s)
          (fun s e hJI hP => ⟨hJ s e hJI.1 hP, hstays s e hJI.1 hP hJI.2⟩) ⟨hnext, hreached⟩ h.2
        exact hall.last.2
      · exact ih hnext h.2 (Nat.lt_of_lt_of_le hcloser (Nat.lt_succ_iff.1 hcount))

/-- When `P` and `Q` are the same under an invariant that `Q` keeps, they are the same of a run. -/
theorem AllSteps.iff_under (hstep : ∀ s e, I s → (P s e ↔ Q s e) ∧ (Q s e → I (step s e)))
    (hs : I s) : AllSteps step P s es ↔ AllSteps step Q s es := by
  induction es generalizing s with
  | nil => exact Iff.rfl
  | cons e es ih =>
    obtain ⟨hiff, hkeep⟩ := hstep s e hs
    constructor
    · rintro ⟨hP, hPs⟩
      have hQ := hiff.1 hP
      exact ⟨hQ, (ih (hkeep hQ)).1 hPs⟩
    · rintro ⟨hQ, hQs⟩
      exact ⟨hiff.2 hQ, (ih (hkeep hQ)).2 hQs⟩

/-- When each step keeps `I` exactly if it meets `Q`, and then keeps `J`, too, a run keeps `I`
throughout exactly if all its steps meet `Q`. -/
theorem AllStates.iff_allSteps_with {J : σ → Prop}
    (hstep : ∀ s e, J s → I s → P s e →
      (I (step s e) ↔ Q s e) ∧ (I (step s e) → J (step s e)))
    (hJ : J s) (hs : I s) (h : AllSteps step P s es) :
    AllStates step I s es ↔ AllSteps step Q s es := by
  induction es generalizing s with
  | nil => exact iff_of_true hs trivial
  | cons e es ih =>
    obtain ⟨hiff, hkeep⟩ := hstep s e hJ hs h.1
    constructor
    · rintro ⟨-, hI⟩
      have hnext := hI.first
      exact ⟨hiff.1 hnext, (ih (hkeep hnext) hnext h.2).1 hI⟩
    · rintro ⟨hQ, hQs⟩
      have hnext := hiff.2 hQ
      exact ⟨hs, (ih (hkeep hnext) hnext h.2).2 hQs⟩

/-- When each step keeps `I` exactly if it meets `Q`, a run keeps `I` throughout exactly if all
its steps meet `Q`. -/
theorem AllStates.iff_allSteps (hstep : ∀ s e, I s → P s e → (I (step s e) ↔ Q s e)) (hs : I s)
    (h : AllSteps step P s es) : AllStates step I s es ↔ AllSteps step Q s es :=
  iff_allSteps_with (J := fun _ => True)
    (fun s e _ hI hP => ⟨hstep s e hI hP, fun _ => trivial⟩) trivial hs h

/-! ## Following a run -/

section Follows

variable {τ δ : Type*}

/-- The other machine takes some steps with every event, as `seen` says of the event and the states
it meets, and `R` holds before and after. -/
def Follows (step : σ → ε → σ) (step' : τ → δ → τ) (seen : σ → τ → ε → List δ → Prop)
    (R : σ → τ → Prop) : σ → τ → List ε → List (List δ) → Prop
  | s, t, [], [] => R s t
  | s, t, e :: es, ds :: dss =>
    R s t ∧ seen s t e ds ∧ Follows step step' seen R (step s e) (exec step' t ds) es dss
  | _, _, _, _ => False

variable {step' : τ → δ → τ} {seen : σ → τ → ε → List δ → Prop} {R R' : σ → τ → Prop} {t : τ}
  {dss : List (List δ)}

/-- **The rule for refinement.** -/
theorem Follows.of_steps
    (hstep : ∀ s t e, R s t → P s e → ∃ ds, seen s t e ds ∧ R (step s e) (exec step' t ds))
    (h : R s t) (hsteps : AllSteps step P s es) :
    ∃ dss, Follows step step' seen R s t es dss := by
  induction es generalizing s t with
  | nil => exact ⟨[], h⟩
  | cons e es ih =>
    obtain ⟨ds, hseen, hnext⟩ := hstep s t e h hsteps.1
    obtain ⟨dss, hfollows⟩ := ih hnext hsteps.2
    exact ⟨ds :: dss, h, hseen, hfollows⟩

theorem Follows.keeps
    (hstep : ∀ s t e ds, R s t → P s e → seen s t e ds → R (step s e) (exec step' t ds))
    (h : R s t) (hsteps : AllSteps step P s es) (hfollows : Follows step step' seen R' s t es dss) :
    Follows step step' seen R s t es dss := by
  induction es generalizing s t dss with
  | nil =>
    cases dss with
    | nil => exact h
    | cons ds dss => exact hfollows
  | cons e es ih =>
    cases dss with
    | nil => exact hfollows
    | cons ds dss =>
      obtain ⟨-, hseen, hrest⟩ := hfollows
      exact ⟨h, hseen, ih (hstep s t e ds h hsteps.1 hseen) hsteps.2 hrest⟩

theorem Follows.mono (h : Follows step step' seen R s t es dss) (hR : ∀ s t, R s t → R' s t) :
    Follows step step' seen R' s t es dss := by
  induction es generalizing s t dss with
  | nil =>
    cases dss with
    | nil => exact hR s t h
    | cons ds dss => exact h
  | cons e es ih =>
    cases dss with
    | nil => exact h
    | cons ds dss => exact ⟨hR s t h.1, h.2.1, ih h.2.2⟩

theorem AllStates.of_append (h : AllStates step I s (es ++ fs)) :
    AllStates step I (exec step s es) fs := by
  induction es generalizing s with
  | nil => exact h
  | cons e es ih => exact ih h.2

theorem Follows.allStates {J : τ → Prop} (h : Follows step step' seen R s t es dss)
    (hJ : AllStates step' J t dss.flatten) (hI : ∀ s t, R s t → J t → I s) :
    AllStates step I s es := by
  induction es generalizing s t dss with
  | nil =>
    cases dss with
    | nil => exact hI s t h hJ.first
    | cons ds dss => exact h.elim
  | cons e es ih =>
    cases dss with
    | nil => exact h.elim
    | cons ds dss =>
      rw [List.flatten_cons] at hJ
      exact ⟨hI s t h.1 hJ.first, ih h.2.2 hJ.of_append⟩

end Follows

end Run
