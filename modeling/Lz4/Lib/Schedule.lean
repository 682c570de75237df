import Mathlib.Order.WellFounded

/-!
# Threads under a scheduler

A system of threads is a step function on states, and a run is driven by a schedule that says at
every time which thread acts.  A thread that cannot go on when the schedule names it does nothing.

The rule: under a fair schedule a thread that is ready, and stays so while others act, acts
(`Fair.acts`).
-/

namespace Schedule

section Runs

variable {σ α τ : Type} {step : σ → α → σ} {state : Nat → σ} {act : Nat → α}

/-- The states of a run, in which `act t` is done at time `t`. -/
def Runs (step : σ → α → σ) (state : Nat → σ) (act : Nat → α) : Prop :=
  ∀ t, state (t + 1) = step (state t) (act t)

/-- The run that starts at a state. -/
def run (step : σ → α → σ) (start : σ) (act : Nat → α) : Nat → σ
  | 0 => start
  | t + 1 => step (run step start act t) (act t)

theorem runs_run (start : σ) : Runs step (run step start act) act := fun _ => rfl

/-- A quantity is never smaller than at some time. -/
theorem exists_least (f : Nat → Nat) (t : Nat) : ∃ u, t ≤ u ∧ ∀ v, t ≤ v → f u ≤ f v := by
  obtain ⟨⟨u, hu⟩, -, hmin⟩ := (InvImage.wf (fun u : { u // t ≤ u } => f u)
    Nat.lt_wfRel.wf).has_min Set.univ ⟨⟨t, Nat.le_refl t⟩, trivial⟩
  exact ⟨u, hu, fun v hv => Nat.not_lt.1 (hmin ⟨v, hv⟩ trivial)⟩

/-- Weak fairness: no thread stays ready for ever without acting. -/
def Fair (state : Nat → σ) (act : Nat → α) (ready : σ → τ → Prop) (owner : α → Option τ) : Prop :=
  ∀ x t, ∃ u, t ≤ u ∧ (¬ ready (state u) x ∨ owner (act u) = some x)

/-- A thread that is ready as long as `P` holds acts while it does, if the others keep `P`. -/
theorem Fair.acts {ready : σ → τ → Prop} {owner : α → Option τ}
    (fair : Fair state act ready owner) {P : Nat → Prop} {x : τ} {t : Nat} (h : P t)
    (hready : ∀ u, P u → ready (state u) x)
    (hkeeps : ∀ u, P u → owner (act u) ≠ some x → P (u + 1)) :
    ∃ u, t ≤ u ∧ P u ∧ owner (act u) = some x := by
  by_contra hnever
  -- then the thread never acts, and stays ready
  have hstays : ∀ k, P (t + k) := by
    intro k
    induction k with
    | zero => exact h
    | succ k ih =>
      exact hkeeps _ ih fun hacts => hnever ⟨t + k, Nat.le_add_right t k, ih, hacts⟩
  obtain ⟨u, hle, hu⟩ := fair x t
  obtain ⟨k, rfl⟩ := Nat.exists_eq_add_of_le hle
  obtain hidle | hacts := hu
  · exact hidle (hready _ (hstays k))
  · exact hnever ⟨t + k, hle, hstays k, hacts⟩

/-- The actions of a list, then the same one for ever. -/
def schedule (l : List α) (a : α) (t : Nat) : α := l.getD t a

theorem schedule_of_le {l : List α} {a : α} {t : Nat} (h : l.length ≤ t) : schedule l a t = a := by
  rw [schedule, List.getD_eq_getElem?_getD, List.getElem?_eq_none h, Option.getD_none]

/-- A run comes to rest. -/
theorem run_schedule {start : σ} {l : List α} {a : α}
    (h : step (run step start (schedule l a) l.length) a = run step start (schedule l a) l.length)
    (t : Nat) : run step start (schedule l a) (l.length + t) =
      run step start (schedule l a) l.length := by
  induction t with
  | zero => rfl
  | succ t ih => rw [← Nat.add_assoc, run, ih, schedule_of_le (Nat.le_add_right ..), h]

end Runs

end Schedule
