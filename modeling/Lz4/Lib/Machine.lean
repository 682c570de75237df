import Mathlib.Tactic.Common

/-!
# Loops with fuel

A loop whose termination depends on its data is run with fuel.  `iterate` is the
loop, and `iterate_ends` the rule for total correctness: an invariant that every pass
either keeps, with a smaller variant, or turns into the postcondition, makes the loop end
in the postcondition as soon as there is more fuel than the variant says.

A pass may itself contain a loop, so it may have no result.
-/

namespace Machine

/-- What one pass of a loop leads to. -/
inductive Step (σ ρ : Type) where
  | next (s : σ)
  | done (r : ρ)

variable {σ ρ : Type}

/-- Run `step` until it is done; `none` if the fuel does not last, or a pass has no
result. -/
def iterate (step : σ → Option (Step σ ρ)) : Nat → σ → Option ρ
  | 0, _ => none
  | fuel + 1, s =>
    match step s with
    | none => none
    | some (.done r) => some r
    | some (.next s') => iterate step fuel s'

/-- A pass went on with `Inv` and a variant below `n`, or ended with `Post`. -/
def Step.Ends (Inv : σ → Prop) (Post : ρ → Prop) (variant : σ → Nat) (n : Nat) :
    Step σ ρ → Prop
  | .next s => Inv s ∧ variant s < n
  | .done r => Post r

/-- A pass went on with `Inv`, or ended with `Post`. -/
def Step.Satisfies (Inv : σ → Prop) (Post : ρ → Prop) : Step σ ρ → Prop
  | .next s => Inv s
  | .done r => Post r

variable {Post : ρ → Prop}

theorem Step.Ends.and {Inv Inv' : σ → Prop} {Post' : ρ → Prop} {variant : σ → Nat} {n : Nat}
    {x : Step σ ρ} (h : x.Ends Inv Post variant n) (h' : x.Satisfies Inv' Post') :
    x.Ends (fun s => Inv s ∧ Inv' s) (fun r => Post r ∧ Post' r) variant n := by
  cases x with
  | next s => exact ⟨⟨h.1, h'⟩, h.2⟩
  | done r => exact ⟨h, h'⟩

variable {step : σ → Option (Step σ ρ)} {fuel : Nat} {s : σ}

theorem iterate_ends (Inv : σ → Prop) (variant : σ → Nat)
    (hstep : ∀ s, Inv s → ∃ x, step s = some x ∧ x.Ends Inv Post variant (variant s)) (hinv : Inv s)
    (hfuel : variant s < fuel) : ∃ r, iterate step fuel s = some r ∧ Post r := by
  induction fuel generalizing s with
  | zero => omega
  | succ fuel ih =>
    obtain ⟨x, hx, hends⟩ := hstep s hinv
    rw [iterate, hx]
    cases x with
    | done r => exact ⟨r, rfl, hends⟩
    | next s' => exact ih hends.1 (by have := hends.2; omega)

/-- The same rule with the bound on the remaining passes in the invariant. -/
theorem iterate_budget (Inv : Nat → σ → Prop)
    (hstep : ∀ b s, Inv b s → ∃ x, step s = some x ∧
      x.Satisfies (fun s' => ∃ b' < b, Inv b' s') Post) {b : Nat} (hinv : Inv b s)
    (hfuel : b < fuel) : ∃ r, iterate step fuel s = some r ∧ Post r := by
  induction fuel generalizing b s with
  | zero => omega
  | succ fuel ih =>
    obtain ⟨x, hx, hsatisfies⟩ := hstep b s hinv
    rw [iterate, hx]
    cases x with
    | done r => exact ⟨r, rfl, hsatisfies⟩
    | next s' =>
      obtain ⟨b', hb', hinv'⟩ := hsatisfies
      exact ih hinv' (by omega)

/-! ## Two loops in lockstep -/

variable {σ' ρ' : Type}

/-- Two passes that both go on, to related states, or both end, with related results. -/
inductive Step.Related (R : σ → σ' → Prop) (E : ρ → ρ' → Prop) : Step σ ρ → Step σ' ρ' → Prop
  | next {s : σ} {s' : σ'} (h : R s s') : Related R E (.next s) (.next s')
  | done {r : ρ} {r' : ρ'} (h : E r r') : Related R E (.done r) (.done r')

/-- A loop whose passes follow those of another one ends when the other one ends. -/
theorem iterate_lockstep {step' : σ' → Step σ' ρ'} {R : σ → σ' → Prop} {E : ρ → ρ' → Prop}
    (hstep : ∀ s s', R s s' → ∃ x, step s = some x ∧ x.Related R E (step' s')) {s' : σ'}
    (h : R s s') {r' : ρ'} (hend : iterate (fun s' => some (step' s')) fuel s' = some r') :
    ∃ r, iterate step fuel s = some r ∧ E r r' := by
  induction fuel generalizing s s' with
  | zero => exact absurd hend (by simp [iterate])
  | succ fuel ih =>
    obtain ⟨x, hx, hrelated⟩ := hstep s s' h
    rw [iterate] at hend ⊢
    rw [hx]
    revert hrelated hend
    cases step' s' with
    | next t' =>
      rintro hend ⟨ht⟩
      exact ih ht hend
    | done t' =>
      rintro hend ⟨⟩
      rename_i he
      simp only [Option.some.injEq] at hend
      exact ⟨_, rfl, hend ▸ he⟩

end Machine
