import Mathlib.Data.Fintype.Basic
import Mathlib.Logic.Function.Basic
import Mathlib.Tactic.Common

/-!
# Lanes over shared memory

A kernel runs as many lanes that share one memory.  A lane has a state of its own; what its next
step does depends on this state and on the memory.  A schedule says which lane moves next, and
nothing is assumed about it.

## Rules

`Program.run_budget` is the rule for every program: an invariant of each lane that its own steps
keep, with a smaller budget, and that the steps of the other lanes do not disturb.

Most kernels are strided loops, in which lane `i` of `g` works on the blocks `i`, `i + g`,
`i + 2 * g` and so on (`Loop`).  `Loop.Obeys` lists what has to be known of the body of such a
loop.  The main point is that working on a block touches only what belongs to that block.  Then
all blocks are delivered, whatever the schedule is (`Loop.Obeys.delivered`), and every schedule
that gives each lane enough turns lets all lanes end (`Loop.Obeys.ended`).
-/

namespace Parallel

variable {ι μ σ : Type} [DecidableEq ι]

/-! ## Programs -/

/-- What a lane does in one step, and whether it has ended. -/
structure Program (μ σ : Type) where
  step : μ → σ → μ × σ
  ended : σ → Bool

/-- The memory and the lanes. -/
structure Config (ι μ σ : Type) where
  shared : μ
  lane : ι → σ

namespace Program

variable (p : Program μ σ)

/-- Lane `i` moves, unless it has ended. -/
def turn (c : Config ι μ σ) (i : ι) : Config ι μ σ :=
  if p.ended (c.lane i) then c
  else ⟨(p.step c.shared (c.lane i)).1, Function.update c.lane i (p.step c.shared (c.lane i)).2⟩

def run (schedule : List ι) (c : Config ι μ σ) : Config ι μ σ := schedule.foldl p.turn c

/-- All lanes have ended. -/
def Ended (c : Config ι μ σ) : Prop := ∀ i, p.ended (c.lane i) = true

instance [Fintype ι] (c : Config ι μ σ) : Decidable (p.Ended c) :=
  inferInstanceAs (Decidable (∀ i, p.ended (c.lane i) = true))

/-- The steps of a lane keep its invariant and use up its budget; they leave the invariants of
the other lanes alone. -/
structure Keeps (Inv : ι → Nat → μ → σ → Prop) : Prop where
  own : ∀ {i b m s}, Inv i b m s → p.ended s = false →
    ∃ b' < b, Inv i b' (p.step m s).1 (p.step m s).2
  other : ∀ {i j b b' m s t}, i ≠ j → Inv i b m s → p.ended s = false → Inv j b' m t →
    Inv j b' (p.step m s).1 t

variable {p} {Inv : ι → Nat → μ → σ → Prop}

variable {c : Config ι μ σ} {budget : ι → Nat}

/-- What one turn does to the invariant of lane `j`. -/
theorem Keeps.turn (keeps : p.Keeps Inv) (hinv : ∀ j, Inv j (budget j) c.shared (c.lane j))
    (i j : ι) :
    ∃ b ≤ budget j, Inv j b (p.turn c i).shared ((p.turn c i).lane j) ∧
      (i = j → p.ended ((p.turn c i).lane j) = true ∨ b < budget j) := by
  unfold Program.turn
  by_cases hended : p.ended (c.lane i) = true
  · rw [if_pos hended]
    refine ⟨budget j, Nat.le_refl _, hinv j, ?_⟩
    intro hij
    rw [← hij]
    exact Or.inl hended
  · rw [if_neg hended]
    rw [Bool.not_eq_true] at hended
    by_cases hij : i = j
    · subst hij
      obtain ⟨b, hlt, hb⟩ := keeps.own (hinv i) hended
      refine ⟨b, by omega, ?_, fun _ => Or.inr hlt⟩
      dsimp only
      rw [Function.update_self]
      exact hb
    · refine ⟨budget j, Nat.le_refl _, ?_, fun h => absurd h hij⟩
      dsimp only
      rw [Function.update_of_ne (Ne.symm hij)]
      exact keeps.other hij (hinv i) hended (hinv j)

/-- A lane that has ended stays where it is. -/
theorem ended_run {j : ι} (h : p.ended (c.lane j) = true) (schedule : List ι) :
    p.ended ((p.run schedule c).lane j) = true := by
  induction schedule generalizing c with
  | nil => exact h
  | cons i schedule ih =>
    refine ih ?_
    unfold Program.turn
    split
    · exact h
    · rename_i hnot
      have hij : j ≠ i := by
        rintro rfl
        exact hnot h
      dsimp only
      rw [Function.update_of_ne hij]
      exact h

/-- Under every schedule each lane keeps its invariant.  A lane that has not ended has used up
one unit of its budget with every turn it was given. -/
theorem Keeps.run (keeps : p.Keeps Inv) (hinv : ∀ j, Inv j (budget j) c.shared (c.lane j))
    (schedule : List ι) (j : ι) :
    ∃ b ≤ budget j, Inv j b (p.run schedule c).shared ((p.run schedule c).lane j) ∧
      (p.ended ((p.run schedule c).lane j) = true ∨ b + schedule.count j ≤ budget j) := by
  induction schedule generalizing c budget with
  | nil => exact ⟨budget j, Nat.le_refl _, hinv j, Or.inr (Nat.le_refl _)⟩
  | cons i schedule ih =>
    have hturn := keeps.turn hinv i
    choose budget' hle hinv' hused using hturn
    obtain ⟨b, hb, hfinal, hcount⟩ := ih hinv'
    refine ⟨b, Nat.le_trans hb (hle j), hfinal, ?_⟩
    have hlej := hle j
    rcases hcount with hended | hcount
    · exact Or.inl hended
    · by_cases hij : i = j
      · rcases hused j hij with hended | hlt
        · exact Or.inl (ended_run hended schedule)
        · rw [← hij, List.count_cons_self, hij]
          exact Or.inr (by omega)
      · rw [List.count_cons_of_ne hij]
        exact Or.inr (by omega)

end Program

/-! ## Strided loops -/

/-- `for (k = …; going k; k = next k)` around a body that takes steps of its own.  The body is
over when it has no local state any more. -/
structure Loop (μ κ τ : Type) where
  going : κ → Bool
  next : κ → κ
  enter : μ → κ → μ × Option τ
  step : μ → κ → τ → μ × Option τ

/-- A lane is at the head of the loop, or in the body. -/
inductive Phase (κ τ : Type) where
  | head (k : κ)
  | body (k : κ) (t : τ)
  deriving Repr, DecidableEq

namespace Loop

variable {κ τ : Type} (l : Loop μ κ τ)

/-- After a step of the body. -/
def settle (k : κ) (r : μ × Option τ) : μ × Phase κ τ :=
  match r.2 with
  | none => (r.1, .head (l.next k))
  | some t => (r.1, .body k t)

def program : Program μ (Phase κ τ) where
  step m s :=
    match s with
    | .head k => l.settle k (l.enter m k)
    | .body k t => l.settle k (l.step m k t)
  ended s :=
    match s with
    | .head k => !l.going k
    | .body _ _ => false

/-- The loop variable of a lane that begins at `k₀` gets to `k`, and the body is entered there. -/
inductive Visits (k₀ : κ) : κ → Prop where
  | first (going : l.going k₀ = true) : Visits k₀ k₀
  | next {k : κ} (visits : Visits k₀ k) (going : l.going (l.next k) = true) : Visits k₀ (l.next k)

/-- Where a lane is that began at `k₀`. -/
inductive Follows (k₀ : κ) : Phase κ τ → Prop where
  | start : Follows k₀ (.head k₀)
  | head {k : κ} (visits : l.Visits k₀ k) : Follows k₀ (.head (l.next k))
  | body {k : κ} {t : τ} (visits : l.Visits k₀ k) : Follows k₀ (.body k t)

variable {k₀ k : κ}

theorem Visits.settle {l : Loop μ κ τ} (visits : l.Visits k₀ k) (r : μ × Option τ) :
    l.Follows k₀ (l.settle k r).2 := by
  unfold Loop.settle
  split
  · exact .head visits
  · exact .body visits

/-- Under every schedule a lane is in the body only at what it visits. -/
theorem follows_run {c : Config ι μ (Phase κ τ)} {i : ι} (h : l.Follows k₀ (c.lane i))
    (schedule : List ι) : l.Follows k₀ ((l.program.run schedule c).lane i) := by
  induction schedule generalizing c with
  | nil => exact h
  | cons j schedule ih =>
    refine ih ?_
    unfold Program.turn
    by_cases hended : l.program.ended (c.lane j) = true
    · rw [if_pos hended]
      exact h
    · rw [if_neg hended]
      dsimp only
      by_cases hij : i = j
      · subst hij
        rw [Function.update_self]
        revert h hended
        generalize c.lane i = s
        intro h hended
        simp only [program, Bool.not_eq_true] at hended ⊢
        cases h with
        | start => exact (Visits.first (by simpa using hended)).settle _
        | head visits => exact (visits.next (by simpa using hended)).settle _
        | body visits => exact visits.settle _
      · rw [Function.update_of_ne hij]
        exact h

/-- The predicates a proof about a loop over blocks has to supply. -/
structure View (μ κ τ : Type) where
  /-- The loop variable stands at a block. -/
  At : κ → Nat → Prop
  /-- Work on a block may begin. -/
  Ready : Nat → μ → Prop
  /-- The body is working on a block; the number bounds the steps that it may still take. -/
  Working : Nat → Nat → μ → τ → Prop
  /-- A block is finished. -/
  Delivered : Nat → μ → Prop
  /-- Nothing but what belongs to a block has changed. -/
  Touches : Nat → μ → μ → Prop

variable {l}

/-- The body goes on with a smaller bound, or has delivered the block. -/
def View.Proceeds (v : View μ κ τ) (j b : Nat) (m : μ) (r : μ × Option τ) : Prop :=
  v.Touches j m r.1 ∧
    match r.2 with
    | none => v.Delivered j r.1
    | some t => ∃ b' < b, v.Working j b' r.1 t

/-- Lanes `0 … g - 1` stride over the blocks `0 … n - 1`, and no body takes more than `bound`
steps. -/
structure Obeys (l : Loop μ κ τ) (v : View μ κ τ) (n g bound : Nat) : Prop where
  going_iff : ∀ {k j}, v.At k j → (l.going k = true ↔ j < n)
  next_at : ∀ {k j}, v.At k j → j < n → v.At (l.next k) (j + g)
  enter : ∀ {k j m}, v.At k j → j < n → v.Ready j m → v.Proceeds j bound m (l.enter m k)
  step : ∀ {k j b m t}, v.At k j → j < n → v.Working j b m t →
    v.Proceeds j b m (l.step m k t)
  ready : ∀ {i j m m'}, i ≠ j → i < n → j < n → v.Touches i m m' → v.Ready j m → v.Ready j m'
  working : ∀ {i j b m m' t}, i ≠ j → i < n → j < n → v.Touches i m m' → v.Working j b m t →
    v.Working j b m' t
  delivered : ∀ {i j m m'}, i ≠ j → i < n → j < n → v.Touches i m m' → v.Delivered j m →
    v.Delivered j m'

variable {v : View μ κ τ} {n g bound : Nat}

/-- The blocks of lane `i` other than the current one: those before `j` are delivered, those
behind it are ready. -/
structure View.Around (v : View μ κ τ) (n g i j : Nat) (m : μ) : Prop where
  before : ∀ j' < j, j' < n → j' % g = i → v.Delivered j' m
  behind : ∀ j', j < j' → j' < n → j' % g = i → v.Ready j' m

/-- Where lane `i` stands, and how many steps it may still take. -/
inductive View.Stands (v : View μ κ τ) (n g bound i : Nat) : Nat → μ → Phase κ τ → Prop
  | head {k : κ} {j b : Nat} {m : μ} (hat : v.At k j) (hlane : j % g = i)
      (hready : j < n → v.Ready j m) (around : v.Around n g i j m)
      (hb : (n - j) * (bound + 1) ≤ b) : Stands v n g bound i b m (.head k)
  | body {k : κ} {t : τ} {j b b' : Nat} {m : μ} (hat : v.At k j) (hlane : j % g = i)
      (hlt : j < n) (hworking : v.Working j b' m t) (around : v.Around n g i j m)
      (hb : (n - (j + 1)) * (bound + 1) + b' + 1 ≤ b) : Stands v n g bound i b m (.body k t)

variable {j : Nat} {m : μ}

theorem View.Around.touches {i : Nat} {m' : μ} (obeys : l.Obeys v n g bound)
    (around : v.Around n g i j m) {j₀ : Nat} (hj₀ : j₀ < n) (htouches : v.Touches j₀ m m')
    (hapart : ∀ j', j' ≠ j → j' % g = i → j₀ ≠ j') : v.Around n g i j m' where
  before j' hj' hn hlane :=
    obeys.delivered (hapart j' (by omega) hlane) hj₀ hn htouches (around.before j' hj' hn hlane)
  behind j' hj' hn hlane :=
    obeys.ready (hapart j' (by omega) hlane) hj₀ hn htouches (around.behind j' hj' hn hlane)

/-- A step of the body leaves the lane at the same block, or at its next one. -/
theorem Obeys.settle (obeys : l.Obeys v n g bound) (hg : 0 < g) {i b : Nat} {r : μ × Option τ}
    (hat : v.At k j) (hlane : j % g = i) (hlt : j < n) (around : v.Around n g i j m)
    (hproceeds : v.Proceeds j b m r) :
    ∃ b' < (n - (j + 1)) * (bound + 1) + b + 1,
      v.Stands n g bound i b' (l.settle k r).1 (l.settle k r).2 := by
  obtain ⟨htouches, hrest⟩ := hproceeds
  have around' : v.Around n g i j r.1 :=
    around.touches obeys hlt htouches fun j' hne _ => Ne.symm hne
  unfold Loop.settle
  cases hr : r.2 with
  | some t =>
    rw [hr] at hrest
    obtain ⟨b', hb', hworking⟩ := hrest
    exact ⟨_, by omega, .body hat hlane hlt hworking around' (Nat.le_refl _)⟩
  | none =>
    rw [hr] at hrest
    have hrow : (n - (j + g)) * (bound + 1) ≤ (n - (j + 1)) * (bound + 1) :=
      Nat.mul_le_mul_right _ (by omega)
    have hnext : (j + g) % g = i := by rw [Nat.add_mod_right, hlane]
    refine ⟨(n - (j + g)) * (bound + 1), by omega, .head (obeys.next_at hat hlt) hnext ?_ ?_
      (Nat.le_refl _)⟩
    · intro hn
      exact around'.behind _ (by omega) hn hnext
    · refine ⟨fun j' hj' hn hlane' => ?_, fun j' hj' hn hlane' =>
        around'.behind j' (by omega) hn hlane'⟩
      -- the block that was just delivered, or one of those before it
      rcases Nat.lt_trichotomy j' j with hlt' | rfl | hgt
      · exact around'.before j' hlt' hn hlane'
      · exact hrest
      · have hmod : j' % g = j % g := by rw [hlane', hlane]
        have hzero := Nat.sub_mod_eq_zero_of_mod_eq hmod
        rw [Nat.mod_eq_of_lt (by omega)] at hzero
        omega

theorem Obeys.keeps (obeys : l.Obeys v n g bound) (hg : 0 < g) :
    l.program.Keeps fun (i : Fin g) => v.Stands n g bound i where
  own {i b m s} hstands hended := by
    cases hstands with
    | head hat hlane hready around hb =>
      rename_i k j
      have hgoing : l.going k = true := by
        simpa [program] using hended
      have hlt := (obeys.going_iff hat).mp hgoing
      obtain ⟨b', hb', hstands'⟩ := obeys.settle hg hat hlane hlt around
        (obeys.enter hat hlt (hready hlt))
      have hrow : (n - j) * (bound + 1) = (n - (j + 1)) * (bound + 1) + (bound + 1) := by
        rw [← Nat.succ_mul]
        congr 1
        omega
      exact ⟨b', by omega, hstands'⟩
    | body hat hlane hlt hworking around hb =>
      obtain ⟨b', hb', hstands'⟩ := obeys.settle hg hat hlane hlt around
        (obeys.step hat hlt hworking)
      exact ⟨b', by omega, hstands'⟩
  other {i i' b b' m s t} hne hstands hended hstands' := by
    -- the block on which lane `i` works
    obtain ⟨j₀, hlane₀, hlt₀, htouches⟩ : ∃ j₀, j₀ % g = i ∧ j₀ < n ∧
        v.Touches j₀ m (l.program.step m s).1 := by
      have hsettle : ∀ k r, (l.settle k r).1 = r.1 := by
        intro k r
        unfold Loop.settle
        split <;> rfl
      cases hstands with
      | head hat hlane hready around hb =>
        rename_i k j
        have hgoing : l.going k = true := by
          simpa [program] using hended
        have hlt := (obeys.going_iff hat).mp hgoing
        refine ⟨j, hlane, hlt, ?_⟩
        show v.Touches j m (l.settle k (l.enter m k)).1
        rw [hsettle]
        exact (obeys.enter hat hlt (hready hlt)).1
      | body hat hlane hlt hworking around hb =>
        rename_i k t j c
        refine ⟨j, hlane, hlt, ?_⟩
        show v.Touches j m (l.settle k (l.step m k t)).1
        rw [hsettle]
        exact (obeys.step hat hlt hworking).1
    have hapart : ∀ j', j' % g = i' → j₀ ≠ j' := by
      rintro j' hj' rfl
      exact hne (Fin.ext (hlane₀.symm.trans hj'))
    cases hstands' with
    | head hat hlane hready around hb =>
      refine .head hat hlane (fun hn => ?_)
        (around.touches obeys hlt₀ htouches fun j' _ hj' => hapart j' hj') hb
      exact obeys.ready (hapart _ hlane) hlt₀ hn htouches (hready hn)
    | body hat hlane hlt hworking around hb =>
      exact .body hat hlane hlt (obeys.working (hapart _ hlane) hlt₀ hlt htouches hworking)
        (around.touches obeys hlt₀ htouches fun j' _ hj' => hapart j' hj') hb

variable {schedule : List (Fin g)}

section Runs

variable {m : μ} {start : Fin g → κ}

/-- The lanes at the beginning. -/
def launch (m : μ) (start : Fin g → κ) : Config (Fin g) μ (Phase κ τ) :=
  ⟨m, fun i => .head (start i)⟩

theorem Obeys.stands (hstart : ∀ i, v.At (start i) i)
    (hready : ∀ j < n, v.Ready j m) (i : Fin g) :
    v.Stands n g bound i (n * (bound + 1)) m (.head (start i) : Phase κ τ) := by
  refine .head (hstart i) (Nat.mod_eq_of_lt i.isLt) (hready i) ⟨?_, fun j' _ hn _ => hready j' hn⟩
    (Nat.mul_le_mul_right _ (by omega))
  intro j' hj' _ hlane
  -- no block of the lane stands before its first one
  rw [Nat.mod_eq_of_lt (by omega)] at hlane
  omega

/-- When all lanes have ended, all blocks are delivered. -/
theorem Obeys.all_delivered (obeys : l.Obeys v n g bound) (hg : 0 < g)
    (hstart : ∀ i, v.At (start i) i) (hready : ∀ j < n, v.Ready j m)
    (hended : l.program.Ended (l.program.run schedule (launch m start))) (hj : j < n) :
    v.Delivered j (l.program.run schedule (launch m start)).shared := by
  obtain ⟨b, -, hstands, -⟩ := (obeys.keeps hg).run
    (c := launch m start) (fun i => Obeys.stands hstart hready i) schedule
    ⟨j % g, Nat.mod_lt j hg⟩
  have hend := hended ⟨j % g, Nat.mod_lt j hg⟩
  revert hend hstands
  generalize (l.program.run schedule (launch m start)).lane ⟨j % g, Nat.mod_lt j hg⟩ = s
  intro hstands hend
  cases hstands with
  | body hat hlane hlt hworking around hb => exact absurd hend (by simp [program])
  | head hat hlane hready around hb =>
    rename_i k j'
    have hstop : ¬ j' < n := by
      rw [← obeys.going_iff hat]
      simpa [program] using hend
    exact around.before j (by omega) hj rfl

/-- Every schedule with enough turns for each lane lets all lanes end. -/
theorem Obeys.all_ended (obeys : l.Obeys v n g bound) (hg : 0 < g) (hstart : ∀ i, v.At (start i) i)
    (hready : ∀ j < n, v.Ready j m) (hturns : ∀ i, n * (bound + 1) < schedule.count i) :
    l.program.Ended (l.program.run schedule (launch m start)) := by
  intro i
  obtain ⟨b, -, -, hended | hcount⟩ := (obeys.keeps hg).run
    (c := launch m start) (fun i => Obeys.stands hstart hready i) schedule i
  · exact hended
  · have := hturns i
    omega

end Runs

end Loop

end Parallel
