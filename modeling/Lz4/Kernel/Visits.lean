import Mathlib.Tactic.Ring
import Lz4.Kernel.Compressed

/-!
# Where the search of the kernel goes

The acceleration reaches the kernel as any `int`: neither the command line nor the daemon looks
at it.  The search shifts it left by 6 into the counter `searchMatchNb`, and shifts the counter
right by 6 for its step.  So the step is negative for half of all accelerations, and the search
goes back, out of the block.

## Strategy

`Stride` says how far a search has come after a number of rounds.  It has come far enough, in a
block of less than 2 GB, that the counter has not overflowed, unless it began within 128 of the
largest `int`.  What remains is a variant: a match moves the anchor, and a round moves the
position or, with an acceleration of zero, the counter.

In the other direction, a counter that begins below zero goes back in the second round, and one
that begins at the last multiple of 64 overflows at the end of a block of 2 GB.
-/

namespace Lz4.Kernel

open FlatMemory Machine
open Encoder (Table wrap32 wrap32_eq catchUpLoop_spec)

/-! ## Visited positions -/

/-- The position whose word the search has just read. -/
def Place.position : Place → Option Int
  | .search _ _ forwardIp _ _ _ _ => some forwardIp
  | .nextMatch .. => none

/-- The states of a call between two passes. -/
inductive Visited (b : Build) (j : Job) (h : Heap) (table : Table) : Work → Prop
  | start {w : Work} (hstart : compressStart b j h table = .next w) : Visited b j h table w
  | pass {w w' : Work} (visited : Visited b j h table w) (hpass : compressPass b j w = .next w') :
      Visited b j h table w'

/-- The search reads inside the block, never goes back, and the call returns. -/
structure Orderly (b : Build) (j : Job) (h : Heap) (table : Table) : Prop where
  inside : ∀ w position, Visited b j h table w → w.place.position = some position →
    j.src ≤ position ∧ position + 4 ≤ j.iend
  ordered : ∀ w w' position position', Visited b j h table w → compressPass b j w = .next w' →
    w.place.position = some position → w'.place.position = some position' → position ≤ position'
  ends : ∀ w, compressStart b j h table = .next w →
    ∃ fuel o, iterate (fun w => some (compressPass b j w)) fuel w = some o

/-! ## The pace of a search -/

/-- The first value of the counter. -/
def searchStart (acceleration : Int) : Int := wrap32 (acceleration * 2 ^ 6)

theorem searchStart_multiple (acceleration : Int) :
    64 * (searchStart acceleration / 2 ^ 6) = searchStart acceleration := by
  unfold searchStart wrap32
  omega

/-- The counters that do not make a search go back. -/
def Steady (acceleration : Int) : Prop :=
  0 ≤ searchStart acceleration ∧ searchStart acceleration ≤ 2 ^ 31 - 128

instance (acceleration : Int) : Decidable (Steady acceleration) := instDecidableAnd

variable {b : Build} {j : Job} {h : Heap} {table : Table} {anchor op ip mtch : Int}

/-- A search after `rounds` rounds. -/
structure Stride (j : Job) (forwardIp step searchMatchNb rounds : Int) : Prop where
  rounds_ge : 0 ≤ rounds
  count_eq : searchMatchNb = searchStart j.acceleration + rounds
  step_eq : step = if rounds = 0 then 1 else (searchMatchNb - 1) / 2 ^ 6
  src_le : j.src ≤ forwardIp
  growing : rounds * rounds ≤ 128 * (forwardIp - j.src) + 129 * rounds
  striding : (rounds - 1) * (searchStart j.acceleration / 2 ^ 6) ≤ forwardIp - j.src

section Stride

variable {forwardIp step searchMatchNb rounds : Int}

theorem stride_start (steady : Steady j.acceleration) (hsrc : j.src ≤ ip) :
    Stride j ip 1 (searchStart j.acceleration) 0 := by
  have hstart := steady.1
  refine ⟨by omega, by omega, rfl, hsrc, by omega, ?_⟩
  omega

section

variable (stride : Stride j forwardIp step searchMatchNb rounds)

include stride

theorem Stride.step_ge (steady : Steady j.acceleration) : 0 ≤ step := by
  have hstart := steady.1
  obtain ⟨hrounds, hcount, hstep, -, -, -⟩ := stride
  split at hstep
  · omega
  · omega

/-- The position grows with the square of the rounds. -/
theorem Stride.rounds_lt (hsize : j.srcSize < 2 ^ 31) (hnear : forwardIp ≤ j.iend) :
    rounds < 2 ^ 20 := by
  have hiend : j.iend = j.src + j.srcSize := rfl
  have hgrowing := stride.growing
  by_contra hlarge
  have hsquare : 2 ^ 20 * rounds ≤ rounds * rounds :=
    Int.mul_le_mul_of_nonneg_right (by omega) stride.rounds_ge
  omega

/-- A counter near the largest `int` makes steps of almost 32 MB. -/
theorem Stride.few_rounds (hsize : j.srcSize < 2 ^ 31) (hnear : forwardIp ≤ j.iend)
    (hlarge : 2 ^ 31 - 2 ^ 21 ≤ searchStart j.acceleration) : rounds ≤ 66 := by
  have hiend : j.iend = j.src + j.srcSize := rfl
  have hstriding := stride.striding
  by_contra hmany
  have hfar : (rounds - 1) * (2 ^ 25 - 2 ^ 15) ≤
      (rounds - 1) * (searchStart j.acceleration / 2 ^ 6) :=
    Int.mul_le_mul_of_nonneg_left (by omega) (by omega)
  omega

theorem Stride.no_overflow (steady : Steady j.acceleration) (hsize : j.srcSize < 2 ^ 31)
    (hnear : forwardIp ≤ j.iend) : searchMatchNb + 1 < 2 ^ 31 := by
  have hstart := steady.2
  have hcount := stride.count_eq
  by_cases hlarge : 2 ^ 31 - 2 ^ 21 ≤ searchStart j.acceleration
  · have hfew := stride.few_rounds hsize hnear hlarge
    omega
  · have hfew := stride.rounds_lt hsize hnear
    omega

theorem Stride.next (steady : Steady j.acceleration) (hsize : j.srcSize < 2 ^ 31)
    (hnear : forwardIp ≤ j.iend) :
    Stride j (forwardIp + step) (searchMatchNb / 2 ^ 6) (wrap32 (searchMatchNb + 1)) (rounds +
      1) := by
  have hstart := steady.1
  have hroom := stride.no_overflow steady hsize hnear
  obtain ⟨hrounds, rfl, hstep, hsrc, hgrowing, hstriding⟩ := stride
  have hsquare : (rounds + 1) * (rounds + 1) = rounds * rounds + 2 * rounds + 1 := by ring
  have hproduct : (rounds + 1 - 1) * (searchStart j.acceleration / 2 ^ 6) =
      (rounds - 1) * (searchStart j.acceleration / 2 ^ 6) +
        searchStart j.acceleration / 2 ^ 6 := by ring
  rw [wrap32_eq (by omega) hroom]
  refine ⟨by omega, by omega, ?_, by omega, ?_, ?_⟩
  · rw [if_neg (by omega), Int.add_sub_cancel]
  · split at hstep
    · omega
    · omega
  · split at hstep
    · subst rounds
      simpa using by omega
    · omega

end

end Stride

/-! ## A pass -/

/-- A bound on the rounds of one search. -/
def Job.rounds (j : Job) : Nat := j.srcSize.toNat + 70

/-- The state of a call whose search stays in the block, with a bound on the passes that are
left. -/
def Ahead (j : Job) (budget : Nat) (w : Work) : Prop :=
  match w.place with
  | .search anchor _ forwardIp step searchMatchNb _ _ =>
    j.src ≤ anchor ∧ anchor ≤ forwardIp ∧ forwardIp ≤ j.mflimitPlusOne ∧
      (∃ rounds, Stride j forwardIp step searchMatchNb rounds) ∧
      (j.iend - anchor).toNat * j.rounds +
        ((j.mflimitPlusOne - forwardIp).toNat + (65 - searchMatchNb).toNat + 1) ≤ budget
  | .nextMatch _ _ ip _ =>
    j.src ≤ ip ∧ ip ≤ j.mflimitPlusOne ∧ (j.iend - ip).toNat * j.rounds ≤ budget

/-- A pass leaves fewer passes. -/
def Moves (j : Job) (budget : Nat) (x : Step Work Outcome) : Prop :=
  x.Satisfies (fun w => ∃ budget' < budget, Ahead j budget' w) fun _ => True

theorem enterSearch_ahead (steady : Steady j.acceleration) (hsrc : j.src ≤ anchor)
    (hanchor : anchor < j.mflimitPlusOne) :
    Ahead j ((j.iend - anchor).toNat * j.rounds + (j.rounds - 1))
      ⟨h, table, enterSearch b j h.mem anchor (anchor + 1) op⟩ := by
  have hstart := steady.1
  have hiend : j.iend = j.src + j.srcSize := rfl
  have hmflimit : j.mflimitPlusOne = j.iend - 12 + 1 := rfl
  have hrounds : j.rounds = j.srcSize.toNat + 70 := rfl
  refine ⟨hsrc, by omega, by omega, ⟨0, stride_start steady (by omega)⟩, ?_⟩
  rw [← searchStart]
  omega

variable {budget : Nat}

theorem emitLiterals_moves (hsrc : j.src ≤ anchor) (hanchor : anchor ≤ ip)
    (hip : ip ≤ j.mflimitPlusOne) (hbudget : (j.iend - anchor).toNat * j.rounds < budget) :
    Moves j budget (emitLiterals j h table anchor op ip mtch) := by
  obtain ⟨i, hcatch, hback, -, -⟩ := catchUpLoop_spec h.mem anchor j.src (ip - anchor).toNat ip
    mtch hanchor
  rw [emitLiterals, hcatch]
  dsimp only
  split
  · trivial
  · refine ⟨_, hbudget, by omega, by omega, ?_⟩
    exact Nat.mul_le_mul_right _ (by omega)

theorem afterMatch_moves (steady : Steady j.acceleration) (hsrc : j.src ≤ ip)
    (hbudget : (j.iend - ip).toNat * j.rounds + (j.rounds - 1) < budget) :
    Moves j budget (afterMatch b j h table ip op) := by
  unfold afterMatch
  split
  · trivial
  · dsimp only
    split
    · exact ⟨_, hbudget, hsrc, by omega, Nat.le_add_right _ _⟩
    · exact ⟨_, hbudget, enterSearch_ahead steady hsrc (by omega)⟩

theorem matchPass_moves {token : Int} (steady : Steady j.acceleration)
    (ahead : Ahead j budget ⟨h, table, .nextMatch op token ip mtch⟩) :
    Moves j budget (matchPass b j h table op token ip mtch) := by
  obtain ⟨hsrc, hip, hbudget⟩ := ahead
  have hmflimit : j.mflimitPlusOne = j.iend - 12 + 1 := rfl
  have hrounds : j.rounds = j.srcSize.toNat + 70 := rfl
  rw [matchPass]
  refine afterMatch_moves steady (by omega) (Nat.lt_of_lt_of_le (budget_lt ?_ ?_) hbudget)
  · omega
  · omega

variable {forwardIpValue forwardH : Nat} {searchMatchNb forwardIp step : Int}

theorem searchPass_moves (steady : Steady j.acceleration) (hsize : j.srcSize < 2 ^ 31)
    (ahead : Ahead j budget ⟨h, table,
      .search anchor op forwardIp step searchMatchNb forwardH forwardIpValue⟩) :
    Moves j budget
      (searchPass b j h table anchor op forwardIp step searchMatchNb forwardH forwardIpValue) := by
  obtain ⟨hsrc, hanchor, hforward, ⟨rounds, stride⟩, hbudget⟩ := ahead
  have hmflimit : j.mflimitPlusOne = j.iend - 12 + 1 := rfl
  have hstart := steady.1
  unfold searchPass
  dsimp only
  split
  · trivial
  · split
    · exact emitLiterals_moves hsrc hanchor (by omega) (by omega)
    · have hroom := stride.no_overflow steady hsize (by omega)
      have hnext := stride.next steady hsize (by omega)
      obtain ⟨hrounds, hcount, hstep, -, -, -⟩ := stride
      have hwrap := wrap32_eq (x := searchMatchNb + 1) (by omega) hroom
      refine ⟨_, ?_, hsrc, by omega, by omega, ⟨_, hnext⟩, Nat.le_refl _⟩
      refine Nat.lt_of_lt_of_le (Nat.add_lt_add_left ?_ _) hbudget
      -- the position moves unless the step is zero, and then the counter is below 65
      split at hstep
      · omega
      · omega

variable {w : Work}

theorem compressPass_moves (steady : Steady j.acceleration) (hsize : j.srcSize < 2 ^ 31)
    (ahead : Ahead j budget w) : Moves j budget (compressPass b j w) := by
  obtain ⟨h, table, place⟩ := w
  cases place with
  | search anchor op forwardIp step searchMatchNb forwardH forwardIpValue =>
    exact searchPass_moves steady hsize ahead
  | nextMatch op token ip mtch => exact matchPass_moves steady ahead

/-! ## A call -/

theorem compressStart_ahead (steady : Steady j.acceleration)
    (hstart : compressStart b j h table = .next w) : ∃ budget, Ahead j budget w := by
  unfold compressStart at hstart
  split at hstart
  · cases hstart
  · have hiend : j.iend = j.src + j.srcSize := rfl
    have hmflimit : j.mflimitPlusOne = j.iend - 12 + 1 := rfl
    cases hstart
    exact ⟨_, enterSearch_ahead steady (Int.le_refl _) (by omega)⟩

theorem Visited.ahead (visited : Visited b j h table w) (steady : Steady j.acceleration)
    (hsize : j.srcSize < 2 ^ 31) : ∃ budget, Ahead j budget w := by
  induction visited with
  | start hstart => exact compressStart_ahead steady hstart
  | pass visited hpass ih =>
    obtain ⟨budget, ahead⟩ := ih
    have hmoves := compressPass_moves (b := b) steady hsize ahead
    rw [hpass] at hmoves
    obtain ⟨budget', -, ahead'⟩ := hmoves
    exact ⟨budget', ahead'⟩

theorem Ahead.position {position : Int} (ahead : Ahead j budget w)
    (hposition : w.place.position = some position) :
    j.src ≤ position ∧ position ≤ j.mflimitPlusOne := by
  obtain ⟨h, table, place⟩ := w
  cases place with
  | nextMatch op token ip mtch => cases hposition
  | search anchor op forwardIp step searchMatchNb forwardH forwardIpValue =>
    cases hposition
    obtain ⟨hsrc, hanchor, hforward, -, -⟩ := ahead
    exact ⟨by omega, hforward⟩

/-- Within a search the positions are a step apart. -/
theorem searchPass_position {position : Int}
    (hpass : searchPass b j h table anchor op forwardIp step searchMatchNb forwardH forwardIpValue =
      .next w) (hposition : w.place.position = some position) : position = forwardIp + step := by
  unfold searchPass emitLiterals at hpass
  dsimp only at hpass
  split at hpass
  · cases hpass
  · split at hpass
    · split at hpass
      · cases hpass
      · cases hpass
        cases hposition
    · cases hpass
      cases hposition
      rfl

variable {w' : Work} {position' : Int}

theorem Ahead.ordered {position : Int} (ahead : Ahead j budget w) (steady : Steady j.acceleration)
    (hpass : compressPass b j w = .next w') (hposition : w.place.position = some position)
    (hposition' : w'.place.position = some position') : position ≤ position' := by
  obtain ⟨h, table, place⟩ := w
  cases place with
  | nextMatch op token ip mtch => cases hposition
  | search anchor op forwardIp step searchMatchNb forwardH forwardIpValue =>
    cases hposition
    obtain ⟨-, -, -, ⟨rounds, stride⟩, -⟩ := ahead
    have hstep := stride.step_ge steady
    have hnext := searchPass_position hpass hposition'
    omega

/-- The step of a search that begins with a steady counter is never negative. -/
theorem orderly_of_steady (b : Build) (h : Heap) (table : Table) (steady : Steady j.acceleration)
    (hsize : j.srcSize < 2 ^ 31) : Orderly b j h table where
  inside := by
    intro w position visited hposition
    obtain ⟨budget, ahead⟩ := visited.ahead steady hsize
    obtain ⟨hlow, hhigh⟩ := ahead.position hposition
    have hmflimit : j.mflimitPlusOne = j.iend - 12 + 1 := rfl
    exact ⟨hlow, by omega⟩
  ordered := by
    intro w w' position position' visited hpass hposition hposition'
    obtain ⟨budget, ahead⟩ := visited.ahead steady hsize
    exact ahead.ordered steady hpass hposition hposition'
  ends := by
    intro w hstart
    obtain ⟨budget, ahead⟩ := compressStart_ahead steady hstart
    obtain ⟨o, hends, -⟩ :
        ∃ o, iterate (fun w => some (compressPass b j w)) (budget + 1) w = some o ∧ True :=
      iterate_budget (Ahead j) (fun budget w ahead => ⟨_, rfl, compressPass_moves steady hsize ahead⟩)
        ahead (Nat.lt_succ_self budget)
    exact ⟨_, o, hends⟩

/-! ## Searches that go back -/

/-- Rounds of one search that find no match. -/
def searchRounds (b : Build) (j : Job) : Nat → Work → Option Work
  | 0, w => some w
  | n + 1, w =>
    match w.place with
    | .nextMatch .. => none
    | .search anchor op forwardIp step searchMatchNb forwardH forwardIpValue =>
      match searchPass b j w.heap w.table anchor op forwardIp step searchMatchNb forwardH
        forwardIpValue with
      | .done _ => none
      | .next w' => searchRounds b j n w'

variable {n : Nat}

theorem searchRounds_succ (hrounds : searchRounds b j (n + 1) w = some w') :
    ∃ w₁, compressPass b j w = .next w₁ ∧ searchRounds b j n w₁ = some w' := by
  obtain ⟨heap, table', place⟩ := w
  cases place with
  | nextMatch op token ip mtch => cases hrounds
  | search anchor op forwardIp step searchMatchNb forwardH forwardIpValue =>
    rw [searchRounds] at hrounds
    dsimp only at hrounds
    split at hrounds
    · cases hrounds
    · rename_i w₁ hpass
      exact ⟨w₁, hpass, hrounds⟩

theorem Visited.rounds (visited : Visited b j h table w) (hrounds : searchRounds b j n w = some w')
    :
    Visited b j h table w' := by
  induction n generalizing w with
  | zero =>
    cases hrounds
    exact visited
  | succ n ih =>
    obtain ⟨w₁, hpass, hrest⟩ := searchRounds_succ hrounds
    exact ih (.pass visited hpass) hrest

/-- The acceleration is only read when a search begins. -/
theorem searchRounds_acceleration (b : Build) (j : Job) (acceleration : Int) (n : Nat) (w : Work) :
    searchRounds b { j with acceleration } n w = searchRounds b j n w := by
  induction n generalizing w with
  | zero => rfl
  | succ n ih =>
    rw [searchRounds, searchRounds]
    split
    · rfl
    · have hpass : searchPass b { j with acceleration } = searchPass b j := rfl
      rw [hpass]
      split
      · rfl
      · exact ih _

theorem not_orderly_of_back {w₀ : Work} {position : Int}
    (hstart : compressStart b j h table = .next w₀) (hrounds : searchRounds b j n w₀ = some w)
    (hround : searchRounds b j 1 w = some w') (hposition : w.place.position = some position)
    (hposition' : w'.place.position = some position') (hback : position' < position) :
    ¬ Orderly b j h table := by
  intro orderly
  have visited := (Visited.start hstart).rounds hrounds
  obtain ⟨w₁, hpass, ⟨⟩⟩ := searchRounds_succ hround
  have hordered := orderly.ordered w w' position position' visited hpass hposition hposition'
  omega

/-- A block of 13 bytes, the shortest with a search, has a word at each position. -/
def shortJob (acceleration : Int) : Job := ⟨0, 100, 13, 100, acceleration, 1⟩

def shortHeap : Heap := ⟨fun a => UInt8.ofNat a.toNat, []⟩

/-- The table after the first `n` positions of the short block. -/
def shortTable : Nat → Table
  | 0 => fun _ => 0
  | n + 1 => Build.epochTagged.putIndexOnHashMasked (shortTable n) 1 n
      (Build.epochTagged.hash4 (readLE shortHeap.mem n 4))

theorem short_unmatched (hn : n = 1 ∨ n = 2) (acceleration : Int) :
    tryIndex (shortJob acceleration) shortHeap.mem ((shortJob acceleration).index n)
      (readLE shortHeap.mem n 4)
      (Build.epochTagged.getIndexOnHashMasked (shortTable n) 1 ((shortJob acceleration).index n)
      (Build.epochTagged.hash4 (readLE shortHeap.mem n 4))) = none := by
  have hjob : tryIndex (shortJob acceleration) = tryIndex (shortJob 1) := rfl
  have hindex : (shortJob acceleration).index = (shortJob 1).index := rfl
  rw [hjob, hindex]
  obtain rfl | rfl := hn
  · decide +kernel
  · decide +kernel

/-- The state of the search of the short block at position `n`. -/
def shortWork (n : Nat) (position step searchMatchNb : Int) : Work :=
  ⟨shortHeap, shortTable n, .search 0 100 position step searchMatchNb
    (Build.epochTagged.hash4 (readLE shortHeap.mem position 4)) (readLE shortHeap.mem position 4)⟩

theorem short_round (hn : n = 1 ∨ n = 2) (acceleration step searchMatchNb : Int)
    (hstep : n + step ≤ 2) :
    searchRounds .epochTagged (shortJob acceleration) 1 (shortWork n n step searchMatchNb) =
      some (shortWork (n + 1) (n + step) (searchMatchNb / 2 ^ 6) (wrap32 (searchMatchNb + 1))) := by
  have hmflimit : (shortJob acceleration).mflimitPlusOne = 2 := rfl
  have hindex : (shortJob acceleration).index n = n := by
    obtain rfl | rfl := hn
    · rfl
    · rfl
  have hnone := short_unmatched hn acceleration
  rw [hindex] at hnone
  have hpass : searchPass .epochTagged (shortJob acceleration) shortHeap (shortTable n) 0 100 n step
      searchMatchNb (Build.epochTagged.hash4 (readLE shortHeap.mem n 4))
      (readLE shortHeap.mem n 4) =
        .next (shortWork (n + 1) (n + step) (searchMatchNb / 2 ^ 6)
          (wrap32 (searchMatchNb + 1))) := by
    rw [searchPass]
    rw [if_neg (by omega), hindex]
    split
    · rename_i mtch hsome
      exact absurd (hnone.symm.trans hsome) (by simp)
    · rfl
  rw [searchRounds, shortWork]
  dsimp only
  rw [hpass]
  rfl

variable {acceleration : Int}

/-- In the second round the step is the counter's. -/
theorem short_back (hnegative : searchStart acceleration < 0) :
    ¬ Orderly .epochTagged (shortJob acceleration) shortHeap (shortTable 0) := by
  have hstart : compressStart .epochTagged (shortJob acceleration) shortHeap (shortTable 0) =
      .next (shortWork 1 1 1 (searchStart acceleration)) := rfl
  have hfirst := short_round (.inl rfl) acceleration 1 (searchStart acceleration) (by omega)
  have hsecond := short_round (.inr rfl) acceleration (searchStart acceleration / 2 ^ 6)
    (wrap32 (searchStart acceleration + 1)) (by omega)
  refine not_orderly_of_back hstart hfirst hsecond rfl rfl ?_
  omega

/-- A block of 2 GB, with a word of its own at each position that the last multiple of 64 leads
the search to. -/
def hugeJob (acceleration : Int) : Job := ⟨0, 2 ^ 32, 2 ^ 31 - 1, 2 ^ 32, acceleration, 1⟩

def hugeHeap : Heap :=
  ⟨fun a => if a < 8 then UInt8.ofNat a.toNat else UInt8.ofNat (a / 2 ^ 24).toNat, []⟩

theorem huge_back (hlast : searchStart acceleration = 2 ^ 31 - 64) :
    ¬ Orderly .epochTagged (hugeJob acceleration) hugeHeap fun _ => 0 := by
  set start := fun searchMatchNb => (⟨hugeHeap,
    Build.epochTagged.putIndexOnHashMasked (fun _ => 0) 1 0
      (Build.epochTagged.hash4 (readLE hugeHeap.mem 0 4)),
    .search 0 (2 ^ 32) 1 1 searchMatchNb (Build.epochTagged.hash4 (readLE hugeHeap.mem 1 4))
      (readLE hugeHeap.mem 1 4)⟩ : Work)
  have hstart : compressStart .epochTagged (hugeJob acceleration) hugeHeap (fun _ => 0) =
      .next (start (searchStart acceleration)) := rfl
  rw [hlast] at hstart
  -- the counter overflows in the round that reaches the end of the block
  have hback : ((searchRounds .epochTagged (hugeJob 0) 65 (start (2 ^ 31 - 64))).bind fun w =>
      (searchRounds .epochTagged (hugeJob 0) 1 w).bind fun w' =>
        w.place.position.bind fun position =>
          w'.place.position.map fun position' => (position, position')) =
        some (2147483586, 2113929154) := by decide +kernel
  obtain ⟨w, hrounds, hback⟩ := Option.bind_eq_some_iff.mp hback
  obtain ⟨w', hround, hback⟩ := Option.bind_eq_some_iff.mp hback
  obtain ⟨position, hposition, hback⟩ := Option.bind_eq_some_iff.mp hback
  obtain ⟨position', hposition', hpair⟩ := Option.map_eq_some_iff.mp hback
  have hsame (n : Nat) (w : Work) : searchRounds .epochTagged (hugeJob acceleration) n w =
      searchRounds .epochTagged (hugeJob 0) n w :=
    searchRounds_acceleration .epochTagged (hugeJob 0) acceleration n w
  rw [← hsame] at hrounds hround
  cases hpair
  exact not_orderly_of_back hstart hrounds hround hposition hposition' (by omega)

/-- The search of every block and every table stays in its block, goes forward and ends exactly
for the accelerations with a steady counter. -/
theorem search_orderly_iff (acceleration : Int) :
    (∀ (b : Build) (j : Job) (h : Heap) (table : Table), j.acceleration = acceleration →
      j.srcSize < 2 ^ 31 → Orderly b j h table) ↔ Steady acceleration := by
  constructor
  · intro horderly
    by_contra hunsteady
    have hmultiple := searchStart_multiple acceleration
    have hrange : searchStart acceleration < 2 ^ 31 := by
      unfold searchStart wrap32
      omega
    by_cases hnegative : searchStart acceleration < 0
    · exact short_back hnegative (horderly _ _ _ _ rfl (show (13 : Int) < 2 ^ 31 by decide))
    · have hlast : searchStart acceleration = 2 ^ 31 - 64 := by
        unfold Steady at hunsteady
        omega
      exact huge_back hlast (horderly _ _ _ _ rfl (show (2 ^ 31 - 1 : Int) < 2 ^ 31 by decide))
  · rintro steady b j h table rfl hsize
    exact orderly_of_steady b h table steady hsize

/-- An acceleration below zero, as `-1` on the command line. -/
theorem search_disorderly :
    ¬ Orderly .epochTagged (shortJob (-1)) shortHeap (shortTable 0) ∧ ¬ Steady (-1) :=
  ⟨short_back (by decide), by decide⟩

end Lz4.Kernel
