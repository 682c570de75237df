import Mathlib.Order.Interval.Set.Basic
import Lz4.Gpu.RoundTrip

/-!
# The plan for a compression

`lz4_build_comp_plan` chooses how many lanes work on the blocks of a file.  The number of lanes
comes from the compute units, the budget for hash tables and the number of blocks; the number of
work items that are launched is rounded up to whole work groups.  The kernel then gives lane `wi`
the blocks `wi`, `wi + active_lanes` and so on, the part `wi` of the pool of hash tables, and a new
epoch for each of its blocks.

In round `r` a lane stands at `Batch.laneAt`, and these are the places it visits (`visits_iff`).
So each block has one lane, the parts of the pool are disjoint and inside it, and no lane takes
more rounds than the plan says (`buildCompPlan_partitions`).
-/

namespace Lz4.Kernel

/-- `dict_entries` times the size of an entry. -/
def Build.dictBytes (b : Build) : Nat := 2 ^ b.hashLog * (b.dictEntryBits / 8)

/-- The bytes of the pool behind `globalHashTablePool + wi * dict_entries`. -/
def Build.dictSlice (b : Build) (wi : Nat) : Set Nat :=
  Set.Ico (wi * b.dictBytes) ((wi + 1) * b.dictBytes)

theorem Build.dictSlice_disjoint (b : Build) {i j : Nat} (hne : i ≠ j) {a : Nat}
    (hi : a ∈ b.dictSlice i) : a ∉ b.dictSlice j := by
  rintro ⟨hlow', hhigh'⟩
  obtain ⟨hlow, hhigh⟩ := hi
  rcases Nat.lt_or_gt_of_ne hne with hlt | hlt
  · exact Nat.lt_irrefl a (hhigh.trans_le ((Nat.mul_le_mul_right _ hlt).trans hlow'))
  · exact Nat.lt_irrefl a (hhigh'.trans_le ((Nat.mul_le_mul_right _ hlt).trans hlow))

namespace Batch

variable {c : Batch} {n : Nat}

/-- Lane `i` in round `r`. -/
def laneAt (c : Batch) (i r : Nat) : Lane :=
  ⟨i, i + r * c.activeLanes, (c.epochBase + 1 + r) % 2 ^ 32⟩

theorem laneAt_going (hblocks : c.totalBlocks = n) (hint : n < 2 ^ 31) (i r : Nat) :
    c.compressBlock.going (c.laneAt i r) = true ↔ i + r * c.activeLanes < n := by
  have htotal : (c.totalBlocks % 2 ^ 32).toNat = n := by omega
  simp only [compressBlock, laneAt, htotal, decide_eq_true_eq]

theorem next_laneAt {i r : Nat} (hfits : i + r * c.activeLanes + c.activeLanes < 2 ^ 32) :
    c.compressBlock.next (c.laneAt i r) = c.laneAt i (r + 1) := by
  rw [Nat.add_assoc, ← Nat.succ_mul] at hfits
  simp only [compressBlock, laneAt, Nat.mod_add_mod, Nat.add_assoc, ← Nat.succ_mul,
    Nat.mod_eq_of_lt hfits]

/-- A lane visits its rounds, as long as there are blocks. -/
theorem visits_iff (hblocks : c.totalBlocks = n) (hint : n < 2 ^ 31) (hlanes : c.activeLanes ≤ n)
    (i : Fin c.activeLanes) (k : Lane) :
    c.compressBlock.Visits (c.startLane i) k ↔
      ∃ r, k = c.laneAt i r ∧ i + r * c.activeLanes < n := by
  have hstart : c.startLane i = c.laneAt i 0 := by
    simp only [startLane, laneAt, Nat.zero_mul, Nat.add_zero]
  rw [hstart]
  constructor
  · intro visits
    induction visits with
    | first going => exact ⟨0, rfl, (laneAt_going hblocks hint i 0).1 going⟩
    | next visits going ih =>
      obtain ⟨r, rfl, hlt⟩ := ih
      rw [next_laneAt (by omega)] at going ⊢
      exact ⟨r + 1, rfl, (laneAt_going hblocks hint i (r + 1)).1 going⟩
  · rintro ⟨r, rfl, hlt⟩
    induction r with
    | zero => exact .first ((laneAt_going hblocks hint i 0).2 hlt)
    | succ r ih =>
      rw [Nat.succ_mul, ← Nat.add_assoc] at hlt
      have hnext := next_laneAt (c := c) (i := i) (r := r) (by omega)
      rw [← hnext]
      refine .next (ih (by omega)) ?_
      rw [hnext, laneAt_going hblocks hint, Nat.succ_mul, ← Nat.add_assoc]
      exact hlt

end Batch

end Lz4.Kernel

namespace Lz4.Gpu

open Kernel

/-- The build of the kernel, by `lz4_effective_dict_mode_for_block`. -/
def effectiveBuild (blockSize : Nat) : Build :=
  if blockSize ≤ 64 * 1024 then .cleared16 else .epochTagged

/-- The lanes of a launch share out `n` blocks, the pool and the epochs of a plan. -/
structure CompPlan.Partitions (plan : CompPlan) (localSize n : Nat) (c : Batch) : Prop where
  /-- Each block has one lane. -/
  owner : ∀ b < n, ∃! i : Fin c.activeLanes,
    ∃ k, c.compressBlock.Visits (c.startLane i) k ∧ k.b = b
  /-- Under every schedule a lane works on what it visits, and on nothing else. -/
  visited : ∀ {items : Nat} (schedule : List (Fin items)) (w : Workbench) (i : Fin c.activeLanes)
    (k : Lane) (t : Place), (c.run schedule w).lane i = .body k t →
      c.compressBlock.Visits (c.startLane i) k
  slices_disjoint : ∀ i j : Fin c.activeLanes, i ≠ j →
    ∀ a ∈ c.build.dictSlice i, a ∉ c.build.dictSlice j
  slices_inside : ∀ i : Fin c.activeLanes, c.build.dictSlice i ⊆ Set.Iio plan.dictTotalBytes
  whole_groups : localSize ∣ plan.launchedWiCount
  all_launched : c.activeLanes ≤ plan.launchedWiCount
  /-- The epochs of a lane follow each other, and there are not more than `blocks_per_owner`. -/
  epochs : ∀ (i : Fin c.activeLanes) (k : Lane), c.compressBlock.Visits (c.startLane i) k →
    ∃ r < plan.blocksPerOwner, k = c.laneAt i r

/-- None of the guards of `lz4_build_comp_plan` is needed for such a number of blocks. -/
theorem buildCompPlan_eq (h : Host) (blockSize : Nat) {numBlocks localSize : Nat}
    (hpos : 1 ≤ numBlocks) (hint : numBlocks < 2 ^ 31) :
    ∃ active, 0 < active ∧ active ≤ numBlocks ∧
      h.buildCompPlan blockSize numBlocks localSize =
        ⟨active, roundUpSize active localSize, active * (effectiveBuild blockSize).dictBytes,
          (numBlocks + active - 1) / active⟩ := by
  have hbytes : 2 ^ 14 * (if blockSize ≤ 64 * 1024 then 2 else 4) =
      (effectiveBuild blockSize).dictBytes := by
    unfold effectiveBuild
    split <;> rfl
  obtain ⟨hworkers, hworkersLe⟩ := h.chooseCompWorkerCount_bounds numBlocks localSize
  obtain ⟨howners, hownersLe⟩ := chooseCompDictOwnerCount_bounds hworkers
    h.chooseCompDictPoolBudgetBytes (effectiveBuild blockSize).dictBytes
  unfold Host.buildCompPlan
  dsimp only
  rw [hbytes]
  generalize chooseCompDictOwnerCount (h.chooseCompWorkerCount numBlocks localSize) _ _ = active at *
  have hround := le_roundUpSize active localSize
  have hrounds : 0 < (numBlocks + active - 1) / active := Nat.div_pos (by omega) howners
  have hroundsLe := Nat.div_le_self (numBlocks + active - 1) active
  refine ⟨active, howners, by omega, ?_⟩
  rw [if_neg (by omega : ¬ active = 0), Nat.mod_eq_of_lt (by omega),
    if_neg (by omega : ¬ roundUpSize active localSize = 0), if_neg (by omega), if_neg (by omega)]

/-- The plan for a sanitized local size shares out the blocks, whatever the device, the budget and
the local size asked for; `num_blocks` is an `int`. -/
theorem buildCompPlan_partitions (h : Host) (blockSize requested : Nat) {numBlocks : Nat}
    (hpos : 1 ≤ numBlocks) (hint : numBlocks < 2 ^ 31) {c : Batch} {localSize : Nat}
    {plan : CompPlan} (hlocal : localSize = h.sanitizeLocalSize requested numBlocks)
    (hplan : plan = h.buildCompPlan blockSize numBlocks localSize)
    (hbuild : c.build = effectiveBuild blockSize) (hblocks : c.totalBlocks = numBlocks)
    (hlanes : c.activeLanes = plan.activeLaneCount % 2 ^ 32) :
    plan.Partitions localSize numBlocks c := by
  obtain ⟨hgroup, -⟩ := h.sanitizeLocalSize_bounds requested numBlocks
  obtain ⟨active, hactive, hle, heq⟩ := buildCompPlan_eq h blockSize hpos hint
  obtain rfl := hplan.trans heq
  replace hlanes : c.activeLanes = active := hlanes.trans (Nat.mod_eq_of_lt (by dsimp only; omega))
  have hvisits := Batch.visits_iff hblocks hint (by omega)
  refine ⟨?_, ?_, fun i j hne a => c.build.dictSlice_disjoint (Fin.val_ne_of_ne hne), ?_, ?_, ?_, ?_⟩
  · intro b hb
    refine ⟨⟨b % c.activeLanes, Nat.mod_lt b (by omega)⟩,
      ⟨c.laneAt (b % c.activeLanes) (b / c.activeLanes), ?_, Nat.mod_add_div' b _⟩, ?_⟩
    · rw [hvisits]
      exact ⟨b / c.activeLanes, rfl, by rw [Nat.mod_add_div']; exact hb⟩
    · rintro i ⟨k, visits, rfl⟩
      obtain ⟨r, rfl, -⟩ := (hvisits i k).1 visits
      refine Fin.ext ?_
      dsimp only [Batch.laneAt]
      rw [Nat.add_mul_mod_self_right, Nat.mod_eq_of_lt i.isLt]
  · intro items schedule w i k t hlane
    have follows : c.compressBlock.Follows (c.startLane i) ((c.run schedule w).lane i) :=
      c.compressBlock.follows_run .start (c.turns schedule)
    rw [hlane] at follows
    cases follows with
    | body visits => exact visits
  · rintro i a ⟨-, hhigh⟩
    rw [Set.mem_Iio, ← hbuild, ← hlanes]
    exact hhigh.trans_le (Nat.mul_le_mul_right _ i.isLt)
  · dsimp only [roundUpSize]
    rw [if_neg (by omega)]
    exact Nat.dvd_mul_left _ _
  · rw [hlanes]
    exact le_roundUpSize active localSize
  · intro i k visits
    obtain ⟨r, rfl, hlt⟩ := (hvisits i k).1 visits
    have hround : r * active < numBlocks := hlanes ▸ Nat.lt_of_le_of_lt (Nat.le_add_left _ _) hlt
    refine ⟨r, ?_, rfl⟩
    rw [Nat.lt_iff_add_one_le, Nat.le_div_iff_mul_le hactive, Nat.succ_mul]
    omega

/-- The plan for five blocks of 64 KB, with work groups of 64 asked for. -/
def fivePlan : CompPlan :=
  roomyHost.buildCompPlan 65536 5 (roomyHost.sanitizeLocalSize 64 5)

theorem buildCompPlan_partitions_five :
    fivePlan.Partitions (roomyHost.sanitizeLocalSize 64 5) 5
      ⟨.cleared16, 0, 2 ^ 40, 5, 327680, 65536, 72153, 1, 0, fivePlan.activeLaneCount % 2 ^ 32, 1⟩ :=
  buildCompPlan_partitions roomyHost 65536 64 (by decide) (by decide) rfl rfl rfl rfl rfl

end Lz4.Gpu
