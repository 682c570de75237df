import Lz4.Kernel.CompressBlocks

/-!
# A negative slot size

The host computes the size of a slot as a `size_t`, and the kernel gets it as an `int`.  If it
comes out negative, the end of the output lies before its beginning.  Then no sequence and no run
of last literals passes the test for room, and every block is reported with the size 0, under every
schedule (`Batch.compressBlock_starves`).
-/

namespace Lz4.Kernel

open FlatMemory Machine Parallel
open Encoder (Table catchUpLoop)

section Job

variable {j : Job} {h : Heap} {table : Table}

theorem lastLiterals_starved (hcapacity : j.dstCapacity < 0) (anchor : Int) :
    (lastLiterals j h table anchor j.dst).result = 0 := by
  have hoend : j.oend = j.dst + j.dstCapacity := rfl
  unfold lastLiterals
  rw [if_pos (by omega)]

theorem emitLiterals_starved (hcapacity : j.dstCapacity < 0) (anchor ip mtch : Int) :
    emitLiterals j h table anchor j.dst ip mtch = .done ⟨0, h, table⟩ := by
  have hoend : j.oend = j.dst + j.dstCapacity := rfl
  unfold emitLiterals
  dsimp only
  rw [if_pos (by omega)]

/-- The search is still before the first match, with at most `budget` rounds to come. -/
structure Searching (j : Job) (budget : Nat) (place : Place) : Prop where
  searches : ∃ forwardIp step searchMatchNb rounds forwardH forwardIpValue,
    place = .search j.src j.dst forwardIp step searchMatchNb forwardH forwardIpValue ∧
      Pace j forwardIp step searchMatchNb rounds ∧ j.src < forwardIp ∧
      forwardIp ≤ j.mflimitPlusOne ∧ (j.iend - forwardIp).toNat + 1 ≤ budget

theorem Searching.pass (b : Build) (paced : j.Paced) (hcapacity : j.dstCapacity < 0) {budget : Nat}
    {place : Place} (searching : Searching j budget place) :
    (compressPass b j ⟨h, table, place⟩).Satisfies
      (fun w => ∃ budget' < budget, Searching j budget' w.place) (fun o => o.result = 0) := by
  obtain ⟨forwardIp, step, searchMatchNb, rounds, forwardH, forwardIpValue, rfl, pace, hsrc, hnear,
    hbudget⟩ := searching.searches
  have hstep := pace.step_pos
  have hmflimit : j.mflimitPlusOne = j.iend - 12 + 1 := rfl
  unfold compressPass searchPass
  dsimp only
  split
  · exact lastLiterals_starved hcapacity _
  · split
    · rw [emitLiterals_starved hcapacity]
      exact rfl
    · exact ⟨_, by omega, ⟨_, _, _, rounds + 1, _, _, rfl, pace.next paced (by omega), by omega,
        by omega, Nat.le_refl _⟩⟩

theorem compressStart_starved (b : Build) (paced : j.Paced) (hcapacity : j.dstCapacity < 0) :
    (compressStart b j h table).Satisfies
      (fun w => ∃ budget < 2 ^ 31, Searching j budget w.place) (fun o => o.result = 0) := by
  have hsize := paced.size_lt
  have hmflimit : j.mflimitPlusOne = j.iend - 12 + 1 := rfl
  have hiend : j.iend = j.src + j.srcSize := rfl
  unfold compressStart
  split
  · exact lastLiterals_starved hcapacity _
  · exact ⟨(j.iend - (j.src + 1)).toNat + 1, by omega, ⟨_, _, _, 0, _, _, rfl,
      pace_start paced (by omega), by omega, by omega, Nat.le_refl _⟩⟩

end Job

namespace Batch

variable {c : Batch}

/-- The slot size is negative; the other arguments are as they should be. -/
structure Starved (c : Batch) : Prop where
  slot_neg : c.singleBlockMaxOut < 0
  blocks_pos : 1 ≤ c.totalBlocks
  blocks_lt : c.totalBlocks < 2 ^ 31
  accel_pos : 1 ≤ c.acceleration
  accel_le : c.acceleration ≤ 2 ^ 24
  index_base : c.globalIndexBase = 0
  lanes_pos : 0 < c.activeLanes
  lanes : c.totalBlocks + c.activeLanes ≤ 2 ^ 32

theorem thisBlockSize_lt (c : Batch) (b : Nat) : c.thisBlockSize b < 2 ^ 31 := by
  have hlt := Int.bmod_lt (x := c.inputSize - c.start b) (m := 2 ^ 32) (by omega)
  unfold thisBlockSize
  dsimp only
  split <;> omega

theorem Starved.paced (starved : c.Starved) (b epoch : Nat) : (c.job b epoch).Paced :=
  ⟨c.thisBlockSize_lt b, starved.accel_pos, starved.accel_le⟩

/-- How a run is looked at. -/
def starvedView (c : Batch) : Loop.View Workbench Lane Place where
  At k j := k.b = j
  Ready _ _ := True
  Working j n _ place := Searching (c.job j 0) n place
  Delivered j w := w.blockSizes j = 0
  Touches j w w' := ∀ i, i ≠ j → w'.blockSizes i = w.blockSizes i

theorem Starved.sizeIndex_eq (starved : c.Starved) {b : Nat} (hb : b < c.totalBlocks) :
    c.sizeIndex b = b := by
  have hblocks := starved.blocks_lt
  unfold sizeIndex
  rw [starved.index_base]
  omega

/-- The epoch only matters for the hash table. -/
theorem searching_epoch {b epoch n : Nat} {place : Place}
    (searching : Searching (c.job b epoch) n place) (epoch' : Nat) :
    Searching (c.job b epoch') n place := by
  obtain ⟨forwardIp, step, searchMatchNb, rounds, forwardH, forwardIpValue, hplace, pace, hrest⟩ :=
    searching.searches
  exact ⟨_, _, _, rounds, _, _, hplace, ⟨pace.rounds_ge, pace.count_eq, pace.step_pos, pace.step_ge,
    pace.covered⟩, hrest⟩

/-- What a step of the encoder leaves behind. -/
theorem Starved.absorb (starved : c.Starved) {k : Lane} (hk : k.b < c.totalBlocks) {n : Nat}
    {w : Workbench} {x : Step Work Outcome}
    (hx : x.Satisfies (fun s => ∃ n' < n, Searching (c.job k.b k.epoch) n' s.place) (fun o =>
      o.result = 0)) : c.starvedView.Proceeds k.b n w (c.absorb w k x) := by
  have hindex := starved.sizeIndex_eq hk
  cases x with
  | next s =>
    obtain ⟨n', hn', searching⟩ := hx
    exact ⟨fun _ _ => rfl, n', hn', searching_epoch searching 0⟩
  | done o =>
    have hresult : o.result = 0 := hx
    refine ⟨fun i hi => ?_, ?_⟩
    · show Function.update w.blockSizes (c.sizeIndex k.b) _ i = _
      rw [hindex, Function.update_of_ne hi]
    · show Function.update w.blockSizes (c.sizeIndex k.b) (o.result % 2 ^ 32).toNat k.b = 0
      rw [hindex, Function.update_self, hresult]
      rfl

theorem Starved.obeys (starved : c.Starved) :
    c.compressBlock.Obeys c.starvedView c.totalBlocks.toNat c.activeLanes (2 ^ 31) where
  going_iff := by
    rintro k j rfl
    have hpos := starved.blocks_pos
    have hblocks := starved.blocks_lt
    simp only [compressBlock, decide_eq_true_eq]
    omega
  next_at := by
    rintro k j rfl hj
    have hlanes := starved.lanes
    show (k.b + c.activeLanes) % 2 ^ 32 = k.b + c.activeLanes
    exact Nat.mod_eq_of_lt (by omega)
  enter := by
    rintro k j w rfl hj -
    have hj' : (k.b : Int) < c.totalBlocks := by omega
    unfold compressBlock
    dsimp only
    split
    · exact starved.absorb hj'
        (compressStart_starved c.build (starved.paced k.b k.epoch) starved.slot_neg)
    · have hindex := starved.sizeIndex_eq hj'
      refine ⟨fun i hi => ?_, ?_⟩
      · show Function.update w.blockSizes (c.sizeIndex k.b) 0 i = _
        rw [hindex, Function.update_of_ne hi]
      · show Function.update w.blockSizes (c.sizeIndex k.b) 0 k.b = 0
        rw [hindex, Function.update_self]
  step := by
    rintro k j n w place rfl hj searching
    exact starved.absorb (by omega) ((searching_epoch searching k.epoch).pass c.build
      (starved.paced k.b k.epoch) starved.slot_neg)
  ready := fun _ _ _ _ _ => trivial
  working := fun _ _ _ _ searching => searching
  delivered := by
    rintro i j w w' hne - - htouches hzero
    show w'.blockSizes j = 0
    rw [htouches j (Ne.symm hne)]
    exact hzero

/-- When the lanes have ended, every block is reported with the size 0. -/
theorem compressBlock_starves (starved : c.Starved) {n : Nat} {schedule : List (Fin n)}
    {w : Workbench} (hended : c.compressBlock.program.Ended (c.run schedule w)) {j : Nat}
    (hj : j < c.totalBlocks.toNat) : (c.run schedule w).shared.blockSizes j = 0 := by
  have hstart : ∀ i, c.starvedView.At (c.startLane i) i := fun _ => rfl
  exact starved.obeys.all_delivered starved.lanes_pos hstart (fun _ _ => trivial) hended hj

end Batch

end Lz4.Kernel
