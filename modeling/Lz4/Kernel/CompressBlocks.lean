import Lz4.Kernel.Blocks
import Lz4.Kernel.Compressed

/-!
# `lz4_compress_block`

The kernel that encodes the blocks of an input.  Lane `wi` of `active_lanes` works on the blocks
`wi`, `wi + active_lanes` and so on, with a slice of the pool of hash tables that it alone uses.
The slices keep what earlier blocks, and earlier launches, left in them.  Block `b` is written to
the slot `b` of the output, of `singleBlockMaxOut` bytes, and its size to `blockSizes`.

All sizes and positions are `int`.  If none of them overflows, and a slot has room for the worst
case, every block is encoded, under every schedule (`Batch.compressBlock_delivers`).
-/

namespace Lz4.Kernel

open FlatMemory Machine Parallel
open Encoder (Table Within frame_of_within)

/-! ## The kernel -/

/-- The arguments, except for the buffers' contents. -/
structure Batch where
  build : Build
  input : Int
  output : Int
  totalBlocks : Int
  inputSize : Int
  blockSize : Int
  singleBlockMaxOut : Int
  acceleration : Int
  globalIndexBase : Int
  activeLanes : Nat
  epochBase : Nat

/-- What the lanes share: memory, `blockSizes`, and the pool of hash tables by lane. -/
structure Workbench where
  mem : Mem
  blockSizes : Nat → Nat
  pool : Nat → Table

/-- The variables of the loop over blocks. -/
structure Lane where
  wi : Nat
  b : Nat
  epoch : Nat
  deriving Repr, DecidableEq

namespace Batch

variable (c : Batch)

/-- `int start = (int)b * blockSize` -/
def start (b : Nat) : Int := Int.bmod (toInt b * c.blockSize) (2 ^ 32)

def thisBlockSize (b : Nat) : Int :=
  let remain := Int.bmod (c.inputSize - c.start b) (2 ^ 32)
  if remain > c.blockSize then c.blockSize else remain

/-- The call of `lz4_compress_core_accelerated` for block `b`. -/
def job (b epoch : Nat) : Job where
  src := c.input + c.start b
  dst := c.output + b * c.singleBlockMaxOut
  srcSize := c.thisBlockSize b
  dstCapacity := c.singleBlockMaxOut
  acceleration := c.acceleration
  epoch := epoch

/-- `globalIndexBase + b`, an unsigned index. -/
def sizeIndex (b : Nat) : Nat := ((c.globalIndexBase + b) % 2 ^ 32).toNat

/-- What a step of the encoder does to the shared state. -/
def absorb (w : Workbench) (k : Lane) : Step Work Outcome → Workbench × Option Place
  | .next s =>
    ({ w with mem := s.heap.mem, pool := Function.update w.pool k.wi s.table }, some s.place)
  | .done o =>
    (⟨o.heap.mem, Function.update w.blockSizes (c.sizeIndex k.b) (o.result % 2 ^ 32).toNat,
      Function.update w.pool k.wi o.table⟩, none)

/-- The loop of a lane, with the loops of the encoder as its body. -/
def compressBlock : Loop Workbench Lane Place where
  going k := decide (k.b < (c.totalBlocks % 2 ^ 32).toNat)
  next k := ⟨k.wi, (k.b + c.activeLanes) % 2 ^ 32, (k.epoch + 1) % 2 ^ 32⟩
  enter w k :=
    if c.start k.b < c.inputSize ∧ c.thisBlockSize k.b > 0 then
      let table := if c.build.dictClear then fun _ => 0 else w.pool k.wi
      c.absorb w k (compressStart c.build (c.job k.b k.epoch) ⟨w.mem, []⟩ table)
    else ({ w with blockSizes := Function.update w.blockSizes (c.sizeIndex k.b) 0 }, none)
  step w k place :=
    c.absorb w k (compressPass c.build (c.job k.b k.epoch) ⟨⟨w.mem, []⟩, w.pool k.wi, place⟩)

def startLane (i : Fin c.activeLanes) : Lane := ⟨i, i, (c.epochBase + 1) % 2 ^ 32⟩

/-- The turns of the lanes that have work; the other work items of a launch return at once. -/
def turns {n : Nat} (schedule : List (Fin n)) : List (Fin c.activeLanes) :=
  schedule.filterMap fun i => if h : i < c.activeLanes then some ⟨i, h⟩ else none

/-- The state after a launch of `n` work items. -/
def run {n : Nat} (schedule : List (Fin n)) (w : Workbench) :
    Config (Fin c.activeLanes) Workbench (Phase Lane Place) :=
  c.compressBlock.program.run (c.turns schedule) (Loop.launch w c.startLane)

/-! ## Launches without overflow -/

/-- No `int` overflows, no block is empty, and there is room for the worst case. -/
structure Fitting : Prop where
  size_lt : c.inputSize < 2 ^ 31
  block_pos : 1 ≤ c.blockSize
  block_lt : c.blockSize < 2 ^ 31
  blocks_pos : 1 ≤ c.totalBlocks
  blocks_lt : c.totalBlocks < 2 ^ 31
  last : (c.totalBlocks - 1) * c.blockSize < c.inputSize
  accel_pos : 1 ≤ c.acceleration
  accel_le : c.acceleration ≤ 2 ^ 24
  room : c.blockSize + c.blockSize / 255 + 16 ≤ c.singleBlockMaxOut
  slot_lt : c.singleBlockMaxOut < 2 ^ 31
  index_base : c.globalIndexBase = 0
  lanes_pos : 0 < c.activeLanes
  lanes : c.totalBlocks + c.activeLanes ≤ 2 ^ 32
  apart : c.input + c.inputSize ≤ c.output ∨
    c.output + c.totalBlocks * c.singleBlockMaxOut ≤ c.input

/-- The bytes of block `b`. -/
def text (m : Mem) (b : Nat) : List UInt8 :=
  m.bytes (c.input + b * c.blockSize) (min c.blockSize (c.inputSize - b * c.blockSize)).toNat

/-- Where slot `b` begins. -/
def slot (b : Nat) : Int := c.output + b * c.singleBlockMaxOut

variable {c}

section Fitting

variable (fitting : c.Fitting) {b : Nat} (hb : b < c.totalBlocks)

include fitting hb

theorem Fitting.start_lt : (b : Int) * c.blockSize < c.inputSize := by
  have hlast := fitting.last
  have hpos := fitting.block_pos
  have hle : (b : Int) * c.blockSize ≤ (c.totalBlocks - 1) * c.blockSize :=
    Int.mul_le_mul_of_nonneg_right (by omega) (by omega)
  omega

theorem Fitting.start_eq : c.start b = b * c.blockSize := by
  have hlt := fitting.start_lt hb
  have hsize := fitting.size_lt
  have hblocks := fitting.blocks_lt
  have hpos : 0 ≤ (b : Int) * c.blockSize :=
    Int.mul_nonneg (by omega) (by have := fitting.block_pos; omega)
  unfold start
  rw [toInt_of_lt (by omega), Int.bmod_def]
  omega

theorem Fitting.thisBlockSize_eq :
    c.thisBlockSize b = min c.blockSize (c.inputSize - b * c.blockSize) := by
  have hlt := fitting.start_lt hb
  have hsize := fitting.size_lt
  have hpos : 0 ≤ (b : Int) * c.blockSize :=
    Int.mul_nonneg (by omega) (by have := fitting.block_pos; omega)
  unfold thisBlockSize
  rw [fitting.start_eq hb, Int.bmod_def]
  dsimp only
  split <;> omega

theorem Fitting.job_eq (epoch : Nat) :
    c.job b epoch = ⟨c.input + b * c.blockSize, c.slot b,
      min c.blockSize (c.inputSize - b * c.blockSize), c.singleBlockMaxOut, c.acceleration,
      epoch⟩ := by
  rw [job, fitting.start_eq hb, fitting.thisBlockSize_eq hb, slot]

/-- The slots follow each other behind or in front of the input. -/
theorem Fitting.slot_bounds :
    c.output ≤ c.slot b ∧
      c.slot b + c.singleBlockMaxOut ≤ c.output + c.totalBlocks * c.singleBlockMaxOut := by
  have hroom := fitting.room
  have hpos := fitting.block_pos
  have hlow : 0 ≤ (b : Int) * c.singleBlockMaxOut := Int.mul_nonneg (by omega) (by omega)
  have hhigh : ((b : Int) + 1) * c.singleBlockMaxOut ≤ c.totalBlocks * c.singleBlockMaxOut :=
    Int.mul_le_mul_of_nonneg_right (by omega) (by omega)
  rw [Int.add_mul, Int.one_mul] at hhigh
  unfold slot
  omega

theorem Fitting.roomy (epoch : Nat) : (c.job b epoch).Roomy := by
  have hlt := fitting.start_lt hb
  have hpos := fitting.block_pos
  have hblock := fitting.block_lt
  have hroom := fitting.room
  have hbounds := fitting.slot_bounds hb
  have hstart : 0 ≤ (b : Int) * c.blockSize := Int.mul_nonneg (by omega) (by omega)
  rw [fitting.job_eq hb]
  refine ⟨?_, ?_, fitting.accel_pos, fitting.accel_le, ?_, fitting.slot_lt, ?_⟩
  · dsimp only
    omega
  · dsimp only
    omega
  · dsimp only
    omega
  · unfold Job.iend Job.oend
    dsimp only
    have happart := fitting.apart
    omega

/-- A block stands in the input. -/
theorem Fitting.job_input (epoch : Nat) :
    c.input ≤ (c.job b epoch).src ∧ (c.job b epoch).iend ≤ c.input + c.inputSize := by
  have hpos := fitting.block_pos
  have hstart : 0 ≤ (b : Int) * c.blockSize := Int.mul_nonneg (by omega) (by omega)
  rw [fitting.job_eq hb, Job.iend]
  dsimp only
  omega

theorem Fitting.sizeIndex_eq : c.sizeIndex b = b := by
  have hblocks := fitting.blocks_lt
  unfold sizeIndex
  rw [fitting.index_base]
  omega

end Fitting

/-- Two slots do not overlap. -/
theorem Fitting.slots_apart (fitting : c.Fitting) {i j : Nat} (h : i ≠ j) :
    c.slot i + c.singleBlockMaxOut ≤ c.slot j ∨ c.slot j + c.singleBlockMaxOut ≤ c.slot i := by
  have hroom := fitting.room
  have hpos := fitting.block_pos
  have hstep {i j : Nat} (hlt : i < j) : c.slot i + c.singleBlockMaxOut ≤ c.slot j := by
    have hrow : ((i : Int) + 1) * c.singleBlockMaxOut ≤ j * c.singleBlockMaxOut :=
      Int.mul_le_mul_of_nonneg_right (by omega) (by omega)
    rw [Int.add_mul, Int.one_mul] at hrow
    unfold slot
    omega
  rcases Nat.lt_or_gt_of_ne h with hlt | hlt
  · exact Or.inl (hstep hlt)
  · exact Or.inr (hstep hlt)

/-! ## One block -/

/-- How a run is looked at: `m` is memory before it. -/
def view (c : Batch) (m : Mem) : Loop.View Workbench Lane Place where
  At k j := k.b = j
  Ready _ w := ∀ a, c.input ≤ a → a < c.input + c.inputSize → w.mem a = m a
  Working j n w place :=
    (∀ a, c.input ≤ a → a < c.input + c.inputSize → w.mem a = m a) ∧
      Amid (c.job j 0) (c.text m j) w.mem n ⟨⟨w.mem, []⟩, fun _ => 0, place⟩
  Delivered j w := ∃ block : Block, block.Conforming [] ∧ block.decode [] = c.text m j ∧
    w.blockSizes j = block.encode.length ∧ (block.encode.length : Int) ≤ c.singleBlockMaxOut ∧
    w.mem.Holds (c.slot j) block.encode
  Touches j w w' := (∀ a, (a < c.slot j ∨ c.slot j + c.singleBlockMaxOut ≤ a) →
    w'.mem a = w.mem a) ∧ ∀ i, i ≠ j → w'.blockSizes i = w.blockSizes i

variable {m : Mem}

/-- The text of a block, in a memory in which the input is intact. -/
theorem Fitting.bytes_eq (fitting : c.Fitting) {j : Nat} (hj : j < c.totalBlocks) {w : Mem}
    (hintact : ∀ a, c.input ≤ a → a < c.input + c.inputSize → w a = m a) (epoch : Nat) :
    w.bytes (c.job j epoch).src (c.job j epoch).srcSize.toNat = c.text m j := by
  have hpos := fitting.block_pos
  have hstart : 0 ≤ (j : Int) * c.blockSize := Int.mul_nonneg (by omega) (by omega)
  rw [fitting.job_eq hj]
  dsimp only
  refine Mem.bytes_congr fun a hlow hhigh => hintact a (by omega) (by omega)

/-- The input of a block is not touched by what is written to its slot, or to another one. -/
theorem Fitting.keeps_input (fitting : c.Fitting) {j : Nat} (hj : j < c.totalBlocks)
    {w w' : Workbench} (htouches : (c.view m).Touches j w w')
    (hintact : ∀ a, c.input ≤ a → a < c.input + c.inputSize → w.mem a = m a) :
    ∀ a, c.input ≤ a → a < c.input + c.inputSize → w'.mem a = m a := by
  intro a hlow hhigh
  have hbounds := fitting.slot_bounds hj
  have happart := fitting.apart
  rw [htouches.1 a (by omega)]
  exact hintact a hlow hhigh

theorem oend_job (j epoch : Nat) :
    (c.job j epoch).oend = (c.job j epoch).dst + c.singleBlockMaxOut := rfl

/-- What a step of the encoder leaves behind. -/
theorem absorb_proceeds (fitting : c.Fitting) {k : Lane} (hk : k.b < c.totalBlocks) {n : Nat}
    {w : Workbench} {x : Step Work Outcome}
    (hintact : ∀ a, c.input ≤ a → a < c.input + c.inputSize → w.mem a = m a)
    (hx : x.Satisfies
      (fun s => ∃ n' < n, Amid (c.job k.b k.epoch) (c.text m k.b) w.mem n' s)
      (fun o => ∃ block, Encodes (c.job k.b k.epoch) (c.text m k.b) w.mem o block)) :
    (c.view m).Proceeds k.b n w (c.absorb w k x) := by
  have hslot : (c.job k.b k.epoch).dst = c.slot k.b := rfl
  cases x with
  | next s =>
    obtain ⟨n', hn', amid⟩ := hx
    have htouches : (c.view m).Touches k.b w (c.absorb w k (.next s)).1 := by
      refine ⟨fun a ha => ?_, fun i _ => rfl⟩
      exact frame_of_within amid.1 (by rw [oend_job, hslot]; exact ha)
    refine ⟨htouches, n', hn', fitting.keeps_input hk htouches hintact, ?_⟩
    exact amid.congr (fitting.roomy hk _) 0 _ (fun _ _ _ => rfl) (fun _ _ _ => rfl)
  | done o =>
    obtain ⟨block, encodes⟩ := hx
    have hindex := fitting.sizeIndex_eq hk
    have hlt := fitting.slot_lt
    have hle : o.result ≤ c.singleBlockMaxOut := encodes.result_le
    have hresult := encodes.result
    refine ⟨⟨fun a ha => ?_, fun i hi => ?_⟩, block, encodes.conforming, encodes.decode, ?_, ?_,
      encodes.holds⟩
    · exact frame_of_within encodes.logged (by rw [oend_job, hslot]; exact ha)
    · show Function.update w.blockSizes (c.sizeIndex k.b) _ i = _
      rw [hindex, Function.update_of_ne hi]
    · show Function.update w.blockSizes (c.sizeIndex k.b) (o.result % 2 ^ 32).toNat k.b = _
      rw [hindex, Function.update_self]
      omega
    · omega

/-! ## All blocks -/

/-- A bound for the passes of one block. -/
def maxPasses : Nat := (2 ^ 31 + 2) * (2 ^ 31 + 2)

theorem Fitting.passes_le (fitting : c.Fitting) {b : Nat} (hb : b < c.totalBlocks) (epoch : Nat) :
    (c.job b epoch).passes ≤ maxPasses := by
  have hsize := (fitting.roomy hb epoch).size_lt
  exact Nat.mul_le_mul (by omega) (by omega)

theorem compressBlock_obeys (fitting : c.Fitting) (m : Mem) :
    c.compressBlock.Obeys (c.view m) c.totalBlocks.toNat c.activeLanes maxPasses where
  going_iff := by
    rintro k j rfl
    have hpos := fitting.blocks_pos
    have hblocks := fitting.blocks_lt
    simp only [compressBlock, decide_eq_true_eq]
    omega
  next_at := by
    rintro k j rfl hj
    have hlanes := fitting.lanes
    show (k.b + c.activeLanes) % 2 ^ 32 = k.b + c.activeLanes
    exact Nat.mod_eq_of_lt (by omega)
  enter := by
    rintro k j w rfl hj hready
    have hj' : (k.b : Int) < c.totalBlocks := by omega
    have roomy := fitting.roomy hj' k.epoch
    have hlt := fitting.start_lt hj'
    have hstart := fitting.start_eq hj'
    have hsize : (0 : Int) < c.thisBlockSize k.b := roomy.size_pos
    have hpasses := fitting.passes_le hj' k.epoch
    unfold compressBlock
    dsimp only
    rw [if_pos ⟨by omega, hsize⟩]
    refine absorb_proceeds fitting hj' hready ?_
    have hshows := (c.job k.b k.epoch).shows w.mem
    rw [fitting.bytes_eq hj' hready] at hshows
    exact compressStart_amid _ _ c.build hpasses roomy hshows
      ⟨fun a ha => absurd ha (by simp), fun _ _ => rfl⟩
  step := by
    rintro k j n w place rfl hj ⟨hintact, amid⟩
    have hj' : (k.b : Int) < c.totalBlocks := by omega
    refine absorb_proceeds fitting hj' hintact ?_
    have hshows := (c.job k.b k.epoch).shows w.mem
    rw [fitting.bytes_eq hj' hintact] at hshows
    exact compressPass_amid c.build (fitting.roomy hj' k.epoch) hshows
      (amid.congr (fitting.roomy hj' 0) k.epoch (w.pool k.wi) (fun _ _ _ => rfl) (fun _ _ _ => rfl))
  ready := by
    rintro i j w w' hne hi hj htouches hready
    exact fitting.keeps_input (by omega) htouches hready
  working := by
    rintro i j n w w' place hne hi hj htouches ⟨hintact, amid⟩
    have hintact' := fitting.keeps_input (by omega) htouches hintact
    have hslots := fitting.slots_apart hne
    have hslot : (c.job j 0).dst = c.slot j := rfl
    have hinput := fitting.job_input (b := j) (by omega) 0
    refine ⟨hintact', amid.congr (fitting.roomy (by omega) 0) 0 _ (fun a hlow hhigh => ?_)
      fun a hlow hhigh => htouches.1 a ?_⟩
    · exact (hintact' a (by omega) (by omega)).trans (hintact a (by omega) (by omega)).symm
    · rw [oend_job] at hhigh
      omega
  delivered := by
    rintro i j w w' hne hi hj htouches ⟨block, conforming, hdecode, hsize, hle, hholds⟩
    have hslots := fitting.slots_apart hne
    refine ⟨block, conforming, hdecode, ?_, hle, ?_⟩
    · rw [htouches.2 j (Ne.symm hne)]
      exact hsize
    · refine hholds.congr fun a hlow hhigh => (htouches.1 a ?_).symm
      omega

/-- When the lanes have ended, every block is in its slot, and `blockSizes` says how long it
is. -/
theorem compressBlock_delivers (fitting : c.Fitting) {n : Nat} {schedule : List (Fin n)}
    {w : Workbench} (hended : c.compressBlock.program.Ended (c.run schedule w)) {j : Nat}
    (hj : j < c.totalBlocks.toNat) : (c.view w.mem).Delivered j (c.run schedule w).shared := by
  have hstart : ∀ i, (c.view w.mem).At (c.startLane i) i := fun _ => rfl
  exact (compressBlock_obeys fitting w.mem).all_delivered fitting.lanes_pos hstart
    (fun _ _ _ _ _ => rfl) hended hj

end Batch

end Lz4.Kernel
