import Lz4.Gpu.Decompress
import Lz4.Kernel.CompressBlocks
import Lz4.Lib.Rounding
import Mathlib.Algebra.Ring.Int.Defs

/-!
# `lz4_compress_core`

The host side of compression.  It uploads the file, launches `lz4_compress_block` and writes the
container: the header, the table of sizes, and the blocks from their slots in the output buffer.

## Widths

The block size is a `size_t`.  The kernel gets it as an `int`, and so it gets the size of the file,
the number of blocks and the size of a slot, without a test that they fit.  The slot size is
computed as `block_size * 1.1 + 64` in floating point and converted to 32 bits.  The offsets of the
slots, from which the blocks are copied, are 32-bit products.

## What is left open

As for decompression, `Platform` stands for the device and for what is granted.  `Host` adds what
only compression depends on.  A launch needs all buffers; the source does not notice when one is
missing, and then what follows is not modelled.  The input is always uploaded
(`skip_input_upload` is 0), and there are no debug counters.
-/

namespace Lz4.Gpu

open FlatMemory Kernel Rounding
open Encoder (Table)

/-! ## The size of a slot -/

/-- The `double` 1.1 is this number divided by `2 ^ 51`. -/
def elevenTenths : Nat := 2476979795053773

/-- `block_size * 1.1 + 64` in binary64, truncated.  Every operation rounds to 53 bits; the values
are taken at the scale `2 ^ 51`. -/
@[irreducible] def worstCase (blockSize : Nat) : Nat :=
  let product := roundBits 53 (roundBits 53 blockSize * elevenTenths)
  roundBits 53 (product + 64 * 2 ^ 51) / 2 ^ 51

/-- For every size that is an `int` the slot has room for a block that does not compress. -/
theorem le_worstCase {blockSize : Nat} (h : blockSize < 2 ^ 31) :
    blockSize + blockSize / 255 + 16 ≤ worstCase blockSize := by
  have hexact : roundBits 53 blockSize = blockSize := roundBits_of_lt (p := 52) (by omega)
  unfold worstCase
  rw [hexact]
  dsimp only
  generalize hproduct : roundBits 53 (blockSize * elevenTenths) = product
  generalize hsum : roundBits 53 (product + 64 * 2 ^ 51) = sum
  have hproduct' := le_roundBits_add 52 (blockSize * elevenTenths)
  have hsum' := le_roundBits_add 52 (product + 64 * 2 ^ 51)
  rw [hproduct] at hproduct'
  rw [hsum] at hsum'
  unfold elevenTenths at hproduct'
  omega

theorem self_le_worstCase (blockSize : Nat) : blockSize ≤ worstCase blockSize := by
  unfold worstCase
  generalize hexact : roundBits 53 blockSize = exact
  dsimp only
  generalize hproduct : roundBits 53 (exact * elevenTenths) = product
  generalize hsum : roundBits 53 (product + 64 * 2 ^ 51) = sum
  have hexact' := le_roundBits_add 52 blockSize
  have hproduct' := le_roundBits_add 52 (exact * elevenTenths)
  have hsum' := le_roundBits_add 52 (product + 64 * 2 ^ 51)
  rw [hexact] at hexact'
  rw [hproduct] at hproduct'
  rw [hsum] at hsum'
  unfold elevenTenths at hproduct'
  omega

/-- For such a size the slot size has 32 bits. -/
theorem worstCase_lt {blockSize : Nat} (h : blockSize < 2 ^ 31) : worstCase blockSize < 2 ^ 32 := by
  have hexact : roundBits 53 blockSize = blockSize := roundBits_of_lt (p := 52) (by omega)
  unfold worstCase
  rw [hexact]
  dsimp only
  generalize hproduct : roundBits 53 (blockSize * elevenTenths) = product
  generalize hsum : roundBits 53 (product + 64 * 2 ^ 51) = sum
  have hproduct' := roundBits_le_add 52 (blockSize * elevenTenths)
  have hsum' := roundBits_le_add 52 (product + 64 * 2 ^ 51)
  rw [hproduct] at hproduct'
  rw [hsum] at hsum'
  unfold elevenTenths at hproduct'
  omega

/-! ## The plan -/

/-- The platform, with what only compression depends on. -/
structure Host extends Platform where
  /-- How the kernel was compiled. -/
  build : Build
  /-- `LZ4_GPU_COMP_DICT_POOL_MB`, if it is a number. -/
  poolMb : Option Nat
  /-- `CL_DEVICE_GLOBAL_MEM_SIZE`, if the device says it. -/
  globalMem : Option Nat
  /-- `clCreateBuffer` for the pool of hash tables. -/
  createsDict : Nat → Bool
  /-- The pool before the call, by lane. -/
  pool : Nat → Table

/-- `choose_comp_worker_count` -/
def Platform.chooseCompWorkerCount (p : Platform) (numBlocks localSize : Nat) : Nat :=
  if numBlocks = 0 then 1
  else
    let cu := if p.computeUnits = 0 then 1 else p.computeUnits
    let target := cu * 24
    let target := if target < localSize then localSize else target
    let target := if target > numBlocks then numBlocks else target
    if target = 0 then 1 else target

/-- `choose_comp_dict_pool_budget_bytes` -/
def Host.chooseCompDictPoolBudgetBytes (h : Host) : Nat :=
  let mb := 1024 * 1024
  let clamp := fun b => if b < 16 * mb then 16 * mb else if b > 512 * mb then 512 * mb else b
  match h.poolMb with
  | some (n + 1) => clamp ((n + 1) * mb % 2 ^ 64)
  | _ =>
    match h.globalMem with
    | some (n + 1) => clamp ((n + 1) / 32)
    | _ => 64 * mb

/-- `choose_comp_dict_owner_count` -/
def chooseCompDictOwnerCount (rawWorkerCount dictPoolBudgetBytes dictBytesPerOwner : Nat) : Nat :=
  if rawWorkerCount = 0 then 1
  else if dictBytesPerOwner = 0 then rawWorkerCount
  else
    let owners := dictPoolBudgetBytes / dictBytesPerOwner
    let owners := if owners = 0 then 1 else owners
    if owners > rawWorkerCount then rawWorkerCount else owners

/-- `lz4_comp_plan_t`, as far as the plan is followed. -/
structure CompPlan where
  activeLaneCount : Nat
  launchedWiCount : Nat
  dictTotalBytes : Nat
  blocksPerOwner : Nat
  deriving Repr, DecidableEq

/-- `lz4_build_comp_plan` -/
def Host.buildCompPlan (h : Host) (blockSize numBlocks localSize : Nat) : CompPlan :=
  let entryBytes := if blockSize ≤ 64 * 1024 then 2 else 4
  let dictBytesPerOwner := 2 ^ 14 * entryBytes
  let owners := chooseCompDictOwnerCount (h.chooseCompWorkerCount numBlocks localSize)
    h.chooseCompDictPoolBudgetBytes dictBytesPerOwner
  let active := if owners = 0 then 1 else owners
  let launched := roundUpSize active localSize
  let launched := if launched = 0 then (if localSize = 0 then 1 else localSize) else launched
  let perOwner := (numBlocks + active - 1) / active % 2 ^ 32
  { activeLaneCount := active
    launchedWiCount := if launched < active then active else launched
    dictTotalBytes := owners * dictBytesPerOwner
    blocksPerOwner := if perOwner = 0 then 1 else perOwner }

/-! ## Up to the launch -/

/-- What stands ready when the kernel is launched. -/
structure CompLaunch where
  numBlocks : Int
  singleBlockMaxOut : Nat
  input : Buffer
  output : Buffer
  batch : Batch
  launched : Nat
  pool : Nat → Table

/-- `(file_size + block_size - 1) / block_size`, converted to `int` -/
def compNumBlocks (fileSize blockSize : Nat) : Int :=
  Int.bmod ((fileSize + blockSize - 1) % 2 ^ 64 / blockSize : Nat) (2 ^ 32)

namespace CompLaunch

variable (h : Host) (f : File) (l : CompLaunch)

/-- Memory and tables when the lanes start. -/
def bench : Workbench where
  mem := h.mem.store l.input.base f.bytes
  blockSizes i := h.table .sizesOut i
  pool := l.pool

def lanes : Parallel.Config (Fin l.batch.activeLanes) Workbench (Parallel.Phase Lane Place) :=
  l.batch.run (h.schedule l.launched) (l.bench h f)

/-- The lanes have ended: `clWaitForEvents` returns. -/
def Finished : Prop := l.batch.compressBlock.program.Ended (l.lanes h f)

instance : Decidable (l.Finished h f) :=
  inferInstanceAs (Decidable (l.batch.compressBlock.program.Ended (l.lanes h f)))

end CompLaunch

end Lz4.Gpu
