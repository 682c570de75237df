import Lz4.Gpu.Compress

/-!
# The split mode of `lz4_hybrid`

`do_split_compress_mode` and `do_split_decompress_mode` divide the blocks of a file between two
OpenCL devices: the first blocks go to the GPU, the others to the CPU.  Each device has its own
buffers, and each sees only its own part of the file, with its own blocks counted from 0.  The
container is the one of `lz4_gpu`.

## Widths

When compressing, the sizes of the file and of a block are tested against `INT_MAX`; the size of a
slot, which is about a tenth larger, is not, and the kernel gets it as an `int`.  When decompressing,
the running sums are kept with 64 bits and stored with 32; the total is tested against the size of
the payload.

## What is left open

`Side` stands for everything a call depends on at one device, `System` for the rest: nothing is
assumed about what is granted, about memory nobody has written to, or about the schedules.  The
division of the blocks comes from a ratio in floating point; here it is any division.
-/

namespace Lz4.Hybrid

open FlatMemory Kernel Gpu

/-! ## The devices -/

/-- One of the two devices (`lz4_split_ocl_t`). -/
structure Side where
  /-- `lz4_split_init_device` -/
  starts : Bool
  /-- `CL_DEVICE_MAX_COMPUTE_UNITS` -/
  computeUnits : Nat
  /-- Where the buffer with this index stands when so many bytes are asked for.  It may be an old
  one that is larger. -/
  buffer : Nat → Nat → Option Int
  /-- A transfer of this many bytes from or to a buffer that has them is carried out. -/
  transfers : Nat → Bool
  /-- `clEnqueueNDRangeKernel` accepts the global and the local size. -/
  launches : Nat → Nat → Bool
  /-- Memory before the call. -/
  mem : Mem
  /-- The words of the buffer with this index before the call, and what stands around them. -/
  table : Nat → Int → Nat
  /-- The order in which the lanes move. -/
  schedule : (n : Nat) → List (Fin n)

structure System where
  gpu : Side
  cpu : Side
  /-- `malloc` and `calloc` succeed. -/
  allocates : Nat → Bool
  /-- The output file can be opened and written to. -/
  writes : Bool

/-- `lz4_split_get_buffer` -/
def Side.getBuffer (s : Side) (index size : Nat) : Option Int :=
  s.buffer index (if size = 0 then 1 else size)

/-- `round_up_local_size` -/
def roundUpLocalSize (value localSize : Nat) : Nat :=
  let localSize := if localSize = 0 then 1 else localSize
  let value := if value = 0 then 1 else value
  (value + localSize - 1) % 2 ^ 64 / localSize * localSize

/-- `lz4_split_cpu_slots`; `threads` is 0 if no number of threads is set. -/
def Side.cpuSlots (s : Side) (threads blockCount : Nat) : Nat :=
  let cu := if s.computeUnits = 0 then 1 else s.computeUnits
  let slots := if threads > 0 then threads else cu
  if blockCount > 0 ∧ slots > blockCount then blockCount else slots

/-- `gpu_local` -/
def gpuLocal (localSize : Nat) : Nat := if localSize > 0 then localSize else 1

/-! ## Compression -/

/-- What one device has to compress. -/
structure CompTask where
  input : List UInt8
  blocks : Nat
  blockSize : Nat
  singleBlockMaxOut : Nat
  acceleration : Int
  globalSize : Nat
  localSize : Nat
  activeLanes : Nat

/-- `sizes` and the blocks, as one device contributes them. -/
structure Encoded where
  sizes : List Nat
  payload : List UInt8
  deriving Repr, DecidableEq

namespace CompTask

variable (s : Side) (t : CompTask)

def tableType : Int := if t.blockSize ≤ 65536 then 0 else 1

def dictEntries : Nat := if t.tableType = 0 then 2 ^ 15 else 2 ^ 14

/-- The arguments of the kernel (`lz4_split_set_comp_args`). -/
def batch (input output : Int) : Batch where
  build := .hybrid t.tableType
  input := input
  output := output
  totalBlocks := toInt t.blocks
  inputSize := toInt t.input.length
  blockSize := toInt t.blockSize
  singleBlockMaxOut := toInt t.singleBlockMaxOut
  acceleration := t.acceleration
  globalIndexBase := 0
  activeLanes := t.activeLanes % 2 ^ 32
  epochBase := 1

/-- Memory and tables when the lanes start; the hash tables are cleared. -/
def bench (input : Int) : Workbench where
  mem := s.mem.store input t.input
  blockSizes i := s.table 2 i
  pool _ _ := 0

def lanes (input output : Int) : Parallel.Config (Fin (t.batch input output).activeLanes) Workbench
    (Parallel.Phase Lane Place) :=
  (t.batch input output).run (s.schedule t.globalSize) (t.bench s input)

/-- The lanes have ended: `clWaitForEvents` returns. -/
def Finished (input output : Int) : Prop :=
  (t.batch input output).compressBlock.program.Ended (t.lanes s input output)

instance (input output : Int) : Decidable (t.Finished s input output) :=
  inferInstanceAs (Decidable
    ((t.batch input output).compressBlock.program.Ended (t.lanes s input output)))

/-- The words of the table that are read back. -/
def sizes (input output : Int) : List Nat :=
  (List.range t.blocks).map (t.lanes s input output).shared.blockSizes

/-- `lz4_write_split_payload`: every block from its slot. -/
def payload (input output : Int) : List UInt8 :=
  (List.range t.blocks).flatMap fun (i : Nat) =>
    (t.lanes s input output).shared.mem.bytes (output + i * t.singleBlockMaxOut)
      ((t.lanes s input output).shared.blockSizes i)

/-- The uploads, the launch and the downloads are carried out. -/
def Granted (allocates : Nat → Bool) : Prop :=
  s.starts = true ∧ s.transfers t.input.length = true ∧
    s.transfers (t.globalSize * t.dictEntries * 4) = true ∧
    s.launches t.globalSize t.localSize = true ∧
    allocates (t.blocks * t.singleBlockMaxOut) = true ∧ s.transfers (t.blocks * 4) = true ∧
    s.transfers (t.blocks * t.singleBlockMaxOut) = true

instance (allocates : Nat → Bool) : Decidable (t.Granted s allocates) := by
  unfold Granted
  infer_instance

/-- The part of one device; without blocks it has nothing to do. -/
def run (allocates : Nat → Bool) : Option Encoded :=
  if t.blocks = 0 then some ⟨[], []⟩
  else
    match s.getBuffer 0 t.input.length, s.getBuffer 1 (t.blocks * t.singleBlockMaxOut),
      s.getBuffer 2 (t.blocks * 4), s.getBuffer 3 (t.globalSize * t.dictEntries * 4) with
    | some input, some output, some _, some _ =>
      if t.Granted s allocates ∧ t.Finished s input output then
        some ⟨t.sizes s input output, t.payload s input output⟩
      else none
    | _, _, _, _ => none

end CompTask

/-- The number of blocks. -/
def blockCount (fileSize blockSize : Nat) : Nat := (fileSize + blockSize - 1) % 2 ^ 64 / blockSize

section Tasks

variable (sys : System) (f : File) (blockSize gpuBlocks : Nat) (acceleration : Int)

/-- The first blocks, one for each lane of the GPU. -/
def gpuCompTask (localSize : Nat) : CompTask where
  input := f.bytes.take (gpuBlocks * blockSize)
  blocks := gpuBlocks
  blockSize := blockSize
  singleBlockMaxOut := worstCase blockSize
  acceleration := acceleration
  globalSize := roundUpLocalSize gpuBlocks (gpuLocal localSize)
  localSize := gpuLocal localSize
  activeLanes := gpuBlocks

/-- The other blocks. -/
def cpuCompTask (threads : Nat) : CompTask where
  input := f.bytes.drop (gpuBlocks * blockSize)
  blocks := blockCount f.size blockSize - gpuBlocks
  blockSize := blockSize
  singleBlockMaxOut := worstCase blockSize
  acceleration := acceleration
  globalSize := sys.cpu.cpuSlots threads (blockCount f.size blockSize - gpuBlocks)
  localSize := 1
  activeLanes := sys.cpu.cpuSlots threads (blockCount f.size blockSize - gpuBlocks)

end Tasks

/-- `do_split_compress_mode`, with `share` blocks for the GPU if there are so many; the bytes of
the output file, or `none` if the return code is not 0. -/
def doSplitCompressMode (sys : System) (f : File) (blockSize share : Nat)
    (acceleration localSize : Int) (threads : Nat) : Option (List UInt8) :=
  let nblk := blockCount f.size blockSize
  if f.size = 0 ∨ nblk = 0 ∨ nblk > 0xFFFFFFFF ∨ f.size > 0x7FFFFFFF ∨ blockSize > 0x7FFFFFFF then
    none
  else
    let gpuBlocks := min share nblk
    match (gpuCompTask f blockSize gpuBlocks acceleration localSize.toNat).run sys.gpu sys.allocates,
      (cpuCompTask sys f blockSize gpuBlocks acceleration threads).run sys.cpu sys.allocates with
    | some g, some c =>
      if sys.allocates f.size ∧ sys.allocates (nblk * 4) ∧ sys.writes then
        some (leBytes 4 magicNumber ++ leBytes 4 nblk ++ leBytes 4 blockSize ++
          (g.sizes ++ c.sizes).flatMap (leBytes 4) ++ (g.payload ++ c.payload))
      else none
    | _, _ => none

/-! ## Decompression -/

/-- What one device has to decompress. -/
structure DecTask where
  comp : List UInt8
  sizes : List Nat
  blockSize : Nat
  globalSize : Nat
  localSize : Nat

/-- The loop that fills a table of offsets, from the sum `total` on. -/
def splitOffsets : Nat → List Nat → List Nat
  | _, [] => []
  | total, size :: sizes => total % 2 ^ 32 :: splitOffsets (total + size) sizes

namespace DecTask

variable (s : Side) (t : DecTask)

/-- Words that have been uploaded to the buffer with this index. -/
def uploaded (index : Nat) (words : List Nat) (i : Int) : Nat :=
  if 0 ≤ i ∧ i < words.length then words.getD i.toNat 0 else s.table index i

/-- The arguments of the kernel (`lz4_split_set_dec_args`). -/
def blocks (comp out : Int) : Blocks where
  input := comp
  output := out
  compOffsets := uploaded s 2 (splitOffsets 0 t.sizes)
  compSizes := uploaded s 3 t.sizes
  blockSize := t.blockSize
  totalBlocks := t.sizes.length
  globalSize := t.globalSize

/-- Memory and tables when the lanes start. -/
def device (comp : Int) : Device where
  mem := s.mem.store comp t.comp
  sizesOut := s.table 4

def lanes (comp out : Int) :
    Parallel.Config (Fin t.globalSize) Device (Parallel.Phase Int (Int × Nat)) :=
  (t.blocks s comp out).run (s.schedule t.globalSize) (t.device s comp)

def Finished (comp out : Int) : Prop :=
  (t.blocks s comp out).decompressBlocks.program.Ended (t.lanes s comp out)

instance (comp out : Int) : Decidable (t.Finished s comp out) :=
  inferInstanceAs (Decidable
    ((t.blocks s comp out).decompressBlocks.program.Ended (t.lanes s comp out)))

/-- The words of `sizes_out` that are read back. -/
def outSizes (comp out : Int) : List Nat :=
  (List.range t.sizes.length).map fun (i : Nat) => (t.lanes s comp out).shared.sizesOut i

def Granted (allocates : Nat → Bool) : Prop :=
  allocates (t.sizes.length * 4) = true ∧ s.starts = true ∧ s.transfers t.comp.length = true ∧
    s.transfers (t.sizes.length * 4) = true ∧ s.launches t.globalSize t.localSize = true ∧
    allocates (t.sizes.length * t.blockSize) = true ∧
    s.transfers (t.sizes.length * t.blockSize) = true

instance (allocates : Nat → Bool) : Decidable (t.Granted s allocates) := by
  unfold Granted
  infer_instance

end DecTask

/-- What is read back from one device: the sizes, and the slots. -/
structure Decoded where
  sizes : List Nat
  slot : Nat → Nat → List UInt8

/-- The part of one device. -/
def DecTask.run (s : Side) (t : DecTask) (allocates : Nat → Bool) : Option Decoded :=
  if t.sizes.length = 0 then some ⟨[], fun _ _ => []⟩
  else
    match s.getBuffer 0 t.comp.length, s.getBuffer 1 (t.sizes.length * t.blockSize),
      s.getBuffer 2 (t.sizes.length * 4), s.getBuffer 3 (t.sizes.length * 4),
      s.getBuffer 4 (t.sizes.length * 4) with
    | some comp, some out, some _, some _, some _ =>
      if t.Granted s allocates ∧ t.Finished s comp out then
        some ⟨t.outSizes s comp out,
          fun i n => (t.lanes s comp out).shared.mem.bytes (out + i * t.blockSize) n⟩
      else none
    | _, _, _, _, _ => none

/-- The loop that writes the blocks of one device; it gives up at a size that is larger than a
slot. -/
def Decoded.write (blockSize : Nat) (d : Decoded) : Option (List UInt8) :=
  if d.sizes.all (· ≤ blockSize) then
    some ((List.range d.sizes.length).flatMap fun i => d.slot i (d.sizes.getD i 0))
  else none

/-- The return code is 0. -/
structure Result where
  /-- `gpu_out_sizes` and `cpu_out_sizes` -/
  sizes : List Nat
  written : List UInt8
  deriving Repr, DecidableEq

section Tasks

variable (sys : System) (f : File) (gpuBlocks : Nat)

/-- The table of the file. -/
def tableOf : List Nat := (List.range f.numBlocks).map f.compSize

def gpuDecTask (localSize : Nat) : DecTask where
  comp := f.payload.take ((tableOf f).take gpuBlocks).sum
  sizes := (tableOf f).take gpuBlocks
  blockSize := f.blockSize
  globalSize := roundUpLocalSize gpuBlocks (gpuLocal localSize)
  localSize := gpuLocal localSize

def cpuDecTask (threads : Nat) : DecTask where
  comp := (f.payload.drop ((tableOf f).take gpuBlocks).sum).take ((tableOf f).drop gpuBlocks).sum
  sizes := (tableOf f).drop gpuBlocks
  blockSize := f.blockSize
  globalSize := sys.cpu.cpuSlots threads (f.numBlocks - gpuBlocks)
  localSize := 1

end Tasks

/-- The tests that a file has to pass: the header and the table are complete, and the sizes add up
to the size of the payload. -/
def Accepted (f : File) : Prop :=
  4 ≤ f.size ∧ f.word 0 = magicNumber ∧ 8 ≤ f.size ∧ f.numBlocks ≠ 0 ∧ 12 ≤ f.size ∧
    f.blockSize ≠ 0 ∧ f.headerSize ≤ f.size ∧ (tableOf f).sum = f.size - f.headerSize

instance (f : File) : Decidable (Accepted f) := by
  unfold Accepted
  infer_instance

/-- `do_split_decompress_mode`, with `share` blocks for the GPU if there are so many. -/
def doSplitDecompressMode (sys : System) (f : File) (share localSize threads : Nat) :
    Option Result :=
  if Accepted f ∧ sys.allocates (f.numBlocks * 4) ∧ sys.allocates (f.size - f.headerSize) then
    let gpuBlocks := min share f.numBlocks
    match (gpuDecTask f gpuBlocks localSize).run sys.gpu sys.allocates,
      (cpuDecTask sys f gpuBlocks threads).run sys.cpu sys.allocates with
    | some g, some c =>
      match sys.writes, g.write f.blockSize, c.write f.blockSize with
      | true, some front, some back => some ⟨g.sizes ++ c.sizes, front ++ back⟩
      | _, _, _ => none
    | _, _ => none
  else none

end Lz4.Hybrid
