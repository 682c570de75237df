import Lz4.Gpu.Container
import Lz4.Kernel.Blocks

/-!
# `lz4_decompress_core`

The host side of decompression.  It reads the table of sizes, computes where each block starts,
uploads the payload and the tables, launches `lz4_decompress_blocks` and writes the first bytes
of the output buffer to a file.

## Widths

The number of blocks and the sizes are 32-bit words from the file.  `num_blocks * 4` is computed
with 32 bits, so it wraps around, and so does the size of the header that is derived from it.
The number of table bytes that were really read is not looked at; words that were not read are
what `malloc` left there.  Running sums are kept with 64 bits and tested before each block.

## What is left open

`Platform` stands for everything the call depends on besides the file: the device, the contents
of memory nobody has written to, and which requests are granted.  Nothing is assumed about it.
In particular the schedule of the lanes is arbitrary.
-/

namespace Lz4.Gpu

open FlatMemory Kernel

/-! ## The platform -/

/-- A buffer of device memory. -/
structure Buffer where
  base : Int
  capacity : Nat
  deriving Repr, DecidableEq

/-- What a buffer is for. -/
inductive Role
  | input
  | output
  | compOff
  | compSize
  | sizesOut
  deriving Repr, DecidableEq

/-- The buffers of `lz4_gpu_workspace_t` that decompression uses, from earlier calls. -/
structure Workspace where
  buffer : Role → Option Buffer

/-- How the decoded bytes get to the file: in chunks, from a mapped buffer, or through memory of
the host.  Environment variables decide. -/
inductive Readback
  | chunked (chunkBytes : Nat)
  | mapped
  | staged
  deriving Repr, DecidableEq

structure Platform where
  /-- `lz4_prefers_standard_copy` -/
  standardCopy : Bool
  /-- `CL_DEVICE_MAX_WORK_GROUP_SIZE` -/
  maxWorkGroup : Nat
  /-- `CL_DEVICE_MAX_COMPUTE_UNITS` -/
  computeUnits : Nat
  /-- `clCreateBuffer` -/
  create : Role → Nat → Option Int
  /-- A transfer of this many bytes from or to a buffer that has them is carried out. -/
  transfers : Nat → Bool
  /-- `malloc` succeeds. -/
  allocates : Nat → Bool
  /-- The output file can be opened. -/
  opens : Bool
  readback : Readback
  /-- Memory of the host after `malloc`. -/
  fresh : Nat → UInt8
  /-- Words of the host behind the end of `h_final_sizes`. -/
  freshWord : Nat → Nat
  /-- Device memory before the call. -/
  mem : Mem
  /-- The tables of the device before the call, and what stands around them. -/
  table : Role → Int → Nat
  /-- The order in which the lanes move. -/
  schedule : (n : Nat) → List (Fin n)

namespace Platform

variable (p : Platform)

/-- `ensure_buffer_ex` -/
def ensureBuffer (ws : Workspace) (role : Role) (size : Nat) : Option Buffer :=
  match ws.buffer role with
  | some b => if b.capacity ≥ size then some b else (p.create role size).map (⟨·, size⟩)
  | none => (p.create role size).map (⟨·, size⟩)

/-- `sanitize_local_size`; its loop ends with the greatest power of two that is not above `l`. -/
def sanitizeLocalSize (requested upperBlocks : Nat) : Nat :=
  if upperBlocks = 0 then 1
  else
    let l := if requested = 0 then 8 else requested
    let l := if l > p.maxWorkGroup then p.maxWorkGroup else l
    let l := if l > upperBlocks then upperBlocks else l
    let l := if l = 0 then 1 else l
    2 ^ l.log2

/-- `choose_decomp_worker_count` -/
def chooseDecompWorkerCount (numBlocks localSize : Nat) : Nat :=
  if numBlocks = 0 then 1
  else
    let cu := if p.computeUnits = 0 then 1 else p.computeUnits
    let target := cu * (if numBlocks ≥ 4096 then 48 else 96)
    let target := if target < localSize then localSize else target
    let target := if target > numBlocks then numBlocks else target
    if target = 0 then 1 else target

end Platform

/-- `round_up_size` -/
def roundUpSize (v align : Nat) : Nat :=
  if align = 0 then v else (v + align - 1) / align * align

/-! ## Up to the launch -/

/-- Word `i` of memory in which `read` has been read, over what `malloc` left there. -/
def hostWord (fresh : Nat → UInt8) (read : List UInt8) (i : Nat) : Nat :=
  leValue ((List.range 4).map fun k => read.getD (4 * i + k) (fresh (4 * i + k)))

/-- The loop that fills `h_comp_offsets`; it gives up when a sum has left 32 bits. -/
def blockOffsets (blockMax : Nat) : List Nat → Nat → Nat → Option (List Nat)
  | [], _, _ => some []
  | size :: sizes, currIn, currOut =>
    if currIn > 0xFFFFFFFF ∨ currOut > 0xFFFFFFFF ∨ blockMax > 0xFFFFFFFF then none
    else (blockOffsets blockMax sizes (currIn + size) (currOut + blockMax)).map (currIn :: ·)

/-- What stands ready when the kernel is launched. -/
structure Launch where
  numBlocks : Nat
  blockSize : Nat
  /-- `num_blocks * 4` -/
  tableBytes : Nat
  /-- What the first `fread` of the table got. -/
  tableRead : Nat
  headerSize : Nat
  dataSize : Nat
  compSizes : List Nat
  compOffsets : List Nat
  input : Buffer
  output : Buffer
  globalSize : Nat
  deriving Repr, DecidableEq

/-- The payload is read and uploaded. -/
def uploads (p : Platform) (f : File) (headerSize dataSize : Nat) : Bool :=
  if p.standardCopy then
    p.allocates dataSize && (f.read headerSize dataSize).length == dataSize &&
      (dataSize == 0 || p.transfers dataSize)
  else p.transfers dataSize && (f.read headerSize dataSize).length == dataSize

/-- The tables are uploaded. -/
def uploadsTables (p : Platform) (tableBytes : Nat) : Bool :=
  if p.standardCopy then p.transfers tableBytes
  else tableBytes == 0 || p.transfers tableBytes

/-- `lz4_decompress_core` up to `clEnqueueNDRangeKernel`; `none` if it returns before. -/
def decompressLaunch (p : Platform) (ws : Workspace) (f : File) (localSize : Int) :
    Option Launch :=
  if f.size < 4 ∨ f.word 0 ≠ magicNumber then none
  else if f.size < 8 then none
  else if f.size < 12 then none
  else
    let numBlocks := f.numBlocks
    let tableBytes := numBlocks * 4 % 2 ^ 32
    let table := f.read 12 tableBytes
    let compSizes := (List.range numBlocks).map (hostWord p.fresh table)
    let headerSize := (12 + numBlocks * 4) % 2 ^ 32
    let dataSize := (((f.size : Int) - headerSize) % 2 ^ 64).toNat
    match blockOffsets f.blockSize compSizes 0 0 with
    | none => none
    | some compOffsets =>
      match p.ensureBuffer ws .input dataSize, p.ensureBuffer ws .output (numBlocks * f.blockSize),
        p.ensureBuffer ws .compOff tableBytes, p.ensureBuffer ws .compSize tableBytes,
        p.ensureBuffer ws .sizesOut tableBytes with
      | some input, some output, some _, some _, some _ =>
        if uploads p f headerSize dataSize && uploadsTables p tableBytes then
          let l := p.sanitizeLocalSize (if localSize > 0 then localSize.toNat else 1) numBlocks
          some
            { numBlocks, blockSize := f.blockSize, tableBytes, tableRead := table.length,
              headerSize, dataSize, compSizes, compOffsets, input, output,
              globalSize := roundUpSize (p.chooseDecompWorkerCount numBlocks l) l }
        else none
      | _, _, _, _, _ => none

/-! ## The launch and what follows -/

namespace Launch

variable (p : Platform) (f : File) (l : Launch)

/-- A table of the device after `words` have been uploaded. -/
def uploaded (role : Role) (words : List Nat) (i : Int) : Nat :=
  if 0 ≤ i ∧ 4 * i + 4 ≤ l.tableBytes then words.getD i.toNat 0 else p.table role i

/-- The arguments of the kernel. -/
def blocks : Blocks where
  input := l.input.base
  output := l.output.base
  compOffsets := l.uploaded p .compOff l.compOffsets
  compSizes := l.uploaded p .compSize l.compSizes
  blockSize := l.blockSize
  totalBlocks := l.numBlocks
  globalSize := l.globalSize

/-- Memory and tables when the lanes start. -/
def device : Device where
  mem := p.mem.store l.input.base (f.read l.headerSize l.dataSize)
  sizesOut := p.table .sizesOut

def lanes : Parallel.Config (Fin l.globalSize) Device (Parallel.Phase Int (Int × Nat)) :=
  (l.blocks p).run (p.schedule l.globalSize) (l.device p f)

/-- The lanes have ended: `clWaitForEvents` returns. -/
def Finished : Prop := (l.blocks p).decompressBlocks.program.Ended (l.lanes p f)

instance : Decidable (l.Finished p f) :=
  inferInstanceAs (Decidable ((l.blocks p).decompressBlocks.program.Ended (l.lanes p f)))

/-- `h_final_sizes` -/
def finalSizes : List Nat :=
  (List.range l.numBlocks).map fun i =>
    if 4 * i + 4 ≤ l.tableBytes then (l.lanes p f).shared.sizesOut i else p.freshWord i

end Launch

/-- The return code is 0. -/
structure Result where
  sizes : List Nat
  /-- The output file, if it could be opened. -/
  written : Option (List UInt8)
  deriving Repr, DecidableEq

variable {fresh : Nat → UInt8} {i : Nat}

/-- A word that was read completely. -/
theorem hostWord_of_read {read : List UInt8} (h : 4 * i + 4 ≤ read.length) :
    hostWord fresh read i = leValue ((read.drop (4 * i)).take 4) := by
  have hbytes : (List.range 4).map (fun k => read.getD (4 * i + k) (fresh (4 * i + k))) =
      (read.drop (4 * i)).take 4 := by
    refine List.ext_getElem ?_ fun k hk hk' => ?_
    · simp only [List.length_map, List.length_range, List.length_take, List.length_drop]
      omega
    · simp only [List.length_map, List.length_range] at hk
      rw [List.getElem_map, List.getElem_range, List.getElem_take, List.getElem_drop,
        List.getD_eq_getElem?_getD, List.getElem?_eq_getElem (by omega)]
      rfl
  rw [hostWord, hbytes]

variable {f : File}

/-- In a file with the whole table, the host sees its entries. -/
theorem hostWord_table (hheader : f.headerSize ≤ f.size) (hi : i < f.numBlocks) :
    hostWord fresh (f.read 12 (4 * f.numBlocks)) i = f.compSize i := by
  unfold File.headerSize at hheader
  rw [hostWord_of_read (by rw [File.length_read]; omega)]
  unfold File.compSize File.word File.read
  rw [List.drop_take, List.drop_drop, List.take_take, Nat.min_eq_left (by omega)]

/-- When the loop runs through, every offset is the sum of the sizes before it. -/
theorem blockOffsets_some {blockMax currIn currOut : Nat} {sizes offsets : List Nat}
    (h : blockOffsets blockMax sizes currIn currOut = some offsets) :
    offsets.length = sizes.length ∧ ∀ i < sizes.length,
      offsets.getD i 0 = currIn + (sizes.take i).sum ∧ offsets.getD i 0 < 2 ^ 32 := by
  induction sizes generalizing currIn currOut offsets with
  | nil =>
    rw [blockOffsets, Option.some.injEq] at h
    subst h
    exact ⟨rfl, fun i hi => absurd hi (by simp)⟩
  | cons size sizes ih =>
    rw [blockOffsets] at h
    split at h
    · exact absurd h (by simp)
    · obtain ⟨rest, hrest, rfl⟩ := Option.map_eq_some_iff.mp h
      obtain ⟨hlength, hoffset⟩ := ih hrest
      refine ⟨by simp [hlength], fun i hi => ?_⟩
      cases i with
      | zero =>
        rw [List.getD_cons_zero, List.take_zero, List.sum_nil]
        omega
      | succ i =>
        obtain ⟨heq, hlt⟩ := hoffset i (by simpa using hi)
        rw [List.getD_cons_succ, List.take_succ_cons, List.sum_cons]
        omega

/-! ## What holds at the launch -/

variable {p : Platform} {ws : Workspace}

theorem Platform.ensureBuffer_some {role : Role} {size : Nat} {b : Buffer}
    (h : p.ensureBuffer ws role size = some b) : size ≤ b.capacity := by
  unfold Platform.ensureBuffer at h
  have hcreate : (p.create role size).map (⟨·, size⟩) = some b → size ≤ b.capacity := by
    intro h
    obtain ⟨a, -, rfl⟩ := Option.map_eq_some_iff.mp h
    exact Nat.le_refl _
  split at h
  · split at h
    · rename_i hcapacity
      cases h
      exact hcapacity
    · exact hcreate h
  · exact hcreate h

/-- What is known of a launch, whatever the file says. -/
structure Launch.Prepared (p : Platform) (f : File) (l : Launch) : Prop where
  twelve_le : 12 ≤ f.size
  magic : f.word 0 = magicNumber
  numBlocks : l.numBlocks = f.numBlocks
  blockSize : l.blockSize = f.blockSize
  tableBytes : l.tableBytes = 4 * f.numBlocks % 2 ^ 32
  tableRead : l.tableRead = min l.tableBytes (f.size - 12)
  headerSize : l.headerSize = f.headerSize % 2 ^ 32
  header_le : l.headerSize ≤ f.size
  dataSize : l.dataSize = f.size - l.headerSize
  compSizes : l.compSizes = (List.range f.numBlocks).map (hostWord p.fresh (f.read 12 l.tableBytes))
  compOffsets : blockOffsets f.blockSize l.compSizes 0 0 = some l.compOffsets
  input : l.dataSize ≤ l.input.capacity
  output : f.numBlocks * f.blockSize ≤ l.output.capacity
  globalSize : 0 < l.globalSize

theorem Platform.chooseDecompWorkerCount_pos (p : Platform) (numBlocks localSize : Nat) :
    0 < p.chooseDecompWorkerCount numBlocks localSize := by
  unfold Platform.chooseDecompWorkerCount
  dsimp only
  split_ifs <;> omega

theorem le_roundUpSize (v align : Nat) : v ≤ roundUpSize v align := by
  unfold roundUpSize
  split
  · exact Nat.le_refl v
  · rename_i halign
    have hdiv := Nat.div_add_mod (v + align - 1) align
    have hmod := Nat.mod_lt (v + align - 1) (Nat.pos_of_ne_zero halign)
    rw [Nat.mul_comm] at hdiv
    omega

/-- A read of as many bytes as a wrapped difference says succeeds only if nothing wrapped. -/
theorem header_le_of_uploads {headerSize dataSize : Nat} (hheader : headerSize < 2 ^ 32)
    (hdata : dataSize = (((f.size : Int) - headerSize) % 2 ^ 64).toNat)
    (h : uploads p f headerSize dataSize = true) :
    headerSize ≤ f.size ∧ dataSize = f.size - headerSize := by
  have hread : (f.read headerSize dataSize).length = dataSize := by
    unfold uploads at h
    split at h
    · simp only [Bool.and_eq_true, beq_iff_eq] at h
      exact h.1.2
    · simp only [Bool.and_eq_true, beq_iff_eq] at h
      exact h.2
  have hsize : f.size < 2 ^ 63 := f.size_lt
  rw [File.length_read] at hread
  omega

theorem decompressLaunch_prepared {localSize : Int} {l : Launch}
    (h : decompressLaunch p ws f localSize = some l) : l.Prepared p f := by
  unfold decompressLaunch at h
  split at h
  · exact absurd h (by simp)
  · split at h
    · exact absurd h (by simp)
    · split at h
      · exact absurd h (by simp)
      · dsimp only at h
        split at h
        · exact absurd h (by simp)
        · rename_i compOffsets hoffsets
          split at h
          · rename_i input output _ _ _ hinput houtput _ _ _
            split at h
            · rename_i huploads
              rw [Bool.and_eq_true] at huploads
              have hheader : f.headerSize = 12 + f.numBlocks * 4 := by
                unfold File.headerSize
                omega
              obtain ⟨hle, hdata⟩ := header_le_of_uploads (Nat.mod_lt _ (by omega)) rfl huploads.1
              cases h
              refine ⟨by omega, by tauto, rfl, rfl, ?_, File.length_read _ _, ?_, hle, hdata, rfl,
                hoffsets, Platform.ensureBuffer_some hinput, Platform.ensureBuffer_some houtput, ?_⟩
              · rw [Nat.mul_comm]
              · rw [hheader]
              · exact Nat.lt_of_lt_of_le (p.chooseDecompWorkerCount_pos _ _) (le_roundUpSize _ _)
            · exact absurd h (by simp)
          · exact absurd h (by simp)

/-- The kernel gets true offsets, and no block reaches out of the payload. -/
structure Launch.Contained (f : File) (l : Launch) : Prop where
  tableBytes : l.tableBytes = 4 * l.numBlocks
  tableRead : l.tableRead = l.tableBytes
  headerSize : l.headerSize = 12 + 4 * l.numBlocks
  header_le : l.headerSize ≤ f.size
  dataSize : l.dataSize = f.size - l.headerSize
  compSizes : ∀ i < l.numBlocks, l.compSizes.getD i 0 = f.compSize i
  compOffsets : ∀ i < l.numBlocks, l.compOffsets.getD i 0 = f.compOffset i
  inside : ∀ i < l.numBlocks, l.compOffsets.getD i 0 + l.compSizes.getD i 0 ≤ l.dataSize

section Containment

variable {p : Platform} {f : File} {l : Launch}

/-- The words the host computes with, when the size of the header fits 32 bits and the table is
complete. -/
theorem Launch.Prepared.compSizes_eq (prepared : l.Prepared p f) (hwidth : f.headerSize < 2 ^ 32)
    (hheader : f.headerSize ≤ f.size) :
    l.tableBytes = 4 * f.numBlocks ∧ l.compSizes = (List.range f.numBlocks).map f.compSize := by
  have hbytes : l.tableBytes = 4 * f.numBlocks := by
    unfold File.headerSize at hwidth
    rw [prepared.tableBytes]
    exact Nat.mod_eq_of_lt (by omega)
  refine ⟨hbytes, ?_⟩
  rw [prepared.compSizes, hbytes]
  refine List.map_congr_left fun i hi => ?_
  exact hostWord_table hheader (List.mem_range.mp hi)

theorem Launch.Prepared.contained (prepared : l.Prepared p f) (hwidth : f.headerSize < 2 ^ 32)
    (complete : f.Complete) : l.Contained f := by
  have hheader : f.headerSize ≤ f.size := by
    unfold File.Complete at complete
    omega
  obtain ⟨hbytes, hsizes⟩ := prepared.compSizes_eq hwidth hheader
  obtain ⟨-, hoffsets⟩ := blockOffsets_some prepared.compOffsets
  have hcount : l.compSizes.length = f.numBlocks := by
    rw [hsizes, List.length_map, List.length_range]
  have hnum := prepared.numBlocks
  have hsize : l.headerSize = f.headerSize := by
    rw [prepared.headerSize, Nat.mod_eq_of_lt hwidth]
  have hentry : ∀ i < f.numBlocks, l.compSizes.getD i 0 = f.compSize i := by
    intro i hi
    rw [hsizes, List.getD_eq_getElem?_getD, List.getElem?_map, List.getElem?_range hi]
    rfl
  have hoffset : ∀ i < f.numBlocks, l.compOffsets.getD i 0 = f.compOffset i := by
    intro i hi
    rw [(hoffsets i (by omega)).1, hsizes, ← List.map_take, List.take_range,
      Nat.min_eq_left (by omega), ← f.compOffset_eq_sum, Nat.zero_add]
  refine ⟨by omega, ?_, by rw [hsize, hnum]; rfl, prepared.header_le, prepared.dataSize,
    fun i hi => hentry i (by omega), fun i hi => hoffset i (by omega), ?_⟩
  · rw [prepared.tableRead]
    unfold File.headerSize at hheader
    omega
  · intro i hi
    have hslice := complete.slice_le (i := i) (by omega)
    have hdata := prepared.dataSize
    rw [hentry i (by omega), hoffset i (by omega)]
    omega

theorem Launch.Contained.complete (prepared : l.Prepared p f) (contained : l.Contained f) :
    f.headerSize < 2 ^ 32 ∧ f.Complete := by
  have hnum := prepared.numBlocks
  have hsize : l.headerSize = f.headerSize := by
    rw [contained.headerSize, hnum]
    rfl
  refine ⟨?_, ?_⟩
  · rw [← hsize, prepared.headerSize]
    exact Nat.mod_lt _ (by omega)
  · -- the last block is the one that reaches furthest
    have hheader := contained.header_le
    unfold File.Complete
    cases hn : f.numBlocks with
    | zero =>
      rw [File.compOffset]
      omega
    | succ n =>
      have hlast := contained.inside n (by omega)
      have hdata := contained.dataSize
      rw [contained.compOffsets n (by omega), contained.compSizes n (by omega)] at hlast
      rw [File.compOffset]
      omega

end Containment

/-- A launch is in order exactly if the file holds what its header announces, and the size of
the header has 32 bits. -/
theorem decompressLaunch_contained_iff {p : Platform} {ws : Workspace} {f : File} {localSize : Int}
    {l : Launch} (h : decompressLaunch p ws f localSize = some l) :
    l.Contained f ↔ f.headerSize < 2 ^ 32 ∧ f.Complete := by
  have prepared := decompressLaunch_prepared h
  exact ⟨fun contained => contained.complete prepared,
    fun ⟨hwidth, complete⟩ => prepared.contained hwidth complete⟩

/-- A platform on which everything succeeds. -/
def roomyPlatform (fresh : UInt8) : Platform where
  standardCopy := true
  maxWorkGroup := 256
  computeUnits := 1
  create role _ := some (match role with | .input => 0 | _ => 2 ^ 40)
  transfers _ := true
  allocates _ := true
  opens := true
  readback := .staged
  fresh _ := fresh
  freshWord _ := 0
  mem _ := fresh
  table _ _ := 0
  schedule n := (List.range 4).flatMap fun _ => List.finRange n

/-- A workspace without buffers. -/
def newWorkspace : Workspace := ⟨fun _ => none⟩

/-- Two blocks of one literal each. -/
def pairFile (blockSize : Nat) : File where
  bytes := leBytes 4 magicNumber ++ leBytes 4 2 ++ leBytes 4 blockSize ++ leBytes 4 2 ++
    leBytes 4 2 ++ [0x10, 97, 0x10, 98]
  size_lt := by simp

theorem decompressLaunch_contained_pair :
    ∃ l, decompressLaunch (roomyPlatform 0) newWorkspace (pairFile 1) 1 = some l ∧
      l.Contained (pairFile 1) := by
  obtain ⟨l, hl⟩ : ∃ l, decompressLaunch (roomyPlatform 0) newWorkspace (pairFile 1) 1 = some l :=
    ⟨_, rfl⟩
  exact ⟨l, hl, (decompressLaunch_contained_iff hl).mpr ⟨by decide, by decide⟩⟩

/-- One block of 1000 bytes is announced, and one byte follows. -/
def truncatedFile : File where
  bytes := leBytes 4 magicNumber ++ leBytes 4 1 ++ leBytes 4 1000 ++ leBytes 4 1000 ++ [0]
  size_lt := by decide

theorem decompressLaunch_outside :
    ∃ l, decompressLaunch (roomyPlatform 0) newWorkspace truncatedFile 1 = some l ∧
      l.dataSize = 1 ∧ l.compOffsets = [0] ∧ l.compSizes = [1000] ∧ ¬ l.Contained truncatedFile := by
  refine ⟨_, rfl, by decide, by decide, by decide, ?_⟩
  intro contained
  exact absurd (contained.inside 0 (by decide)) (by decide)

end Lz4.Gpu
