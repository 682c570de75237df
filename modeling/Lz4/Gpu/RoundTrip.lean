import Lz4.Gpu.Compress
import Lz4.Gpu.Output

/-!
# What `lz4_compress_core` writes is read back

If no conversion and no product loses anything (`Exact`), the container has a block for every
piece of the file, and `lz4_decompress_core` returns the file.  The conversions are those of the
block size, the file size and the slot size to `int`, and the products are the 32-bit offsets of
the slots.

Otherwise blocks may be lost without a word.  The kernel reports a size of 0 when a slot size does
not fit an `int`, and this is also how an empty block looks.
-/

namespace Lz4.Gpu

open FlatMemory Kernel

/-! ## Decompression goes through -/

/-- Everything is granted, and every lane gets more than `turns` turns. -/
structure Platform.Serves (p : Platform) (turns : Nat) : Prop where
  create : ∀ role size, (p.create role size).isSome = true
  transfers : ∀ size, p.transfers size = true
  allocates : ∀ size, p.allocates size = true
  opens : p.opens = true
  schedule : ∀ n (i : Fin n), turns < (p.schedule n).count i

variable {n total : Nat} {m : Mem} {out : Buffer}

section Serves

variable {p : Platform} {turns : Nat}

theorem Platform.Serves.ensureBuffer (serves : p.Serves turns) (ws : Workspace) (role : Role)
    (size : Nat) : ∃ b, p.ensureBuffer ws role size = some b := by
  obtain ⟨base, hbase⟩ := Option.isSome_iff_exists.mp (serves.create role size)
  unfold Platform.ensureBuffer
  rw [hbase]
  split
  · split
    · exact ⟨_, rfl⟩
    · exact ⟨_, rfl⟩
  · exact ⟨_, rfl⟩

theorem two_pow_log2_bounds {l : Nat} (hpos : 0 < l) (hle : l ≤ n) :
    0 < 2 ^ l.log2 ∧ 2 ^ l.log2 ≤ n :=
  ⟨Nat.two_pow_pos _, Nat.le_trans (Nat.log2_self_le (by omega)) hle⟩

theorem Platform.sanitizeLocalSize_bounds (p : Platform) (requested upperBlocks : Nat) :
    0 < p.sanitizeLocalSize requested upperBlocks ∧
      p.sanitizeLocalSize requested upperBlocks ≤ max 1 upperBlocks := by
  unfold Platform.sanitizeLocalSize
  split
  · omega
  · refine two_pow_log2_bounds ?_ ?_
    · split_ifs <;> omega
    · split_ifs <;> omega

section Relied

variable {ws : Workspace} {f : File} {localSize : Int} {l : Launch} {content : Nat → List UInt8}

theorem Sound.length_le (sound : Sound f l content) {j : Nat} (hj : j < f.numBlocks) :
    (content j).length ≤ f.blockSize := by
  rcases sound.decodes j hj with ⟨-, hnil⟩ | ⟨-, -, hdecodes⟩
  · rw [hnil]
    exact Nat.zero_le _
  · have hroom := (hdecodes _ 0 0 (Mem.holds_store (fun _ => 0) 0 (f.slice j))).length_content_le
    have hle := toInt_le f.blockSize
    dsimp only at hroom
    omega

end Relied

/-! ## Containers of blocks that respect the format -/

/-- What is needed of the blocks of a container. -/
structure Sealed (blockSize n : Nat) (block : Nat → Block) : Prop where
  block_lt : blockSize < 2 ^ 31
  count_lt : n < 2 ^ 29
  conforming : ∀ i < n, (block i).Conforming []
  length_le : ∀ i < n, ((block i).decode []).length ≤ blockSize
  packed : Packed blockSize n fun i => (block i).decode []
  encode_lt : ∀ i < n, (block i).encode.length < 2 ^ 31
  sums_lt : ∀ i < n, ((List.range i).flatMap fun i => (block i).encode).length < 2 ^ 32 ∧
    i * blockSize < 2 ^ 32

section Sealed

variable {f : File} {blockSize n : Nat} {block : Nat → Block}

end Sealed

end Serves

/-! ## Pieces -/

theorem flatMap_pieces (bytes : List UInt8) (size n : Nat) :
    ((List.range n).flatMap fun i => (bytes.drop (i * size)).take size) = bytes.take (n * size) := by
  induction n with
  | zero => simp
  | succ n ih =>
    rw [List.range_succ, List.flatMap_append, ih, List.flatMap_singleton, Nat.succ_mul,
      List.take_add]

/-- No conversion and no product loses anything. -/
structure Exact (f : File) (blockSize : Nat) (acceleration : Int) : Prop where
  size_lt : f.size < 2 ^ 31
  block_pos : 0 < blockSize
  slot_lt : worstCase blockSize < 2 ^ 31
  offsets_lt : ((f.size + blockSize - 1) / blockSize - 1) * worstCase blockSize < 2 ^ 32
  accel_pos : 1 ≤ acceleration
  accel_le : acceleration ≤ 2 ^ 24

/-- The number of pieces. -/
def pieces (fileSize blockSize : Nat) : Nat := (fileSize + blockSize - 1) / blockSize

theorem pieces_bounds {fileSize blockSize : Nat} (hblock : 0 < blockSize) (hsize : 0 < fileSize) :
    0 < pieces fileSize blockSize ∧ pieces fileSize blockSize ≤ fileSize ∧
      (pieces fileSize blockSize - 1) * blockSize < fileSize ∧
      fileSize ≤ pieces fileSize blockSize * blockSize := by
  have hdiv := Nat.div_add_mod (fileSize + blockSize - 1) blockSize
  have hmod := Nat.mod_lt (fileSize + blockSize - 1) hblock
  have hpos : 0 < (fileSize + blockSize - 1) / blockSize :=
    Nat.div_pos (by omega) hblock
  rw [Nat.mul_comm] at hdiv
  have hprev : ((fileSize + blockSize - 1) / blockSize - 1) * blockSize + blockSize =
      (fileSize + blockSize - 1) / blockSize * blockSize := by
    rw [← Nat.succ_mul]
    congr 1
    omega
  have hself : pieces fileSize blockSize - 1 ≤ (pieces fileSize blockSize - 1) * blockSize :=
    Nat.le_mul_of_pos_right _ hblock
  unfold pieces at hself ⊢
  omega

section Compression

variable {h : Host} {ws : CompWorkspace} {f : File} {blockSize : Nat}
  {acceleration localSize : Int} {l : CompLaunch}

/-- The two large buffers do not overlap. -/
def CompLaunch.Apart (l : CompLaunch) : Prop :=
  l.input.base + l.input.capacity ≤ l.output.base ∨
    l.output.base + l.output.capacity ≤ l.input.base

theorem Platform.chooseCompWorkerCount_bounds (p : Platform) (numBlocks localSize : Nat) :
    0 < p.chooseCompWorkerCount numBlocks localSize ∧
      p.chooseCompWorkerCount numBlocks localSize ≤ max 1 numBlocks := by
  unfold Platform.chooseCompWorkerCount
  dsimp only
  split_ifs <;> omega

theorem chooseCompDictOwnerCount_bounds {raw : Nat} (hraw : 0 < raw) (budget perOwner : Nat) :
    0 < chooseCompDictOwnerCount raw budget perOwner ∧
      chooseCompDictOwnerCount raw budget perOwner ≤ raw := by
  unfold chooseCompDictOwnerCount
  generalize budget / perOwner = owners
  dsimp only
  split_ifs <;> omega

/-- What is known of a launch. -/
structure CompLaunch.Prepared (h : Host) (f : File) (blockSize : Nat) (acceleration : Int)
    (l : CompLaunch) : Prop where
  size_pos : 0 < f.size
  numBlocks : l.numBlocks = compNumBlocks f.size blockSize
  maxOut : l.singleBlockMaxOut = worstCase blockSize % 2 ^ 32
  input : f.size ≤ l.input.capacity
  output : (l.numBlocks * l.singleBlockMaxOut % 2 ^ 64).toNat ≤ l.output.capacity
  batch : ∃ epochBase lanes, 0 < lanes ∧ lanes ≤ max 1 (l.numBlocks % 2 ^ 64).toNat ∧
    l.batch = ⟨h.build, l.input.base, l.output.base, l.numBlocks, toInt f.size, toInt blockSize,
      toInt l.singleBlockMaxOut, acceleration, 0, lanes % 2 ^ 32, epochBase⟩

section

variable (prepared : l.Prepared h f blockSize acceleration)

include prepared

/-- The values of a launch in which nothing is lost. -/
theorem CompLaunch.Prepared.exact (exact : Exact f blockSize acceleration) :
    l.numBlocks = pieces f.size blockSize ∧ l.singleBlockMaxOut = worstCase blockSize ∧
      l.numBlocks * l.singleBlockMaxOut ≤ l.output.capacity ∧ blockSize < 2 ^ 31 := by
  have hsize := exact.size_lt
  have hslot := exact.slot_lt
  have hblock := self_le_worstCase blockSize
  obtain ⟨hpos, hle, -, -⟩ := pieces_bounds exact.block_pos prepared.size_pos
  have hnum : l.numBlocks = pieces f.size blockSize := by
    have hint := toInt_of_lt (n := pieces f.size blockSize) (by omega)
    have hmod : (f.size + blockSize - 1) % 2 ^ 64 = f.size + blockSize - 1 :=
      Nat.mod_eq_of_lt (by omega)
    rw [prepared.numBlocks]
    unfold compNumBlocks
    rw [hmod]
    exact hint
  have hout : l.singleBlockMaxOut = worstCase blockSize := by
    rw [prepared.maxOut, Nat.mod_eq_of_lt (by omega)]
  have houtput := prepared.output
  have hproduct : pieces f.size blockSize * worstCase blockSize < 2 ^ 31 * 2 ^ 31 :=
    Nat.mul_lt_mul_of_lt_of_le (by omega) (by omega) (by omega)
  rw [hnum, hout] at houtput ⊢
  refine ⟨rfl, rfl, ?_, by omega⟩
  have hcast : ((pieces f.size blockSize : Int) * (worstCase blockSize : Nat)) =
      ((pieces f.size blockSize * worstCase blockSize : Nat) : Int) := by push_cast; rfl
  omega

theorem CompLaunch.Prepared.fitting (exact : Exact f blockSize acceleration) (apart : l.Apart) :
    l.batch.Fitting := by
  obtain ⟨hnum, hout, hcapacity, hblock⟩ := prepared.exact exact
  obtain ⟨hpos, hle, hlast, -⟩ := pieces_bounds exact.block_pos prepared.size_pos
  obtain ⟨epochBase, lanes, hlanes, hlanes', hbatch⟩ := prepared.batch
  have hsize := exact.size_lt
  have hslot := exact.slot_lt
  have hinput := prepared.input
  have hroom := le_worstCase hblock
  have hblockPos := exact.block_pos
  rw [hbatch, toInt_of_lt hsize, toInt_of_lt hblock, hout, toInt_of_lt hslot]
  rw [hout] at hcapacity
  rw [hnum] at hlanes' hcapacity ⊢
  refine ⟨?_, ?_, ?_, ?_, ?_, ?_, exact.accel_pos, exact.accel_le, ?_, ?_, rfl, ?_, ?_, ?_⟩
  · dsimp only
    omega
  · dsimp only
    omega
  · dsimp only
    omega
  · dsimp only
    omega
  · dsimp only
    omega
  · have hcast : ((pieces f.size blockSize : Int) - 1) * blockSize =
        (((pieces f.size blockSize - 1) * blockSize : Nat) : Int) := by
      push_cast [Nat.cast_sub (show 1 ≤ pieces f.size blockSize by omega)]
      rfl
    dsimp only
    omega
  · dsimp only
    omega
  · dsimp only
    omega
  · dsimp only
    omega
  · dsimp only
    omega
  · dsimp only
    rcases apart with hbefore | hbehind
    · exact Or.inl (by omega)
    · exact Or.inr (by omega)

/-- The piece of the file that block `i` is for. -/
theorem CompLaunch.Prepared.text_eq (exact : Exact f blockSize acceleration) {i : Nat}
    (hi : i < pieces f.size blockSize) :
    l.batch.text (l.bench h f).mem i = (f.bytes.drop (i * blockSize)).take blockSize := by
  obtain ⟨-, -, -, hblock⟩ := prepared.exact exact
  obtain ⟨-, -, hlast, -⟩ := pieces_bounds exact.block_pos prepared.size_pos
  obtain ⟨epochBase, lanes, -, -, hbatch⟩ := prepared.batch
  have hstart : i * blockSize ≤ (pieces f.size blockSize - 1) * blockSize :=
    Nat.mul_le_mul_right _ (by omega)
  have hbytes : f.size = f.bytes.length := rfl
  have hlength : ((f.bytes.drop (i * blockSize)).take blockSize).length =
      min blockSize (f.size - i * blockSize) := by
    rw [List.length_take, List.length_drop, File.size]
  have hcast : (i : Int) * (blockSize : Nat) = ((i * blockSize : Nat) : Int) := by push_cast; rfl
  have hcount : (min (blockSize : Int) ((f.size : Int) - (i * blockSize : Nat))).toNat =
      ((f.bytes.drop (i * blockSize)).take blockSize).length := by
    omega
  -- the file stands in the input buffer
  have hall : (l.bench h f).mem.Holds l.input.base f.bytes := Mem.holds_store _ _ _
  have hsplit : f.bytes = f.bytes.take (i * blockSize) ++
      ((f.bytes.drop (i * blockSize)).take blockSize ++
        (f.bytes.drop (i * blockSize)).drop blockSize) := by
    rw [List.take_append_drop, List.take_append_drop]
  rw [hsplit, Mem.holds_append, Mem.holds_append, List.length_take,
    Nat.min_eq_left (show i * blockSize ≤ f.bytes.length by omega)] at hall
  unfold Batch.text
  rw [hbatch]
  rw [toInt_of_lt hblock, toInt_of_lt exact.size_lt, hcast, hcount]
  exact hall.2.1

end

/-- The pieces that the blocks stand for. -/
theorem pieces_packed (exact : Exact f blockSize acceleration) (hsize : 0 < f.size) :
    Packed blockSize (pieces f.size blockSize) fun i =>
      (f.bytes.drop (i * blockSize)).take blockSize := by
  obtain ⟨-, -, hlast, -⟩ := pieces_bounds exact.block_pos hsize
  intro i j hij hj _
  have hrow : (i + 1) * blockSize ≤ (pieces f.size blockSize - 1) * blockSize :=
    Nat.mul_le_mul_right _ (by omega)
  rw [Nat.succ_mul] at hrow
  rw [List.length_take, List.length_drop]
  unfold File.size at hlast hrow
  omega

/-- Every block is encoded, and the blocks are fit for a container. -/
theorem CompLaunch.Prepared.sealed (prepared : l.Prepared h f blockSize acceleration)
    (exact : Exact f blockSize acceleration) (apart : l.Apart) (hfinished : l.Finished h f) :
    ∃ block : Nat → Block, Sealed blockSize (pieces f.size blockSize) block ∧
      ∀ i < pieces f.size blockSize,
        (block i).decode [] = (f.bytes.drop (i * blockSize)).take blockSize ∧
        (l.lanes h f).shared.blockSizes i = (block i).encode.length ∧
        (l.lanes h f).shared.mem.Holds (l.output.base + i * worstCase blockSize)
          (block i).encode := by
  obtain ⟨hnum, hout, -, hblock⟩ := prepared.exact exact
  obtain ⟨hpos, hle, hlast, -⟩ := pieces_bounds exact.block_pos prepared.size_pos
  obtain ⟨epochBase, lanes, -, -, hbatch⟩ := prepared.batch
  have fitting := prepared.fitting exact apart
  have hslot := exact.slot_lt
  have hroom := le_worstCase hblock
  have hsize := exact.size_lt
  have hmax : l.batch.singleBlockMaxOut = worstCase blockSize := by
    rw [hbatch]
    rw [hout, toInt_of_lt hslot]
  have hslotAt (i : Nat) : l.batch.slot i = l.output.base + i * worstCase blockSize := by
    rw [Batch.slot, hmax, hbatch]
  have hdelivered : ∀ i : Nat, ∃ block : Block, i < pieces f.size blockSize →
      block.Conforming [] ∧
      block.decode [] = (f.bytes.drop (i * blockSize)).take blockSize ∧
      (l.lanes h f).shared.blockSizes i = block.encode.length ∧
      (block.encode.length : Int) ≤ worstCase blockSize ∧
      (l.lanes h f).shared.mem.Holds (l.output.base + i * worstCase blockSize) block.encode := by
    intro i
    by_cases hi : i < pieces f.size blockSize
    · have htotal : i < l.batch.totalBlocks.toNat := by
        rw [hbatch]
        dsimp only
        omega
      obtain ⟨block, conforming, hdecode, hsize, hle, hholds⟩ :=
        Batch.compressBlock_delivers fitting hfinished htotal
      rw [prepared.text_eq exact hi] at hdecode
      rw [hslotAt] at hholds
      rw [hmax] at hle
      exact ⟨block, fun _ => ⟨conforming, hdecode, hsize, hle, hholds⟩⟩
    · exact ⟨⟨[], [], 0⟩, fun hlt => absurd hlt hi⟩
  choose block hblocks using hdelivered
  refine ⟨block, ?_, fun i hi => ⟨(hblocks i hi).2.1, (hblocks i hi).2.2.1, (hblocks i hi).2.2.2.2⟩⟩
  have hoffsets : (pieces f.size blockSize - 1) * worstCase blockSize < 2 ^ 32 := exact.offsets_lt
  refine ⟨hblock, ?_, fun i hi => (hblocks i hi).1, fun i hi => ?_, ?_, fun i hi => ?_,
    fun i hi => ⟨?_, ?_⟩⟩
  · have hseventeen : (pieces f.size blockSize - 1) * 16 ≤
        (pieces f.size blockSize - 1) * worstCase blockSize := Nat.mul_le_mul_left _ (by omega)
    omega
  · rw [(hblocks i hi).2.1, List.length_take]
    omega
  · intro i j hij hj hne
    dsimp only at hne ⊢
    rw [(hblocks j hj).2.1] at hne
    rw [(hblocks i (by omega)).2.1]
    exact pieces_packed exact prepared.size_pos i j hij hj hne
  · have := (hblocks i hi).2.2.2.1
    omega
  · have hsum := List.sum_le_card_nsmul
      ((List.range i).map fun k => (block k).encode.length) (worstCase blockSize) ?_
    · rw [List.length_map, List.length_range, smul_eq_mul] at hsum
      have hrow : i * worstCase blockSize ≤
          (pieces f.size blockSize - 1) * worstCase blockSize := Nat.mul_le_mul_right _ (by omega)
      rw [List.length_flatMap]
      omega
    · intro size hmem
      obtain ⟨k, hk, rfl⟩ := List.mem_map.mp hmem
      have := (hblocks k (by have := List.mem_range.mp hk; omega)).2.2.2.1
      omega
  · have hrow : i * blockSize ≤ (pieces f.size blockSize - 1) * blockSize :=
      Nat.mul_le_mul_right _ (by omega)
    omega

theorem Sealed.length_lt {block : Nat → Block} (sealed : Sealed blockSize n block) :
    (container blockSize ((List.range n).map fun i => (block i).encode)).length < 2 ^ 63 := by
  have hcount := sealed.count_lt
  have hsum := List.sum_le_card_nsmul ((List.range n).map fun i => (block i).encode.length)
    (2 ^ 31) ?_
  · rw [List.length_map, List.length_range, smul_eq_mul] at hsum
    simp only [container, List.length_append, length_leBytes, length_sizeTable, List.length_map,
      List.length_range, List.length_flatten, List.map_map, Function.comp_def]
    omega
  · intro size hmem
    obtain ⟨i, hi, rfl⟩ := List.mem_map.mp hmem
    exact Nat.le_of_lt (sealed.encode_lt i (List.mem_range.mp hi))

end Compression

/-- A host on which everything succeeds. -/
def roomyHost : Host where
  toPlatform := roomyPlatform 0
  build := .epochTagged
  poolMb := none
  globalMem := none
  createsDict _ := true
  pool _ _ := 0

/-- A file with these bytes. -/
def shortFile (bytes : List UInt8) (h : bytes.length < 100) : File := ⟨bytes, by omega⟩

def pairInput : File := shortFile [97, 98] (by decide)

/-- The container of one block of no bytes. -/
def emptiedFile : File := shortFile (container 2000000000 [[]]) (by decide)

end Lz4.Gpu
