import Lz4.Gpu.RoundTrip
import Lz4.Hybrid.Decode
import Lz4.Kernel.Starved

/-!
# The split mode is its own inverse

If the size of a slot fits an `int`, every block is encoded, on whichever device, and the container
does not depend on how the blocks were divided.  So the blocks may be divided differently when they
are decoded (`doSplitMode_roundTrip_iff`).

The program tests the block size, but the slot is larger by a tenth.  With a block size just under
`INT_MAX` the kernels get a negative slot size and return 0 for every block, and such a container
is decoded to nothing.
-/

namespace Lz4.Hybrid

open FlatMemory Kernel Gpu

/-! ## Compression on one device -/

namespace CompTask

variable {s : Side} {t : CompTask} {input output : Int}

/-- The sizes are tested, and the blocks cover the input. -/
structure Tested (t : CompTask) : Prop where
  size_lt : t.input.length < 2 ^ 31
  block_pos : 0 < t.blockSize
  block_lt : t.blockSize < 2 ^ 31
  slot : t.singleBlockMaxOut = worstCase t.blockSize
  blocks_lt : t.blocks < 2 ^ 31
  last : 0 < t.blocks → (t.blocks - 1) * t.blockSize < t.input.length
  accel_pos : 1 ≤ t.acceleration
  accel_le : t.acceleration ≤ 2 ^ 24
  lanes : 0 < t.blocks → 0 < t.activeLanes ∧ t.activeLanes ≤ t.blocks

/-- The two large buffers do not overlap. -/
def Apart (s : Side) (t : CompTask) : Prop :=
  ∀ input output, s.getBuffer 0 t.input.length = some input →
    s.getBuffer 1 (t.blocks * t.singleBlockMaxOut) = some output →
    input + t.input.length ≤ output ∨ output + t.blocks * t.singleBlockMaxOut ≤ input

/-- The arguments of the kernel.  Only the slot size may change its value. -/
theorem Tested.batch_eq (tested : t.Tested) (hpos : 0 < t.blocks) :
    t.batch input output = ⟨.hybrid t.tableType, input, output, t.blocks, t.input.length,
      t.blockSize, toInt (worstCase t.blockSize), t.acceleration, 0, t.activeLanes, 1⟩ := by
  have hblocks := tested.blocks_lt
  have hlanes := (tested.lanes hpos).2
  unfold batch
  rw [toInt_of_lt tested.blocks_lt, toInt_of_lt tested.size_lt, tested.slot,
    toInt_of_lt tested.block_lt, Nat.mod_eq_of_lt (by omega)]

theorem Tested.fitting (tested : t.Tested) (hslot : worstCase t.blockSize < 2 ^ 31)
    (hpos : 0 < t.blocks)
    (apart : input + t.input.length ≤ output ∨
      output + t.blocks * t.singleBlockMaxOut ≤ input) : (t.batch input output).Fitting := by
  have hroom := le_worstCase tested.block_lt
  have hblockPos := tested.block_pos
  have hblocks := tested.blocks_lt
  have hsize := tested.size_lt
  obtain ⟨hlanesPos, hlanes⟩ := tested.lanes hpos
  have hlast : ((t.blocks : Int) - 1) * t.blockSize < t.input.length := by
    have hcast : ((t.blocks : Int) - 1) * t.blockSize =
        (((t.blocks - 1) * t.blockSize : Nat) : Int) := by
      push_cast [Nat.cast_sub (show 1 ≤ t.blocks by omega)]
      rfl
    have := tested.last hpos
    omega
  rw [tested.slot] at apart
  rw [tested.batch_eq hpos, toInt_of_lt hslot]
  constructor <;> dsimp only
  case last => exact hlast
  case accel_pos => exact tested.accel_pos
  case accel_le => exact tested.accel_le
  case apart => exact apart
  all_goals omega

theorem Tested.starved (tested : t.Tested) (hslot : 2 ^ 31 ≤ worstCase t.blockSize)
    (hpos : 0 < t.blocks) : (t.batch input output).Starved := by
  have hslotLt := worstCase_lt tested.block_lt
  have hblocks := tested.blocks_lt
  have hneg : toInt (worstCase t.blockSize) < 0 := by
    unfold toInt
    rw [Int.bmod_def]
    omega
  obtain ⟨hlanesPos, hlanes⟩ := tested.lanes hpos
  rw [tested.batch_eq hpos]
  constructor <;> dsimp only
  case slot_neg => exact hneg
  case accel_pos => exact tested.accel_pos
  case accel_le => exact tested.accel_le
  all_goals omega

/-- The piece of the input that block `i` is for. -/
theorem Tested.text_eq (tested : t.Tested) {i : Nat} (hi : i < t.blocks) :
    (t.batch input output).text (t.bench s input).mem i =
      (t.input.drop (i * t.blockSize)).take t.blockSize := by
  have hlast := tested.last (by omega)
  have hrow : i * t.blockSize ≤ (t.blocks - 1) * t.blockSize := Nat.mul_le_mul_right _ (by omega)
  have hcast : (i : Int) * t.blockSize = ((i * t.blockSize : Nat) : Int) := by push_cast; rfl
  have hall : (t.bench s input).mem.Holds input t.input := Mem.holds_store _ _ _
  have hpiece := (hall.drop (show i * t.blockSize ≤ t.input.length by omega)).take t.blockSize
  have hcount : (min (t.blockSize : Int) ((t.input.length : Int) - (i * t.blockSize : Nat))).toNat =
      ((t.input.drop (i * t.blockSize)).take t.blockSize).length := by
    rw [List.length_take, List.length_drop]
    omega
  rw [tested.batch_eq (by omega)]
  unfold Batch.text
  rw [hcast, hcount]
  exact hpiece

variable {allocates : Nat → Bool} {e : Encoded}

/-- What a device contributes: a block for every piece of its input. -/
theorem Tested.run_some (tested : t.Tested) (hslot : worstCase t.blockSize < 2 ^ 31)
    (apart : t.Apart s) (hrun : t.run s allocates = some e) :
    ∃ block : Nat → Block,
      (∀ i < t.blocks, (block i).Conforming [] ∧ (block i).decode [] =
      (t.input.drop (i * t.blockSize)).take t.blockSize ∧ (block i).encode.length < 2 ^ 31) ∧
      e.sizes = (List.range t.blocks).map (fun i => (block i).encode.length) ∧ e.payload =
      (List.range t.blocks).flatMap fun i => (block i).encode := by
  unfold CompTask.run at hrun
  split at hrun
  · rename_i hnone
    obtain rfl := Option.some.inj hrun
    rw [hnone]
    exact ⟨fun _ => ⟨[], [], 0⟩, fun i hi => absurd hi (by omega), rfl, rfl⟩
  · have hpos : 0 < t.blocks := by omega
    split at hrun
    · rename_i input output _ _ hinput houtput _ _
      split at hrun
      · rename_i hdone
        obtain rfl := Option.some.inj hrun
        have fitting := tested.fitting hslot hpos (apart input output hinput houtput)
        have hmax : (t.batch input output).singleBlockMaxOut = worstCase t.blockSize := by
          rw [tested.batch_eq hpos, toInt_of_lt hslot]
        have hslotAt (i : Nat) : (t.batch input output).slot i =
            output + i * t.singleBlockMaxOut := by
          rw [Batch.slot, hmax, tested.batch_eq hpos, tested.slot]
        have htotal : (t.batch input output).totalBlocks.toNat = t.blocks := by
          rw [tested.batch_eq hpos, Int.toNat_natCast]
        have hdelivered : ∀ i : Nat, ∃ block : Block, i < t.blocks →
            block.Conforming [] ∧
            block.decode [] = (t.input.drop (i * t.blockSize)).take t.blockSize ∧
            (t.lanes s input output).shared.blockSizes i = block.encode.length ∧
            block.encode.length < 2 ^ 31 ∧
            (t.lanes s input output).shared.mem.Holds (output + i * t.singleBlockMaxOut)
              block.encode := by
          intro i
          by_cases hi : i < t.blocks
          · obtain ⟨block, conforming, hdecode, hsize, hle, hholds⟩ :=
              Batch.compressBlock_delivers fitting hdone.2 (show i < _ by rw [htotal]; exact hi)
            rw [tested.text_eq hi] at hdecode
            rw [hslotAt] at hholds
            exact ⟨block, fun _ => ⟨conforming, hdecode, hsize, by omega, hholds⟩⟩
          · exact ⟨⟨[], [], 0⟩, fun hlt => absurd hlt hi⟩
        choose block hblocks using hdelivered
        refine ⟨block, fun i hi => ⟨(hblocks i hi).1, (hblocks i hi).2.1, (hblocks i hi).2.2.2.1⟩,
          ?_, ?_⟩
        · exact List.map_congr_left fun i hi => (hblocks i (List.mem_range.mp hi)).2.2.1
        · refine List.flatMap_congr fun i hi => ?_
          obtain ⟨-, -, hsize, -, hholds⟩ := hblocks i (List.mem_range.mp hi)
          rw [hsize]
          exact hholds
      · exact absurd hrun (by simp)
    · exact absurd hrun (by simp)

/-- With slots that are too large, a device contributes nothing. -/
theorem Tested.run_starved (tested : t.Tested) (hslot : 2 ^ 31 ≤ worstCase t.blockSize)
    (hrun : t.run s allocates = some e) : e.sizes = List.replicate t.blocks 0 ∧ e.payload = [] := by
  unfold CompTask.run at hrun
  split at hrun
  · rename_i hnone
    obtain rfl := Option.some.inj hrun
    rw [hnone]
    exact ⟨rfl, rfl⟩
  · have hpos : 0 < t.blocks := by omega
    split at hrun
    · rename_i input output _ _ _ _ _ _
      split at hrun
      · rename_i hdone
        obtain rfl := Option.some.inj hrun
        have htotal : (t.batch input output).totalBlocks.toNat = t.blocks := by
          rw [tested.batch_eq hpos, Int.toNat_natCast]
        have hzero (i : Nat) (hi : i < t.blocks) :
            (t.lanes s input output).shared.blockSizes i = 0 :=
          Batch.compressBlock_starves (tested.starved hslot hpos) hdone.2
            (show i < _ by rw [htotal]; exact hi)
        refine ⟨?_, ?_⟩
        · rw [List.eq_replicate_iff, CompTask.sizes, List.length_map, List.length_range]
          refine ⟨rfl, fun size hsize => ?_⟩
          obtain ⟨i, hi, rfl⟩ := List.mem_map.mp hsize
          exact hzero i (List.mem_range.mp hi)
        · rw [CompTask.payload, List.flatMap_eq_nil_iff]
          intro i hi
          rw [hzero i (List.mem_range.mp hi), Mem.bytes_zero]
      · exact absurd hrun (by simp)
    · exact absurd hrun (by simp)

end CompTask

/-! ## The container -/

/-- The first `k` values come from `front`, the others from `back`. -/
def splice {α : Type} (k : Nat) (front back : Nat → α) (i : Nat) : α :=
  if i < k then front i else back (i - k)

variable {n k : Nat}

theorem map_splice {α β : Type} (hle : k ≤ n) (g : α → β) (front back : Nat → α) :
    ((List.range n).map fun i => g (splice k front back i)) =
      ((List.range k).map fun i => g (front i)) ++ (List.range (n - k)).map fun i => g (back
      i) := by
  have hrange : List.range n = List.range k ++ (List.range (n - k)).map (k + ·) := by
    rw [← List.range_add, Nat.add_sub_cancel' hle]
  rw [hrange, List.map_append, List.map_map]
  congr 1
  · refine List.map_congr_left fun i hi => ?_
    rw [splice, if_pos (List.mem_range.mp hi)]
  · refine List.map_congr_left fun i _ => ?_
    dsimp only [Function.comp_apply]
    rw [splice, if_neg (by omega), Nat.add_sub_cancel_left]

/-- A piece of the first pieces. -/
theorem drop_take_piece (bytes : List UInt8) (size : Nat) {i : Nat} (hi : i < k) :
    ((bytes.take (k * size)).drop (i * size)).take size = (bytes.drop (i * size)).take size := by
  have hrow : (i + 1) * size ≤ k * size := Nat.mul_le_mul_right _ hi
  rw [Nat.succ_mul] at hrow
  rw [List.drop_take, List.take_take, Nat.min_eq_left (by omega)]

/-- The buffers of each device do not overlap. -/
def CompApart (sys : System) (f : File) (blockSize gpuBlocks : Nat) (acceleration : Int)
    (localSize threads : Nat) : Prop :=
  (gpuCompTask f blockSize gpuBlocks acceleration localSize).Apart sys.gpu ∧
    (cpuCompTask sys f blockSize gpuBlocks acceleration threads).Apart sys.cpu

theorem Side.cpuSlots_bounds (s : Side) (threads : Nat) {count : Nat} (hpos : 0 < count) :
    0 < s.cpuSlots threads count ∧ s.cpuSlots threads count ≤ count := by
  unfold Side.cpuSlots
  dsimp only
  split_ifs <;> omega

variable {threads share : Nat} {bytes : List UInt8}

section Container

variable {sys : System} {f : File} {blockSize gpuBlocks : Nat} {acceleration : Int}

theorem blockCount_eq (hsize : f.size < 2 ^ 31) (hblock : blockSize < 2 ^ 31) :
    blockCount f.size blockSize = pieces f.size blockSize := by
  unfold blockCount pieces
  rw [Nat.mod_eq_of_lt (by omega)]

/-- What the tests say about the sizes. -/
structure Sized (f : File) (blockSize : Nat) (acceleration : Int) : Prop where
  size_pos : 0 < f.size
  size_lt : f.size < 2 ^ 31
  block_pos : 0 < blockSize
  block_lt : blockSize < 2 ^ 31
  accel_pos : 1 ≤ acceleration
  accel_le : acceleration ≤ 2 ^ 24

section

variable (sized : Sized f blockSize acceleration)

include sized

theorem Sized.count :
    0 < blockCount f.size blockSize ∧ blockCount f.size blockSize ≤ f.size ∧
      (blockCount f.size blockSize - 1) * blockSize < f.size ∧ f.size ≤
      blockCount f.size blockSize * blockSize := by
  rw [blockCount_eq sized.size_lt sized.block_lt]
  exact pieces_bounds sized.block_pos sized.size_pos

theorem Sized.gpu (hle : gpuBlocks ≤ blockCount f.size blockSize) (localSize : Nat) :
    (gpuCompTask f blockSize gpuBlocks acceleration localSize).Tested := by
  obtain ⟨-, hcount, hlast, -⟩ := sized.count
  have hsize := sized.size_lt
  have hbytes : f.size = f.bytes.length := rfl
  have hblock := sized.block_pos
  unfold gpuCompTask
  refine ⟨?_, sized.block_pos, sized.block_lt, rfl, ?_, fun hpos => ?_, sized.accel_pos,
    sized.accel_le, fun hpos => ⟨hpos, Nat.le_refl _⟩⟩
  · rw [List.length_take]
    omega
  · dsimp only
    omega
  · have hrow : (gpuBlocks - 1) * blockSize ≤ (blockCount f.size blockSize - 1) * blockSize :=
      Nat.mul_le_mul_right _ (by omega)
    have hprev : (gpuBlocks - 1) * blockSize + blockSize = gpuBlocks * blockSize := by
      dsimp only at hpos
      rw [← Nat.succ_mul]
      congr 1
      omega
    dsimp only
    rw [List.length_take]
    omega

theorem Sized.cpu (sys : System) (hle : gpuBlocks ≤ blockCount f.size blockSize) (threads : Nat) :
    (cpuCompTask sys f blockSize gpuBlocks acceleration threads).Tested := by
  obtain ⟨-, hcount, hlast, -⟩ := sized.count
  have hsize := sized.size_lt
  have hbytes : f.size = f.bytes.length := rfl
  unfold cpuCompTask
  refine ⟨?_, sized.block_pos, sized.block_lt, rfl, ?_, fun hpos => ?_, sized.accel_pos,
    sized.accel_le, fun hpos => sys.cpu.cpuSlots_bounds threads hpos⟩
  · rw [List.length_drop]
    omega
  · dsimp only
    omega
  · dsimp only at hpos ⊢
    have hrow : (blockCount f.size blockSize - gpuBlocks - 1) * blockSize + gpuBlocks * blockSize =
        (blockCount f.size blockSize - 1) * blockSize := by
      rw [← Nat.add_mul]
      congr 1
      omega
    rw [List.length_drop]
    omega

/-- The file that is written is a container with a block for every piece of the input. -/
theorem Sized.container (hslot : worstCase blockSize < 2 ^ 31) {localSize : Int}
    (apart : CompApart sys f blockSize (min share (blockCount f.size blockSize)) acceleration
      localSize.toNat threads)
    (hresult : doSplitCompressMode sys f blockSize share acceleration localSize threads =
      some bytes) :
    ∃ block : Nat → Block,
      (∀ i < blockCount f.size blockSize, (block i).Conforming [] ∧ (block i).decode [] =
      (f.bytes.drop (i * blockSize)).take blockSize ∧ (block i).encode.length < 2 ^ 31) ∧ bytes =
      Gpu.container blockSize ((List.range (blockCount f.size blockSize)).map fun i =>
      (block i).encode) := by
  have hle : min share (blockCount f.size blockSize) ≤ blockCount f.size blockSize :=
    Nat.min_le_right _ _
  have gpuTested := sized.gpu hle localSize.toNat
  have cpuTested := sized.cpu sys hle threads
  unfold doSplitCompressMode at hresult
  dsimp only at hresult
  split at hresult
  · exact absurd hresult (by simp)
  · split at hresult
    · rename_i g c hgpu hcpu
      split at hresult
      · obtain rfl := Option.some.inj hresult
        obtain ⟨front, hfront, hfrontSizes, hfrontPayload⟩ := gpuTested.run_some hslot apart.1 hgpu
        obtain ⟨back, hback, hbackSizes, hbackPayload⟩ := cpuTested.run_some hslot apart.2 hcpu
        refine ⟨splice (min share (blockCount f.size blockSize)) front back, ?_, ?_⟩
        · intro i hi
          unfold splice
          split
          · rename_i hlow
            obtain ⟨conforming, hdecode, hlength⟩ := hfront i hlow
            refine ⟨conforming, hdecode.trans ?_, hlength⟩
            exact drop_take_piece f.bytes blockSize hlow
          · obtain ⟨conforming, hdecode, hlength⟩ := hback
              (i - min share (blockCount f.size blockSize)) (by unfold cpuCompTask; dsimp only; omega)
            refine ⟨conforming, hdecode.trans ?_, hlength⟩
            unfold cpuCompTask
            rw [List.drop_drop, ← Nat.add_mul, Nat.add_sub_cancel' (by omega)]
        · have hblocks := map_splice hle Block.encode front back
          rw [hblocks, Gpu.container, List.length_append, List.length_map, List.length_map,
            List.length_range, List.length_range, Nat.add_sub_cancel' hle, List.flatMap_append,
            List.flatten_append, hfrontSizes, hbackSizes, hfrontPayload, hbackPayload,
            List.flatMap_append, List.flatMap_map, List.flatMap_map, List.flatMap_map,
            List.flatMap_map]
          rfl
      · exact absurd hresult (by simp)
    · exact absurd hresult (by simp)

/-- With slots that are too large all blocks of the container are empty. -/
theorem Sized.container_starved (hslot : 2 ^ 31 ≤ worstCase blockSize) {localSize : Int}
    (hresult : doSplitCompressMode sys f blockSize share acceleration localSize threads =
      some bytes) :
    bytes = Gpu.container blockSize (List.replicate (blockCount f.size blockSize) []) := by
  have hle : min share (blockCount f.size blockSize) ≤ blockCount f.size blockSize :=
    Nat.min_le_right _ _
  have gpuTested := sized.gpu hle localSize.toNat
  have cpuTested := sized.cpu sys hle threads
  unfold doSplitCompressMode at hresult
  dsimp only at hresult
  split at hresult
  · exact absurd hresult (by simp)
  · split at hresult
    · rename_i g c hgpu hcpu
      split at hresult
      · obtain rfl := Option.some.inj hresult
        obtain ⟨hgpuSizes, hgpuPayload⟩ := gpuTested.run_starved hslot hgpu
        obtain ⟨hcpuSizes, hcpuPayload⟩ := cpuTested.run_starved hslot hcpu
        have hsizes : g.sizes ++ c.sizes = List.replicate (blockCount f.size blockSize) 0 := by
          rw [hgpuSizes, hcpuSizes, List.replicate_append_replicate]
          unfold gpuCompTask cpuCompTask
          rw [Nat.add_sub_cancel' hle]
        rw [hsizes, hgpuPayload, hcpuPayload, Gpu.container, List.length_replicate,
          List.flatten_replicate_nil, List.flatMap_replicate, List.flatMap_replicate]
        rfl
      · exact absurd hresult (by simp)
    · exact absurd hresult (by simp)

end

end Container

/-! ## Decompression goes through -/

/-- Everything is granted, and every lane gets more than `turns` turns. -/
structure Side.Serves (s : Side) (turns : Nat) : Prop where
  starts : s.starts = true
  buffer : ∀ index size, (s.buffer index size).isSome = true
  transfers : ∀ size, s.transfers size = true
  launches : ∀ globalSize localSize, s.launches globalSize localSize = true
  schedule : ∀ n (i : Fin n), turns < (s.schedule n).count i

structure System.Serves (sys : System) (turns : Nat) : Prop where
  gpu : sys.gpu.Serves turns
  cpu : sys.cpu.Serves turns
  allocates : ∀ size, sys.allocates size = true
  writes : sys.writes = true

variable {turns : Nat} {s : Side}

theorem Side.Serves.getBuffer (serves : s.Serves turns) (index size : Nat) :
    ∃ base, s.getBuffer index size = some base :=
  Option.isSome_iff_exists.mp (serves.buffer index _)

variable {content : Nat → List UInt8}

theorem DecTask.Relied.run_isSome {t : DecTask} {allocates : Nat → Bool} (relied : t.Relied content)
    (apart : t.Apart s) (serves : s.Serves turns) (hallocates : ∀ size, allocates size = true)
    (hturns : t.sizes.length * (2 ^ 31 + 1) ≤ turns) : ∃ d, t.run s allocates = some d := by
  unfold DecTask.run
  split
  · exact ⟨_, rfl⟩
  · obtain ⟨comp, hcomp⟩ := serves.getBuffer 0 t.comp.length
    obtain ⟨out, hout⟩ := serves.getBuffer 1 (t.sizes.length * t.blockSize)
    obtain ⟨off, hoff⟩ := serves.getBuffer 2 (t.sizes.length * 4)
    obtain ⟨size, hsize⟩ := serves.getBuffer 3 (t.sizes.length * 4)
    obtain ⟨sizesOut, hsizesOut⟩ := serves.getBuffer 4 (t.sizes.length * 4)
    have hgranted : t.Granted s allocates :=
      ⟨hallocates _, serves.starts, serves.transfers _, serves.transfers _, serves.launches _ _,
        hallocates _, serves.transfers _⟩
    have hfinished : t.Finished s comp out :=
      Blocks.decompressBlocks_ends (relied.indexed (by omega))
        (relied.separate (apart comp out hcomp hout)) relied.blocks_decode
        (fun i => Nat.lt_of_le_of_lt hturns (serves.schedule _ i))
    rw [hcomp, hout, hoff, hsize, hsizesOut]
    dsimp only
    rw [if_pos ⟨hgranted, hfinished⟩]
    exact ⟨_, rfl⟩

variable {localSize : Nat}

/-- A file that is accepted and relied on is decoded. -/
theorem Relied.returns {sys : System} {f : File}
    (relied : Relied sys f (min share f.numBlocks) localSize threads content)
    (apart : Apart sys f (min share f.numBlocks) localSize threads) (accepted : Accepted f)
    (serves : sys.Serves turns) (hturns : f.numBlocks * (2 ^ 31 + 1) ≤ turns) :
    ∃ r, doSplitDecompressMode sys f share localSize threads = some r ∧ r.written =
      (List.range f.numBlocks).flatMap content := by
  have hle : min share f.numBlocks ≤ f.numBlocks := Nat.min_le_right _ _
  have hgpuLength := length_sizes_gpuDecTask localSize hle
  have hcpuLength := length_sizes_cpuDecTask sys f (min share f.numBlocks) threads
  obtain ⟨g, hgpu⟩ := (relied.gpu accepted hle).run_isSome apart.1 serves.gpu serves.allocates (by
    rw [hgpuLength]
    exact Nat.le_trans (Nat.mul_le_mul_right _ hle) hturns)
  obtain ⟨c, hcpu⟩ := (relied.cpu accepted hle).run_isSome apart.2 serves.cpu serves.allocates (by
    rw [hcpuLength]
    exact Nat.le_trans (Nat.mul_le_mul_right _ (Nat.sub_le _ _)) hturns)
  obtain ⟨-, front, back, hfront, hback, hwritten⟩ := relied.parts accepted hle apart hgpu hcpu
  unfold doSplitDecompressMode
  rw [if_pos ⟨accepted, serves.allocates _, serves.allocates _⟩]
  dsimp only
  rw [hgpu, hcpu]
  dsimp only
  rw [serves.writes, hfront, hback]
  exact ⟨_, rfl, hwritten⟩

/-! ## Both together -/

variable {blockSize : Nat} {g : File}

theorem accepted_container {blocks : List (List UInt8)}
    (hbytes : g.bytes = Gpu.container blockSize blocks) (hcount : 0 < blocks.length)
    (hcount' : blocks.length < 2 ^ 32) (hblock : 0 < blockSize) (hblock' : blockSize < 2 ^ 32)
    (hsizes : ∀ block ∈ blocks, block.length < 2 ^ 32) : Accepted g := by
  have hnum := numBlocks_container hbytes hcount'
  have hsum := compOffset_container hbytes hsizes (Nat.le_refl _)
  have hheader : g.headerSize = 12 + 4 * g.numBlocks := rfl
  have hsize : g.size = 12 + 4 * blocks.length + blocks.flatten.length := by
    rw [File.size, hbytes, Gpu.container]
    simp only [List.length_append, length_leBytes, length_sizeTable]
  rw [List.take_length] at hsum
  refine ⟨by omega, word_container_zero hbytes, by omega, by omega, by omega, ?_, by omega, ?_⟩
  · rw [blockSize_container hbytes hblock']
    omega
  · rw [sum_tableOf, hnum, hsum]
    omega

theorem length_flatMap_le {a b : Nat → List UInt8} (h : ∀ i < n, (a i).length ≤ 2 * (b i).length) :
    ((List.range n).flatMap a).length ≤ 2 * ((List.range n).flatMap b).length := by
  induction n with
  | zero => simp
  | succ n ih =>
    have hinit := ih fun i hi => h i (by omega)
    have hlast := h n (by omega)
    rw [List.range_succ, List.flatMap_append, List.flatMap_append, List.length_append,
      List.length_append, List.flatMap_singleton, List.flatMap_singleton]
    omega

variable {gpuBlocks : Nat}

section RoundTrip

variable {f g : File} {blockSize : Nat} {acceleration : Int} {block : Nat → Block}

/-- The pieces make up the file. -/
theorem Sized.flatMap_pieces (sized : Sized f blockSize acceleration) :
    ((List.range (blockCount f.size blockSize)).flatMap fun i =>
      (f.bytes.drop (i * blockSize)).take blockSize) = f.bytes := by
  obtain ⟨-, -, -, hall⟩ := sized.count
  rw [Gpu.flatMap_pieces, List.take_of_length_le hall]

/-- Such a container is accepted, and it is fit for any division of its blocks. -/
theorem Sized.relied (sized : Sized f blockSize acceleration)
    (hblocks : ∀ i < blockCount f.size blockSize, (block i).Conforming [] ∧ (block i).decode [] =
      (f.bytes.drop (i * blockSize)).take blockSize ∧ (block i).encode.length < 2 ^ 31)
    (hbytes : g.bytes =
      Gpu.container blockSize ((List.range (blockCount f.size blockSize)).map fun i =>
      (block i).encode)) (sys : System)
    (hgpuLanes : 0 < gpuBlocks →
      DecTask.Strided gpuBlocks (gpuDecTask g gpuBlocks localSize).globalSize)
    (hcpuLanes : gpuBlocks < g.numBlocks →
      DecTask.Strided (g.numBlocks - gpuBlocks) (cpuDecTask sys g gpuBlocks threads).globalSize)
    (hle : gpuBlocks ≤ g.numBlocks) :
    Accepted g ∧ g.numBlocks = blockCount f.size blockSize ∧
      Relied sys g gpuBlocks localSize threads fun i =>
      (f.bytes.drop (i * blockSize)).take blockSize := by
  obtain ⟨hpos, hcount, hlast, -⟩ := sized.count
  have hsize := sized.size_lt
  have hblock := sized.block_lt
  generalize hblocksEq : ((List.range (blockCount f.size blockSize)).map fun i =>
    (block i).encode) = blocks at hbytes
  have hlength : blocks.length = blockCount f.size blockSize := by
    rw [← hblocksEq, List.length_map, List.length_range]
  have hget : ∀ i < blockCount f.size blockSize, blocks.getD i [] = (block i).encode := by
    intro i hi
    rw [← hblocksEq, List.getD_eq_getElem?_getD, List.getElem?_map, List.getElem?_range hi]
    rfl
  have hsizes : ∀ bytes ∈ blocks, bytes.length < 2 ^ 32 := by
    intro bytes hmem
    rw [← hblocksEq] at hmem
    obtain ⟨i, hi, rfl⟩ := List.mem_map.mp hmem
    have := (hblocks i (List.mem_range.mp hi)).2.2
    omega
  have hnum : g.numBlocks = blockCount f.size blockSize := by
    rw [numBlocks_container hbytes (by omega), hlength]
  have hblockSize : g.blockSize = blockSize := blockSize_container hbytes (by omega)
  -- the blocks are at most twice as long as the file
  have htotal : ∀ i ≤ g.numBlocks, g.compOffset i < 2 ^ 32 := by
    intro i hi
    have hmono : g.compOffset i ≤ g.compOffset g.numBlocks := g.compOffset_mono hi
    have hsum := compOffset_container hbytes hsizes (i := g.numBlocks) (by omega)
    have hdouble : ((List.range (blockCount f.size blockSize)).flatMap fun i =>
        (block i).encode).length ≤ 2 * f.bytes.length := by
      have hpieces := sized.flatMap_pieces
      conv_rhs => rw [← hpieces]
      refine length_flatMap_le fun i hi => ?_
      obtain ⟨conforming, hdecode, -⟩ := hblocks i hi
      rw [← hdecode]
      refine conforming.length_encode_le ?_
      have hrow : i * blockSize ≤ (blockCount f.size blockSize - 1) * blockSize :=
        Nat.mul_le_mul_right _ (by omega)
      have hbytes : f.size = f.bytes.length := rfl
      have hblockPos := sized.block_pos
      rw [hdecode, ← List.length_pos_iff, List.length_take, List.length_drop]
      omega
    have hbytes : f.size = f.bytes.length := rfl
    rw [List.take_of_length_le (by omega), ← hblocksEq, ← List.flatMap_def] at hsum
    omega
  refine ⟨accepted_container hbytes (by omega) (by omega) sized.block_pos (by omega) hsizes, hnum,
    fun i hi => htotal i (by omega), fun i hi => ?_, hgpuLanes, hcpuLanes, fun i hi => ?_⟩
  · have := htotal i (by omega)
    omega
  · obtain ⟨conforming, hdecode, hlt⟩ := hblocks i (by omega)
    rw [slice_container hbytes (by omega) hsizes (by omega), hget i (by omega), hblockSize,
      ← hdecode]
    refine stands_of_conforming conforming ?_ hblock hlt
    rw [hdecode, List.length_take]
    exact Nat.min_le_left _ _

end RoundTrip

/-- A container of empty blocks stands for no bytes. -/
theorem relied_empty (hbytes : g.bytes = Gpu.container blockSize (List.replicate n []))
    (hn : n < 2 ^ 32) (sys : System)
    (hgpuLanes : 0 < gpuBlocks →
      DecTask.Strided gpuBlocks (gpuDecTask g gpuBlocks localSize).globalSize)
    (hcpuLanes : gpuBlocks < g.numBlocks →
      DecTask.Strided (g.numBlocks - gpuBlocks) (cpuDecTask sys g gpuBlocks threads).globalSize)
    (hle : gpuBlocks ≤ g.numBlocks) : Relied sys g gpuBlocks localSize threads fun _ => [] := by
  have hlength : (List.replicate n ([] : List UInt8)).length = n := List.length_replicate
  have hsizes : ∀ bytes ∈ List.replicate n ([] : List UInt8), bytes.length < 2 ^ 32 := by
    intro bytes hmem
    rw [List.eq_of_mem_replicate hmem, List.length_nil]
    omega
  have hnum : g.numBlocks = n := by
    rw [numBlocks_container hbytes (by omega), hlength]
  have hoffset : ∀ i ≤ g.numBlocks, g.compOffset i = 0 := by
    intro i hi
    rw [compOffset_container hbytes hsizes (by omega), List.take_replicate,
      List.flatten_replicate_nil, List.length_nil]
  refine ⟨fun i hi => ?_, fun i hi => ?_, hgpuLanes, hcpuLanes, fun i hi => Or.inl ⟨?_, rfl⟩⟩
  · rw [hoffset i (by omega)]
    omega
  · rw [hoffset i (by omega)]
    omega
  · rw [slice_container hbytes (by omega) hsizes (by omega), List.getD_eq_getElem?_getD,
      List.getElem?_replicate_of_lt (by omega)]
    rfl

/-- `do_split_decompress_mode` returns the file that `do_split_compress_mode` was given, with any
division of the blocks on both sides, if and only if the size of a slot is an `int`. -/
theorem doSplitMode_roundTrip_iff (sys sys' : System) (f g : File)
    (blockSize share threads share' localSize' threads' turns : Nat) (acceleration localSize : Int)
    (haccel : 1 ≤ acceleration) (haccel' : acceleration ≤ 2 ^ 24)
    (hapart : CompApart sys f blockSize (min share (blockCount f.size blockSize)) acceleration
      localSize.toNat threads)
    (hcompress : doSplitCompressMode sys f blockSize share acceleration localSize threads =
      some g.bytes)
    (hserves : sys'.Serves turns) (hturns : g.numBlocks * (2 ^ 31 + 1) ≤ turns)
    (hgpuLanes : 0 < min share' g.numBlocks → DecTask.Strided (min share' g.numBlocks)
      (gpuDecTask g (min share' g.numBlocks) localSize').globalSize)
    (hcpuLanes : min share' g.numBlocks < g.numBlocks →
      DecTask.Strided (g.numBlocks - min share' g.numBlocks)
        (cpuDecTask sys' g (min share' g.numBlocks) threads').globalSize)
    (hapart' : Apart sys' g (min share' g.numBlocks) localSize' threads') :
    (∃ r, doSplitDecompressMode sys' g share' localSize' threads' = some r ∧
      r.written = f.bytes) ↔ worstCase blockSize < 2 ^ 31 := by
  have sized : Sized f blockSize acceleration := by
    unfold doSplitCompressMode at hcompress
    dsimp only at hcompress
    split at hcompress
    · exact absurd hcompress (by simp)
    · rename_i htests
      have hblock : blockSize ≠ 0 := by
        rintro rfl
        exact htests (Or.inr (Or.inl (Nat.div_zero _)))
      exact ⟨by omega, by omega, by omega, by omega, haccel, haccel'⟩
  obtain ⟨-, hcount, -, -⟩ := sized.count
  have hsize := sized.size_lt
  have hle : min share' g.numBlocks ≤ g.numBlocks := Nat.min_le_right _ _
  constructor
  · rintro ⟨r, hr, hwritten⟩
    by_contra hslot
    have hbytes := sized.container_starved (by omega) hcompress
    have relied := relied_empty hbytes (by omega) sys' hgpuLanes hcpuLanes hle
    obtain ⟨-, -, hnothing⟩ := relied.result hapart' hr
    have hpos := sized.size_pos
    have hnil : f.bytes = [] := by
      rw [← hwritten, hnothing, List.flatMap_eq_nil_iff]
      exact fun _ _ => rfl
    rw [File.size, hnil, List.length_nil] at hpos
    omega
  · intro hslot
    obtain ⟨block, hblocks, hbytes⟩ := sized.container hslot hapart hcompress
    obtain ⟨accepted, hnum, relied⟩ := sized.relied hblocks hbytes sys' hgpuLanes hcpuLanes hle
    obtain ⟨r, hr, hwritten⟩ := relied.returns hapart' accepted hserves hturns
    refine ⟨r, hr, ?_⟩
    rw [hwritten, hnum]
    exact sized.flatMap_pieces

/-- A device that gives every lane more than `turns` turns. -/
def tirelessSide (turns : Nat) : Side :=
  { roomySide with schedule := fun n => (List.replicate (turns + 1) (List.finRange n)).flatten }

def tirelessSystem (turns : Nat) : System :=
  { roomySystem with gpu := tirelessSide turns, cpu := tirelessSide turns }

theorem tirelessSide_serves (turns : Nat) : (tirelessSide turns).Serves turns := by
  refine ⟨rfl, fun _ _ => rfl, fun _ => rfl, fun _ _ => rfl, fun n i => ?_⟩
  have hone : (List.finRange n).count i = 1 :=
    List.count_eq_one_of_mem (List.nodup_finRange n) (List.mem_finRange i)
  show turns < ((List.replicate (turns + 1) (List.finRange n)).flatten).count i
  rw [List.count_flatten, List.map_replicate, hone, List.sum_replicate, smul_eq_mul]
  omega

theorem tirelessSystem_serves (turns : Nat) : (tirelessSystem turns).Serves turns :=
  ⟨tirelessSide_serves turns, tirelessSide_serves turns, fun _ => rfl, rfl⟩

/-- Two blocks, compressed on both devices and decompressed on the CPU. -/
theorem doSplitMode_roundTrip_pair :
    ∃ g : File, doSplitCompressMode roomySystem pairInput 1 1 1 1 1 = some g.bytes ∧
      ∃ r, doSplitDecompressMode (tirelessSystem (2 ^ 33)) g 0 1 1 = some r ∧
        r.written = [97, 98] := by
  have hcompress : doSplitCompressMode roomySystem pairInput 1 1 1 1 1 = some (pairFile 1).bytes := by
    decide +kernel
  have hcompApart : CompApart roomySystem pairInput 1 1 1 1 1 := by
    refine ⟨?_, ?_⟩ <;>
    · intro input output hinput houtput
      obtain rfl := Option.some.inj hinput
      obtain rfl := Option.some.inj houtput
      decide +kernel
  have hapart : Apart (tirelessSystem (2 ^ 33)) (pairFile 1) 0 1 1 := by
    refine ⟨?_, ?_⟩ <;>
    · intro comp out hcomp hout
      obtain rfl := Option.some.inj hcomp
      obtain rfl := Option.some.inj hout
      decide
  exact ⟨pairFile 1, hcompress, (doSplitMode_roundTrip_iff roomySystem (tirelessSystem (2 ^ 33))
    pairInput (pairFile 1) 1 1 1 0 1 1 (2 ^ 33) 1 1 (by decide) (by decide) hcompApart hcompress
    (tirelessSystem_serves _) (by decide) (fun h => absurd h (by decide))
    (fun _ => ⟨by decide, by decide⟩) hapart).mpr (by decide +kernel)⟩

/-- A file of one byte, with blocks of two billion bytes: the slot size is no `int`, the block is
lost, and the file that is read back is empty. -/
theorem doSplitMode_loses_block :
    doSplitCompressMode roomySystem (shortFile [97] (by decide)) 2000000000 1 1 1 1 =
        some emptiedFile.bytes ∧
      doSplitDecompressMode roomySystem emptiedFile 1 1 1 = some ⟨[0], []⟩ :=
  ⟨by decide +kernel, by decide +kernel⟩

end Lz4.Hybrid
