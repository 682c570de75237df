import Lz4.Gpu.Decompress
import Mathlib.Algebra.Order.BigOperators.Group.List
import Mathlib.Algebra.Group.Action.Defs

/-!
# What `lz4_decompress_core` writes

The blocks are decoded into slots of `block_size` bytes.  The output file gets the first bytes of
the buffer, as many as all blocks have together, and nobody looks at the single sizes: neither is
the error mark recognised, nor are gaps between the blocks closed.

So the file is right if every block decodes and all slots are full, up to the last block that has
any bytes (`Packed`).  A block that is shorter leaves a gap, and what stands in it gets into the
file.
-/

namespace Lz4.Gpu

open FlatMemory Kernel

/-! ## Slots -/

/-- A block that is followed by bytes of another one fills its slot. -/
def Packed (blockSize n : Nat) (content : Nat → List UInt8) : Prop :=
  ∀ i j, i < j → j < n → content j ≠ [] → (content i).length = blockSize

variable {m : Mem} {blockSize : Nat}

/-- Packed slots hold the concatenation. -/
theorem Packed.holds {n : Nat} {content : Nat → List UInt8} {base : Int}
    (packed : Packed blockSize n content)
    (hslots : ∀ j < n, m.Holds (base + j * blockSize) (content j)) :
    m.Holds base ((List.range n).flatMap content) := by
  induction n generalizing content base with
  | zero => exact Mem.holds_nil m base
  | succ n ih =>
    rw [List.range_succ_eq_map, List.flatMap_cons, List.flatMap_map, Mem.holds_append]
    have hfirst := hslots 0 (by omega)
    rw [Int.natCast_zero, Int.zero_mul, Int.add_zero] at hfirst
    refine ⟨hfirst, ?_⟩
    by_cases hempty : ∀ j < n, content (j + 1) = []
    · have hnil : ((List.range n).flatMap fun j => content (j + 1)) = [] := by
        rw [List.flatMap_eq_nil_iff]
        exact fun j hj => hempty j (List.mem_range.mp hj)
      exact hnil ▸ Mem.holds_nil m _
    · -- some block has bytes, so the first slot is full
      push Not at hempty
      obtain ⟨j, hj, hbytes⟩ := hempty
      rw [packed 0 (j + 1) (by omega) (by omega) hbytes]
      refine ih (fun i j hij hj => packed (i + 1) (j + 1) (by omega) (by omega)) fun j hj => ?_
      have hslot := hslots (j + 1) (by omega)
      have haddr : base + ((j + 1 : Nat) : Int) * blockSize = base + blockSize + j * blockSize := by
        push_cast
        rw [Int.add_mul, Int.one_mul]
        omega
      rw [haddr] at hslot
      exact hslot

/-! ## Reading back -/

variable {out : Buffer} {bytes : List UInt8} {total : Nat} {p : Platform}

/-- Block `j` of the file stands for `content`, in a slot of the file's block size. -/
def File.Decodes (f : File) (j : Nat) (content : List UInt8) : Prop :=
  (f.slice j = [] ∧ content = []) ∨
    (f.slice j ≠ [] ∧ f.compSize j < 2 ^ 31 ∧ StandsFor (toInt f.blockSize) (f.slice j) content)

variable {j : Nat}

section Blocks

variable {p : Platform} {f : File} {l : Launch}

/-- The two large buffers do not overlap. -/
def Launch.Apart (l : Launch) : Prop :=
  l.input.base + l.input.capacity ≤ l.output.base ∨
    l.output.base + l.output.capacity ≤ l.input.base

theorem Launch.Contained.call (prepared : l.Prepared p f) (contained : l.Contained f) {j : Nat}
    (hj : j < f.numBlocks) :
    (l.blocks p).call j = ⟨l.input.base + f.compOffset j, l.output.base + j * f.blockSize,
      toInt (f.compSize j), toInt f.blockSize⟩ := by
  have hnum := prepared.numBlocks
  have hbytes := contained.tableBytes
  have hinside : 0 ≤ (j : Int) ∧ 4 * (j : Int) + 4 ≤ l.tableBytes := by omega
  have hoffset : l.uploaded p .compOff l.compOffsets j = f.compOffset j := by
    rw [Launch.uploaded, if_pos hinside, Int.toNat_natCast, contained.compOffsets j (by omega)]
  have hsize : l.uploaded p .compSize l.compSizes j = f.compSize j := by
    rw [Launch.uploaded, if_pos hinside, Int.toNat_natCast, contained.compSizes j (by omega)]
  unfold Kernel.Blocks.call Launch.blocks
  dsimp only
  rw [hoffset, hsize, prepared.blockSize]

/-- The payload is in the input buffer. -/
theorem Launch.Contained.holds_slice (contained : l.Contained f) (prepared : l.Prepared p f)
    (hj : j < f.numBlocks) (complete : f.Complete) :
    (l.device p f).mem.Holds (l.input.base + f.compOffset j) (f.slice j) := by
  have hheader : l.headerSize = f.headerSize := by
    rw [contained.headerSize, prepared.numBlocks]
    rfl
  have hpayload : f.read l.headerSize l.dataSize = f.payload := by
    rw [File.read, hheader, File.payload, contained.dataSize, hheader, List.take_of_length_le]
    rw [List.length_drop, File.size]
  have hlength : f.payload.length = f.size - f.headerSize := by
    rw [File.payload, List.length_drop, File.size]
  have hslice := complete.slice_le hj
  have hall : (l.device p f).mem.Holds l.input.base f.payload := by
    unfold Launch.device
    rw [hpayload]
    exact Mem.holds_store _ _ _
  -- the payload is what stands before the block, the block, and the rest
  have hsplit : f.payload = f.payload.take (f.compOffset j) ++
      (f.slice j ++ (f.payload.drop (f.compOffset j)).drop (f.compSize j)) := by
    rw [File.slice, List.take_append_drop, List.take_append_drop]
  rw [hsplit, Mem.holds_append, Mem.holds_append, List.length_take,
    Nat.min_eq_left (by omega)] at hall
  exact hall.2.1

theorem Launch.Contained.separate (prepared : l.Prepared p f) (contained : l.Contained f)
    (hsizes : ∀ j < f.numBlocks, f.compSize j < 2 ^ 31) (apart : l.Apart) :
    (l.blocks p).Separate := by
  intro j hj
  have hj' : j < f.numBlocks := prepared.numBlocks ▸ hj
  have hinside := contained.inside j (by rw [prepared.numBlocks]; exact hj')
  rw [contained.compOffsets j (by rw [prepared.numBlocks]; exact hj'),
    contained.compSizes j (by rw [prepared.numBlocks]; exact hj')] at hinside
  have hinput := prepared.input
  have houtput : (l.numBlocks : Int) * l.blockSize ≤ l.output.capacity := by
    rw [prepared.numBlocks, prepared.blockSize]
    exact_mod_cast prepared.output
  rw [contained.call prepared hj', Call.iend, toInt_of_lt (hsizes j hj')]
  dsimp only [Launch.blocks]
  rcases apart with h | h
  · exact Or.inl (by omega)
  · exact Or.inr (by omega)

theorem Launch.Contained.decodes (prepared : l.Prepared p f) (contained : l.Contained f)
    (complete : f.Complete) (hj : j < f.numBlocks) {content : List UInt8} (h : f.Decodes j content)
    :
    (l.blocks p).Decodes (l.device p f).mem j content := by
  have hlength := complete.length_slice hj
  unfold Kernel.Blocks.Decodes
  rw [contained.call prepared hj]
  rcases h with ⟨hnil, hcontent⟩ | ⟨hne, hsize, hdecodes⟩
  · rw [hnil, List.length_nil] at hlength
    exact Or.inl ⟨by rw [← hlength]; rfl, hcontent⟩
  · have hint := toInt_of_lt hsize
    have hpos : 0 < (f.slice j).length := List.length_pos_iff.mpr hne
    rw [hint]
    refine Or.inr ⟨by dsimp only; omega, ?_⟩
    have hholds := contained.holds_slice prepared hj complete
    have := hdecodes _ _ (l.output.base + j * f.blockSize) hholds
    rw [hlength] at this
    exact this

end Blocks

/-! ## The file that is written -/

/-- A complete file whose blocks decode and are packed. -/
structure Sound (f : File) (l : Launch) (content : Nat → List UInt8) : Prop where
  header_lt : f.headerSize < 2 ^ 32
  complete : f.Complete
  lanes : f.numBlocks + l.globalSize ≤ 2 ^ 31
  decodes : ∀ j < f.numBlocks, f.Decodes j (content j)
  packed : Packed f.blockSize f.numBlocks content

/-- What the program relies on without looking. -/
structure Relied (p : Platform) (f : File) (l : Launch) (content : Nat → List UInt8) : Prop where
  header_lt : f.headerSize < 2 ^ 32
  complete : f.Complete
  lanes : f.numBlocks + l.globalSize ≤ 2 ^ 31
  decodes : ∀ j < f.numBlocks, f.Decodes j (content j)
  packed : Packed f.blockSize f.numBlocks content
  opens : p.opens = true
  granted : p.readback = .staged → ∀ n, p.allocates n = true

variable {m' : Mem}

section Written

variable {p : Platform} {f : File} {l : Launch} {content : Nat → List UInt8}

theorem File.Decodes.compSize_lt (h : f.Decodes j bytes) (complete : f.Complete)
    (hj : j < f.numBlocks) : f.compSize j < 2 ^ 31 := by
  have hlength := complete.length_slice hj
  rcases h with ⟨hnil, -⟩ | ⟨-, hsize, -⟩
  · rw [hnil, List.length_nil] at hlength
    omega
  · exact hsize

theorem Relied.sound (relied : Relied p f l content) : Sound f l content :=
  ⟨relied.header_lt, relied.complete, relied.lanes, relied.decodes, relied.packed⟩

section

variable (sound : Sound f l content)

include sound

section

variable (prepared : l.Prepared p f)

include prepared

theorem Sound.indexed : (l.blocks p).Indexed := by
  refine ⟨prepared.globalSize, ?_⟩
  show l.numBlocks + l.globalSize ≤ 2 ^ 31
  rw [prepared.numBlocks]
  exact sound.lanes

theorem Sound.contained : l.Contained f := prepared.contained sound.header_lt sound.complete

theorem Sound.separate (apart : l.Apart) : (l.blocks p).Separate :=
  (sound.contained prepared).separate prepared
    (fun j hj => (sound.decodes j hj).compSize_lt sound.complete hj) apart

theorem Sound.blocks_decode :
    ∀ j < (l.blocks p).totalBlocks, (l.blocks p).Decodes (l.device p f).mem j (content j) := by
  intro j hj
  have hj' : j < f.numBlocks := prepared.numBlocks ▸ hj
  exact (sound.contained prepared).decodes prepared sound.complete hj' (sound.decodes j hj')

/-- After the kernel every block stands in its slot. -/
theorem Sound.delivers (apart : l.Apart) (hfinished : l.Finished p f) (hj : j < f.numBlocks) :
    (l.lanes p f).shared.sizesOut j = (content j).length ∧
      (l.lanes p f).shared.mem.Holds (l.output.base + j * f.blockSize) (content j) := by
  obtain ⟨hsize, hholds⟩ := Blocks.decompressBlocks_delivers (sound.indexed prepared)
    (sound.separate prepared apart) (sound.blocks_decode prepared) hfinished (j := j)
    (by show j < l.numBlocks; rw [prepared.numBlocks]; exact hj)
  rw [(sound.contained prepared).call prepared hj] at hholds
  exact ⟨hsize, hholds⟩

theorem Sound.finalSizes (apart : l.Apart) (hfinished : l.Finished p f) :
    l.finalSizes p f = (List.range f.numBlocks).map fun j => (content j).length := by
  have hbytes := (sound.contained prepared).tableBytes
  rw [Launch.finalSizes, prepared.numBlocks]
  refine List.map_congr_left fun j hj => ?_
  have hj' := List.mem_range.mp hj
  rw [if_pos (by rw [hbytes, prepared.numBlocks]; omega)]
  exact (sound.delivers prepared apart hfinished hj').1

end

/-- No block is longer than a slot. -/
theorem Sound.length_lt (hj : j < f.numBlocks) : (content j).length < 2 ^ 31 := by
  rcases sound.decodes j hj with ⟨-, hnil⟩ | ⟨-, -, hdecodes⟩
  · rw [hnil, List.length_nil]
    omega
  · have hroom := (hdecodes _ 0 0 (Mem.holds_store (fun _ => 0) 0 (f.slice j))).length_content_le
    have hlt := toInt_lt f.blockSize
    dsimp only at hroom
    omega

/-- The sizes are small enough to be added up. -/
theorem Sound.sum_lengths_lt :
    ((List.range f.numBlocks).map fun j => (content j).length).sum < 2 ^ 64 := by
  have hle := List.sum_le_card_nsmul
    ((List.range f.numBlocks).map fun j => (content j).length) (2 ^ 31) ?_
  · have hlanes := sound.lanes
    rw [List.length_map, List.length_range, smul_eq_mul] at hle
    omega
  · intro size hsize
    obtain ⟨j, hj, rfl⟩ := List.mem_map.mp hsize
    exact Nat.le_of_lt (sound.length_lt (List.mem_range.mp hj))

/-- The first bytes of the buffer are the concatenation of all blocks. -/
theorem Sound.holds (prepared : l.Prepared p f) (apart : l.Apart) (hfinished : l.Finished p f) :
    (l.lanes p f).shared.mem.bytes l.output.base ((l.finalSizes p f).sum % 2 ^ 64) =
      (List.range f.numBlocks).flatMap content := by
  have hslots : ∀ j < f.numBlocks,
      (l.lanes p f).shared.mem.Holds (l.output.base + j * f.blockSize) (content j) :=
    fun j hj => (sound.delivers prepared apart hfinished hj).2
  rw [sound.finalSizes prepared apart hfinished, Nat.mod_eq_of_lt sound.sum_lengths_lt,
    ← List.length_flatMap]
  exact sound.packed.holds hslots

end

end Written

end Lz4.Gpu
