import Lz4.Hybrid.Split
import Lz4.Gpu.Output
import Lz4.Lib.Region

/-!
# What `do_split_decompress_mode` writes

Each device decodes its part of the table, at offsets that are counted from the beginning of its
part of the payload.  If the offsets fit 32 bits, these are the slices of the file.  Then the
output is the concatenation of what the slices stand for, however the blocks are divided
(`doSplitDecompressMode_concatenates`).

The tests in the program do not imply this condition.  In particular the error mark of the decoder
is recognised only by being larger than the block size in the header.
-/

namespace Lz4.Hybrid

open FlatMemory Kernel Gpu

/-! ## Offsets -/

theorem length_splitOffsets (total : Nat) (sizes : List Nat) :
    (splitOffsets total sizes).length = sizes.length := by
  induction sizes generalizing total with
  | nil => rfl
  | cons size sizes ih => rw [splitOffsets, List.length_cons, List.length_cons, ih]

variable {i : Nat}

theorem getD_splitOffsets (total : Nat) {sizes : List Nat} (hi : i < sizes.length) :
    (splitOffsets total sizes).getD i 0 = (total + (sizes.take i).sum) % 2 ^ 32 := by
  induction sizes generalizing total i with
  | nil => exact absurd hi (by simp)
  | cons size sizes ih =>
    cases i with
    | zero => rfl
    | succ i =>
      rw [splitOffsets, List.getD_cons_succ, ih _ (by simpa using hi), List.take_succ_cons,
        List.sum_cons, Nat.add_assoc]

/-! ## One device -/

/-- A slice stands for `content`, in a slot of `blockSize` bytes; an empty one for no bytes. -/
def Stands (blockSize : Nat) (slice content : List UInt8) : Prop :=
  (slice = [] ∧ content = []) ∨
    (slice ≠ [] ∧ slice.length < 2 ^ 31 ∧ StandsFor (toInt blockSize) slice content)

variable {blockSize : Nat} {content : List UInt8}

theorem Stands.length_le {slice : List UInt8} (h : Stands blockSize slice content) :
    content.length ≤ blockSize ∧ content.length < 2 ^ 31 := by
  rcases h with ⟨-, hnil⟩ | ⟨-, -, hstands⟩
  · rw [hnil, List.length_nil]
    omega
  · have hroom := (hstands _ 0 0 (Mem.holds_store (fun _ => 0) 0 slice)).length_content_le
    have hle := toInt_le blockSize
    have hlt := toInt_lt blockSize
    dsimp only at hroom
    omega

namespace DecTask

variable {s : Side} {t : DecTask} {comp out : Int} {content : Nat → List UInt8}

/-- The bytes of block `i`, in the part of the payload that the device gets. -/
def slice (t : DecTask) (i : Nat) : List UInt8 :=
  (t.comp.drop (t.sizes.take i).sum).take (t.sizes.getD i 0)

/-- The signed index of a lane does not overflow. -/
def Strided (blocks globalSize : Nat) : Prop := 0 < globalSize ∧ blocks + globalSize ≤ 2 ^ 31

/-- What the device relies on without looking. -/
structure Relied (t : DecTask) (content : Nat → List UInt8) : Prop where
  complete : t.sizes.sum ≤ t.comp.length
  offsets_lt : ∀ i < t.sizes.length, (t.sizes.take i).sum < 2 ^ 32
  lanes : 0 < t.sizes.length → Strided t.sizes.length t.globalSize
  stands : ∀ i < t.sizes.length, Stands t.blockSize (t.slice i) (content i)

/-- The two large buffers do not overlap. -/
def Apart (s : Side) (t : DecTask) : Prop :=
  ∀ comp out, s.getBuffer 0 t.comp.length = some comp →
    s.getBuffer 1 (t.sizes.length * t.blockSize) = some out →
    comp + t.comp.length ≤ out ∨ out + t.sizes.length * t.blockSize ≤ comp

theorem slice_end_le (complete : t.sizes.sum ≤ t.comp.length) (hi : i < t.sizes.length) :
    (t.sizes.take i).sum + t.sizes.getD i 0 ≤ t.comp.length := by
  have hget : t.sizes.getD i 0 = t.sizes[i] := by
    rw [List.getD_eq_getElem?_getD, List.getElem?_eq_getElem hi, Option.getD_some]
  have hsplit : (t.sizes.take i).sum + (t.sizes[i] + (t.sizes.drop (i + 1)).sum) = t.sizes.sum := by
    conv_rhs => rw [← List.take_append_drop i t.sizes]
    rw [List.sum_append, List.drop_eq_getElem_cons hi, List.sum_cons]
  omega

theorem length_slice (complete : t.sizes.sum ≤ t.comp.length) (hi : i < t.sizes.length) :
    (t.slice i).length = t.sizes.getD i 0 := by
  have hle := slice_end_le complete hi
  rw [slice, List.length_take, List.length_drop]
  omega

/-- The call for block `i`. -/
theorem call_eq (hi : i < t.sizes.length) :
    (t.blocks s comp out).call i =
      ⟨comp + ((t.sizes.take i).sum % 2 ^ 32 : Nat), out + i * t.blockSize,
      toInt (t.sizes.getD i 0), toInt t.blockSize⟩ := by
  have hoffset : uploaded s 2 (splitOffsets 0 t.sizes) i = (t.sizes.take i).sum % 2 ^ 32 := by
    rw [uploaded, if_pos (by rw [length_splitOffsets]; omega), Int.toNat_natCast,
      getD_splitOffsets 0 hi, Nat.zero_add]
  have hsize : uploaded s 3 t.sizes i = t.sizes.getD i 0 := by
    rw [uploaded, if_pos (by omega), Int.toNat_natCast]
  unfold Kernel.Blocks.call DecTask.blocks
  dsimp only
  rw [hoffset, hsize]

/-- The bytes that the decoder of block `i` is given. -/
def handed (s : Side) (t : DecTask) (comp out : Int) (i : Nat) : List UInt8 :=
  (t.device s comp).mem.bytes ((t.blocks s comp out).call i).src
    ((t.blocks s comp out).call i).srcSize.toNat

theorem holds_slice (complete : t.sizes.sum ≤ t.comp.length) (hi : i < t.sizes.length) :
    (t.device s comp).mem.Holds (comp + (t.sizes.take i).sum) (t.slice i) := by
  have hle := slice_end_le complete hi
  have hall : (t.device s comp).mem.Holds comp t.comp := Mem.holds_store _ _ _
  exact (hall.drop (by omega)).take _

section

variable (relied : t.Relied content)

include relied

theorem Relied.call_eq (hi : i < t.sizes.length) :
    (t.blocks s comp out).call i =
      ⟨comp + (t.sizes.take i).sum, out + i * t.blockSize, (t.slice i).length, toInt
      t.blockSize⟩ := by
  have hlength := length_slice relied.complete hi
  have hsize : t.sizes.getD i 0 < 2 ^ 31 := by
    rcases relied.stands i hi with ⟨hnil, -⟩ | ⟨-, hlt, -⟩
    · rw [hnil, List.length_nil] at hlength
      omega
    · omega
  rw [DecTask.call_eq hi, Nat.mod_eq_of_lt (relied.offsets_lt i hi), toInt_of_lt hsize, hlength]

/-- The decoder is given the slice. -/
theorem Relied.handed_eq (hi : i < t.sizes.length) : t.handed s comp out i = t.slice i := by
  rw [handed, relied.call_eq hi]
  exact holds_slice relied.complete hi

theorem Relied.indexed (hpos : 0 < t.sizes.length) :
    (t.blocks s comp out).Indexed := relied.lanes hpos

theorem Relied.separate
    (apart : comp + t.comp.length ≤ out ∨ out + t.sizes.length * t.blockSize ≤ comp) :
    (t.blocks s comp out).Separate := by
  intro i hi
  have hle := slice_end_le relied.complete hi
  have hlength := length_slice relied.complete hi
  rw [relied.call_eq hi, Call.iend]
  dsimp only [DecTask.blocks]
  rcases apart with h | h
  · exact Or.inl (by omega)
  · exact Or.inr (by omega)

theorem Relied.blocks_decode :
    ∀ i < (t.blocks s comp out).totalBlocks,
      (t.blocks s comp out).Decodes (t.device s comp).mem i (content i) := by
  intro i hi
  unfold Kernel.Blocks.Decodes
  rw [relied.call_eq hi]
  dsimp only
  rcases relied.stands i hi with ⟨hnil, hcontent⟩ | ⟨hne, -, hstands⟩
  · exact Or.inl ⟨by rw [hnil]; rfl, hcontent⟩
  · have hpos : 0 < (t.slice i).length := List.length_pos_iff.mpr hne
    exact Or.inr ⟨by omega, hstands _ _ _ (holds_slice relied.complete hi)⟩

end

variable {allocates : Nat → Bool} {d : Decoded}

/-- What is read back from the device. -/
theorem Relied.run_some (relied : t.Relied content) (apart : t.Apart s)
    (hrun : t.run s allocates = some d) :
    d.sizes = (List.range t.sizes.length).map (fun i => (content i).length) ∧ ∀ i < t.sizes.length,
      d.slot i (content i).length = content i := by
  unfold DecTask.run at hrun
  split at hrun
  · rename_i hnone
    obtain rfl := Option.some.inj hrun
    rw [hnone]
    exact ⟨rfl, fun i hi => absurd hi (by omega)⟩
  · split at hrun
    · rename_i comp out _ _ _ hcomp hout _ _ _
      split at hrun
      · rename_i hdone
        obtain rfl := Option.some.inj hrun
        have hdelivers (i : Nat) (hi : i < t.sizes.length) :
            (t.lanes s comp out).shared.sizesOut i = (content i).length ∧
              (t.lanes s comp out).shared.mem.Holds ((t.blocks s comp out).call i).dst
                (content i) :=
          Blocks.decompressBlocks_delivers (relied.indexed (by omega))
            (relied.separate (apart comp out hcomp hout)) relied.blocks_decode hdone.2 hi
        refine ⟨?_, fun i hi => ?_⟩
        · unfold DecTask.outSizes
          exact List.map_congr_left fun i hi => (hdelivers i (List.mem_range.mp hi)).1
        · have hholds := (hdelivers i hi).2
          exact hholds
      · exact absurd hrun (by simp)
    · exact absurd hrun (by simp)

/-- All blocks of the device are written. -/
theorem Relied.write (relied : t.Relied content) (apart : t.Apart s)
    (hrun : t.run s allocates = some d) :
    d.write t.blockSize = some ((List.range t.sizes.length).flatMap content) := by
  obtain ⟨hsizes, hslots⟩ := relied.run_some apart hrun
  have hsmall : d.sizes.all (· ≤ t.blockSize) = true := by
    rw [hsizes, List.all_eq_true]
    intro size hsize
    obtain ⟨i, hi, rfl⟩ := List.mem_map.mp hsize
    exact decide_eq_true (relied.stands i (List.mem_range.mp hi)).length_le.1
  have hlength : d.sizes.length = t.sizes.length := by
    rw [hsizes, List.length_map, List.length_range]
  rw [Decoded.write, if_pos hsmall, hlength, Option.some.injEq]
  refine List.flatMap_congr fun i hi => ?_
  have hi' := List.mem_range.mp hi
  have hsize : d.sizes.getD i 0 = (content i).length := by
    rw [hsizes, List.getD_eq_getElem?_getD, List.getElem?_map, List.getElem?_range hi']
    rfl
  rw [hsize, hslots i hi']

end DecTask

/-! ## The two parts of a file -/

section Parts

variable {f : File} {gpuBlocks : Nat}

theorem length_tableOf (f : File) : (tableOf f).length = f.numBlocks := by
  rw [tableOf, List.length_map, List.length_range]

theorem getD_tableOf (hi : i < f.numBlocks) : (tableOf f).getD i 0 = f.compSize i := by
  rw [tableOf, List.getD_eq_getElem?_getD, List.getElem?_map, List.getElem?_range hi]
  rfl

theorem sum_take_tableOf (hi : i ≤ f.numBlocks) : ((tableOf f).take i).sum = f.compOffset i := by
  rw [tableOf, ← List.map_take, List.take_range, Nat.min_eq_left hi, f.compOffset_eq_sum]

theorem sum_tableOf (f : File) : (tableOf f).sum = f.compOffset f.numBlocks := by
  rw [tableOf, f.compOffset_eq_sum]

theorem sum_take_drop_tableOf (hi : gpuBlocks + i ≤ f.numBlocks) :
    f.compOffset gpuBlocks + (((tableOf f).drop gpuBlocks).take i).sum =
      f.compOffset (gpuBlocks + i) := by
  rw [← sum_take_tableOf (show gpuBlocks ≤ f.numBlocks by omega), ← sum_take_tableOf hi,
    List.take_add, List.sum_append]

/-- The first blocks. -/
theorem slice_gpuDecTask (localSize : Nat) (hle : gpuBlocks ≤ f.numBlocks) (hi : i < gpuBlocks) :
    (gpuDecTask f gpuBlocks localSize).slice i = f.slice i := by
  have hmono : f.compOffset (i + 1) ≤ f.compOffset gpuBlocks := f.compOffset_mono hi
  rw [File.compOffset] at hmono
  have hsize : ((tableOf f).take gpuBlocks).getD i 0 = f.compSize i := by
    rw [List.getD_eq_getElem?_getD, List.getElem?_take_of_lt hi, ← List.getD_eq_getElem?_getD,
      getD_tableOf (by omega)]
  unfold DecTask.slice gpuDecTask
  rw [hsize, List.take_take, Nat.min_eq_left (by omega), sum_take_tableOf (by omega),
    sum_take_tableOf (by omega), List.drop_take, List.take_take, Nat.min_eq_left (by omega)]
  rfl

/-- The other blocks. -/
theorem slice_cpuDecTask (sys : System) (threads : Nat) (hi : gpuBlocks + i < f.numBlocks) :
    (cpuDecTask sys f gpuBlocks threads).slice i = f.slice (gpuBlocks + i) := by
  have hmono : f.compOffset (gpuBlocks + i + 1) ≤ f.compOffset f.numBlocks := f.compOffset_mono hi
  rw [File.compOffset] at hmono
  have hsize : ((tableOf f).drop gpuBlocks).getD i 0 = f.compSize (gpuBlocks + i) := by
    rw [List.getD_eq_getElem?_getD, List.getElem?_drop, ← List.getD_eq_getElem?_getD,
      getD_tableOf (by omega)]
  have hsum := sum_take_drop_tableOf (f := f) (show gpuBlocks + i ≤ f.numBlocks by omega)
  have htotal : ((tableOf f).take gpuBlocks).sum + ((tableOf f).drop gpuBlocks).sum =
      f.compOffset f.numBlocks := by
    rw [← List.sum_append, List.take_append_drop, sum_tableOf]
  rw [sum_take_tableOf (show gpuBlocks ≤ f.numBlocks by omega)] at htotal
  unfold DecTask.slice cpuDecTask
  dsimp only
  rw [hsize, sum_take_tableOf (by omega), List.drop_take, List.take_take,
    Nat.min_eq_left (by omega), List.drop_drop, hsum]
  rfl

theorem length_sizes_gpuDecTask (localSize : Nat) (hle : gpuBlocks ≤ f.numBlocks) :
    (gpuDecTask f gpuBlocks localSize).sizes.length = gpuBlocks := by
  unfold gpuDecTask
  rw [List.length_take, length_tableOf, Nat.min_eq_left hle]

theorem length_sizes_cpuDecTask (sys : System) (f : File) (gpuBlocks threads : Nat) :
    (cpuDecTask sys f gpuBlocks threads).sizes.length = f.numBlocks - gpuBlocks := by
  unfold cpuDecTask
  rw [List.length_drop, length_tableOf]

theorem length_payload (f : File) : f.payload.length = f.size - f.headerSize := by
  rw [File.payload, List.length_drop, File.size]

/-- The parts make up the payload. -/
theorem Accepted.length_comp (accepted : Accepted f) (sys : System) (localSize threads : Nat) :
    (gpuDecTask f gpuBlocks localSize).comp.length = ((tableOf f).take gpuBlocks).sum ∧
      (cpuDecTask sys f gpuBlocks threads).comp.length = ((tableOf f).drop gpuBlocks).sum := by
  obtain ⟨-, -, -, -, -, -, hheader, hsum⟩ := accepted
  have htotal : ((tableOf f).take gpuBlocks).sum + ((tableOf f).drop gpuBlocks).sum =
      (tableOf f).sum := by
    rw [← List.sum_append, List.take_append_drop]
  unfold gpuDecTask cpuDecTask
  rw [List.length_take, List.length_take, List.length_drop, length_payload]
  omega

end Parts

/-! ## The file that is written -/

/-- What the program relies on without looking, when `gpuBlocks` blocks go to the GPU. -/
structure Relied (sys : System) (f : File) (gpuBlocks localSize threads : Nat)
    (content : Nat → List UInt8) : Prop where
  gpuOffsets : ∀ i < gpuBlocks, f.compOffset i < 2 ^ 32
  cpuOffsets : ∀ i < f.numBlocks, f.compOffset i < f.compOffset gpuBlocks + 2 ^ 32
  gpuLanes : 0 < gpuBlocks →
    DecTask.Strided gpuBlocks (gpuDecTask f gpuBlocks localSize).globalSize
  cpuLanes : gpuBlocks < f.numBlocks →
    DecTask.Strided (f.numBlocks - gpuBlocks) (cpuDecTask sys f gpuBlocks threads).globalSize
  stands : ∀ i < f.numBlocks, Stands f.blockSize (f.slice i) (content i)

/-- The buffers of each device do not overlap. -/
def Apart (sys : System) (f : File) (gpuBlocks localSize threads : Nat) : Prop :=
  (gpuDecTask f gpuBlocks localSize).Apart sys.gpu ∧
    (cpuDecTask sys f gpuBlocks threads).Apart sys.cpu

/-- The bytes that the decoder of block `i` of the file is given, on a device with these
buffers. -/
def handed (sys : System) (f : File) (gpuBlocks localSize threads : Nat) (comp out : Int)
    (i : Nat) : List UInt8 :=
  if i < gpuBlocks then (gpuDecTask f gpuBlocks localSize).handed sys.gpu comp out i
  else (cpuDecTask sys f gpuBlocks threads).handed sys.cpu comp out (i - gpuBlocks)

section Written

variable {sys : System} {f : File} {gpuBlocks localSize threads : Nat}
  {content : Nat → List UInt8}

section

variable (relied : Relied sys f gpuBlocks localSize threads content)

include relied

theorem Relied.gpu (accepted : Accepted f) (hle : gpuBlocks ≤ f.numBlocks) :
    (gpuDecTask f gpuBlocks localSize).Relied content := by
  have hlength := length_sizes_gpuDecTask localSize hle
  refine ⟨Nat.le_of_eq (accepted.length_comp sys localSize threads).1.symm, ?_, ?_, ?_⟩
  · intro i hi
    rw [hlength] at hi
    unfold gpuDecTask
    rw [List.take_take, Nat.min_eq_left (by omega), sum_take_tableOf (by omega)]
    exact relied.gpuOffsets i hi
  · rw [hlength]
    exact relied.gpuLanes
  · intro i hi
    rw [hlength] at hi
    rw [slice_gpuDecTask localSize hle hi]
    exact relied.stands i (by omega)

theorem Relied.cpu (accepted : Accepted f) (hle : gpuBlocks ≤ f.numBlocks) :
    (cpuDecTask sys f gpuBlocks threads).Relied fun i => content (gpuBlocks + i) := by
  have hlength := length_sizes_cpuDecTask sys f gpuBlocks threads
  refine ⟨Nat.le_of_eq (accepted.length_comp sys localSize threads).2.symm, ?_, ?_, ?_⟩
  · intro i hi
    have hsum := sum_take_drop_tableOf (f := f) (show gpuBlocks + i ≤ f.numBlocks by omega)
    have hlt := relied.cpuOffsets (gpuBlocks + i) (by omega)
    unfold cpuDecTask
    dsimp only
    omega
  · rw [hlength]
    exact fun hpos => relied.cpuLanes (by omega)
  · intro i hi
    rw [slice_cpuDecTask sys threads (by omega)]
    exact relied.stands (gpuBlocks + i) (by omega)

/-- Every decoder is given its slice. -/
theorem Relied.handed_eq (accepted : Accepted f) (hle : gpuBlocks ≤ f.numBlocks)
    (hi : i < f.numBlocks) (comp out : Int) :
    handed sys f gpuBlocks localSize threads comp out i = f.slice i := by
  unfold handed
  split
  · rename_i hgpu
    rw [(relied.gpu accepted hle).handed_eq (by rw [length_sizes_gpuDecTask _ hle]; exact hgpu),
      slice_gpuDecTask localSize hle hgpu]
  · rw [(relied.cpu accepted hle).handed_eq (by rw [length_sizes_cpuDecTask]; omega),
      slice_cpuDecTask sys threads (by omega)]
    congr 1
    omega

/-- What both devices contribute. -/
theorem Relied.parts (accepted : Accepted f) (hle : gpuBlocks ≤ f.numBlocks)
    (apart : Apart sys f gpuBlocks localSize threads) {allocates : Nat → Bool} {g c : Decoded}
    (hgpu : (gpuDecTask f gpuBlocks localSize).run sys.gpu allocates = some g)
    (hcpu : (cpuDecTask sys f gpuBlocks threads).run sys.cpu allocates = some c) :
    g.sizes ++ c.sizes = (List.range f.numBlocks).map (fun i => (content i).length) ∧ ∃ front back,
      g.write f.blockSize = some front ∧ c.write f.blockSize = some back ∧ front ++ back =
      (List.range f.numBlocks).flatMap content := by
  have hrange : List.range f.numBlocks = List.range gpuBlocks ++
      (List.range (f.numBlocks - gpuBlocks)).map (gpuBlocks + ·) := by
    rw [← List.range_add, Nat.add_sub_cancel' hle]
  have gpu := relied.gpu accepted hle
  have cpu := relied.cpu accepted hle
  have hgpuLength := length_sizes_gpuDecTask localSize hle
  have hcpuLength := length_sizes_cpuDecTask sys f gpuBlocks threads
  refine ⟨?_, _, _, gpu.write apart.1 hgpu, cpu.write apart.2 hcpu, ?_⟩
  · rw [(gpu.run_some apart.1 hgpu).1, (cpu.run_some apart.2 hcpu).1, hgpuLength, hcpuLength,
      hrange, List.map_append, List.map_map]
    rfl
  · rw [hgpuLength, hcpuLength, hrange, List.flatMap_append, List.flatMap_map]

end

/-- Under the conditions above every decoder gets its slice, no block fails, and the file is the
concatenation of what the slices stand for. -/
theorem Relied.result {share : Nat} {r : Result}
    (relied : Relied sys f (min share f.numBlocks) localSize threads content)
    (apart : Apart sys f (min share f.numBlocks) localSize threads)
    (hresult : doSplitDecompressMode sys f share localSize threads = some r) :
    (∀ i < f.numBlocks, ∀ comp out,
        handed sys f (min share f.numBlocks) localSize threads comp out i = f.slice i) ∧
      (∀ size ∈ r.sizes, size ≠ errorMark) ∧
      r.written = (List.range f.numBlocks).flatMap content := by
  have hle : min share f.numBlocks ≤ f.numBlocks := Nat.min_le_right _ _
  unfold doSplitDecompressMode at hresult
  split at hresult
  · rename_i htests
    have accepted := htests.1
    dsimp only at hresult
    split at hresult
    · rename_i g c hgpu hcpu
      obtain ⟨hsizes, front, back, hfront, hback, hwritten⟩ :=
        relied.parts accepted hle apart hgpu hcpu
      rw [hfront, hback] at hresult
      split at hresult
      · rename_i hf hb
        obtain rfl := Option.some.inj hf
        obtain rfl := Option.some.inj hb
        obtain rfl := Option.some.inj hresult
        refine ⟨fun i hi comp out => relied.handed_eq accepted hle hi comp out, ?_, hwritten⟩
        rw [hsizes]
        intro size hsize
        obtain ⟨i, hi, rfl⟩ := List.mem_map.mp hsize
        have hlt := (relied.stands i (List.mem_range.mp hi)).length_le.2
        unfold errorMark
        omega
      · exact absurd hresult (by simp)
    · exact absurd hresult (by simp)
  · exact absurd hresult (by simp)

end Written

/-! ## Files that respect the format -/

/-- Slice `i` is empty and stands for no bytes, or it is a block that respects the format and
decodes to `content`. -/
def References (f : File) (i : Nat) (content : List UInt8) : Prop :=
  (f.slice i = [] ∧ content = []) ∨ ∃ b : Block, b.Conforming [] ∧ b.encode = f.slice i ∧
    b.decode [] = content

theorem stands_of_conforming {b : Block} (conforming : b.Conforming [])
    (hroom : (b.decode []).length ≤ blockSize) (hblock : blockSize < 2 ^ 31)
    (hsize : b.encode.length < 2 ^ 31) : Stands blockSize b.encode (b.decode []) := by
  have hne : b.encode ≠ [] := by simp [Block.encode, encodeLast]
  refine Or.inr ⟨hne, hsize, ?_⟩
  rw [toInt_of_lt hblock]
  exact standsFor_of_conforming conforming (by omega) (by omega)

theorem References.stands {f : File} (references : References f i content)
    (hroom : content.length ≤ f.blockSize) (hblock : f.blockSize < 2 ^ 31)
    (hsize : f.compSize i < 2 ^ 31) : Stands f.blockSize (f.slice i) content := by
  rcases references with hempty | ⟨b, conforming, hencode, rfl⟩
  · exact Or.inl hempty
  · have hle := List.length_take_le (f.compSize i) (f.payload.drop (f.compOffset i))
    have hlength : b.encode.length < 2 ^ 31 := by
      rw [hencode, File.slice]
      omega
    rw [← hencode]
    exact stands_of_conforming conforming hroom hblock hlength

/-- A device on which everything succeeds, with the input at 0 and the output far behind it. -/
def roomySide : Side where
  starts := true
  computeUnits := 1
  buffer index _ := some (if index = 1 then 2 ^ 40 else 0)
  transfers _ := true
  launches _ _ := true
  mem _ := 0
  table _ _ := 0
  schedule n := (List.replicate 8 (List.finRange n)).flatten

def roomySystem : System where
  gpu := roomySide
  cpu := roomySide
  allocates _ := true
  writes := true

end Lz4.Hybrid
