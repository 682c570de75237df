import Lz4.Kernel.Correct
import Lz4.Lib.Parallel

/-!
# `lz4_decompress_blocks`

The kernel that decodes a table of blocks.  Block `idx` is read at `comp_offsets[idx]` of the
input and decoded into the slot `idx` of the output; all slots have `block_size` bytes.  The
lanes stride over the blocks with a signed index.

The kernel does not look at its neighbours, and the decoder does not stop a match at the end of
its slot.  So the blocks are independent only if each of them decodes in its slot; this is what
`Decodes` asks for, and under this condition no schedule makes a difference
(`decompressBlocks_delivers`).
-/

namespace Lz4.Kernel

open FlatMemory Decoder Machine Parallel

/-- `(int)` of a 32-bit value. -/
def toInt (n : Nat) : Int := Int.bmod n (2 ^ 32)

variable {n : Nat}

theorem toInt_of_lt (h : n < 2 ^ 31) : toInt n = n := by
  unfold toInt
  rw [Int.bmod_def]
  omega

theorem toInt_le (n : Nat) : toInt n ≤ n := by
  unfold toInt
  rw [Int.bmod_def]
  omega

theorem toInt_lt (n : Nat) : toInt n < 2 ^ 31 := by
  unfold toInt
  rw [Int.bmod_def]
  omega

/-! ## The kernel -/

/-- The arguments.  `globalSize` is the number of lanes. -/
structure Blocks where
  input : Int
  output : Int
  compOffsets : Int → Nat
  compSizes : Int → Nat
  blockSize : Nat
  totalBlocks : Nat
  globalSize : Nat

/-- What the lanes share: memory, and the table `sizes_out`. -/
structure Device where
  mem : Mem
  sizesOut : Int → Nat

namespace Blocks

variable (b : Blocks)

/-- The call of `lz4_decompress_generic` for one block. -/
def call (idx : Int) : Call where
  src := b.input + b.compOffsets idx
  dst := b.output + idx * b.blockSize
  srcSize := toInt (b.compSizes idx)
  outputSize := toInt b.blockSize

theorem dst_call (idx : Int) : (b.call idx).dst = b.output + idx * b.blockSize := rfl

theorem oend_call (idx : Int) :
    (b.call idx).oend = b.output + idx * b.blockSize + toInt b.blockSize := by
  rw [Call.oend, call]

theorem srcSize_call (idx : Int) : (b.call idx).srcSize = toInt (b.compSizes idx) := by
  rw [call]

theorem outputSize_call (idx : Int) : (b.call idx).outputSize = toInt b.blockSize := by
  rw [call]

theorem srcSize_lt (idx : Int) : (b.call idx).srcSize < 2 ^ 31 := by
  rw [srcSize_call]
  exact toInt_lt (b.compSizes idx)

theorem outputSize_lt (idx : Int) : (b.call idx).outputSize < 2 ^ 31 := by
  rw [outputSize_call]
  exact toInt_lt b.blockSize

/-- The loop of a lane, with the loop of `lz4_decompress_generic` as its body.  The index is an
`int`; where it overflows it is taken to wrap around. -/
def decompressBlocks : Loop Device Int (Int × Nat) where
  going idx := decide (idx < toInt b.totalBlocks)
  next idx := Int.bmod (idx + toInt b.globalSize) (2 ^ 32)
  enter d idx :=
    if (b.call idx).srcSize = 0 then ({ d with sizesOut := Function.update d.sizesOut idx 0 }, none)
    else (d, some ((b.call idx).src, 0))
  step d idx s :=
    match pass (b.call idx) ⟨⟨d.mem, []⟩, s.1, s.2⟩ with
    | .next s' => ({ d with mem := s'.heap.mem }, some (s'.ip, s'.opRel))
    | .done (word, h) => (⟨h.mem, Function.update d.sizesOut idx word⟩, none)

/-- All lanes start at their own number. -/
def start (i : Fin b.globalSize) : Int := toInt i

/-- Memory and table after a run. -/
def run (schedule : List (Fin b.globalSize)) (d : Device) :
    Config (Fin b.globalSize) Device (Phase Int (Int × Nat)) :=
  b.decompressBlocks.program.run schedule (Loop.launch d b.start)

/-! ## What the blocks stand for -/

/-- Block `j` is empty, or decodes in its slot. -/
def Decodes (m : Mem) (j : Nat) (content : List UInt8) : Prop :=
  ((b.call j).srcSize = 0 ∧ content = []) ∨
    (0 < (b.call j).srcSize ∧ Kernel.Decodes (b.call j) m content (b.call j).src [])

/-- The input of every block is apart from all slots. -/
def Separate : Prop :=
  ∀ j < b.totalBlocks, (b.call j).iend ≤ b.output ∨
    b.output + b.totalBlocks * b.blockSize ≤ (b.call j).src

/-- The index does not overflow, in any lane. -/
def Indexed : Prop := 0 < b.globalSize ∧ b.totalBlocks + b.globalSize ≤ 2 ^ 31

end Blocks

/-! ## One block -/

variable {buf : List UInt8} {ip : Int}

section Block

variable {c : Call} {source : Mem} {content : List UInt8}

theorem Decodes.length_le (h : Decodes c source content ip buf) :
    (buf.length : Int) ≤ c.outputSize := by
  cases h with
  | last hturn hcontent =>
    have := turn_last hturn
    omega
  | sequence hturn hpos hfits hrest => omega

theorem Decodes.length_content_le (h : Decodes c source content ip buf) :
    (content.length : Int) ≤ c.outputSize := by
  induction h with
  | last hturn hcontent =>
    have hroom := turn_last hturn
    rw [← hcontent, List.length_append, Mem.length_bytes]
    omega
  | sequence hturn hpos hfits hrest ih => exact ih

/-- Wherever it stands in memory, `input` decodes to `content` in a slot of `outputSize` bytes. -/
def StandsFor (outputSize : Int) (input content : List UInt8) : Prop :=
  ∀ (m : Mem) (src dst : Int), m.Holds src input →
    Decodes ⟨src, dst, input.length, outputSize⟩ m content src []

/-- Blocks that respect the format do so. -/
theorem standsFor_of_conforming {b : Block} {outputSize : Int} (conforming : b.Conforming [])
    (hroom : (b.decode []).length ≤ outputSize) (hsize : outputSize < 2 ^ 31) :
    StandsFor outputSize b.encode (b.decode []) :=
  fun _ _ _ hholds => decodes_of_conforming conforming hholds rfl hroom hsize

/-- What is decoded so far does not depend on memory outside the block and its slot. -/
theorem Decoding.congr {s : State} {m : Mem} (decoding : Decoding c source content s)
    (hinput : ∀ a, c.src ≤ a → a < c.iend → m a = s.heap.mem a)
    (houtput : ∀ a, c.dst ≤ a → a < c.oend → m a = s.heap.mem a) :
    Decoding c source content ⟨⟨m, []⟩, s.ip, s.opRel⟩ := by
  obtain ⟨intact, hsrc, hlt, buf, rel, hdecodes⟩ := decoding
  have hlength := hdecodes.length_le
  have hopRel := opRel_eq rel
  have hdst : c.env.dst = c.dst := rfl
  have hoend : c.oend = c.dst + c.outputSize := rfl
  have hin : ∀ a, c.src ≤ a → a < c.iend → m a = source a :=
    fun a hlow hhigh => (hinput a hlow hhigh).trans (intact a hlow hhigh)
  have hout : ∀ v, c.env.dst ≤ v → v < c.dst + s.opRel → m v = contents (c.env.dst - (0 : Nat)) buf v := by
    intro v hlow hhigh
    rw [houtput v (by omega) (by omega)]
    exact rel.output v hlow hhigh
  refine ⟨hin, hsrc, hlt, buf, ⟨?_, rel.pos, rel.le_pos, ?_, hout⟩, hdecodes⟩
  · intro a hlow hhigh
    dsimp only at hlow
    exact hin a (by omega) hhigh
  · -- there is no dictionary, so the window is the output
    intro v hlow _ hhigh
    have hphys : c.env.phys v = v := by
      refine Env.phys_of_le ?_
      show c.dst ≤ v
      omega
    rw [hphys]
    exact hout v (by omega) hhigh

end Block

/-! ## All blocks -/

namespace Blocks

variable {b : Blocks} {m : Mem} {content : Nat → List UInt8}

/-- How a run is looked at: `m` is memory before it. -/
def view (b : Blocks) (m : Mem) (content : Nat → List UInt8) :
    Loop.View Device Int (Int × Nat) where
  At idx j := idx = j
  Ready j d := (b.call j).Intact m d.mem
  Working j n d s := Decoding (b.call j) m (content j) ⟨⟨d.mem, []⟩, s.1, s.2⟩ ∧
    ((b.call j).iend - s.1).toNat ≤ n
  Delivered j d := d.sizesOut j = (content j).length ∧ d.mem.Holds (b.call j).dst (content j)
  Touches j d d' := (∀ a, (a < (b.call j).dst ∨ (b.call j).oend ≤ a) → d'.mem a = d.mem a) ∧
    ∀ i : Int, i ≠ j → d'.sizesOut i = d.sizesOut i

variable {j i : Nat}

theorem oend_le_dst (h : i < j) : (b.call i).oend ≤ (b.call j).dst := by
  have hmul : (i + 1) * b.blockSize ≤ j * b.blockSize := Nat.mul_le_mul_right _ h
  have hsize := toInt_le b.blockSize
  have hrow : ((i : Int) + 1) * b.blockSize ≤ j * b.blockSize := by exact_mod_cast hmul
  have hexpand : ((i : Int) + 1) * b.blockSize = i * b.blockSize + b.blockSize := by
    rw [Int.add_mul, Int.one_mul]
  rw [oend_call, dst_call]
  omega

/-- Two slots do not overlap. -/
theorem slots_apart (h : i ≠ j) :
    (b.call i).oend ≤ (b.call j).dst ∨ (b.call j).oend ≤ (b.call i).dst := by
  rcases Nat.lt_or_gt_of_ne h with hlt | hlt
  · exact Or.inl (oend_le_dst hlt)
  · exact Or.inr (oend_le_dst hlt)

/-- The slots are apart from what is read. -/
theorem Separate.slot (separate : b.Separate) (hi : i < b.totalBlocks) (hj : j < b.totalBlocks) :
    (b.call i).iend ≤ (b.call j).dst ∨ (b.call j).oend ≤ (b.call i).src := by
  have hlow : (b.output : Int) ≤ (b.call j).dst := by
    have : (0 : Int) ≤ j * b.blockSize := by positivity
    rw [dst_call]
    omega
  have hhigh : (b.call j).oend ≤ b.output + b.totalBlocks * b.blockSize :=
    oend_le_dst (b := b) hj
  rcases separate i hi with h | h
  · exact Or.inl (by omega)
  · exact Or.inr (by omega)

theorem Separate.call (separate : b.Separate) {j : Nat} (hj : j < b.totalBlocks) :
    (b.call j).Separate := separate.slot hj hj

theorem Decodes.length_le (h : b.Decodes m j (content j)) :
    (content j).length = 0 ∨ ((content j).length : Int) ≤ (b.call j).outputSize := by
  rcases h with ⟨-, hnil⟩ | ⟨-, hdecodes⟩
  · rw [hnil]
    exact Or.inl rfl
  · exact Or.inr hdecodes.length_content_le

variable {d : Device}

/-- Entering the body. -/
theorem view_enter (hdecodes : b.Decodes m j (content j)) (hready : (b.view m content).Ready j d) :
    (b.view m content).Proceeds j (2 ^ 31) d (b.decompressBlocks.enter d j) := by
  unfold decompressBlocks
  dsimp only
  rcases hdecodes with ⟨hzero, hnil⟩ | ⟨hpos, hdecodes⟩
  · rw [if_pos hzero]
    refine ⟨⟨fun a _ => rfl, fun i hi => Function.update_of_ne hi _ _⟩, ?_⟩
    show Function.update d.sizesOut (j : Int) 0 j = _ ∧ _
    rw [Function.update_self, hnil]
    exact ⟨rfl, rfl⟩
  · rw [if_neg (by omega)]
    refine ⟨⟨fun a _ => rfl, fun i _ => rfl⟩, (b.call j).srcSize.toNat, ?_, ?_, ?_⟩
    · have hlt := b.srcSize_lt j
      omega
    · obtain ⟨-, hsrc, hlt, buf, rel, hrest⟩ := decoding_start hpos hdecodes
      refine ⟨hready, hsrc, hlt, buf, ?_, hrest⟩
      exact { rel with
        input := fun a hlow hhigh => hready a hlow hhigh
        window := fun v hlow _ hhigh => absurd hhigh (by dsimp only [Call.env] at *; omega)
        output := fun v hlow hhigh => absurd hhigh (by dsimp only [Call.env] at *; omega) }
    · have hiend : (b.call j).iend = (b.call j).src + (b.call j).srcSize := rfl
      omega

/-- A step of the body. -/
theorem view_step {s : Int × Nat} (hj : j < b.totalBlocks) (separate : b.Separate)
    (hworking : (b.view m content).Working j n d s) :
    (b.view m content).Proceeds j n d (b.decompressBlocks.step d j s) := by
  obtain ⟨decoding, hn⟩ := hworking
  have hnext := decoding.step (separate.call hj) (b.outputSize_lt j)
  unfold decompressBlocks
  dsimp only
  cases hpass : pass (b.call j) ⟨⟨d.mem, []⟩, s.1, s.2⟩ with
  | next s' =>
    rw [hpass] at hnext
    obtain ⟨decoding', hlt, hframe⟩ := hnext
    have hiend := decoding.lt_iend
    dsimp only at hlt hiend
    refine ⟨⟨hframe, fun i _ => rfl⟩, n - 1, by omega, decoding'.congr ?_ ?_, ?_⟩
    · exact fun _ _ _ => rfl
    · exact fun _ _ _ => rfl
    · omega
  | done r =>
    rw [hpass] at hnext
    obtain ⟨hword, hholds, -, hframe⟩ := hnext
    refine ⟨⟨hframe, fun i hi => Function.update_of_ne hi _ _⟩, ?_, hholds⟩
    show Function.update d.sizesOut (j : Int) r.1 j = _
    rw [Function.update_self, hword]

/-- The kernel obeys the rules of a strided loop. -/
theorem decompressBlocks_obeys (indexed : b.Indexed) (separate : b.Separate)
    (hdecodes : ∀ j < b.totalBlocks, b.Decodes m j (content j)) :
    b.decompressBlocks.Obeys (b.view m content) b.totalBlocks b.globalSize (2 ^ 31) where
  going_iff := by
    rintro k j rfl
    have htotal := toInt_of_lt (n := b.totalBlocks) (by have := indexed.1; have := indexed.2; omega)
    simp only [decompressBlocks, htotal, decide_eq_true_eq]
    omega
  next_at := by
    rintro k j rfl hj
    have hsize := indexed.2
    have hglobal := toInt_of_lt (n := b.globalSize) (by omega)
    have hnext := toInt_of_lt (n := j + b.globalSize) (by omega)
    unfold toInt at hnext
    dsimp only [decompressBlocks, view]
    rw [hglobal, ← Nat.cast_add, hnext]
  enter := by
    rintro k j d rfl hj hready
    exact view_enter (hdecodes j hj) hready
  step := by
    rintro k j n d s rfl hj hworking
    exact view_step hj separate hworking
  ready := by
    rintro i j d d' hne hi hj ⟨hframe, -⟩ hready a hlow hhigh
    rw [hframe a (by rcases separate.slot hj hi with h | h <;> omega)]
    exact hready a hlow hhigh
  working := by
    rintro i j n d d' s hne hi hj ⟨hframe, -⟩ ⟨decoding, hn⟩
    refine ⟨decoding.congr ?_ ?_, hn⟩
    · intro a hlow hhigh
      exact hframe a (by rcases separate.slot hj hi with h | h <;> omega)
    · intro a hlow hhigh
      exact hframe a (by rcases slots_apart (b := b) hne with h | h <;> omega)
  delivered := by
    rintro i j d d' hne hi hj ⟨hframe, hsizes⟩ ⟨hsize, hholds⟩
    refine ⟨?_, ?_⟩
    · rw [hsizes j (by omega)]
      exact hsize
    · refine hholds.congr fun a hlow hhigh => ?_
      have hoend : (b.call j).oend = (b.call j).dst + (b.call j).outputSize := rfl
      have hlength := (hdecodes j hj).length_le
      exact (hframe a (by rcases slots_apart (b := b) hne with h | h <;> omega)).symm

theorem start_at (indexed : b.Indexed) (i : Fin b.globalSize) :
    (b.view m content).At (b.start i) i := by
  have hsize := indexed.2
  exact toInt_of_lt (by omega)

variable {schedule : List (Fin b.globalSize)} {words : Int → Nat}

/-- When the lanes have ended, every block stands in its slot, and `sizes_out` says how long it
is. -/
theorem decompressBlocks_delivers (indexed : b.Indexed) (separate : b.Separate)
    (hdecodes : ∀ j < b.totalBlocks, b.Decodes m j (content j))
    (hended : b.decompressBlocks.program.Ended (b.run schedule ⟨m, words⟩)) (hj : j < b.totalBlocks)
    :
    (b.run schedule ⟨m, words⟩).shared.sizesOut j = (content j).length ∧
      (b.run schedule ⟨m, words⟩).shared.mem.Holds (b.call j).dst (content j) :=
  (decompressBlocks_obeys indexed separate hdecodes).all_delivered indexed.1 (start_at indexed)
    (fun _ _ _ _ _ => rfl) hended hj

/-- The lanes end under every schedule that gives each of them enough turns. -/
theorem decompressBlocks_ends (indexed : b.Indexed) (separate : b.Separate)
    (hdecodes : ∀ j < b.totalBlocks, b.Decodes m j (content j))
    (hturns : ∀ i, b.totalBlocks * (2 ^ 31 + 1) < schedule.count i) :
    b.decompressBlocks.program.Ended (b.run schedule ⟨m, words⟩) :=
  (decompressBlocks_obeys indexed separate hdecodes).all_ended indexed.1 (start_at indexed)
    (fun _ _ _ _ _ => rfl) hturns

end Blocks

end Lz4.Kernel
