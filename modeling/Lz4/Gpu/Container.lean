import Lz4.Lib.LittleEndian
import Mathlib.Order.Monotone.Basic

/-!
# The container of the GPU programs

A file starts with a magic number, the number of blocks and the block size, each a 32-bit word.
A table with the compressed size of every block follows, and then the compressed blocks, one
behind the other.  There are no offsets in the file: block `i` starts where the blocks before it
end.

The fields are defined here for every file, as the numbers the format means, without any bound
on them.  What a program makes of these numbers is another matter.
-/

namespace Lz4.Gpu

open FlatMemory

/-- A file, of a size that `ftell` can return. -/
structure File where
  bytes : List UInt8
  size_lt : bytes.length < 2 ^ 63

def magicNumber : Nat := 0x184D2204

namespace File

variable (f : File)

def size : Nat := f.bytes.length

/-- What `fread` gets when it asks for `n` bytes at `pos`. -/
def read (pos n : Nat) : List UInt8 := (f.bytes.drop pos).take n

def word (pos : Nat) : Nat := leValue (f.read pos 4)

def numBlocks : Nat := f.word 4

def blockSize : Nat := f.word 8

/-- The entry of block `i` in the table. -/
def compSize (i : Nat) : Nat := f.word (12 + 4 * i)

def headerSize : Nat := 12 + 4 * f.numBlocks

/-- Where block `i` starts in the payload. -/
def compOffset : Nat → Nat
  | 0 => 0
  | i + 1 => compOffset i + f.compSize i

def payload : List UInt8 := f.bytes.drop f.headerSize

/-- The bytes of block `i`. -/
def slice (i : Nat) : List UInt8 := (f.payload.drop (f.compOffset i)).take (f.compSize i)

/-- The table is complete, and all blocks end in the file. -/
def Complete : Prop := f.headerSize + f.compOffset f.numBlocks ≤ f.size

instance : Decidable f.Complete := inferInstanceAs (Decidable (_ ≤ _))

variable {f}

@[simp] theorem length_read (pos n : Nat) : (f.read pos n).length = min n (f.size - pos) := by
  rw [read, List.length_take, List.length_drop, size]

theorem compOffset_eq_sum (i : Nat) : f.compOffset i = ((List.range i).map f.compSize).sum := by
  induction i with
  | zero => rfl
  | succ i ih =>
    rw [compOffset, ih, List.range_succ, List.map_append, List.sum_append, List.map_singleton,
      List.sum_singleton]

theorem compOffset_mono : Monotone f.compOffset :=
  monotone_nat_of_le_succ fun i => by
    rw [compOffset]
    omega

/-- In a complete file a block ends before the next one starts. -/
theorem Complete.slice_le (complete : f.Complete) {i : Nat} (hi : i < f.numBlocks) :
    f.headerSize + f.compOffset i + f.compSize i ≤ f.size := by
  have hnext : f.compOffset (i + 1) ≤ f.compOffset f.numBlocks := f.compOffset_mono hi
  rw [compOffset] at hnext
  unfold Complete at complete
  omega

theorem Complete.length_slice (complete : f.Complete) {i : Nat} (hi : i < f.numBlocks) :
    (f.slice i).length = f.compSize i := by
  have hle := complete.slice_le hi
  have hpayload : f.payload.length = f.size - f.headerSize := by
    rw [payload, List.length_drop, size]
  rw [slice, List.length_take, List.length_drop, hpayload]
  omega

end File

/-! ## Writing -/

/-- The container of these blocks. -/
def container (blockSize : Nat) (blocks : List (List UInt8)) : List UInt8 :=
  leBytes 4 magicNumber ++ leBytes 4 blocks.length ++ leBytes 4 blockSize ++
    blocks.flatMap (fun block => leBytes 4 block.length) ++ blocks.flatten

section Container

variable {f : File} {blockSize : Nat} {blocks : List (List UInt8)}

/-- A word that stands behind `front`. -/
theorem word_of_append (front back : List UInt8) {v : Nat}
    (hbytes : f.bytes = front ++ leBytes 4 v ++ back) (hv : v < 2 ^ 32) :
    f.word front.length = v := by
  have hlength : (leBytes 4 v).length = 4 := length_leBytes 4 v
  have hread : f.read front.length 4 = leBytes 4 v := by
    rw [File.read, hbytes, List.append_assoc, List.drop_left, List.take_left' hlength]
  rw [File.word, hread, leValue_leBytes hv]

theorem length_sizeTable (blocks : List (List UInt8)) :
    (blocks.flatMap fun block => leBytes 4 block.length).length = 4 * blocks.length := by
  induction blocks with
  | nil => rfl
  | cons block blocks ih =>
    rw [List.flatMap_cons, List.length_append, ih, length_leBytes, List.length_cons]
    omega

section

variable (hbytes : f.bytes = container blockSize blocks)

include hbytes

theorem word_container_zero : f.word 0 = magicNumber := by
  refine word_of_append [] (leBytes 4 blocks.length ++ leBytes 4 blockSize ++
    blocks.flatMap (fun block => leBytes 4 block.length) ++ blocks.flatten) ?_ (by decide)
  rw [hbytes, container]
  simp

theorem numBlocks_container (hcount : blocks.length < 2 ^ 32) : f.numBlocks = blocks.length := by
  refine word_of_append (leBytes 4 magicNumber) (leBytes 4 blockSize ++
    blocks.flatMap (fun block => leBytes 4 block.length) ++ blocks.flatten) ?_ hcount
  rw [hbytes, container]
  simp

theorem blockSize_container (hsize : blockSize < 2 ^ 32) : f.blockSize = blockSize := by
  refine word_of_append (leBytes 4 magicNumber ++ leBytes 4 blocks.length)
    (blocks.flatMap (fun block => leBytes 4 block.length) ++ blocks.flatten) ?_ hsize
  rw [hbytes, container]
  simp

/-- The entries of the table. -/
theorem compSize_container (hsizes : ∀ block ∈ blocks, block.length < 2 ^ 32) {i : Nat}
    (hi : i < blocks.length) : f.compSize i = (blocks.getD i []).length := by
  have hget : blocks.getD i [] = blocks[i] := by
    rw [List.getD_eq_getElem?_getD, List.getElem?_eq_getElem hi, Option.getD_some]
  have hsplit : blocks = blocks.take i ++ blocks[i] :: blocks.drop (i + 1) := by
    rw [← List.drop_eq_getElem_cons hi, List.take_append_drop]
  have htable : (blocks.flatMap fun block => leBytes 4 block.length) =
      ((blocks.take i).flatMap fun block => leBytes 4 block.length) ++
        (leBytes 4 blocks[i].length ++
          (blocks.drop (i + 1)).flatMap fun block => leBytes 4 block.length) := by
    conv_lhs => rw [hsplit]
    rw [List.flatMap_append, List.flatMap_cons]
  have hfront : 12 + 4 * i = (leBytes 4 magicNumber ++ leBytes 4 blocks.length ++
      leBytes 4 blockSize ++
      (blocks.take i).flatMap fun block => leBytes 4 block.length).length := by
    simp only [List.length_append, length_leBytes, length_sizeTable, List.length_take]
    omega
  rw [hget, File.compSize, hfront]
  refine word_of_append _ (((blocks.drop (i + 1)).flatMap fun block =>
    leBytes 4 block.length) ++ blocks.flatten) ?_ (hsizes _ (List.getElem_mem hi))
  rw [hbytes, container, htable]
  simp only [List.append_assoc]

theorem compOffset_container (hsizes : ∀ block ∈ blocks, block.length < 2 ^ 32) {i : Nat}
    (hi : i ≤ blocks.length) : f.compOffset i = (blocks.take i).flatten.length := by
  induction i with
  | zero => rfl
  | succ i ih =>
    rw [File.compOffset, ih (by omega), compSize_container hbytes hsizes (by omega),
      List.take_add_one, List.flatten_append, List.length_append, List.getD_eq_getElem?_getD,
      List.getElem?_eq_getElem (by omega)]
    simp

/-- What is written can be read. -/
theorem slice_container (hcount : blocks.length < 2 ^ 32)
    (hsizes : ∀ block ∈ blocks, block.length < 2 ^ 32) {i : Nat} (hi : i < blocks.length) :
    f.slice i = blocks.getD i [] := by
  have hheader : f.headerSize = (leBytes 4 magicNumber ++ leBytes 4 blocks.length ++
      leBytes 4 blockSize ++ blocks.flatMap fun block => leBytes 4 block.length).length := by
    rw [File.headerSize, numBlocks_container hbytes hcount]
    simp only [List.length_append, length_leBytes, length_sizeTable]
  have hpayload : f.payload = blocks.flatten := by
    rw [File.payload, hbytes, container, hheader, List.drop_left]
  have hget : blocks.getD i [] = blocks[i] := by
    rw [List.getD_eq_getElem?_getD, List.getElem?_eq_getElem hi, Option.getD_some]
  have hsplit : blocks.flatten = (blocks.take i).flatten ++
      (blocks[i] ++ (blocks.drop (i + 1)).flatten) := by
    conv_lhs => rw [← List.take_append_drop i blocks, List.drop_eq_getElem_cons hi]
    rw [List.flatten_append, List.flatten_cons]
  rw [File.slice, hpayload, compOffset_container hbytes hsizes (by omega),
    compSize_container hbytes hsizes hi, hget, hsplit, List.drop_left, List.take_left]

end

end Container

end Lz4.Gpu
