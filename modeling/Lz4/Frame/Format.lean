import Lz4.Format.Block
import Lz4.Frame.Descriptor

/-!
# The LZ4 frame format

A frame is a header, a list of blocks, an end mark and, if the header announces it, a checksum
of the content.  Every block has a size field whose highest bit marks a block that is stored
as it is, and, if the header announces it, a checksum of its bytes.

`Piece` is a block together with what it stands for and `Frame` a frame made of pieces;
`Frame.bytes` is the frame as it is laid out.  `Frame.Sound` says that the pieces stand for what
they claim: linked blocks refer to the dictionary and everything before them, independent ones
to the dictionary alone.  `Frame.Valid` asks in addition that the checksums and the declared
content size are the true ones; both may be violated in a frame that is only sound.
-/

namespace Lz4.Lz4f

open FlatMemory

/-- A block of a frame: how it is stored, the value of its checksum field, and its content. -/
structure Piece where
  raw : Bool
  data : List UInt8
  checksum : UInt32
  content : List UInt8
  deriving Repr, DecidableEq

/-- A frame; `checksum` is the value of the content checksum field. -/
structure Frame where
  desc : Descriptor
  pieces : List Piece
  checksum : UInt32
  deriving Repr, DecidableEq

/-- The size field. -/
def Piece.header (p : Piece) : List UInt8 :=
  leBytes 4 (p.data.length + if p.raw then 2 ^ 31 else 0)

@[simp] theorem Piece.length_header (p : Piece) : p.header.length = 4 := length_leBytes 4 _

/-- What a list of blocks stands for. -/
def contents (pieces : List Piece) : List UInt8 := pieces.flatMap Piece.content

namespace Frame

variable (f : Frame)

/-- The largest size of a block. -/
def blockSize : Nat := getBlockSize f.desc.blockSizeID

/-- The content of the frame. -/
def content : List UInt8 := contents f.pieces

/-- The checksum field of a block. -/
def footer (p : Piece) : List UInt8 :=
  if f.desc.blockChecksum then leBytes 4 p.checksum.toNat else []

/-- The size of the checksum fields of blocks. -/
def footerSize : Nat := if f.desc.blockChecksum then 4 else 0

/-- The checksum field of the frame. -/
def suffix : List UInt8 := if f.desc.contentChecksum then leBytes 4 f.checksum.toNat else []

/-- Blocks, followed by the end mark and the checksum. -/
def body : List Piece → List UInt8
  | [] => leBytes 4 0 ++ f.suffix
  | p :: rest => p.header ++ (p.data ++ (f.footer p ++ body rest))

/-- The frame in bytes. -/
def bytes : List UInt8 := f.desc.header ++ f.body f.pieces

@[simp] theorem length_footer (p : Piece) : (f.footer p).length = f.footerSize := by
  unfold footer footerSize
  split <;> simp

/-! ## What a frame stands for -/

/-- The history of the block behind one with content `content`. -/
def extend (history content : List UInt8) : List UInt8 :=
  if f.desc.independent then history else history ++ content

end Frame

/-- A block of at most `size` bytes stands for its content after `history`. -/
structure Piece.Stands (size : Nat) (history : List UInt8) (p : Piece) : Prop where
  data_le : p.data.length ≤ size
  content_le : p.content.length ≤ size
  raw_content : p.raw = true → p.content = p.data
  decodes : p.raw = false → ∃ b : Block, b.Conforming history ∧ b.encode = p.data ∧
    b.decode history = p.content

namespace Frame

variable (f : Frame)

/-- Blocks that stand for their contents, one after the other. -/
def Stand : List UInt8 → List Piece → Prop
  | _, [] => True
  | history, p :: rest => p.Stands f.blockSize history ∧ Stand (f.extend history p.content) rest

/-- The blocks of the frame stand for their contents after a dictionary. -/
structure Sound (dict : List UInt8) : Prop where
  blockSizeID : 4 ≤ f.desc.blockSizeID.val
  stand : f.Stand dict f.pieces

/-- A frame that respects the format. -/
structure Valid (dict : List UInt8) : Prop extends f.Sound dict where
  blockChecksum : f.desc.blockChecksum = true → ∀ p ∈ f.pieces, p.checksum = xxh32 p.data 0
  contentChecksum : f.desc.contentChecksum = true → f.checksum = xxh32 f.content 0
  contentSize : ∀ n, f.desc.contentSize = some n → n.toNat = f.content.length

variable {f}

theorem Sound.blockSize_le {dict : List UInt8} (sound : f.Sound dict) :
    kb64 ≤ f.blockSize ∧ f.blockSize ≤ 4 * 1024 * 1024 := by
  have hlow := sound.blockSizeID
  unfold blockSize
  generalize f.desc.blockSizeID = id at hlow
  revert id
  decide

end Frame

/-- A compressed block is not empty. -/
theorem Piece.Stands.data_pos {size : Nat} {history : List UInt8} {p : Piece}
    (stands : p.Stands size history) (hraw : p.raw = false) : 0 < p.data.length := by
  obtain ⟨b, -, hdata, -⟩ := stands.decodes hraw
  rw [← hdata, Block.encode, List.length_append, length_encodeLast]
  omega

end Lz4.Lz4f
