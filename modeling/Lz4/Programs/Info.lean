import Lz4.Encoder.Fast
import Lz4.Frame.Begin
import Lz4.Frame.Format
import Lz4.Lib.Stdio

/-!
# `LZ4IO_getCompressedFileInfo`

The `--list` command goes through a file frame by frame without decoding it: it reads the header
of a frame, and then the size fields of its blocks, and seeks over the rest.  It reports a row
for each frame, with the size of the frame.

`Member` is a frame of a file, `fileOf` a file of several ones.
-/

namespace Lz4.Programs

open FlatMemory Machine Stdio
open Lz4f (FrameInfo Frame Piece Descriptor magicNumber isSkippable overwrite headerSize
  getFrameInfo)

/-! ## Constants and records -/

def legacyMagicNumber : Nat := 0x184C2102

/-- `LZ4IO_LEGACY_BLOCK_SIZE_MAX`, which is also `LEGACY_BLOCKSIZE` -/
def legacyBlockSizeMax : Nat := 8 * 1024 * 1024

/-- `LZ4IO_frameType_t` -/
inductive FrameType
  | lz4Frame
  | legacyFrame
  | skippableFrame
  deriving Repr, DecidableEq

/-- `LZ4IO_frameInfo_t` -/
structure IoFrameInfo where
  lz4FrameInfo : FrameInfo := { blockSizeID := 4 }
  frameType : FrameType := .lz4Frame
  deriving Repr, DecidableEq

/-- `LZ4IO_cFileInfo_t`, without the name. -/
structure CFileInfo where
  fileSize : Nat := 0
  frameCount : Nat := 0
  frameSummary : IoFrameInfo := {}
  eqFrameTypes : Bool := true
  eqBlockTypes : Bool := true
  allContentSize : Bool := true
  deriving Repr, DecidableEq

/-- `LZ4IO_infoResult` -/
inductive InfoResult
  | ok
  | formatNotKnown
  | notAFile
  deriving Repr, DecidableEq

/-! ## Skipping blocks -/

/-- The variables of `LZ4IO_skipBlocksData`. -/
structure BlockSkip where
  file : File
  blockInfo : List UInt8
  totalBlocksSize : Nat

/-- One round of `LZ4IO_skipBlocksData`.  A short read leaves the end of `blockInfo` as it was. -/
def skipBlocksPass (blockChecksumFlag contentChecksumFlag : Nat) (s : BlockSkip) :
    Step BlockSkip (Nat × File) :=
  let (bytes, file) := s.file.fread 4
  if bytes.length = 0 then .done (if file.eof then s.totalBlocksSize else 0, file)
  else
    let blockInfo := overwrite s.blockInfo 0 bytes
    let totalBlocksSize := s.totalBlocksSize + 4
    let nextCBlockSize := leValue (blockInfo.take 4) &&& 0x7FFFFFFF
    let nextBlock := nextCBlockSize + blockChecksumFlag * 4
    if nextCBlockSize = 0 then
      -- reached EndMark
      if contentChecksumFlag ≠ 0 then .done (totalBlocksSize + 4, file.fseek 4)
      else .done (totalBlocksSize, file)
    else .next ⟨file.fseek nextBlock, blockInfo, totalBlocksSize + nextBlock⟩

/-- `LZ4IO_skipBlocksData`; `blockInfo` is what the array holds before it is written. -/
def skipBlocksData (blockInfo : List UInt8) (file : File)
    (blockChecksumFlag contentChecksumFlag : Nat) : Option (Nat × File) :=
  iterate (fun s => some (skipBlocksPass blockChecksumFlag contentChecksumFlag s))
    (file.data.length + 2) ⟨file, blockInfo, 0⟩

/-- One round of `LZ4IO_skipLegacyBlocksData`; the size is missing if the frame is undecodable. -/
def skipLegacyBlocksPass (s : File × Nat) : Step (File × Nat) (Option Nat × File) :=
  let (bytes, file) := s.1.fread 4
  if bytes.length = 0 then .done (if file.eof then some s.2 else none, file)
  else if bytes.length ≠ 4 then .done (none, file)
  else
    let nextCBlockSize := leValue bytes
    if nextCBlockSize = legacyMagicNumber ∨ nextCBlockSize = magicNumber ∨
        isSkippable nextCBlockSize then
      -- rewind: the cursor goes to the beginning of the next frame
      .done (some s.2, file.fseek (-4))
    else if nextCBlockSize > legacyBlockSizeMax then .done (none, file)
    else .next (file.fseek nextCBlockSize, s.2 + (4 + nextCBlockSize))

/-- `LZ4IO_skipLegacyBlocksData` -/
def skipLegacyBlocksData (file : File) : Option (Option Nat × File) :=
  iterate (fun s => some (skipLegacyBlocksPass s)) (file.data.length + 2) (file, 0)

/-! ## The loop over frames -/

/-- What one frame leads to: `END_PROCESS`, an unknown format, or a row with the size. -/
inductive Entry
  | exit (code : Nat)
  | unknown (info : CFileInfo)
  | row (file : File) (buffer : List UInt8) (info : CFileInfo) (frameInfo : IoFrameInfo)
    (size : Nat)

/-- The array `buffer` in memory. -/
def bufferMem (buffer : List UInt8) : Mem := Mem.store (fun _ => 0) 1 buffer

/-- The rest of a header behind its first 7 bytes, and whether there is nothing left to read. -/
def readExtra (file : File) (buffer : List UInt8) (hSize : Nat) : Bool × List UInt8 × File :=
  if hSize > 7 + 4 then
    let (bytes, file) := file.fread (hSize - 7)
    (decide (bytes.length = 0), overwrite buffer 7 bytes, file)
  else (false, buffer, file)

/-- What follows the header of an LZ4 frame. -/
def lz4Row (blockInfo : List UInt8) (file : File) (buffer : List UInt8) (info : CFileInfo)
    (frameInfo : FrameInfo) (hSize : Nat) : Option Entry :=
  (skipBlocksData blockInfo file frameInfo.blockChecksumFlag frameInfo.contentChecksumFlag).map
    fun (totalBlocksSize, file) =>
      if totalBlocksSize = 0 then .unknown info
      else if frameInfo.contentSize ≠ 0 then
        .row file buffer info
          { lz4FrameInfo := { frameInfo with contentSize := frameInfo.contentSize +
              info.frameSummary.lz4FrameInfo.contentSize } } (totalBlocksSize + hSize)
      else
        .row file buffer { info with allContentSize := false } { lz4FrameInfo := frameInfo }
          (totalBlocksSize + hSize)

/-- The case `LZ4IO_MAGICNUMBER`; the context is taken to be allocated. -/
def lz4Entry (blockInfo : List UInt8) (file : File) (buffer : List UInt8) (info : CFileInfo) :
    Option Entry :=
  let info := if info.frameSummary.frameType ≠ .lz4Frame then { info with eqFrameTypes := false }
    else info
  let (bytes, file) := file.fread 3
  if bytes.length = 0 then some (.exit 71)
  else
    let buffer := overwrite buffer 4 bytes
    match headerSize (bufferMem buffer) 1 7 with
    | .error _ => some (.unknown info)
    | .ok hSize =>
      let (short, buffer, file) := readExtra file buffer hSize
      if short then some (.exit 72)
      else
        (getFrameInfo true 0 0 {} (bufferMem buffer) 1 hSize).bind fun q =>
          match q.code, q.info with
          | .ok _, some frameInfo =>
            let info :=
              if (info.frameSummary.lz4FrameInfo.blockSizeID ≠ frameInfo.blockSizeID ∨
                  info.frameSummary.lz4FrameInfo.blockMode ≠ frameInfo.blockMode) ∧
                  info.frameCount ≠ 0 then { info with eqBlockTypes := false }
              else info
            lz4Row blockInfo file buffer info frameInfo q.srcRead
          | _, _ => some (.unknown info)

/-- What a frame that is not an LZ4 frame does to the summary. -/
def CFileInfo.other (info : CFileInfo) (frameType : FrameType) : CFileInfo :=
  { info with
    eqFrameTypes := info.eqFrameTypes &&
      !decide (info.frameSummary.frameType ≠ frameType ∧ info.frameCount ≠ 0),
    eqBlockTypes := false, allContentSize := false }

/-- The case `LEGACY_MAGICNUMBER` -/
def legacyEntry (file : File) (buffer : List UInt8) (info : CFileInfo) : Option Entry :=
  let info := info.other .legacyFrame
  (skipLegacyBlocksData file).map fun (totalBlocksSize, file) =>
    match totalBlocksSize with
    | none => .unknown info
    | some totalBlocksSize =>
      if totalBlocksSize = 0 then .unknown info
      else .row file buffer info { frameType := .legacyFrame } (totalBlocksSize + 4)

/-- The case `LZ4IO_SKIPPABLE0`; the size in the row is an `unsigned`. -/
def skippableEntry (file : File) (buffer : List UInt8) (info : CFileInfo) : Option Entry :=
  let info := info.other .skippableFrame
  let (bytes, file) := file.fread 4
  if bytes.length ≠ 4 then some (.exit 42)
  else
    let buffer := overwrite buffer 0 bytes
    let size := leValue (buffer.take 4)
    -- `fseek_u32` does nothing for a size of zero
    let file := if size = 0 then file else file.fseek size
    some (.row file buffer info { frameType := .skippableFrame } ((size + 8) % 2 ^ 32))

/-- The variables of the loop, and the sizes in the rows so far. -/
structure Listing where
  file : File
  buffer : List UInt8
  info : CFileInfo
  result : InfoResult
  sizes : List Nat

/-- How the function ends: it exits the program, or returns. -/
inductive InfoOutcome
  | exit (code : Nat)
  | returned (result : InfoResult) (info : CFileInfo) (sizes : List Nat)
  deriving Repr, DecidableEq

/-- The body of the loop from the magic number on. -/
def infoEntry (blockInfo : List UInt8) (file : File) (buffer : List UInt8) (info : CFileInfo) :
    Option Entry :=
  let magic := leValue (buffer.take 4)
  if isSkippable magic then skippableEntry file buffer info
  else if magic = magicNumber then lz4Entry blockInfo file buffer info
  else if magic = legacyMagicNumber then legacyEntry file buffer info
  else some (.unknown info)

/-- One round of the loop. -/
def infoPass (blockInfo : List UInt8) (s : Listing) : Option (Step Listing InfoOutcome) :=
  if s.file.eof then some (.done (.returned s.result s.info s.sizes))
  else
    let (bytes, file) := s.file.fread 4
    if bytes.length = 0 then some (.done (.returned s.result s.info s.sizes))
    else if bytes.length ≠ 4 then some (.done (.exit 40))
    else
      (infoEntry blockInfo file (overwrite s.buffer 0 bytes) s.info).map fun
        | .exit code => .done (.exit code)
        | .unknown info => .done (.returned .formatNotKnown info s.sizes)
        | .row file buffer info frameInfo size =>
          .next ⟨file, buffer,
            { info with frameSummary := frameInfo, frameCount := info.frameCount + 1 }, .ok,
            s.sizes ++ [size]⟩

/-- `LZ4IO_getCompressedFileInfo` for a file that can be opened.  The arrays `buffer` and
`blockInfo` hold anything before they are written. -/
def getCompressedFileInfo (buffer blockInfo data : List UInt8) : Option InfoOutcome :=
  iterate (infoPass blockInfo) (data.length + 2)
    ⟨{ data }, buffer, { fileSize := data.length }, .formatNotKnown, []⟩

/-! ## Files -/

/-- A frame of a file: an LZ4 frame, a skippable frame with one of the 16 magic numbers, or a
legacy frame. -/
inductive Member
  | lz4 (f : Frame)
  | skippable (id : Fin 16) (content : List UInt8)
  | legacy (blocks : List (List UInt8))

/-- A block of a legacy frame, with its size. -/
def legacyBlock (block : List UInt8) : List UInt8 := leBytes 4 block.length ++ block

/-- The capacity that `LZ4IO_compressLegacy_internal` gives to the compressor of a chunk. -/
def legacyCapacity : Nat := (compressBound legacyBlockSizeMax).toNat + 4

/-- What `LZ4IO_compressLegacy_internal` writes behind the magic number: the input in chunks of
8 MB, each compressed. -/
def legacyBlocks (compress : List UInt8 → List UInt8) (input : List UInt8) : List (List UInt8) :=
  (input.toChunks legacyBlockSizeMax).map compress

namespace Member

def bytes : Member → List UInt8
  | .lz4 f => f.bytes
  | .skippable id content =>
    leBytes 4 (Lz4f.magicSkippableStart + id) ++ (leBytes 4 content.length ++ content)
  | .legacy blocks => leBytes 4 legacyMagicNumber ++ blocks.flatMap legacyBlock

/-- A frame of one of the three formats. -/
def Valid : Member → Prop
  | .lz4 f => ∃ dict, f.Valid dict
  | .skippable _ content => content.length < 2 ^ 32
  | .legacy blocks => ∃ compress input, (∀ chunk, (compress chunk).length ≤ legacyCapacity) ∧
      blocks = legacyBlocks compress input

/-- The frames that the command can list: the optional fields of a header come with the content
size or not at all, no block is empty, a legacy frame has blocks, of at most 8 MB, and the size
of a skippable frame is an `unsigned`. -/
def Listable : Member → Prop
  | .lz4 f => (f.desc.dictID.isSome → f.desc.contentSize.isSome) ∧ ∀ p ∈ f.pieces, p.data ≠ []
  | .skippable _ content => content.length + 8 < 2 ^ 32
  | .legacy blocks => blocks ≠ [] ∧ ∀ block ∈ blocks, block.length ≤ legacyBlockSizeMax

end Member

/-- The file with these frames. -/
def fileOf (members : List Member) : List UInt8 := members.flatMap Member.bytes

/-- The file is listed with all its frames, and the sizes of the frames add up to its size. -/
def Lists (buffer blockInfo : List UInt8) (members : List Member) : Prop :=
  ∃ info sizes, getCompressedFileInfo buffer blockInfo (fileOf members) =
      some (.returned .ok info sizes) ∧
    info.frameCount = members.length ∧ sizes.sum = (fileOf members).length

end Lz4.Programs
