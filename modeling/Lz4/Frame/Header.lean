import Lz4.Frame.Xxh32

/-!
# Frame parameters and the frame header

What `lz4frame.c` keeps about a frame (`FrameInfo`), how the header is written
(`FrameInfo.header`), and how the decompression context reads it (`decodeHeader`).  A
header starts with the magic number, is followed by the flag byte, the block descriptor,
an optional content size and an optional dictionary identifier, and ends with one byte of
checksum.

The writer is `FrameInfo.header`, the reader `decodeHeader`; `headerSize` reads the size of
a header off its first five bytes.  Skippable frames have their own magic numbers and only a
size, which the later stages of the decompression context read.
-/

namespace Lz4.Lz4f

open FlatMemory

/-! ## Error codes -/

/-- `LZ4F_errorCodes` -/
inductive FrameError
  | generic
  | maxBlockSize_invalid
  | blockMode_invalid
  | parameter_invalid
  | compressionLevel_invalid
  | headerVersion_wrong
  | blockChecksum_invalid
  | reservedFlag_set
  | allocation_failed
  | srcSize_tooLarge
  | dstMaxSize_tooSmall
  | frameHeader_incomplete
  | frameType_unknown
  | frameSize_wrong
  | srcPtr_wrong
  | decompressionFailed
  | headerChecksum_invalid
  | contentChecksum_invalid
  | frameDecoding_alreadyStarted
  | compressionState_uninitialized
  | parameter_null
  | io_write
  | io_read
  deriving Repr, DecidableEq

/-- The position of an error in `LZ4F_LIST_ERRORS`. -/
def FrameError.code (e : FrameError) : Nat := e.ctorIdx + 1

/-- `LZ4F_returnErrorCode`: the negated code as a `size_t`. -/
def returnErrorCode (e : FrameError) : Nat := 2 ^ 64 - e.code

/-- A `size_t` that is a number or an error. -/
abbrev Code := Except FrameError Nat

/-! ## Constants -/

def magicNumber : Nat := 0x184D2204
def magicSkippableStart : Nat := 0x184D2A50
def minFHSize : Nat := 7
def maxFHSize : Nat := 19
/-- block header: size, and compress flag -/
def bhSize : Nat := 4
/-- block footer: checksum -/
def bfSize : Nat := 4
/-- `64 KB`, the window of a block -/
def kb64 : Nat := 65536

/-! ## Frame parameters -/

/-- `LZ4F_frameInfo_t`.  The enumerations of the interface are plain integers, since a
caller may store any value in them. -/
structure FrameInfo where
  blockSizeID : Nat := 0
  /-- `0` is `LZ4F_blockLinked`, `1` is `LZ4F_blockIndependent` -/
  blockMode : Nat := 0
  contentChecksumFlag : Nat := 0
  /-- `0` is `LZ4F_frame`, `1` is `LZ4F_skippableFrame` -/
  frameType : Nat := 0
  contentSize : UInt64 := 0
  dictID : UInt32 := 0
  blockChecksumFlag : Nat := 0
  deriving Repr, DecidableEq

/-- `LZ4F_getBlockSize`; an invalid identifier gives an error code, which is a number. -/
def getBlockSize (blockSizeID : Nat) : Nat :=
  let blockSizeID := if blockSizeID = 0 then 4 else blockSizeID
  if blockSizeID < 4 ∨ 7 < blockSizeID then returnErrorCode .maxBlockSize_invalid
  else [64 * 1024, 256 * 1024, 1024 * 1024, 4 * 1024 * 1024].getD (blockSizeID - 4) 0

/-- `LZ4F_headerChecksum` -/
def headerChecksum (header : List UInt8) : UInt8 := (xxh32 header 0 >>> 8).toUInt8

/-! ## Writing -/

/-- The FLG byte. -/
def FrameInfo.flg (info : FrameInfo) : UInt8 :=
  UInt8.ofNat (((1 &&& 3) <<< 6) + ((info.blockMode &&& 1) <<< 5) +
    ((info.blockChecksumFlag &&& 1) <<< 4) + ((if 0 < info.contentSize then 1 else 0) <<< 3) +
    ((info.contentChecksumFlag &&& 1) <<< 2) + (if 0 < info.dictID then 1 else 0))

/-- The BD byte. -/
def FrameInfo.bd (info : FrameInfo) : UInt8 := UInt8.ofNat ((info.blockSizeID &&& 7) <<< 4)

/-- The fields of the header between the magic number and the checksum byte. -/
def FrameInfo.descriptor (info : FrameInfo) : List UInt8 :=
  [info.flg, info.bd] ++
    (if info.contentSize ≠ 0 then leBytes 8 info.contentSize.toNat else []) ++
    (if info.dictID ≠ 0 then leBytes 4 info.dictID.toNat else [])

/-- The frame header as it is written. -/
def FrameInfo.header (info : FrameInfo) : List UInt8 :=
  leBytes 4 magicNumber ++ info.descriptor ++ [headerChecksum info.descriptor]

/-! ## The decompression context -/

/-- `dStage_t` -/
inductive Stage
  | getFrameHeader
  | storeFrameHeader
  | init
  | getBlockHeader
  | storeBlockHeader
  | copyDirect
  | getBlockChecksum
  | getCBlock
  | storeCBlock
  | flushOut
  | getSuffix
  | storeSuffix
  | getSFrameSize
  | storeSFrameSize
  | skipSkippable
  deriving Repr, DecidableEq

/-- The order of the enumeration. -/
def Stage.index (s : Stage) : Nat := s.ctorIdx

/-- `LZ4F_dctx`.  `tmpIn` and `tmpOutBuffer` are the two blocks the context owns, `NULL`
before the first frame; `header` is an array inside the context. -/
structure Dctx where
  frameInfo : FrameInfo := {}
  dStage : Stage := .getFrameHeader
  frameRemainingSize : UInt64 := 0
  maxBlockSize : Nat := 0
  maxBufferSize : Nat := 0
  tmpIn : Int := 0
  tmpInSize : Nat := 0
  tmpInTarget : Nat := 0
  tmpOutBuffer : Int := 0
  dict : Int := 0
  dictSize : Nat := 0
  tmpOut : Int := 0
  tmpOutSize : Nat := 0
  tmpOutStart : Nat := 0
  xxh : Xxh32State := ⟨0, false, ⟨0, 0, 0, 0⟩, []⟩
  blockChecksum : Xxh32State := ⟨0, false, ⟨0, 0, 0, 0⟩, []⟩
  skipChecksum : Bool := false
  header : List UInt8 := List.replicate 19 0
  deriving Repr, DecidableEq

/-- `bytes` written into an array from position `i` on. -/
def overwrite (array : List UInt8) (i : Nat) (bytes : List UInt8) : List UInt8 :=
  array.take i ++ bytes ++ array.drop (i + bytes.length)

/-- `LZ4F_resetDecompressionContext` -/
def Dctx.resetDecompressionContext (d : Dctx) : Dctx :=
  { d with
    dStage := .getFrameHeader, dict := 0, dictSize := 0, skipChecksum := false,
    frameRemainingSize := 0 }

/-! ## Reading -/

/-- A magic number of a skippable frame. -/
def isSkippable (magic : Nat) : Bool := magic &&& 0xFFFFFFF0 = magicSkippableStart

/-- `LZ4F_decodeHeader`.  `inHeader` tells whether the bytes lie in the context's own
array, which is where the caller collects a header that arrives in pieces. -/
def decodeHeader (d : Dctx) (src : List UInt8) (inHeader : Bool) : Dctx × Code :=
  -- minimal frame header size
  if src.length < minFHSize then (d, .error .frameHeader_incomplete) else
  let d := { d with frameInfo := {} }
  let magic := leValue (src.take 4)
  -- special case: skippable frames
  if isSkippable magic then
    let d := { d with frameInfo := { frameType := 1 } }
    if inHeader then
      ({ d with tmpInSize := src.length, tmpInTarget := 8, dStage := .storeSFrameSize },
        .ok src.length)
    else ({ d with dStage := .getSFrameSize }, .ok 4)
  -- control magic number
  else if magic ≠ magicNumber then (d, .error .frameType_unknown)
  else
  -- flags
  let flg := (src.getD 4 0).toNat
  let version := (flg >>> 6) &&& 3
  let blockChecksumFlag := (flg >>> 4) &&& 1
  let blockMode := (flg >>> 5) &&& 1
  let contentSizeFlag := (flg >>> 3) &&& 1
  let contentChecksumFlag := (flg >>> 2) &&& 1
  let dictIDFlag := flg &&& 1
  if (flg >>> 1) &&& 1 ≠ 0 then (d, .error .reservedFlag_set)
  else if version ≠ 1 then (d, .error .headerVersion_wrong)
  else
  let frameHeaderSize := minFHSize + (if contentSizeFlag ≠ 0 then 8 else 0) +
    (if dictIDFlag ≠ 0 then 4 else 0)
  if src.length < frameHeaderSize then
    -- not enough input to fully decode the frame header
    ({ d with
        header := if inHeader then d.header else overwrite d.header 0 src,
        tmpInSize := src.length, tmpInTarget := frameHeaderSize, dStage := .storeFrameHeader },
      .ok src.length)
  else
  let bd := (src.getD 5 0).toNat
  let blockSizeID := (bd >>> 4) &&& 7
  if (bd >>> 7) &&& 1 ≠ 0 then (d, .error .reservedFlag_set)
  else if blockSizeID < 4 then (d, .error .maxBlockSize_invalid)
  else if (bd >>> 0) &&& 15 ≠ 0 then (d, .error .reservedFlag_set)
  -- check header
  else if headerChecksum ((src.drop 4).take (frameHeaderSize - 5)) ≠
      src.getD (frameHeaderSize - 1) 0 then
    (d, .error .headerChecksum_invalid)
  else
  let contentSize := UInt64.ofNat (leValue ((src.drop 6).take 8))
  ({ d with
      frameInfo :=
        { blockMode, blockChecksumFlag, contentChecksumFlag, blockSizeID,
          contentSize := if contentSizeFlag ≠ 0 then contentSize else 0,
          dictID := if dictIDFlag ≠ 0 then readLE32 (src.drop (frameHeaderSize - 5)) else 0 },
      maxBlockSize := getBlockSize blockSizeID,
      frameRemainingSize := if contentSizeFlag ≠ 0 then contentSize else d.frameRemainingSize,
      dStage := .init },
    .ok frameHeaderSize)

/-- `LZ4F_headerSize` -/
def headerSize (m : Mem) (src : Int) (srcSize : Nat) : Code :=
  if src = 0 then .error .srcPtr_wrong
  else if srcSize < 5 then .error .frameHeader_incomplete
  else
  let magic := leValue (m.bytes src 4)
  if isSkippable magic then .ok 8
  else if magic ≠ magicNumber then .error .frameType_unknown
  else
  let flg := (m (src + 4)).toNat
  let contentSizeFlag := (flg >>> 3) &&& 1
  let dictIDFlag := flg &&& 1
  .ok (minFHSize + (if contentSizeFlag ≠ 0 then 8 else 0) + (if dictIDFlag ≠ 0 then 4 else 0))

end Lz4.Lz4f
