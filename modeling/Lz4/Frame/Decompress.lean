import Lz4.Decoder.Generic
import Lz4.Frame.Header
import Lz4.Lib.Machine

/-!
# The frame decompressor

`LZ4F_decompress` is a state machine.  A call is a loop over `switch(dctx->dStage)`; one
pass through the switch is `pass`, with one definition for each label a stage can fall
through to.  A pass goes on to the next one (`doAnotherStage`), stops the loop with a hint
for the caller, or returns at once, which is what errors do; only a loop that stops reaches
the code behind it, which moves the history into the context's own buffer
(`preserveHistory`).

Memory is flat: the caller's buffers, the dictionary and the two blocks of the context are
ranges of it.  The two requests to `malloc` are answered by the call's `tmpInBlock` and
`tmpOutBlock`.
-/

namespace Lz4.Lz4f

open FlatMemory Machine

/-- The arguments of a call, the options, and what the environment adds: the build of the
block decoder and the answers of the allocator, `0` for a failure. -/
structure DecompressCall where
  dst : Int
  dstSize : Nat
  src : Int
  srcSize : Nat
  stableDst : Bool := false
  skipChecksums : Bool := false
  fastDecLoop : Bool := true
  tmpInBlock : Int := 0
  tmpOutBlock : Int := 0
  deriving Repr, DecidableEq

/-- The variables of the loop. -/
structure Loop where
  dctx : Dctx
  mem : Mem
  srcPtr : Int
  dstPtr : Int

/-- How a call leaves the loop: through the end of it, with `nextSrcSizeHint`, or by a
`return`. -/
inductive Ending
  | stop (s : Loop) (nextSrcSizeHint : Nat)
  | ret (s : Loop) (code : Code)

namespace DecompressCall

def srcEnd (c : DecompressCall) : Int := c.src + c.srcSize

def dstEnd (c : DecompressCall) : Int := if c.dst ≠ 0 then c.dst + c.dstSize else 0

/-- Input left. -/
def left (c : DecompressCall) (s : Loop) : Nat := (c.srcEnd - s.srcPtr).toNat

/-- Room left in the output. -/
def room (c : DecompressCall) (s : Loop) : Nat := (c.dstEnd - s.dstPtr).toNat

end DecompressCall

namespace Loop

/-- The `n` bytes at the input pointer. -/
def input (s : Loop) (n : Nat) : List UInt8 := s.mem.bytes s.srcPtr n

/-- `n` input bytes appended to those in `tmpIn`. -/
def storeInput (s : Loop) (n : Nat) : Loop :=
  { s with
    mem := s.mem.copy (s.dctx.tmpIn + s.dctx.tmpInSize) s.srcPtr n
    dctx := { s.dctx with tmpInSize := s.dctx.tmpInSize + n }
    srcPtr := s.srcPtr + n }

/-- `n` input bytes appended to those in the array `header`. -/
def storeHeader (s : Loop) (n : Nat) : Loop :=
  { s with
    dctx := { s.dctx with
      header := overwrite s.dctx.header s.dctx.tmpInSize (s.input n)
      tmpInSize := s.dctx.tmpInSize + n }
    srcPtr := s.srcPtr + n }

end Loop

/-! ## History -/

/-- The part of the history that `LZ4F_updateDict` and the end of a call copy in front of
the block in `tmpOut`. -/
def Dctx.copySize (d : Dctx) (preserveSize : Nat) : Nat :=
  min (if kb64 < d.tmpOutSize then 0 else kb64 - d.tmpOutSize) preserveSize

/-- `LZ4F_updateDict` -/
def updateDict (d : Dctx) (m : Mem) (dstPtr : Int) (dstSize : Nat) (dstBufferStart : Int)
    (withinTmp : Bool) : Dctx × Mem :=
  let d := if d.dictSize = 0 then { d with dict := dstPtr } else d
  -- prefix mode, everything within dstBuffer
  if d.dict + d.dictSize = dstPtr then ({ d with dictSize := d.dictSize + dstSize }, m)
  -- history in dstBuffer becomes large enough to become dictionary
  else if kb64 ≤ (dstPtr - dstBufferStart).toNat + dstSize then
    ({ d with dict := dstBufferStart, dictSize := (dstPtr - dstBufferStart).toNat + dstSize }, m)
  -- continue history within tmpOutBuffer
  else if withinTmp ∧ d.dict = d.tmpOutBuffer then
    ({ d with dictSize := d.dictSize + dstSize }, m)
  else if withinTmp then
    -- copy relevant dict portion in front of tmpOut within tmpOutBuffer
    let preserveSize := (d.tmpOut - d.tmpOutBuffer).toNat
    let copySize := d.copySize preserveSize
    let oldDictEnd := d.dict + d.dictSize - d.tmpOutStart
    ({ d with dict := d.tmpOutBuffer, dictSize := preserveSize + d.tmpOutStart + dstSize },
      m.copy (d.tmpOutBuffer + preserveSize - copySize) (oldDictEnd - copySize) copySize)
  else if d.dict = d.tmpOutBuffer then
    -- copy dst into tmp to complete dict
    let preserveSize := kb64 - dstSize
    let full := d.maxBufferSize < d.dictSize + dstSize
    let m := if full then
        m.copy d.tmpOutBuffer (d.dict + d.dictSize - preserveSize) preserveSize else m
    let dictSize := if full then preserveSize else d.dictSize
    ({ d with dictSize := dictSize + dstSize }, m.copy (d.tmpOutBuffer + dictSize) dstPtr dstSize)
  else
    -- join dict & dest into tmp
    let preserveSize := min (kb64 - dstSize) d.dictSize
    let m := m.copy d.tmpOutBuffer (d.dict + d.dictSize - preserveSize) preserveSize
    ({ d with dict := d.tmpOutBuffer, dictSize := preserveSize + dstSize },
      m.copy (d.tmpOutBuffer + preserveSize) dstPtr dstSize)

/-- The code behind the loop: preserve history within tmpOut whenever necessary. -/
def preserveHistory (c : DecompressCall) (d : Dctx) (m : Mem) : Dctx × Mem :=
  if d.frameInfo.blockMode = 0 ∧ d.dict ≠ d.tmpOutBuffer ∧ d.dict ≠ 0 ∧ ¬ c.stableDst ∧
      Stage.init.index ≤ d.dStage.index ∧ d.dStage.index < Stage.getSuffix.index then
    if d.dStage = .flushOut then
      let preserveSize := (d.tmpOut - d.tmpOutBuffer).toNat
      let copySize := d.copySize preserveSize
      let oldDictEnd := d.dict + d.dictSize - d.tmpOutStart
      ({ d with dict := d.tmpOutBuffer, dictSize := preserveSize + d.tmpOutStart },
        m.copy (d.tmpOutBuffer + preserveSize - copySize) (oldDictEnd - copySize) copySize)
    else
      let oldDictEnd := d.dict + d.dictSize
      let newDictSize := min d.dictSize kb64
      ({ d with
          dict := d.tmpOutBuffer, dictSize := newDictSize, tmpOut := d.tmpOutBuffer + newDictSize },
        m.copy d.tmpOutBuffer (oldDictEnd - newDictSize) newDictSize)
  else (d, m)

/-! ## Bookkeeping of decoded bytes -/

/-- The content checksum and the size still to come, after `bytes` of content. -/
def Dctx.produced (d : Dctx) (bytes : List UInt8) : Dctx :=
  { d with
    xxh := if d.frameInfo.contentChecksumFlag ≠ 0 ∧ ¬ d.skipChecksum then d.xxh.update bytes
      else d.xxh
    frameRemainingSize := if d.frameInfo.contentSize ≠ 0 then
        d.frameRemainingSize - UInt64.ofNat bytes.length else d.frameRemainingSize }

/-- The dictionary as it is passed to the block decoder, whose size argument is an `int`. -/
def Dctx.blockDict (d : Dctx) : Int × Nat :=
  if d.dict ≠ 0 ∧ 2 ^ 30 < d.dictSize then (d.dict + (d.dictSize - kb64 : Nat), kb64)
  else (d.dict, d.dictSize)

/-! ## The stages -/

section Stages

variable (c : DecompressCall)

/-- What `dstage_flushOut` copies from `tmpOut` to the output, if there is one. -/
def flushTmpOut (s : Loop) : Loop :=
  if s.dstPtr ≠ 0 then
    let sizeToCopy := min (s.dctx.tmpOutSize - s.dctx.tmpOutStart) (c.room s)
    let m := s.mem.copy s.dstPtr (s.dctx.tmpOut + s.dctx.tmpOutStart) sizeToCopy
    -- dictionary management
    let (d, m) := if s.dctx.frameInfo.blockMode = 0 then
        updateDict s.dctx m s.dstPtr sizeToCopy c.dst true else (s.dctx, m)
    { s with
      dctx := { d with tmpOutStart := d.tmpOutStart + sizeToCopy }
      mem := m
      dstPtr := s.dstPtr + sizeToCopy }
  else s

/-- `dstage_flushOut` -/
def flushOut (s : Loop) : Step Loop Ending :=
  let s := flushTmpOut c s
  if s.dctx.tmpOutStart = s.dctx.tmpOutSize then
    .next { s with dctx := { s.dctx with dStage := .getBlockHeader } }
  else .done (.stop s bhSize)

/-- Decode the block at `selectedIn` directly into the destination buffer. -/
def decodeToDst (s : Loop) (selectedIn : Int) : Option (Step Loop Ending) :=
  let d := s.dctx
  match decompressSafeUsingDict c.fastDecLoop ⟨s.mem, []⟩ selectedIn s.dstPtr d.tmpInTarget
      d.maxBlockSize d.blockDict.1 d.blockDict.2 with
  | none => none
  | some (decodedSize, h) =>
    if decodedSize < 0 then
      some (.done (.ret { s with mem := h.mem } (.error .decompressionFailed)))
    else
      let n := decodedSize.toNat
      let d := d.produced (h.mem.bytes s.dstPtr n)
      -- dictionary management
      let (d, m) := if d.frameInfo.blockMode = 0 then
          updateDict d h.mem s.dstPtr n c.dst false else (d, h.mem)
      some (.next
        { s with dctx := { d with dStage := .getBlockHeader }, mem := m, dstPtr := s.dstPtr + n })

/-- Where the block is decoded when there is no room in the destination: behind the history,
which is cut to 64 KB first if it is too big. -/
def selectTmpOut (d : Dctx) (m : Mem) : Dctx × Mem :=
  if d.frameInfo.blockMode = 0 then
    if d.dict = d.tmpOutBuffer then
      if 2 * kb64 < d.dictSize then
        ({ d with dictSize := kb64, tmpOut := d.tmpOutBuffer + kb64 },
          m.copy d.tmpOutBuffer (d.dict + d.dictSize - kb64) kb64)
      else ({ d with tmpOut := d.tmpOutBuffer + d.dictSize }, m)
    else
      let reservedDictSpace := min d.dictSize kb64
      ({ d with tmpOut := d.tmpOutBuffer + reservedDictSpace }, m)
  else (d, m)

/-- Decode the block at `selectedIn` into tmpOut, and flush it. -/
def decodeToTmp (s : Loop) (selectedIn : Int) : Option (Step Loop Ending) :=
  let (d, m) := selectTmpOut s.dctx s.mem
  match decompressSafeUsingDict c.fastDecLoop ⟨m, []⟩ selectedIn d.tmpOut d.tmpInTarget
      d.maxBlockSize d.blockDict.1 d.blockDict.2 with
  | none => none
  | some (decodedSize, h) =>
    if decodedSize < 0 then
      some (.done (.ret { s with dctx := d, mem := h.mem } (.error .decompressionFailed)))
    else
      let n := decodedSize.toNat
      let d := d.produced (h.mem.bytes d.tmpOut n)
      some (flushOut c
        { s with
          dctx := { d with tmpOutSize := n, tmpOutStart := 0, dStage := .flushOut }
          mem := h.mem })

/-- A whole compressed block, with its checksum, stands at `selectedIn`. -/
def decodeBlock (s : Loop) (selectedIn : Int) : Option (Step Loop Ending) :=
  let crc := s.dctx.frameInfo.blockChecksumFlag
  let target : Nat := if crc ≠ 0 then s.dctx.tmpInTarget - 4 else s.dctx.tmpInTarget
  let d : Dctx := { s.dctx with tmpInTarget := target }
  let s : Loop := { s with dctx := d }
  -- first, decode and control block checksum if it exists
  if crc ≠ 0 ∧ readLE32 (s.mem.bytes (selectedIn + target) 4) ≠
      xxh32 (s.mem.bytes selectedIn target) 0 then
    some (.done (.ret s (.error .blockChecksum_invalid)))
  -- directly into destination buffer if there is enough room, unless the dictionary is
  -- stored in tmpOut
  else if d.maxBlockSize ≤ c.room s ∧ ¬ (d.dict ≠ 0 ∧ d.dict + d.dictSize = d.tmpOut) then
    decodeToDst c s selectedIn
  else decodeToTmp c s selectedIn

/-- `dstage_storeCBlock` -/
def storeCBlock (s : Loop) : Option (Step Loop Ending) :=
  let s := s.storeInput (min (s.dctx.tmpInTarget - s.dctx.tmpInSize) (c.left s))
  if s.dctx.tmpInSize < s.dctx.tmpInTarget then
    -- need more input
    some (.done (.stop s (s.dctx.tmpInTarget - s.dctx.tmpInSize +
      (if s.dctx.frameInfo.blockChecksumFlag ≠ 0 then bfSize else 0) + bhSize)))
  else decodeBlock c s s.dctx.tmpIn

/-- `dstage_getCBlock` -/
def getCBlock (s : Loop) : Option (Step Loop Ending) :=
  if c.left s < s.dctx.tmpInTarget then
    some (.next { s with dctx := { s.dctx with tmpInSize := 0, dStage := .storeCBlock } })
  else decodeBlock c { s with srcPtr := s.srcPtr + s.dctx.tmpInTarget } s.srcPtr

/-- The block header at `selectedIn`. -/
def decodeBlockHeader (s : Loop) (selectedIn : Int) : Step Loop Ending :=
  let d := s.dctx
  let blockHeader := leValue (s.mem.bytes selectedIn 4)
  let nextCBlockSize := blockHeader &&& 0x7FFFFFFF
  let crcSize := d.frameInfo.blockChecksumFlag * bfSize
  if blockHeader = 0 then
    -- frameEnd signal, no more block
    .next { s with dctx := { d with dStage := .getSuffix } }
  else if d.maxBlockSize < nextCBlockSize then .done (.ret s (.error .maxBlockSize_invalid))
  else if blockHeader &&& 0x80000000 ≠ 0 then
    -- next block is uncompressed
    .next { s with
      dctx := { d with
        tmpInTarget := nextCBlockSize
        blockChecksum := if d.frameInfo.blockChecksumFlag ≠ 0 then .reset 0 else d.blockChecksum
        dStage := .copyDirect } }
  else
    -- next block is a compressed block
    let s := { s with
      dctx := { d with tmpInTarget := nextCBlockSize + crcSize, dStage := .getCBlock } }
    if s.dstPtr = c.dstEnd ∨ s.srcPtr = c.srcEnd then
      .done (.stop s (bhSize + nextCBlockSize + crcSize))
    else .next s

/-- `dstage_storeBlockHeader` -/
def storeBlockHeader (s : Loop) : Step Loop Ending :=
  let s := s.storeInput (min (bhSize - s.dctx.tmpInSize) (c.left s))
  if s.dctx.tmpInSize < bhSize then
    -- not enough input for cBlockSize
    .done (.stop s (bhSize - s.dctx.tmpInSize))
  else decodeBlockHeader c s s.dctx.tmpIn

/-- `dstage_getBlockHeader` -/
def getBlockHeader (s : Loop) : Step Loop Ending :=
  if bhSize ≤ c.left s then decodeBlockHeader c { s with srcPtr := s.srcPtr + bhSize } s.srcPtr
  else
    storeBlockHeader c
      { s with dctx := { s.dctx with tmpInSize := 0, dStage := .storeBlockHeader } }

/-- Internal buffers allocation; `none` if `malloc` fails. -/
def allocate (d : Dctx) : Dctx × Bool :=
  let bufferNeeded := d.maxBlockSize + (if d.frameInfo.blockMode = 0 then 2 * kb64 else 0)
  if d.maxBufferSize < bufferNeeded then
    -- tmp buffers too small
    let d := { d with maxBufferSize := 0, tmpIn := c.tmpInBlock }
    if d.tmpIn = 0 then (d, false) else
    let d := { d with tmpOutBuffer := c.tmpOutBlock }
    if d.tmpOutBuffer = 0 then (d, false) else
    ({ d with maxBufferSize := bufferNeeded }, true)
  else (d, true)

/-- `dstage_init` -/
def init (s : Loop) : Step Loop Ending :=
  let d := { s.dctx with
    xxh := if s.dctx.frameInfo.contentChecksumFlag ≠ 0 then .reset 0 else s.dctx.xxh }
  let (d, allocated) := allocate c d
  if ¬ allocated then .done (.ret { s with dctx := d } (.error .allocation_failed))
  else
    getBlockHeader c
      { s with
        dctx := { d with
          tmpInSize := 0, tmpInTarget := 0, tmpOut := d.tmpOutBuffer, tmpOutStart := 0
          tmpOutSize := 0, dStage := .getBlockHeader } }

/-- `dstage_storeFrameHeader` -/
def storeFrameHeader (s : Loop) : Step Loop Ending :=
  let s := s.storeHeader (min (s.dctx.tmpInTarget - s.dctx.tmpInSize) (c.left s))
  if s.dctx.tmpInSize < s.dctx.tmpInTarget then
    -- not enough src data, ask for some more: rest of header and next block header
    .done (.stop s (s.dctx.tmpInTarget - s.dctx.tmpInSize + bhSize))
  else
    match decodeHeader s.dctx (s.dctx.header.take s.dctx.tmpInTarget) true with
    | (d, .error e) => .done (.ret { s with dctx := d } (.error e))
    | (d, .ok _) => .next { s with dctx := d }

/-- `dstage_getFrameHeader` -/
def getFrameHeader (s : Loop) : Step Loop Ending :=
  if maxFHSize ≤ c.left s then
    -- enough to decode
    match decodeHeader s.dctx (s.input (c.left s)) false with
    | (d, .error e) => .done (.ret { s with dctx := d } (.error e))
    | (d, .ok hSize) => .next { s with dctx := d, srcPtr := s.srcPtr + hSize }
  else
    let s := { s with dctx := { s.dctx with tmpInSize := 0 } }
    -- 0-size input
    if c.left s = 0 then .done (.ret s (.ok minFHSize))
    else
      storeFrameHeader c
        { s with dctx := { s.dctx with tmpInTarget := minFHSize, dStage := .storeFrameHeader } }

/-- What `dstage_copyDirect` copies from the input to the output, if there is one. -/
def copyRaw (s : Loop) : Nat × Loop :=
  if s.dstPtr = 0 then (0, s)
  else
    let sizeToCopy := min s.dctx.tmpInTarget (min (c.left s) (c.room s))
    let m := s.mem.copy s.dstPtr s.srcPtr sizeToCopy
    let bytes := m.bytes s.srcPtr sizeToCopy
    let d := { s.dctx.produced bytes with
      blockChecksum := if s.dctx.frameInfo.blockChecksumFlag ≠ 0 ∧ ¬ s.dctx.skipChecksum then
        s.dctx.blockChecksum.update bytes else s.dctx.blockChecksum }
    -- history management (linked blocks only)
    let (d, m) := if d.frameInfo.blockMode = 0 then
        updateDict d m s.dstPtr sizeToCopy c.dst false else (d, m)
    (sizeToCopy,
      { dctx := d, mem := m, srcPtr := s.srcPtr + sizeToCopy, dstPtr := s.dstPtr + sizeToCopy })

/-- `dstage_copyDirect`: an uncompressed block. -/
def copyDirect (s : Loop) : Step Loop Ending :=
  let (sizeToCopy, s) := copyRaw c s
  if sizeToCopy = s.dctx.tmpInTarget then
    -- all done
    .next { s with
      dctx := if s.dctx.frameInfo.blockChecksumFlag ≠ 0 then
          { s.dctx with tmpInSize := 0, dStage := .getBlockChecksum }
        else { s.dctx with dStage := .getBlockHeader } }
  else
    -- need to copy more
    let s := { s with dctx := { s.dctx with tmpInTarget := s.dctx.tmpInTarget - sizeToCopy } }
    .done (.stop s (s.dctx.tmpInTarget +
      (if s.dctx.frameInfo.blockChecksumFlag ≠ 0 then bfSize else 0) + bhSize))

/-- The checksum of an uncompressed block that has been transferred. -/
def checkBlock (s : Loop) (crcSrc : List UInt8) : Step Loop Ending :=
  if ¬ s.dctx.skipChecksum ∧ readLE32 crcSrc ≠ s.dctx.blockChecksum.digest then
    .done (.ret s (.error .blockChecksum_invalid))
  else .next { s with dctx := { s.dctx with dStage := .getBlockHeader } }

/-- `dstage_getBlockChecksum` -/
def getBlockChecksum (s : Loop) : Step Loop Ending :=
  if 4 ≤ c.left s ∧ s.dctx.tmpInSize = 0 then
    checkBlock { s with srcPtr := s.srcPtr + 4 } (s.input 4)
  else
    let s := s.storeHeader (min (4 - s.dctx.tmpInSize) (c.left s))
    -- all input consumed
    if s.dctx.tmpInSize < 4 then .done (.stop s 1)
    else checkBlock s (s.dctx.header.take 4)

/-- The content checksum, read at `selectedIn`. -/
def checkSuffix (s : Loop) (selectedIn : Int) : Step Loop Ending :=
  if ¬ s.dctx.skipChecksum ∧ readLE32 (s.mem.bytes selectedIn 4) ≠ s.dctx.xxh.digest then
    .done (.ret s (.error .contentChecksum_invalid))
  else .done (.stop { s with dctx := s.dctx.resetDecompressionContext } 0)

/-- `dstage_storeSuffix` -/
def storeSuffix (s : Loop) : Step Loop Ending :=
  let s := s.storeInput (min (4 - s.dctx.tmpInSize) (c.left s))
  -- not enough input to read complete suffix
  if s.dctx.tmpInSize < 4 then .done (.stop s (4 - s.dctx.tmpInSize))
  else checkSuffix s s.dctx.tmpIn

/-- `dstage_getSuffix` -/
def getSuffix (s : Loop) : Step Loop Ending :=
  -- incorrect frame size decoded
  if s.dctx.frameRemainingSize ≠ 0 then .done (.ret s (.error .frameSize_wrong))
  -- no checksum, frame is completed
  else if s.dctx.frameInfo.contentChecksumFlag = 0 then
    .done (.stop { s with dctx := s.dctx.resetDecompressionContext } 0)
  else if c.left s < 4 then
    -- not enough size for entire CRC
    storeSuffix c { s with dctx := { s.dctx with tmpInSize := 0, dStage := .storeSuffix } }
  else checkSuffix { s with srcPtr := s.srcPtr + 4 } s.srcPtr

/-- The size of a skippable frame. -/
def decodeSFrameSize (s : Loop) (field : List UInt8) : Step Loop Ending :=
  let size := leValue field
  .next { s with
    dctx := { s.dctx with
      frameInfo := { s.dctx.frameInfo with contentSize := UInt64.ofNat size }
      tmpInTarget := size
      dStage := .skipSkippable } }

/-- `dstage_storeSFrameSize` -/
def storeSFrameSize (s : Loop) : Step Loop Ending :=
  let s := s.storeHeader (min (s.dctx.tmpInTarget - s.dctx.tmpInSize) (c.left s))
  if s.dctx.tmpInSize < s.dctx.tmpInTarget then
    -- not enough input to get full sBlockSize; wait for more
    .done (.stop s (s.dctx.tmpInTarget - s.dctx.tmpInSize))
  else decodeSFrameSize s ((s.dctx.header.drop 4).take 4)

/-- `dstage_getSFrameSize` -/
def getSFrameSize (s : Loop) : Step Loop Ending :=
  if 4 ≤ c.left s then decodeSFrameSize { s with srcPtr := s.srcPtr + 4 } (s.input 4)
  else
    storeSFrameSize c
      { s with
        dctx := { s.dctx with tmpInSize := 4, tmpInTarget := 8, dStage := .storeSFrameSize } }

/-- `dstage_skipSkippable` -/
def skipSkippable (s : Loop) : Step Loop Ending :=
  let skipSize := min s.dctx.tmpInTarget (c.left s)
  let s := { s with
    srcPtr := s.srcPtr + skipSize
    dctx := { s.dctx with tmpInTarget := s.dctx.tmpInTarget - skipSize } }
  let nextSrcSizeHint := s.dctx.tmpInTarget
  -- still more to skip
  if nextSrcSizeHint ≠ 0 then .done (.stop s nextSrcSizeHint)
  else .done (.stop { s with dctx := s.dctx.resetDecompressionContext } nextSrcSizeHint)

/-- One pass of `switch(dctx->dStage)`. -/
def pass (s : Loop) : Option (Step Loop Ending) :=
  match s.dctx.dStage with
  | .getFrameHeader => some (getFrameHeader c s)
  | .storeFrameHeader => some (storeFrameHeader c s)
  | .init => some (init c s)
  | .getBlockHeader => some (getBlockHeader c s)
  | .storeBlockHeader => some (storeBlockHeader c s)
  | .copyDirect => some (copyDirect c s)
  | .getBlockChecksum => some (getBlockChecksum c s)
  | .getCBlock => getCBlock c s
  | .storeCBlock => storeCBlock c s
  | .flushOut => some (flushOut c s)
  | .getSuffix => some (getSuffix c s)
  | .storeSuffix => some (storeSuffix c s)
  | .getSFrameSize => some (getSFrameSize c s)
  | .storeSFrameSize => some (storeSFrameSize c s)
  | .skipSkippable => some (skipSkippable c s)

end Stages

/-! ## Calls -/

/-- What a call leaves behind: the context, the memory, `*srcSizePtr`, `*dstSizePtr` and the
value returned. -/
structure Outcome where
  dctx : Dctx
  mem : Mem
  srcRead : Nat
  dstWritten : Nat
  code : Code

/-- The way out of the loop; a `return` inside it leaves both sizes at zero. -/
def finish (c : DecompressCall) : Ending → Outcome
  | .ret s code => ⟨s.dctx, s.mem, 0, 0, code⟩
  | .stop s hint =>
    let (d, m) := preserveHistory c s.dctx s.mem
    ⟨d, m, (s.srcPtr - c.src).toNat, (s.dstPtr - c.dst).toNat, .ok hint⟩

/-- `LZ4F_decompress` -/
def decompress (c : DecompressCall) (d : Dctx) (m : Mem) : Option Outcome :=
  let d := { d with skipChecksum := d.skipChecksum || c.skipChecksums }
  (iterate (pass c) (4 * c.srcSize + 8) ⟨d, m, c.src, c.dst⟩).map (finish c)

/-- `LZ4F_decompress_usingDict` -/
def decompressUsingDict (c : DecompressCall) (d : Dctx) (m : Mem) (dict : Int) (dictSize : Nat) :
    Option Outcome :=
  let d := if d.dStage.index ≤ Stage.init.index then { d with dict := dict, dictSize := dictSize }
    else d
  decompress c d m

/-- What a query leaves behind: the context, the memory, `*srcSizePtr`, `*frameInfoPtr`, which
some errors leave unset, and the value returned. -/
structure Query where
  dctx : Dctx
  mem : Mem
  srcRead : Nat
  info : Option FrameInfo
  code : Code

/-- `LZ4F_getFrameInfo`, with pointers that are not `NULL` except possibly `srcBuffer`.  The
allocator's answers are those of the call it may make. -/
def getFrameInfo (fastDecLoop : Bool) (tmpInBlock tmpOutBlock : Int) (d : Dctx) (m : Mem)
    (srcBuffer : Int) (srcSize : Nat) : Option Query :=
  if Stage.storeFrameHeader.index < d.dStage.index then
    -- frameInfo already decoded
    let c : DecompressCall :=
      { dst := 0, dstSize := 0, src := 0, srcSize := 0, fastDecLoop := fastDecLoop,
        tmpInBlock := tmpInBlock, tmpOutBlock := tmpOutBlock }
    (decompress c d m).map fun o => ⟨o.dctx, o.mem, 0, some d.frameInfo, o.code⟩
  else if d.dStage = .storeFrameHeader then
    -- frame decoding already started, in the middle of header => automatic fail
    some ⟨d, m, 0, none, .error .frameDecoding_alreadyStarted⟩
  else
    match headerSize m srcBuffer srcSize with
    | .error e => some ⟨d, m, 0, none, .error e⟩
    | .ok hSize =>
      if srcSize < hSize then some ⟨d, m, 0, none, .error .frameHeader_incomplete⟩
      else
        match decodeHeader d (m.bytes srcBuffer hSize) false with
        | (d, .error e) => some ⟨d, m, 0, some d.frameInfo, .error e⟩
        | (d, .ok decodeResult) => some ⟨d, m, decodeResult, some d.frameInfo, .ok bhSize⟩

end Lz4.Lz4f
