import Lz4.Frame.Begin
import Lz4.Lib.Arena

/-!
# The frame compressor

`LZ4F_compressBegin` and its variants for dictionaries, `LZ4F_compressUpdate`,
`LZ4F_uncompressedUpdate`, `LZ4F_flush` and `LZ4F_compressEnd`.  The block compressor behind
`lz4CtxPtr` is a parameter (`BlockCompressor`): its state has a type of its own, and the frame
compressor uses it through the functions of `lz4.h` and `lz4hc.h` only.

A `Writer` is the context together with the memory.  The blocks that the context owns, the
state of the block compressor and the buffer, come from an allocator; every access to them is
recorded in the arena.  Buffers of the caller are not part of it.
-/

namespace Lz4.Lz4f

open FlatMemory

/-! ## The block compressor -/

/-- The functions of the block compressor that the frame compressor calls, on a state of type
`σ`.  Functions that compress return the state, the memory and the size of the block, `0` or
less for a failure. -/
structure BlockCompressor (σ : Type) where
  /-- `LZ4_initStream`, or `LZ4_initStreamHC` -/
  initStream : Bool → σ
  /-- `LZ4_setCompressionLevel` -/
  setCompressionLevel : σ → Int → σ
  /-- `LZ4_resetStream_fast` -/
  resetStreamFast : σ → σ
  /-- `LZ4_resetStreamHC_fast` -/
  resetStreamHCFast : σ → Int → σ
  /-- `LZ4_attach_dictionary` with the context in a prepared dictionary -/
  attachDictionary : σ → Int → σ
  /-- `LZ4_attach_HC_dictionary` with the context in a prepared dictionary -/
  attachHCDictionary : σ → Int → σ
  /-- `LZ4_favorDecompressionSpeed` -/
  favorDecompressionSpeed : σ → Nat → σ
  /-- `LZ4_loadDict` -/
  loadDict : σ → Mem → Int → Nat → σ
  /-- `LZ4_loadDictHC` -/
  loadDictHC : σ → Mem → Int → Nat → σ
  /-- `LZ4_compress_fast_continue`: source, destination, their sizes, acceleration -/
  compressFastContinue : σ → Mem → Int → Int → Int → Int → Int → σ × Mem × Int
  /-- `LZ4_compress_fast_extState_fastReset` -/
  compressFastExtStateFastReset : σ → Mem → Int → Int → Int → Int → Int → σ × Mem × Int
  /-- `LZ4_compress_HC_continue`: source, destination, their sizes -/
  compressHCContinue : σ → Mem → Int → Int → Int → Int → σ × Mem × Int
  /-- `LZ4_compress_HC_extStateHC_fastReset`: also the level -/
  compressHCExtStateHCFastReset : σ → Mem → Int → Int → Int → Int → Int → σ × Mem × Int
  /-- `LZ4_saveDict`, or `LZ4_saveDictHC`: where to, and how much at most; returns how much -/
  saveDict : Bool → σ → Mem → Int → Nat → σ × Mem × Nat
  saveDict_le : ∀ hc s m safeBuffer dictSize, (saveDict hc s m safeBuffer dictSize).2.2 ≤ dictSize

/-- `LZ4F_BlockCompressMode_e` -/
inductive BlockCompressMode
  | compressed
  | uncompressed
  deriving Repr, DecidableEq

/-- The values of `compressFunc_t`. -/
inductive CompressFunc
  | doNotCompressBlock
  | compressBlock
  | compressBlockContinue
  | compressBlockHC
  | compressBlockHCContinue
  deriving Repr, DecidableEq

/-- `LZ4F_selectCompression` -/
def selectCompression (blockMode : Nat) (level : Int) (compressMode : BlockCompressMode) :
    CompressFunc :=
  if compressMode = .uncompressed then .doNotCompressBlock
  else if level < 2 then
    if blockMode = 1 then .compressBlock else .compressBlockContinue
  else if blockMode = 1 then .compressBlockHC
  else .compressBlockHCContinue

/-- A `size_t` passed as an `int`. -/
def asInt (n : Nat) : Int := Int.bmod n (2 ^ 32)

/-! ## The context -/

/-- `LZ4F_cctx` with the state behind `lz4CtxPtr`, the memory and the blocks of the allocator.  A
null pointer is `0`. -/
structure Writer (σ : Type) where
  cctx : Cctx := {}
  blockCompressMode : BlockCompressMode := .compressed
  cdict : Int := 0
  stream : σ
  mem : Mem
  arena : Arena := {}

namespace Writer

variable {σ : Type}

def level (w : Writer σ) : Int := w.cctx.prefs.compressionLevel

def linked (w : Writer σ) : Bool := w.cctx.prefs.frameInfo.blockMode = 0

def blockChecksumFlag (w : Writer σ) : Nat := w.cctx.prefs.frameInfo.blockChecksumFlag

/-- An access to the state of the block compressor. -/
def touchCtx (w : Writer σ) : Writer σ :=
  { w with arena := w.arena.touch w.cctx.lz4CtxPtr (ctxTypeIDToSize w.cctx.ctxTypeID) }

/-- An access to the buffer. -/
def touchBuffer (w : Writer σ) (p : Int) (n : Nat) : Writer σ :=
  { w with arena := w.arena.touch p n }

end Writer

section

variable {σ : Type} (K : BlockCompressor σ) (A : Allocator)

/-- `LZ4F_initStream` -/
def initStream (s : σ) (cdict : Int) (level : Int) (blockMode : Nat) : σ :=
  if level < 2 then
    if cdict ≠ 0 ∨ blockMode = 0 then
      let s := K.resetStreamFast s
      if cdict ≠ 0 then K.attachDictionary s cdict else s
    -- otherwise a one-shot function is called, which performs its own reset
    else s
  else
    let s := K.resetStreamHCFast s level
    if cdict ≠ 0 then K.attachHCDictionary s cdict else s

/-! ## Blocks -/

/-- A call of the selected compression function. -/
def CompressFunc.run (f : CompressFunc) (w : Writer σ) (src dst srcSize dstCapacity : Int) :
    Writer σ × Int :=
  let acceleration := if w.level < 0 then -w.level + 1 else 1
  let finish (r : σ × Mem × Int) : Writer σ × Int :=
    ({ w.touchCtx with stream := r.1, mem := r.2.1 }, r.2.2)
  match f with
  | .doNotCompressBlock => (w, 0)
  | .compressBlock =>
    let s := initStream K w.stream w.cdict w.level 1
    if w.cdict ≠ 0 then
      finish (K.compressFastContinue s w.mem src dst srcSize dstCapacity acceleration)
    else
      finish (K.compressFastExtStateFastReset s w.mem src dst srcSize dstCapacity acceleration)
  | .compressBlockContinue =>
    finish (K.compressFastContinue w.stream w.mem src dst srcSize dstCapacity acceleration)
  | .compressBlockHC =>
    let s := initStream K w.stream w.cdict w.level 1
    if w.cdict ≠ 0 then finish (K.compressHCContinue s w.mem src dst srcSize dstCapacity)
    else finish (K.compressHCExtStateHCFastReset s w.mem src dst srcSize dstCapacity w.level)
  | .compressBlockHCContinue =>
    finish (K.compressHCContinue w.stream w.mem src dst srcSize dstCapacity)

/-- `LZ4F_makeBlock`: the context and the size of the block with its header and checksum. -/
def makeBlock (f : CompressFunc) (w : Writer σ) (dst src : Int) (srcSize : Nat) :
    Writer σ × Nat :=
  let dstCapacity := if 1 < srcSize then asInt srcSize - 1 else 1
  let (w, r) := f.run K w src (dst + bhSize) (asInt srcSize) dstCapacity
  let cSize := (r % 2 ^ 32).toNat
  let (m, cSize) :=
    if cSize = 0 ∨ srcSize ≤ cSize then
      ((w.mem.store dst (leBytes 4 (srcSize % 2 ^ 32 ||| 2 ^ 31))).copy (dst + bhSize) src srcSize,
        srcSize % 2 ^ 32)
    else (w.mem.store dst (leBytes 4 cSize), cSize)
  -- checksum of compressed data
  let m := if w.blockChecksumFlag ≠ 0 then
      m.store (dst + bhSize + cSize) (leBytes 4 (xxh32 (m.bytes (dst + bhSize) cSize) 0).toNat)
    else m
  ({ w with mem := m }, bhSize + cSize + w.blockChecksumFlag * bfSize)

/-- `LZ4F_localSaveDict`: save or shorten history into `tmpBuff`. -/
def localSaveDict (w : Writer σ) : Writer σ :=
  let r := K.saveDict (2 ≤ w.level) w.stream w.mem w.cctx.tmpBuff kb64
  { w.touchCtx.touchBuffer w.cctx.tmpBuff r.2.2 with
    stream := r.1
    mem := r.2.1
    cctx := { w.cctx with tmpIn := w.cctx.tmpBuff + r.2.2 } }

/-! ## Beginning a frame -/

/-- The management of the block compressor's state. -/
def Writer.prepareCtx (w : Writer σ) : Writer σ × Bool :=
  let c := w.cctx
  let size := ctxTypeIDToSize c.ctxTypeID
  let hc := decide (2 ≤ w.level)
  if ctxTypeIDToSize c.lz4CtxAlloc < size then
    -- not enough space allocated
    let freed := w.arena.free c.lz4CtxPtr
    let (c, answered) := c.prepareCtx (A.answer freed size)
    let w := { w with cctx := c, arena := A.malloc freed size }
    (if answered then { w.touchCtx with stream := K.initStream hc } else w, answered)
  else if c.lz4CtxType ≠ c.ctxTypeID then
    -- reset it to the correct context type
    let s := if hc then K.setCompressionLevel (K.initStream true) w.level else K.initStream false
    ({ w.touchCtx with stream := s, cctx := (c.prepareCtx 0).1 }, true)
  else (w, true)

/-- The management of the buffer. -/
def Writer.prepareBuffer (w : Writer σ) : Writer σ × Bool :=
  let c := w.cctx.setBlockSize
  if c.maxBufferSize < c.requiredBuffSize then
    let freed := w.arena.free c.tmpBuff
    let (c, answered) := c.prepareBuffer (A.answer freed c.requiredBuffSize)
    ({ w with cctx := c, arena := A.malloc freed w.cctx.setBlockSize.requiredBuffSize }, answered)
  else ({ w with cctx := c }, true)

/-- The initialisation of the block compressor for the frame. -/
def Writer.prepareStream (w : Writer σ) (favorDecSpeed : Nat) (dict : Int) (dictSize : Nat) :
    Writer σ :=
  -- frame init only for linked blocks: independent ones are initialised at each block
  let w := if w.linked then
      { w.touchCtx with stream := initStream K w.stream w.cdict w.level 0 } else w
  let w := if 2 ≤ w.level then
      { w.touchCtx with stream := K.favorDecompressionSpeed w.stream favorDecSpeed } else w
  if dict ≠ 0 then
    { w.touchCtx with
      stream := if w.cctx.lz4CtxType = 1 then K.loadDict w.stream w.mem dict dictSize
        else K.loadDictHC w.stream w.mem dict dictSize }
  else w

/-- `LZ4F_compressBegin_internal`, with a dictionary, a prepared one, or none. -/
def compressBeginInternal (w : Writer σ) (dst : Int) (dstCapacity : Nat) (dict : Int)
    (dictSize : Nat) (cdict : Int) (preferences : Option Preferences) : Writer σ × Code :=
  if dstCapacity < maxFHSize then (w, .error .dstMaxSize_tooSmall) else
  let prefs := preferences.getD {}
  let (w, answered) := Writer.prepareCtx K A { w with cctx := { w.cctx with prefs := prefs } }
  if ¬ answered then (w, .error .allocation_failed) else
  let (w, answered) := w.prepareBuffer A
  if ¬ answered then (w, .error .allocation_failed) else
  let w := { w with
    cdict := cdict
    cctx := { w.cctx with tmpIn := w.cctx.tmpBuff, tmpInSize := 0, xxh := .reset 0 } }
  -- the error leaves behind LZ4_favorDecompressionSpeed
  if dict ≠ 0 ∧ 2 ^ 31 ≤ dictSize then
    (w.prepareStream K prefs.favorDecSpeed 0 0, .error .parameter_invalid) else
  let w := w.prepareStream K prefs.favorDecSpeed dict dictSize
  let info := w.cctx.prefs.frameInfo
  ({ w with
      mem := w.mem.store dst info.header
      cctx := { w.cctx with
        totalInSize := if info.contentSize ≠ 0 then 0 else w.cctx.totalInSize
        cStage := 1 } },
    .ok info.header.length)

/-! ## Compressing -/

/-- `LZ4F_compressBound_internal` with preferences; `size_t` and `unsigned` wrap around. -/
def compressBoundInternal (srcSize : Nat) (prefs : Preferences) (alreadyBuffered : Nat) : Nat :=
  let flush := prefs.autoFlush ≠ 0 ∨ srcSize = 0
  let blockSize := getBlockSize prefs.frameInfo.blockSizeID
  let maxBuffered := blockSize - 1
  let bufferedSize := min alreadyBuffered maxBuffered
  let maxSrcSize := (srcSize + bufferedSize) % 2 ^ 64
  let nbFullBlocks := maxSrcSize / blockSize % 2 ^ 32
  let partialBlockSize := maxSrcSize &&& (blockSize - 1)
  let lastBlockSize := if flush then partialBlockSize else 0
  let nbBlocks := (nbFullBlocks + if 0 < lastBlockSize then 1 else 0) % 2 ^ 32
  let blockCRCSize := bfSize * prefs.frameInfo.blockChecksumFlag
  let frameEnd := bhSize + prefs.frameInfo.contentChecksumFlag * bfSize
  ((bhSize + blockCRCSize) * nbBlocks + blockSize * nbFullBlocks + lastBlockSize + frameEnd) %
    2 ^ 64

/-- The arguments of an update; `mode` tells `LZ4F_compressUpdate` and
`LZ4F_uncompressedUpdate` apart. -/
structure Update where
  dst : Int
  dstCapacity : Nat
  src : Int
  srcSize : Nat
  stableSrc : Bool := false
  mode : BlockCompressMode := .compressed
  deriving Repr, DecidableEq

/-- `LZ4F_lastBlockStatus` -/
inductive LastBlockStatus
  | notDone
  | fromTmpBuffer
  | fromSrcBuffer
  deriving Repr, DecidableEq

/-- The variables of an update. -/
structure Progress (σ : Type) where
  w : Writer σ
  srcPtr : Int
  dstPtr : Int
  lastBlockCompressed : LastBlockStatus := .notDone

/-- Compress `n` bytes at `srcPtr`. -/
def Progress.compressSrc (f : CompressFunc) (p : Progress σ) (n : Nat) : Progress σ :=
  let (w, size) := makeBlock K f p.w p.dstPtr p.srcPtr n
  ⟨w, p.srcPtr + n, p.dstPtr + size, .fromSrcBuffer⟩

/-- Complete the block in the buffer, if there is one. -/
def Progress.completeTmp (f : CompressFunc) (u : Update) (p : Progress σ) : Progress σ :=
  let w := p.w
  let c := w.cctx
  if 0 < c.tmpInSize then
    let sizeToCopy := c.maxBlockSize - c.tmpInSize
    if u.srcSize < sizeToCopy then
      -- add src to tmpIn buffer
      { p with
        w := { w.touchBuffer (c.tmpIn + c.tmpInSize) u.srcSize with
          mem := w.mem.copy (c.tmpIn + c.tmpInSize) u.src u.srcSize
          cctx := { c with tmpInSize := c.tmpInSize + u.srcSize } }
        srcPtr := u.src + u.srcSize }
    else
      -- complete tmpIn block and then compress it
      let w := { w.touchBuffer (c.tmpIn + c.tmpInSize) sizeToCopy with
        mem := w.mem.copy (c.tmpIn + c.tmpInSize) u.src sizeToCopy }
      let (w, size) := makeBlock K f (w.touchBuffer c.tmpIn c.maxBlockSize) p.dstPtr c.tmpIn
        c.maxBlockSize
      { w := { w with
          cctx := { w.cctx with
            tmpIn := if w.linked then c.tmpIn + c.maxBlockSize else c.tmpIn
            tmpInSize := 0 } }
        srcPtr := p.srcPtr + sizeToCopy
        dstPtr := p.dstPtr + size
        lastBlockCompressed := .fromTmpBuffer }
  else p

/-- Compress full blocks. -/
def Progress.fullBlocks (f : CompressFunc) : Nat → Progress σ → Progress σ
  | 0, p => p
  | n + 1, p => Progress.fullBlocks f n (p.compressSrc K f p.w.cctx.maxBlockSize)

/-- Preserve the dictionary within `tmpBuff` whenever necessary. -/
def Writer.preserveDict (w : Writer σ) (u : Update) (last : LastBlockStatus) : Writer σ :=
  if w.linked ∧ last = .fromSrcBuffer then
    -- a stable source keeps the dictionary
    if u.stableSrc then { w with cctx := { w.cctx with tmpIn := w.cctx.tmpBuff } }
    else localSaveDict K w
  else w

/-- There is no room for the next block in the buffer. -/
def Writer.full (w : Writer σ) : Prop :=
  w.cctx.tmpBuff + w.cctx.maxBufferSize < w.cctx.tmpIn + w.cctx.maxBlockSize

instance (w : Writer σ) : Decidable w.full := inferInstanceAs (Decidable (_ < _))

/-- `LZ4F_flush` -/
def flush (w : Writer σ) (dst : Int) (dstCapacity : Nat) : Writer σ × Code :=
  let c := w.cctx
  if c.tmpInSize = 0 then (w, .ok 0) else
  if c.cStage ≠ 1 then (w, .error .compressionState_uninitialized) else
  if dstCapacity < c.tmpInSize + bhSize + bfSize then (w, .error .dstMaxSize_tooSmall) else
  let f := selectCompression c.prefs.frameInfo.blockMode w.level w.blockCompressMode
  let (w, size) := makeBlock K f (w.touchBuffer c.tmpIn c.tmpInSize) dst c.tmpIn c.tmpInSize
  let w := { w with
    cctx := { w.cctx with
      tmpIn := if w.linked then c.tmpIn + c.tmpInSize else c.tmpIn
      tmpInSize := 0 } }
  -- keep tmpIn within limits
  (if w.full then localSaveDict K w else w, .ok size)

/-- The number of bytes that a result adds to a pointer: an error code is a number, too. -/
def advance : Code → Int
  | .ok n => n
  | .error e => -e.code

/-- The input that is left when all full blocks are compressed. -/
def Progress.finish (f : CompressFunc) (u : Update) (p : Progress σ) : Progress σ :=
  let left := (u.src + u.srcSize - p.srcPtr).toNat
  if p.w.cctx.prefs.autoFlush ≠ 0 ∧ 0 < left then p.compressSrc K f left else p

/-- The part of an update behind the blocks: history, and what is left of the input. -/
def Progress.keep (u : Update) (p : Progress σ) : Writer σ :=
  let w := p.w.preserveDict K u p.lastBlockCompressed
  -- keep tmpIn within limits
  let w := if w.cctx.prefs.autoFlush = 0 ∧ w.full then localSaveDict K w else w
  let left := (u.src + u.srcSize - p.srcPtr).toNat
  let w := if 0 < left then
      { w.touchBuffer w.cctx.tmpIn left with
        mem := w.mem.copy w.cctx.tmpIn p.srcPtr left
        cctx := { w.cctx with tmpInSize := left } }
    else w
  let c := w.cctx
  { w with
    cctx := { c with
      xxh := if c.prefs.frameInfo.contentChecksumFlag = 1 then
          c.xxh.update (w.mem.bytes u.src u.srcSize) else c.xxh
      totalInSize := c.totalInSize + UInt64.ofNat u.srcSize } }

/-- The flush in front of an update in another mode. -/
def Writer.switchMode (w : Writer σ) (u : Update) : Writer σ × Int :=
  if w.blockCompressMode ≠ u.mode then
    let (w, code) := flush K w u.dst u.dstCapacity
    ({ w with blockCompressMode := u.mode }, advance code)
  else (w, 0)

/-- The blocks of an update. -/
def Writer.updateBlocks (w : Writer σ) (u : Update) : Progress σ :=
  let c := w.cctx
  let f := selectCompression c.prefs.frameInfo.blockMode w.level u.mode
  let (w, bytesWritten) := w.switchMode K u
  let p : Progress σ := { w, srcPtr := u.src, dstPtr := u.dst + bytesWritten }
  let p := p.completeTmp K f u
  let p := p.fullBlocks K f ((u.src + u.srcSize - p.srcPtr).toNat / c.maxBlockSize)
  p.finish K f u

/-- `LZ4F_compressUpdateImpl` -/
def compressUpdate (w : Writer σ) (u : Update) : Writer σ × Code :=
  let c := w.cctx
  if c.cStage ≠ 1 then (w, .error .compressionState_uninitialized) else
  if u.dstCapacity < compressBoundInternal u.srcSize c.prefs c.tmpInSize then
    (w, .error .dstMaxSize_tooSmall) else
  if u.mode = .uncompressed ∧ u.dstCapacity < u.srcSize then (w, .error .dstMaxSize_tooSmall) else
  let p := w.updateBlocks K u
  (p.keep K u, .ok ((p.dstPtr - u.dst) % 2 ^ 64).toNat)

/-- `LZ4F_compressEnd` -/
def compressEnd (w : Writer σ) (dst : Int) (dstCapacity : Nat) : Writer σ × Code :=
  match flush K w dst dstCapacity with
  | (w, .error e) => (w, .error e)
  | (w, .ok flushSize) =>
    let dstCapacity := dstCapacity - flushSize
    if dstCapacity < 4 then (w, .error .dstMaxSize_tooSmall) else
    let c := w.cctx
    let checked := c.prefs.frameInfo.contentChecksumFlag = 1
    let m := w.mem.store (dst + flushSize) (leBytes 4 0)
    if checked ∧ dstCapacity < 8 then ({ w with mem := m }, .error .dstMaxSize_tooSmall) else
    let m := if checked then m.store (dst + flushSize + 4) (leBytes 4 c.xxh.digest.toNat) else m
    -- state is now re-usable (with identical preferences)
    let w := { w with mem := m, cctx := { c with cStage := 0 } }
    if c.prefs.frameInfo.contentSize ≠ 0 ∧ c.prefs.frameInfo.contentSize ≠ c.totalInSize then
      (w, .error .frameSize_wrong)
    else (w, .ok (flushSize + 4 + if checked then 4 else 0))

end

end Lz4.Lz4f
