import Lz4.Hc.Context

/-!
# The stream of the high compressor

The functions of `lz4hc.c` around the three parsers: they initialise a context, reset it, load or
attach a dictionary, move on to the next block, and save history.  The parsers are a parameter
(`Parsers`).

A stream is the context with its attached dictionary.  It also records what happens to the flag
`favorDecSpeed` (`Event`): besides `LZ4_favorDecompressionSpeed`, three things set it, since they
overwrite the whole context.
-/

namespace Lz4.Hc

open FlatMemory
open Encoder (OutputDirective)

/-- What happens to the flag `favorDecSpeed` of a stream. -/
inductive Event where
  /-- `LZ4_favorDecompressionSpeed` -/
  | favored (favor : Bool)
  /-- `LZ4_initStreamHC`, in particular by `LZ4_resetStreamHC_fast` on a dirty stream -/
  | initialised
  /-- `LZ4_loadDictHC` -/
  | loaded
  /-- the context of an attached dictionary is copied over this one -/
  | replaced
  /-- a block is passed to a parser, which returns `result` -/
  | compressed (favor : Bool) (result : Int)
  deriving Repr, DecidableEq

/-- `LZ4_streamHC_t`.  The events are the newest first. -/
structure StreamHC where
  ctx : Context := {}
  dictCtx : Option Context := none
  events : List Event := []

/-- What a parser is called with. -/
structure Job where
  env : Env
  params : CParams
  /-- `cLevel >= LZ4HC_CLEVEL_MAX` -/
  fullUpdate : Bool
  /-- `HCfavor_e` -/
  favorDecSpeed : Bool

/-- The parsers of a build: `LZ4MID_compress`, `LZ4HC_compress_hashChain` and
`LZ4HC_compress_optimal`. -/
structure Parsers where
  ptr32 : Bool
  parse : Job → Mem → Tables → Outcome

/-- What a compression function returns. -/
structure Compressed where
  stream : StreamHC
  mem : Mem
  result : Int
  /-- the new value of `*srcSizePtr` -/
  srcSize : Int

/-! ## Tables -/

/-- The environment of a context in which only its memory matters. -/
def Context.memory (ctx : Context) : Env :=
  ⟨false, .notLimited, ctx.prefixStart, 0, 0, 0, ctx.prefixStart, ctx.dictLimit, ctx.dictStart,
    ctx.lowLimit, none⟩

/-- `LZ4HC_Insert` on the context. -/
def Context.insertUntil (ctx : Context) (m : Mem) (ip : Int) : Context :=
  { ctx with toTables := insert ctx.memory m ctx.toTables ip }

/-- `LZ4HC_clearTables` -/
def Context.clearTables (ctx : Context) : Context :=
  { ctx with hashTable := fun _ => 0, chainTable := fun _ => 0xFFFF }

/-- `ADDPOS4` and `ADDPOS8` in the first loop of `LZ4MID_fillHTable`. -/
def fillEveryThird (m : Mem) (prefixPtr : Int) (prefixIdx : Nat) : Nat → Nat → Tables → Tables
  | 0, _, t => t
  | n + 1, idx, t =>
    let p := prefixPtr + idx - prefixIdx
    let hashTable := Function.update t.hashTable (hash4Ptr m p) idx
    fillEveryThird m prefixPtr prefixIdx n (idx + 3)
      { t with hashTable := Function.update hashTable (2 ^ 14 + hash8Ptr m (p + 1)) (idx + 1) }

/-- `ADDPOS8` in the second loop of `LZ4MID_fillHTable`. -/
def fillEvery (m : Mem) (prefixPtr : Int) (prefixIdx : Nat) : Nat → Nat → Tables → Tables
  | 0, _, t => t
  | n + 1, idx, t =>
    let p := prefixPtr + idx - prefixIdx
    fillEvery m prefixPtr prefixIdx n (idx + 1)
      { t with hashTable := Function.update t.hashTable (2 ^ 14 + hash8Ptr m p) idx }

/-- `LZ4MID_fillHTable` -/
def Context.fillHTable (ctx : Context) (m : Mem) (size : Nat) : Context :=
  if size ≤ 8 then ctx
  else
    let target := (ctx.dictLimit + size - 8) % 2 ^ 32
    let idx := ctx.nextToUpdate
    let t := fillEveryThird m ctx.prefixStart ctx.dictLimit ((target - idx + 2) / 3) idx ctx.toTables
    let idx := if 32 * 1024 + 8 < size then target - 32 * 1024 else ctx.nextToUpdate
    let t := fillEvery m ctx.prefixStart ctx.dictLimit (target - idx) idx t
    { ctx with toTables := { t with nextToUpdate := target } }

/-! ## Initialisation -/

/-- `LZ4HC_init_internal` -/
def Context.initInternal (ctx : Context) (start : Int) : Context :=
  let newStartingOffset := (ctx.ending - ctx.prefixStart).toNat + ctx.dictLimit
  let full := 2 ^ 30 < newStartingOffset
  let ctx := if full then ctx.clearTables else ctx
  let newStartingOffset := ((if full then 0 else newStartingOffset) + 65536) % 2 ^ 32
  { ctx with
    nextToUpdate := newStartingOffset
    prefixStart := start
    ending := start
    dictStart := start
    dictLimit := newStartingOffset
    lowLimit := newStartingOffset }

namespace StreamHC

variable (P : Parsers) (s : StreamHC)

/-- `LZ4_initStreamHC` -/
def initStreamHC : StreamHC := { events := .initialised :: s.events }

/-- `LZ4_setCompressionLevel` -/
def setCompressionLevel (compressionLevel : Int) : StreamHC :=
  let level := if compressionLevel < 1 then 9 else compressionLevel
  { s with ctx := { s.ctx with compressionLevel := min 12 level } }

/-- `LZ4_resetStreamHC_fast` -/
def resetStreamHCFast (compressionLevel : Int) : StreamHC :=
  let s := if s.ctx.dirty then s.initStreamHC
    else
      let size := (s.ctx.ending - s.ctx.prefixStart).toNat
      { s with
        ctx := { s.ctx with
          dictLimit := (s.ctx.dictLimit + size) % 2 ^ 32, prefixStart := 0, ending := 0 }
        dictCtx := none }
  s.setCompressionLevel compressionLevel

/-- `LZ4_favorDecompressionSpeed` -/
def favorDecompressionSpeed (favor : Bool) : StreamHC :=
  { s with
    ctx := { s.ctx with favorDecSpeed := favor }
    events := .favored favor :: s.events }

/-- `LZ4_loadDictHC` -/
def loadDictHC (m : Mem) (dictionary : Int) (dictSize : Nat) : StreamHC :=
  let dictionary := if 65536 < dictSize then dictionary + (dictSize - 65536 : Nat) else dictionary
  let dictSize := min dictSize 65536
  -- a full initialization
  let cLevel := s.ctx.compressionLevel
  let ctx := (setCompressionLevel {} cLevel).ctx
  let ctx := ctx.initInternal dictionary
  let ctx := { ctx with ending := dictionary + dictSize }
  let ctx := if (getCLevelParams cLevel).strat = .lz4mid then ctx.fillHTable m dictSize
    else if 4 ≤ dictSize then ctx.insertUntil m (ctx.ending - 3)
    else ctx
  { ctx := ctx, events := .loaded :: s.events }

/-- `LZ4_attach_HC_dictionary` -/
def attachHCDictionary (dictionary : Option Context) : StreamHC := { s with dictCtx := dictionary }

/-! ## Compression -/

/-- `LZ4HC_setExternalDict` -/
def setExternalDict (m : Mem) (newBlock : Int) : StreamHC :=
  let ctx := s.ctx
  let ctx := if ctx.prefixStart + 4 ≤ ctx.ending ∧
      (getCLevelParams ctx.compressionLevel).strat ≠ .lz4mid then
      ctx.insertUntil m (ctx.ending - 3) else ctx
  let dictLimit := (ctx.dictLimit + (ctx.ending - ctx.prefixStart).toNat) % 2 ^ 32
  { s with
    ctx := { ctx with
      lowLimit := ctx.dictLimit
      dictStart := ctx.prefixStart
      dictLimit := dictLimit
      prefixStart := newBlock
      ending := newBlock
      nextToUpdate := dictLimit }
    dictCtx := none }

/-- `LZ4HC_compress_generic_internal`; `dict` tells whether the attached dictionary is used. -/
def compressGenericInternal (m : Mem) (src dst srcSize dstCapacity cLevel : Int)
    (limit : OutputDirective) (dict : Bool) : Compressed :=
  if maxInputSize < srcSize % 2 ^ 32 then ⟨s, m, 0, srcSize⟩ else
  if dstCapacity < 1 then ⟨s, m, 0, srcSize⟩ else
  if srcSize = 0 then ⟨s, m.store dst [0], 1, srcSize⟩ else
  let ctx := { s.ctx with ending := s.ctx.ending + srcSize }
  let env : Env := ⟨P.ptr32, limit, src, srcSize.toNat, dst, dstCapacity, ctx.prefixStart,
    ctx.dictLimit, ctx.dictStart, ctx.lowLimit, if dict then s.dictCtx else none⟩
  let job : Job := ⟨env, getCLevelParams cLevel, decide (12 ≤ cLevel), ctx.favorDecSpeed⟩
  let outcome := P.parse job m ctx.toTables
  let ctx := { ctx with toTables := outcome.tables }
  ⟨{ s with
      ctx := { ctx with dirty := ctx.dirty || decide (outcome.result ≤ 0) }
      events := .compressed ctx.favorDecSpeed outcome.result :: s.events },
    outcome.heap.mem, outcome.result, outcome.ip - src⟩

/-- `isStateCompatible` -/
def isStateCompatible (ctx₁ ctx₂ : Context) : Bool :=
  decide ((getCLevelParams ctx₁.compressionLevel).strat = .lz4mid) ==
    decide ((getCLevelParams ctx₂.compressionLevel).strat = .lz4mid)

/-- `LZ4HC_compress_generic`, with `LZ4HC_compress_generic_dictCtx` for an attached dictionary. -/
def compressGeneric (m : Mem) (src dst srcSize dstCapacity cLevel : Int)
    (limit : OutputDirective) : Compressed :=
  match s.dictCtx with
  | none => s.compressGenericInternal P m src dst srcSize dstCapacity cLevel limit false
  | some dictCtx =>
    let position := (s.ctx.ending - s.ctx.prefixStart).toNat +
      sub32 s.ctx.dictLimit s.ctx.lowLimit
    if 65536 ≤ position then
      { s with dictCtx := none }.compressGenericInternal P m src dst srcSize dstCapacity cLevel
        limit false
    else if position = 0 ∧ 4096 < srcSize ∧ isStateCompatible s.ctx dictCtx then
      let s := setExternalDict ⟨dictCtx, none, .replaced :: s.events⟩ m src
      { s with ctx := { s.ctx with compressionLevel := cLevel } }.compressGenericInternal P m src
        dst srcSize dstCapacity cLevel limit false
    else s.compressGenericInternal P m src dst srcSize dstCapacity cLevel limit true

/-- The output directive of a call with a capacity. -/
def limitFor (srcSize dstCapacity : Int) : OutputDirective :=
  if dstCapacity < compressBound srcSize then .limitedOutput else .notLimited

/-- `LZ4_compress_HC_extStateHC_fastReset` -/
def compressHCExtStateHCFastReset (m : Mem) (src dst srcSize dstCapacity compressionLevel : Int) :
    Compressed :=
  let s := s.resetStreamHCFast compressionLevel
  { s with ctx := s.ctx.initInternal src }.compressGeneric P m src dst srcSize dstCapacity
    compressionLevel (limitFor srcSize dstCapacity)

/-- The part of an external dictionary that the new block overwrites is lost. -/
def dropOverlap (src srcSize : Int) : StreamHC :=
  let ctx := s.ctx
  let dictEnd := ctx.dictStart + sub32 ctx.dictLimit ctx.lowLimit
  let sourceEnd := src + srcSize
  if ctx.dictStart < sourceEnd ∧ src < dictEnd then
    let lost := (min sourceEnd dictEnd - ctx.dictStart).toNat
    let lowLimit := (ctx.lowLimit + lost) % 2 ^ 32
    -- invalidate the dictionary if it's too small
    if sub32 ctx.dictLimit lowLimit < 4 then
      { s with ctx := { ctx with lowLimit := ctx.dictLimit, dictStart := ctx.prefixStart } }
    else { s with ctx := { ctx with lowLimit := lowLimit, dictStart := ctx.dictStart + lost } }
  else s

/-- `LZ4_compressHC_continue_generic` -/
def compressHCContinueGeneric (m : Mem) (src dst srcSize dstCapacity : Int)
    (limit : OutputDirective) : Compressed :=
  -- auto-init if forgotten
  let s := if s.ctx.prefixStart = 0 then { s with ctx := s.ctx.initInternal src } else s
  -- check overflow
  let size := (s.ctx.ending - s.ctx.prefixStart).toNat
  let s := if 2 ^ 31 < size + s.ctx.dictLimit then
      s.loadDictHC m (s.ctx.ending - (min size 65536 : Nat)) (min size 65536)
    else s
  -- check if blocks follow each other
  let s := if src ≠ s.ctx.ending then s.setExternalDict m src else s
  let s := s.dropOverlap src srcSize
  s.compressGeneric P m src dst srcSize dstCapacity s.ctx.compressionLevel limit

/-- `LZ4_compress_HC_continue` -/
def compressHCContinue (m : Mem) (src dst srcSize dstCapacity : Int) : Compressed :=
  s.compressHCContinueGeneric P m src dst srcSize dstCapacity (limitFor srcSize dstCapacity)

/-- How much `LZ4_saveDictHC` saves. -/
def savedSize (dictSize : Nat) : Nat :=
  let dictSize := min dictSize 65536
  let dictSize := if dictSize < 4 then 0 else dictSize
  min dictSize (s.ctx.ending - s.ctx.prefixStart).toNat

/-- `LZ4_saveDictHC` -/
def saveDictHC (m : Mem) (safeBuffer : Int) (dictSize : Nat) : StreamHC × Mem × Nat :=
  let n := s.savedSize dictSize
  let ctx := s.ctx
  let endIndex := (ctx.ending - ctx.prefixStart).toNat + ctx.dictLimit
  let limit := (endIndex - n) % 2 ^ 32
  ({ s with
      ctx := { ctx with
        ending := if safeBuffer = 0 then 0 else safeBuffer + n
        prefixStart := safeBuffer
        dictLimit := limit
        lowLimit := limit
        dictStart := safeBuffer
        nextToUpdate := if ctx.nextToUpdate < limit then limit else ctx.nextToUpdate } },
    m.copy safeBuffer (ctx.ending - n) n, n)

end StreamHC

end Lz4.Hc
