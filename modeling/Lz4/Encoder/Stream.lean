import Lz4.Encoder.Fast

/-!
# Streams

The functions that prepare a stream and that compress one block after another.  A stream
keeps its hash table between blocks, and the index of a position goes on counting, so that
entries of earlier blocks stay valid as long as these are in memory.  `dictionary` and
`dictSize` say where the part of the history is that the next block may refer to.

A dictionary that is attached is the context of a stream which was prepared by
`LZ4_loadDict`, and such a stream has no dictionary attached itself.
-/

namespace Lz4

open FlatMemory Encoder

namespace Encoder

/-- `LZ4_prepareTable` -/
def prepareTable (cctx : Stream) (inputSize : Int) (tableType : TableType) : Stream :=
  let cctx :=
    if cctx.tableType ≠ .clearedTable ∧
        (cctx.tableType ≠ tableType ∨
          tableType = .byU16 ∧ (cctx.currentOffset + inputSize) % 2 ^ 32 ≥ 0xFFFF ∨
          tableType = .byU32 ∧ cctx.currentOffset > 2 ^ 30 ∨
          tableType = .byPtr ∨ inputSize ≥ 4096) then
      { cctx with hashTable := fun _ => 0, currentOffset := 0, tableType := .clearedTable }
    else cctx
  -- a gap, so that all previous entries are too far away
  let cctx :=
    if cctx.currentOffset ≠ 0 ∧ tableType = .byU32 then
      { cctx with currentOffset := (cctx.currentOffset + 65536) % 2 ^ 32 }
    else cctx
  { cctx with dictCtx := none, dictionary := 0, dictSize := 0 }

/-- Every third position of a dictionary goes into the table, up to `limit`. -/
def loadLoop (ptr32 : Bool) (m : Mem) (limit : Int) : Nat → Int → Nat → Table → Table
  | 0, _, _, table => table
  | fuel + 1, p, idx32, table =>
    if p ≤ limit then
      loadLoop ptr32 m limit fuel (p + 3) (idx32 + 3)
        (Function.update table (hashAt ptr32 .byU32 m p) idx32)
    else table

/-- Further positions go into slots that are still empty. -/
def loadSlowLoop (ptr32 : Bool) (m : Mem) (limit : Int) : Nat → Int → Nat → Table → Table
  | 0, _, _, table => table
  | fuel + 1, p, idx32, table =>
    if p ≤ limit then
      loadSlowLoop ptr32 m limit fuel (p + 1) (idx32 + 1)
        (if table (hashAt ptr32 .byU32 m p) ≤ 65536 - 65536 then
          Function.update table (hashAt ptr32 .byU32 m p) idx32 else table)
    else table

/-- `sizeof(reg_t)` -/
def hashUnit (ptr32 : Bool) : Nat := if ptr32 then 4 else 8

/-- The context of a dictionary that is long enough to be hashed: its last 64 KB, which end
at the index 64 KB. -/
def loadedContext (ptr32 slow : Bool) (m : Mem) (dictionary : Int) (dictSize : Nat) : Context :=
  let dictEnd := dictionary + dictSize
  let p := if dictEnd - dictionary > 65536 then dictEnd - 65536 else dictionary
  let size := (dictEnd - p).toNat
  let idx32 := 65536 - size
  let table := loadLoop ptr32 m (dictEnd - hashUnit ptr32) dictSize p idx32 fun _ => 0
  { hashTable :=
      if slow then loadSlowLoop ptr32 m (dictEnd - hashUnit ptr32) dictSize p idx32 table
      else table
    dictionary := p
    currentOffset := 65536
    tableType := .byU32
    dictSize := size }

end Encoder

/-- `LZ4_resetStream_fast` -/
def resetStreamFast (ctx : Stream) : Stream := prepareTable ctx 0 .byU32

/-- `LZ4_loadDict_internal`: the context that the stream is left with.  A dictionary that is
too short is forgotten, but the indices start at 64 KB in any case. -/
def loadDictInternal (ptr32 slow : Bool) (m : Mem) (dictionary dictSize : Int) : Context :=
  if dictSize < hashUnit ptr32 then { currentOffset := 65536 }
  else loadedContext ptr32 slow m dictionary dictSize.toNat

/-- `LZ4_loadDict` -/
def loadDict (ptr32 : Bool) (m : Mem) (dictionary dictSize : Int) : Context :=
  loadDictInternal ptr32 false m dictionary dictSize

/-- `LZ4_loadDictSlow` -/
def loadDictSlow (ptr32 : Bool) (m : Mem) (dictionary dictSize : Int) : Context :=
  loadDictInternal ptr32 true m dictionary dictSize

/-- `LZ4_attach_dictionary` -/
def attachDictionary (workingStream : Stream) (dictionaryStream : Option Context) : Stream :=
  match dictionaryStream with
  | none => { workingStream with dictCtx := none }
  | some dictCtx =>
    { workingStream with
      currentOffset :=
        if workingStream.currentOffset = 0 then 65536 else workingStream.currentOffset
      dictCtx := if dictCtx.dictSize = 0 then none else some dictCtx }

namespace Encoder

/-- `LZ4_renormDictT` -/
def renormDictT (dict : Stream) (nextSize : Int) : Stream :=
  if (dict.currentOffset + nextSize) % 2 ^ 32 > 0x80000000 then
    let delta := (dict.currentOffset + 2 ^ 32 - 65536) % 2 ^ 32
    let dictSize := if dict.dictSize > 65536 then 65536 else dict.dictSize
    { dict with
      hashTable := fun i => if dict.hashTable i < delta then 0 else dict.hashTable i - delta
      currentOffset := 65536
      dictSize
      dictionary := dict.dictionary + dict.dictSize - dictSize }
  else dict

/-- Input in front of the end of the dictionary shortens it, to what follows the input. -/
def trimDictionary (s : Stream) (sourceEnd dictEnd : Int) : Stream :=
  if sourceEnd > s.dictionary ∧ sourceEnd < dictEnd then
    let size := (dictEnd - sourceEnd).toNat
    let size := if size > 65536 then 65536 else size
    let size := if size < 4 then 0 else size
    { s with dictSize := size, dictionary := dictEnd - size }
  else s

/-- Behind a block in external dictionary mode, the block is all that the next one may refer
to. -/
def Stream.follow (s : Stream) (source inputSize : Int) : Stream :=
  { s with dictionary := source, dictSize := (inputSize % 2 ^ 32).toNat }

end Encoder

/-- `LZ4_compress_fast_continue` -/
def compressFastContinue (ptr32 : Bool) (stream : Stream) (h : Heap)
    (source dest inputSize maxOutputSize acceleration : Int) : Option Compression :=
  let acceleration := clampAcceleration acceleration
  let dictEnd := if stream.dictSize ≠ 0 then stream.dictionary + stream.dictSize else 0
  let s := renormDictT stream inputSize
  -- tiny dictionaries
  let tiny : Prop := s.dictSize < 4 ∧ dictEnd ≠ source ∧ inputSize > 0 ∧ s.dictCtx.isNone = true
  let s := if tiny then { s with dictSize := 0, dictionary := source } else s
  let dictEnd := if tiny then source else dictEnd
  let s := trimDictionary s (source + inputSize) dictEnd
  let dictSmall := s.dictSize < 65536 ∧ s.dictSize < s.currentOffset
  if dictEnd = source then
    compressGeneric ptr32 s h source dest inputSize maxOutputSize
      ⟨.limitedOutput, .byU32, .withPrefix64k, dictSmall⟩ acceleration
  else do
    let c ←
      match s.dictCtx with
      | some dictCtx =>
        if inputSize > 4096 then
          compressGeneric ptr32 { dictCtx with dictCtx := none } h source dest inputSize
            maxOutputSize ⟨.limitedOutput, .byU32, .usingExtDict, false⟩ acceleration
        else
          compressGeneric ptr32 s h source dest inputSize maxOutputSize
            ⟨.limitedOutput, .byU32, .usingDictCtx, false⟩ acceleration
      | none =>
        compressGeneric ptr32 s h source dest inputSize maxOutputSize
          ⟨.limitedOutput, .byU32, .usingExtDict, dictSmall⟩ acceleration
    return { c with stream := c.stream.follow source inputSize }

/-- `LZ4_saveDict`.  The first component is the size that was saved. -/
def saveDict (dict : Stream) (h : Heap) (safeBuffer dictSize : Int) : Int × Stream × Heap :=
  let dictSize := if dictSize % 2 ^ 32 > 65536 then 65536 else dictSize
  let dictSize := if dictSize % 2 ^ 32 > dict.dictSize then (dict.dictSize : Int) else dictSize
  let h :=
    if dictSize > 0 then
      h.memcpy .window safeBuffer (dict.dictionary + dict.dictSize - dictSize) dictSize.toNat
    else h
  (dictSize, { dict with dictionary := safeBuffer, dictSize := (dictSize % 2 ^ 32).toNat }, h)

end Lz4
