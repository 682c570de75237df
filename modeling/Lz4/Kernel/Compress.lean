import Lz4.Encoder.Correct
import Lz4.Kernel.Copy

/-!
# `lz4_compress_core_accelerated`

The encoder of the OpenCL kernels.  It is derived from the block compressor of the library, for
one block without history, with a hash table that survives from block to block and from launch
to launch.

## The hash table

There are two kinds of tables.  One is cleared before each block and holds positions plus one.
The other is never cleared: an entry has the low 20 bits of a position and a tag of 12 bits, the
epoch, and the position is reconstructed relative to the current one.  A tag may be left from an
earlier block, so an entry of this kind can mean anything.  `Build` has what differs between the
builds, and between the two programs that have this kernel.

## The loop

The function is a flat machine here.  A pass is one round of the search, with the literals of the
match if one is found, or what follows the label `_next_match_g`.
-/

namespace Lz4.Kernel

open FlatMemory Machine
open Encoder (Table wrap32 catchUpLoop countWords writeLength writeRun)

/-! ## The hash table -/

/-- How the kernel was compiled. -/
structure Build where
  hashLog : Nat
  dictClear : Bool
  dictEntryBits : Nat
  deriving Repr, DecidableEq

namespace Build

/-- The build of `lz4_gpu` for blocks of more than 64 KB. -/
def epochTagged : Build := ⟨14, false, 32⟩

/-- The build of `lz4_gpu` for blocks of up to 64 KB. -/
def cleared16 : Build := ⟨14, true, 16⟩

/-- The build of `lz4_hybrid`, in which the table type is an argument. -/
def hybrid (tableType : Int) : Build := ⟨if tableType = 0 then 15 else 14, false, 32⟩

def hashMask (b : Build) : Nat := (1 <<< b.hashLog) - 1

/-- `LZ4_hash4` -/
def hash4 (b : Build) (sequence : Nat) : Nat :=
  (sequence * 2654435761 % 2 ^ 32) >>> (32 - b.hashLog)

/-- `LZ4_putIndexOnHashMasked` -/
def putIndexOnHashMasked (b : Build) (table : Table) (epoch idx h : Nat) : Table :=
  Function.update table (h &&& b.hashMask) <|
    if b.dictClear then (idx + 1) % 2 ^ b.dictEntryBits
    else (((epoch &&& 0xFFF) <<< 20) ||| (idx &&& 0xFFFFF)) % 2 ^ b.dictEntryBits

/-- `LZ4_getIndexOnHashMasked`; there is no index if the entry is not valid. -/
def getIndexOnHashMasked (b : Build) (table : Table) (epoch current h : Nat) : Option Nat :=
  let packed := table (h &&& b.hashMask)
  if b.dictClear then
    if packed = 0 then none else some (packed - 1)
  else if packed >>> 20 ≠ epoch &&& 0xFFF then none
  else
    let matchIndex := (current &&& 0xFFF00000) ||| (packed &&& 0xFFFFF)
    some (if matchIndex > current then (matchIndex + 2 ^ 32 - 0x100000) % 2 ^ 32 else matchIndex)

end Build

/-! ## The length of a match -/

/-- The first loop of `LZ4_count`, over pairs of words. -/
def countPairs (m : Mem) (pInLimit : Int) : Nat → Int → Int → Nat → Nat × Bool
  | 0, _, _, n => (n, false)
  | fuel + 1, pIn, pMatch, n =>
    if pIn < pInLimit - 15 then
      let diff0 := readLE m pMatch 8 ^^^ readLE m pIn 8
      if diff0 = 0 then
        let diff1 := readLE m (pMatch + 8) 8 ^^^ readLE m (pIn + 8) 8
        if diff1 = 0 then countPairs m pInLimit fuel (pIn + 16) (pMatch + 16) (n + 16)
        else (n + 8 + lowZeroBytes 8 diff1, true)
      else (n + lowZeroBytes 8 diff0, true)
    else (n, false)

/-- `LZ4_count`; the second and the third loop are over single words of 8 and of 4 bytes. -/
def count (m : Mem) (pIn pMatch pInLimit : Int) : Nat :=
  let fuel := (pInLimit - pIn).toNat
  let (n, differs) := countPairs m pInLimit fuel pIn pMatch 0
  if differs then n
  else
    let (n, differs) := countWords 8 m pInLimit fuel (pIn + n) (pMatch + n) n
    if differs then n
    else
      let (n, differs) := countWords 4 m pInLimit fuel (pIn + n) (pMatch + n) n
      if differs then n
      else
        let n := if pIn + n < pInLimit - 1 ∧
          readLE m (pMatch + n) 2 = readLE m (pIn + n) 2 then n + 2 else n
        if pIn + n < pInLimit ∧ m (pMatch + n) = m (pIn + n) then n + 1 else n

/-! ## The function -/

/-- The arguments, except for memory and the hash table. -/
structure Job where
  src : Int
  dst : Int
  srcSize : Int
  dstCapacity : Int
  acceleration : Int
  epoch : Nat
  deriving Repr, DecidableEq

namespace Job

variable (j : Job)

def iend : Int := j.src + j.srcSize

def oend : Int := j.dst + j.dstCapacity

def mflimitPlusOne : Int := j.iend - 12 + 1

def matchlimit : Int := j.iend - 5

/-- The index of a position, a `U32`. -/
def index (p : Int) : Nat := ((p - j.src) % 2 ^ 32).toNat

end Job

/-- Where the function is in its loops. -/
inductive Place
  | search (anchor op forwardIp step searchMatchNb : Int) (forwardH forwardIpValue : Nat)
  | nextMatch (op token ip mtch : Int)

/-- The state between two passes. -/
structure Work where
  heap : Heap
  table : Table
  place : Place

/-- What a call ends with. -/
structure Outcome where
  result : Int
  heap : Heap
  table : Table

/-- `_last_literals_g` -/
def lastLiterals (j : Job) (h : Heap) (table : Table) (anchor op : Int) : Outcome :=
  let lastRun := (j.iend - anchor).toNat
  if op + lastRun + 1 + ((lastRun + 255 - 15) / 255 : Nat) > j.oend then ⟨0, h, table⟩
  else
    let (h, op) := writeRun h op (op + 1) lastRun
    let h := h.memcpy .input op anchor lastRun
    ⟨wrap32 (op + lastRun - j.dst), h, table⟩

/-- The beginning of a search at `ip`. -/
def enterSearch (b : Build) (j : Job) (m : Mem) (anchor ip op : Int) : Place :=
  .search anchor op ip 1 (wrap32 (j.acceleration * 2 ^ 6)) (b.hash4 (readLE m ip 4))
    (readLE m ip 4)

/-- A candidate from the table that repeats at the position with index `current`, where the
word `ipValue` stands. -/
def tryIndex (j : Job) (m : Mem) (current ipValue : Nat) : Option Nat → Option Int
  | none => none
  | some matchIndex =>
    if matchIndex < current ∧ current - matchIndex < 65535 ∧
        readLE m (j.src + matchIndex) 4 = ipValue then some (j.src + matchIndex)
    else none

/-- A match at `ip` was found: it is extended backwards, and its literals are written. -/
def emitLiterals (j : Job) (h : Heap) (table : Table) (anchor op ip mtch : Int) :
    Step Work Outcome :=
  let (ip, mtch) := catchUpLoop h.mem anchor j.src (ip - anchor).toNat ip mtch
  let litLength := (ip - anchor).toNat
  let token := op
  let op := op + 1
  if op + litLength + (2 + 1 + 5) + (litLength / 255 : Nat) > j.oend then .done ⟨0, h, table⟩
  else
    let (h, op) := writeRun h token op litLength
    let h := litWildCopy8 h op anchor (op + litLength)
    .next ⟨h, table, .nextMatch (op + litLength) token ip mtch⟩

/-- One round of the search. -/
def searchPass (b : Build) (j : Job) (h : Heap) (table : Table)
    (anchor op forwardIp step searchMatchNb : Int) (forwardH forwardIpValue : Nat) :
    Step Work Outcome :=
  let ip := forwardIp
  let current := j.index ip
  let matchIndex := b.getIndexOnHashMasked table j.epoch current forwardH
  let forwardIp := ip + step
  if forwardIp > j.mflimitPlusOne then .done (lastLiterals j h table anchor op)
  else
    let table := b.putIndexOnHashMasked table j.epoch current forwardH
    match tryIndex j h.mem current forwardIpValue matchIndex with
    | some mtch => emitLiterals j h table anchor op ip mtch
    | none =>
      .next ⟨h, table, .search anchor op forwardIp (searchMatchNb / 2 ^ 6)
        (wrap32 (searchMatchNb + 1)) (b.hash4 (readLE h.mem forwardIp 4))
        (readLE h.mem forwardIp 4)⟩

/-- The match length: the low half of the token, and the bytes at `op`. -/
def writeMatchLength (h : Heap) (token op : Int) (matchCode : Nat) : Heap × Int :=
  if matchCode ≥ 15 then
    let len := matchCode - 15
    writeLength (h.store token [h.mem token + 15]) op (UInt8.ofNat (len % 255)) (len / 255)
  else (h.store token [h.mem token + UInt8.ofNat matchCode], op)

/-- What follows a match that ends at `ip`. -/
def afterMatch (b : Build) (j : Job) (h : Heap) (table : Table) (ip op : Int) :
    Step Work Outcome :=
  if ip ≥ j.mflimitPlusOne then .done (lastLiterals j h table ip op)
  else
    let table := b.putIndexOnHashMasked table j.epoch (j.index (ip - 2))
      (b.hash4 (readLE h.mem (ip - 2) 4))
    let seqIp := readLE h.mem ip 4
    let current := j.index ip
    let matchIndex := b.getIndexOnHashMasked table j.epoch current (b.hash4 seqIp)
    let table := b.putIndexOnHashMasked table j.epoch current (b.hash4 seqIp)
    match tryIndex j h.mem current seqIp matchIndex with
    | some mtch => .next ⟨h.store op [0], table, .nextMatch (op + 1) op ip mtch⟩
    | none => .next ⟨h, table, enterSearch b j h.mem ip (ip + 1) op⟩

/-- From `_next_match_g` on. -/
def matchPass (b : Build) (j : Job) (h : Heap) (table : Table) (op token ip mtch : Int) :
    Step Work Outcome :=
  let h := h.store op (le16 ((ip - mtch) % 2 ^ 16).toNat)
  let op := op + 2
  let matchCode := count h.mem (ip + 4) (mtch + 4) j.matchlimit
  let (h, op) := writeMatchLength h token op matchCode
  afterMatch b j h table (ip + (matchCode + 4)) op

def compressPass (b : Build) (j : Job) (w : Work) : Step Work Outcome :=
  match w.place with
  | .search anchor op forwardIp step searchMatchNb forwardH forwardIpValue =>
    searchPass b j w.heap w.table anchor op forwardIp step searchMatchNb forwardH forwardIpValue
  | .nextMatch op token ip mtch => matchPass b j w.heap w.table op token ip mtch

/-- Before the loop: a short block has no matches, otherwise the first position is put in the
table. -/
def compressStart (b : Build) (j : Job) (h : Heap) (table : Table) : Step Work Outcome :=
  if j.srcSize < 12 + 1 then .done (lastLiterals j h table j.src j.dst)
  else
    let table := b.putIndexOnHashMasked table j.epoch 0 (b.hash4 (readLE h.mem j.src 4))
    .next ⟨h, table, enterSearch b j h.mem j.src (j.src + 1) j.dst⟩

/-- More passes than a call can take: at most one for each position, and one for each match. -/
def Job.passes (j : Job) : Nat := (j.srcSize.toNat + 2) * (j.srcSize.toNat + 2)

/-- `lz4_compress_core_accelerated` -/
def compressCoreAccelerated (b : Build) (j : Job) (h : Heap) (table : Table) : Option Outcome :=
  match compressStart b j h table with
  | .done o => some o
  | .next w => iterate (fun w => some (compressPass b j w)) j.passes w

end Lz4.Kernel
