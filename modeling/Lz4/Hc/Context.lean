import Lz4.Encoder.Fast

/-!
# The context of the high compressor

A position of the input has an index, a 32-bit number, which goes on counting from one
block to the next.  The indices from `prefixIdx` on stand for the bytes at `prefixPtr`, those
from `dictIdx` to `prefixIdx` for the bytes at `dictStart`; below there may be the contents of
an attached dictionary, whose own indices are translated.

A hash table contains indices.  A chain table contains for each index, modulo 64 KB, the
distance to the previous one with the same hash.
-/

namespace Lz4.Hc

open FlatMemory Machine
open Encoder (OutputDirective)

/-! ## Levels -/

/-- `lz4hc_strat_e` -/
inductive Strategy where
  | lz4mid
  | lz4hc
  | lz4opt
  deriving Repr, DecidableEq

/-- `cParams_t` -/
structure CParams where
  strat : Strategy
  nbSearches : Nat
  targetLength : Nat

/-- `k_clTable` -/
def clTable : Nat → CParams
  | 0 | 1 | 2 => ⟨.lz4mid, 2, 16⟩
  | 3 => ⟨.lz4hc, 4, 16⟩
  | 4 => ⟨.lz4hc, 8, 16⟩
  | 5 => ⟨.lz4hc, 16, 16⟩
  | 6 => ⟨.lz4hc, 32, 16⟩
  | 7 => ⟨.lz4hc, 64, 16⟩
  | 8 => ⟨.lz4hc, 128, 16⟩
  | 9 => ⟨.lz4hc, 256, 16⟩
  | 10 => ⟨.lz4opt, 96, 64⟩
  | 11 => ⟨.lz4opt, 512, 128⟩
  | _ => ⟨.lz4opt, 16384, 4096⟩

/-- `LZ4HC_getCLevelParams` -/
def getCLevelParams (cLevel : Int) : CParams :=
  let cLevel := if cLevel < 1 then 9 else cLevel
  clTable (min 12 cLevel).toNat

/-! ## Contexts -/

/-- What a compressor modifies in its context. -/
structure Tables where
  hashTable : Nat → Nat := fun _ => 0
  chainTable : Nat → UInt16 := fun _ => 0
  nextToUpdate : Nat := 0

/-- `LZ4HC_CCtx_internal`, without an attached dictionary.  `ending` is its field `end`, and
the defaults are those of `LZ4_initStreamHC`. -/
structure Context extends Tables where
  ending : Int := 0
  prefixStart : Int := 0
  dictStart : Int := 0
  dictLimit : Nat := 0
  lowLimit : Nat := 0
  compressionLevel : Int := 9
  favorDecSpeed : Bool := false
  dirty : Bool := false

/-- The index behind the last byte of a context. -/
def Context.endIndex (ctx : Context) : Nat := (ctx.ending - ctx.prefixStart).toNat + ctx.dictLimit

/-- What is fixed during a call.  `prefixIdx` and `dictIdx` are the fields `dictLimit` and
`lowLimit` of the context; `dictCtx` is the attached dictionary, if it is to be used. -/
structure Env where
  ptr32 : Bool
  limit : OutputDirective
  source : Int
  inputSize : Nat
  dest : Int
  maxOutputSize : Int
  prefixPtr : Int
  prefixIdx : Nat
  dictStart : Int
  dictIdx : Nat
  dictCtx : Option Context

namespace Env

variable (e : Env)

def iend : Int := e.source + e.inputSize

def mflimit : Int := e.iend - 12

def matchlimit : Int := e.iend - 5

/-- `sizeof(reg_t)` -/
def stepSize : Nat := if e.ptr32 then 4 else 8

/-- The index of a position, a `U32`. -/
def index (p : Int) : Nat := ((p - e.prefixPtr + e.prefixIdx) % 2 ^ 32).toNat

end Env

/-- The difference of two `U32`. -/
def sub32 (a b : Nat) : Nat := (a + 2 ^ 32 - b % 2 ^ 32) % 2 ^ 32

/-! ## Hashing -/

/-- `LZ4HC_hashPtr` -/
def hashPtr (m : Mem) (p : Int) : Nat := (readLE m p 4 * 2654435761 % 2 ^ 32) >>> (4 * 8 - 15)

/-- `LZ4MID_hash4Ptr` -/
def hash4Ptr (m : Mem) (p : Int) : Nat := (readLE m p 4 * 2654435761 % 2 ^ 32) >>> (32 - 14)

/-- `LZ4MID_hash8Ptr`, which uses seven of the eight bytes. -/
def hash8Ptr (m : Mem) (p : Int) : Nat :=
  ((readLE m p 8 <<< (64 - 56)) % 2 ^ 64 * 58295818150454627 % 2 ^ 64) >>> (64 - 14)

/-- `LZ4HC_Insert`, from the index `idx` on. -/
def insertLoop (e : Env) (m : Mem) : Nat → Nat → Tables → Tables
  | 0, _, t => t
  | n + 1, idx, t =>
    let h := hashPtr m (e.prefixPtr + idx - e.prefixIdx)
    let delta := sub32 idx (t.hashTable h)
    let delta := if delta > 65535 then 65535 else delta
    insertLoop e m n (idx + 1)
      { t with
        chainTable := Function.update t.chainTable (idx % 2 ^ 16) (UInt16.ofNat delta)
        hashTable := Function.update t.hashTable h idx }

/-- `LZ4HC_Insert`: all positions in front of `ip` go into the tables. -/
def insert (e : Env) (m : Mem) (t : Tables) (ip : Int) : Tables :=
  let target := e.index ip
  { insertLoop e m (target - t.nextToUpdate) t.nextToUpdate t with nextToUpdate := target }

/-- What a parser ends with.  `ip` is how far the input was used. -/
structure Outcome where
  result : Int
  ip : Int
  heap : Heap
  tables : Tables

end Lz4.Hc
