import Lz4.Decoder.Copy
import Lz4.Format.Block
import Lz4.Lib.LittleEndian
import Lz4.Lib.Machine
import Mathlib.Logic.Function.Basic

/-!
# The block compressor

`LZ4_compress_generic_validated` for every output directive, table type and
dictionary directive.  In the source these are compile-time arguments of one inlined
function; here they are fields of `Env`, together with the pointers that do not change
during a call.

The function consists of two nested loops and two labels.  The search for a match is a
loop of its own (`searchStep`); around it the main loop goes from the search to
`_next_match`, possibly back to `_next_match` several times, and then to the next search
or to `_last_literals`.  `Next` lists the places between which `step` moves.

Pointers are integers.  Indices in the hash table are 32-bit numbers and wrap around,
and so does the counter that makes the search skip.  A word is read in little-endian
order; `ptr32` selects the layout of a 32-bit target, on which words have four bytes and
a table of pointers may be used.
-/

namespace Lz4.Encoder

open FlatMemory Machine

inductive OutputDirective where
  | notLimited
  | limitedOutput
  | fillOutput
  deriving Repr, DecidableEq

inductive TableType where
  | clearedTable
  | byPtr
  | byU32
  | byU16
  deriving Repr, DecidableEq

inductive DictDirective where
  | noDict
  | withPrefix64k
  | usingExtDict
  | usingDictCtx
  deriving Repr, DecidableEq

/-- A hash table.  Pointers are stored as numbers, and `0` is `NULL`. -/
abbrev Table := Nat → Nat

/-- What is fixed during a call.  `dictionary` and `dictSize` are those of the attached
context for `usingDictCtx`, as are `dictTable` and `dictOffset` (its `currentOffset`). -/
structure Env where
  ptr32 : Bool
  outputDirective : OutputDirective
  tableType : TableType
  dictDirective : DictDirective
  dictSmall : Bool
  acceleration : Int
  source : Int
  inputSize : Nat
  dest : Int
  maxOutputSize : Int
  startIndex : Nat
  dictionary : Int
  dictSize : Nat
  dictTable : Table
  dictOffset : Nat

namespace Env

variable (e : Env)

def iend : Int := e.source + e.inputSize

/-- No match starts at or behind `iend - MFLIMIT + 1`. -/
def mflimitPlusOne : Int := e.iend - 12 + 1

/-- No match ends behind `iend - LASTLITERALS`. -/
def matchlimit : Int := e.iend - 5

def olimit : Int := e.dest + e.maxOutputSize

def base : Int := e.source - e.startIndex

def maybeExtMem : Bool :=
  e.dictDirective = .usingExtDict || e.dictDirective = .usingDictCtx

def prefixIdxLimit : Nat := (e.startIndex + 2 ^ 32 - e.dictSize) % 2 ^ 32

def dictDelta : Nat :=
  if e.dictDirective = .usingDictCtx then (e.startIndex + 2 ^ 32 - e.dictOffset) % 2 ^ 32 else 0

def dictEnd : Int := if e.dictionary = 0 then 0 else e.dictionary + e.dictSize

def dictBase : Int :=
  if e.dictionary = 0 then 0
  else if e.dictDirective = .usingDictCtx then e.dictionary + e.dictSize - e.dictOffset
  else e.dictionary + e.dictSize - e.startIndex

def lowLimit : Int :=
  e.source - if e.dictDirective = .withPrefix64k then (e.dictSize : Int) else 0

/-- `sizeof(reg_t)`. -/
def stepSize : Nat := if e.ptr32 then 4 else 8

/-- The index of a position, a `U32`. -/
def index (p : Int) : Nat := ((p - e.base) % 2 ^ 32).toNat

end Env

/-! ## The hash table -/

def hash4 (sequence : Nat) (tableType : TableType) : Nat :=
  if tableType = .byU16 then (sequence * 2654435761 % 2 ^ 32) >>> (32 - 13)
  else (sequence * 2654435761 % 2 ^ 32) >>> (32 - 12)

def hash5 (sequence : Nat) (tableType : TableType) : Nat :=
  let hashLog := if tableType = .byU16 then 13 else 12
  ((sequence <<< 24) % 2 ^ 64 * 889523592379 % 2 ^ 64) >>> (64 - hashLog)

/-- `LZ4_hashPosition` -/
def hashAt (ptr32 : Bool) (tableType : TableType) (m : Mem) (p : Int) : Nat :=
  if ptr32 = false ∧ tableType ≠ .byU16 then hash5 (readLE m p 8) tableType
  else hash4 (readLE m p 4) tableType

def hashPosition (e : Env) (m : Mem) (p : Int) : Nat := hashAt e.ptr32 e.tableType m p

/-- `LZ4_putPositionOnHash` or `LZ4_putIndexOnHash` for the position `p`. -/
def putOnHash (e : Env) (table : Table) (h : Nat) (p : Int) : Table :=
  Function.update table h <|
    match e.tableType with
    | .byPtr => p.toNat
    | .byU16 => e.index p % 2 ^ 16
    | _ => e.index p

/-! ## Looking for a match -/

/-- A possible match for the position with index `current`. -/
structure Candidate where
  matchPtr : Int
  lowLimit : Int
  matchIndex : Nat
  current : Nat

/-- What the table says about the position `ip`, whose hash is `h`. -/
def candidate (e : Env) (table : Table) (h : Nat) (ip : Int) : Candidate :=
  let matchIndex := table h
  let current := e.index ip
  if e.tableType = .byPtr then ⟨matchIndex, e.lowLimit, matchIndex, current⟩
  else
    match e.dictDirective with
    | .usingDictCtx =>
      if matchIndex < e.startIndex then
        -- there was no match, try the dictionary
        let matchIndex := e.dictTable h
        ⟨e.dictBase + matchIndex, e.dictionary, (matchIndex + e.dictDelta) % 2 ^ 32, current⟩
      else ⟨e.base + matchIndex, e.source, matchIndex, current⟩
    | .usingExtDict =>
      if matchIndex < e.startIndex then
        ⟨e.dictBase + matchIndex, e.dictionary, matchIndex, current⟩
      else ⟨e.base + matchIndex, e.source, matchIndex, current⟩
    | _ => ⟨e.base + matchIndex, e.lowLimit, matchIndex, current⟩

/-- The candidate is neither outside the valid area nor too far away. -/
def inRange (e : Env) (ip : Int) (c : Candidate) : Bool :=
  if e.tableType = .byPtr then ip ≤ c.matchPtr + 65535
  else
    !(e.dictSmall && c.matchIndex < e.prefixIdxLimit) &&
      (e.tableType = .byU16 || c.current ≤ (c.matchIndex + 65535) % 2 ^ 32)

/-- A match: `matchPtr` repeats at `ip`.  `offset` is used for external memory only;
elsewhere it is the distance of the two pointers. -/
structure Found where
  ip : Int
  matchPtr : Int
  lowLimit : Int
  offset : Nat

/-- Test the candidate for the position `ip`. -/
def tryMatch (e : Env) (m : Mem) (table : Table) (h : Nat) (ip : Int) : Option Found :=
  let c := candidate e table h ip
  if inRange e ip c && readLE m c.matchPtr 4 = readLE m ip 4 then
    some ⟨ip, c.matchPtr, c.lowLimit, (c.current + 2 ^ 32 - c.matchIndex) % 2 ^ 32⟩
  else none

/-- A 32-bit signed integer. -/
def wrap32 (x : Int) : Int := (x + 2 ^ 31) % 2 ^ 32 - 2 ^ 31

/-- The variables of the search loop. -/
structure Search where
  forwardIp : Int
  step : Int
  searchMatchNb : Int
  forwardH : Nat
  table : Table

/-- One pass of the search.  It ends with a match, or with `none` close to the end. -/
def searchStep (e : Env) (m : Mem) (s : Search) : Step Search (Option Found × Table) :=
  let ip := s.forwardIp
  let forwardIp := ip + s.step
  if forwardIp > e.mflimitPlusOne then .done (none, s.table)
  else
    let table := putOnHash e s.table s.forwardH ip
    match tryMatch e m s.table s.forwardH ip with
    | some found => .done (some found, table)
    | none =>
      .next
        { forwardIp
          step := s.searchMatchNb / 2 ^ 6
          searchMatchNb := wrap32 (s.searchMatchNb + 1)
          forwardH := hashPosition e m forwardIp
          table }

def search (e : Env) (m : Mem) (table : Table) (ip : Int) (forwardH : Nat) :
    Option (Option Found × Table) :=
  iterate (fun s => some (searchStep e m s)) (e.inputSize + 1)
    ⟨ip, 1, wrap32 (e.acceleration * 2 ^ 6), forwardH, table⟩

/-- `while (ip > anchor && match > lowLimit && ip[-1] == match[-1]) { ip--; match--; }` -/
def catchUpLoop (m : Mem) (anchor lowLimit : Int) : Nat → Int → Int → Int × Int
  | 0, ip, matchPtr => (ip, matchPtr)
  | fuel + 1, ip, matchPtr =>
    if ip > anchor ∧ matchPtr > lowLimit ∧ m (ip - 1) = m (matchPtr - 1) then
      catchUpLoop m anchor lowLimit fuel (ip - 1) (matchPtr - 1)
    else (ip, matchPtr)

/-- The match is extended backwards.  The first byte is not compared with `anchor`. -/
def catchUp (m : Mem) (anchor : Int) (found : Found) : Found :=
  if found.matchPtr > found.lowLimit ∧ m (found.ip - 1) = m (found.matchPtr - 1) then
    let (ip, matchPtr) := catchUpLoop m anchor found.lowLimit (found.ip - anchor).toNat
      (found.ip - 1) (found.matchPtr - 1)
    { found with ip, matchPtr }
  else found

/-! ## The length of a match -/

/-- The loop of `LZ4_count` over whole words; its first pass stands before the loop in the
source.  The second component says that a difference was found. -/
def countWords (stepSize : Nat) (m : Mem) (pInLimit : Int) : Nat → Int → Int → Nat → Nat × Bool
  | 0, _, _, n => (n, false)
  | fuel + 1, pIn, pMatch, n =>
    if pIn < pInLimit - (stepSize - 1) then
      let diff := readLE m pMatch stepSize ^^^ readLE m pIn stepSize
      if diff = 0 then
        countWords stepSize m pInLimit fuel (pIn + stepSize) (pMatch + stepSize) (n + stepSize)
      else (n + lowZeroBytes stepSize diff, true)
    else (n, false)

/-- `LZ4_count` -/
def count (stepSize : Nat) (m : Mem) (pIn pMatch pInLimit : Int) : Nat :=
  let (n, differs) := countWords stepSize m pInLimit (pInLimit - pIn).toNat pIn pMatch 0
  if differs then n
  else
    let n := if stepSize = 8 ∧ pIn + n < pInLimit - 3 ∧
      readLE m (pMatch + n) 4 = readLE m (pIn + n) 4 then n + 4 else n
    let n := if pIn + n < pInLimit - 1 ∧
      readLE m (pMatch + n) 2 = readLE m (pIn + n) 2 then n + 2 else n
    if pIn + n < pInLimit ∧ m (pMatch + n) = m (pIn + n) then n + 1 else n

/-- The length of a match beyond `MINMATCH`, and where the match ends. -/
def measureMatch (e : Env) (m : Mem) (found : Found) : Nat × Int :=
  if e.maybeExtMem ∧ found.lowLimit = e.dictionary then
    -- the match starts in the dictionary and may go on at the start of the input
    let limit := min (found.ip + (e.dictEnd - found.matchPtr)) e.matchlimit
    let matchCode := count e.stepSize m (found.ip + 4) (found.matchPtr + 4) limit
    let ip := found.ip + matchCode + 4
    if ip = limit then
      let more := count e.stepSize m limit e.source e.matchlimit
      (matchCode + more, ip + more)
    else (matchCode, ip)
  else
    let matchCode := count e.stepSize m (found.ip + 4) (found.matchPtr + 4) e.matchlimit
    (matchCode, found.ip + matchCode + 4)

/-! ## Writing a sequence -/

/-- `for (; len >= 255; len -= 255) *op++ = 255; *op++ = (BYTE)len;` with `len` split into
`255 * n + rest`. -/
def writeLength (h : Heap) (op : Int) (rest : UInt8) : Nat → Heap × Int
  | 0 => (h.store op [rest], op + 1)
  | n + 1 => writeLength (h.store op [255]) (op + 1) rest n

/-- The literal length: the high half of the token, and the bytes behind it. -/
def writeRun (h : Heap) (token op : Int) (length : Nat) : Heap × Int :=
  if length ≥ 15 then
    let len := length - 15
    writeLength (h.store token [UInt8.ofNat (15 <<< 4)]) op (UInt8.ofNat (len % 255)) (len / 255)
  else (h.store token [UInt8.ofNat (length <<< 4)], op)

/-- What becomes of the literals in front of a match. -/
inductive Literals where
  | fail
  | full
  | written (h : Heap) (op : Int)

/-- Encode the literals from `anchor` to `ip`, with their token at `token`. -/
def encodeLiterals (e : Env) (h : Heap) (anchor ip token : Int) : Literals :=
  let litLength := (ip - anchor).toNat
  let op := token + 1
  if e.outputDirective = .limitedOutput ∧
      op + litLength + (2 + 1 + 5) + (litLength / 255 : Nat) > e.olimit then .fail
  else if e.outputDirective = .fillOutput ∧
      op + ((litLength + 240) / 255 : Nat) + litLength + 2 + 1 + 12 - 4 > e.olimit then .full
  else
    let (h, op) := writeRun h token op litLength
    .written (wildCopy8 .input h op anchor (op + litLength)) (op + litLength)

/-- The words of ones that a long match length starts with. -/
def writeOnes (h : Heap) (op : Int) : Nat → Heap
  | 0 => h.store op [255, 255, 255, 255]
  | n + 1 => writeOnes (h.store op [255, 255, 255, 255]) (op + 4) n

/-- The match length: the low half of the token, and the bytes at `op`. -/
def encodeMatchLength (h : Heap) (token op : Int) (matchCode : Nat) : Heap × Int :=
  if matchCode ≥ 15 then
    let h := h.store token [h.mem token + 15]
    let matchCode := matchCode - 15
    -- `while (matchCode >= 4*255)`
    let words := matchCode / 1020
    let h := writeOnes h op words
    let matchCode := matchCode % 1020
    let op := op + 4 * (words : Nat) + (matchCode / 255 : Nat)
    (h.store op [UInt8.ofNat (matchCode % 255)], op + 1)
  else (h.store token [h.mem token + UInt8.ofNat matchCode], op)

/-! ## The main loop -/

/-- What a call ends with: the result, how far the input was used, memory and table. -/
structure Outcome where
  result : Int
  ip : Int
  heap : Heap
  table : Table

/-- The last literals and their token do not fit. -/
def runTooLong (e : Env) (op : Int) (lastRun : Nat) : Prop :=
  op + lastRun + 1 + ((lastRun + 255 - 15) / 255 : Nat) > e.olimit

instance (e : Env) (op : Int) (lastRun : Nat) : Decidable (runTooLong e op lastRun) :=
  inferInstanceAs (Decidable (_ > _))

/-- The number of last literals, adapted to fill `dst` if that is asked for. -/
def lastRunLength (e : Env) (anchor op : Int) : Nat :=
  let lastRun := (e.iend - anchor).toNat
  if e.outputDirective = .fillOutput ∧ runTooLong e op lastRun then
    let lastRun := (e.olimit - op - 1).toNat
    lastRun - (lastRun + 256 - 15) / 256
  else lastRun

/-- `_last_literals` -/
def lastLiterals (e : Env) (h : Heap) (table : Table) (anchor op : Int) : Outcome :=
  if e.outputDirective = .limitedOutput ∧ runTooLong e op (e.iend - anchor).toNat then
    ⟨0, anchor, h, table⟩
  else
    let lastRun := lastRunLength e anchor op
    let (h, op) := writeRun h op (op + 1) lastRun
    let h := h.memcpy .input op anchor lastRun
    ⟨op + lastRun - e.dest, anchor + lastRun, h, table⟩

/-- Places in the main loop.  `nextMatch` is `_next_match`. -/
inductive Next where
  | search (h : Heap) (table : Table) (anchor ip op : Int) (forwardH : Nat)
  | nextMatch (h : Heap) (table : Table) (anchor op token : Int) (found : Found) (filledIp : Int)

/-- Positions from `ptr` on are removed from the table. -/
def clearHashes (e : Env) (m : Mem) : Nat → Int → Table → Table
  | 0, _, table => table
  | n + 1, ptr, table =>
    clearHashes e m n (ptr + 1) (Function.update table (hashPosition e m ptr) 0)

/-- What follows a match that ends at `ip`. -/
def afterMatch (e : Env) (h : Heap) (table : Table) (ip op filledIp : Int) : Step Next Outcome :=
  if ip ≥ e.mflimitPlusOne then .done (lastLiterals e h table ip op)
  else
    -- fill the table, then test the next position
    let table := putOnHash e table (hashPosition e h.mem (ip - 2)) (ip - 2)
    let hash := hashPosition e h.mem ip
    match tryMatch e h.mem table hash ip with
    | some found =>
      .next (.nextMatch (h.store op [0]) (putOnHash e table hash ip) ip (op + 1) op found
        filledIp)
    | none =>
      .next (.search h (putOnHash e table hash ip) ip (ip + 1) op
        (hashPosition e h.mem (ip + 1)))

/-- From `_next_match` on: the offset and the length of the match, whose literals and token
are already written. -/
def nextMatch (e : Env) (h : Heap) (table : Table) (anchor op token : Int) (found : Found)
    (filledIp : Int) : Step Next Outcome :=
  if e.outputDirective = .fillOutput ∧ op + 2 + 1 + 12 - 4 > e.olimit then
    -- the match was too close to the end, rewind
    .done (lastLiterals e h table anchor token)
  else
    let offset := if e.maybeExtMem then found.offset % 2 ^ 16
      else ((found.ip - found.matchPtr) % 2 ^ 16).toNat
    let h := h.store op (le16 offset)
    let op := op + 2
    let (matchCode, ip) := measureMatch e h.mem found
    if e.outputDirective ≠ .notLimited ∧
        op + (1 + 5) + ((matchCode + 240) / 255 : Nat) > e.olimit then
      if e.outputDirective = .fillOutput then
        -- match description too long, reduce it
        let newMatchCode := ((15 - 1 + (e.olimit - op - 1 - 5) * 255) % 2 ^ 32).toNat
        let ip := ip - (matchCode - newMatchCode : Nat)
        let table := if ip ≤ filledIp then
          clearHashes e h.mem (filledIp - ip + 1).toNat ip table else table
        let (h, op) := encodeMatchLength h token op newMatchCode
        afterMatch e h table ip op filledIp
      else .done ⟨0, ip, h, table⟩
    else
      let (h, op) := encodeMatchLength h token op matchCode
      afterMatch e h table ip op filledIp

def step (e : Env) : Next → Option (Step Next Outcome)
  | .search h table anchor ip op forwardH => do
    let (found?, table) ← search e h.mem table ip forwardH
    match found? with
    | none => return .done (lastLiterals e h table anchor op)
    | some found =>
      let filledIp := found.ip
      let found := catchUp h.mem anchor found
      match encodeLiterals e h anchor found.ip op with
      | .fail => return .done ⟨0, anchor, h, table⟩
      | .full => return .done (lastLiterals e h table anchor op)
      | .written h op' => return .next (.nextMatch h table anchor op' op found filledIp)
  | .nextMatch h table anchor op token found filledIp =>
    some (nextMatch e h table anchor op token found filledIp)

/-- `LZ4_compress_generic_validated`, without the update of the context.  Every sequence
takes at least four bytes of input. -/
def compressGenericValidated (e : Env) (h : Heap) (table : Table) : Option Outcome :=
  if e.outputDirective = .fillOutput ∧ e.maxOutputSize < 1 then some ⟨0, e.source, h, table⟩
  else if e.inputSize < 13 then some (lastLiterals e h table e.source e.dest)
  else
    -- the first byte
    let table := putOnHash e table (hashPosition e h.mem e.source) e.source
    iterate (step e) (2 * e.inputSize + 2)
      (.search h table e.source (e.source + 1) e.dest (hashPosition e h.mem (e.source + 1)))

end Lz4.Encoder
