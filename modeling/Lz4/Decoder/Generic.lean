import Lz4.Decoder.Copy

/-!
# `LZ4_decompress_generic`

The decoder of `lib/lz4.c` on a flat memory, for a 64-bit `size_t`.  It consists
of two loops that share their tails: the fast loop copies in 16- and 32-byte
stripes while the output is at least 64 bytes from its end, and jumps into the
middle of the safe loop (`safe_literal_copy`, `safe_match_copy`) when a margin
is missed.  Each label of the source is a function here, and a jump is a call:

```text
fastStep ──▶ fastMatch ──▶ fastMatchCopy
   │             │
   ▼             ▼
safeLiteralCopy ─▶ getOffset ─▶ copyMatch ─▶ safeMatchCopy
   ▲                              ▲
   └────────── safeStep ──────────┘
```

One pass of a loop ends in a `Next`: another pass of one of the loops, or the
result of the call.  Addresses are integers, so the source's tests for wrapping
pointers are kept as they stand and never fire.
-/

namespace Lz4

open FlatMemory

/-- How data that precedes the current block is reached (`dict_directive`). -/
inductive DictDirective
  | noDict
  | withPrefix64k
  | usingExtDict
  | usingDictCtx
  deriving Repr, DecidableEq

namespace Decoder

/-- The arguments of a call and the pointers it derives from them. -/
structure Env where
  partialDecoding : Bool
  dict : DictDirective
  src : Int
  iend : Int
  dst : Int
  oend : Int
  lowPrefix : Int
  dictEnd : Int
  dictSize : Nat

/-- What one pass leads to: a further pass of the fast or the safe loop at
`(ip, op)`, or the end of the call. -/
inductive Next
  | loop (fast : Bool) (h : Heap) (ip op : Int)
  | ret (result : Int) (h : Heap)

/-- Bytes of a variable length, `n` of which may still be consumed before the
limit is passed.  A byte of 255 asks for another one. -/
def readLengthBytes (m : Mem) : Nat → Int → Nat → Option Nat × Int
  | 0, ip, _ => (none, ip + 1)
  | n + 1, ip, length =>
    let s := (m ip).toNat
    if s = 255 then readLengthBytes m n (ip + 1) (length + s)
    else (some (length + s), ip + 1)

/-- `read_variable_length`: the length (`none` is `rvl_error`) and the advanced
input pointer. -/
def readVariableLength (m : Mem) (ip ilimit : Int) (initialCheck : Bool) : Option Nat × Int :=
  if initialCheck ∧ ip ≥ ilimit then (none, ip)
  else readLengthBytes m (ilimit - ip).toNat ip 0

def readLE16 (m : Mem) (a : Int) : Nat := (m a).toNat + 256 * (m (a + 1)).toNat

namespace Env

def checkOffset (e : Env) : Prop := e.dictSize < 65536

instance (e : Env) : Decidable e.checkOffset := inferInstanceAs (Decidable (_ < _))

end Env

/-- `_output_error`: a negative result that tells the input position. -/
def outputError (e : Env) (h : Heap) (ip : Int) : Next :=
  .ret (-(ip - e.src) - 1) h

/-- A match that starts in the external dictionary; both loops hold this code. -/
def extDictMatch (e : Env) (fast : Bool) (h : Heap) (ip op : Int) (offset length : Nat) : Next :=
  let mtch := op - offset
  if op + length > e.oend - 5 ∧ ¬ e.partialDecoding then
    outputError e h ip -- doesn't respect the parsing restriction
  else
    let length := if op + length > e.oend - 5 then min length (e.oend - op).toNat else length
    let copySize := (e.lowPrefix - mtch).toNat
    if length ≤ copySize then
      -- match fits entirely within the external dictionary
      .loop fast (h.memcpy .window op (e.dictEnd - (e.lowPrefix - mtch)) length) ip (op + length)
    else
      -- match stretches into both the external dictionary and the current block
      let restSize := length - copySize
      let h := h.memcpy .window op (e.dictEnd - copySize) copySize
      let op := op + copySize
      let h :=
        if restSize > op - e.lowPrefix then byteCopy .window h op e.lowPrefix restSize
        else h.memcpy .window op e.lowPrefix restSize
      .loop fast h ip (op + restSize)

/-- The end of `safe_match_copy`: a match inside the current block. -/
def safePrefixCopy (e : Env) (h : Heap) (op : Int) (offset length : Nat) : Heap :=
  let cpy := op + length
  let (h, mtch) := copyFirst8 h op (op - offset) offset
  let op := op + 8
  if cpy > e.oend - 12 then
    -- wild copies must stop early enough, the rest goes byte by byte
    let oCopyLimit := e.oend - 7
    if op < oCopyLimit then
      let h := wildCopy8 .window h op mtch oCopyLimit
      byteCopy .window h oCopyLimit (mtch + (oCopyLimit - op)) (cpy - oCopyLimit).toNat
    else byteCopy .window h op mtch (cpy - op).toNat
  else
    let h := h.memcpy .window op mtch 8
    if length > 16 then wildCopy8 .window h (op + 8) (mtch + 8) cpy else h

/-- From label `safe_match_copy` on. -/
def safeMatchCopy (e : Env) (h : Heap) (ip op : Int) (offset length : Nat) : Next :=
  let mtch := op - offset
  if e.checkOffset ∧ mtch + e.dictSize < e.lowPrefix then
    outputError e h ip -- offset outside buffers
  else if e.dict = .usingExtDict ∧ mtch < e.lowPrefix then
    extDictMatch e false h ip op offset length
  else
    let cpy := op + length
    if e.partialDecoding ∧ cpy > e.oend - 12 then
      let mlen := min length (e.oend - op).toNat
      let copyEnd := op + mlen
      let h :=
        if mtch + mlen > op then byteCopy .window h op mtch mlen
        else h.memcpy .window op mtch mlen
      if copyEnd = e.oend then .ret (copyEnd - e.dst) h else .loop false h ip copyEnd
    else if cpy > e.oend - 12 ∧ cpy > e.oend - 5 then
      -- last 5 bytes must be literals; the first word is written before the test
      outputError e (copyFirst8 h op mtch offset).1 ip
    else .loop false (safePrefixCopy e h op offset length) ip cpy

/-- From label `_copy_match` on; `length` is the match field of the token. -/
def copyMatch (e : Env) (h : Heap) (ip op : Int) (offset length : Nat) : Next :=
  if length = 15 then
    match readVariableLength h.mem ip (e.iend - 5 + 1) false with
    | (none, ip') => outputError e (h.load .input ip (ip' - ip).toNat) ip'
    | (some addl, ip') =>
      let h := h.load .input ip (ip' - ip).toNat
      let length := length + addl
      if op + length < op then outputError e h ip' -- overflow detection
      else safeMatchCopy e h ip' op offset (length + 4)
  else safeMatchCopy e h ip op offset (length + 4)

/-- The offset that follows the literals. -/
def getOffset (e : Env) (h : Heap) (token : Nat) (ip op : Int) : Next :=
  copyMatch e (h.load .input ip 2) (ip + 2) op (readLE16 h.mem ip) (token % 16)

/-- From label `safe_literal_copy` on. -/
def safeLiteralCopy (e : Env) (h : Heap) (token : Nat) (ip op : Int) (length : Nat) : Next :=
  let cpy := op + length
  if cpy > e.oend - 12 ∨ ip + length > e.iend - 8 then
    -- the input or the output parsing restriction was hit
    if e.partialDecoding then
      let length := if ip + length > e.iend then (e.iend - ip).toNat else length
      let cpy := op + length
      let length := if cpy > e.oend then (e.oend - op).toNat else length
      let cpy := if cpy > e.oend then e.oend else cpy
      let h := h.memcpy .input op ip length
      if cpy = e.oend ∨ ip + length ≥ e.iend - 2 then .ret (op + length - e.dst) h
      else getOffset e h token (ip + length) (op + length)
    else if ip + length ≠ e.iend ∨ cpy > e.oend then
      outputError e h ip -- should have been the last run of literals
    else .ret (op + length - e.dst) (h.memcpy .input op ip length)
  else getOffset e (wildCopy8 .input h op ip cpy) token (ip + length) cpy

/-- One pass of the safe loop. -/
def safeStep (e : Env) (h : Heap) (ip op : Int) : Next :=
  let token := (h.mem ip).toNat
  let h := h.load .input ip 1
  let ip := ip + 1
  let length := token / 16
  if length ≠ 15 ∧ ip < e.iend - 14 - 2 ∧ op ≤ e.oend - 14 - 18 then
    -- two-stage shortcut: 16 bytes for the literals, 18 bytes for the match
    let h := h.memcpy .input op ip 16
    let op := op + length
    let ip := ip + length
    let length := token % 16
    let offset := readLE16 h.mem ip
    let h := h.load .input ip 2
    let ip := ip + 2
    let mtch := op - offset
    if length ≠ 15 ∧ offset ≥ 8 ∧ (e.dict = .withPrefix64k ∨ mtch ≥ e.lowPrefix) then
      .loop false (((h.memcpy .window op mtch 8).memcpy .window (op + 8) (mtch + 8) 8).memcpy
        .window (op + 16) (mtch + 16) 2) ip (op + ((length + 4 : Nat) : Int))
    else copyMatch e h ip op offset length
  else if length = 15 then
    match readVariableLength h.mem ip (e.iend - 15) true with
    | (none, ip') => outputError e (h.load .input ip (ip' - ip).toNat) ip'
    | (some addl, ip') =>
      let h := h.load .input ip (ip' - ip).toNat
      let length := length + addl
      if op + length < op then outputError e h ip' -- overflow detection
      else if ip' + length < ip' then outputError e h ip'
      else safeLiteralCopy e h token ip' op length
  else safeLiteralCopy e h token ip op length

/-- The fast loop's copy of a match that is not served by 18 bytes. -/
def fastMatchCopy (e : Env) (h : Heap) (ip op : Int) (offset length : Nat) : Next :=
  let mtch := op - offset
  if e.checkOffset ∧ mtch + e.dictSize < e.lowPrefix then
    outputError e h ip
  else if e.dict = .usingExtDict ∧ mtch < e.lowPrefix then
    extDictMatch e true h ip op offset length
  else
    let cpy := op + length
    let h :=
      if offset < 16 then memcpyUsingOffset h op mtch cpy offset
      else wildCopy32 .window h op mtch cpy
    .loop true h ip cpy

/-- The fast loop from the offset on. -/
def fastMatch (e : Env) (h : Heap) (token : Nat) (ip op : Int) : Next :=
  let offset := readLE16 h.mem ip
  let h := h.load .input ip 2
  let ip := ip + 2
  let mtch := op - offset
  let length := token % 16
  if length = 15 then
    match readVariableLength h.mem ip (e.iend - 5 + 1) false with
    | (none, ip') => outputError e (h.load .input ip (ip' - ip).toNat) ip'
    | (some addl, ip') =>
      let h := h.load .input ip (ip' - ip).toNat
      let length := length + addl + 4
      if op + length < op then outputError e h ip' -- overflow detection
      else if op + length ≥ e.oend - 64 then safeMatchCopy e h ip' op offset length
      else fastMatchCopy e h ip' op offset length
  else
    let length := length + 4
    if op + length ≥ e.oend - 64 then safeMatchCopy e h ip op offset length
    else if (e.dict = .withPrefix64k ∨ mtch ≥ e.lowPrefix) ∧ offset ≥ 8 then
      .loop true (((h.memcpy .window op mtch 8).memcpy .window (op + 8) (mtch + 8) 8).memcpy
        .window (op + 16) (mtch + 16) 2) ip (op + length)
    else fastMatchCopy e h ip op offset length

/-- One pass of the fast loop. -/
def fastStep (e : Env) (h : Heap) (ip op : Int) : Next :=
  let token := (h.mem ip).toNat
  let h := h.load .input ip 1
  let ip := ip + 1
  let length := token / 16
  if length = 15 then
    match readVariableLength h.mem ip (e.iend - 15) true with
    | (none, ip') => outputError e (h.load .input ip (ip' - ip).toNat) ip'
    | (some addl, ip') =>
      let h := h.load .input ip (ip' - ip).toNat
      let length := length + addl
      if op + length < op then outputError e h ip' -- overflow detection
      else if ip' + length < ip' then outputError e h ip'
      else if op + length > e.oend - 32 ∨ ip' + length > e.iend - 32 then
        safeLiteralCopy e h token ip' op length
      else
        fastMatch e (wildCopy32 .input h op ip' (op + length)) token (ip' + length) (op + length)
  else if ip ≤ e.iend - (16 + 1) then
    -- literals can only be up to 14 bytes, a 16-byte stripe covers them
    fastMatch e (h.memcpy .input op ip 16) token (ip + length) (op + length)
  else safeLiteralCopy e h token ip op length

def step (e : Env) (fast : Bool) (h : Heap) (ip op : Int) : Next :=
  if fast then fastStep e h ip op else safeStep e h ip op

/-- At most `fuel` passes. -/
def run (e : Env) : Nat → Next → Option (Int × Heap)
  | _, .ret result h => some (result, h)
  | 0, .loop _ _ _ _ => none
  | fuel + 1, .loop fast h ip op => run e fuel (step e fast h ip op)

/-- A pass entered at `ip₀` ends in `Inv` further into the input, or returns with `Post`. -/
def Next.Ends (Inv : Bool → Heap → Int → Int → Prop) (Post : Int → Heap → Prop) (ip₀ : Int) :
    Next → Prop
  | .loop fast h ip op => Inv fast h ip op ∧ ip₀ < ip
  | .ret result h => Post result h

/-- The invariant rule of the two loops: an invariant that implies that input is
left, and that every pass keeps or turns into `Post`, makes the run end in `Post`. -/
theorem run_ends {e : Env} {Inv : Bool → Heap → Int → Int → Prop} {Post : Int → Heap → Prop}
    (hinput : ∀ {fast h ip op}, Inv fast h ip op → ip < e.iend)
    (hstep : ∀ {fast h ip op}, Inv fast h ip op → (step e fast h ip op).Ends Inv Post ip)
    {fuel : Nat} {fast : Bool} {h : Heap} {ip op : Int} (hinv : Inv fast h ip op)
    (hfuel : e.iend - ip ≤ fuel) :
    ∃ r h', run e fuel (.loop fast h ip op) = some (r, h') ∧ Post r h' := by
  induction fuel generalizing fast h ip op with
  | zero =>
    have := hinput hinv
    omega
  | succ fuel ih =>
    have hends := hstep hinv
    rw [run]
    cases hnext : step e fast h ip op with
    | loop fast' h' ip' op' =>
      rw [hnext] at hends
      obtain ⟨hinv', hlt⟩ := hends
      exact ih hinv' (by omega)
    | ret r h' =>
      rw [hnext] at hends
      exact ⟨r, h', by simp only [run], hends⟩

/-- The states a run passes through. -/
inductive Visited (e : Env) (start : Next) : Next → Prop
  | here : Visited e start start
  | step {fast : Bool} {h : Heap} {ip op : Int} :
      Visited e start (.loop fast h ip op) → Visited e start (step e fast h ip op)

/-- An invariant that every pass keeps holds in every state a run passes through. -/
theorem Visited.ends {e : Env} {Inv : Bool → Heap → Int → Int → Prop} {Post : Int → Heap → Prop}
    (hstep : ∀ {fast h ip op}, Inv fast h ip op → (Decoder.step e fast h ip op).Ends Inv Post ip)
    {start next : Next} {ip₀ : Int} (hstart : start.Ends Inv Post ip₀)
    (visited : Visited e start next) : ∃ ip, next.Ends Inv Post ip := by
  induction visited with
  | here => exact ⟨ip₀, hstart⟩
  | step _ ih =>
    obtain ⟨_, hinv, -⟩ := ih
    exact ⟨_, hstep hinv⟩

theorem Visited.trans {e : Env} {start mid next : Next} (first : Visited e start mid)
    (second : Visited e mid next) : Visited e start next := by
  induction second with
  | here => exact first
  | step _ ih => exact ih.step

/-- The pointers a call works with. -/
def callEnv (src dst : Int) (srcSize : Nat) (outputSize : Int) (partialDecoding : Bool)
    (dict : DictDirective) (lowPrefix dictStart : Int) (dictSize : Nat) : Env :=
  { partialDecoding, dict, src, iend := src + srcSize, dst, oend := dst + outputSize,
    lowPrefix, dictEnd := if dictStart = 0 then 0 else dictStart + dictSize, dictSize }

/-- The fast loop is compiled in, and the output is large enough for it. -/
def entersFastLoop (fastDecLoop : Bool) (e : Env) : Bool :=
  fastDecLoop && !decide (e.oend - e.dst < 64)

end Decoder

open Decoder

/-- `LZ4_decompress_generic`, built with `LZ4_FAST_DEC_LOOP = fastDecLoop`.
Every pass consumes input, so one unit of fuel per input byte is enough. -/
def decompressGeneric (fastDecLoop : Bool) (h : Heap) (src dst : Int) (srcSize : Nat)
    (outputSize : Int) (partialDecoding : Bool) (dict : DictDirective) (lowPrefix : Int)
    (dictStart : Int) (dictSize : Nat) : Option (Int × Heap) :=
  if src = 0 ∨ outputSize < 0 then some (-1, h)
  else
    let e := callEnv src dst srcSize outputSize partialDecoding dict lowPrefix dictStart dictSize
    if outputSize = 0 then
      if partialDecoding then some (0, h)
      else if srcSize = 1 then
        some (if h.mem src = 0 then 0 else -1, h.load .input src 1)
      else some (-1, h)
    else if srcSize = 0 then some (-1, h)
    else run e srcSize (.loop (entersFastLoop fastDecLoop e) h src dst)

section Api

variable (fastDecLoop : Bool) (h : Heap) (source dest : Int) (compressedSize : Nat)

def decompressSafe (maxDecompressedSize : Int) : Option (Int × Heap) :=
  decompressGeneric fastDecLoop h source dest compressedSize maxDecompressedSize false .noDict
    dest 0 0

def decompressSafePartial (targetOutputSize dstCapacity : Int) : Option (Int × Heap) :=
  decompressGeneric fastDecLoop h source dest compressedSize (min targetOutputSize dstCapacity)
    true .noDict dest 0 0

def decompressSafeWithPrefix64k (maxOutputSize : Int) : Option (Int × Heap) :=
  decompressGeneric fastDecLoop h source dest compressedSize maxOutputSize false .withPrefix64k
    (dest - 65536) 0 0

def decompressSafePartialWithPrefix64k (targetOutputSize dstCapacity : Int) :
    Option (Int × Heap) :=
  decompressGeneric fastDecLoop h source dest compressedSize (min targetOutputSize dstCapacity)
    true .withPrefix64k (dest - 65536) 0 0

def decompressSafeWithSmallPrefix (maxOutputSize : Int) (prefixSize : Nat) :
    Option (Int × Heap) :=
  decompressGeneric fastDecLoop h source dest compressedSize maxOutputSize false .noDict
    (dest - prefixSize) 0 0

def decompressSafePartialWithSmallPrefix (targetOutputSize dstCapacity : Int)
    (prefixSize : Nat) : Option (Int × Heap) :=
  decompressGeneric fastDecLoop h source dest compressedSize (min targetOutputSize dstCapacity)
    true .noDict (dest - prefixSize) 0 0

def decompressSafeForceExtDict (maxOutputSize : Int) (dictStart : Int) (dictSize : Nat) :
    Option (Int × Heap) :=
  decompressGeneric fastDecLoop h source dest compressedSize maxOutputSize false .usingExtDict
    dest dictStart dictSize

def decompressSafePartialForceExtDict (targetOutputSize dstCapacity : Int) (dictStart : Int)
    (dictSize : Nat) : Option (Int × Heap) :=
  decompressGeneric fastDecLoop h source dest compressedSize (min targetOutputSize dstCapacity)
    true .usingExtDict dest dictStart dictSize

/-- The "double dictionary" mode: the first part of the history is the prefix,
the second part an external dictionary. -/
def decompressSafeDoubleDict (maxOutputSize : Int) (prefixSize : Nat) (dictStart : Int)
    (dictSize : Nat) : Option (Int × Heap) :=
  decompressGeneric fastDecLoop h source dest compressedSize maxOutputSize false .usingExtDict
    (dest - prefixSize) dictStart dictSize

def decompressSafeUsingDict (maxOutputSize : Int) (dictStart : Int) (dictSize : Nat) :
    Option (Int × Heap) :=
  if dictSize = 0 then decompressSafe fastDecLoop h source dest compressedSize maxOutputSize
  else if dictStart + dictSize = dest then
    if dictSize ≥ 65536 - 1 then
      decompressSafeWithPrefix64k fastDecLoop h source dest compressedSize maxOutputSize
    else
      decompressSafeWithSmallPrefix fastDecLoop h source dest compressedSize maxOutputSize dictSize
  else
    decompressSafeForceExtDict fastDecLoop h source dest compressedSize maxOutputSize dictStart
      dictSize

def decompressSafePartialUsingDict (targetOutputSize dstCapacity : Int) (dictStart : Int)
    (dictSize : Nat) : Option (Int × Heap) :=
  if dictSize = 0 then
    decompressSafePartial fastDecLoop h source dest compressedSize targetOutputSize dstCapacity
  else if dictStart + dictSize = dest then
    if dictSize ≥ 65536 - 1 then
      decompressSafePartialWithPrefix64k fastDecLoop h source dest compressedSize targetOutputSize
        dstCapacity
    else
      decompressSafePartialWithSmallPrefix fastDecLoop h source dest compressedSize
        targetOutputSize dstCapacity dictSize
  else
    decompressSafePartialForceExtDict fastDecLoop h source dest compressedSize targetOutputSize
      dstCapacity dictStart dictSize

end Api

end Lz4
