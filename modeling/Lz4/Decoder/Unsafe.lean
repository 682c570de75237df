import Lz4.Decoder.Stream
import Lz4.Decoder.UsingDict
import Lz4.Lib.Machine

/-!
# `LZ4_decompress_fast` and its relatives

The library has a second decoder.  `LZ4_decompress_unsafe_generic` is not told how long its
input is: it stops when the output is full.  It serves `LZ4_decompress_fast`,
`LZ4_decompress_fast_usingDict` and `LZ4_decompress_fast_continue`.

Nothing bounds the loops of this decoder but the bytes it reads, so they are run with fuel.  On a
block that respects the format, one pass does one sequence (`unsafePass_sequence`), and the
length of the block is enough fuel.  Then the decoder returns how many bytes the block has, and
has read no others (`decompressUnsafeGeneric_complete`).

A history that lacks the bytes a match refers to is noticed, at whatever sequence that is
(`decompressUnsafeGeneric_unreachable`).  This is what happens to
`LZ4_decompress_fast_continue` after a call that decoded nothing: it takes an empty prefix for
the beginning of the stream, and forgets the external dictionary.
-/

namespace Lz4

open FlatMemory Decoder Machine

/-! ## The functions -/

/-- The parameters of `LZ4_decompress_unsafe_generic`. -/
structure UnsafeCall where
  istart : Int
  ostart : Int
  decompressedSize : Nat
  prefixSize : Nat
  dictStart : Int
  dictSize : Nat

namespace UnsafeCall

def oend (c : UnsafeCall) : Int := c.ostart + c.decompressedSize

def prefixStart (c : UnsafeCall) : Int := c.ostart - c.prefixSize

def dictEnd (c : UnsafeCall) : Int := c.dictStart + c.dictSize

end UnsafeCall

/-- The variables of the main loop. -/
structure UnsafeState where
  heap : Heap
  ip : Int
  op : Int

/-- `read_long_length_no_check`: the length and the advanced input pointer, or `none` if more
than `fuel` bytes would have to be read. -/
def readLongLengthNoCheck (m : Mem) (fuel : Nat) (ip : Int) : Option (Nat × Int) :=
  match readLengthBytes m fuel ip 0 with
  | (some l, ip') => some (l, ip')
  | (none, _) => none

/-- The length that a 4-bit field of the token stands for. -/
def readUnsafeLength (h : Heap) (fuel field : Nat) (ip : Int) : Option (Nat × Int × Heap) :=
  if field = 15 then do
    let (l, ip') ← readLongLengthNoCheck h.mem fuel ip
    return (field + l, ip', h.load .input ip (ip' - ip).toNat)
  else some (field, ip, h)

/-- The copy of a match at `op`. -/
def unsafeCopy (c : UnsafeCall) (h : Heap) (op : Int) (offset ml : Nat) : Heap :=
  if offset > op - c.prefixStart then
    let extMatch := c.dictEnd - (offset - (op - c.prefixStart))
    let extml := (c.dictEnd - extMatch).toNat
    if extml > ml then
      -- match entirely within extDict
      h.memcpy .window op extMatch ml
    else
      -- match split between extDict & prefix
      let h := h.memcpy .window op extMatch extml
      byteCopy .window h (op + extml) c.prefixStart (ml - extml)
  else byteCopy .window h op (op - offset) ml

/-- The second half of a pass, from the offset on. -/
def unsafeMatch (c : UnsafeCall) (fuel token : Nat) (h : Heap) (ip op : Int) :
    Option (Step UnsafeState (Int × Heap)) := do
  let offset := readLE16 h.mem ip
  let (field, ip, h) ← readUnsafeLength (h.load .input ip 2) fuel (token % 16) (ip + 2)
  let ml := field + 4
  if c.oend - op < ml then return .done (-1, h)
  if offset > op - c.prefixStart + c.dictSize then return .done (-1, h)
  let h := unsafeCopy c h op offset ml
  let op := op + ml
  if c.oend - op < 5 then return .done (-1, h)
  return .next ⟨h, ip, op⟩

/-- One pass of the main loop. -/
def unsafePass (c : UnsafeCall) (fuel : Nat) (s : UnsafeState) :
    Option (Step UnsafeState (Int × Heap)) := do
  let token := (s.heap.mem s.ip).toNat
  let (ll, ip, h) ← readUnsafeLength (s.heap.load .input s.ip 1) fuel (token / 16) (s.ip + 1)
  if c.oend - s.op < ll then return .done (-1, h)
  let h := h.memcpy .input s.op ip ll
  let op := s.op + ll
  let ip := ip + ll
  if c.oend - op < 12 then
    if op = c.oend then return .done (ip - c.istart, h)
    return .done (-1, h)
  unsafeMatch c fuel token h ip op

/-- `LZ4_decompress_unsafe_generic`. -/
def decompressUnsafeGeneric (fuel : Nat) (h : Heap) (c : UnsafeCall) : Option (Int × Heap) :=
  iterate (unsafePass c fuel) fuel ⟨h, c.istart, c.ostart⟩

/-- `LZ4_decompress_fast`. -/
def decompressFast (fuel : Nat) (h : Heap) (source dest : Int) (originalSize : Nat) :
    Option (Int × Heap) :=
  decompressUnsafeGeneric fuel h ⟨source, dest, originalSize, 0, 0, 0⟩

/-- `LZ4_decompress_fast_extDict`. -/
def decompressFastExtDict (fuel : Nat) (h : Heap) (source dest : Int) (originalSize : Nat)
    (dictStart : Int) (dictSize : Nat) : Option (Int × Heap) :=
  decompressUnsafeGeneric fuel h ⟨source, dest, originalSize, 0, dictStart, dictSize⟩

/-- `LZ4_decompress_fast_usingDict`. -/
def decompressFastUsingDict (fuel : Nat) (h : Heap) (source dest : Int) (originalSize : Nat)
    (dictStart : Int) (dictSize : Nat) : Option (Int × Heap) :=
  if dictSize = 0 ∨ dictStart + dictSize = dest then
    decompressUnsafeGeneric fuel h ⟨source, dest, originalSize, dictSize, 0, 0⟩
  else decompressFastExtDict fuel h source dest originalSize dictStart dictSize

/-- `LZ4_decompress_fast_continue`. -/
def decompressFastContinue (fuel : Nat) (sd : StreamDecode) (h : Heap) (source dest : Int)
    (originalSize : Nat) : Option (Int × Heap × StreamDecode) :=
  if sd.prefixSize = 0 then do
    -- first invocation : no prefix nor extDict
    let (result, h) ← decompressFast fuel h source dest originalSize
    if result ≤ 0 then return (result, h, sd)
    return (result, h, { sd with
      prefixSize := originalSize, prefixEnd := dest + originalSize })
  else if sd.prefixEnd = dest then do
    -- continue using existing prefix
    let (result, h) ← decompressUnsafeGeneric fuel h
      ⟨source, dest, originalSize, sd.prefixSize, sd.externalDict, sd.extDictSize⟩
    if result ≤ 0 then return (result, h, sd)
    return (result, h, { sd with
      prefixSize := sd.prefixSize + originalSize, prefixEnd := sd.prefixEnd + originalSize })
  else do
    -- prefix becomes extDict
    let sd := { sd with
      extDictSize := sd.prefixSize, externalDict := sd.prefixEnd - sd.prefixSize }
    let (result, h) ← decompressFastExtDict fuel h source dest originalSize sd.externalDict
      sd.extDictSize
    if result ≤ 0 then return (result, h, sd)
    return (result, h, { sd with
      prefixSize := originalSize, prefixEnd := dest + originalSize })

/-! ## One pass -/

variable {n : Nat}

theorem readUnsafeLength_complete {h : Heap} (fuel : Nat) {ip : Int}
    (hholds : h.mem.Holds ip (lengthBytes n)) (hfuel : (lengthBytes n).length ≤ fuel) :
    ∃ h', readUnsafeLength h fuel (lengthField n) ip = some (n, ip + (lengthBytes n).length, h') ∧
      h'.mem = h.mem ∧ ∀ P m₀, P ⟨.input, ip, (lengthBytes n).length⟩ → h.Logged P m₀ →
      h'.Logged P m₀ := by
  unfold readUnsafeLength lengthField
  by_cases hshort : n < 15
  · rw [if_neg (by omega), Nat.min_eq_left (by omega), lengthBytes_of_lt hshort]
    exact ⟨h, by simp, rfl, fun _ _ _ hlog => hlog⟩
  · obtain ⟨k, rfl⟩ : ∃ k, n = 15 + k := ⟨n - 15, by omega⟩
    rw [if_pos (by omega), readLongLengthNoCheck, readLengthBytes_complete hholds hfuel]
    refine ⟨h.load .input ip (lengthBytes (15 + k)).length, ?_, rfl, ?_⟩
    · have hlength : (ip + ((lengthBytes (15 + k)).length : Int) - ip).toNat =
          (lengthBytes (15 + k)).length := by omega
      have hsum : min (15 + k) 15 + (0 + k) = 15 + k := by omega
      simp only [Option.bind_eq_bind, Option.bind_some, Option.pure_def, hlength, hsum]
    · intro P m₀ hread hlog
      exact Heap.logged_load hread hlog

namespace UnsafeCall

/-- The call, seen as one of the generic decoder on an input of `size` bytes. -/
def env (c : UnsafeCall) (size : Nat) : Env where
  partialDecoding := false
  dict := .usingExtDict
  src := c.istart
  iend := c.istart + size
  dst := c.ostart
  oend := c.oend
  lowPrefix := c.prefixStart
  dictEnd := c.dictEnd
  dictSize := c.dictSize

/-- Number of bytes before the output that a match may refer to. -/
def history (c : UnsafeCall) : Nat := c.prefixSize + c.dictSize

theorem serves (c : UnsafeCall) (size : Nat) : (c.env size).Serves c.history where
  lowPrefix_le := by
    show c.ostart - (c.prefixSize : Int) ≤ c.ostart
    omega
  dst_le := by
    show c.ostart ≤ c.ostart + (c.decompressedSize : Int)
    omega
  dictSize_eq hdict := absurd rfl hdict
  prefix64k hdict := by simp [env] at hdict
  full := rfl
  reach := by
    show max (c.ostart - ((c.prefixSize + c.dictSize : Nat) : Int)) (c.ostart - 65535) =
      max (c.ostart - (c.prefixSize : Int) - (c.dictSize : Int)) (c.ostart - 65535)
    omega

end UnsafeCall

variable {last history : List UInt8} {rest : List Sequence} {field offset ml : Nat} {s : Sequence}
  {b : Block}

section Pass

variable {c : UnsafeCall} {size : Nat} {source : Mem} {buf : List UInt8} {h : Heap} {ip op : Int}

theorem matchDone_unsafeCopy (hdst : c.ostart ≤ op) (hoffset : 1 ≤ offset) :
    MatchDone (c.env size) h.mem (unsafeCopy c h op offset ml).mem op offset ml (op + ml) := by
  have serves := c.serves size
  have hprefix : (c.env size).lowPrefix = c.prefixStart := rfl
  have hend : (c.env size).dictEnd = c.dictEnd := rfl
  unfold unsafeCopy
  split
  · have hbelow : op - offset < (c.env size).lowPrefix := by omega
    dsimp only
    split
    · have haddr : c.dictEnd - (offset - (op - c.prefixStart)) =
          (c.env size).dictEnd - ((c.env size).lowPrefix - (op - offset)) := by omega
      rw [haddr]
      exact matchDone_extDict serves.lowPrefix_le hdst hbelow (by omega)
    · rename_i hsplit
      obtain ⟨k, hk⟩ : ∃ k : Nat, (k : Int) = c.prefixStart - (op - offset) :=
        ⟨(c.prefixStart - (op - offset)).toNat, by omega⟩
      have haddr : c.dictEnd - (offset - (op - c.prefixStart)) = (c.env size).dictEnd - k := by
        omega
      have hextml : (c.dictEnd - ((c.env size).dictEnd - (k : Int))).toNat = k := by omega
      rw [haddr, hextml] at hsplit ⊢
      refine matchDone_split serves.lowPrefix_le hdst hbelow hk (by omega) ?_ ?_
      · intro a ha
        exact byteCopy_frame _ _ _ _ _ _ (by omega)
      · intro a hlow hhigh
        have hsource : c.prefixStart + (a - (op + k)) = a - offset := by omega
        rw [byteCopy_backward _ _ _ _ _ _ (by omega) hlow (by omega), hsource]
  · refine MatchDone.of_matchCopied ⟨?_, by omega, ?_⟩ (by omega)
    · intro a ha
      exact byteCopy_frame _ _ _ _ _ _ (by omega)
    · intro _ a hlow hhigh
      have hsource : op - offset + (a - op) = a - offset := by omega
      rw [byteCopy_backward _ _ _ _ _ _ (by omega) hlow (by omega), hsource]

theorem unsafeCopy_logged {m₀ : Mem} (hlog : h.Logged (InBounds (c.env size)) m₀)
    (hdst : c.ostart ≤ op) (hroom : op + ml ≤ c.oend)
    (hreach : offset ≤ op - c.prefixStart + c.dictSize) :
    (unsafeCopy c h op offset ml).Logged (InBounds (c.env size)) m₀ := by
  have hdown := inBounds_downward (c.env size)
  have hoend : (c.env size).oend = c.oend := rfl
  have hend : (c.env size).dictEnd = c.dictEnd := rfl
  have hsize : (c.env size).dictSize = c.dictSize := rfl
  have hlow : (c.env size).historyLow = c.prefixStart := if_neg (by simp [UnsafeCall.env])
  have hwrite : InBounds (c.env size) ⟨.output, op, ml⟩ := inBounds_output hdst hroom
  unfold unsafeCopy
  split
  · dsimp only
    split
    · refine Heap.logged_memcpy hwrite (inBounds_dictionary rfl ?_ ?_) hlog
      · omega
      · omega
    · set extml := (c.dictEnd - (c.dictEnd - (offset - (op - c.prefixStart)))).toNat with hextml
      have hfirst : (h.memcpy .window op (c.dictEnd - (offset - (op - c.prefixStart)))
          extml).Logged (InBounds (c.env size)) m₀ := by
        refine Heap.logged_memcpy (hdown _ _ _ _ _ (Int.le_refl _) (by omega) hwrite)
          (inBounds_dictionary rfl ?_ ?_) hlog
        · omega
        · omega
      refine byteCopy_logged hdown hfirst (inBounds_window ?_ ?_)
        (hdown _ _ _ _ _ ?_ ?_ hwrite)
      all_goals omega
  · refine byteCopy_logged hdown hlog (inBounds_window ?_ ?_) hwrite
    all_goals omega

/-- What every pass finds: memory is related to the list decoded so far, no access was out of
bounds, and the fuel is enough for any length in the input. -/
structure UnsafeAt (c : UnsafeCall) (size : Nat) (source : Mem) (fuel : Nat) (buf : List UInt8)
    (s : UnsafeState) : Prop where
  rel : Rel (c.env size) source c.history buf s.heap.mem s.ip s.op
  logged : s.heap.Logged (InBounds (c.env size)) source
  istart_le : c.istart ≤ s.ip
  fuel_ge : (size : Int) ≤ fuel

/-- What the caller of the decoder provides: the input is a buffer of its own, and so is the
dictionary. -/
structure UnsafeCall.Apart (c : UnsafeCall) (size : Nat) : Prop where
  separate : (c.env size).Separate
  clear : (c.env size).HistoryClear c.history 0

variable {fuel : Nat}

/-- A length of the input is read as it was written. -/
theorem UnsafeAt.readLength (at_ : UnsafeAt c size source fuel buf ⟨h, ip, op⟩) {k : Nat}
    (start : Int) (hstart : start = ip + k) (hholds : source.Holds start (lengthBytes n))
    (hiend : start + (lengthBytes n).length ≤ c.istart + size) :
    ∃ h', readUnsafeLength (h.load .input ip k) fuel (lengthField n) start =
      some (n, start + (lengthBytes n).length, h') ∧ h'.mem = h.mem ∧
      h'.Logged (InBounds (c.env size)) source := by
  obtain ⟨rel, hlog, histart, hfuel⟩ := at_
  dsimp only at rel hlog histart
  have hread : (h.load .input ip k).mem.Holds start (lengthBytes n) :=
    hholds.congr fun a hlow hhigh =>
      (rel.input a (by omega) (by show a < c.istart + size; omega)).symm
  obtain ⟨h', hcall, hmem, hlogged⟩ := readUnsafeLength_complete fuel hread (by omega)
  refine ⟨h', hcall, hmem, ?_⟩
  refine hlogged _ _ (inBounds_input ?_ hiend) (Heap.logged_load (inBounds_input histart ?_) hlog)
  · show c.istart ≤ start
    omega
  · show ip + (k : Int) ≤ c.istart + size
    omega

/-- The literals of a pass.  The run of literals may be followed by a match or end the block, so
the rest of the pass is left open. -/
theorem UnsafeAt.literals (apart : c.Apart size)
    (at_ : UnsafeAt c size source fuel buf ⟨h, ip, op⟩) {literals : List UInt8}
    (htoken : (source ip).toNat / 16 = lengthField literals.length)
    (hlength : source.Holds (ip + 1) (lengthBytes literals.length))
    (hliterals : source.Holds (ip + 1 + (lengthBytes literals.length).length) literals)
    (hiend : ip + 1 + (lengthBytes literals.length).length + literals.length ≤ c.istart + size)
    (hroom : op + literals.length ≤ c.oend) :
    ∃ h', (∀ f : Nat × Int × Heap → Option (Step UnsafeState (Int × Heap)),
        (readUnsafeLength (h.load .input ip 1) fuel ((h.mem ip).toNat / 16) (ip + 1) >>= f) =
          f (literals.length, ip + 1 + (lengthBytes literals.length).length, h')) ∧
      UnsafeAt c size source fuel (buf ++ literals)
        ⟨h'.memcpy .input op (ip + 1 + (lengthBytes literals.length).length) literals.length,
          ip + 1 + (lengthBytes literals.length).length + literals.length,
          op + literals.length⟩ := by
  obtain ⟨h', hcall, hmem, hlog'⟩ := at_.readLength (ip + 1) (k := 1) rfl hlength (by omega)
  obtain ⟨rel, -, histart, hfuel⟩ := at_
  dsimp only at rel histart
  set lit := ip + 1 + ((lengthBytes literals.length).length : Int) with hlit
  have hdst : c.ostart ≤ op := rel.le_pos
  refine ⟨h', ?_, ?_, ?_, ?_, hfuel⟩
  · intro f
    have hsame : h.mem ip = source ip :=
      rel.input ip (Int.le_refl ip) (by show ip < c.istart + size; omega)
    rw [hsame, htoken, hcall]
    rfl
  · have hbytes : source.bytes lit literals.length = literals := hliterals
    have hstep := rel.literals (c.serves size) apart.clear
      (literalsCopied_memcpy h op lit (Nat.le_refl literals.length)) (by omega) hiend hroom hroom
      (by omega) ?_
    · rw [hbytes] at hstep
      rw [Heap.memcpy_mem, hmem]
      exact hstep
    · rcases apart.separate with hbelow | habove
      · exact Or.inl hbelow
      · have : c.oend ≤ c.istart := habove
        exact Or.inr (by omega)
  · refine Heap.logged_memcpy (inBounds_output hdst hroom) (inBounds_input ?_ hiend) hlog'
    show c.istart ≤ lit
    omega
  · show c.istart ≤ lit + literals.length
    omega

/-- The match of a pass whose offset is within reach. -/
theorem UnsafeAt.match (apart : c.Apart size) (at_ : UnsafeAt c size source fuel buf ⟨h, ip, op⟩)
    (token length : Nat) (htoken : token % 16 = lengthField (length - 4)) (hfour : 4 ≤ length)
    (hoffset : readLE16 source ip = offset) (hpos : 1 ≤ offset) (hlt : offset < 65536)
    (hlength : source.Holds (ip + 2) (lengthBytes (length - 4)))
    (hiend : ip + 2 + (lengthBytes (length - 4)).length ≤ c.istart + size)
    (hroom : op + length ≤ c.oend - 5) :
    (offset ≤ buf.length → ∃ h', unsafeMatch c fuel token h ip op =
      some (.next ⟨h', ip + 2 + (lengthBytes (length - 4)).length, op + length⟩) ∧
      UnsafeAt c size source fuel (Lz4.copyMatch buf offset length) ⟨h',
      ip + 2 + (lengthBytes (length - 4)).length, op + length⟩) ∧
      (buf.length < offset → ∃ h', unsafeMatch c fuel token h ip op = some (.done (-1, h'))) := by
  obtain ⟨h', hcall, hmem, hlog'⟩ := at_.readLength (ip + 2) (k := 2) rfl hlength (by omega)
  obtain ⟨rel, -, histart, hfuel⟩ := at_
  dsimp only at rel histart
  have hsame : ∀ a, ip ≤ a → a < c.istart + size → h.mem a = source a := rel.input
  have hle16 : readLE16 h.mem ip = offset := by
    rw [← hoffset]
    unfold readLE16
    rw [hsame ip (by omega) (by omega), hsame (ip + 1) (by omega) (by omega)]
  have hdst : c.ostart ≤ op := rel.le_pos
  have hbuf : op = c.ostart - (c.history : Int) + buf.length := rel.pos
  have hhistory : c.history = c.prefixSize + c.dictSize := rfl
  have hstart : c.prefixStart = c.ostart - c.prefixSize := rfl
  have hml : length - 4 + 4 = length := by omega
  unfold unsafeMatch
  simp only [hle16, htoken, hcall, hml, Option.bind_eq_bind, Option.bind_some, Option.pure_def]
  rw [if_neg (by omega)]
  constructor
  · intro hreach
    rw [if_neg (by omega), if_neg (by omega)]
    refine ⟨_, rfl, ?_, unsafeCopy_logged hlog' hdst (by omega) (by omega), ?_, hfuel⟩
    · have done : MatchDone (c.env size) h'.mem (unsafeCopy c h' op offset length).mem op offset
          length (op + length) := matchDone_unsafeCopy hdst hpos
      rw [hmem] at done
      refine rel.copyMatch (c.serves size) apart.clear done hlt ?_ ?_ ?_ ?_ (by omega) ?_
      · show c.ostart - (c.history : Int) ≤ op - offset
        omega
      · show ip ≤ ip + 2 + ((lengthBytes (length - 4)).length : Int)
        omega
      · show op + length ≤ c.oend
        omega
      · show op + length ≤ c.oend
        omega
      · rcases apart.separate with hbelow | habove
        · exact Or.inl hbelow
        · have : c.oend ≤ c.istart := habove
          exact Or.inr fun a hlow hhigh => by dsimp only at hlow; omega
    · show c.istart ≤ ip + 2 + ((lengthBytes (length - 4)).length : Int)
      omega
  · intro hbeyond
    rw [if_pos (by omega)]
    exact ⟨h', rfl⟩

/-- A pass that starts in front of a sequence of the block does the sequence, if the match is
within reach, and fails otherwise. -/
theorem unsafePass_sequence (apart : c.Apart size)
    (at_ : UnsafeAt c size source fuel buf ⟨h, ip, op⟩) (hpos : 1 ≤ s.offset)
    (hlt : s.offset < 65536) (hfour : 4 ≤ s.matchLength) (hholds : source.Holds ip s.encode)
    (hiend : ip + s.encode.length ≤ c.istart + size)
    (hlast : op + s.literals.length + s.matchLength ≤ c.oend - 5)
    (hmflimit : op + s.literals.length ≤ c.oend - 12) :
    (s.offset ≤ buf.length + s.literals.length → ∃ h', unsafePass c fuel ⟨h, ip, op⟩ =
      some (.next ⟨h', ip + s.encode.length, op + s.literals.length + s.matchLength⟩) ∧
      UnsafeAt c size source fuel (s.apply buf) ⟨h', ip + s.encode.length,
      op + s.literals.length + s.matchLength⟩) ∧
      (buf.length + s.literals.length < s.offset → ∃ h', unsafePass c fuel ⟨h, ip, op⟩ =
      some (.done (-1, h'))) := by
  rw [holds_encode_iff] at hholds
  obtain ⟨htoken, hlitBytes, hliterals, hle16, hmatchBytes⟩ := hholds
  obtain ⟨hfield, hfield'⟩ := toNat_token s.literals.length s.matchCode
  have hlit := length_lengthBytes s.literals.length
  have hmatch := length_lengthBytes s.matchCode
  have hsize := length_encode s
  have hnext : ip + s.encode.length = ip + 1 + (lengthBytes s.literals.length).length +
      s.literals.length + 2 + (lengthBytes s.matchCode).length := by omega
  have hsame : h.mem ip = source ip :=
    at_.rel.input ip (Int.le_refl ip) (by show ip < c.istart + size; omega)
  obtain ⟨h₁, hread, at₁⟩ := at_.literals apart (by rw [htoken, hfield]) hlitBytes hliterals
    (by omega) (by omega)
  have hpass : unsafePass c fuel ⟨h, ip, op⟩ = unsafeMatch c fuel (source ip).toNat
      (h₁.memcpy .input op (ip + 1 + (lengthBytes s.literals.length).length) s.literals.length)
      (ip + 1 + (lengthBytes s.literals.length).length + s.literals.length)
      (op + s.literals.length) := by
    unfold unsafePass
    rw [hread]
    dsimp only
    rw [if_neg (by omega), if_neg (by omega), hsame]
  have hstep := at₁.match apart (source ip).toNat s.matchLength
    (by rw [htoken, hfield']; rfl) hfour (readLE16_of_holds hlt hle16) hpos hlt hmatchBytes
    (by unfold Sequence.matchCode at *; omega) (by omega)
  rw [List.length_append] at hstep
  rw [hpass, hnext]
  exact hstep

/-- The pass that meets the last literals ends the run. -/
theorem unsafePass_last (apart : c.Apart size) (at_ : UnsafeAt c size source fuel buf ⟨h, ip, op⟩)
    (hfield : field < 16) (hholds : source.Holds ip (encodeLast last field))
    (hiend : ip + (encodeLast last field).length = c.istart + size)
    (hoend : op + last.length = c.oend) :
    ∃ h', unsafePass c fuel ⟨h, ip, op⟩ = some (.done ((size : Int), h')) ∧
      UnsafeAt c size source fuel (buf ++ last) ⟨h', c.istart + size, c.oend⟩ := by
  have hlit := length_lengthBytes last.length
  rw [length_encodeLast] at hiend
  unfold encodeLast at hholds
  rw [Mem.holds_cons, Mem.holds_append] at hholds
  obtain ⟨htoken, hlitBytes, hliterals⟩ := hholds
  have hhigh : (source ip).toNat / 16 = lengthField last.length := by
    rw [htoken, UInt8.toNat_ofNat']
    unfold lengthField
    omega
  obtain ⟨h₁, hread, at₁⟩ := at_.literals apart hhigh hlitBytes hliterals (by omega) (by omega)
  have hend : ip + 1 + ((lengthBytes last.length).length : Int) + last.length =
      c.istart + size := by omega
  rw [hend, hoend] at at₁
  refine ⟨_, ?_, at₁⟩
  unfold unsafePass
  rw [hread]
  dsimp only
  rw [if_neg (by omega), if_pos (by omega), if_pos hoend, hend, add_sub_cancel_left]
  rfl

/-! ## Whole runs -/

theorem Reaches.bounds {sequences : List Sequence} (h : Reaches n sequences) :
    ∀ s ∈ sequences, 4 ≤ s.matchLength ∧ s.offset < 65536 := by
  induction sequences generalizing n with
  | nil => simp
  | cons s rest ih =>
    obtain ⟨hfour, hlt, -, hrest⟩ := h
    intro t ht
    rcases List.mem_cons.mp ht with rfl | ht
    · exact ⟨hfour, hlt⟩
    · exact ih hrest t ht

/-- The blocks a run is given: what `Block.Conforming` says, except that an offset may point
before the history of the call. -/
structure UnsafeBlock (sequences : List Sequence) (last : List UInt8) (field : Nat) : Prop where
  matches_ok : ∀ s ∈ sequences, 1 ≤ s.offset ∧ s.offset < 65536 ∧ 4 ≤ s.matchLength
  field_lt : field < 16
  lastFive : sequences ≠ [] → 5 ≤ last.length
  lastMatch : ∀ s, sequences.getLast? = some s → 12 ≤ s.matchLength + last.length

theorem UnsafeBlock.tail (block : UnsafeBlock (s :: rest) last field) :
    UnsafeBlock rest last field := by
  obtain ⟨hmatches, hfield, hfive, hlast⟩ := block
  refine ⟨fun t ht => hmatches t (List.mem_cons_of_mem s ht), hfield, fun _ => hfive (by simp), ?_⟩
  intro t ht
  refine hlast t ?_
  cases rest with
  | nil => simp at ht
  | cons s' rest => rw [List.getLast?_cons_cons, ht]

/-- The end-of-block conditions leave the margins the decoder asks for. -/
theorem UnsafeBlock.margins (block : UnsafeBlock (s :: rest) last field) :
    5 ≤ decodedLength rest + last.length ∧ 12 ≤ s.matchLength + decodedLength rest +
      last.length := by
  have hfive := block.lastFive (by simp)
  refine ⟨by omega, ?_⟩
  cases rest with
  | nil =>
    have := block.lastMatch s rfl
    omega
  | cons s' rest =>
    have hfirst := (block.matches_ok s (by simp)).2.2
    have hsecond := (block.matches_ok s' (by simp)).2.2
    rw [decodedLength_cons]
    omega

theorem Block.Conforming.unsafeBlock (conforming : b.Conforming history) :
    UnsafeBlock b.sequences b.lastLiterals b.lastField where
  matches_ok s hs := ⟨conforming.offset_pos s hs, (conforming.reaches.bounds s hs).2,
    (conforming.reaches.bounds s hs).1⟩
  field_lt := conforming.lastField_lt
  lastFive := conforming.lastFive
  lastMatch := conforming.lastMatch

/-- A run decodes the rest of the block if every match is within reach, and fails otherwise. -/
theorem iterate_unsafePass (apart : c.Apart size) (block : UnsafeBlock rest last field)
    (at_ : UnsafeAt c size source fuel buf ⟨h, ip, op⟩)
    (hholds : source.Holds ip (encodeSequences rest ++ encodeLast last field))
    (hiend : ip + (encodeSequences rest ++ encodeLast last field).length = c.istart + size)
    (hoend : op + decodedLength rest + last.length = c.oend) (hn : rest.length < n) :
    (Reaches buf.length rest → ∃ h', iterate (unsafePass c fuel) n ⟨h, ip, op⟩ =
      some ((size : Int), h') ∧
      UnsafeAt c size source fuel (rest.foldl Sequence.apply buf ++ last) ⟨h', c.istart + size,
      c.oend⟩) ∧ (¬ Reaches buf.length rest → ∃ h', iterate (unsafePass c fuel) n ⟨h, ip, op⟩ =
      some (-1, h')) := by
  induction rest generalizing buf h ip op n with
  | nil =>
    obtain ⟨n, rfl⟩ : ∃ k, n = k + 1 := ⟨n - 1, by simp only [List.length_nil] at hn; omega⟩
    rw [decodedLength_nil] at hoend
    obtain ⟨h', hpass, at'⟩ := unsafePass_last apart at_ block.field_lt hholds hiend
      (by omega)
    refine ⟨fun _ => ⟨h', ?_, at'⟩, fun hfails => absurd trivial hfails⟩
    rw [iterate, hpass]
  | cons s rest ih =>
    obtain ⟨n, rfl⟩ : ∃ k, n = k + 1 := ⟨n - 1, by omega⟩
    rw [List.length_cons] at hn
    rw [encodeSequences_cons, List.append_assoc, Mem.holds_append] at hholds
    rw [encodeSequences_cons, List.append_assoc, List.length_append] at hiend
    rw [decodedLength_cons] at hoend
    obtain ⟨hpos, hlt, hfour⟩ := block.matches_ok s (by simp)
    obtain ⟨hfive, htwelve⟩ := block.margins
    obtain ⟨hnext, hfails⟩ := unsafePass_sequence apart at_ hpos hlt hfour hholds.1 (by omega)
      (by omega) (by omega)
    by_cases hreach : s.offset ≤ buf.length + s.literals.length
    · obtain ⟨h', hpass, at'⟩ := hnext hreach
      have hrest := ih block.tail at' hholds.2 (by omega) (by omega) (n := n) (by omega)
      rw [length_apply, ← Nat.add_assoc] at hrest
      rw [iterate, hpass]
      refine ⟨fun hreaches => hrest.1 hreaches.2.2.2, fun hnot => hrest.2 fun hreaches => ?_⟩
      exact hnot ⟨hfour, hlt, hreach, hreaches⟩
    · obtain ⟨h', hpass⟩ := hfails (by omega)
      refine ⟨fun hreaches => absurd hreaches.2.2.1 hreach, fun _ => ⟨h', ?_⟩⟩
      rw [iterate, hpass]

end Pass

/-! ## Where the history is -/

namespace UnsafeCall

variable {c : UnsafeCall} {size : Nat} {m : Mem}

/-- The history of a call: the dictionary, then the prefix. -/
def bytes (c : UnsafeCall) (m : Mem) : List UInt8 :=
  m.bytes c.dictStart c.dictSize ++ m.bytes c.prefixStart c.prefixSize

theorem length_bytes (c : UnsafeCall) (m : Mem) : (c.bytes m).length = c.history := by
  rw [bytes, List.length_append, Mem.length_bytes, Mem.length_bytes, history, Nat.add_comm]

theorem historyAt : HistoryAt (c.env size) m (c.bytes m) := by
  have hstart : c.prefixStart = c.ostart - c.prefixSize := rfl
  have hend : c.dictEnd = c.dictStart + c.dictSize := rfl
  intro v hlow _ hhigh
  rw [length_bytes] at hlow ⊢
  change c.ostart - (c.prefixSize + c.dictSize : Nat) ≤ v at hlow
  change v < c.ostart at hhigh
  change m ((c.env size).phys v) =
    contents (c.ostart - (c.prefixSize + c.dictSize : Nat)) (c.bytes m) v
  unfold bytes
  by_cases hext : v < c.prefixStart
  · have hphys : (c.env size).phys v = c.dictEnd - (c.prefixStart - v) := Env.phys_of_lt hext
    rw [hphys, contents_append _ (by rw [Mem.length_bytes]; omega) (by omega),
      contents_bytes (by omega) (by omega)]
    congr 1
    omega
  · have hphys : (c.env size).phys v = v := Env.phys_of_le (Int.not_lt.mp hext)
    rw [hphys, contents_append_right (by rw [Mem.length_bytes]; omega), Mem.length_bytes,
      contents_bytes (by omega) (by omega)]
    congr 1
    omega

theorem apart (hsource : c.istart + size ≤ c.ostart ∨ c.oend ≤ c.istart)
    (hdict : 0 < c.dictSize → c.dictEnd ≤ c.ostart ∨ c.oend ≤ c.dictStart) : c.Apart size where
  separate := hsource
  clear v op hlow hext _ _ _ := by
    have hend : c.dictEnd = c.dictStart + c.dictSize := rfl
    have hstart : c.prefixStart = c.ostart - c.prefixSize := rfl
    change c.ostart - (c.prefixSize + c.dictSize : Nat) ≤ v at hlow
    change v < c.prefixStart at hext
    rw [Env.phys_of_lt hext]
    change c.dictEnd - (c.prefixStart - v) < c.ostart ∨ c.oend ≤ c.dictEnd - (c.prefixStart - v) ∨
      op + 0 ≤ c.dictEnd - (c.prefixStart - v)
    rcases hdict (by omega) with hbelow | habove
    · exact Or.inl (by omega)
    · exact Or.inr (Or.inl (by omega))

end UnsafeCall

/-! ## The calls -/

/-- A call consumed `block` and delivered `content`: it returned the size of the block, wrote the
content and nothing else, and read no input behind the block. -/
def FastDecoded (m : Mem) (source dest : Int) (block content : List UInt8)
    (result : Option (Int × Heap)) : Prop :=
  ∃ h', result = some ((block.length : Int), h') ∧ h'.mem.Holds dest content ∧
    (∀ a, a < dest ∨ dest + content.length ≤ a → h'.mem a = m a) ∧
    ∀ x ∈ h'.log, x.port = .input → source ≤ x.lo ∧ x.lo + x.len ≤ source + block.length

theorem length_le_encodeSequences (sequences : List Sequence) :
    sequences.length ≤ (encodeSequences sequences).length := by
  induction sequences with
  | nil => simp
  | cons s rest ih =>
    have := length_encode s
    rw [List.length_cons, encodeSequences_cons, List.length_append]
    omega

section Calls

variable {c : UnsafeCall} {m : Mem} {b : Block} {fuel : Nat}

/-- The run of a call on a block that respects the format, with whatever history. -/
theorem decompressUnsafeGeneric_run (conforming : b.Conforming history)
    (apart : c.Apart b.encode.length) (hholds : m.Holds c.istart b.encode)
    (hsize : c.decompressedSize = (b.decode history).length) (hfuel : b.encode.length ≤ fuel) :
    (Reaches c.history b.sequences → ∃ h', decompressUnsafeGeneric fuel ⟨m, []⟩ c =
      some ((b.encode.length : Int), h') ∧
      UnsafeAt c b.encode.length m fuel
      (b.sequences.foldl Sequence.apply (c.bytes m) ++ b.lastLiterals) ⟨h',
      c.istart + b.encode.length, c.oend⟩) ∧
      (¬ Reaches c.history b.sequences → ∃ h', decompressUnsafeGeneric fuel ⟨m, []⟩ c =
      some (-1, h')) := by
  have hhist : HistoryAt (c.env b.encode.length) m (c.bytes m) := UnsafeCall.historyAt
  have hrel := hhist.rel
  rw [c.length_bytes] at hrel
  have hstart : UnsafeAt c b.encode.length m fuel (c.bytes m) ⟨⟨m, []⟩, c.istart, c.ostart⟩ :=
    ⟨hrel, ⟨by simp, fun _ _ => rfl⟩, Int.le_refl _, by omega⟩
  have hcount := length_le_encodeSequences b.sequences
  have hlength : b.encode.length =
      (encodeSequences b.sequences).length + (encodeLast b.lastLiterals b.lastField).length := by
    rw [Block.encode, List.length_append]
  have hlast := length_encodeLast b.lastLiterals b.lastField
  rw [length_decode] at hsize
  have hoend : c.oend = c.ostart + c.decompressedSize := rfl
  have hrun := iterate_unsafePass apart conforming.unsafeBlock hstart hholds rfl (by omega)
    (n := fuel) (by omega)
  rw [c.length_bytes] at hrun
  exact hrun

theorem decompressUnsafeGeneric_complete (conforming : b.Conforming (c.bytes m))
    (apart : c.Apart b.encode.length) (hholds : m.Holds c.istart b.encode)
    (hsize : c.decompressedSize = (b.decode (c.bytes m)).length)
    (hfuel : b.encode.length ≤ fuel) :
    FastDecoded m c.istart c.ostart b.encode (b.decode (c.bytes m))
      (decompressUnsafeGeneric fuel ⟨m, []⟩ c) := by
  have hreaches := conforming.reaches
  rw [c.length_bytes] at hreaches
  obtain ⟨h', hcall, at_⟩ :=
    (decompressUnsafeGeneric_run conforming apart hholds hsize hfuel).1 hreaches
  have hoend : c.oend = c.ostart + c.decompressedSize := rfl
  refine ⟨h', hcall, ?_, ?_, ?_⟩
  · have hout := at_.rel.bytes_output
    rw [← append_decode, ← c.length_bytes m, List.drop_left] at hout
    have hcount : ((c.oend - c.ostart).toNat) = (b.decode (c.bytes m)).length := by omega
    change h'.mem.bytes c.ostart (c.oend - c.ostart).toNat = _ at hout
    rwa [hcount] at hout
  · intro a ha
    refine frame_of_logged at_.logged ?_
    change a < c.ostart ∨ c.oend ≤ a
    omega
  · intro x hx hport
    have hin := at_.logged.1 x hx
    unfold InBounds at hin
    rw [hport] at hin
    exact hin

theorem decompressUnsafeGeneric_unreachable (conforming : b.Conforming history)
    (apart : c.Apart b.encode.length) (hholds : m.Holds c.istart b.encode)
    (hsize : c.decompressedSize = (b.decode history).length) (hfuel : b.encode.length ≤ fuel)
    (hbeyond : ¬ b.Conforming (c.bytes m)) :
    ∃ h', decompressUnsafeGeneric fuel ⟨m, []⟩ c = some (-1, h') := by
  refine (decompressUnsafeGeneric_run conforming apart hholds hsize hfuel).2 fun hreaches => ?_
  rw [← c.length_bytes m] at hreaches
  exact hbeyond { conforming with reaches := hreaches }

end Calls

/-- The call `LZ4_decompress_fast_usingDict` makes. -/
def usingDictCall (source dest : Int) (originalSize : Nat) (dictStart : Int) (dictSize : Nat) :
    UnsafeCall :=
  if dictSize = 0 ∨ dictStart + dictSize = dest then ⟨source, dest, originalSize, dictSize, 0, 0⟩
  else ⟨source, dest, originalSize, 0, dictStart, dictSize⟩

theorem decompressFastUsingDict_eq (fuel : Nat) (h : Heap) (source dest : Int) (originalSize : Nat)
    (dictStart : Int) (dictSize : Nat) :
    decompressFastUsingDict fuel h source dest originalSize dictStart dictSize =
      decompressUnsafeGeneric fuel h
        (usingDictCall source dest originalSize dictStart dictSize) := by
  unfold decompressFastUsingDict decompressFastExtDict usingDictCall
  split
  · rfl
  · rfl

theorem usingDictCall_bytes (m : Mem) (source dest : Int) (originalSize : Nat) (dictStart : Int)
    (dictSize : Nat) :
    (usingDictCall source dest originalSize dictStart dictSize).bytes m =
      m.bytes dictStart dictSize := by
  unfold usingDictCall
  split
  · rename_i hinside
    change m.bytes 0 0 ++ m.bytes (dest - dictSize) dictSize = m.bytes dictStart dictSize
    rcases hinside with rfl | hinside
    · rfl
    · have hstart : dest - dictSize = dictStart := by omega
      rw [hstart]
      rfl
  · change m.bytes dictStart dictSize ++ m.bytes _ 0 = m.bytes dictStart dictSize
    rw [Mem.bytes_zero, List.append_nil]

/-- The setup each branch of `LZ4_decompress_fast_continue` chooses. -/
def StreamDecode.fastCall (sd : StreamDecode) (source dest : Int) (originalSize : Nat) :
    UnsafeCall :=
  if sd.prefixSize = 0 then ⟨source, dest, originalSize, 0, 0, 0⟩
  else if sd.prefixEnd = dest then
    ⟨source, dest, originalSize, sd.prefixSize, sd.externalDict, sd.extDictSize⟩
  else ⟨source, dest, originalSize, 0, sd.prefixEnd - sd.prefixSize, sd.prefixSize⟩

/-- The result of a call and the memory it leaves, without the state of the stream. -/
def withoutState (x : Int × Heap × StreamDecode) : Int × Heap := (x.1, x.2.1)

theorem map_finish (x : Option (Int × Heap)) (sd : StreamDecode) (next : StreamDecode) :
    (x >>= fun p => if p.1 ≤ 0 then pure (p.1, p.2, sd) else pure (p.1, p.2, next)).map
      withoutState = x := by
  cases x with
  | none => rfl
  | some pair =>
    simp only [Option.bind_eq_bind, Option.bind_some]
    split
    · rfl
    · rfl

theorem decompressFastContinue_eq (fuel : Nat) (sd : StreamDecode) (h : Heap) (source dest : Int)
    (originalSize : Nat) :
    (decompressFastContinue fuel sd h source dest originalSize).map withoutState =
      decompressUnsafeGeneric fuel h (sd.fastCall source dest originalSize) := by
  unfold decompressFastContinue StreamDecode.fastCall decompressFastExtDict decompressFast
  split
  · exact map_finish _ _ _
  · split
    · exact map_finish _ _ _
    · exact map_finish _ _ _

/-- What precedes a block decoded at `dest`, as the stream was told: the segment is continued,
or it becomes the dictionary of a new one. -/
def StreamDecode.fastHistory (sd : StreamDecode) (m : Mem) (dest : Int) : List UInt8 :=
  if sd.prefixEnd = dest then
    m.bytes sd.externalDict sd.extDictSize ++ m.bytes (sd.prefixEnd - sd.prefixSize) sd.prefixSize
  else m.bytes (sd.prefixEnd - sd.prefixSize) sd.prefixSize

/-- The output does not overlap the dictionary of the call. -/
def StreamDecode.FastApart (sd : StreamDecode) (dest : Int) (size : Nat) : Prop :=
  if sd.prefixEnd = dest then
    0 < sd.extDictSize →
      sd.externalDict + sd.extDictSize ≤ dest ∨ dest + size ≤ sd.externalDict
  else 0 < sd.prefixSize → sd.prefixEnd ≤ dest ∨ dest + size ≤ sd.prefixEnd - sd.prefixSize

/-- The call finds the history, unless it continues an empty segment. -/
theorem StreamDecode.fastCall_bytes (sd : StreamDecode) (m : Mem) (source dest : Int)
    (originalSize : Nat) :
    (sd.fastCall source dest originalSize).bytes m =
      if sd.prefixSize = 0 ∧ sd.prefixEnd = dest then [] else sd.fastHistory m dest := by
  unfold StreamDecode.fastCall StreamDecode.fastHistory
  by_cases hempty : sd.prefixSize = 0
  · rw [if_pos hempty]
    by_cases hsame : sd.prefixEnd = dest
    · rw [if_pos ⟨hempty, hsame⟩]
      rfl
    · rw [if_neg (not_and_of_not_right _ hsame), if_neg hsame, hempty]
      rfl
  · rw [if_neg hempty, if_neg (not_and_of_not_left _ hempty)]
    by_cases hsame : sd.prefixEnd = dest
    · rw [if_pos hsame, if_pos hsame, hsame]
      rfl
    · rw [if_neg hsame, if_neg hsame]
      change m.bytes (sd.prefixEnd - sd.prefixSize) sd.prefixSize ++ m.bytes _ 0 = _
      rw [Mem.bytes_zero, List.append_nil]

variable {sd : StreamDecode} {source dest : Int}

theorem StreamDecode.FastApart.apart {size csize : Nat} (hapart : sd.FastApart dest size)
    (hsource : source + csize ≤ dest ∨ dest + size ≤ source) :
    (sd.fastCall source dest size).Apart csize := by
  unfold StreamDecode.FastApart at hapart
  unfold StreamDecode.fastCall
  by_cases hempty : sd.prefixSize = 0
  · rw [if_pos hempty]
    exact UnsafeCall.apart hsource (fun hpos => absurd hpos (Nat.lt_irrefl 0))
  · rw [if_neg hempty]
    by_cases hsame : sd.prefixEnd = dest
    · rw [if_pos hsame] at hapart ⊢
      exact UnsafeCall.apart hsource hapart
    · rw [if_neg hsame] at hapart ⊢
      refine UnsafeCall.apart hsource fun hpos => ?_
      change sd.prefixEnd - sd.prefixSize + sd.prefixSize ≤ dest ∨
        dest + size ≤ sd.prefixEnd - sd.prefixSize
      rw [sub_add_cancel]
      exact hapart hpos

@[simp] theorem StreamDecode.fastCall_fields (sd : StreamDecode) (source dest : Int) (size : Nat) :
    (sd.fastCall source dest size).istart = source ∧
      (sd.fastCall source dest size).ostart = dest ∧
      (sd.fastCall source dest size).decompressedSize = size := by
  unfold StreamDecode.fastCall
  split
  · exact ⟨rfl, rfl, rfl⟩
  · split
    · exact ⟨rfl, rfl, rfl⟩
    · exact ⟨rfl, rfl, rfl⟩

variable {fuel : Nat} {m : Mem}

/-- A call of `LZ4_decompress_fast_continue` decodes its block, unless it continues an empty
segment with a block that needs the dictionary before it. -/
theorem decompressFastContinue_iff (hholds : m.Holds source b.encode)
    (hfuel : b.encode.length ≤ fuel) (conforming : b.Conforming (sd.fastHistory m dest))
    (hapart : sd.FastApart dest (b.decode (sd.fastHistory m dest)).length)
    (hsource : source + b.encode.length ≤ dest ∨ dest + (b.decode (sd.fastHistory m dest)).length ≤
      source) :
    FastDecoded m source dest b.encode (b.decode (sd.fastHistory m dest))
      ((decompressFastContinue fuel sd ⟨m,
      []⟩ source dest (b.decode (sd.fastHistory m dest)).length).map withoutState) ↔
      ¬ (sd.prefixSize = 0 ∧ sd.prefixEnd = dest ∧ ¬ b.Conforming []) := by
  have apart := hapart.apart hsource
  obtain ⟨histart, hostart, hsize⟩ :=
    sd.fastCall_fields source dest (b.decode (sd.fastHistory m dest)).length
  have hbytes := sd.fastCall_bytes m source dest (b.decode (sd.fastHistory m dest)).length
  rw [decompressFastContinue_eq]
  set c := sd.fastCall source dest (b.decode (sd.fastHistory m dest)).length with hc
  have hinput : m.Holds c.istart b.encode := by rwa [histart]
  constructor
  · rintro ⟨h', hcall, -⟩ ⟨hempty, hsame, hnone⟩
    rw [if_pos ⟨hempty, hsame⟩] at hbytes
    obtain ⟨h'', hfails⟩ := decompressUnsafeGeneric_unreachable conforming apart hinput hsize
      hfuel (by rwa [hbytes])
    rw [hfails] at hcall
    simp only [Option.some.injEq, Prod.mk.injEq] at hcall
    omega
  · intro hgood
    have hfound : b.Conforming (c.bytes m) ∧
        b.decode (c.bytes m) = b.decode (sd.fastHistory m dest) := by
      rw [hbytes]
      split
      · rename_i hempty
        have hnone : b.Conforming [] := not_not.mp fun hnot => hgood ⟨hempty.1, hempty.2, hnot⟩
        refine ⟨hnone, ?_⟩
        have hmore := decode_append_left (sd.fastHistory m dest) hnone.reaches
        rw [List.append_nil] at hmore
        exact hmore.symm
      · exact ⟨conforming, rfl⟩
    have hdone := decompressUnsafeGeneric_complete hfound.1 apart hinput
      (by rw [hsize, hfound.2]) hfuel
    rwa [hfound.2, histart, hostart] at hdone

theorem decompressFastUsingDict_decoded {dictStart : Int} {dictSize : Nat}
    (hholds : m.Holds source b.encode) (hfuel : b.encode.length ≤ fuel)
    (conforming : b.Conforming (m.bytes dictStart dictSize))
    (buffers : Buffers source dest b.encode.length (b.decode (m.bytes dictStart dictSize)).length
      dictStart dictSize) :
    FastDecoded m source dest b.encode (b.decode (m.bytes dictStart dictSize))
      (decompressFastUsingDict fuel ⟨m,
      []⟩ source dest (b.decode (m.bytes dictStart dictSize)).length dictStart dictSize) := by
  have hbytes := usingDictCall_bytes m source dest
    (b.decode (m.bytes dictStart dictSize)).length dictStart dictSize
  have hfields : ∀ size, (usingDictCall source dest size dictStart dictSize).istart = source ∧
      (usingDictCall source dest size dictStart dictSize).ostart = dest ∧
      (usingDictCall source dest size dictStart dictSize).decompressedSize = size := by
    intro size
    unfold usingDictCall
    split
    · exact ⟨rfl, rfl, rfl⟩
    · exact ⟨rfl, rfl, rfl⟩
  have apart : (usingDictCall source dest (b.decode (m.bytes dictStart dictSize)).length dictStart
      dictSize).Apart b.encode.length := by
    unfold usingDictCall
    split
    · exact UnsafeCall.apart buffers.source_apart (fun hpos => absurd hpos (Nat.lt_irrefl 0))
    · exact UnsafeCall.apart buffers.source_apart buffers.dict_apart
  obtain ⟨histart, hostart, hsize⟩ := hfields (b.decode (m.bytes dictStart dictSize)).length
  rw [decompressFastUsingDict_eq]
  have hdone := decompressUnsafeGeneric_complete (by rwa [hbytes]) apart (by rwa [histart])
    (by rw [hsize, hbytes]) hfuel
  rwa [hbytes, histart, hostart] at hdone

/-- The three calls of the decoder that is driven by the output size.  Given the size of the
content, they return the size of the block, write the content and read nothing behind the block,
and the content is what `LZ4_decompress_safe_usingDict` delivers.  For
`LZ4_decompress_fast_continue` this holds exactly when the segment it continues is not empty, or
the block does not need what is before it. -/
theorem decompressFast_decodes (m : Mem) (source dest : Int) (b : Block) (fuel : Nat)
    (hholds : m.Holds source b.encode) (hfuel : b.encode.length ≤ fuel) :
    (b.Conforming [] →
      (source + b.encode.length ≤ dest ∨ dest + (b.decode []).length ≤ source) →
      FastDecoded m source dest b.encode (b.decode [])
        (decompressFast fuel ⟨m, []⟩ source dest (b.decode []).length) ∧
      DecodesTo [] b.encode (b.decode [])) ∧
    (∀ dictStart dictSize, b.Conforming (m.bytes dictStart dictSize) →
      Buffers source dest b.encode.length (b.decode (m.bytes dictStart dictSize)).length dictStart
        dictSize →
      FastDecoded m source dest b.encode (b.decode (m.bytes dictStart dictSize))
        (decompressFastUsingDict fuel ⟨m, []⟩ source dest
          (b.decode (m.bytes dictStart dictSize)).length dictStart dictSize) ∧
      DecodesTo (m.bytes dictStart dictSize) b.encode (b.decode (m.bytes dictStart dictSize))) ∧
    (∀ sd : StreamDecode, b.Conforming (sd.fastHistory m dest) →
      sd.FastApart dest (b.decode (sd.fastHistory m dest)).length →
      (source + b.encode.length ≤ dest ∨
        dest + (b.decode (sd.fastHistory m dest)).length ≤ source) →
      (FastDecoded m source dest b.encode (b.decode (sd.fastHistory m dest))
          ((decompressFastContinue fuel sd ⟨m, []⟩ source dest
            (b.decode (sd.fastHistory m dest)).length).map withoutState) ↔
        ¬ (sd.prefixSize = 0 ∧ sd.prefixEnd = dest ∧ ¬ b.Conforming [])) ∧
      DecodesTo (sd.fastHistory m dest) b.encode (b.decode (sd.fastHistory m dest))) := by
  refine ⟨?_, ?_, ?_⟩
  · intro conforming hsource
    refine ⟨?_, decodesTo_of_conforming conforming⟩
    exact decompressUnsafeGeneric_complete
      (c := ⟨source, dest, (b.decode []).length, 0, 0, 0⟩) conforming
      (UnsafeCall.apart hsource (fun hpos => absurd hpos (Nat.lt_irrefl 0))) hholds rfl hfuel
  · intro dictStart dictSize conforming buffers
    exact ⟨decompressFastUsingDict_decoded hholds hfuel conforming buffers,
      decodesTo_of_conforming conforming⟩
  · intro sd conforming hapart hsource
    exact ⟨decompressFastContinue_iff hholds hfuel conforming hapart hsource,
      decodesTo_of_conforming conforming⟩

/-- A block that continues a segment of five bytes, and refers to a dictionary before it. -/
theorem decompressFast_decodes_both : let b : Block := ⟨[⟨[7], 9, 8⟩], [1, 2, 3, 4, 5], 0⟩
    let m : Mem := Mem.store (fun _ => 9) 1 b.encode
    let sd : StreamDecode := ⟨50, 100, 5, 5⟩
    FastDecoded m 1 100 b.encode (b.decode (sd.fastHistory m 100))
      ((decompressFastContinue 20 sd ⟨m, []⟩ 1 100
        (b.decode (sd.fastHistory m 100)).length).map withoutState) := by
  intro b m sd
  have hcalls := decompressFast_decodes m 1 100 b 20 (Mem.holds_store _ _ _) (by decide)
  refine ((hcalls.2.2 sd ?_ ?_ ?_).1).mpr ?_
  · constructor <;> decide
  · exact fun _ => Or.inl (by decide)
  · exact Or.inl (by decide)
  · exact fun hempty => absurd hempty.1 (by decide)

/-- A stream is set up with a dictionary of eight bytes, and an empty block is decoded into a
buffer.  The next block, decoded at the same place, refers to the dictionary and is refused,
although the stream still knows the dictionary and `LZ4_decompress_safe_usingDict` decodes the
block. -/
theorem decompressFastContinue_forgets : let b : Block := ⟨[⟨[], 8, 8⟩], [1, 2, 3, 4, 5], 0⟩
    let m : Mem := Mem.store (Mem.store (fun _ => 0) 10 b.encode) 50 [1, 2, 3, 4, 5, 6, 7, 8]
    let first := decompressFastContinue 20 (setStreamDecode 50 8) ⟨m, []⟩ 1 100 0
    let sd : StreamDecode := ⟨50, 100, 8, 0⟩
    first.map (fun x => (x.1, x.2.2)) = some (1, sd) ∧
      m.Holds 10 b.encode ∧ sd.fastHistory m 100 = [1, 2, 3, 4, 5, 6, 7, 8] ∧
      b.Conforming (sd.fastHistory m 100) ∧ sd.FastApart 100 13 ∧
      (b.decode (sd.fastHistory m 100)).length = 13 ∧
      (first.bind fun x => (decompressFastContinue 20 x.2.2 ⟨x.2.1.mem, []⟩ 10 100 13).map
        fun y => y.1) = some (-1) ∧
      ((decompressSafeUsingDict true ⟨m, []⟩ 10 100 b.encode.length 13 50 8).map fun x =>
        (x.1, x.2.mem.bytes 100 13)) =
        some (13, [1, 2, 3, 4, 5, 6, 7, 8, 1, 2, 3, 4, 5]) := by
  intro b m first sd
  refine ⟨?_, ?_, ?_, ?_, ?_, ?_, ?_, ?_⟩
  · decide +kernel
  · decide +kernel
  · decide +kernel
  · constructor <;> decide +kernel
  · exact fun _ => Or.inl (by decide)
  · decide +kernel
  · decide +kernel
  · decide +kernel

end Lz4
