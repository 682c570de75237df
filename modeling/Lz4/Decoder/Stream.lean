import Lz4.Decoder.Correct

/-!
# Streaming decompression

`LZ4_decompress_safe_continue` decodes one block after the other.  It remembers where
the last bytes went: the segment it is filling (the prefix) and the one before it (the
external dictionary).  The first section translates the functions, the second says what a
caller knows, which is where every byte decoded so far was put (`Segment`, `address`), and
the third connects the two.

A byte of the history can be used only while it is still in place, and only if it lies in
one of the two segments the decoder remembers.  The first is the caller's business and
part of every call below (`Kept`, `Avoids`).  The second, `WithinReach`, is a limit of the
decoder.  It must hold for calls that decode nothing as well, since a call that starts a
new segment forgets the older one before it knows its own result.
-/

namespace Lz4

open FlatMemory Decoder

/-! ## The functions -/

/-- `LZ4_streamDecode_t_internal`. -/
structure StreamDecode where
  externalDict : Int
  prefixEnd : Int
  extDictSize : Nat
  prefixSize : Nat
  deriving Repr, DecidableEq

/-- The state `LZ4_setStreamDecode` leaves; the function always returns `1`. -/
def setStreamDecode (dictionary : Int) (dictSize : Nat) : StreamDecode where
  prefixSize := dictSize
  prefixEnd := if dictSize ≠ 0 then dictionary + dictSize else dictionary
  externalDict := 0
  extDictSize := 0

/-- `LZ4_decompress_safe_continue`. -/
def decompressSafeContinue (fastDecLoop : Bool) (sd : StreamDecode) (h : Heap)
    (source dest : Int) (compressedSize : Nat) (maxOutputSize : Int) :
    Option (Int × Heap × StreamDecode) :=
  if sd.prefixSize = 0 then do
    -- the first call, no dictionary yet
    let (result, h) ← decompressSafe fastDecLoop h source dest compressedSize maxOutputSize
    if result ≤ 0 then return (result, h, sd)
    return (result, h, { sd with prefixSize := result.toNat, prefixEnd := dest + result })
  else if sd.prefixEnd = dest then do
    -- rolling the current segment
    let (result, h) ←
      if sd.prefixSize ≥ 65536 - 1 then
        decompressSafeWithPrefix64k fastDecLoop h source dest compressedSize maxOutputSize
      else if sd.extDictSize = 0 then
        decompressSafeWithSmallPrefix fastDecLoop h source dest compressedSize maxOutputSize
          sd.prefixSize
      else
        decompressSafeDoubleDict fastDecLoop h source dest compressedSize maxOutputSize
          sd.prefixSize sd.externalDict sd.extDictSize
    if result ≤ 0 then return (result, h, sd)
    return (result, h, { sd with
      prefixSize := sd.prefixSize + result.toNat, prefixEnd := sd.prefixEnd + result })
  else do
    -- the buffer wraps around, or they are switching to another buffer
    let sd := { sd with
      extDictSize := sd.prefixSize, externalDict := sd.prefixEnd - sd.prefixSize }
    let (result, h) ← decompressSafeForceExtDict fastDecLoop h source dest compressedSize
      maxOutputSize sd.externalDict sd.extDictSize
    if result ≤ 0 then return (result, h, sd)
    return (result, h, { sd with prefixSize := result.toNat, prefixEnd := dest + result })

/-- The state after a call at `dest` that returned `result`. -/
def StreamDecode.advance (sd : StreamDecode) (dest result : Int) : StreamDecode :=
  if sd.prefixSize = 0 then
    if result ≤ 0 then sd
    else { sd with prefixSize := result.toNat, prefixEnd := dest + result }
  else if sd.prefixEnd = dest then
    if result ≤ 0 then sd
    else { sd with
      prefixSize := sd.prefixSize + result.toNat, prefixEnd := sd.prefixEnd + result }
  else
    let sd := { sd with
      extDictSize := sd.prefixSize, externalDict := sd.prefixEnd - sd.prefixSize }
    if result ≤ 0 then sd
    else { sd with prefixSize := result.toNat, prefixEnd := dest + result }

/-- How a call sets up the generic decoder. -/
structure Setup where
  dict : DictDirective
  lowPrefix : Int
  dictStart : Int
  dictSize : Nat

/-- The setup each branch of `LZ4_decompress_safe_continue` chooses. -/
def StreamDecode.setup (sd : StreamDecode) (dest : Int) : Setup :=
  if sd.prefixSize = 0 then ⟨.noDict, dest, 0, 0⟩
  else if sd.prefixEnd = dest then
    if sd.prefixSize ≥ 65536 - 1 then ⟨.withPrefix64k, dest - 65536, 0, 0⟩
    else if sd.extDictSize = 0 then ⟨.noDict, dest - sd.prefixSize, 0, 0⟩
    else ⟨.usingExtDict, dest - sd.prefixSize, sd.externalDict, sd.extDictSize⟩
  else ⟨.usingExtDict, dest, sd.prefixEnd - sd.prefixSize, sd.prefixSize⟩

theorem finish_eq (x : Option (Int × Heap)) (sd : StreamDecode) (next : Int → StreamDecode) :
    (x >>= fun p => if p.1 ≤ 0 then pure (p.1, p.2, sd) else pure (p.1, p.2, next p.1)) =
      x.map fun p => (p.1, p.2, if p.1 ≤ 0 then sd else next p.1) := by
  cases x with
  | none => rfl
  | some pair =>
    simp only [Option.bind_eq_bind, Option.bind_some, Option.map_some]
    split
    · rfl
    · rfl

/-- A call is one run of the generic decoder and an update of the state that depends
on nothing but the result. -/
theorem decompressSafeContinue_eq (fastDecLoop : Bool) (sd : StreamDecode) (h : Heap)
    (source dest : Int) (compressedSize : Nat) (maxOutputSize : Int) :
    decompressSafeContinue fastDecLoop sd h source dest compressedSize maxOutputSize =
      (decompressGeneric fastDecLoop h source dest compressedSize maxOutputSize false
        (sd.setup dest).dict (sd.setup dest).lowPrefix (sd.setup dest).dictStart
        (sd.setup dest).dictSize).map fun (result, h) => (result, h, sd.advance dest result) := by
  unfold decompressSafeContinue StreamDecode.setup StreamDecode.advance
  by_cases hfirst : sd.prefixSize = 0
  · simp only [if_pos hfirst]
    exact finish_eq _ sd fun r => { sd with prefixSize := r.toNat, prefixEnd := dest + r }
  by_cases hrolling : sd.prefixEnd = dest
  · simp only [if_neg hfirst, if_pos hrolling]
    have finish x := finish_eq x sd fun r =>
      { sd with prefixSize := sd.prefixSize + r.toNat, prefixEnd := sd.prefixEnd + r }
    split
    · exact finish _
    · split
      · exact finish _
      · exact finish _
  · simp only [if_neg hfirst, if_neg hrolling]
    exact finish_eq _ { sd with
      extDictSize := sd.prefixSize, externalDict := sd.prefixEnd - sd.prefixSize } fun r =>
        ⟨sd.prefixEnd - sd.prefixSize, dest + r, sd.prefixSize, r.toNat⟩

/-! ## Where the decoded bytes are -/

/-- A run of consecutive blocks, decoded next to each other from `start` on. -/
structure Segment where
  start : Int
  bytes : List UInt8
  start_ne : start ≠ 0
  bytes_ne : bytes ≠ []

/-- The first address behind a segment. -/
def Segment.stop (s : Segment) : Int := s.start + s.bytes.length

theorem Segment.length_pos (s : Segment) : 0 < s.bytes.length :=
  List.length_pos_iff.mpr s.bytes_ne

/-- Everything decoded so far; the newest segment comes first in the list. -/
def history : List Segment → List UInt8
  | [] => []
  | s :: rest => history rest ++ s.bytes

/-- The address to which the byte `k` positions before the end was decoded. -/
def address : List Segment → Nat → Int
  | [], _ => 0
  | s :: rest, k => if k ≤ s.bytes.length then s.stop - k else address rest (k - s.bytes.length)

/-- `dest` is where the newest segment ends. -/
def Continues : List Segment → Int → Prop
  | [], _ => False
  | s :: _, dest => s.stop = dest

instance : ∀ segs dest, Decidable (Continues segs dest)
  | [], _ => inferInstanceAs (Decidable False)
  | s :: _, dest => inferInstanceAs (Decidable (s.stop = dest))

/-- `out` was decoded at `dest`. -/
def record (segs : List Segment) (dest : Int) (hdest : dest ≠ 0) (out : List UInt8) :
    List Segment :=
  if hout : out = [] then segs
  else match segs with
    | [] => [⟨dest, out, hdest, hout⟩]
    | s :: rest =>
      if s.stop = dest then ⟨s.start, s.bytes ++ out, s.start_ne, by simp [hout]⟩ :: rest
      else ⟨dest, out, hdest, hout⟩ :: s :: rest

/-- What was decoded last, as far as an offset reaches, is still in place. -/
def Kept (m : Mem) (segs : List Segment) : Prop :=
  ∀ k, 1 ≤ k → k ≤ 65535 → k ≤ (history segs).length →
    m (address segs k) = (history segs).getD ((history segs).length - k) 0

/-- A buffer that contains none of the bytes an offset reaches. -/
def Avoids (segs : List Segment) (dest : Int) (capacity : Int) : Prop :=
  ∀ k, 1 ≤ k → k ≤ 65535 → k ≤ (history segs).length →
    address segs k < dest ∨ dest + capacity ≤ address segs k

variable {dest : Int}

theorem history_record (segs : List Segment) (hdest : dest ≠ 0) (out : List UInt8) :
    history (record segs dest hdest out) = history segs ++ out := by
  unfold record
  split
  · rename_i hout
    rw [hout, List.append_nil]
  · cases segs with
    | nil => rfl
    | cons s rest =>
      dsimp only
      split
      · exact (List.append_assoc _ _ _).symm
      · rfl

variable {k : Nat}

theorem address_record (segs : List Segment) (hdest : dest ≠ 0) (out : List UInt8) (hk : 1 ≤ k) :
    address (record segs dest hdest out) k = if k ≤
      out.length then dest + out.length - k else address segs (k - out.length) := by
  unfold record
  split
  · rename_i hout
    rw [hout, List.length_nil, if_neg (by omega), Nat.sub_zero]
  · cases segs with
    | nil => simp only [address, Segment.stop]
    | cons s rest =>
      dsimp only
      split
      · rename_i hstop
        simp only [address, Segment.stop, List.length_append] at hstop ⊢
        by_cases hnew : k ≤ out.length
        · omega
        · rw [if_neg hnew]
          by_cases hold : k - out.length ≤ s.bytes.length
          · omega
          · rw [if_neg hold, if_neg (by omega)]
            congr 1
            omega
      · simp only [address, Segment.stop]

/-! ## The decoder's view -/

/-- The segment being filled holds all that an offset reaches. -/
def CurrentSuffices : List Segment → Prop
  | s :: _ :: _ => 65535 ≤ s.bytes.length
  | _ => True

/-- The last two segments hold all that an offset reaches. -/
def TwoSuffice : List Segment → Prop
  | s :: t :: _ :: _ => 65535 ≤ s.bytes.length + t.bytes.length
  | _ => True

/-- A call at `dest` finds the history in the segments that the decoder remembers then:
two if it continues the newest segment, one if it starts another. -/
def WithinReach (segs : List Segment) (dest : Int) : Prop :=
  if Continues segs dest then TwoSuffice segs else CurrentSuffices segs

/-- The external dictionary is the segment before the newest. -/
def StreamDecode.ExtDictIs (sd : StreamDecode) : List Segment → Prop
  | [] => sd.extDictSize = 0
  | t :: _ => sd.externalDict = t.start ∧ sd.extDictSize = t.bytes.length

/-- For a call at `dest`, prefix and external dictionary are the last two segments.  The
latter is used only to continue a prefix of less than 65535 bytes. -/
def StreamDecode.Exact (sd : StreamDecode) (segs : List Segment) (dest : Int) : Prop :=
  match segs with
  | [] => sd.prefixSize = 0
  | s :: rest => sd.prefixSize = s.bytes.length ∧ sd.prefixEnd = s.stop ∧
      (s.stop = dest → 65535 ≤ s.bytes.length ∨ sd.ExtDictIs rest)

/-- The state between calls.  A single segment may appear a second time as the external
dictionary; this is what a failing call elsewhere leaves behind. -/
def StreamDecode.Tracks (sd : StreamDecode) : List Segment → Prop
  | [] => sd.prefixSize = 0 ∧ sd.extDictSize = 0
  | s :: rest => sd.prefixSize = s.bytes.length ∧ sd.prefixEnd = s.stop ∧
      (65535 ≤ s.bytes.length ∨ sd.ExtDictIs rest ∨
        rest = [] ∧ ∃ t : Segment, t.start = s.start ∧ t.bytes <+: s.bytes ∧ sd.ExtDictIs [t])

/-- The environment of a call on a stream. -/
def StreamDecode.callEnv (sd : StreamDecode) (source dest : Int) (compressedSize : Nat)
    (maxOutputSize : Int) : Env :=
  Decoder.callEnv source dest compressedSize maxOutputSize false (sd.setup dest).dict
    (sd.setup dest).lowPrefix (sd.setup dest).dictStart (sd.setup dest).dictSize

variable {slack : Int} {m : Mem}

section Setup

variable {sd : StreamDecode} {segs : List Segment} {source dest : Int} {compressedSize : Nat}
  {maxOutputSize : Int}

theorem setup_lowPrefix_le (sd : StreamDecode) (dest : Int) : (sd.setup dest).lowPrefix ≤ dest := by
  unfold StreamDecode.setup
  split
  · exact Int.le_refl dest
  · split
    · split
      · show dest - 65536 ≤ dest
        omega
      · split
        · show dest - (sd.prefixSize : Int) ≤ dest
          omega
        · show dest - (sd.prefixSize : Int) ≤ dest
          omega
    · exact Int.le_refl dest

theorem setup_dictSize (sd : StreamDecode) (dest : Int)
    (hdict : (sd.setup dest).dict ≠ .usingExtDict) : (sd.setup dest).dictSize = 0 := by
  unfold StreamDecode.setup at hdict ⊢
  grind

theorem setup_prefix64k (sd : StreamDecode) (dest : Int)
    (hdict : (sd.setup dest).dict = .withPrefix64k) : (sd.setup dest).lowPrefix = dest - 65536 := by
  unfold StreamDecode.setup at hdict ⊢
  grind

/-- Prefix and dictionary of a setup cover the history as far as an offset reaches, and
every byte of it is where the decoder looks for it. -/
def Setup.Locates (setup : Setup) (segs : List Segment) (dest : Int) : Prop :=
  max (dest - (history segs).length) (dest - 65535) =
      max (setup.lowPrefix - setup.dictSize) (dest - 65535) ∧
    ∀ k : Nat, 1 ≤ k → k ≤ 65535 → k ≤ (history segs).length →
      (if dest - k < setup.lowPrefix then
        (if setup.dictStart = 0 then 0 else setup.dictStart + setup.dictSize) -
          (setup.lowPrefix - (dest - k))
      else dest - k) = address segs k

theorem setup_locates (exact : sd.Exact segs dest) (reach : WithinReach segs dest) :
    (sd.setup dest).Locates segs dest := by
  cases segs with
  | nil =>
    have hsetup : sd.setup dest = ⟨.noDict, dest, 0, 0⟩ := if_pos exact
    rw [hsetup]
    refine ⟨rfl, fun k hk _ hlength => ?_⟩
    have : (history []).length = 0 := rfl
    omega
  | cons s rest =>
    obtain ⟨hsize, hend, hext⟩ := exact
    have hpos := s.length_pos
    have hlength : (history (s :: rest)).length = (history rest).length + s.bytes.length :=
      List.length_append
    have hstop : s.stop = s.start + s.bytes.length := rfl
    by_cases hcontinues : Continues (s :: rest) dest
    · have hdest : s.stop = dest := hcontinues
      rw [WithinReach, if_pos hcontinues] at reach
      by_cases hlong : 65535 ≤ s.bytes.length
      · -- the prefix alone is long enough
        have hsetup : sd.setup dest = ⟨.withPrefix64k, dest - 65536, 0, 0⟩ := by
          rw [StreamDecode.setup, if_neg (by omega), if_pos (by omega), if_pos (by omega)]
        rw [hsetup]
        refine ⟨by dsimp only; omega, fun k _ hk _ => ?_⟩
        rw [if_neg (by dsimp only; omega), address, if_pos (by omega)]
        omega
      have hext := (hext hdest).resolve_left hlong
      cases rest with
      | nil =>
        have hzero : sd.extDictSize = 0 := hext
        have hsetup : sd.setup dest = ⟨.noDict, dest - s.bytes.length, 0, 0⟩ := by
          rw [StreamDecode.setup, if_neg (by omega), if_pos (by omega), if_neg (by omega),
            if_pos hzero, hsize]
        have hnil : (history []).length = 0 := rfl
        rw [hsetup]
        refine ⟨by dsimp only; omega, fun k _ hk hhist => ?_⟩
        rw [if_neg (by dsimp only; omega), address, if_pos (by omega)]
        omega
      | cons t older =>
        obtain ⟨hdict, hdictSize⟩ := hext
        have hpos' := t.length_pos
        have hsetup : sd.setup dest =
            ⟨.usingExtDict, dest - s.bytes.length, t.start, t.bytes.length⟩ := by
          rw [StreamDecode.setup, if_neg (by omega), if_pos (by omega), if_neg (by omega),
            if_neg (by omega), hsize, hdict, hdictSize]
        have hlength' : (history (t :: older)).length =
            (history older).length + t.bytes.length := List.length_append
        have holder : (history older).length = 0 ∨
            65535 ≤ s.bytes.length + t.bytes.length := by
          cases older with
          | nil => exact Or.inl rfl
          | cons _ _ => exact Or.inr reach
        rw [hsetup]
        refine ⟨by dsimp only; omega, fun k _ hk hhist => ?_⟩
        rw [if_neg t.start_ne, address]
        by_cases hin : k ≤ s.bytes.length
        · rw [if_neg (by dsimp only; omega), if_pos hin]
          omega
        · rw [if_pos (by dsimp only; omega), if_neg hin, address, if_pos (by omega),
            Segment.stop]
          dsimp only
          omega
    · -- a new segment: the newest becomes the dictionary
      have hdest : s.stop ≠ dest := hcontinues
      rw [WithinReach, if_neg hcontinues] at reach
      have holder : (history rest).length = 0 ∨ 65535 ≤ s.bytes.length := by
        cases rest with
        | nil => exact Or.inl rfl
        | cons _ _ => exact Or.inr reach
      have hsetup : sd.setup dest = ⟨.usingExtDict, dest, s.start, s.bytes.length⟩ := by
        have hstart : sd.prefixEnd - (sd.prefixSize : Int) = s.start := by omega
        rw [StreamDecode.setup, if_neg (by omega), if_neg (by omega), hstart, hsize]
      rw [hsetup]
      refine ⟨by dsimp only; omega, fun k _ hk hhist => ?_⟩
      rw [if_neg s.start_ne, if_pos (by dsimp only; omega), address, if_pos (by omega)]
      dsimp only
      omega

/-- The decoder is set up for the whole history. -/
theorem setup_serves (exact : sd.Exact segs dest) (reach : WithinReach segs dest)
    (hsize : 0 ≤ maxOutputSize) :
    (sd.callEnv source dest compressedSize maxOutputSize).Serves (history segs).length where
  lowPrefix_le := setup_lowPrefix_le sd dest
  dst_le := by
    show dest ≤ dest + maxOutputSize
    omega
  dictSize_eq := setup_dictSize sd dest
  prefix64k := setup_prefix64k sd dest
  full := rfl
  reach := (setup_locates exact reach).1

theorem phys_eq_address (exact : sd.Exact segs dest) (reach : WithinReach segs dest) (hk : 1 ≤ k)
    (hwindow : k ≤ 65535) (hlength : k ≤ (history segs).length) :
    (sd.callEnv source dest compressedSize maxOutputSize).phys (dest - k) = address segs k :=
  (setup_locates exact reach).2 k hk hwindow hlength

/-- What is decoded at `op` writes at most `slack` bytes too many, and these are not
needed any more. -/
def Spared (segs : List Segment) (dest : Int) (capacity : Int) (slack : Int) : Prop :=
  ∀ (k : Nat) (op : Int), 1 ≤ k → k ≤ (history segs).length → dest ≤ op → op ≤ dest + capacity →
    op + k ≤ dest + 65535 →
      address segs k < dest ∨ dest + capacity ≤ address segs k ∨ op + slack ≤ address segs k

theorem Avoids.spared (avoids : Avoids segs dest maxOutputSize) (slack : Int) :
    Spared segs dest maxOutputSize slack := by
  intro k op hk hlength hop _ hreach
  rcases avoids k hk (by omega) hlength with hbelow | habove
  · exact Or.inl hbelow
  · exact Or.inr (Or.inl habove)

theorem setup_historyClear (exact : sd.Exact segs dest) (reach : WithinReach segs dest)
    (spared : Spared segs dest maxOutputSize slack) :
    (sd.callEnv source dest compressedSize maxOutputSize).HistoryClear (history segs).length
      slack := by
  intro v op hv hext hdst hoend hreach
  have hlow : v < dest := Int.lt_of_lt_of_le hext (setup_lowPrefix_le sd dest)
  have hv' : dest - ((history segs).length : Int) ≤ v := hv
  have hop : dest ≤ op := hdst
  obtain ⟨k, hk⟩ : ∃ k : Nat, v = dest - k := ⟨(dest - v).toNat, by omega⟩
  subst hk
  rw [phys_eq_address exact reach (by omega) (by omega) (by omega)]
  exact spared k op (by omega) (by omega) hdst hoend (by omega)

theorem Kept.historyAt (kept : Kept m segs) (exact : sd.Exact segs dest)
    (reach : WithinReach segs dest) :
    HistoryAt (sd.callEnv source dest compressedSize maxOutputSize) m (history segs) := by
  intro v hv hreach hhigh
  have hv' : dest - ((history segs).length : Int) ≤ v := hv
  have hreach' : dest - 65535 ≤ v := hreach
  have hhigh' : v < dest := hhigh
  obtain ⟨k, hk⟩ : ∃ k : Nat, v = dest - k := ⟨(dest - v).toNat, by omega⟩
  subst hk
  rw [phys_eq_address exact reach (by omega) (by omega) (by omega),
    kept k (by omega) (by omega) (by omega), contents]
  congr 1
  show _ = (dest - (k : Int) - (dest - ((history segs).length : Int))).toNat
  omega

end Setup

/-! ## Calls -/

/-- A block that is valid after the history, with its buffers. -/
structure ValidCall (m : Mem) (segs : List Segment) (source dest : Int) (capacity : Nat)
    (b : Block) : Prop where
  source_ne : source ≠ 0
  dest_ne : dest ≠ 0
  conforming : b.Conforming (history segs)
  holds : m.Holds source b.encode
  room : (b.decode (history segs)).length ≤ capacity
  apart : source + b.encode.length ≤ dest ∨ dest + capacity ≤ source

variable {fastDecLoop : Bool} {out : List UInt8}

section Call

variable {sd : StreamDecode} {segs : List Segment} {source dest : Int} {m : Mem} {capacity : Nat}
  {b : Block}

/-- The byte `k` positions before the end of the output is where `record` says. -/
theorem kept_record {m' : Mem} {ip : Int} {compressedSize : Nat} (exact : sd.Exact segs dest)
    (reach : WithinReach segs dest) (hdest : dest ≠ 0)
    (rel : Rel (sd.callEnv source dest compressedSize capacity) m (history segs).length
      (history segs ++ out) m' ip (dest + out.length)) : Kept m' (record segs dest hdest out) := by
  intro k hk hwindow hlength
  rw [history_record, List.length_append] at hlength ⊢
  rw [address_record _ _ _ hk]
  have hwin : (dest : Int) - (history segs).length ≤ dest + out.length - k →
      m' ((sd.callEnv source dest compressedSize capacity).phys (dest + out.length - k)) =
        contents (dest - (history segs).length) (history segs ++ out) (dest + out.length - k) :=
    fun hlow => rel.window _ hlow (by omega) (by omega)
  have hout : dest ≤ dest + out.length - k → m' (dest + out.length - k) =
      contents (dest - (history segs).length) (history segs ++ out) (dest + out.length - k) :=
    fun hlow => rel.output _ hlow (by omega)
  have hcontents : contents (dest - (history segs).length) (history segs ++ out)
      (dest + out.length - k) =
        (history segs ++ out).getD ((history segs).length + out.length - k) 0 := by
    rw [contents]
    congr 1
    omega
  rw [← hcontents]
  by_cases hnew : k ≤ out.length
  · rw [if_pos hnew]
    exact hout (by omega)
  · have hshift : dest + (out.length : Int) - k = dest - ((k - out.length : Nat) : Int) := by
      omega
    rw [if_neg hnew, ← hwin (by omega), hshift]
    rw [phys_eq_address exact reach (by omega) (by omega) (by omega)]

/-- A valid call on a state that is exact. -/
theorem decompressSafeContinue_exact (exact : sd.Exact segs dest) (reach : WithinReach segs dest)
    (kept : Kept m segs) (call : ValidCall m segs source dest capacity b)
    (spared : Spared segs dest capacity slack) (hslack : 16 ≤ slack)
    (hfast : fastDecLoop = true → 64 ≤ capacity → 31 ≤ slack) :
    ∃ h', decompressSafeContinue fastDecLoop sd ⟨m, []⟩ source dest b.encode.length capacity =
      some (((b.decode (history segs)).length : Int), h',
      sd.advance dest (b.decode (history segs)).length) ∧
      h'.mem.Holds dest (b.decode (history segs)) ∧
      Kept h'.mem (record segs dest call.dest_ne (b.decode (history segs))) := by
  have clear : (sd.callEnv source dest b.encode.length capacity).HistoryClear
      (history segs).length (if entersFastLoop fastDecLoop
        (sd.callEnv source dest b.encode.length capacity) then 31 else 16) := by
    refine (setup_historyClear exact reach spared).mono ?_
    split
    · rename_i henters
      rw [entersFastLoop, Bool.and_eq_true_iff, Bool.not_eq_true'] at henters
      have hroom : ¬ dest + (capacity : Int) - dest < 64 := of_decide_eq_false henters.2
      exact hfast henters.1 (by omega)
    · exact hslack
  have hroom := call.room
  obtain ⟨h', hrun, rel⟩ := decompressGeneric_complete
    (e := sd.callEnv source dest b.encode.length capacity) rfl call.source_ne
    (setup_serves exact reach (by omega)) clear call.conforming (kept.historyAt exact reach)
    call.holds (by omega) (Or.inl call.apart)
  refine ⟨h', ?_, rel.holds_output, kept_record exact reach call.dest_ne rel⟩
  rw [decompressSafeContinue_eq, hrun]
  rfl

/-! The state in which a single segment is the external dictionary as well is exact for a
longer history, which starts with a part of the segment. -/

section Twice

variable {s t : Segment}

theorem history_twice (s t : Segment) : history [s, t] = t.bytes ++ history [s] := by
  simp [history]

theorem address_twice (hstart : t.start = s.start) (hbytes : t.bytes <+: s.bytes)
    (hk : k ≤ t.bytes.length + s.bytes.length) :
    address [s, t] k = if k ≤
      s.bytes.length then address [s] k else address [s] (k - t.bytes.length) := by
  have hle := hbytes.length_le
  simp only [address, Segment.stop]
  by_cases hin : k ≤ s.bytes.length
  · simp only [if_pos hin]
  · omega

theorem kept_twice (hstart : t.start = s.start) (hbytes : t.bytes <+: s.bytes)
    (kept : Kept m [s]) : Kept m [s, t] := by
  have hle := hbytes.length_le
  have hsingle : history [s] = s.bytes := List.nil_append _
  intro k hk hwindow hhist
  rw [history_twice, List.length_append, hsingle] at hhist ⊢
  rw [address_twice hstart hbytes hhist]
  by_cases hin : k ≤ s.bytes.length
  · rw [if_pos hin, kept k hk hwindow (by rw [hsingle]; exact hin), hsingle,
      List.getD_append_right _ _ _ _ (by omega)]
    congr 1
    omega
  · -- a byte of the copy: the same position in the segment itself
    obtain ⟨more, hmore⟩ := hbytes
    rw [if_neg hin, kept _ (by omega) (by omega) (by rw [hsingle]; omega), hsingle,
      List.getD_append _ _ _ _ (by omega), ← hmore, List.getD_append _ _ _ _ (by
        rw [hmore]
        omega)]
    congr 1
    omega

theorem spared_twice (hstart : t.start = s.start) (hbytes : t.bytes <+: s.bytes)
    (spared : Spared [s] dest capacity slack) : Spared [s, t] dest capacity slack := by
  have hle := hbytes.length_le
  have hsingle : history [s] = s.bytes := List.nil_append _
  intro k op hk hhist hlow hhigh hreach
  rw [history_twice, List.length_append, hsingle] at hhist
  rw [address_twice hstart hbytes hhist]
  by_cases hin : k ≤ s.bytes.length
  · rw [if_pos hin]
    exact spared k op hk (by rw [hsingle]; exact hin) hlow hhigh hreach
  · rw [if_neg hin]
    exact spared _ op (by omega) (by rw [hsingle]; omega) hlow hhigh (by omega)

theorem kept_once (hdest : dest ≠ 0) (kept : Kept m (record [s, t] dest hdest out)) :
    Kept m (record [s] dest hdest out) := by
  have hsingle : history [s] = s.bytes := List.nil_append _
  intro k hk hwindow hlength
  have h := kept k hk hwindow
  rw [history_record, List.length_append] at hlength
  rw [history_record, address_record _ _ _ hk, List.length_append] at h ⊢
  rw [history_twice, List.append_assoc, List.length_append] at h
  have haddress : address [s, t] (k - out.length) = address [s] (k - out.length) := by
    simp only [address]
    rw [hsingle] at hlength
    rw [if_pos (by omega), if_pos (by omega)]
  rw [haddress] at h
  rw [h (by omega), List.getD_append_right _ _ _ _ (by omega)]
  congr 1
  omega

end Twice

theorem StreamDecode.Tracks.exact (tracks : sd.Tracks segs) (dest : Int) :
    sd.Exact segs dest ∨ ∃ s t : Segment, segs = [s] ∧ s.stop = dest ∧ sd.Exact [s, t] dest ∧
      t.start = s.start ∧ t.bytes <+: s.bytes := by
  cases segs with
  | nil => exact Or.inl tracks.1
  | cons s rest =>
    obtain ⟨hsize, hend, hlong | hext | ⟨hrest, t, hstart, hbytes, hext⟩⟩ := tracks
    · exact Or.inl ⟨hsize, hend, fun _ => Or.inl hlong⟩
    · exact Or.inl ⟨hsize, hend, fun _ => Or.inr hext⟩
    · subst hrest
      by_cases hdest : s.stop = dest
      · exact Or.inr ⟨s, t, rfl, hdest, ⟨hsize, hend, fun _ => Or.inr hext⟩, hstart, hbytes⟩
      · exact Or.inl ⟨hsize, hend, fun h => absurd h hdest⟩

/-- A valid call decodes its block. -/
theorem decompressSafeContinue_complete (fastDecLoop : Bool) (tracks : sd.Tracks segs)
    (reach : WithinReach segs dest) (kept : Kept m segs)
    (call : ValidCall m segs source dest capacity b) (spared : Spared segs dest capacity slack)
    (hslack : 16 ≤ slack) (hfast : fastDecLoop = true → 64 ≤ capacity → 31 ≤ slack) :
    ∃ h', decompressSafeContinue fastDecLoop sd ⟨m, []⟩ source dest b.encode.length capacity =
      some (((b.decode (history segs)).length : Int), h',
      sd.advance dest (b.decode (history segs)).length) ∧
      h'.mem.Holds dest (b.decode (history segs)) ∧
      Kept h'.mem (record segs dest call.dest_ne (b.decode (history segs))) := by
  rcases tracks.exact dest with exact | ⟨s, t, rfl, hdest, exact, hstart, hbytes⟩
  · exact decompressSafeContinue_exact exact reach kept call spared hslack hfast
  · have hdecode : b.decode (history [s, t]) = b.decode (history [s]) := by
      exact decode_append_left _ call.conforming.reaches
    have call' : ValidCall m [s, t] source dest capacity b :=
      { call with
        conforming := by
          exact call.conforming.append_left _
        room := by
          rw [hdecode]
          exact call.room }
    have reach' : WithinReach [s, t] dest := by
      rw [WithinReach, if_pos (show Continues [s, t] dest from hdest)]
      trivial
    have hresult := decompressSafeContinue_exact exact reach' (kept_twice hstart hbytes kept) call'
      (spared_twice hstart hbytes spared) hslack hfast
    rw [hdecode] at hresult
    obtain ⟨h', hcall, hholds, hkept⟩ := hresult
    exact ⟨h', hcall, hholds, kept_once call.dest_ne hkept⟩

end Call

/-! ## The state after a call -/

section Advance

variable {sd : StreamDecode} {segs : List Segment} {dest : Int}

/-- A call that decodes nothing loses nothing that is still within reach. -/
theorem StreamDecode.Tracks.advance_of_nonpos (tracks : sd.Tracks segs)
    (reach : WithinReach segs dest) {r : Int} (hr : r ≤ 0) : (sd.advance dest r).Tracks segs := by
  cases segs with
  | nil =>
    rw [StreamDecode.advance, if_pos tracks.1, if_pos hr]
    exact tracks
  | cons s rest =>
    obtain ⟨hsize, hend, hext⟩ := tracks
    have hpos := s.length_pos
    rw [StreamDecode.advance, if_neg (by omega)]
    by_cases hcontinues : s.stop = dest
    · rw [if_pos (by omega), if_pos hr]
      exact ⟨hsize, hend, hext⟩
    · rw [WithinReach, if_neg (show ¬ Continues (s :: rest) dest from hcontinues)] at reach
      rw [if_neg (by omega)]
      simp only [if_pos hr]
      refine ⟨hsize, hend, ?_⟩
      cases rest with
      | nil =>
        -- the segment is now its own dictionary
        refine Or.inr (Or.inr ⟨rfl, s, rfl, List.prefix_rfl, ?_, hsize⟩)
        show sd.prefixEnd - (sd.prefixSize : Int) = s.start
        rw [hend, hsize, Segment.stop]
        omega
      | cons t older => exact Or.inl reach

/-- A call that decodes `out` makes the state describe the longer history. -/
theorem StreamDecode.Tracks.advance_record (tracks : sd.Tracks segs)
    (reach : WithinReach segs dest) (hdest : dest ≠ 0) (out : List UInt8) :
    (sd.advance dest out.length).Tracks (record segs dest hdest out) := by
  by_cases hout : out = []
  · rw [record, dif_pos hout]
    exact tracks.advance_of_nonpos reach (by rw [hout]; exact Int.le_refl 0)
  have hpos : 0 < out.length := List.length_pos_iff.mpr hout
  rw [record, dif_neg hout]
  cases segs with
  | nil =>
    rw [StreamDecode.advance, if_pos tracks.1, if_neg (by omega)]
    exact ⟨Int.toNat_natCast _, rfl, Or.inr (Or.inl tracks.2)⟩
  | cons s rest =>
    obtain ⟨hsize, hend, hext⟩ := tracks
    have hlength := s.length_pos
    rw [StreamDecode.advance, if_neg (by omega)]
    dsimp only
    by_cases hcontinues : s.stop = dest
    · rw [if_pos (by omega), if_pos hcontinues, if_neg (by omega)]
      refine ⟨?_, ?_, ?_⟩
      · rw [List.length_append, Int.toNat_natCast, hsize]
      · show sd.prefixEnd + (out.length : Int) = s.start + ((s.bytes ++ out).length : Nat)
        rw [hend, Segment.stop, List.length_append]
        omega
      · rcases hext with hlong | hext | ⟨hrest, t, hstart, hbytes, hext⟩
        · exact Or.inl (by rw [List.length_append]; omega)
        · refine Or.inr (Or.inl ?_)
          cases rest with
          | nil => exact hext
          | cons t older => exact hext
        · exact Or.inr (Or.inr ⟨hrest, t, hstart, hbytes.trans (List.prefix_append _ _), hext⟩)
    · rw [if_neg (by omega), if_neg hcontinues, if_neg (by omega)]
      refine ⟨Int.toNat_natCast _, rfl, Or.inr (Or.inl ⟨?_, hsize⟩)⟩
      show sd.prefixEnd - (sd.prefixSize : Int) = s.start
      rw [hend, hsize, Segment.stop]
      omega

end Advance

/-! ## Whole streams -/

/-- The segments after `LZ4_setStreamDecode`: the dictionary, if there is one. -/
def dictionarySegments (m : Mem) (dictionary : Int) (dictSize : Nat) : List Segment :=
  if h : dictionary ≠ 0 ∧ dictSize ≠ 0 then
    [⟨dictionary, m.bytes dictionary dictSize, h.1, fun hnil => h.2 (by
      rw [← Mem.length_bytes m dictionary dictSize, hnil, List.length_nil])⟩]
  else []

/-- The states a caller can reach who keeps the last 65535 decoded bytes in place.
Between calls the caller may do anything else to memory.  Calls that decode nothing may
have any arguments.  `Admits` restricts where calls are made. -/
inductive StreamRun (fastDecLoop : Bool) (Admits : List Segment → Int → Prop) :
    Mem → StreamDecode → List Segment → Prop
  | set (m : Mem) (dictionary : Int) (dictSize : Nat)
      (hdictionary : dictSize ≠ 0 → dictionary ≠ 0) :
      StreamRun fastDecLoop Admits m (setStreamDecode dictionary dictSize)
        (dictionarySegments m dictionary dictSize)
  | write {m : Mem} {sd : StreamDecode} {segs : List Segment}
      (run : StreamRun fastDecLoop Admits m sd segs) (m' : Mem) (kept : Kept m' segs) :
      StreamRun fastDecLoop Admits m' sd segs
  | block {m : Mem} {sd : StreamDecode} {segs : List Segment}
      (run : StreamRun fastDecLoop Admits m sd segs) {source dest : Int} {capacity : Nat}
      {b : Block} (call : ValidCall m segs source dest capacity b)
      (avoids : Avoids segs dest capacity) (admits : Admits segs dest) {r : Int} {h' : Heap}
      {sd' : StreamDecode}
      (hcall : decompressSafeContinue fastDecLoop sd ⟨m, []⟩ source dest b.encode.length capacity =
        some (r, h', sd')) :
      StreamRun fastDecLoop Admits h'.mem sd'
        (record segs dest call.dest_ne (b.decode (history segs)))
  | failed {m : Mem} {sd : StreamDecode} {segs : List Segment}
      (run : StreamRun fastDecLoop Admits m sd segs) {source dest : Int} {compressedSize : Nat}
      {capacity : Int} (avoids : Avoids segs dest capacity) (admits : Admits segs dest) {r : Int}
      {h' : Heap} {sd' : StreamDecode}
      (hcall : decompressSafeContinue fastDecLoop sd ⟨m, []⟩ source dest compressedSize capacity =
        some (r, h', sd')) (hr : r ≤ 0) :
      StreamRun fastDecLoop Admits h'.mem sd' segs

/-- Whatever its input, a call returns, moves the state on and leaves the memory around
its output alone. -/
theorem decompressSafeContinue_frame (fastDecLoop : Bool) (sd : StreamDecode) (m : Mem)
    (source dest : Int) (compressedSize : Nat) (maxOutputSize : Int) :
    ∃ r h', decompressSafeContinue fastDecLoop sd ⟨m, []⟩ source dest compressedSize
        maxOutputSize = some (r, h', sd.advance dest r) ∧
      ∀ a, (a < dest ∨ dest + maxOutputSize ≤ a) → h'.mem a = m a := by
  obtain ⟨r, h', hrun, hlog⟩ := decompressGeneric_logged fastDecLoop m source dest compressedSize
    maxOutputSize false (sd.setup dest).dict (sd.setup dest).lowPrefix (sd.setup dest).dictStart
    (sd.setup dest).dictSize (setup_lowPrefix_le sd dest) (setup_dictSize sd dest)
    (setup_prefix64k sd dest)
  refine ⟨r, h', ?_, fun a ha => frame_of_logged hlog ha⟩
  rw [decompressSafeContinue_eq, hrun]
  rfl

/-- A call of `LZ4_decompress_safe_continue`, and what the caller does to memory before it. -/
structure StreamCall where
  prepare : Mem → Mem
  source : Int
  dest : Int
  compressedSize : Nat
  maxOutputSize : Int

/-- Calls on one stream, whatever they return. -/
def decompressAll (fastDecLoop : Bool) :
    List StreamCall → StreamDecode → Mem → Option (StreamDecode × Mem)
  | [], sd, m => some (sd, m)
  | c :: calls, sd, m => do
    let (_, h, sd) ← decompressSafeContinue fastDecLoop sd ⟨c.prepare m, []⟩ c.source c.dest
      c.compressedSize c.maxOutputSize
    decompressAll fastDecLoop calls sd h.mem

/-- **A stream stays in its output buffers**, on any inputs and in any state: all calls return, and
only the caller changes memory elsewhere. -/
theorem decompressAll_contained (fastDecLoop : Bool) (calls : List StreamCall) (sd : StreamDecode)
    (m : Mem) :
    ∃ sd' m', decompressAll fastDecLoop calls sd m = some (sd', m') ∧
      ∀ a, (∀ c ∈ calls, (∀ m, c.prepare m a = m a) ∧
        (a < c.dest ∨ c.dest + c.maxOutputSize ≤ a)) → m' a = m a := by
  induction calls generalizing sd m with
  | nil => exact ⟨sd, m, rfl, fun _ _ => rfl⟩
  | cons c calls ih =>
    obtain ⟨r, h, hcall, hframe⟩ := decompressSafeContinue_frame fastDecLoop sd (c.prepare m)
      c.source c.dest c.compressedSize c.maxOutputSize
    obtain ⟨sd', m', hrest, hkept⟩ := ih (sd.advance c.dest r) h.mem
    refine ⟨sd', m', ?_, fun a ha => ?_⟩
    · rw [decompressAll, hcall]
      exact hrest
    · obtain ⟨⟨hcaller, hout⟩, hothers⟩ := List.forall_mem_cons.mp ha
      rw [hkept a hothers, hframe a hout, hcaller m]

theorem set_tracks (m : Mem) {dictionary : Int} {dictSize : Nat}
    (hdictionary : dictSize ≠ 0 → dictionary ≠ 0) :
    (setStreamDecode dictionary dictSize).Tracks (dictionarySegments m dictionary dictSize) ∧
      Kept m (dictionarySegments m dictionary dictSize) := by
  unfold dictionarySegments
  split
  · rename_i hdict
    have hlength := Mem.length_bytes m dictionary dictSize
    refine ⟨⟨hlength.symm, ?_, Or.inr (Or.inl rfl)⟩, fun k hk _ hhist => ?_⟩
    · rw [Segment.stop, hlength]
      exact if_pos hdict.2
    · simp only [history, List.nil_append, address, Segment.stop, hlength] at hhist ⊢
      rw [if_pos hhist, Mem.getD_bytes _ _ (by omega)]
      congr 1
      omega
  · rename_i hnone
    have hzero : dictSize = 0 := by
      by_contra hsize
      exact hnone ⟨hdictionary hsize, hsize⟩
    refine ⟨⟨hzero, rfl⟩, fun k hk _ hhist => ?_⟩
    have : (history []).length = 0 := rfl
    omega

variable {segs : List Segment}

/-- Along a run the decoder knows where the history is, and the history is there. -/
theorem StreamRun.tracks {sd : StreamDecode} (run : StreamRun fastDecLoop WithinReach m sd segs) :
    sd.Tracks segs ∧ Kept m segs := by
  induction run with
  | set m dictionary dictSize hdictionary => exact set_tracks m hdictionary
  | write run m' kept ih => exact ⟨ih.1, kept⟩
  | block run call avoids reach hcall ih =>
    obtain ⟨tracks, kept⟩ := ih
    obtain ⟨h'', hcall', -, kept'⟩ := decompressSafeContinue_complete fastDecLoop tracks reach
      kept call (avoids.spared 31) (by decide) (fun _ _ => Int.le_refl 31)
    cases Option.some.inj (hcall.symm.trans hcall')
    exact ⟨tracks.advance_record reach call.dest_ne _, kept'⟩
  | failed run avoids reach hcall hr ih =>
    obtain ⟨tracks, kept⟩ := ih
    obtain ⟨r', h'', hcall', hframe⟩ := decompressSafeContinue_frame _ _ _ _ _ _ _
    cases Option.some.inj (hcall.symm.trans hcall')
    refine ⟨tracks.advance_of_nonpos reach hr, fun k hk hwindow hhist => ?_⟩
    rw [hframe _ (avoids k hk hwindow hhist)]
    exact kept k hk hwindow hhist

/-- After any run whose calls find the history within reach, failed and empty calls
included, a valid block is decoded. -/
theorem decompressSafeContinue_stream (fastDecLoop : Bool) (m : Mem) (sd : StreamDecode)
    (segs : List Segment) (run : StreamRun fastDecLoop WithinReach m sd segs) (source dest : Int)
    (capacity : Nat) (b : Block) (call : ValidCall m segs source dest capacity b)
    (avoids : Avoids segs dest capacity) (reach : WithinReach segs dest) :
    ∃ h' sd', decompressSafeContinue fastDecLoop sd ⟨m, []⟩ source dest b.encode.length capacity =
        some (((b.decode (history segs)).length : Int), h', sd') ∧
      h'.mem.Holds dest (b.decode (history segs)) := by
  obtain ⟨tracks, kept⟩ := run.tracks
  obtain ⟨h', hcall, hholds, -⟩ := decompressSafeContinue_complete fastDecLoop tracks reach
    kept call (avoids.spared 31) (by decide) (fun _ _ => Int.le_refl 31)
  exact ⟨h', _, hcall, hholds⟩

/-- One block after a dictionary of two bytes, which it copies from another buffer. -/
theorem decompressSafeContinue_stream_dictionary :
    let b : Block := ⟨[⟨[], 2, 8⟩], [1, 2, 3, 4, 5], 0⟩
    let m : Mem := Mem.store (fun _ => 9) 30 b.encode
    ∃ h' sd', decompressSafeContinue true (setStreamDecode 100 2) ⟨m, []⟩ 30 300 b.encode.length
        20 = some (((b.decode (history (dictionarySegments m 100 2))).length : Int), h', sd') ∧
      h'.mem.Holds 300 (b.decode (history (dictionarySegments m 100 2))) := by
  intro b m
  refine decompressSafeContinue_stream true m (setStreamDecode 100 2) (dictionarySegments m 100 2)
    (.set m 100 2 (by decide)) 30 300 20 b ?_ ?_ ?_
  · refine ⟨by decide, by decide, ?_, Mem.holds_store _ _ _, by decide, by decide⟩
    constructor <;> decide
  · intro k hk _ hlength
    have hcount : (history (dictionarySegments m 100 2)).length = 2 := rfl
    have haddress : address (dictionarySegments m 100 2) k = 102 - k := by
      show (if k ≤ 2 then (100 + 2 : Int) - k else _) = _
      rw [if_pos (by omega)]
      rfl
    omega
  · show if _ then _ else _
    split
    · trivial
    · trivial

/-! ### Three buffers

With its history in three buffers a valid block fails, although nothing was touched. -/

def threeBuffers : Mem :=
  Mem.store (Mem.store (Mem.store (Mem.store (Mem.store (fun _ => 0) 10 [16, 1]) 20 [16, 2]) 30
    [4, 2, 0, 80, 1, 2, 3, 4, 5]) 100 [1]) 200 [2]

/-- The first buffer after its call, and both. -/
def firstBuffer : List Segment := [⟨100, [1], by decide, by decide⟩]

def twoBuffers : List Segment := ⟨200, [2], by decide, by decide⟩ :: firstBuffer

theorem kept_firstBuffer : Kept threeBuffers firstBuffer := by
  intro k hk _ hlength
  have hcount : (history firstBuffer).length = 1 := rfl
  obtain rfl : k = 1 := by omega
  decide

theorem kept_twoBuffers : Kept threeBuffers twoBuffers := by
  intro k hk _ hlength
  have hcount : (history twoBuffers).length = 2 := rfl
  obtain rfl | rfl : k = 1 ∨ k = 2 := by omega
  · decide
  · decide

theorem avoids_buffers (hlength : (history segs).length ≤ 2) (hone : address segs 1 < dest)
    (htwo : address segs 2 < dest) : Avoids segs dest 20 := by
  intro k hk _ hhist
  obtain rfl | rfl : k = 1 ∨ k = 2 := by omega
  · exact Or.inl hone
  · exact Or.inl htwo

theorem streamRun_firstBuffer :
    StreamRun true (fun _ _ => True) threeBuffers ⟨0, 101, 0, 1⟩ firstBuffer := by
  have call : ValidCall threeBuffers [] 10 100 20 ⟨[], [1], 0⟩ := by
    refine ⟨by decide, by decide, ?_, by decide, by decide, by decide⟩
    constructor <;> decide
  have avoids : Avoids [] 100 20 := avoids_buffers (by decide) (by decide) (by decide)
  obtain ⟨tracks, kept⟩ := set_tracks threeBuffers (show (0 : Nat) ≠ 0 → (0 : Int) ≠ 0 by decide)
  obtain ⟨h', hcall, -, -⟩ := decompressSafeContinue_complete true tracks
    (show WithinReach [] 100 from trivial) kept call (avoids.spared 31) (by decide)
    (fun _ _ => Int.le_refl 31)
  exact .write (.block (.set threeBuffers 0 0 (by decide)) call avoids trivial hcall) _
    kept_firstBuffer

theorem streamRun_twoBuffers :
    StreamRun true (fun _ _ => True) threeBuffers ⟨100, 201, 1, 1⟩ twoBuffers := by
  have call : ValidCall threeBuffers firstBuffer 20 200 20 ⟨[], [2], 0⟩ := by
    refine ⟨by decide, by decide, ?_, by decide, by decide, by decide⟩
    constructor <;> decide
  have avoids : Avoids firstBuffer 200 20 := avoids_buffers (by decide) (by decide) (by decide)
  have tracks : (⟨0, 101, 0, 1⟩ : StreamDecode).Tracks firstBuffer := ⟨rfl, rfl, Or.inr (Or.inl rfl)⟩
  obtain ⟨h', hcall, -, -⟩ := decompressSafeContinue_complete true tracks
    (show WithinReach firstBuffer 200 from trivial) kept_firstBuffer call (avoids.spared 31)
    (by decide) (fun _ _ => Int.le_refl 31)
  exact .write (.block streamRun_firstBuffer call avoids trivial hcall) _ kept_twoBuffers

theorem decompressSafeContinue_threeBuffers :
    ∃ m sd segs source dest capacity b,
      StreamRun true (fun _ _ => True) m sd segs ∧ ValidCall m segs source dest capacity b ∧
        Avoids segs dest capacity ∧
        ∃ r h' sd', decompressSafeContinue true sd ⟨m, []⟩ source dest b.encode.length capacity =
          some (r, h', sd') ∧ r < 0 := by
  refine ⟨threeBuffers, ⟨100, 201, 1, 1⟩, twoBuffers, 30, 300, 20,
    ⟨[⟨[], 2, 8⟩], [1, 2, 3, 4, 5], 0⟩, streamRun_twoBuffers, ?_, ?_, ?_⟩
  · refine ⟨by decide, by decide, ?_, by decide, by decide, by decide⟩
    constructor <;> decide
  · exact avoids_buffers (by decide) (by decide) (by decide)
  · obtain ⟨r, h', hcall, -⟩ := decompressSafeContinue_frame true ⟨100, 201, 1, 1⟩ threeBuffers 30
      300 9 20
    have hresult : (decompressSafeContinue true ⟨100, 201, 1, 1⟩ ⟨threeBuffers, []⟩ 30 300 9 20).map
        Prod.fst = some (-4) := by
      decide +kernel
    rw [hcall] at hresult
    obtain rfl : r = -4 := Option.some.inj hresult
    exact ⟨_, h', _, hcall, by decide⟩

end Lz4
