import Lz4.Decoder.UsingDict
import Lz4.Encoder.Correct

/-!
# `LZ4_compress_fast`

The functions around the block compressor that start from an empty table.  A stream is
what `LZ4_stream_t` contains; the context of an attached dictionary is part of its value,
since it is not modified while it is attached.

For these functions the assumptions of the previous modules are consequences of the code:
the acceleration is brought into range, an output that is not limited is large enough for
any input, and an empty table is admissible.
-/

namespace Lz4

open FlatMemory Encoder

def maxInputSize : Int := 0x7E000000

/-- `LZ4_compressBound`.  A size that is not supported, or negative, has the bound zero. -/
def compressBound (isize : Int) : Int :=
  if isize % 2 ^ 32 > maxInputSize then 0 else isize + isize / 255 + 16

namespace Encoder

/-- A compression context without an attached dictionary.  The defaults are those of
`LZ4_initStream`. -/
structure Context where
  hashTable : Table := fun _ => 0
  dictionary : Int := 0
  currentOffset : Nat := 0
  tableType : TableType := .clearedTable
  dictSize : Nat := 0

/-- `LZ4_stream_t` -/
structure Stream extends Context where
  dictCtx : Option Context := none

/-- How `LZ4_compress_generic` is called. -/
structure Mode where
  outputDirective : OutputDirective
  tableType : TableType
  dictDirective : DictDirective := .noDict
  dictSmall : Bool := false

/-- What a call of `LZ4_compress_generic_validated` starts from. -/
def Stream.env (s : Stream) (ptr32 : Bool) (mode : Mode) (src dst : Int) (srcSize : Nat)
    (dstCapacity acceleration : Int) : Env :=
  let dictCtx := s.dictCtx.getD {}
  { ptr32
    outputDirective := mode.outputDirective
    tableType := mode.tableType
    dictDirective := mode.dictDirective
    dictSmall := mode.dictSmall
    acceleration
    source := src
    inputSize := srcSize
    dest := dst
    maxOutputSize := dstCapacity
    startIndex := s.currentOffset
    dictionary := if mode.dictDirective = .usingDictCtx then dictCtx.dictionary else s.dictionary
    dictSize := if mode.dictDirective = .usingDictCtx then dictCtx.dictSize else s.dictSize
    dictTable := dictCtx.hashTable
    dictOffset := dictCtx.currentOffset }

/-- The context behind a block.  Blocks that follow can refer to it, but not to an attached
dictionary. -/
def Stream.update (s : Stream) (mode : Mode) (srcSize : Nat) (hashTable : Table) : Stream :=
  { s with
    hashTable
    currentOffset := (s.currentOffset + srcSize) % 2 ^ 32
    tableType := mode.tableType
    dictSize := if mode.dictDirective = .usingDictCtx then srcSize
      else (s.dictSize + srcSize) % 2 ^ 32
    dictCtx := if mode.dictDirective = .usingDictCtx then none else s.dictCtx }

/-- What a call returns.  `inputConsumed` is what it writes to the pointer of that name. -/
structure Compression where
  result : Int
  inputConsumed : Option Int
  heap : Heap
  stream : Stream

/-- `LZ4_compress_generic` -/
def compressGeneric (ptr32 : Bool) (cctx : Stream) (h : Heap) (src dst srcSize dstCapacity : Int)
    (mode : Mode) (acceleration : Int) : Option Compression :=
  if srcSize % 2 ^ 32 > maxInputSize then some ⟨0, none, h, cctx⟩
  else if srcSize = 0 then
    if mode.outputDirective ≠ .notLimited ∧ dstCapacity ≤ 0 then some ⟨0, none, h, cctx⟩
    else
      some ⟨1, if mode.outputDirective = .fillOutput then some 0 else none, h.store dst [0], cctx⟩
  else do
    let e := cctx.env ptr32 mode src dst srcSize.toNat dstCapacity acceleration
    let o ← compressGenericValidated e h cctx.hashTable
    if mode.outputDirective = .fillOutput ∧ dstCapacity < 1 then return ⟨0, none, o.heap, cctx⟩
    return ⟨o.result, if mode.outputDirective = .fillOutput then some (o.ip - src) else none,
      o.heap, cctx.update mode srcSize.toNat o.table⟩

/-- `LZ4_ACCELERATION_DEFAULT` and `LZ4_ACCELERATION_MAX` are the limits. -/
def clampAcceleration (acceleration : Int) : Int :=
  if acceleration < 1 then 1 else if acceleration > 65537 then 65537 else acceleration

/-- The table for an input on its own: 16-bit indices below `LZ4_64Klimit`. -/
def chooseTable (ptr32 : Bool) (source inputSize : Int) : TableType :=
  if inputSize < 65536 + (12 - 1) then .byU16
  else if ptr32 = true ∧ source > 65535 then .byPtr else .byU32

/-! ## One call of the block compressor -/

section

variable {ptr32 : Bool} {cctx : Stream} {m : Mem} {src dst srcSize dstCapacity : Int} {mode : Mode}
  {acceleration cap : Int}

/-- Everything that is written lies in the destination, and the result is zero only if its
size is limited. -/
structure Contained (mode : Mode) (dst cap : Int) (m : Mem) (c : Compression) : Prop where
  logged : c.heap.Logged (Within dst (dst + cap)) m
  result : c.result = 0 ∧ mode.outputDirective = .limitedOutput ∨ 1 ≤ c.result ∧ c.result ≤ cap

/-- The result is the size of a block for the first `used` bytes behind the history. -/
structure Encodes (mode : Mode) (text : List UInt8) (k : Nat) (dst srcSize : Int)
    (c : Compression) (b : Block) (used : Nat) : Prop where
  holds : c.heap.mem.Holds dst b.encode
  result : c.result = b.encode.length
  conforming : b.Conforming (text.take k)
  decode : b.decode (text.take k) = (text.drop k).take used
  used_le : used ≤ srcSize
  all : mode.outputDirective ≠ .fillOutput → used = srcSize
  consumed : c.inputConsumed.getD srcSize = used

theorem Env.Capacity.pos_of_not_limited {e : Env} (capacity : e.Capacity cap)
    (hdir : e.outputDirective ≠ .limitedOutput) : 1 ≤ cap := by
  unfold Env.Capacity at capacity
  cases hdir' : e.outputDirective with
  | notLimited =>
    simp only [hdir'] at capacity
    omega
  | limitedOutput => exact absurd hdir' hdir
  | fillOutput =>
    simp only [hdir'] at capacity
    exact capacity.2

/-- An empty input is one token. -/
theorem compressGeneric_zero (m : Mem) (acceleration : Int)
    (capacity : (cctx.env ptr32 mode src dst 0 dstCapacity acceleration).Capacity cap) :
    ∃ c, compressGeneric ptr32 cctx ⟨m, []⟩ src dst 0 dstCapacity mode acceleration = some c ∧
      Contained mode dst cap m c ∧ c.stream = cctx ∧
      (c.result = 0 ∨ ∀ text k, Encodes mode text k dst 0 c ⟨[], [], 0⟩ 0) := by
  unfold compressGeneric
  rw [if_neg (by decide), if_pos rfl]
  split
  · rename_i hnone
    have hlimited : mode.outputDirective = .limitedOutput := by
      by_contra hdir
      have hpos := capacity.pos_of_not_limited hdir
      have heq : cap = dstCapacity := capacity.eq_of_limited hnone.1
      omega
    exact ⟨_, rfl, ⟨⟨by simp, fun _ _ => rfl⟩, Or.inl ⟨rfl, hlimited⟩⟩, rfl, Or.inl rfl⟩
  · rename_i hroom
    have hcap : 1 ≤ cap := by
      by_cases hdir : mode.outputDirective = .notLimited
      · exact capacity.pos_of_not_limited
          (show mode.outputDirective ≠ .limitedOutput by simp [hdir])
      · have heq : cap = dstCapacity := capacity.eq_of_limited hdir
        have := not_and.mp hroom hdir
        omega
    refine ⟨_, rfl, ⟨?_, Or.inr ⟨Int.le_refl 1, hcap⟩⟩, rfl, Or.inr fun text k => ?_⟩
    · refine Heap.logged_store (within_write (Int.le_refl _) ?_) ⟨by simp, fun _ _ => rfl⟩
      rw [List.length_singleton]
      omega
    · refine ⟨Mem.holds_store m dst [0], rfl, ?_, ?_, Int.le_refl 0, fun _ => rfl, ?_⟩
      · constructor <;> simp [Reaches]
      · simp [Block.decode]
      · split
        · rfl
        · rfl

theorem compressGeneric_eq (hsize : 0 < srcSize) (hmax : srcSize ≤ maxInputSize)
    (capacity :
      (cctx.env ptr32 mode src dst srcSize.toNat dstCapacity acceleration).Capacity cap)
    {h : Heap} {o : Outcome}
    (ho : compressGenericValidated
      (cctx.env ptr32 mode src dst srcSize.toNat dstCapacity acceleration) h cctx.hashTable =
        some o) :
    compressGeneric ptr32 cctx h src dst srcSize dstCapacity mode acceleration =
      some ⟨o.result, if mode.outputDirective = .fillOutput then some (o.ip - src) else none,
        o.heap, cctx.update mode srcSize.toNat o.table⟩ := by
  have hroom : ¬ (mode.outputDirective = .fillOutput ∧ dstCapacity < 1) := capacity.not_empty
  unfold maxInputSize at hmax
  unfold compressGeneric maxInputSize
  rw [if_neg (by omega), if_neg (by omega)]
  simp only [ho, Option.bind_eq_bind, Option.bind_some]
  rw [if_neg hroom]
  rfl

/-- The output of a call stays in the destination, whatever its buffers contain. -/
theorem compressGeneric_contained (m : Mem) (hsize : 0 ≤ srcSize) (hmax : srcSize ≤ maxInputSize)
    (accelerates : 13 ≤ srcSize →
      (cctx.env ptr32 mode src dst srcSize.toNat dstCapacity acceleration).Accelerates)
    (capacity :
      (cctx.env ptr32 mode src dst srcSize.toNat dstCapacity acceleration).Capacity cap) :
    ∃ c, compressGeneric ptr32 cctx ⟨m, []⟩ src dst srcSize dstCapacity mode acceleration = some c ∧
      Contained mode dst cap m c := by
  by_cases hzero : srcSize = 0
  · subst hzero
    obtain ⟨c, hc, contained, -⟩ := compressGeneric_zero m acceleration capacity
    exact ⟨c, hc, contained⟩
  · obtain ⟨o, ho, returns⟩ := compressGenericValidated_returns
      (fun hlong => accelerates (by simp only [Stream.env] at hlong; omega)) capacity m cctx.hashTable
    exact ⟨_, compressGeneric_eq (by omega) hmax capacity ho, returns.logged, returns.result⟩

/-- A call whose table is admissible returns a block for its input. -/
theorem compressGeneric_encodes {text : List UInt8} {k : Nat} (hsize : 0 < srcSize)
    (hmax : srcSize ≤ maxInputSize)
    (accelerates : 13 ≤ srcSize →
      (cctx.env ptr32 mode src dst srcSize.toNat dstCapacity acceleration).Accelerates)
    (sound : Sound (cctx.env ptr32 mode src dst srcSize.toNat dstCapacity acceleration) text k
      cctx.hashTable cap m) :
    ∃ c table,
      compressGeneric ptr32 cctx ⟨m, []⟩ src dst srcSize dstCapacity mode acceleration = some c ∧
      Contained mode dst cap m c ∧ c.stream = cctx.update mode srcSize.toNat table ∧
      (mode.outputDirective = .fillOutput ∨
        Entries (cctx.env ptr32 mode src dst srcSize.toNat dstCapacity acceleration)
          cctx.hashTable table (src + srcSize)) ∧
      (c.result = 0 ∨ ∃ b used, Encodes mode text k dst srcSize c b used) := by
  obtain ⟨o, ho, returns, yields⟩ := compressGenericValidated_yields
    (fun hlong => accelerates (by simp only [Stream.env] at hlong; omega)) sound
  have hiend : (cctx.env ptr32 mode src dst srcSize.toNat dstCapacity acceleration).iend =
      src + srcSize := by
    unfold Env.iend
    simp only [Stream.env]
    omega
  refine ⟨_, o.table, compressGeneric_eq hsize hmax sound.capacity ho, ⟨returns.logged, returns.result⟩, rfl, ?_, ?_⟩
  · rw [← hiend]
    exact yields.entries
  · refine yields.block.imp_right fun ⟨b, compressed⟩ => ⟨b, (o.ip - src).toNat, ?_⟩
    obtain ⟨hholds, hresult, hconforming, hdecode, hge, hle, hall⟩ := compressed
    have hge : src ≤ o.ip := hge
    refine ⟨hholds, hresult, hconforming, hdecode, by omega, fun hdir => ?_, ?_⟩
    · have := hall hdir
      omega
    · split
      · show o.ip - src = _
        omega
      · rename_i hdir
        have := hall hdir
        show srcSize = _
        omega

end

end Encoder

/-- `LZ4_compress_fast_extState`.  The state is initialized first, so that its contents do
not matter. -/
def compressFastExtState (ptr32 : Bool) (h : Heap)
    (source dest inputSize maxOutputSize acceleration : Int) : Option Compression :=
  let tableType := chooseTable ptr32 source inputSize
  if maxOutputSize ≥ compressBound inputSize then
    compressGeneric ptr32 {} h source dest inputSize 0 ⟨.notLimited, tableType, .noDict, false⟩
      (clampAcceleration acceleration)
  else
    compressGeneric ptr32 {} h source dest inputSize maxOutputSize
      ⟨.limitedOutput, tableType, .noDict, false⟩ (clampAcceleration acceleration)

/-- `LZ4_compress_fast` -/
def compressFast (ptr32 : Bool) (h : Heap)
    (src dest srcSize dstCapacity acceleration : Int) : Option (Int × Heap) := do
  let c ← compressFastExtState ptr32 h src dest srcSize dstCapacity acceleration
  return (c.result, c.heap)

/-- `LZ4_compress_default` -/
def compressDefault (ptr32 : Bool) (h : Heap) (src dst srcSize dstCapacity : Int) :
    Option (Int × Heap) :=
  compressFast ptr32 h src dst srcSize dstCapacity 1

/-! ## Starting from an empty table -/

section

variable {ptr32 : Bool} {m : Mem} {src dst srcSize dstCapacity acceleration cap : Int}

/-- The mode of `LZ4_compress_fast_extState`. -/
def fastMode (ptr32 : Bool) (source inputSize maxOutputSize : Int) : Mode where
  outputDirective :=
    if maxOutputSize ≥ compressBound inputSize then .notLimited else .limitedOutput
  tableType := chooseTable ptr32 source inputSize

/-- The capacity that it passes on. -/
def fastCapacity (inputSize maxOutputSize : Int) : Int :=
  if maxOutputSize ≥ compressBound inputSize then 0 else maxOutputSize

theorem compressFastExtState_eq (h : Heap) (source dest inputSize maxOutputSize acceleration : Int) :
    compressFastExtState ptr32 h source dest inputSize maxOutputSize acceleration =
      compressGeneric ptr32 {} h source dest inputSize (fastCapacity inputSize maxOutputSize)
        (fastMode ptr32 source inputSize maxOutputSize) (clampAcceleration acceleration) := by
  unfold compressFastExtState fastCapacity fastMode
  split
  · rfl
  · rfl

theorem compressBound_eq (hsize : 0 ≤ srcSize) (hmax : srcSize ≤ maxInputSize) :
    compressBound srcSize = srcSize + srcSize / 255 + 16 := by
  unfold compressBound
  rw [if_neg (by omega)]

theorem accelerates_clamp {cctx : Stream} {mode : Mode} (hmax : srcSize ≤ maxInputSize) :
    (cctx.env ptr32 mode src dst srcSize.toNat dstCapacity
      (clampAcceleration acceleration)).Accelerates := by
  unfold maxInputSize at hmax
  unfold Env.Accelerates clampAcceleration
  simp only [Stream.env]
  split
  · omega
  · split
    · omega
    · omega

theorem fast_capacity (hsize : 0 ≤ srcSize) (hmax : srcSize ≤ maxInputSize)
    (hcap : if dstCapacity ≥ compressBound srcSize then compressBound srcSize ≤ cap
      else cap = dstCapacity) :
    (({} : Stream).env ptr32 (fastMode ptr32 src srcSize dstCapacity) src dst srcSize.toNat
      (fastCapacity srcSize dstCapacity) acceleration).Capacity cap := by
  rw [compressBound_eq hsize hmax] at hcap
  unfold Env.Capacity
  simp only [Stream.env, fastMode, fastCapacity, compressBound_eq hsize hmax]
  split at hcap
  · rename_i hlarge
    simp only [hlarge, if_true]
    omega
  · rename_i hsmall
    simp only [hsmall, if_false]
    exact hcap

/-- An empty table only knows the start of the input, and pointers that are too far away. -/
theorem admissible_empty {mode : Mode} (htype : mode.tableType = chooseTable ptr32 src srcSize)
    (hdict : mode.dictDirective = .noDict) (hsmall : mode.dictSmall = false)
    (hsize : 0 ≤ srcSize) (hmax : srcSize ≤ maxInputSize) :
    (({} : Stream).env ptr32 mode src dst srcSize.toNat dstCapacity acceleration).Admissible
      ({} : Stream).hashTable := by
  unfold maxInputSize at hmax
  constructor
  · simp only [Stream.env]
    omega
  · exact (by decide : 0 < 2 ^ 32)
  · intro hptr
    simp only [Stream.env, htype, chooseTable] at hptr
    split at hptr
    · exact absurd hptr (by simp)
    · split at hptr
      · rename_i hfar
        simp only [Stream.env]
        exact ⟨hdict, hfar.2, fun _ => by omega⟩
      · exact absurd hptr (by simp)
  · intro hshort
    simp only [Stream.env, htype, chooseTable] at hshort
    split at hshort
    · simp only [Stream.env]
      exact ⟨hdict, by omega⟩
    · split at hshort
      · exact absurd hshort (by simp)
      · exact absurd hshort (by simp)
  · intro _ h
    exact Nat.le_refl 0
  · intro _ _ h hlt
    exact absurd hlt (Nat.lt_irrefl 0)
  · intro hsmall'
    simp [Stream.env, hsmall] at hsmall'
  · intro hctx
    simp [Stream.env, hdict] at hctx
  · intro hext
    simp [Env.maybeExtMem, Stream.env, hdict] at hext
  · intro _
    simp [Stream.env, hdict]

/-- What the block compressor needs, when there is no history. -/
theorem sound_empty {mode : Mode} (htype : mode.tableType = chooseTable ptr32 src srcSize)
    (hdict : mode.dictDirective = .noDict) (hsmall : mode.dictSmall = false)
    (hsize : 0 ≤ srcSize) (hmax : srcSize ≤ maxInputSize)
    (hapart : src + srcSize ≤ dst ∨ dst + cap ≤ src)
    (capacity : (({} : Stream).env ptr32 mode src dst srcSize.toNat dstCapacity
      acceleration).Capacity cap) :
    Sound (({} : Stream).env ptr32 mode src dst srcSize.toNat dstCapacity acceleration)
      (m.bytes src srcSize.toNat) 0 ({} : Stream).hashTable cap m := by
  have hreach :
      (({} : Stream).env ptr32 mode src dst srcSize.toNat dstCapacity acceleration).reach = 0 := by
    simp [Env.reach, Env.depth, Stream.env, hdict]
  refine ⟨⟨?_, ?_, fun v hlow hhigh => ?_⟩, ⟨?_, fun v hlow hhigh => ?_⟩, capacity,
    admissible_empty htype hdict hsmall hsize hmax⟩
  · rw [Mem.length_bytes, Nat.zero_add]
    rfl
  · exact Nat.le_of_eq hreach
  · rw [hreach] at hlow
    unfold Env.iend at hhigh
    simp only [Stream.env] at hlow hhigh
    rw [Env.address_of_ge (by simp only [Stream.env]; omega)]
    unfold Env.pos
    simp only [Stream.env]
    rw [Mem.getD_bytes _ _ (by omega)]
    congr 1
    omega
  · unfold Env.iend
    simp only [Stream.env]
    omega
  · omega

/-- Where `LZ4_compress_fast_extState` writes.  An output that is not limited needs no more
than the bound. -/
theorem compressFastExtState_contained (ptr32 : Bool) (m : Mem)
    (src dst dstCapacity acceleration cap : Int) (hsize : 0 ≤ srcSize) (hmax : srcSize ≤ maxInputSize)
    (hcap : if dstCapacity ≥ compressBound srcSize then compressBound srcSize ≤ cap
      else cap = dstCapacity) :
    ∃ c, compressFastExtState ptr32 ⟨m, []⟩ src dst srcSize dstCapacity acceleration = some c ∧
      Contained (fastMode ptr32 src srcSize dstCapacity) dst cap m c := by
  rw [compressFastExtState_eq]
  exact compressGeneric_contained m hsize hmax (fun _ => accelerates_clamp hmax)
    (fast_capacity hsize hmax hcap)

theorem compressFastExtState_encodes (ptr32 : Bool) (m : Mem) (acceleration : Int)
    (hsize : 0 ≤ srcSize) (hmax : srcSize ≤ maxInputSize)
    (hapart : src + srcSize ≤ dst ∨ dst + dstCapacity ≤ src) :
    ∃ c, compressFastExtState ptr32 ⟨m, []⟩ src dst srcSize dstCapacity acceleration = some c ∧
      (c.result = 0 ∨ ∃ b, Encodes (fastMode ptr32 src srcSize dstCapacity)
        (m.bytes src srcSize.toNat) 0 dst srcSize c b srcSize.toNat) := by
  have capacity (dst acceleration : Int) : (({} : Stream).env ptr32
      (fastMode ptr32 src srcSize dstCapacity) src dst srcSize.toNat
      (fastCapacity srcSize dstCapacity) acceleration).Capacity dstCapacity := by
    refine fast_capacity hsize hmax ?_
    split
    · assumption
    · rfl
  rw [compressFastExtState_eq]
  by_cases hzero : srcSize = 0
  · subst hzero
    obtain ⟨c, hc, -, -, hencodes⟩ := compressGeneric_zero m (clampAcceleration acceleration)
      (capacity dst (clampAcceleration acceleration))
    exact ⟨c, hc, hencodes.imp_right fun hencodes => ⟨_, hencodes _ _⟩⟩
  · obtain ⟨c, -, hc, -, -, -, hencodes⟩ := compressGeneric_encodes (by omega) hmax
      (fun _ => accelerates_clamp hmax) (sound_empty rfl rfl rfl hsize hmax hapart
        (capacity dst (clampAcceleration acceleration)))
    refine ⟨c, hc, hencodes.imp_right fun ⟨b, used, hencodes⟩ => ⟨b, ?_⟩⟩
    have hall := hencodes.all (by unfold fastMode; dsimp only; split <;> simp)
    obtain rfl : used = srcSize.toNat := by omega
    exact hencodes

/-- A block without history is decoded, in any buffer that has room for it. -/
theorem Encoder.Encodes.decompressSafe {mode : Mode} {text : List UInt8} {c : Compression}
    {b : Block} {used : Nat} (encodes : Encodes mode text 0 dst srcSize c b used)
    (hused : used ≤ text.length) (fastDecLoop : Bool) {m' : Mem} {source dest : Int}
    {capacity : Nat} (hholds : m'.Holds source (c.heap.mem.bytes dst c.result.toNat))
    (hsource : source ≠ 0) (hapart : source + c.result ≤ dest ∨ dest + capacity ≤ source)
    (hroom : used ≤ capacity) :
    ∃ h', decompressSafe fastDecLoop ⟨m', []⟩ source dest c.result.toNat capacity =
        some ((used : Int), h') ∧
      h'.mem.Holds dest (text.take used) := by
  have hresult := encodes.result
  have hlength : c.result.toNat = b.encode.length := by omega
  have hblock : c.heap.mem.bytes dst b.encode.length = b.encode := encodes.holds
  have hdecode : b.decode [] = text.take used := by simpa using encodes.decode
  have hsize : (b.decode []).length = used := by
    rw [hdecode, List.length_take, Nat.min_eq_left hused]
  rw [hlength, hblock] at hholds
  obtain ⟨h', hrun, hout⟩ := decompressSafe_decodes fastDecLoop
    (by simpa using encodes.conforming) hholds hsource
    (show source + b.encode.length ≤ dest ∨ dest + capacity ≤ source by omega)
    (by omega)
  rw [hsize] at hrun
  rw [hdecode] at hout
  rw [hlength]
  exact ⟨h', hrun, hout⟩

/-! ## The results -/

/-- `LZ4_compress_fast` writes inside the destination only, whatever its capacity, and a
capacity of `LZ4_compressBound` is always enough. -/
theorem compressFast_bounds (ptr32 : Bool) (m : Mem) (src dst srcSize dstCapacity acceleration : Int)
    (hsize : 0 ≤ srcSize) (hmax : srcSize ≤ maxInputSize) :
    ∃ result h, compressFast ptr32 ⟨m, []⟩ src dst srcSize dstCapacity acceleration =
        some (result, h) ∧
      (∀ access ∈ h.log, access.port = .output →
        dst ≤ access.lo ∧ access.lo + access.len ≤ dst + dstCapacity) ∧
      (∀ a, (a < dst ∨ dst + dstCapacity ≤ a) → h.mem a = m a) ∧
      0 ≤ result ∧ (0 < result → result ≤ dstCapacity) ∧
      (compressBound srcSize ≤ dstCapacity → 1 ≤ result ∧ result ≤ compressBound srcSize) := by
  by_cases hlarge : dstCapacity ≥ compressBound srcSize
  · obtain ⟨c, hc, contained⟩ := compressFastExtState_contained ptr32 m src dst dstCapacity
      acceleration (compressBound srcSize) hsize hmax (by rw [if_pos hlarge])
    have hresult := contained.result
    simp only [fastMode, if_pos hlarge] at hresult
    refine ⟨c.result, c.heap, by rw [compressFast, hc]; rfl, fun access haccess hport => ?_,
      fun a ha => frame_of_within contained.logged (by omega), by simp at hresult; omega⟩
    have := contained.logged.1 access haccess hport
    omega
  · obtain ⟨c, hc, contained⟩ := compressFastExtState_contained ptr32 m src dst dstCapacity
      acceleration dstCapacity hsize hmax (by rw [if_neg hlarge])
    have hresult := contained.result
    exact ⟨c.result, c.heap, by rw [compressFast, hc]; rfl, contained.logged.1,
      fun a ha => frame_of_within contained.logged ha, by omega⟩

/-- Twenty equal bytes into a buffer of thirty. -/
theorem compressFast_bounds_twenty :
    ∃ result h, compressFast false ⟨fun _ => 7, []⟩ 1000 2000 20 30 1 = some (result, h) ∧
      (∀ access ∈ h.log, access.port = .output →
        2000 ≤ access.lo ∧ access.lo + access.len ≤ 2000 + 30) ∧
      (∀ a, (a < 2000 ∨ 2000 + 30 ≤ a) → h.mem a = 7) ∧
      0 ≤ result ∧ (0 < result → result ≤ 30) ∧
      (compressBound 20 ≤ 30 → 1 ≤ result ∧ result ≤ compressBound 20) :=
  compressFast_bounds false (fun _ => 7) 1000 2000 20 30 1 (by decide) (by decide)

/-- What `LZ4_compress_fast` returns, `LZ4_decompress_safe` decodes to the input, in any
buffer that has room for it. -/
theorem compressFast_decompressSafe (ptr32 fastDecLoop : Bool) (m : Mem)
    (src dst srcSize dstCapacity acceleration : Int) (hsize : 0 ≤ srcSize)
    (hmax : srcSize ≤ maxInputSize)
    (hapart : src + srcSize ≤ dst ∨ dst + dstCapacity ≤ src) :
    ∃ c h, compressFast ptr32 ⟨m, []⟩ src dst srcSize dstCapacity acceleration = some (c, h) ∧
      (0 < c → ∀ (m' : Mem) (source dest : Int) (capacity : Nat),
        m'.Holds source (h.mem.bytes dst c.toNat) → source ≠ 0 →
        (source + c ≤ dest ∨ dest + capacity ≤ source) → srcSize ≤ capacity →
        ∃ h', decompressSafe fastDecLoop ⟨m', []⟩ source dest c.toNat capacity =
            some (srcSize, h') ∧
          h'.mem.Holds dest (m.bytes src srcSize.toNat)) := by
  obtain ⟨c, hc, hencodes⟩ := compressFastExtState_encodes ptr32 m acceleration hsize hmax hapart
  refine ⟨c.result, c.heap, by rw [compressFast, hc]; rfl, fun hpos m' source dest capacity
    hholds hsource hdest hroom => ?_⟩
  obtain ⟨b, encodes⟩ := hencodes.resolve_left (by omega)
  obtain ⟨h', hrun, hout⟩ := encodes.decompressSafe (Nat.le_of_eq (Mem.length_bytes _ _ _).symm)
    fastDecLoop hholds hsource hdest (by omega)
  rw [Int.toNat_of_nonneg hsize] at hrun
  rw [List.take_of_length_le (Nat.le_of_eq (Mem.length_bytes _ _ _))] at hout
  exact ⟨h', hrun, hout⟩

/-- Twenty equal bytes. -/
theorem compressFast_decompressSafe_twenty :
    ∃ c h, compressFast false ⟨fun _ => 7, []⟩ 1000 2000 20 30 1 = some (c, h) ∧
      (0 < c → ∀ (m' : Mem) (source dest : Int) (capacity : Nat),
        m'.Holds source (h.mem.bytes 2000 c.toNat) → source ≠ 0 →
        (source + c ≤ dest ∨ dest + capacity ≤ source) → 20 ≤ (capacity : Int) →
        ∃ h', decompressSafe true ⟨m', []⟩ source dest c.toNat capacity = some (20, h') ∧
          h'.mem.Holds dest (Mem.bytes (fun _ => 7) 1000 20)) :=
  compressFast_decompressSafe false true (fun _ => 7) 1000 2000 20 30 1 (by decide) (by decide)
    (by decide)

end

end Lz4
