import Lz4.Encoder.Stream

/-!
# One block of a stream

Between calls the table of a stream contains no index that is close to the end of the data
it describes (`Steady`); nothing more has to be known about it.  Whether an index belongs to
the part of the history that is still in memory is decided by its value alone: either the
dictionary is large enough for every index that is near enough, or the search is told that it
is small and compares with its start.

A block is compressed in one of four ways: directly behind its history, with a history
elsewhere, with the table of an attached dictionary, or with a copy of that table.
`compressFastContinue_ready` shows that each of them meets the conditions of the block
compressor.  Index arithmetic is exact as long as `currentOffset` plus the size of the block
stays below `2 ^ 32`.
-/

namespace Lz4.Encoder

open FlatMemory

/-- The context of a dictionary: an index in its table belongs to it, and four bytes follow. -/
structure Loaded (d : Context) : Prop where
  offset_eq : d.currentOffset = 65536
  empty : d.tableType = .clearedTable → ∀ h, d.hashTable h = 0
  size_le : d.dictSize ≤ 65536
  start_pos : 0 < d.dictSize → 0 < d.dictionary
  table : ∀ h, d.hashTable h = 0 ∨
    65536 ≤ d.hashTable h + d.dictSize ∧ d.hashTable h + 4 ≤ 65536

/-- What holds of a stream between calls.  Resets let `currentOffset` grow without a bound
while the table is empty, but not otherwise. -/
structure Steady (s : Stream) : Prop where
  table : ∀ h, s.hashTable h = 0 ∨ s.hashTable h + 4 ≤ s.currentOffset
  empty : s.tableType = .clearedTable → ∀ h, s.hashTable h = 0
  used : s.tableType ≠ .clearedTable → s.currentOffset ≤ 2 ^ 31
  size_le : s.dictSize ≤ s.currentOffset
  offset_lt : s.currentOffset < 2 ^ 32
  start_pos : 0 < s.dictSize → 0 < s.dictionary
  attached : ∀ d, s.dictCtx = some d → Loaded d ∧ 0 < d.dictSize ∧ 0 < s.currentOffset

/-! ## Preparing a stream -/

variable {table : Table} {size idx : Nat} {dictEnd p : Int} {e : Env}

section

variable {ptr32 slow : Bool} {m : Mem} {s : Stream} {d : Context}

theorem steady_init : Steady {} where
  table _ := Or.inl rfl
  empty _ _ := rfl
  used h := absurd rfl h
  size_le := Nat.le_refl 0
  offset_lt := (by decide : 0 < 2 ^ 32)
  start_pos h := absurd h (Nat.lt_irrefl 0)
  attached d hd := absurd hd (by simp)

theorem Loaded.steady (loaded : Loaded d) : Steady { d with dictCtx := none } where
  table h := by
    have := loaded.offset_eq
    rcases loaded.table h with hzero | ⟨-, hfour⟩
    · exact Or.inl hzero
    · exact Or.inr (by dsimp only; omega)
  empty := loaded.empty
  used _ := by
    have := loaded.offset_eq
    dsimp only
    omega
  size_le := by
    have := loaded.size_le
    have := loaded.offset_eq
    dsimp only
    omega
  offset_lt := by
    have := loaded.offset_eq
    dsimp only
    omega
  start_pos := loaded.start_pos
  attached d hd := absurd hd (by simp)

/-- Indices of a dictionary of `size` bytes that ends at the index 64 KB. -/
def DictionaryTable (size : Nat) (table : Table) : Prop :=
  ∀ h, table h = 0 ∨ 65536 ≤ table h + size ∧ table h + 4 ≤ 65536

theorem DictionaryTable.update (htable : DictionaryTable size table) (h : Nat)
    (hlow : 65536 ≤ idx + size) (hhigh : idx + 4 ≤ 65536) :
    DictionaryTable size (Function.update table h idx) := by
  intro h'
  by_cases heq : h' = h
  · subst heq
    rw [Function.update_self]
    exact Or.inr ⟨hlow, hhigh⟩
  · rw [Function.update_of_ne heq]
    exact htable h'

theorem four_le_hashUnit (ptr32 : Bool) : 4 ≤ hashUnit ptr32 := by
  cases ptr32 <;> decide

theorem loadLoop_table (fuel : Nat) (htable : DictionaryTable size table)
    (hlow : 65536 ≤ idx + size) (hidx : (idx : Int) + (dictEnd - p) = 65536) :
    DictionaryTable size (loadLoop ptr32 m (dictEnd - hashUnit ptr32) fuel p idx table) := by
  have hunit := four_le_hashUnit ptr32
  induction fuel generalizing p idx table with
  | zero => exact htable
  | succ fuel ih =>
    rw [loadLoop]
    split
    · exact ih (htable.update _ hlow (by omega)) (by omega) (by push_cast; omega)
    · exact htable

theorem loadSlowLoop_table (fuel : Nat) (htable : DictionaryTable size table)
    (hlow : 65536 ≤ idx + size) (hidx : (idx : Int) + (dictEnd - p) = 65536) :
    DictionaryTable size (loadSlowLoop ptr32 m (dictEnd - hashUnit ptr32) fuel p idx table) := by
  have hunit := four_le_hashUnit ptr32
  induction fuel generalizing p idx table with
  | zero => exact htable
  | succ fuel ih =>
    rw [loadSlowLoop]
    split
    · refine ih ?_ (by omega) (by push_cast; omega)
      split
      · exact htable.update _ hlow (by omega)
      · exact htable
    · exact htable

/-- What `LZ4_loadDict_internal` leaves: the last 64 KB, or nothing. -/
theorem loadDictInternal_loaded (ptr32 slow : Bool) (m : Mem) {dictionary dictSize : Int}
    (hdict : 0 < dictSize → 0 < dictionary) :
    Loaded (loadDictInternal ptr32 slow m dictionary dictSize) ∧
      (loadDictInternal ptr32 slow m dictionary dictSize).dictSize ≤ dictSize.toNat ∧
      (0 < (loadDictInternal ptr32 slow m dictionary dictSize).dictSize →
        (loadDictInternal ptr32 slow m dictionary dictSize).dictionary +
          (loadDictInternal ptr32 slow m dictionary dictSize).dictSize =
            dictionary + dictSize) := by
  have hunit := four_le_hashUnit ptr32
  unfold loadDictInternal
  split
  · exact ⟨⟨rfl, fun _ _ => rfl, Nat.zero_le _, fun h => absurd h (Nat.lt_irrefl 0), fun _ => Or.inl rfl⟩,
      Nat.zero_le _, fun h => absurd h (Nat.lt_irrefl 0)⟩
  · unfold loadedContext
    dsimp only
    set p := if dictionary + (dictSize.toNat : Int) - dictionary > 65536 then
      dictionary + (dictSize.toNat : Int) - 65536 else dictionary with hp
    set size := (dictionary + (dictSize.toNat : Int) - p).toNat with hsize
    have htable : DictionaryTable size (loadLoop ptr32 m (dictionary + (dictSize.toNat : Int) -
        hashUnit ptr32) dictSize.toNat p (65536 - size) fun _ => 0) :=
      loadLoop_table _ (fun _ => Or.inl rfl) (by omega) (by omega)
    refine ⟨⟨rfl, fun h => absurd h (by simp), by dsimp only; omega,
      fun _ => by dsimp only; omega, ?_⟩, by omega,
      fun _ => by omega⟩
    dsimp only
    split
    · exact loadSlowLoop_table _ htable (by omega) (by omega)
    · exact htable

/-- The table of `LZ4_resetStream_fast`: cleared, or the old one with a gap behind it. -/
theorem resetStreamFast_cases (s : Stream) :
    ((∀ h, (resetStreamFast s).hashTable h = 0) ∧ (resetStreamFast s).currentOffset = 0) ∨
    (resetStreamFast s).hashTable = s.hashTable ∧
      (resetStreamFast s).tableType = s.tableType ∧
      (s.tableType ≠ .clearedTable → s.currentOffset ≤ 2 ^ 30) ∧
      ((resetStreamFast s).currentOffset = s.currentOffset ∧ s.currentOffset = 0 ∨
        (resetStreamFast s).currentOffset = (s.currentOffset + 65536) % 2 ^ 32) := by
  unfold resetStreamFast prepareTable
  dsimp only
  split
  · left
    exact ⟨fun _ => rfl, rfl⟩
  · rename_i hkeep
    right
    have hsmall : s.tableType ≠ .clearedTable → s.currentOffset ≤ 2 ^ 30 := by
      intro hused
      by_contra hlarge
      exact hkeep ⟨hused, Or.inr (Or.inr (Or.inl ⟨rfl, by omega⟩))⟩
    split
    · exact ⟨rfl, rfl, hsmall, Or.inr rfl⟩
    · rename_i hzero
      exact ⟨rfl, rfl, hsmall, Or.inl ⟨rfl, by simpa using hzero⟩⟩

section

variable (steady : Steady s)

include steady

/-- `LZ4_resetStream_fast` forgets the history; entries of its table are still small. -/
theorem resetStreamFast_steady : Steady (resetStreamFast s) := by
  have hnone : (resetStreamFast s).dictCtx = none := rfl
  have hsize : (resetStreamFast s).dictSize = 0 := rfl
  rcases resetStreamFast_cases s with ⟨htable, hoffset⟩ | ⟨htable, htype, hsmall, hoffset⟩
  · exact ⟨fun h => Or.inl (htable h), fun _ => htable, fun _ => by omega, by omega, by omega,
      by omega, fun d hd => absurd hd (by simp [hnone])⟩
  · refine ⟨fun h => ?_, fun hempty h => ?_, fun hused => ?_, by omega, by omega, by omega,
      fun d hd => absurd hd (by simp [hnone])⟩
    · rw [htable]
      by_cases hempty : s.tableType = .clearedTable
      · exact Or.inl (steady.empty hempty h)
      · have := hsmall hempty
        have := steady.table h
        omega
    · rw [htable]
      exact steady.empty (by rw [← htype, hempty]) h
    · have := hsmall (by rw [← htype]; exact hused)
      omega

theorem attachDictionary_steady (loaded : Loaded d) : Steady (attachDictionary s (some d)) := by
  obtain ⟨htable, hempty, hused, hsize, hoffset, hstart, -⟩ := steady
  have hbase : s.currentOffset ≤
      (if s.currentOffset = 0 then 65536 else s.currentOffset) ∧
      0 < (if s.currentOffset = 0 then 65536 else s.currentOffset) ∧
      (if s.currentOffset = 0 then 65536 else s.currentOffset) < 2 ^ 32 := by
    split
    · omega
    · omega
  refine ⟨fun h => ?_, hempty, fun h => ?_, ?_, hbase.2.2, hstart, fun d' hd' => ?_⟩
  · have := htable h
    simp only [attachDictionary]
    omega
  · have := hused h
    simp only [attachDictionary]
    split
    · omega
    · exact this
  · simp only [attachDictionary]
    omega
  · simp only [attachDictionary] at hd'
    split at hd'
    · exact absurd hd' (by simp)
    · obtain rfl := Option.some.inj hd'
      exact ⟨loaded, by omega, hbase.2.1⟩

/-! ## Renormalisation and trimming -/

/-- Indices are moved down by `delta`, like `currentOffset`. -/
theorem Steady.shift {delta offset : Nat} (hdelta : delta + offset = s.currentOffset)
    (hoffset : 0 < offset) (hlarge : offset ≤ 2 ^ 31) (hsize : size ≤ s.dictSize)
    (hle : size ≤ offset) :
    Steady { s with
      hashTable := fun i => if s.hashTable i < delta then 0 else s.hashTable i - delta
      currentOffset := offset
      dictSize := size
      dictionary := s.dictionary + s.dictSize - size } where
  table h := by
    have := steady.table h
    dsimp only
    split
    · exact Or.inl rfl
    · omega
  empty htype h := by
    dsimp only
    rw [steady.empty htype h, Nat.zero_sub, ite_self]
  used _ := hlarge
  size_le := hle
  offset_lt := by
    dsimp only
    omega
  start_pos hpos := by
    dsimp only at hpos ⊢
    have := steady.start_pos (by omega)
    omega
  attached d hd := ⟨(steady.attached d hd).1, (steady.attached d hd).2.1, hoffset⟩

/-- The dictionary keeps its end when indices are brought down. -/
theorem renormDictT_steady {n : Int} (hn : 0 ≤ n) (hmax : n ≤ maxInputSize)
    (hoffset : s.currentOffset + n < 2 ^ 32) :
    Steady (renormDictT s n) ∧ (renormDictT s n).currentOffset + n ≤ 2 ^ 31 ∧
      (renormDictT s n).dictCtx = s.dictCtx ∧ (renormDictT s n).dictSize ≤ s.dictSize ∧
      ((renormDictT s n).dictSize = s.dictSize ∨ 65536 ≤ (renormDictT s n).dictSize) ∧
      (renormDictT s n).dictionary + (renormDictT s n).dictSize = s.dictionary + s.dictSize := by
  unfold maxInputSize at hmax
  unfold renormDictT
  split
  · have hdict : (if s.dictSize > 65536 then 65536 else s.dictSize) ≤ s.dictSize ∧
        (if s.dictSize > 65536 then 65536 else s.dictSize) ≤ 65536 ∧
        ((if s.dictSize > 65536 then 65536 else s.dictSize) = s.dictSize ∨
          65536 ≤ (if s.dictSize > 65536 then 65536 else s.dictSize)) := by
      split
      · omega
      · omega
    refine ⟨steady.shift (by omega) (by omega) (by omega) hdict.1 hdict.2.1, ?_, rfl, hdict.1,
      hdict.2.2, ?_⟩
    · dsimp only
      omega
    · dsimp only
      omega
  · exact ⟨steady, by omega, rfl, Nat.le_refl _, Or.inl rfl, rfl⟩

/-- What is left of a dictionary lies behind the input, or the input does not touch it. -/
theorem trimDictionary_steady (sourceEnd : Int) (hend : s.dictionary + s.dictSize = dictEnd)
    (hsize : 4 ≤ s.dictSize) :
    Steady (trimDictionary s sourceEnd dictEnd) ∧ (trimDictionary s sourceEnd dictEnd).dictCtx =
      s.dictCtx ∧ (trimDictionary s sourceEnd dictEnd).currentOffset = s.currentOffset ∧
      (trimDictionary s sourceEnd dictEnd).dictSize ≤ s.dictSize ∧
      ((trimDictionary s sourceEnd dictEnd).dictSize = 0 ∨ 4 ≤
      (trimDictionary s sourceEnd dictEnd).dictSize) ∧
      (trimDictionary s sourceEnd dictEnd).dictionary +
      (trimDictionary s sourceEnd dictEnd).dictSize = dictEnd ∧
      (sourceEnd ≤ (trimDictionary s sourceEnd dictEnd).dictionary ∨ dictEnd ≤ sourceEnd) := by
  obtain ⟨htable, hempty, hused, hle, hlt, hstart, hattached⟩ := steady
  unfold trimDictionary
  split
  · dsimp only
    set size := (if (if (dictEnd - sourceEnd).toNat > 65536 then 65536 else
        (dictEnd - sourceEnd).toNat) < 4 then 0 else
      if (dictEnd - sourceEnd).toNat > 65536 then 65536 else (dictEnd - sourceEnd).toNat) with heq
    have hbounds : (size : Int) ≤ dictEnd - sourceEnd ∧ (size = 0 ∨ 4 ≤ size) := by
      rw [heq]
      split_ifs <;> omega
    exact ⟨⟨htable, hempty, hused, by dsimp only; omega, hlt, fun _ => by dsimp only; omega,
      hattached⟩, rfl, rfl, by omega, hbounds.2, by omega, by omega⟩
  · exact ⟨⟨htable, hempty, hused, hle, hlt, hstart, hattached⟩, rfl, rfl, Nat.le_refl _,
      Or.inr hsize, hend, by omega⟩

end

/-! ## Entries of a renormalised table -/

/-- The position `ip` of a later search, whose indices go on from `offset`. -/
structure Env.Later (e : Env) (offset : Nat) (ip : Int) : Prop where
  tableType_eq : e.tableType = .byU32
  offset_le : offset ≤ e.startIndex
  source_le : e.source ≤ ip
  index_lt : e.startIndex + (ip - e.source) < 2 ^ 32

section

variable {s : Stream} {n ip : Int} {offset h : Nat}

/-- A search does not accept an entry 64 KB behind.  What it may find in its place comes from
the table of the attached dictionary. -/
theorem Env.Later.rejects (later : e.Later offset ip) (hfar : table h + 65536 ≤ offset) (m : Mem)
    {found : Found} (hfound : tryMatch e m table h ip = some found) :
    e.dictDirective = .usingDictCtx ∧ found.matchPtr = e.dictBase + e.dictTable h := by
  obtain ⟨htype, hoffset, hsource, hlt⟩ := later
  have hindex : (e.index ip : Int) = e.startIndex + (ip - e.source) := by
    unfold Env.index Env.base
    omega
  have hold : table h < e.startIndex := by omega
  have htoo : ¬ e.index ip ≤ (table h + 65535) % 2 ^ 32 := by omega
  -- only with an attached dictionary is the entry not the candidate
  cases hdirective : e.dictDirective <;> simp_all [tryMatch, candidate, inRange]
  rw [← hfound.2]

/-- An entry less than 64 KB behind keeps its distance.  Every other one becomes zero, which
no later search accepts.  The dictionary keeps its last 64 KB. -/
theorem renormDictT_entries (hlarge : (s.currentOffset + n) % 2 ^ 32 > 0x80000000)
    (hoffset : 65536 ≤ s.currentOffset) (hlt : s.currentOffset < 2 ^ 32) (m : Mem) :
    (∀ i d, s.hashTable i + d = s.currentOffset → d < 65536 →
      (renormDictT s n).hashTable i + d = (renormDictT s n).currentOffset) ∧
    (∀ i d, s.hashTable i + d = s.currentOffset → 65536 ≤ d →
      (renormDictT s n).hashTable i + 65536 ≤ (renormDictT s n).currentOffset ∧
      ∀ e ip table h found, Env.Later e (renormDictT s n).currentOffset ip →
        table h = (renormDictT s n).hashTable i → tryMatch e m table h ip = some found →
        e.dictDirective = .usingDictCtx ∧ found.matchPtr = e.dictBase + e.dictTable h) ∧
    (renormDictT s n).dictSize = min s.dictSize 65536 ∧
    m.bytes (renormDictT s n).dictionary (renormDictT s n).dictSize =
      (m.bytes s.dictionary s.dictSize).drop (s.dictSize - min s.dictSize 65536) := by
  have hdelta : (s.currentOffset + 2 ^ 32 - 65536) % 2 ^ 32 = s.currentOffset - 65536 := by omega
  have hdict : (if s.dictSize > 65536 then 65536 else s.dictSize) = min s.dictSize 65536 := by
    split <;> omega
  simp only [renormDictT, if_pos hlarge, hdelta, hdict, true_and]
  refine ⟨fun i d hd hnear => ?_, fun i d hd hfar => ?_, ?_⟩
  · rw [if_neg (by omega)]
    omega
  · have hzero : (if s.hashTable i < s.currentOffset - 65536 then 0
        else s.hashTable i - (s.currentOffset - 65536)) = 0 := by
      split <;> omega
    rw [hzero]
    refine ⟨Nat.le_refl _, fun e ip table h found later hentry => ?_⟩
    exact later.rejects (by omega) m
  · have hsplit := Mem.bytes_add m s.dictionary (s.dictSize - min s.dictSize 65536)
      (min s.dictSize 65536)
    rw [Nat.sub_add_cancel (Nat.min_le_left _ _)] at hsplit
    have hstart : s.dictionary + s.dictSize - (min s.dictSize 65536 : Nat) =
        s.dictionary + (s.dictSize - min s.dictSize 65536 : Nat) := by
      omega
    rw [hsplit, List.drop_left' (Mem.length_bytes _ _ _), hstart]

theorem renormDictT_entries_large :
    let s : Stream := { hashTable := fun _ => 2147483598, currentOffset := 2147483648 }
    (renormDictT s 1).hashTable 7 + 50 = (renormDictT s 1).currentOffset :=
  (renormDictT_entries (by decide) (by decide) (by decide) fun _ => 0).1 7 50 rfl (by decide)

/-- Close to the start of the indices, an input above the largest size triggers as well.  Then
`delta` wraps around and the whole table is cleared. -/
theorem renormDictT_clears_near :
    let s : Stream := { hashTable := fun _ => 50, currentOffset := 100 }
    (s.currentOffset + 0x7FFFFFFF : Int) % 2 ^ 32 > 0x80000000 ∧
      s.hashTable 7 + 50 = s.currentOffset ∧
      (renormDictT s 0x7FFFFFFF).hashTable 7 + 65536 = (renormDictT s 0x7FFFFFFF).currentOffset :=
  ⟨by decide, rfl, by decide⟩

end

/-! ## Four ways to compress a block -/

/-- The stream behind a block. -/
def Stream.finish (s : Stream) (ext : Bool) (source n : Int) : Stream :=
  if ext then s.follow source n else s

/-- A call of the block compressor for `n` bytes at `source` can be made, and leaves a stream
for the next one.  The history ends at `stop`, where `len` bytes of it are in memory. -/
structure Ready (ptr32 : Bool) (cctx : Stream) (mode : Mode) (ext : Bool)
    (source dest n cap acceleration stop : Int) (len : Nat) : Prop where
  limited : mode.outputDirective = .limitedOutput
  admissible : (cctx.env ptr32 mode source dest n.toNat cap acceleration).Admissible cctx.hashTable
  depth_le : (cctx.env ptr32 mode source dest n.toNat cap acceleration).depth ≤ len
  behind : ∀ i : Nat, 1 ≤ i →
    i ≤ (cctx.env ptr32 mode source dest n.toNat cap acceleration).depth →
    (cctx.env ptr32 mode source dest n.toNat cap acceleration).address (source - i) = stop - i ∧
      (stop - i < source ∨ source + n ≤ stop - i)
  next : ∀ table, Entries (cctx.env ptr32 mode source dest n.toNat cap acceleration)
      cctx.hashTable table (source + n) →
    Steady ((cctx.update mode n.toNat table).finish ext source n) ∧
      ((cctx.update mode n.toNat table).finish ext source n).dictCtx = none ∧
      ((cctx.update mode n.toNat table).finish ext source n).dictionary +
        ((cctx.update mode n.toNat table).finish ext source n).dictSize = source + n ∧
      (((cctx.update mode n.toNat table).finish ext source n).dictSize ≤ n ∨
        source = stop ∧ ((cctx.update mode n.toNat table).finish ext source n).dictSize ≤ len + n)

variable {mode : Mode} {source dest n cap acceleration stop : Int} {len : Nat}

/-- New entries belong to the block, and are not close to its end. -/
theorem table_of_entries {table₀ : Table} {ip : Int} (htype : e.tableType = .byU32)
    (hindices : e.startIndex + e.inputSize < 2 ^ 32)
    (hold : ∀ h, table₀ h = 0 ∨ table₀ h + 4 ≤ e.startIndex) (entries : Entries e table₀ table ip)
    (h : Nat) : table h = 0 ∨ table h + 4 ≤ e.startIndex + e.inputSize := by
  rcases entries h with heq | ⟨p, hlow, -, hlimit, heq⟩
  · have := hold h
    omega
  · have hmflimit : e.mflimitPlusOne = e.source + e.inputSize - 12 + 1 := rfl
    have hiend : e.iend = e.source + e.inputSize := rfl
    have hindex := Env.index_eq hindices hlow (show p ≤ e.iend by omega)
    have hentry : e.entry p = e.index p := by
      simp [Env.entry, htype]
    right
    omega

/-- The stream behind a block, if its history goes on or starts anew with `size` bytes. -/
theorem steady_update (s : Stream) (dictionary : Int) (size : Nat) (hn : 0 ≤ n)
    (hnext : s.currentOffset + n ≤ 2 ^ 31)
    (htable : ∀ h, table h = 0 ∨ table h + 4 ≤ s.currentOffset + n.toNat) (hpos : 0 < dictionary)
    (hsize : size ≤ s.currentOffset + n.toNat) :
    Steady { s with
      hashTable := table
      currentOffset := (s.currentOffset + n.toNat) % 2 ^ 32
      tableType := .byU32
      dictionary
      dictSize := size
      dictCtx := none } where
  table h := by
    have := htable h
    dsimp only
    omega
  empty htype := absurd htype (by simp)
  used _ := by
    dsimp only
    omega
  size_le := by
    dsimp only
    omega
  offset_lt := by
    dsimp only
    omega
  start_pos _ := hpos
  attached d hd := absurd hd (by simp)

/-- The block follows its history. -/
theorem ready_prefix (ptr32 : Bool) (dest cap acceleration : Int) (steady : Steady s)
    (hctx : s.dictCtx = none) (hn : 0 < n) (hnext : s.currentOffset + n ≤ 2 ^ 31)
    (hsource : 0 < source) (hend : s.dictionary + s.dictSize = source)
    (hstop : s.dictSize = 0 ∨ source = stop ∧ s.dictSize ≤ len) :
    Ready ptr32 s
      ⟨.limitedOutput, .byU32, .withPrefix64k, s.dictSize < 65536 ∧ s.dictSize < s.currentOffset⟩
      false source dest n cap acceleration stop len := by
  have hstart : 0 < s.dictionary := by
    by_cases hzero : s.dictSize = 0
    · omega
    · exact steady.start_pos (by omega)
  refine ⟨rfl, ?_, ?_, fun i hlow hhigh => ?_, fun table entries => ?_⟩
  · constructor
    · simp only [Stream.env]
      omega
    · simp [Stream.env, hctx]
    · intro h
      simp [Stream.env] at h
    · intro h
      simp [Stream.env] at h
    · intro _ h
      have := steady.table h
      simp only [Stream.env]
      omega
    · intro _ _ h hlt hnear hsmall
      simp only [Stream.env, Env.depth, Env.maybeExtMem, decide_eq_true_eq] at *
      refine ⟨?_, by simp⟩
      simp only [reduceCtorEq, if_false] at *
      omega
    · intro hsmall
      simp only [Stream.env, decide_eq_true_eq] at hsmall ⊢
      exact ⟨by simp, by simpa using Nat.le_of_lt hsmall.2⟩
    · intro h
      simp [Stream.env] at h
    · intro h
      simp [Env.maybeExtMem, Stream.env] at h
    · intro h
      simp [Stream.env] at h ⊢
      omega
  · simp only [Env.depth, Stream.env, reduceCtorEq, if_false]
    omega
  · simp only [Env.depth, Stream.env, reduceCtorEq, if_false] at hhigh
    rw [Env.address_of_direct (by simp [Env.maybeExtMem, Stream.env])]
    omega
  · have htable := table_of_entries rfl (by simp only [Stream.env]; omega) steady.table entries
    have hsize : (s.dictSize + n.toNat) % 2 ^ 32 = s.dictSize + n.toNat := by
      have := steady.size_le
      omega
    have hnew := steady_update s s.dictionary (s.dictSize + n.toNat)
      (Int.le_of_lt hn) hnext htable hstart (by have := steady.size_le; omega)
    simp only [Stream.finish, Stream.update, Bool.false_eq_true, if_false, reduceCtorEq, hsize, hctx]
    exact ⟨hnew, trivial, by push_cast; omega, by push_cast; omega⟩

/-- In external dictionary mode, only the block itself is kept for the next one. -/
theorem next_follow {cctx : Stream} (hn : 0 < n) (hnext : cctx.currentOffset + n ≤ 2 ^ 31)
    (hsource : 0 < source) (htype : e.tableType = .byU32)
    (hindex : e.startIndex = cctx.currentOffset) (hsize : e.inputSize = n.toNat)
    (hmode : mode.tableType = .byU32)
    (hctx : mode.dictDirective = .usingDictCtx ∨ cctx.dictCtx = none)
    (hold : ∀ h, cctx.hashTable h = 0 ∨ cctx.hashTable h + 4 ≤ cctx.currentOffset)
    (entries : Entries e cctx.hashTable table (source + n)) :
    Steady ((cctx.update mode n.toNat table).finish true source n) ∧
      ((cctx.update mode n.toNat table).finish true source n).dictCtx = none ∧
      ((cctx.update mode n.toNat table).finish true source n).dictionary +
      ((cctx.update mode n.toNat table).finish true source n).dictSize = source + n ∧
      (((cctx.update mode n.toNat table).finish true source n).dictSize ≤ n ∨ source = stop ∧
      ((cctx.update mode n.toNat table).finish true source n).dictSize ≤ len + n) := by
  have htable := table_of_entries htype (by omega) (by rw [hindex]; exact hold) entries
  rw [hindex, hsize] at htable
  have hmod : (n % 2 ^ 32).toNat = n.toNat := by omega
  have hnew := steady_update cctx source n.toNat (Int.le_of_lt hn) hnext htable hsource (by omega)
  have hnone : (if mode.dictDirective = .usingDictCtx then none else cctx.dictCtx) = none := by
    split
    · rfl
    · exact hctx.resolve_left (by assumption)
  simp only [Stream.finish, Stream.follow, Stream.update, if_true, hmod, hmode, hnone]
  exact ⟨hnew, trivial, by omega, by omega⟩

/-- The history is in another place, which the block does not touch.  Unless the search is told
that it is `small`, every index that is near enough belongs to it. -/
theorem ready_external (ptr32 : Bool) (dest cap acceleration : Int) (small : Bool)
    (steady : Steady s) (hctx : s.dictCtx = none) (hn : 0 < n)
    (hnext : s.currentOffset + n ≤ 2 ^ 31) (hsource : 0 < source)
    (hend : s.dictionary + s.dictSize = stop) (hlen : s.dictSize ≤ len)
    (hnear : small = false → ∀ h, s.hashTable h < s.currentOffset →
      s.currentOffset ≤ s.hashTable h + 65535 → s.currentOffset ≤ s.hashTable h + s.dictSize)
    (hfour : s.dictSize = 0 ∨ 4 ≤ s.currentOffset) (hne : s.dictionary ≠ source)
    (hapart : source + n ≤ s.dictionary ∨ stop ≤ source) :
    Ready ptr32 s ⟨.limitedOutput, .byU32, .usingExtDict, small⟩ true source dest n cap
      acceleration stop len := by
  have hext : (s.env ptr32 ⟨.limitedOutput, .byU32, .usingExtDict, small⟩ source dest n.toNat cap
      acceleration).maybeExtMem = true := by
    simp [Env.maybeExtMem, Stream.env]
  refine ⟨rfl, ?_, ?_, fun i hlow hhigh => ?_, fun table entries => ?_⟩
  · constructor
    · simp only [Stream.env]
      omega
    · simp [Stream.env, hctx]
    · intro h
      simp [Stream.env] at h
    · intro h
      simp [Stream.env] at h
    · intro _ h
      have := steady.table h
      simp only [Stream.env]
      omega
    · intro _ _ h hlt hle hsmall
      have hentry := steady.table h
      simp only [Stream.env, Env.depth, reduceCtorEq, if_false] at *
      have hreach : s.currentOffset ≤ s.hashTable h + s.dictSize := by
        cases small with
        | true => exact hsmall rfl
        | false => exact hnear rfl h hlt hle
      exact ⟨hreach, fun _ => by omega⟩
    · intro _
      simpa [Stream.env] using steady.size_le
    · intro h
      simp [Stream.env] at h
    · intro _
      simpa [Stream.env] using hne
    · intro h
      have := steady.start_pos
      simp [Stream.env] at h ⊢
      omega
  · exact hlen
  · simp only [Env.depth, Stream.env, reduceCtorEq, if_false] at hhigh
    have hstart := steady.start_pos (by omega)
    rw [Env.address_of_lt hext (by simp only [Stream.env]; omega)]
    simp only [Env.dictEnd, Stream.env, reduceCtorEq, if_false]
    omega
  · exact next_follow hn hnext hsource rfl rfl rfl rfl (Or.inr hctx) steady.table entries

/-- The table of the dictionary is used next to that of the stream. -/
theorem ready_attached (ptr32 : Bool) (dest cap acceleration : Int) (steady : Steady s)
    (hctx : s.dictCtx = some d) (hn : 0 < n) (hnext : s.currentOffset + n ≤ 2 ^ 31)
    (hsource : 0 < source) (hend : d.dictionary + d.dictSize = stop) (hlen : d.dictSize ≤ len)
    (hapart : source + n ≤ d.dictionary ∨ stop ≤ source) :
    Ready ptr32 s ⟨.limitedOutput, .byU32, .usingDictCtx, false⟩
      true source dest n cap acceleration stop len := by
  obtain ⟨loaded, hpos, hused⟩ := steady.attached d hctx
  have hoffset := loaded.offset_eq
  have hstart := loaded.start_pos hpos
  have hext : (s.env ptr32 ⟨.limitedOutput, .byU32, .usingDictCtx, false⟩ source dest n.toNat cap
      acceleration).maybeExtMem = true := by
    simp [Env.maybeExtMem, Stream.env]
  refine ⟨rfl, ?_, ?_, fun i hlow hhigh => ?_, fun table entries => ?_⟩
  · constructor
    · simp only [Stream.env]
      omega
    · simp [Stream.env, hctx, hoffset]
    · intro h
      simp [Stream.env] at h
    · intro h
      simp [Stream.env] at h
    · intro _ h
      have := steady.table h
      simp only [Stream.env]
      omega
    · intro _ h
      simp [Stream.env] at h
    · intro h
      simp [Stream.env] at h
    · intro _ h
      have := loaded.table h
      simp only [Stream.env, hctx, Option.getD_some, if_true]
      omega
    · intro _
      simp only [Stream.env, hctx, Option.getD_some, if_true]
      omega
    · intro h
      simp only [Stream.env, hctx, Option.getD_some, if_true] at h ⊢
      omega
  · simp only [Env.depth, Stream.env, hctx, Option.getD_some, reduceCtorEq, if_false, if_true]
    exact hlen
  · simp only [Env.depth, Stream.env, hctx, Option.getD_some, reduceCtorEq, if_false, if_true]
      at hhigh
    rw [Env.address_of_lt hext (by simp only [Stream.env]; omega)]
    simp only [Env.dictEnd, Stream.env, hctx, Option.getD_some, if_true]
    omega
  · exact next_follow hn hnext hsource rfl rfl rfl rfl (Or.inl rfl) steady.table entries

/-- Where the history of a stream is: it ends at `stop`, where `len` bytes are in memory. -/
structure Refers (s : Stream) (stop : Int) (len : Nat) : Prop where
  own : s.dictCtx = none → s.dictSize ≤ len ∧
    (0 < s.dictSize → s.dictionary + s.dictSize = stop)
  attached : ∀ d, s.dictCtx = some d → d.dictSize ≤ len ∧ d.dictionary + d.dictSize = stop

/-- A block may overwrite the oldest bytes of the history of a stream, but not its end, and
nothing of an attached dictionary. -/
structure Placed (s : Stream) (stop : Int) (len : Nat) (source n : Int) : Prop where
  own : s.dictCtx = none → len = 0 ∨ source + n < stop ∨ stop ≤ source
  attached : s.dictCtx ≠ none → source + n ≤ stop - len ∨ stop ≤ source

/-- A block does not follow the own history of a stream while a dictionary is attached. -/
def Detached (s : Stream) (source : Int) : Prop :=
  s.dictCtx ≠ none → ¬ (0 < s.dictSize ∧ s.dictionary + s.dictSize = source)

/-- A stream with its own history: what `LZ4_compress_fast_continue` does with a block. -/
theorem compressFastContinue_own (ptr32 : Bool) (h : Heap) (dest cap acceleration : Int)
    (steady : Steady s) (refers : Refers s stop len) (placed : Placed s stop len source n)
    (hctx : s.dictCtx = none) (hn : 0 < n) (hmax : n ≤ maxInputSize)
    (hoffset : s.currentOffset + n < 2 ^ 32) (hsource : 0 < source) :
    ∃ cctx mode ext, Ready ptr32 cctx mode ext source dest n cap (clampAcceleration acceleration)
        stop len ∧
      compressFastContinue ptr32 s h source dest n cap acceleration =
        (compressGeneric ptr32 cctx h source dest n cap mode (clampAcceleration acceleration)).map
          fun c => { c with stream := c.stream.finish ext source n } := by
  obtain ⟨steady', hnext, hctx', hle, hsize, hend⟩ :=
    renormDictT_steady steady (Int.le_of_lt hn) hmax hoffset
  obtain ⟨hlen, hstop⟩ := refers.own hctx
  rw [hctx] at hctx'
  unfold compressFastContinue
  have hdictEnd : (if s.dictSize ≠ 0 then s.dictionary + (s.dictSize : Int) else 0) =
      if s.dictSize ≠ 0 then stop else 0 := by
    split
    · exact hstop (by omega)
    · rfl
  rw [hdictEnd]
  generalize heq : (if s.dictSize ≠ 0 then stop else 0) = dictEnd
  set s' := renormDictT s n
  by_cases htiny : s'.dictSize < 4 ∧ dictEnd ≠ source ∧ n > 0 ∧ s'.dictCtx.isNone = true
  · -- a tiny dictionary is dropped
    simp only [if_pos htiny]
    have htrim : trimDictionary { s' with dictSize := 0, dictionary := source } (source + n)
        source = { s' with dictSize := 0, dictionary := source } := by
      unfold trimDictionary
      rw [if_neg (by omega)]
    rw [htrim]
    have hsteady : Steady { s' with dictSize := 0, dictionary := source } :=
      ⟨steady'.table, steady'.empty, steady'.used, Nat.zero_le _, steady'.offset_lt,
        fun _ => hsource, steady'.attached⟩
    exact ⟨_, _, false, ready_prefix ptr32 dest cap (clampAcceleration acceleration) hsteady hctx'
      hn hnext hsource (Int.add_zero _) (Or.inl rfl), by simp [Stream.finish]⟩
  · simp only [if_neg htiny]
    have hlarge : dictEnd ≠ source → 4 ≤ s'.dictSize := fun hne => by
      by_contra hsmall
      exact htiny ⟨by omega, hne, hn, by simp [hctx']⟩
    by_cases hfollows : dictEnd = source
    · -- the block follows the history
      have hpos : s.dictSize ≠ 0 := fun hzero => by
        omega
      have htrim : trimDictionary s' (source + n) dictEnd = s' := by
        unfold trimDictionary
        rw [if_neg (by omega)]
      rw [htrim, if_pos hfollows]
      exact ⟨_, _, false, ready_prefix ptr32 dest cap (clampAcceleration acceleration) steady'
        hctx' hn hnext hsource (by omega) (Or.inr ⟨by omega, by omega⟩), by simp [Stream.finish]⟩
    · -- the history is somewhere else
      have hfour := hlarge hfollows
      obtain ⟨steady'', hctx'', hsame, htrimmed, hzero, hend', hapart⟩ :=
        trimDictionary_steady steady' (source + n) (show _ = dictEnd by omega) hfour
      rw [hctx'] at hctx''
      rw [if_neg hfollows]
      simp only [hctx'']
      have hplaced := placed.own hctx
      have hle' := steady''.size_le
      generalize trimDictionary s' (source + n) dictEnd = t at *
      refine ⟨_, _, true, ready_external ptr32 dest cap (clampAcceleration acceleration)
        (decide (t.dictSize < 65536 ∧ t.dictSize < t.currentOffset)) steady'' hctx'' hn (by omega)
        hsource (by omega) (by omega) (fun hsmall h => ?_) (by omega) (by omega) (by omega), ?_⟩
      · rw [decide_eq_false_iff_not] at hsmall
        omega
      rw [Option.map_eq_bind]
      rfl

/-- A stream with an attached dictionary, to which the first block refers. -/
theorem compressFastContinue_attached (ptr32 : Bool) (h : Heap) (dest cap acceleration : Int)
    (steady : Steady s) (refers : Refers s stop len) (placed : Placed s stop len source n)
    (hctx : s.dictCtx = some d) (detached : Detached s source) (hn : 0 < n)
    (hmax : n ≤ maxInputSize) (hoffset : s.currentOffset + n < 2 ^ 32) (hsource : 0 < source) :
    ∃ cctx mode ext, Ready ptr32 cctx mode ext source dest n cap (clampAcceleration acceleration)
        stop len ∧
      compressFastContinue ptr32 s h source dest n cap acceleration =
        (compressGeneric ptr32 cctx h source dest n cap mode (clampAcceleration acceleration)).map
          fun c => { c with stream := c.stream.finish ext source n } := by
  obtain ⟨steady', hnext, hctx', hle, hsize, hend⟩ :=
    renormDictT_steady steady (Int.le_of_lt hn) hmax hoffset
  obtain ⟨loaded, hpos, -⟩ := steady.attached d hctx
  obtain ⟨hlen, hstop⟩ := refers.attached d hctx
  have hplaced := placed.attached (by simp [hctx])
  have hown := detached (by simp [hctx])
  rw [hctx] at hctx'
  unfold compressFastContinue
  set s' := renormDictT s n
  set dictEnd := if s.dictSize ≠ 0 then s.dictionary + (s.dictSize : Int) else 0 with heq
  have hne : dictEnd ≠ source := by
    rw [heq]
    split
    · intro hsame
      exact hown ⟨by omega, hsame⟩
    · omega
  have htiny : ¬ (s'.dictSize < 4 ∧ dictEnd ≠ source ∧ n > 0 ∧ s'.dictCtx.isNone = true) := by
    simp [hctx']
  simp only [if_neg htiny, if_neg hne]
  -- what is left of the own history does not matter
  have hsteady : Steady (trimDictionary s' (source + n) dictEnd) ∧
      (trimDictionary s' (source + n) dictEnd).dictCtx = some d ∧
      (trimDictionary s' (source + n) dictEnd).currentOffset = s'.currentOffset := by
    by_cases htouched : source + n > s'.dictionary ∧ source + n < dictEnd
    · have hnonzero : s.dictSize ≠ 0 := fun hzero => by
        omega
      unfold trimDictionary
      rw [if_pos htouched]
      refine ⟨⟨steady'.table, steady'.empty, steady'.used, ?_, steady'.offset_lt, fun _ => ?_,
        steady'.attached⟩, hctx', rfl⟩
      · have := steady'.size_le
        dsimp only
        split_ifs <;> omega
      · dsimp only
        split_ifs <;> omega
    · unfold trimDictionary
      rw [if_neg htouched]
      exact ⟨steady', hctx', rfl⟩
  obtain ⟨steady'', hctx'', hsame⟩ := hsteady
  simp only [hctx'']
  by_cases hbig : n > 4096
  · simp only [if_pos hbig]
    -- the context of the dictionary was copied into the stream
    have hbegin := loaded.offset_eq
    unfold maxInputSize at hmax
    refine ⟨_, _, true, ready_external ptr32 dest cap (clampAcceleration acceleration) false
      loaded.steady rfl hn (by dsimp only; omega) hsource hstop hlen (fun _ h => ?_)
      (by dsimp only; omega) (by dsimp only; omega) (by dsimp only; omega), ?_⟩
    · have := loaded.table h
      dsimp only
      omega
    rw [Option.map_eq_bind]
    rfl
  · simp only [if_neg hbig]
    refine ⟨_, _, true, ready_attached ptr32 dest cap (clampAcceleration acceleration) steady''
      hctx'' hn (by omega) hsource hstop hlen (by omega), ?_⟩
    rw [Option.map_eq_bind]
    rfl

end

end Lz4.Encoder
