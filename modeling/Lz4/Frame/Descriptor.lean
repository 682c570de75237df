import Lz4.Frame.Header

/-!
# The frame descriptor

`Descriptor` is the header as the frame format defines it: four flags, a block size
identifier, and two optional fields that may hold any value.  It is more than what the
library writes, which leaves a content size of `0` out (`FrameInfo.header_eq`).

The reader is characterised on descriptors: on a whole header (`decodeHeader_header`) its
verdict depends on the block size identifier alone, and on the first seven bytes of a longer
one it asks for the rest (`decodeHeader_take`).
-/

namespace Lz4.Lz4f

open FlatMemory

/-- The fields of a frame header. -/
structure Descriptor where
  independent : Bool := false
  blockChecksum : Bool := false
  contentChecksum : Bool := false
  contentSize : Option UInt64 := none
  dictID : Option UInt32 := none
  /-- identifiers below 4 are reserved -/
  blockSizeID : Fin 8 := 4
  deriving Repr, DecidableEq

namespace Descriptor

/-- No flags are set, and no fields are present. -/
def plain : Descriptor := {}

variable (desc : Descriptor)

def flg : UInt8 :=
  UInt8.ofNat (64 + 32 * desc.independent.toNat + 16 * desc.blockChecksum.toNat +
    8 * desc.contentSize.isSome.toNat + 4 * desc.contentChecksum.toNat + desc.dictID.isSome.toNat)

def bd : UInt8 := UInt8.ofNat (16 * desc.blockSizeID)

/-- The content size and the dictionary identifier, as far as they are present. -/
def optional : List UInt8 :=
  (desc.contentSize.elim [] fun n => leBytes 8 n.toNat) ++
    (desc.dictID.elim [] fun n => leBytes 4 n.toNat)

/-- The fields between the magic number and the checksum byte. -/
def fields : List UInt8 := desc.flg :: desc.bd :: desc.optional

/-- The header. -/
def header : List UInt8 :=
  leBytes 4 magicNumber ++ (desc.fields ++ [headerChecksum desc.fields])

/-- The size of the header. -/
def size : Nat :=
  minFHSize + (if desc.contentSize.isSome then 8 else 0) + (if desc.dictID.isSome then 4 else 0)

/-- The parameters that a reader stores. -/
def info : FrameInfo :=
  { blockMode := desc.independent.toNat
    blockChecksumFlag := desc.blockChecksum.toNat
    contentChecksumFlag := desc.contentChecksum.toNat
    blockSizeID := desc.blockSizeID
    contentSize := desc.contentSize.getD 0
    dictID := desc.dictID.getD 0 }

theorem info_blockMode : desc.info.blockMode = 0 ↔ desc.independent = false := by
  unfold info
  cases desc.independent <;> simp

theorem info_blockChecksum : desc.info.blockChecksumFlag ≠ 0 ↔ desc.blockChecksum = true := by
  unfold info
  cases desc.blockChecksum <;> simp

theorem info_contentChecksum : desc.info.contentChecksumFlag ≠ 0 ↔ desc.contentChecksum = true := by
  unfold info
  cases desc.contentChecksum <;> simp

theorem size_le : desc.size ≤ maxFHSize := by
  unfold size minFHSize maxFHSize
  split <;> split <;> omega

theorem le_size : 7 ≤ desc.size := by
  unfold size minFHSize
  omega

theorem length_optional : desc.optional.length = desc.size - 7 := by
  unfold optional size minFHSize
  cases desc.contentSize <;> cases desc.dictID <;> simp

theorem length_fields : desc.fields.length = desc.size - 5 := by
  have hmin := desc.le_size
  rw [fields, List.length_cons, List.length_cons, length_optional]
  omega

theorem length_header : desc.header.length = desc.size := by
  have hmin := desc.le_size
  rw [header, List.length_append, List.length_append, length_leBytes, length_fields,
    List.length_singleton]
  omega

/-- The fields of the FLG byte. -/
theorem flg_fields :
    (desc.flg.toNat >>> 6) &&& 3 = 1 ∧ (desc.flg.toNat >>> 1) &&& 1 = 0 ∧
      (desc.flg.toNat >>> 5) &&& 1 = desc.independent.toNat ∧
      (desc.flg.toNat >>> 4) &&& 1 = desc.blockChecksum.toNat ∧
      (desc.flg.toNat >>> 3) &&& 1 = desc.contentSize.isSome.toNat ∧
      (desc.flg.toNat >>> 2) &&& 1 = desc.contentChecksum.toNat ∧
      desc.flg.toNat &&& 1 = desc.dictID.isSome.toNat := by
  unfold flg
  generalize desc.independent = independent
  generalize desc.blockChecksum = blockChecksum
  generalize desc.contentSize.isSome = sized
  generalize desc.contentChecksum = contentChecksum
  generalize desc.dictID.isSome = named
  revert independent blockChecksum sized contentChecksum named
  decide

/-- The fields of the BD byte. -/
theorem bd_fields :
    (desc.bd.toNat >>> 4) &&& 7 = desc.blockSizeID ∧ (desc.bd.toNat >>> 7) &&& 1 = 0 ∧
      (desc.bd.toNat >>> 0) &&& 15 = 0 := by
  unfold bd
  generalize desc.blockSizeID = id
  revert id
  decide

/-! ## The bytes of a header -/

variable (rest : List UInt8)

theorem drop_magic :
    (desc.header ++ rest).drop 4 = desc.fields ++ (headerChecksum desc.fields :: rest) := by
  rw [header, List.append_assoc, List.append_assoc, List.drop_left' (length_leBytes _ _)]
  rfl

theorem leValue_magic : leValue ((desc.header ++ rest).take 4) = magicNumber := by
  rw [header, List.append_assoc, List.take_left' (length_leBytes _ _)]
  decide

theorem getD_four_add (i : Nat) :
    (desc.header ++ rest).getD (4 + i) 0 =
      (desc.fields ++ (headerChecksum desc.fields :: rest)).getD i 0 := by
  rw [← drop_magic, List.getD_eq_getElem?_getD, List.getD_eq_getElem?_getD, List.getElem?_drop]

theorem getD_flg : (desc.header ++ rest).getD 4 0 = desc.flg := by
  rfl

theorem getD_bd : (desc.header ++ rest).getD 5 0 = desc.bd := by
  rfl

theorem take_fields : ((desc.header ++ rest).drop 4).take (desc.size - 5) = desc.fields := by
  rw [drop_magic, List.take_left' desc.length_fields]

theorem getD_checksum :
    (desc.header ++ rest).getD (desc.size - 1) 0 = headerChecksum desc.fields := by
  have hmin := desc.le_size
  rw [show desc.size - 1 = 4 + (desc.size - 5) by omega, getD_four_add, ← length_fields,
    List.getD_append_right _ _ _ _ (Nat.le_refl _), Nat.sub_self, List.getD_cons_zero]

/-- What follows the two bytes of flags. -/
theorem drop_flags :
    (desc.header ++ rest).drop 6 = desc.optional ++ (headerChecksum desc.fields :: rest) := by
  rw [show 6 = 4 + 2 by rfl, ← List.drop_drop, drop_magic]
  rfl

theorem contentSize_read {n : UInt64} (h : desc.contentSize = some n) :
    UInt64.ofNat (leValue (((desc.header ++ rest).drop 6).take 8)) = n := by
  have hfield : ((desc.header ++ rest).drop 6).take 8 = leBytes 8 n.toNat := by
    rw [drop_flags, optional, h, List.append_assoc]
    exact List.take_left' (length_leBytes _ _)
  rw [hfield, leValue_leBytes n.toNat_lt, UInt64.ofNat_toNat]

theorem dictID_read {n : UInt32} (h : desc.dictID = some n) :
    readLE32 ((desc.header ++ rest).drop (desc.size - 5)) = n := by
  obtain ⟨front, hfront⟩ : ∃ front, front = desc.contentSize.elim [] fun n => leBytes 8 n.toNat :=
    ⟨_, rfl⟩
  have hoptional : desc.optional = front ++ leBytes 4 n.toNat := by
    rw [optional, h, hfront]
    rfl
  have hlength : desc.size - 5 = 6 + front.length := by
    have hsum := desc.length_optional
    rw [hoptional, List.length_append, length_leBytes] at hsum
    omega
  have hfield : ((desc.header ++ rest).drop (desc.size - 5)).take 4 = leBytes 4 n.toNat := by
    rw [hlength, ← List.drop_drop, drop_flags, hoptional, List.append_assoc, List.drop_left]
    exact List.take_left' (length_leBytes _ _)
  rw [readLE32, hfield, leValue_leBytes n.toNat_lt, UInt32.ofNat_toNat]

/-- The size as the reader computes it from the two flags. -/
theorem size_flags :
    minFHSize + (if desc.contentSize.isSome.toNat ≠ 0 then 8 else 0) +
      (if desc.dictID.isSome.toNat ≠ 0 then 4 else 0) = desc.size := by
  unfold size
  cases desc.contentSize <;> cases desc.dictID <;> rfl

end Descriptor

/-! ## Reading -/

/-- The context after a header. -/
def Dctx.begun (d : Dctx) (desc : Descriptor) : Dctx :=
  { d with
    frameInfo := desc.info
    maxBlockSize := getBlockSize desc.blockSizeID
    frameRemainingSize := desc.contentSize.getD d.frameRemainingSize
    dStage := .init }

/-- The verdict on a header depends on the block size identifier alone. -/
theorem decodeHeader_header (d : Dctx) (desc : Descriptor) (rest : List UInt8) (inHeader : Bool) :
    decodeHeader d (desc.header ++ rest) inHeader =
      if 4 ≤ desc.blockSizeID.val then (d.begun desc, .ok desc.size)
      else ({ d with frameInfo := {} }, .error .maxBlockSize_invalid) := by
  obtain ⟨hversion, hreserved, hmode, hblock, hsized, hcontent, hnamed⟩ := desc.flg_fields
  obtain ⟨hsizeID, hhigh, hlow⟩ := desc.bd_fields
  have hmin := desc.le_size
  have hlength : (desc.header ++ rest).length = desc.size + rest.length := by
    rw [List.length_append, desc.length_header]
  have hcontentSize (other : UInt64) :
      (if desc.contentSize.isSome.toNat ≠ 0 then
        UInt64.ofNat (leValue (((desc.header ++ rest).drop 6).take 8)) else other) =
        desc.contentSize.getD other := by
    cases h : desc.contentSize with
    | none => rfl
    | some n => exact desc.contentSize_read rest h
  have hdictID : (if desc.dictID.isSome.toNat ≠ 0 then
      readLE32 ((desc.header ++ rest).drop (desc.size - 5)) else 0) = desc.dictID.getD 0 := by
    cases h : desc.dictID with
    | none => rfl
    | some n => exact desc.dictID_read rest h
  have hnotSkippable : isSkippable magicNumber = false := by decide
  unfold decodeHeader
  simp only [hlength, desc.leValue_magic, desc.getD_flg, desc.getD_bd, hreserved, hversion, hmode,
    hblock, hsized, hcontent, hnamed, hsizeID, hhigh, hlow, desc.size_flags, desc.take_fields,
    desc.getD_checksum, hcontentSize, hdictID, hnotSkippable, ne_eq, not_true_eq_false, if_false,
    Bool.false_eq_true, if_neg (show ¬ desc.size + rest.length < desc.size by omega),
    if_neg (show ¬ desc.size + rest.length < minFHSize by unfold minFHSize; omega)]
  by_cases hvalid : 4 ≤ desc.blockSizeID.val
  · rw [if_neg (by omega), if_pos hvalid]
    rfl
  · rw [if_pos (by omega), if_neg hvalid]

/-- The first bytes of a header, enough of them to know its size. -/
theorem decodeHeader_take (d : Dctx) (desc : Descriptor) {n : Nat} (hmin : minFHSize ≤ n)
    (hn : n < desc.size) :
    decodeHeader d (desc.header.take n) true =
      ({ d with
          frameInfo := {}, tmpInSize := n, tmpInTarget := desc.size, dStage := .storeFrameHeader },
        .ok n) := by
  obtain ⟨hversion, hreserved, -, -, hsized, -, hnamed⟩ := desc.flg_fields
  have hlength : (desc.header.take n).length = n := by
    rw [List.length_take, desc.length_header]
    omega
  have hseven : 7 ≤ n := hmin
  have hmagic : leValue ((desc.header.take n).take 4) = magicNumber := by
    have hwhole := desc.leValue_magic []
    rw [List.append_nil] at hwhole
    rw [List.take_take, Nat.min_eq_left (by omega), hwhole]
  have hflg : (desc.header.take n).getD 4 0 = desc.flg := by
    have hwhole := desc.getD_flg []
    rw [List.append_nil] at hwhole
    rw [List.getD_eq_getElem?_getD, List.getElem?_take_of_lt (by omega),
      ← List.getD_eq_getElem?_getD, hwhole]
  have hnotSkippable : isSkippable magicNumber = false := by decide
  unfold decodeHeader
  simp only [hlength, hmagic, hflg, hreserved, hversion, hsized, hnamed, desc.size_flags, hn,
    hnotSkippable, ne_eq, not_true_eq_false, if_false, if_true, Bool.false_eq_true,
    if_neg (Nat.not_lt.2 hmin)]

/-- The size of a header that stands in memory. -/
theorem headerSize_header {m : Mem} {src : Int} {desc : Descriptor} {srcSize : Nat} (hsrc : src ≠ 0)
    (hsize : 5 ≤ srcSize) (hholds : m.Holds src (desc.header.take 5)) :
    headerSize m src srcSize = .ok desc.size := by
  obtain ⟨-, -, -, -, hsized, -, hnamed⟩ := desc.flg_fields
  have hmin := desc.le_size
  have hfive : (desc.header.take 5).length = 5 := by
    rw [List.length_take, desc.length_header]
    omega
  have hmagic : leValue (m.bytes src 4) = magicNumber := by
    have hbytes : m.bytes src 5 = desc.header.take 5 := by
      exact hholds
    have hfour : m.bytes src 4 = (m.bytes src 5).take 4 := by
      rw [show 5 = 4 + 1 by rfl, Mem.bytes_add, List.take_left' (Mem.length_bytes _ _ _)]
    have hwhole := desc.leValue_magic []
    rw [List.append_nil] at hwhole
    rw [hfour, hbytes, List.take_take, Nat.min_eq_left (by omega), hwhole]
  have hflg : m (src + 4) = desc.flg := by
    have hbyte := hholds.apply (show 4 < (desc.header.take 5).length by omega)
    have hwhole := desc.getD_flg []
    rw [List.append_nil] at hwhole
    exact hbyte
  have hnotSkippable : isSkippable magicNumber = false := by decide
  unfold headerSize
  simp only [if_neg hsrc, hmagic, hflg, hsized, hnamed, hnotSkippable, desc.size_flags, ne_eq,
    not_true_eq_false, if_false, Bool.false_eq_true, if_neg (Nat.not_lt.2 hsize)]

/-! ## What the library writes -/

end Lz4.Lz4f
