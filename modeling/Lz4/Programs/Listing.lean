import Lz4.Lib.Region
import Lz4.Programs.Info

/-!
# Which files can be listed

The command lists a file of frames if it can list each of them (`Member.Listable`): for each
kind of frame there is a lemma about the entry it makes, with any bytes behind it, and the loop
goes from one frame to the next.
-/

namespace Lz4.Programs

open FlatMemory Machine Stdio
open Lz4f (FrameInfo Frame Piece Descriptor magicNumber isSkippable overwrite headerSize
  getFrameInfo headerSize_header getFrameInfo_header)

variable {file : File} {buffer blockInfo bytes tail : List UInt8} {info : CFileInfo}

/-! ## Arrays -/

theorem take_overwrite {array : List UInt8} {i : Nat} (hi : i ≤ array.length) :
    (overwrite array i bytes).take (i + bytes.length) = array.take i ++ bytes := by
  have hlength : (array.take i ++ bytes).length = i + bytes.length := by
    rw [List.length_append, List.length_take, Nat.min_eq_left hi]
  rw [overwrite, List.take_append_of_le_length (by omega), List.take_of_length_le (by omega)]

theorem take_overwrite_zero (array bytes : List UInt8) :
    (overwrite array 0 bytes).take bytes.length = bytes := by
  have htake : (overwrite array 0 bytes).take (0 + bytes.length) = array.take 0 ++ bytes :=
    take_overwrite (Nat.zero_le _)
  rw [Nat.zero_add] at htake
  exact htake

theorem bufferMem_holds (h : buffer.take bytes.length = bytes) :
    (bufferMem buffer).Holds 1 bytes := by
  rw [← h]
  exact Mem.Holds.take (Mem.holds_store _ 1 buffer) bytes.length

/-! ## Blocks -/

theorem and_maxInt {n : Nat} (hn : n < 2 ^ 31) (raw : Bool) :
    (n + if raw then 2 ^ 31 else 0) &&& 0x7FFFFFFF = n := by
  have hmask : (0x7FFFFFFF : Nat) = 2 ^ 31 - 1 := rfl
  rw [hmask, Nat.and_two_pow_sub_one_eq_mod]
  split
  · omega
  · omega

variable {s : BlockSkip} {p : Piece}

theorem skipBlocksPass_piece (f : Frame) (hopen : s.file.eof = false) (hdata : p.data ≠ [])
    (hsize : p.data.length < 2 ^ 31) (hrest : s.file.rest = p.header ++ tail) :
    ∃ blockInfo, skipBlocksPass f.desc.blockChecksum.toNat f.desc.contentChecksum.toNat s =
      .next ⟨s.file.skip (4 + (p.data.length + f.footerSize)), blockInfo,
      s.totalBlocksSize + (4 + (p.data.length + f.footerSize))⟩ := by
  have hfread := File.fread_append hrest
  have hpos : 0 < p.data.length := List.length_pos_iff.mpr hdata
  have hvalue : leValue ((overwrite s.blockInfo 0 p.header).take 4) &&& 0x7FFFFFFF =
      p.data.length := by
    have htake := take_overwrite_zero s.blockInfo p.header
    rw [Piece.length_header] at htake
    rw [htake, Piece.header, leValue_leBytes (by split <;> omega)]
    exact and_maxInt hsize p.raw
  have hfooter : f.desc.blockChecksum.toNat * 4 = f.footerSize := by
    unfold Frame.footerSize
    cases f.desc.blockChecksum <;> rfl
  rw [Piece.length_header] at hfread
  rw [skipBlocksPass, hfread]
  dsimp only
  rw [hvalue, hfooter, if_neg (by rw [Piece.length_header]; omega), if_neg (by omega),
    File.fseek_skip (f := s.file.skip 4) hopen, File.skip_skip, Nat.add_assoc]
  exact ⟨_, rfl⟩

variable {pieces : List Piece}

/-- The file behind a block. -/
theorem rest_skip_piece (f : Frame) (hrest : file.rest = f.body (p :: pieces) ++ tail) :
    (file.skip (4 + (p.data.length + f.footerSize))).rest = f.body pieces ++ tail := by
  have hlength : (p.header ++ (p.data ++ f.footer p)).length =
      4 + (p.data.length + f.footerSize) := by
    simp
  rw [← hlength]
  refine File.rest_skip_append ?_
  rw [hrest, Frame.body]
  simp only [List.append_assoc]

theorem skipBlocksPass_end (f : Frame) (hopen : s.file.eof = false)
    (hrest : s.file.rest = f.body [] ++ tail) :
    skipBlocksPass f.desc.blockChecksum.toNat f.desc.contentChecksum.toNat s =
      .done (s.totalBlocksSize + (f.body []).length, s.file.skip (f.body []).length) := by
  rw [Frame.body, List.append_assoc] at hrest
  have hfread := File.fread_append hrest
  rw [length_leBytes] at hfread
  have hvalue : leValue ((overwrite s.blockInfo 0 (leBytes 4 0)).take 4) = 0 := by
    have htake := take_overwrite_zero s.blockInfo (leBytes 4 0)
    rw [length_leBytes] at htake
    rw [htake]
    rfl
  rw [skipBlocksPass, hfread]
  dsimp only
  rw [hvalue, if_neg (by rw [length_leBytes]; omega), if_pos (by rfl), Frame.body,
    List.length_append, length_leBytes]
  unfold Frame.suffix
  cases f.desc.contentChecksum with
  | false => rfl
  | true =>
    rw [if_pos (by decide), if_pos rfl, length_leBytes]
    have hseek := File.fseek_skip (f := s.file.skip 4) hopen 4
    rw [File.skip_skip] at hseek
    rw [← Nat.add_assoc]
    exact congrArg _ (congrArg _ hseek)

variable {fuel : Nat}

theorem skipBlocks_body (f : Frame) (hpieces : ∀ p ∈ pieces, p.data ≠ [] ∧ p.data.length < 2 ^ 31)
    (hopen : s.file.eof = false) (hrest : s.file.rest = f.body pieces ++ tail)
    (hfuel : pieces.length < fuel) :
    iterate (fun s =>
      some (skipBlocksPass f.desc.blockChecksum.toNat f.desc.contentChecksum.toNat s)) fuel s =
      some (s.totalBlocksSize + (f.body pieces).length, s.file.skip (f.body pieces).length) := by
  induction pieces generalizing s fuel with
  | nil =>
    obtain ⟨fuel, rfl⟩ := Nat.exists_eq_add_one_of_ne_zero (show fuel ≠ 0 by omega)
    rw [iterate, skipBlocksPass_end f hopen hrest]
  | cons p pieces ih =>
    obtain ⟨fuel, rfl⟩ := Nat.exists_eq_add_one_of_ne_zero (show fuel ≠ 0 by omega)
    obtain ⟨hdata, hsize⟩ := hpieces p (List.mem_cons_self ..)
    have hnext := rest_skip_piece f hrest
    rw [Frame.body, List.append_assoc] at hrest
    obtain ⟨blockInfo, hpass⟩ := skipBlocksPass_piece f hopen hdata hsize hrest
    have hwhole : (f.body (p :: pieces)).length =
        4 + (p.data.length + f.footerSize) + (f.body pieces).length := by
      simp [Frame.body]
      omega
    have hcount : pieces.length < fuel := by
      rw [List.length_cons] at hfuel
      omega
    have hothers := ih (fun q hq => hpieces q (List.mem_cons_of_mem _ hq))
      (s := ⟨s.file.skip (4 + (p.data.length + f.footerSize)), blockInfo,
        s.totalBlocksSize + (4 + (p.data.length + f.footerSize))⟩) hopen hnext hcount
    rw [iterate, hpass]
    dsimp only
    rw [hothers, File.skip_skip, hwhole, Nat.add_assoc]

/-! ## Legacy blocks -/

/-- A word that begins a frame. -/
def IsMagic (word : Nat) : Prop :=
  word = legacyMagicNumber ∨ word = magicNumber ∨ isSkippable word = true

/-- The bytes behind a frame: nothing, or another frame. -/
def Follows (tail : List UInt8) : Prop :=
  tail = [] ∨ ∃ word rest, tail = leBytes 4 word ++ rest ∧ word < 2 ^ 32 ∧ IsMagic word

/-- What is left of a file is `tail`. -/
structure Leaves (file : File) (tail : List UInt8) : Prop where
  rest_eq : file.rest = tail
  opened : tail ≠ [] → file.eof = false

theorem legacyBlockSizeMax_lt_magic {word : Nat} (hmagic : IsMagic word) :
    legacyBlockSizeMax < word := by
  obtain rfl | rfl | hskippable := hmagic
  · decide
  · decide
  · have hand : word &&& 0xFFFFFFF0 = Lz4f.magicSkippableStart := by
      simpa [isSkippable] using hskippable
    have hle : word &&& 0xFFFFFFF0 ≤ word := Nat.and_le_left
    have hlarge : legacyBlockSizeMax < Lz4f.magicSkippableStart := by decide
    omega

theorem skipLegacyBlocksPass_block {block : List UInt8} (total : Nat) (hopen : file.eof = false)
    (hsize : block.length ≤ legacyBlockSizeMax) (hrest : file.rest = legacyBlock block ++ tail) :
    skipLegacyBlocksPass (file, total) =
      .next (file.skip (legacyBlock block).length, total + (legacyBlock block).length) := by
  have hmax : legacyBlockSizeMax = 8388608 := rfl
  rw [legacyBlock, List.append_assoc] at hrest
  have hfread := File.fread_append hrest
  rw [length_leBytes] at hfread
  have hnot : ¬ IsMagic block.length := by
    intro hmagic
    have hlarge := legacyBlockSizeMax_lt_magic hmagic
    omega
  rw [skipLegacyBlocksPass, hfread]
  dsimp only
  rw [length_leBytes, if_neg (by omega), if_neg (by omega), leValue_leBytes (by omega),
    if_neg (show ¬ (_ ∨ _ ∨ _) from hnot), if_neg (by omega),
    File.fseek_skip (f := file.skip 4) hopen, File.skip_skip, legacyBlock,
    List.length_append, length_leBytes]

theorem skipLegacyBlocksPass_end (total : Nat) (hopen : file.eof = false) (hrest : file.rest = tail)
    (hfollows : Follows tail) :
    ∃ file', skipLegacyBlocksPass (file, total) = .done (some total, file') ∧
      file'.data = file.data ∧ Leaves file' tail := by
  obtain rfl | ⟨word, rest, rfl, hword, hmagic⟩ := hfollows
  · have hfread := File.fread_end hrest (show 0 < 4 by omega)
    rw [skipLegacyBlocksPass, hfread]
    exact ⟨_, rfl, rfl, hrest, fun hne => absurd rfl hne⟩
  · have hfread := File.fread_append hrest
    rw [length_leBytes] at hfread
    rw [skipLegacyBlocksPass, hfread]
    dsimp only
    rw [length_leBytes, if_neg (by omega), if_neg (by omega), leValue_leBytes (by omega),
      if_pos (show _ ∨ _ ∨ _ from hmagic)]
    have hback : (file.skip 4).fseek (-4) = file := File.fseek_neg_skip hopen 4
    rw [hback]
    exact ⟨file, rfl, rfl, hrest, fun _ => hopen⟩

variable {blocks : List (List UInt8)}

theorem skipLegacy_blocks (total : Nat)
    (hblocks : ∀ block ∈ blocks, block.length ≤ legacyBlockSizeMax) (hopen : file.eof = false)
    (hrest : file.rest = blocks.flatMap legacyBlock ++ tail) (hfollows : Follows tail)
    (hfuel : blocks.length < fuel) :
    ∃ file', iterate (fun s => some (skipLegacyBlocksPass s)) fuel (file, total) =
      some (some (total + (blocks.flatMap legacyBlock).length), file') ∧ file'.data = file.data ∧
      Leaves file' tail := by
  induction blocks generalizing file total fuel with
  | nil =>
    obtain ⟨fuel, rfl⟩ := Nat.exists_eq_add_one_of_ne_zero (show fuel ≠ 0 by omega)
    obtain ⟨file', hpass, hdata, hleaves⟩ := skipLegacyBlocksPass_end total hopen hrest hfollows
    refine ⟨file', ?_, hdata, hleaves⟩
    rw [iterate, hpass]
    rfl
  | cons block blocks ih =>
    obtain ⟨fuel, rfl⟩ := Nat.exists_eq_add_one_of_ne_zero (show fuel ≠ 0 by omega)
    rw [List.flatMap_cons, List.append_assoc] at hrest
    have hpass := skipLegacyBlocksPass_block total hopen
      (hblocks block (List.mem_cons_self ..)) hrest
    have hcount : blocks.length < fuel := by
      rw [List.length_cons] at hfuel
      omega
    obtain ⟨file', hothers, hdata, hleaves⟩ := ih (total + (legacyBlock block).length)
      (fun other hother => hblocks other (List.mem_cons_of_mem _ hother))
      (show (file.skip (legacyBlock block).length).eof = false from hopen)
      (File.rest_skip_append hrest) hcount
    refine ⟨file', ?_, hdata, hleaves⟩
    rw [iterate, hpass]
    dsimp only
    rw [hothers, List.flatMap_cons, List.length_append, Nat.add_assoc]

/-! ## Entries -/

/-- The entry is a row with the size `size`, and leaves `tail`. -/
def Rows (size : Nat) (file : File) (info : CFileInfo) (tail : List UInt8) (entry : Option Entry) :
    Prop :=
  ∃ file' buffer info' frameInfo, entry = some (.row file' buffer info' frameInfo size) ∧
    file'.data = file.data ∧ Leaves file' tail ∧ info'.frameCount = info.frameCount

theorem skippableEntry_rows {content : List UInt8} (hopen : file.eof = false)
    (hsize : content.length + 8 < 2 ^ 32)
    (hrest : file.rest = leBytes 4 content.length ++ (content ++ tail)) :
    Rows (8 + content.length) file info tail (skippableEntry file buffer info) := by
  have hfread := File.fread_append hrest
  have htake := take_overwrite_zero buffer (leBytes 4 content.length)
  rw [length_leBytes] at hfread htake
  have hseek : (if content.length = 0 then file.skip 4 else (file.skip 4).fseek content.length) =
      (file.skip 4).skip content.length := by
    split
    · rename_i hempty
      rw [hempty]
      rfl
    · exact File.fseek_skip (f := file.skip 4) hopen _
  have hleft : ((file.skip 4).skip content.length).rest = tail := by
    have hskip := File.rest_skip_append hrest
    rw [length_leBytes] at hskip
    exact File.rest_skip_append hskip
  rw [skippableEntry, hfread]
  dsimp only
  rw [length_leBytes, if_neg (by omega), htake, leValue_leBytes (by omega), hseek,
    Nat.mod_eq_of_lt hsize, Nat.add_comm content.length]
  exact ⟨_, _, _, _, rfl, rfl, ⟨hleft, fun _ => hopen⟩, rfl⟩

theorem length_le_flatMap_legacyBlock (blocks : List (List UInt8)) :
    4 * blocks.length ≤ (blocks.flatMap legacyBlock).length := by
  induction blocks with
  | nil => exact Nat.le_refl _
  | cons block blocks ih =>
    rw [List.flatMap_cons, List.length_append, legacyBlock, List.length_append, length_leBytes,
      List.length_cons]
    omega

theorem Leaves.length_le (hleaves : Leaves file tail) : tail.length ≤ file.data.length := by
  rw [← hleaves.rest_eq, File.rest, List.length_drop]
  omega

theorem legacyEntry_rows (hopen : file.eof = false) (hne : blocks ≠ [])
    (hblocks : ∀ block ∈ blocks, block.length ≤ legacyBlockSizeMax)
    (hrest : file.rest = blocks.flatMap legacyBlock ++ tail) (hfollows : Follows tail) :
    Rows (4 + (blocks.flatMap legacyBlock).length) file info tail (legacyEntry file buffer
      info) := by
  have hcount := length_le_flatMap_legacyBlock blocks
  have hpos := List.length_pos_iff.mpr hne
  have hfuel := Leaves.length_le ⟨hrest, fun _ => hopen⟩
  rw [List.length_append] at hfuel
  obtain ⟨file', hskip, hdata, hleaves⟩ := skipLegacy_blocks 0 hblocks hopen hrest hfollows
    (show blocks.length < file.data.length + 2 by omega)
  rw [Nat.zero_add] at hskip
  rw [legacyEntry, skipLegacyBlocksData, hskip]
  dsimp only [Option.map_some]
  rw [if_neg (by omega), Nat.add_comm]
  exact ⟨_, _, _, _, rfl, hdata, hleaves, rfl⟩

/-- The fields of a header behind the magic number. -/
def headerFields (desc : Descriptor) : List UInt8 :=
  desc.fields ++ [Lz4f.headerChecksum desc.fields]

theorem length_headerFields (desc : Descriptor) : (headerFields desc).length = desc.size - 4 := by
  have hmin := desc.le_size
  rw [headerFields, List.length_append, desc.length_fields, List.length_singleton]
  omega

variable {desc : Descriptor}

/-- A header is 7 bytes long, or it is read to its end, unless it has a dictionary identifier and
no content size. -/
theorem size_cases (hdict : desc.dictID.isSome → desc.contentSize.isSome) :
    desc.size = 7 ∨ 7 + 4 < desc.size := by
  unfold Descriptor.size Lz4f.minFHSize
  cases hcontent : desc.contentSize.isSome <;> cases hdictID : desc.dictID.isSome <;> simp_all

theorem length_le_body (f : Frame) (pieces : List Piece) :
    4 * pieces.length + 4 ≤ (f.body pieces).length := by
  induction pieces with
  | nil => simp [Frame.body]
  | cons p pieces ih =>
    simp only [Frame.body, List.length_append, Piece.length_header, List.length_cons]
    omega

/-- The header is read into the buffer. -/
theorem readExtra_header (hdict : desc.dictID.isSome → desc.contentSize.isSome)
    (hfirst : buffer.take 7 = desc.header.take 7) (hrest : file.rest = desc.header.drop 7 ++ tail) :
    ∃ buffer', readExtra file buffer desc.size = (false, buffer', file.skip (desc.size - 7)) ∧
      buffer'.take desc.header.length = desc.header := by
  have hdrop : (desc.header.drop 7).length = desc.size - 7 := by
    rw [List.length_drop, desc.length_header]
  have hmin := desc.le_size
  have hlength : 7 ≤ buffer.length := by
    have hsame := congrArg List.length hfirst
    rw [List.length_take, List.length_take, desc.length_header] at hsame
    omega
  rw [readExtra, desc.length_header]
  obtain hshort | hlong := size_cases hdict
  · rw [if_neg (by omega), hshort]
    refine ⟨buffer, rfl, ?_⟩
    rw [hfirst, List.take_of_length_le]
    rw [desc.length_header]
    omega
  · have hfread := File.fread_append hrest
    rw [hdrop] at hfread
    rw [if_pos hlong, hfread]
    dsimp only
    rw [hdrop, decide_eq_false (by omega)]
    refine ⟨_, rfl, ?_⟩
    have htake : (overwrite buffer 7 (desc.header.drop 7)).take (7 + (desc.header.drop 7).length) =
        buffer.take 7 ++ desc.header.drop 7 := take_overwrite hlength
    rw [hdrop, hfirst, List.take_append_drop, Nat.add_sub_cancel' hmin] at htake
    exact htake

theorem lz4Row_rows (frameInfo : FrameInfo) (hSize : Nat) {total : Nat} {file' : File}
    (hskip : skipBlocksData blockInfo file frameInfo.blockChecksumFlag
      frameInfo.contentChecksumFlag = some (total, file')) (hpos : total ≠ 0)
    (hdata : file'.data = file.data) (hleaves : Leaves file' tail) :
    Rows (total + hSize) file info tail (lz4Row blockInfo file buffer info frameInfo hSize) := by
  rw [lz4Row, hskip, Option.map_some]
  dsimp only
  rw [if_neg hpos]
  split
  · exact ⟨_, _, _, _, rfl, hdata, hleaves, rfl⟩
  · exact ⟨_, _, _, _, rfl, hdata, hleaves, rfl⟩

/-- The first 7 bytes of a header. -/
theorem lz4Entry_start (hmagic : buffer.take 4 = leBytes 4 magicNumber)
    (hrest : file.rest = headerFields desc ++ tail) :
    file.fread 3 = ((headerFields desc).take 3, file.skip 3) ∧ (file.skip 3).rest =
      desc.header.drop 7 ++ tail ∧ (overwrite buffer 4 ((headerFields desc).take 3)).take 7 =
      desc.header.take 7 ∧
      (bufferMem (overwrite buffer 4 ((headerFields desc).take 3))).Holds 1 (desc.header.take
      5) := by
  have hmin := desc.le_size
  have hheader : desc.header = leBytes 4 magicNumber ++ headerFields desc := rfl
  have hseven : (leBytes 4 magicNumber).length + 3 = 7 := rfl
  have hthree : ((headerFields desc).take 3).length = 3 := by
    rw [List.length_take, length_headerFields]
    omega
  have hsplit : file.rest = (headerFields desc).take 3 ++
      ((headerFields desc).drop 3 ++ tail) := by
    rw [hrest, ← List.append_assoc ((headerFields desc).take 3), List.take_append_drop]
  have hfread := File.fread_append hsplit
  have hsecond := File.rest_skip_append hsplit
  have hfour : 4 ≤ buffer.length := by
    have hsame := congrArg List.length hmagic
    rw [List.length_take, length_leBytes] at hsame
    omega
  have hfirst : (overwrite buffer 4 ((headerFields desc).take 3)).take 7 =
      desc.header.take 7 := by
    have htake : (overwrite buffer 4 ((headerFields desc).take 3)).take
        (4 + ((headerFields desc).take 3).length) =
          buffer.take 4 ++ (headerFields desc).take 3 := take_overwrite hfour
    rw [hthree, hmagic] at htake
    rw [htake, hheader, ← hseven, List.take_length_add_append]
  have hdrop : desc.header.drop 7 = (headerFields desc).drop 3 := by
    rw [hheader, ← hseven, List.drop_length_add_append]
  rw [hthree] at hfread hsecond
  rw [← hdrop] at hsecond
  refine ⟨hfread, hsecond, hfirst, bufferMem_holds ?_⟩
  rw [List.length_take, desc.length_header, Nat.min_eq_left (by omega)]
  have hless := congrArg (List.take 5) hfirst
  rw [List.take_take, List.take_take] at hless
  exact hless

/-- The entry of a frame whose header is read to its end. -/
theorem lz4Entry_header (blockInfo : List UInt8) (info : CFileInfo) (hid : 4 ≤ desc.blockSizeID.val)
    (hdict : desc.dictID.isSome → desc.contentSize.isSome)
    (hmagic : buffer.take 4 = leBytes 4 magicNumber) (hrest : file.rest = headerFields desc ++ tail)
    :
    ∃ buffer' info', lz4Entry blockInfo file buffer info =
      lz4Row blockInfo (file.skip (desc.size - 4)) buffer' info' desc.info desc.size ∧
      (file.skip (desc.size - 4)).rest = tail ∧ info'.frameCount = info.frameCount := by
  have hmin := desc.le_size
  obtain ⟨hfread, hsecond, hfirst, hfive⟩ := lz4Entry_start hmagic hrest
  obtain ⟨buffer', hextra, hbuffer⟩ := readExtra_header hdict hfirst hsecond
  have hquery := getFrameInfo_header true 0 0 (d := {}) rfl (show (1 : Int) ≠ 0 by decide)
    (Nat.le_refl desc.size) (bufferMem_holds hbuffer)
  have hskip : (file.skip 3).skip (desc.size - 7) = file.skip (desc.size - 4) := by
    rw [File.skip_skip]
    congr 1
    omega
  have hleft := File.rest_skip_append hsecond
  rw [List.length_drop, desc.length_header, hskip] at hleft
  have hthree : ((headerFields desc).take 3).length ≠ 0 := by
    rw [List.length_take, length_headerFields]
    omega
  rw [if_pos hid] at hquery
  rw [lz4Entry, hfread]
  dsimp only
  rw [if_neg hthree, headerSize_header (by decide) (by omega) hfive]
  dsimp only
  rw [hextra]
  dsimp only
  rw [if_neg (by decide), hquery, Option.bind_some, hskip]
  refine ⟨buffer', _, rfl, hleft, ?_⟩
  split <;> split <;> rfl

variable {f : Frame}

theorem lz4Entry_rows {dict : List UInt8} (valid : f.Valid dict) (hopen : file.eof = false)
    (hdict : f.desc.dictID.isSome → f.desc.contentSize.isSome)
    (hpieces : ∀ p ∈ f.pieces, p.data ≠ [] ∧ p.data.length < 2 ^ 31)
    (hmagic : buffer.take 4 = leBytes 4 magicNumber)
    (hrest : file.rest = headerFields f.desc ++ (f.body f.pieces ++ tail)) :
    Rows f.bytes.length file info tail (lz4Entry blockInfo file buffer info) := by
  obtain ⟨buffer', info', hentry, hbody, hcount⟩ :=
    lz4Entry_header blockInfo info valid.blockSizeID hdict hmagic hrest
  have hpos := length_le_body f f.pieces
  have hfuel := Leaves.length_le ⟨hbody, fun _ => hopen⟩
  rw [List.length_append] at hfuel
  have hskip := skipBlocks_body f hpieces
    (s := ⟨file.skip (f.desc.size - 4), blockInfo, 0⟩) hopen hbody
    (show f.pieces.length < (file.skip (f.desc.size - 4)).data.length + 2 by omega)
  rw [Nat.zero_add] at hskip
  have hbytes : f.bytes.length = (f.body f.pieces).length + f.desc.size := by
    rw [Frame.bytes, List.length_append, f.desc.length_header, Nat.add_comm]
  obtain ⟨file', buffer'', info'', frameInfo, hrow, hdata, hleaves, hcount'⟩ :=
    lz4Row_rows f.desc.info f.desc.size hskip (by omega) rfl
      ⟨File.rest_skip_append hbody, fun _ => hopen⟩
  rw [hbytes]
  exact ⟨file', buffer'', info'', frameInfo, hentry.trans hrow, hdata, hleaves,
    hcount'.trans hcount⟩

/-! ## Frames -/

theorem stand_data_le {history : List UInt8} (stand : f.Stand history pieces) (hp : p ∈ pieces) :
    p.data.length ≤ f.blockSize := by
  induction pieces generalizing history with
  | nil => cases hp
  | cons q pieces ih =>
    obtain ⟨hstands, hstand⟩ := stand
    cases hp with
    | head => exact hstands.data_le
    | tail _ hp => exact ih hstand hp

namespace Member

variable {m : Member}

def magic : Member → Nat
  | .lz4 _ => magicNumber
  | .skippable id _ => Lz4f.magicSkippableStart + id
  | .legacy _ => legacyMagicNumber

/-- The bytes behind the magic number. -/
def payload : Member → List UInt8
  | .lz4 f => headerFields f.desc ++ f.body f.pieces
  | .skippable _ content => leBytes 4 content.length ++ content
  | .legacy blocks => blocks.flatMap legacyBlock

theorem bytes_eq (m : Member) : m.bytes = leBytes 4 m.magic ++ m.payload := by
  cases m with
  | lz4 f => exact List.append_assoc ..
  | skippable id content => rfl
  | legacy blocks => rfl

theorem magic_spec (m : Member) : m.magic < 2 ^ 32 ∧ IsMagic m.magic := by
  cases m with
  | lz4 f => exact ⟨show magicNumber < 2 ^ 32 by decide, .inr (.inl rfl)⟩
  | legacy blocks => exact ⟨show legacyMagicNumber < 2 ^ 32 by decide, .inl rfl⟩
  | skippable id content =>
    have hid : ∀ id : Fin 16, Lz4f.magicSkippableStart + id.val < 2 ^ 32 ∧
        isSkippable (Lz4f.magicSkippableStart + id.val) = true := by decide
    exact ⟨(hid id).1, .inr (.inr (hid id).2)⟩

/-- The case that the magic number leads to. -/
def entry (m : Member) (blockInfo : List UInt8) (file : File) (buffer : List UInt8)
    (info : CFileInfo) : Option Entry :=
  match m with
  | .lz4 _ => lz4Entry blockInfo file buffer info
  | .skippable .. => skippableEntry file buffer info
  | .legacy _ => legacyEntry file buffer info

theorem infoEntry_eq (blockInfo : List UInt8) (file : File) (info : CFileInfo)
    (hbuffer : buffer.take 4 = leBytes 4 m.magic) :
    infoEntry blockInfo file buffer info = m.entry blockInfo file buffer info := by
  rw [infoEntry, hbuffer, leValue_leBytes m.magic_spec.1]
  cases m with
  | lz4 f =>
    rw [magic, if_neg (by decide), if_pos rfl]
    rfl
  | skippable id content =>
    have hskippable : ∀ id : Fin 16,
        isSkippable (Lz4f.magicSkippableStart + id.val) = true := by decide
    rw [magic, if_pos (hskippable id)]
    rfl
  | legacy blocks =>
    rw [magic, if_neg (by decide), if_neg (by decide), if_pos rfl]
    rfl

/-- A frame that can be listed gives a row with its size. -/
theorem entry_rows (blockInfo : List UInt8) (info : CFileInfo) (valid : m.Valid)
    (listable : m.Listable) (hopen : file.eof = false)
    (hbuffer : buffer.take 4 = leBytes 4 m.magic) (hrest : file.rest = m.payload ++ tail)
    (hfollows : Follows tail) :
    Rows m.bytes.length file info tail (m.entry blockInfo file buffer info) := by
  cases m with
  | lz4 f =>
    obtain ⟨dict, valid⟩ := valid
    have hsmall := valid.blockSize_le.2
    have hpieces (p : Piece) (hp : p ∈ f.pieces) : p.data ≠ [] ∧ p.data.length < 2 ^ 31 := by
      have hsize := stand_data_le valid.stand hp
      exact ⟨listable.2 p hp, by omega⟩
    rw [payload, List.append_assoc] at hrest
    exact lz4Entry_rows valid hopen listable.1 hpieces hbuffer hrest
  | skippable id content =>
    rw [payload, List.append_assoc] at hrest
    rw [bytes, List.length_append, List.length_append, length_leBytes, length_leBytes,
      ← Nat.add_assoc]
    exact skippableEntry_rows hopen listable hrest
  | legacy blocks =>
    rw [bytes, List.length_append, length_leBytes]
    exact legacyEntry_rows hopen listable.1 listable.2 hrest hfollows

end Member

theorem follows_fileOf (members : List Member) : Follows (fileOf members) := by
  cases members with
  | nil => exact .inl rfl
  | cons m members =>
    refine .inr ⟨m.magic, m.payload ++ fileOf members, ?_, m.magic_spec.1, m.magic_spec.2⟩
    rw [fileOf, List.flatMap_cons, m.bytes_eq, List.append_assoc]
    rfl

theorem Member.bytes_ne (m : Member) : m.bytes ++ tail ≠ [] := by
  intro hempty
  have hlength := congrArg List.length hempty
  rw [m.bytes_eq] at hlength
  simp at hlength

/-- One round of the loop. -/
theorem infoPass_member (blockInfo : List UInt8) {m : Member} {s : Listing} (valid : m.Valid)
    (listable : m.Listable)
    (hleaves : Leaves s.file (m.bytes ++ tail)) (hfollows : Follows tail) :
    ∃ s', infoPass blockInfo s = some (.next s') ∧ Leaves s'.file tail ∧
      s'.info.frameCount = s.info.frameCount + 1 ∧ s'.result = .ok ∧
      s'.sizes = s.sizes ++ [m.bytes.length] := by
  have hopen := hleaves.opened m.bytes_ne
  have hrest := hleaves.rest_eq
  rw [m.bytes_eq, List.append_assoc] at hrest
  have hfread := File.fread_append hrest
  have hnext := File.rest_skip_append hrest
  have hbuffer := take_overwrite_zero s.buffer (leBytes 4 m.magic)
  rw [length_leBytes] at hfread hnext hbuffer
  obtain ⟨file, buffer, info, frameInfo, hentry, -, hleft, hcount⟩ :=
    Member.entry_rows blockInfo s.info valid listable
      (show (s.file.skip 4).eof = false from hopen) hbuffer hnext hfollows
  rw [infoPass, hopen, if_neg (by decide), hfread]
  dsimp only
  rw [length_leBytes, if_neg (by omega), if_neg (by omega), Member.infoEntry_eq _ _ _ hbuffer,
    hentry, Option.map_some]
  exact ⟨_, rfl, hleft, congrArg (· + 1) hcount, rfl, rfl⟩

theorem infoPass_end {s : Listing} (hleaves : Leaves s.file []) :
    infoPass blockInfo s = some (.done (.returned s.result s.info s.sizes)) := by
  rw [infoPass, File.fread_end hleaves.rest_eq (by omega)]
  dsimp only
  split
  · rfl
  · rfl

variable {members : List Member}

/-- The loop over the frames of a file. -/
theorem info_members (blockInfo : List UInt8) (hvalid : ∀ m ∈ members, m.Valid)
    (hlistable : ∀ m ∈ members, m.Listable) {s : Listing} (hleaves : Leaves s.file (fileOf members))
    (hfuel : members.length < fuel) :
    ∃ info, iterate (infoPass blockInfo) fuel s =
      some (.returned (if members = [] then s.result else .ok) info (s.sizes ++ members.map fun m =>
      m.bytes.length)) ∧ info.frameCount = s.info.frameCount + members.length := by
  induction members generalizing s fuel with
  | nil =>
    obtain ⟨fuel, rfl⟩ := Nat.exists_eq_add_one_of_ne_zero (show fuel ≠ 0 by omega)
    rw [iterate, infoPass_end hleaves]
    exact ⟨s.info, by simp, rfl⟩
  | cons m members ih =>
    obtain ⟨fuel, rfl⟩ := Nat.exists_eq_add_one_of_ne_zero (show fuel ≠ 0 by omega)
    obtain ⟨s', hpass, hleft, hcount, hresult, hsizes⟩ := infoPass_member blockInfo
      (hvalid m (List.mem_cons_self ..)) (hlistable m (List.mem_cons_self ..)) hleaves
      (follows_fileOf members)
    have hfewer : members.length < fuel := by
      rw [List.length_cons] at hfuel
      omega
    obtain ⟨info, hothers, hinfo⟩ := ih (fun m hm => hvalid m (List.mem_cons_of_mem _ hm))
      (fun m hm => hlistable m (List.mem_cons_of_mem _ hm)) hleft hfewer
    refine ⟨info, ?_, by rw [hinfo, hcount, List.length_cons]; omega⟩
    rw [iterate, hpass]
    dsimp only
    rw [hothers, hsizes, hresult, if_neg (List.cons_ne_nil m members), ite_self,
      List.append_assoc]
    rfl

theorem length_fileOf (members : List Member) :
    (members.map fun m => m.bytes.length).sum = (fileOf members).length := by
  rw [fileOf, List.length_flatMap]

theorem length_members_le (members : List Member) : members.length ≤ (fileOf members).length := by
  induction members with
  | nil => exact Nat.zero_le _
  | cons m members ih =>
    rw [fileOf, List.flatMap_cons, List.length_append, ← fileOf, List.length_cons, m.bytes_eq,
      List.length_append, length_leBytes]
    omega

/-- A file of frames that can be listed is listed with all its frames and its whole size. -/
theorem lists_of_listable (buffer blockInfo : List UInt8) (hne : members ≠ [])
    (hvalid : ∀ m ∈ members, m.Valid) (hlistable : ∀ m ∈ members, m.Listable) :
    Lists buffer blockInfo members := by
  have hfuel := length_members_le members
  obtain ⟨info, hinfo, hcount⟩ := info_members blockInfo hvalid hlistable
    (s := ⟨{ data := fileOf members }, buffer, { fileSize := (fileOf members).length },
      .formatNotKnown, []⟩) ⟨rfl, fun _ => rfl⟩
    (show members.length < (fileOf members).length + 2 by omega)
  refine ⟨info, _, ?_, by rw [hcount]; exact Nat.zero_add _, length_fileOf members⟩
  rw [getCompressedFileInfo, hinfo, if_neg hne, List.nil_append]

end Lz4.Programs
