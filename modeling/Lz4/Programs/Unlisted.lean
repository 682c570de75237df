import Lz4.Programs.Listing

/-!
# Which files cannot be listed

The conditions of `Member.Listable` are needed.  A file of one frame that violates them is not
listed with one frame and its size:

* the header with a dictionary identifier and no content size is 11 bytes long, of which 7 are
  read; what follows is counted from the wrong position;
* an empty block that is stored as it is looks like the end mark;
* a legacy frame without blocks has the size 0, which means an error;
* a legacy block of more than 8 MB, which a chunk of 8 MB can become, is refused;
* the size of a skippable frame overflows.

In a file of several frames the bytes behind such a frame may happen to look like other frames,
so nothing is said about these.
-/

namespace Lz4.Programs

open FlatMemory Machine Stdio
open Lz4f (FrameInfo Frame Piece Descriptor magicNumber isSkippable overwrite headerSize
  getFrameInfo decodeHeader Dctx)

variable {file file' : File} {buffer buffer' blockInfo tail : List UInt8} {info info' : CFileInfo}
  {frameInfo : IoFrameInfo} {size : Nat}

/-! ## Each row counts one frame -/

theorem lz4Row_count {lz4FrameInfo : FrameInfo} {hSize : Nat}
    (hrow : lz4Row blockInfo file buffer info lz4FrameInfo hSize =
      some (.row file' buffer' info' frameInfo size)) : info'.frameCount = info.frameCount := by
  obtain ⟨⟨total, left⟩, -, hentry⟩ := Option.map_eq_some_iff.mp hrow
  dsimp only at hentry
  split at hentry
  · cases hentry
  · split at hentry
    · cases hentry
      rfl
    · cases hentry
      rfl

theorem lz4Entry_count (hentry : lz4Entry blockInfo file buffer info =
    some (.row file' buffer' info' frameInfo size)) : info'.frameCount = info.frameCount := by
  unfold lz4Entry at hentry
  dsimp only at hentry
  split at hentry
  · cases hentry
  · split at hentry
    · cases hentry
    · split at hentry
      · cases hentry
      · obtain ⟨q, -, hrow⟩ := Option.bind_eq_some_iff.mp hentry
        split at hrow
        · rw [lz4Row_count hrow]
          split <;> split <;> rfl
        · cases hrow

theorem infoEntry_count (hentry : infoEntry blockInfo file buffer info =
    some (.row file' buffer' info' frameInfo size)) : info'.frameCount = info.frameCount := by
  unfold infoEntry at hentry
  dsimp only at hentry
  split at hentry
  · unfold skippableEntry at hentry
    dsimp only at hentry
    split at hentry
    · cases hentry
    · cases hentry
      rfl
  · split at hentry
    · exact lz4Entry_count hentry
    · split at hentry
      · obtain ⟨⟨total, left⟩, -, hrow⟩ := Option.map_eq_some_iff.mp hentry
        dsimp only at hrow
        split at hrow
        · cases hrow
        · split at hrow
          · cases hrow
          · cases hrow
            rfl
      · cases hentry

variable {s : Listing}

/-- A round that goes on has added a row. -/
theorem infoPass_next {s' : Listing} (hpass : infoPass blockInfo s = some (.next s')) :
    ∃ file' buffer' info' frameInfo size,
      infoEntry blockInfo (s.file.fread 4).2 (overwrite s.buffer 0 (s.file.fread 4).1) s.info =
      some (.row file' buffer' info' frameInfo size) ∧ s'.file = file' ∧ s'.info.frameCount =
      s.info.frameCount + 1 ∧ s'.sizes = s.sizes ++ [size] := by
  unfold infoPass at hpass
  dsimp only at hpass
  split at hpass
  · cases hpass
  · split at hpass
    · cases hpass
    · split at hpass
      · cases hpass
      · obtain ⟨entry, hentry, hstep⟩ := Option.map_eq_some_iff.mp hpass
        cases entry with
        | exit code => cases hstep
        | unknown info => cases hstep
        | row file' buffer' info' frameInfo size =>
          cases hstep
          exact ⟨_, _, _, _, _, hentry, rfl, congrArg (· + 1) (infoEntry_count hentry), rfl⟩

variable {sizes : List Nat}

/-- The function returns successfully only at the end of the file. -/
theorem infoPass_done (hpass : infoPass blockInfo s = some (.done (.returned .ok info sizes))) :
    (s.file.eof = true ∨ s.file.rest = []) ∧ info = s.info ∧ sizes = s.sizes := by
  unfold infoPass at hpass
  dsimp only at hpass
  split at hpass
  · rename_i heof
    simp only [Option.some.injEq, Step.done.injEq, InfoOutcome.returned.injEq] at hpass
    exact ⟨.inl heof, hpass.2.1.symm, hpass.2.2.symm⟩
  · split at hpass
    · rename_i hnone
      simp only [Option.some.injEq, Step.done.injEq, InfoOutcome.returned.injEq] at hpass
      refine ⟨.inr ?_, hpass.2.1.symm, hpass.2.2.symm⟩
      have htake : (s.file.rest.take 4).length = 0 := hnone
      rw [List.length_take] at htake
      exact List.length_eq_zero_iff.mp (by omega)
    · split at hpass
      · cases hpass
      · obtain ⟨entry, hentry, hstep⟩ := Option.map_eq_some_iff.mp hpass
        cases entry with
        | exit code => cases hstep
        | unknown info => cases hstep
        | row file' buffer' info' frameInfo size => cases hstep

variable {fuel : Nat}

section

variable (hrun : iterate (infoPass blockInfo) fuel s = some (.returned .ok info sizes))

include hrun

/-- Rounds up to a successful end. -/
theorem iterate_info :
    ((s.file.eof = true ∨ s.file.rest = []) ∧ info = s.info ∧ sizes = s.sizes) ∨ ∃ fuel' s',
      infoPass blockInfo s = some (.next s') ∧ iterate (infoPass blockInfo) fuel' s' =
      some (.returned .ok info sizes) := by
  cases fuel with
  | zero => cases hrun
  | succ fuel =>
    rw [iterate] at hrun
    split at hrun
    · cases hrun
    · rename_i hpass
      cases hrun
      exact .inl (infoPass_done hpass)
    · rename_i s' hpass
      exact .inr ⟨fuel, s', hpass, hrun⟩

theorem iterate_count : s.info.frameCount ≤ info.frameCount := by
  induction fuel generalizing s with
  | zero => cases hrun
  | succ fuel ih =>
    rw [iterate] at hrun
    split at hrun
    · cases hrun
    · rename_i hpass
      cases hrun
      obtain ⟨-, rfl, -⟩ := infoPass_done hpass
      exact Nat.le_refl _
    · rename_i s' hpass
      obtain ⟨_, _, _, _, _, -, -, hcount, -⟩ := infoPass_next hpass
      have hrest := ih hrun
      omega

end

variable {m : Member}

/-- A file of one frame is listed by one row, which ends with the file. -/
theorem Lists.single (hlists : Lists buffer blockInfo [m]) :
    ∃ file buffer₁ info file' buffer' info' frameInfo, file.eof = false ∧ file.rest = m.payload ∧
      buffer₁.take 4 = leBytes 4 m.magic ∧ m.entry blockInfo file buffer₁ info =
      some (.row file' buffer' info' frameInfo (4 + m.payload.length)) ∧
      (file'.eof = true ∨ file'.rest = []) := by
  obtain ⟨info, sizes, hrun, hcount, hsum⟩ := hlists
  have hfile : fileOf [m] = m.bytes := by simp [fileOf]
  have hbytes := m.bytes_eq
  have hlength : m.bytes.length = 4 + m.payload.length := by
    rw [hbytes, List.length_append, length_leBytes]
  rw [hfile] at hrun hsum
  have hfread := File.fread_append (show (File.mk m.bytes 0 false).rest = _ from hbytes)
  have hnext := File.rest_skip_append (show (File.mk m.bytes 0 false).rest = _ from hbytes)
  have hbuffer := take_overwrite_zero buffer (leBytes 4 m.magic)
  rw [length_leBytes] at hfread hnext hbuffer
  obtain ⟨-, rfl, -⟩ | ⟨fuel, s', hpass, hrun'⟩ := iterate_info hrun
  · cases hcount
  · obtain ⟨file', buffer', info', frameInfo, size, hentry, hfile', hcount', hsizes⟩ :=
      infoPass_next hpass
    rw [hfread, Member.infoEntry_eq _ _ _ hbuffer] at hentry
    obtain ⟨hend, rfl, rfl⟩ | ⟨fuel', s'', hpass', hrun''⟩ := iterate_info hrun'
    · rw [hsizes, List.nil_append, List.sum_singleton, hlength] at hsum
      rw [hfile'] at hend
      rw [hsum] at hentry
      exact ⟨_, _, _, file', buffer', info', frameInfo, rfl, hnext, hbuffer, hentry, hend⟩
    · -- a second row would be a second frame
      obtain ⟨_, _, _, _, _, -, -, hcount'', -⟩ := infoPass_next hpass'
      have hmore := iterate_count hrun''
      rw [List.length_singleton] at hcount
      omega

/-! ## Legacy frames -/

theorem legacyCapacity_eq : legacyCapacity = 8421524 := by decide

variable {block : List UInt8}

theorem skipLegacyBlocksPass_large (total : Nat) (hlarge : legacyBlockSizeMax < block.length)
    (hsize : block.length ≤ legacyCapacity) (hrest : file.rest = legacyBlock block ++ tail) :
    ∃ file', skipLegacyBlocksPass (file, total) = .done (none, file') := by
  rw [legacyCapacity_eq] at hsize
  rw [legacyBlock, List.append_assoc] at hrest
  have hfread := File.fread_append hrest
  rw [length_leBytes] at hfread
  have hnot : ¬ IsMagic block.length := by
    rintro (hmagic | hmagic | hskippable)
    · have hvalue : legacyMagicNumber = 407642370 := by decide
      omega
    · have hvalue : magicNumber = 407708164 := by decide
      omega
    · have hand : block.length &&& 0xFFFFFFF0 = Lz4f.magicSkippableStart := by
        simpa [isSkippable] using hskippable
      have hle : block.length &&& 0xFFFFFFF0 ≤ block.length := Nat.and_le_left
      have hvalue : Lz4f.magicSkippableStart = 407710288 := by decide
      omega
  rw [skipLegacyBlocksPass, hfread]
  dsimp only
  rw [length_leBytes, if_neg (by omega), if_neg (by omega), leValue_leBytes (by omega),
    if_neg (show ¬ (_ ∨ _ ∨ _) from hnot), if_pos hlarge]
  exact ⟨_, rfl⟩

variable {blocks : List (List UInt8)}

theorem skipLegacy_large (total : Nat) (hblocks : ∀ block ∈ blocks, block.length ≤ legacyCapacity)
    (hlarge : ∃ block ∈ blocks, legacyBlockSizeMax < block.length) (hopen : file.eof = false)
    (hrest : file.rest = blocks.flatMap legacyBlock ++ tail) (hfuel : blocks.length < fuel) :
    ∃ file', iterate (fun s => some (skipLegacyBlocksPass s)) fuel (file, total) =
      some (none, file') := by
  induction blocks generalizing file total fuel with
  | nil =>
    obtain ⟨block, hblock, -⟩ := hlarge
    cases hblock
  | cons block blocks ih =>
    obtain ⟨fuel, rfl⟩ := Nat.exists_eq_add_one_of_ne_zero (show fuel ≠ 0 by omega)
    rw [List.flatMap_cons, List.append_assoc] at hrest
    by_cases hsize : block.length ≤ legacyBlockSizeMax
    · have hpass := skipLegacyBlocksPass_block total hopen hsize hrest
      have hlarge' : ∃ other ∈ blocks, legacyBlockSizeMax < other.length := by
        obtain ⟨other, hother, hlarge⟩ := hlarge
        cases hother with
        | head => omega
        | tail _ hother => exact ⟨other, hother, hlarge⟩
      have hcount : blocks.length < fuel := by
        rw [List.length_cons] at hfuel
        omega
      obtain ⟨file', hothers⟩ := ih (total + (legacyBlock block).length)
        (fun other hother => hblocks other (List.mem_cons_of_mem _ hother)) hlarge'
        (show (file.skip (legacyBlock block).length).eof = false from hopen)
        (File.rest_skip_append hrest) hcount
      refine ⟨file', ?_⟩
      rw [iterate, hpass]
      exact hothers
    · obtain ⟨file', hpass⟩ := skipLegacyBlocksPass_large total (by omega)
        (hblocks block (List.mem_cons_self ..)) hrest
      refine ⟨file', ?_⟩
      rw [iterate, hpass]

theorem length_le_legacyCapacity (valid : (Member.legacy blocks).Valid) (hblock : block ∈ blocks) :
    block.length ≤ legacyCapacity := by
  obtain ⟨compress, input, hcapacity, rfl⟩ := valid
  obtain ⟨chunk, -, rfl⟩ := List.mem_map.mp hblock
  exact hcapacity chunk

theorem legacyEntry_unlisted (valid : (Member.legacy blocks).Valid)
    (hunlisted : ¬ (Member.legacy blocks).Listable) (hopen : file.eof = false)
    (hrest : file.rest = blocks.flatMap legacyBlock) :
    legacyEntry file buffer info ≠ some (.row file' buffer' info' frameInfo size) := by
  have hcount := length_le_flatMap_legacyBlock blocks
  have hfuel := Leaves.length_le ⟨hrest, fun _ => hopen⟩
  rw [← List.append_nil (blocks.flatMap legacyBlock)] at hrest
  by_cases hlarge : ∃ block ∈ blocks, legacyBlockSizeMax < block.length
  · obtain ⟨left, hskip⟩ := skipLegacy_large 0 (fun block => length_le_legacyCapacity valid) hlarge
      hopen hrest (show blocks.length < file.data.length + 2 by omega)
    rw [legacyEntry, skipLegacyBlocksData, hskip]
    rintro ⟨⟩
  · have hempty : blocks = [] := by
      by_contra hne
      refine hunlisted ⟨hne, fun block hblock => ?_⟩
      by_contra hsize
      exact hlarge ⟨block, hblock, by omega⟩
    subst hempty
    obtain ⟨left, hskip, -, -⟩ := skipLegacy_blocks 0 (fun block hblock => by cases hblock) hopen hrest
      (.inl rfl) (show [].length < file.data.length + 2 by simp)
    rw [legacyEntry, skipLegacyBlocksData, hskip]
    rintro ⟨⟩

/-! ## Empty blocks -/

/-- An empty block, where the walk stops. -/
theorem skipBlocksPass_empty (f : Frame) {p : Piece} {s : BlockSkip} (hopen : s.file.eof = false)
    (hdata : p.data = []) (hrest : s.file.rest = p.header ++ tail)
    (hmore : (if f.desc.contentChecksum then 4 else 0) < tail.length) :
    ∃ total file', skipBlocksPass f.desc.blockChecksum.toNat f.desc.contentChecksum.toNat s =
      .done (total, file') ∧ file'.eof = false ∧ file'.rest ≠ [] := by
  have hfread := File.fread_append hrest
  have hnext := File.rest_skip_append hrest
  rw [Piece.length_header] at hfread hnext
  have hvalue : leValue ((overwrite s.blockInfo 0 p.header).take 4) &&& 0x7FFFFFFF = 0 := by
    have htake := take_overwrite_zero s.blockInfo p.header
    rw [Piece.length_header] at htake
    rw [htake, Piece.header, hdata, leValue_leBytes (by split <;> decide)]
    exact and_maxInt (by decide) p.raw
  rw [skipBlocksPass, hfread]
  dsimp only
  rw [hvalue, if_neg (by rw [Piece.length_header]; omega), if_pos rfl]
  cases hflag : f.desc.contentChecksum with
  | false =>
    rw [hflag, if_neg (by decide)] at hmore
    refine ⟨_, _, if_neg (by decide), hopen, ?_⟩
    rw [hnext]
    exact List.length_pos_iff.mp hmore
  | true =>
    rw [hflag, if_pos rfl] at hmore
    have hseek : (s.file.skip 4).fseek 4 = (s.file.skip 4).skip 4 :=
      File.fseek_skip (f := s.file.skip 4) hopen 4
    refine ⟨_, _, if_pos (by decide), rfl, ?_⟩
    rw [hseek, File.rest_skip, hnext]
    apply List.length_pos_iff.mp
    rw [List.length_drop]
    omega

theorem length_suffix_le (f : Frame) (pieces : List Piece) :
    (if f.desc.contentChecksum then 4 else 0) < (f.body pieces).length := by
  induction pieces with
  | nil =>
    rw [Frame.body, List.length_append, length_leBytes, Frame.suffix]
    split <;> simp
  | cons p pieces ih =>
    simp only [Frame.body, List.length_append, Piece.length_header]
    omega

theorem skipBlocks_empty (f : Frame) {pieces : List Piece}
    (hsize : ∀ p ∈ pieces, p.data.length < 2 ^ 31) (hempty : ∃ p ∈ pieces, p.data = [])
    {s : BlockSkip} (hopen : s.file.eof = false) (hrest : s.file.rest = f.body pieces ++ [])
    (hfuel : pieces.length < fuel) :
    ∃ total file',
      iterate (fun s =>
      some (skipBlocksPass f.desc.blockChecksum.toNat f.desc.contentChecksum.toNat s)) fuel s =
      some (total, file') ∧ file'.eof = false ∧ file'.rest ≠ [] := by
  induction pieces generalizing s fuel with
  | nil =>
    obtain ⟨p, hp, -⟩ := hempty
    cases hp
  | cons p pieces ih =>
    obtain ⟨fuel, rfl⟩ := Nat.exists_eq_add_one_of_ne_zero (show fuel ≠ 0 by omega)
    have hnext := rest_skip_piece f hrest
    rw [Frame.body, List.append_nil] at hrest
    by_cases hdata : p.data = []
    · have hmore : (if f.desc.contentChecksum then 4 else 0) <
          (p.data ++ (f.footer p ++ f.body pieces)).length := by
        have hsuffix := length_suffix_le f pieces
        rw [List.length_append, List.length_append]
        omega
      obtain ⟨total, file', hpass, hleft⟩ := skipBlocksPass_empty f hopen hdata hrest hmore
      refine ⟨total, file', ?_, hleft⟩
      rw [iterate, hpass]
    · obtain ⟨blockInfo, hpass⟩ := skipBlocksPass_piece f hopen hdata
        (hsize p (List.mem_cons_self ..)) hrest
      have hempty' : ∃ q ∈ pieces, q.data = [] := by
        obtain ⟨q, hq, hnone⟩ := hempty
        cases hq with
        | head => exact absurd hnone hdata
        | tail _ hq => exact ⟨q, hq, hnone⟩
      have hcount : pieces.length < fuel := by
        rw [List.length_cons] at hfuel
        omega
      obtain ⟨total, file', hothers, hleft⟩ := ih
        (fun q hq => hsize q (List.mem_cons_of_mem _ hq)) hempty'
        (s := ⟨s.file.skip (4 + (p.data.length + f.footerSize)), blockInfo,
          s.totalBlocksSize + (4 + (p.data.length + f.footerSize))⟩) hopen hnext hcount
      refine ⟨total, file', ?_, hleft⟩
      rw [iterate, hpass]
      exact hothers

variable {dict : List UInt8} {f : Frame}

theorem lz4Entry_empty (valid : f.Valid dict) (hopen : file.eof = false)
    (hdict : f.desc.dictID.isSome → f.desc.contentSize.isSome)
    (hempty : ∃ p ∈ f.pieces, p.data = []) (hmagic : buffer.take 4 = leBytes 4 magicNumber)
    (hrest : file.rest = headerFields f.desc ++ (f.body f.pieces ++ []))
    (hentry : lz4Entry blockInfo file buffer info = some (.row file' buffer' info' frameInfo size))
    :
    file'.eof = false ∧ file'.rest ≠ [] := by
  obtain ⟨buffer₁, info₁, heq, hbody, -⟩ :=
    lz4Entry_header blockInfo info valid.blockSizeID hdict hmagic hrest
  have hsmall := valid.blockSize_le.2
  have hpos := length_le_body f f.pieces
  have hfuel := Leaves.length_le ⟨hbody, fun _ => hopen⟩
  rw [List.length_append] at hfuel
  have hsize (p : Piece) (hp : p ∈ f.pieces) : p.data.length < 2 ^ 31 := by
    have hle := stand_data_le valid.stand hp
    omega
  obtain ⟨total, left, hskip, hleft⟩ := skipBlocks_empty f hsize hempty
    (s := ⟨file.skip (f.desc.size - 4), blockInfo, 0⟩) hopen hbody
    (show f.pieces.length < (file.skip (f.desc.size - 4)).data.length + 2 by omega)
  have hdata : skipBlocksData blockInfo (file.skip (f.desc.size - 4))
      f.desc.info.blockChecksumFlag f.desc.info.contentChecksumFlag = some (total, left) := hskip
  rw [heq, lz4Row, hdata, Option.map_some] at hentry
  dsimp only at hentry
  split at hentry
  · cases hentry
  · split at hentry
    · cases hentry
      exact hleft
    · cases hentry
      exact hleft

/-! ## Headers of 11 bytes -/

/-- A walk that gets to the end of the file has counted all its bytes. -/
theorem skipBlocks_reach {blockChecksumFlag contentChecksumFlag total : Nat} {s : BlockSkip}
    (hopen : s.file.eof = false)
    (hrun : iterate (fun s => some (skipBlocksPass blockChecksumFlag contentChecksumFlag s)) fuel s
      = some (total, file')) (hend : file'.eof = true ∨ file'.rest = []) :
    s.totalBlocksSize + s.file.rest.length ≤ total := by
  induction fuel generalizing s with
  | zero => cases hrun
  | succ fuel ih =>
    have hlength : (s.file.fread 4).1.length = min 4 s.file.rest.length := List.length_take
    have hleft : (s.file.fread 4).2.rest.length = s.file.rest.length - 4 := by
      rw [File.rest_fread, List.length_drop]
    have heof : (s.file.fread 4).2.eof = decide ((s.file.fread 4).1.length < 4) := by
      show (s.file.eof || _) = _
      rw [hopen, Bool.false_or]
      rfl
    rw [iterate] at hrun
    unfold skipBlocksPass at hrun
    generalize hread : s.file.fread 4 = read at hrun hlength hleft heof
    obtain ⟨bytes, file⟩ := read
    dsimp only at hrun hlength hleft heof
    by_cases hnone : bytes.length = 0
    · rw [if_pos hnone, heof, if_pos (by rw [hnone]; decide)] at hrun
      cases hrun
      omega
    · rw [if_neg hnone] at hrun
      generalize leValue ((overwrite s.blockInfo 0 bytes).take 4) &&& 0x7FFFFFFF = next at hrun
      by_cases hnext : next = 0
      · rw [if_pos hnext] at hrun
        by_cases hflag : contentChecksumFlag ≠ 0
        · rw [if_pos hflag] at hrun
          cases hrun
          have hseek : (file.fseek 4).rest = file.rest.drop 4 := file.rest_fseek 4
          obtain hend | hend := hend
          · cases hend
          · have hempty := congrArg List.length (hseek.symm.trans hend)
            rw [List.length_drop, List.length_nil] at hempty
            omega
        · rw [if_neg hflag] at hrun
          cases hrun
          obtain hend | hend := hend
          · have hshort := of_decide_eq_true (heof.symm.trans hend)
            omega
          · rw [hend, List.length_nil] at hleft
            omega
      · rw [if_neg hnext] at hrun
        have hcounted := ih (s := ⟨_, _, _⟩) rfl hrun
        dsimp only at hcounted
        rw [File.rest_fseek, List.length_drop] at hcounted
        omega

/-- A check that was passed. -/
theorem ok_of_ite {ε α : Type} {c : Prop} [Decidable c] {e : ε} {x : Except ε α} {r : α}
    (h : (if c then .error e else x) = .ok r) : x = .ok r := by
  by_cases hc : c
  · rw [if_pos hc] at h
    cases h
  · rw [if_neg hc] at h
    exact h

/-- How much of a header is taken. -/
theorem decodeHeader_ok {d d' : Dctx} {src : List UInt8} {r : Nat}
    (hskippable : isSkippable (leValue (src.take 4)) = false)
    (hdecode : decodeHeader d src false = (d', .ok r)) :
    r = src.length ∨
      r = Lz4f.minFHSize + (if ((src.getD 4 0).toNat >>> 3) &&& 1 ≠ 0 then 8 else 0) +
        (if (src.getD 4 0).toNat &&& 1 ≠ 0 then 4 else 0) := by
  have hcode := congrArg Prod.snd hdecode
  unfold decodeHeader at hcode
  dsimp only at hcode
  rw [hskippable, if_neg (show ¬ false = true by decide)] at hcode
  simp only [apply_ite Prod.snd] at hcode
  generalize Lz4f.minFHSize + (if ((src.getD 4 0).toNat >>> 3) &&& 1 ≠ 0 then 8 else 0) +
    (if (src.getD 4 0).toNat &&& 1 ≠ 0 then 4 else 0) = n at hcode ⊢
  replace hcode := ok_of_ite (ok_of_ite (ok_of_ite (ok_of_ite hcode)))
  by_cases hshort : src.length < n
  · rw [if_pos hshort] at hcode
    exact .inl (Except.ok.inj hcode).symm
  · rw [if_neg hshort] at hcode
    replace hcode := ok_of_ite (ok_of_ite (ok_of_ite (ok_of_ite hcode)))
    exact .inr (Except.ok.inj hcode).symm

variable {desc : Descriptor}

/-- The size that a query about the first bytes of a header reports, whatever stands behind
them. -/
theorem getFrameInfo_srcRead {m : Mem} {q : Lz4f.Query} {code : Nat}
    (hfive : m.Holds 1 (desc.header.take 5))
    (hquery : getFrameInfo true 0 0 {} m 1 desc.size = some q) (hcode : q.code = .ok code) :
    q.srcRead = desc.size := by
  have hmin := desc.le_size
  have hlength : (m.bytes 1 desc.size).length = desc.size := Mem.length_bytes _ _ _
  have hfirst : (m.bytes 1 desc.size).take 5 = desc.header.take 5 := by
    have hsplit : m.bytes 1 desc.size = m.bytes 1 5 ++ m.bytes (1 + (5 : Nat)) (desc.size - 5) := by
      rw [← Mem.bytes_add, Nat.add_sub_cancel' (by omega)]
    have hbytes : m.bytes 1 5 = desc.header.take 5 := by
      have hfour : (desc.header.take 5).length = 5 := by
        rw [List.length_take, desc.length_header]
        omega
      exact hfive
    rw [hsplit, List.take_left' (Mem.length_bytes _ _ _), hbytes]
  have hmagic : leValue ((m.bytes 1 desc.size).take 4) = magicNumber := by
    have hless := congrArg (List.take 4) hfirst
    rw [List.take_take, List.take_take] at hless
    have hvalue := desc.leValue_magic []
    rw [List.append_nil] at hvalue
    rw [show (m.bytes 1 desc.size).take 4 = desc.header.take 4 from hless, hvalue]
  have hflg : (m.bytes 1 desc.size).getD 4 0 = desc.flg := by
    have hbyte := congrArg (fun bytes => bytes.getD 4 0) hfirst
    have hvalue := desc.getD_flg []
    rw [List.append_nil] at hvalue
    simp only [List.getD_eq_getElem?_getD, List.getElem?_take_of_lt (show 4 < 5 by omega)] at hbyte
    rw [List.getD_eq_getElem?_getD] at hvalue ⊢
    rw [hbyte, hvalue]
  unfold getFrameInfo at hquery
  rw [if_neg (by decide), if_neg (by decide), Lz4f.headerSize_header (by decide) (by omega) hfive]
    at hquery
  dsimp only at hquery
  rw [if_neg (by omega)] at hquery
  split at hquery
  · cases hquery
    cases hcode
  · rename_i d r hdecode
    cases hquery
    obtain hr | hr := decodeHeader_ok (by rw [hmagic]; decide) hdecode
    · exact hr.trans hlength
    · obtain ⟨-, -, -, -, hsized, -, hnamed⟩ := desc.flg_fields
      rw [hflg, hsized, hnamed, desc.size_flags] at hr
      exact hr

/-- The blocks of a frame whose header is not read to its end are counted from the wrong
position. -/
theorem lz4Entry_named (hnamed : desc.dictID.isSome = true)
    (hsized : desc.contentSize.isSome = false) (hopen : file.eof = false)
    (hmagic : buffer.take 4 = leBytes 4 magicNumber) (hrest : file.rest = headerFields desc ++ tail)
    (hentry : lz4Entry blockInfo file buffer info = some (.row file' buffer' info' frameInfo size))
    (hend : file'.eof = true ∨ file'.rest = []) : file.rest.length + 8 ≤ size := by
  have heleven : desc.size = 11 := by
    rw [Descriptor.size, hnamed, hsized]
    rfl
  obtain ⟨hfread, hsecond, hfirst, hfive⟩ := lz4Entry_start hmagic hrest
  have hthree : ((headerFields desc).take 3).length ≠ 0 := by
    rw [List.length_take, length_headerFields]
    omega
  have hlength : (file.skip 3).rest.length = file.rest.length - 3 := by
    rw [File.rest_skip, List.length_drop]
  have hextra : readExtra (file.skip 3) (overwrite buffer 4 ((headerFields desc).take 3)) desc.size =
      (false, overwrite buffer 4 ((headerFields desc).take 3), file.skip 3) := by
    rw [readExtra, if_neg (by omega)]
  rw [lz4Entry, hfread] at hentry
  dsimp only at hentry
  rw [if_neg hthree, Lz4f.headerSize_header (by decide) (by omega) hfive] at hentry
  dsimp only at hentry
  rw [hextra] at hentry
  dsimp only at hentry
  obtain ⟨q, hquery, hrow⟩ := Option.bind_eq_some_iff.mp hentry
  split at hrow
  · rename_i code frameInfo₁ hcode hinfo
    have hread := getFrameInfo_srcRead hfive hquery hcode
    obtain ⟨⟨total, left⟩, hskip, hrow⟩ := Option.map_eq_some_iff.mp hrow
    dsimp only at hrow
    split at hrow
    · cases hrow
    · split at hrow
      · cases hrow
        have hcounted := skipBlocks_reach (s := ⟨file.skip 3, blockInfo, 0⟩) hopen hskip hend
        dsimp only at hcounted
        omega
      · cases hrow
        have hcounted := skipBlocks_reach (s := ⟨file.skip 3, blockInfo, 0⟩) hopen hskip hend
        dsimp only at hcounted
        omega
  · cases hrow

/-! ## Files of one frame -/

theorem lz4_listable (valid : f.Valid dict) (hlists : Lists buffer blockInfo [.lz4 f]) :
    (Member.lz4 f).Listable := by
  obtain ⟨file, buffer₁, info, file', buffer', info', frameInfo, hopen, hrest, hbuffer, hentry,
    hend⟩ := hlists.single
  have hlength := congrArg List.length hrest
  rw [Member.payload, ← List.append_nil (f.body f.pieces)] at hrest
  have hdict : f.desc.dictID.isSome → f.desc.contentSize.isSome := by
    intro hnamed
    by_contra hsized
    have hcounted := lz4Entry_named hnamed (by simpa using hsized) hopen hbuffer hrest hentry hend
    omega
  refine ⟨hdict, fun p hp hempty => ?_⟩
  obtain ⟨hopen', hmore⟩ := lz4Entry_empty valid hopen hdict ⟨p, hp, hempty⟩ hbuffer hrest hentry
  obtain heof | hnone := hend
  · exact absurd (hopen'.symm.trans heof) (by decide)
  · exact hmore hnone

theorem skippable_listable {id : Fin 16} {content : List UInt8} (valid : content.length < 2 ^ 32)
    (hlists : Lists buffer blockInfo [.skippable id content]) :
    (Member.skippable id content).Listable := by
  obtain ⟨file, buffer₁, info, file', buffer', info', frameInfo, hopen, hrest, hbuffer, hentry,
    -⟩ := hlists.single
  have hfread := File.fread_append hrest
  have htake := take_overwrite_zero buffer₁ (leBytes 4 content.length)
  rw [length_leBytes] at hfread htake
  rw [Member.entry, skippableEntry, hfread] at hentry
  dsimp only at hentry
  rw [length_leBytes, if_neg (by omega), htake, leValue_leBytes (by omega)] at hentry
  simp only [Option.some.injEq, Entry.row.injEq] at hentry
  have hsize := hentry.2.2.2.2
  rw [Member.payload, List.length_append, length_leBytes] at hsize
  show content.length + 8 < 2 ^ 32
  omega

/-- A frame that makes up a file by itself is listed exactly if it can be. -/
theorem lists_single_iff (buffer blockInfo : List UInt8) (valid : m.Valid) :
    Lists buffer blockInfo [m] ↔ m.Listable := by
  constructor
  · intro hlists
    cases m with
    | lz4 f =>
      obtain ⟨dict, valid⟩ := valid
      exact lz4_listable valid hlists
    | skippable id content => exact skippable_listable valid hlists
    | legacy blocks =>
      obtain ⟨file, buffer₁, info, file', buffer', info', frameInfo, hopen, hrest, -, hentry,
        -⟩ := hlists.single
      by_contra hunlisted
      exact legacyEntry_unlisted valid hunlisted hopen hrest hentry
  · intro listable
    exact lists_of_listable buffer blockInfo (List.cons_ne_nil m [])
      (fun m' hm' => List.mem_singleton.mp hm' ▸ valid)
      (fun m' hm' => List.mem_singleton.mp hm' ▸ listable)

/-- A file of any number of frames is listed if each of its frames is listed by itself. -/
theorem listing_of_singles (buffer blockInfo : List UInt8) (members : List Member)
    (hne : members ≠ []) (hvalid : ∀ m ∈ members, m.Valid) :
    ((∀ m ∈ members, Lists buffer blockInfo [m]) ↔ ∀ m ∈ members, m.Listable) ∧
      ((∀ m ∈ members, m.Listable) → Lists buffer blockInfo members) :=
  ⟨forall₂_congr fun m hm => lists_single_iff buffer blockInfo (hvalid m hm),
    lists_of_listable buffer blockInfo hne hvalid⟩

/-- A frame without blocks. -/
def emptyFrame (contentSize : Option UInt64) (dictID : Option UInt32) : Frame :=
  ⟨{ Descriptor.plain with contentSize, dictID }, [], 0⟩

theorem emptyFrame_valid {contentSize : Option UInt64} (dictID : Option UInt32)
    (hsize : ∀ n, contentSize = some n → n = 0) : (emptyFrame contentSize dictID).Valid [] where
  blockSizeID := Nat.le_refl 4
  stand := trivial
  blockChecksum := by rintro ⟨⟩
  contentChecksum := by rintro ⟨⟩
  contentSize := by
    intro n hn
    rw [hsize n hn]
    rfl

/-- A file with a frame of each kind. -/
theorem listing_of_three :
    Lists [] [] [.lz4 (emptyFrame (some 0) (some 7)), .skippable 3 [1, 2], .legacy [[16, 5]]] := by
  refine (listing_of_singles [] [] _ (by simp) ?_).2 ?_
  · intro m hm
    simp only [List.mem_cons, List.not_mem_nil, or_false] at hm
    obtain rfl | rfl | rfl := hm
    · exact ⟨[], emptyFrame_valid _ (by simp)⟩
    · exact show 2 < 2 ^ 32 by decide
    · refine ⟨fun _ => [16, 5], [5], fun _ => ?_, by decide +kernel⟩
      exact show 2 ≤ 8421524 by decide
  · intro m hm
    simp only [List.mem_cons, List.not_mem_nil, or_false] at hm
    obtain rfl | rfl | rfl := hm
    · exact ⟨fun _ => rfl, by simp [emptyFrame]⟩
    · exact show 2 + 8 < 2 ^ 32 by decide
    · exact ⟨by simp, by simp [legacyBlockSizeMax]⟩

/-- A frame with a dictionary identifier and no content size, and what is written for an empty
input in the legacy format. -/
theorem listing_fails :
    ((Member.lz4 (emptyFrame none (some 1))).Valid ∧
      ¬ Lists (List.replicate 19 0) [] [.lz4 (emptyFrame none (some 1))]) ∧
    ((Member.legacy []).Valid ∧ ¬ Lists (List.replicate 19 0) [] [.legacy []]) := by
  have hvalid : (Member.lz4 (emptyFrame none (some 1))).Valid := ⟨[], emptyFrame_valid _ (by simp)⟩
  have hlegacy : (Member.legacy []).Valid := ⟨fun _ => [], [], by simp, rfl⟩
  refine ⟨⟨hvalid, ?_⟩, hlegacy, ?_⟩
  · rw [lists_single_iff _ _ hvalid]
    exact fun hlistable => absurd (hlistable.1 rfl) (by decide)
  · rw [lists_single_iff _ _ hlegacy]
    exact fun hlistable => hlistable.1 rfl

end Lz4.Programs
