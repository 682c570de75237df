import Lz4.Frame.Delivery

/-!
# Compressed blocks

A compressed block is decoded where it stands, in the input or in `tmpIn`, straight into the
output buffer if a whole block fits there and into the context's own buffer otherwise.
-/

namespace Lz4.Lz4f

open FlatMemory Machine

variable {c : DecompressCall} {f : Frame} {dict : List UInt8} {D : Int} {O B : Owned}
  {Kept : Int → Prop} {m₀ : Mem} {whole past after : List UInt8} {skip : Bool}

/-! ## Compressed blocks -/

variable {m : Mem} {size : Nat} {past : List UInt8} {start tmpOut : Int}

/-- The history of a compressed block ends where the context's dictionary does. -/
theorem Scene.recalls (scene : Scene c f dict D O B Kept m₀) {Still : Int → Prop}
    (hdict : m.Holds D dict) (h : Recollects f dict D B Still start size tmpOut m past) :
    Recalls m start size (f.extend dict past) := by
  unfold Frame.extend
  cases hmode : f.desc.independent with
  | true =>
    obtain ⟨hstart, hsize, -⟩ := h.independent hmode
    have hpast := (scene.past_dictionary 0 hdict).recalls
    rw [List.append_nil] at hpast
    rw [if_pos rfl, hstart, hsize]
    exact hpast
  | false => exact (h.linked hmode).recalls

/-- A range of addresses that avoids another one lies on one side of it. -/
theorem range_apart {low : Int} {n : Nat} (hsize : 0 < size) (hn : 0 < n)
    (h : ∀ a, start ≤ a → a < start + size → a < low ∨ low + n ≤ a) :
    start + size ≤ low ∨ low + n ≤ start := by
  by_contra hboth
  have hmeet := h (max start low) (by omega) (by omega)
  omega

variable {d : Dctx} {p : Piece}

/-- A compressed block is decoded, at a place that is apart from the block and the history. -/
theorem Piece.Stands.decode {history : List UInt8} {source dest : Int}
    (stands : p.Stands size history) (hraw : p.raw = false)
    (hrecalls : Recalls m d.dict d.dictSize history) (htext : m.Holds source p.data)
    (hsource : 0 < source) (hapart : source + p.data.length ≤ dest ∨ dest + size ≤ source)
    (hdict : 0 < d.dictSize → 0 < d.dict ∧ (d.dict + d.dictSize ≤ dest ∨ dest + size ≤ d.dict))
    (fastDecLoop : Bool) :
    ∃ h, decompressSafeUsingDict fastDecLoop ⟨m, []⟩ source dest p.data.length size d.blockDict.1
      d.blockDict.2 = some ((p.content.length : Int), h) ∧ h.mem.Holds dest p.content ∧ ∀ a, a <
      dest ∨ dest + size ≤ a → h.mem a = m a := by
  obtain ⟨b, conforming, hdata, hcontent⟩ := stands.decodes hraw
  obtain ⟨hend, hstart, hsize⟩ := blockDict_spec d
  have hroom := stands.content_le
  rw [← hdata] at htext hapart ⊢
  rw [← hcontent] at hroom ⊢
  refine decompressSafeUsingDict_recalls fastDecLoop conforming hrecalls.blockDict
    ⟨by omega, hapart, fun hpos => ?_, fun hpos => ?_⟩ htext hroom
  · omega
  · omega

/-- Where the dictionary of a context can be between two blocks. -/
theorem Scene.dict_place (scene : Scene c f dict D O B Kept m₀) {stop : Int}
    (h : Recollects f dict D B (Caller Kept c.dst stop) start size tmpOut m past) :
    start = B.tmpOut ∧ size ≤ B.size ∨ ∀ a, start ≤ a → a < start + size → Caller Kept c.dst stop
      a := by
  cases hmode : f.desc.independent with
  | true =>
    obtain ⟨hstart, hsize, -⟩ := h.independent hmode
    rw [hstart, hsize]
    exact Or.inr fun a hlow hhigh => Or.inl (scene.dict_kept a hlow hhigh)
  | false => exact (h.linked hmode).place

variable {outs : List UInt8} {rest : List Piece} {avail room : Nat} {srcPtr dstPtr selectedIn : Int}
  {got : Option Nat}

section

variable (scene : Scene c f dict D O B Kept m₀)

include scene

/-- **A block is decoded straight into the output buffer.** -/
theorem decodeToDst_agrees (place : Place)
    (underway : Underway f dict B d (past ++ outs) (.compressed p rest got))
    (recollects : Recollects f dict D B (Caller Kept c.dst dstPtr) d.dict d.dictSize d.tmpOut m
      (past ++ outs)) (hraw : p.raw = false)
    (stands : p.Stands f.blockSize (f.extend dict (past ++ outs)))
    (htarget : d.tmpInTarget = p.data.length)
    (io : Io c B f.blockSize m₀ whole (f.body rest ++ after) avail room outs m srcPtr dstPtr)
    (hskip : d.skipChecksum = skip) (htext : m.Holds selectedIn p.data) (hpos : 0 < selectedIn)
    (hsource : selectedIn + p.data.length ≤ c.dst ∨ c.dst + c.dstSize ≤ selectedIn)
    (hroom : f.blockSize ≤ room) :
    ∃ x, decodeToDst c ⟨d, m, srcPtr, dstPtr⟩ selectedIn = some x ∧
      Agrees c f dict D O B Kept m₀ whole past after skip x
      (Frame.turnFlush ⟨place, avail, room⟩ p rest 0) := by
  have hdst := io.dst
  have hsize := io.room
  have hlow := scene.sound.blockSize_le.1
  have hkb64 : kb64 = 65536 := rfl
  have hdict : 0 < d.dictSize →
      0 < d.dict ∧ (d.dict + d.dictSize ≤ dstPtr ∨ dstPtr + f.blockSize ≤ d.dict) := by
    intro hsome
    rcases scene.dict_place recollects with ⟨hstart, hfits⟩ | hstill
    · have hapart := scene.layout.dst_tmpOut
      have htmpOut := scene.layout.tmpOut_pos
      omega
    · refine ⟨(scene.still_apart (by omega) d.dict (hstill _ (by omega) (by omega))).1,
        range_apart hsome (by omega) fun a hlow hhigh => ?_⟩
      rcases hstill a hlow hhigh with hkept | hout
      · have hapart := scene.layout.kept_dst a hkept
        omega
      · omega
  obtain ⟨h, hdecode, hholds, hframe⟩ := stands.decode hraw
    (scene.recalls (scene.dictionary_holds io) recollects) htext hpos
    (show selectedIn + p.data.length ≤ dstPtr ∨ dstPtr + f.blockSize ≤ selectedIn by omega) hdict
    c.fastDecLoop
  have hcontent := stands.content_le
  unfold decodeToDst
  dsimp only
  rw [htarget, underway.maxBlockSize, hdecode]
  dsimp only
  rw [if_neg (by omega), Int.toNat_natCast, hholds]
  have hfar : ∀ a, (Caller Kept c.dst dstPtr a ∨ B.tmpOut ≤ a ∧ a < B.tmpOut + B.size) →
      m a = h.mem a := by
    intro a ha
    refine (hframe a ?_).symm
    rcases ha with (hkept | hout) | htmpOut
    · have hapart := scene.layout.kept_dst a hkept
      omega
    · omega
    · have hapart := scene.layout.dst_tmpOut
      omega
  have hrecollects := recollects.congr hfar fun a ha => ha
  have houtput : h.mem.Holds c.dst (outs ++ p.content) := by
    refine Mem.Holds.append (io.output.congr fun a hlow hhigh => (hframe a (by omega)).symm) ?_
    rw [← hdst]
    exact hholds
  have hcounts := underway.counts.produced underway.info p.content
  rw [hdst] at hrecollects
  obtain ⟨start, size, m', hupdate, hrecollects', hframe'⟩ := scene.deliver
    (d := d.produced p.content) underway.info underway.owned underway.size_ge hrecollects houtput
    (by rw [List.length_append]; omega)
  rw [← hdst] at hupdate
  rw [hupdate]
  refine ⟨_, rfl, ?_⟩
  have hturn : Frame.turnFlush ⟨place, avail, room⟩ p rest 0 =
      .next ⟨.blockHeader rest 0, avail, room - p.content.length⟩ := by
    unfold Frame.turnFlush
    dsimp only
    rw [Nat.sub_zero, Nat.min_eq_left (by omega), if_pos (Nat.zero_add _)]
  rw [hturn]
  have hjoin : past ++ outs ++ p.content = past ++ (outs ++ p.content) := List.append_assoc _ _ _
  refine .next (show LoopAt c f dict D O B Kept m₀ whole past after skip _ (outs ++ p.content) _ from
    ⟨.getBlockHeader rfl ⟨underway.info, underway.maxBlockSize, underway.owned, underway.size_ge,
      underway.header, ?_, ?_, ?_⟩ ?_, ?_, hskip⟩)
  · have hdecoded : past ++ outs ++ (Place.compressed p rest got).pending ++ p.content =
        past ++ (outs ++ p.content) ++ (Place.blockHeader rest 0).pending := by
      simp [Place.pending]
    rw [hdecoded] at hcounts
    exact ⟨hcounts.xxh, hcounts.remaining⟩
  · rw [underway.content, ← hjoin, List.append_assoc (past ++ outs)]
    rfl
  · have hstand := underway.stand
    rw [Place.current, hjoin] at hstand
    have hnone : past ++ (outs ++ p.content) ++ (Place.blockHeader rest 0).current =
        past ++ (outs ++ p.content) := List.append_nil _
    rw [hnone]
    exact hstand
  · have hstop : dstPtr + p.content.length = c.dst + (outs ++ p.content).length := by
      rw [List.length_append]
      omega
    change Recollects f dict D B (Caller Kept c.dst (dstPtr + p.content.length)) _ _ _ _ _
    rw [hstop]
    exact hrecollects'
  · refine io.produce scene.layout (show p.content.length ≤ room by omega)
      (hholds.congr fun a hlow hhigh => (hframe' a ?_).symm) fun a ha hout => ?_
    · have hapart := scene.layout.dst_tmpOut
      omega
    · exact (hframe' a ha.tmpOut).trans (hframe a (by omega))

/-- What `selectTmpOut` leaves: a place for the block and the history it refers to. -/
theorem Scene.select {stream : List UInt8} {place : Place}
    (underway : Underway f dict B d (past ++ outs) place)
    (recollects : Recollects f dict D B (Caller Kept c.dst dstPtr) d.dict d.dictSize d.tmpOut m
      (past ++ outs)) (io : Io c B f.blockSize m₀ whole stream avail room outs m srcPtr dstPtr) :
    ∃ size tmpOut m', selectTmpOut d m = ({ d with dictSize := size, tmpOut := tmpOut }, m') ∧
      Recalls m' d.dict size (f.extend dict (past ++ outs)) ∧ B.tmpOut ≤ tmpOut ∧
      tmpOut + f.blockSize ≤ B.tmpOut + B.size ∧
      (0 < size → 0 < d.dict ∧ (d.dict + size ≤ tmpOut ∨ tmpOut + f.blockSize ≤ d.dict)) ∧
      (∀ a, a < B.tmpOut ∨ B.tmpOut + B.size ≤ a → m' a = m a) ∧ ∀ m'' content, content.length ≤
      f.blockSize → m''.Holds tmpOut content →
      (∀ a, a < tmpOut ∨ tmpOut + f.blockSize ≤ a → m'' a = m' a) →
      Retains f dict D B (Caller Kept c.dst dstPtr) d.dict size tmpOut m'' (past ++ outs) content
      0 := by
  have hmode := f.desc.info_blockMode
  rw [← underway.info] at hmode
  have hlow := scene.sound.blockSize_le.1
  have hkb64 : kb64 = 65536 := rfl
  have hneeded := underway.size_ge
  have hstop : dstPtr ≤ c.dst + c.dstSize := by
    have hdst := io.dst
    have hroom := io.room
    omega
  have hstill := fun a ha => (scene.still_apart hstop a ha).2.tmpOut
  have htmpOut := scene.layout.tmpOut_pos
  cases hlinked : f.desc.independent with
  | true =>
    obtain ⟨hdict, hsize, hstart⟩ := recollects.independent hlinked
    have hnot : ¬ d.frameInfo.blockMode = 0 := by
      rw [hmode, hlinked]
      decide
    rw [Frame.bufferNeeded, hlinked, if_pos rfl] at hneeded
    refine ⟨d.dictSize, d.tmpOut, m, if_neg hnot,
      scene.recalls (scene.dictionary_holds io) recollects, by omega, by omega, fun hsome => ?_,
      fun a _ => rfl, fun m'' content _ hholds _ => ⟨fun _ => ?_, fun hfalse => ?_⟩⟩
    · rw [hdict, hsize] at *
      refine ⟨scene.layout.kept_pos D (scene.dict_kept D (by omega) (by omega)),
        range_apart hsome (by omega) fun a hlow hhigh => ?_⟩
      have hapart := scene.layout.kept_tmpOut a (scene.dict_kept a hlow hhigh)
      omega
    · rw [hstart] at hholds
      exact ⟨hdict, hsize, hstart, hholds⟩
    · rw [hlinked] at hfalse
      exact absurd hfalse (by decide)
  | false =>
    rw [Frame.bufferNeeded, hlinked, if_neg (by decide)] at hneeded
    obtain ⟨hselected, ⟨size, tmpOut, hfields⟩, hframe⟩ := selectTmpOut_past
      underway.tmpOutBuffer (by omega) (hmode.2 hlinked) (recollects.linked hlinked)
    rw [hfields] at hselected
    dsimp only at hselected
    have hextend : f.extend dict (past ++ outs) = dict ++ (past ++ outs) := by
      rw [Frame.extend, hlinked, if_neg (by decide)]
    obtain ⟨preserve, hpreserve, hlimit, -⟩ := hselected.exists_preserve
    refine ⟨size, tmpOut, _, by rw [← hfields], ?_, by omega, by omega, fun hsome => ?_, hframe,
      fun m'' content hcontent hholds hkept => ⟨fun htrue => ?_, fun _ => ?_⟩⟩
    · rw [hextend]
      exact hselected.recalls
    · rcases hselected.place with ⟨hstart, hend⟩ | hplace
      · omega
      · refine ⟨(scene.still_apart hstop d.dict (hplace _ (by omega) (by omega))).1,
          range_apart hsome (by omega) fun a hlow hhigh => ?_⟩
        have hapart := hstill a (hplace a hlow hhigh)
        omega
    · rw [hlinked] at htrue
      exact absurd htrue (by decide)
    · exact hselected.pending hstill (by omega) hcontent hholds hkept

/-- **A block is decoded into the context's buffer, and delivered as far as there is room.** -/
theorem decodeToTmp_agrees (place : Place)
    (underway : Underway f dict B d (past ++ outs) (.compressed p rest got))
    (recollects : Recollects f dict D B (Caller Kept c.dst dstPtr) d.dict d.dictSize d.tmpOut m
      (past ++ outs)) (hraw : p.raw = false)
    (stands : p.Stands f.blockSize (f.extend dict (past ++ outs)))
    (htarget : d.tmpInTarget = p.data.length)
    (io : Io c B f.blockSize m₀ whole (f.body rest ++ after) avail room outs m srcPtr dstPtr)
    (hskip : d.skipChecksum = skip) (htext : m.Holds selectedIn p.data) (hpos : 0 < selectedIn)
    (hsource : selectedIn + p.data.length ≤ B.tmpOut ∨ B.tmpOut + B.size ≤ selectedIn) :
    ∃ x, decodeToTmp c ⟨d, m, srcPtr, dstPtr⟩ selectedIn = some x ∧
      Agrees c f dict D O B Kept m₀ whole past after skip x
      (Frame.turnFlush ⟨place, avail, room⟩ p rest 0) := by
  obtain ⟨size, tmpOut, m', hselect, hrecalls, hlow, hhigh, hdict, hframe, hretains⟩ :=
    scene.select underway recollects io
  have htext' : m'.Holds selectedIn p.data :=
    htext.congr fun a hlow hhigh => (hframe a (by omega)).symm
  obtain ⟨d', hd'⟩ : ∃ d', d' = { d with dictSize := size, tmpOut := tmpOut } := ⟨_, rfl⟩
  have hunderway : Underway f dict B d' (past ++ outs) (.compressed p rest got) := by
    rw [hd']
    exact underway.move ⟨rfl, rfl, rfl, rfl, rfl, rfl, id⟩ rfl rfl underway.stand
  have hfields : d'.dict = d.dict ∧ d'.dictSize = size ∧ d'.tmpOut = tmpOut ∧
      d'.tmpInTarget = d.tmpInTarget ∧ d'.skipChecksum = d.skipChecksum := by
    rw [hd']
    exact ⟨rfl, rfl, rfl, rfl, rfl⟩
  rw [← hd'] at hselect
  obtain ⟨hstart, rfl, rfl, htarget', hskip'⟩ := hfields
  rw [← hstart] at hrecalls hdict hretains
  obtain ⟨h, hdecode, hholds, hframe'⟩ := stands.decode hraw hrecalls htext' hpos
    (show selectedIn + p.data.length ≤ d'.tmpOut ∨ d'.tmpOut + f.blockSize ≤ selectedIn by omega)
    hdict c.fastDecLoop
  unfold decodeToTmp
  rw [hselect]
  dsimp only
  rw [htarget', htarget, hunderway.maxBlockSize, hdecode]
  dsimp only
  rw [if_neg (by omega), Int.toNat_natCast, hholds]
  have hcounts := hunderway.counts.produced hunderway.info p.content
  refine ⟨_, rfl, flushOut_agrees scene place ⟨.flushOut (past ++ outs) rfl ⟨hunderway.info,
    hunderway.maxBlockSize, hunderway.owned, hunderway.size_ge, hunderway.header, ?_,
    hunderway.content, hunderway.stand⟩ ?_ ?_ rfl rfl (Nat.zero_le _) stands.content_le, ?_,
    hskip'.trans hskip⟩⟩
  · have hdecoded : past ++ outs ++ (Place.compressed p rest got).pending ++ p.content =
        past ++ outs ++ (Place.flush p rest 0).pending := by
      simp [Place.pending]
    rw [hdecoded] at hcounts
    exact ⟨hcounts.xxh, hcounts.remaining⟩
  · rw [List.take_zero, List.append_nil]
  · exact hretains h.mem p.content stands.content_le hholds hframe'
  · refine io.congr scene.layout fun a ha => ?_
    have hforeign := ha.tmpOut
    exact (hframe' a (by omega)).trans (hframe a hforeign)

/-- A place for a compressed block that is apart from everything the decoder writes. -/
structure Selects (c : DecompressCall) (B : Owned) (m : Mem) (selectedIn : Int)
    (text : List UInt8) : Prop where
  holds : m.Holds selectedIn text
  pos : 0 < selectedIn
  dst : selectedIn + text.length ≤ c.dst ∨ c.dst + c.dstSize ≤ selectedIn
  tmpOut : selectedIn + text.length ≤ B.tmpOut ∨ B.tmpOut + B.size ≤ selectedIn

/-- **A whole compressed block.**  Its checksum is verified whether or not checksums are to be
skipped. -/
theorem decodeBlock_agrees (place : Place)
    (underway : Underway f dict B d (past ++ outs) (.compressed p rest got))
    (recollects : Recollects f dict D B (Caller Kept c.dst dstPtr) d.dict d.dictSize d.tmpOut m
      (past ++ outs)) (hraw : p.raw = false)
    (stands : p.Stands f.blockSize (f.extend dict (past ++ outs)))
    (htarget : d.tmpInTarget = p.data.length + f.footerSize)
    (io : Io c B f.blockSize m₀ whole (f.body rest ++ after) avail room outs m srcPtr dstPtr)
    (hskip : d.skipChecksum = skip) (selects : Selects c B m selectedIn (p.data ++ f.footer p)) :
    ∃ x, decodeBlock c ⟨d, m, srcPtr, dstPtr⟩ selectedIn = some x ∧
      Agrees c f dict D O B Kept m₀ whole past after skip x (if f.desc.blockChecksum ∧ p.checksum ≠
      xxh32 p.data 0 then .done (.fail .blockChecksum_invalid) else Frame.turnFlush ⟨place, avail,
      room⟩ p rest 0) := by
  obtain ⟨hholds, hpos, hdst, htmpOut⟩ := selects
  rw [List.length_append, f.length_footer] at hdst htmpOut
  obtain ⟨htext, hfooter⟩ := Mem.holds_append.1 hholds
  have hflag := f.desc.info_blockChecksum
  rw [← underway.info] at hflag
  have hsize : (if d.frameInfo.blockChecksumFlag ≠ 0 then d.tmpInTarget - 4 else d.tmpInTarget) =
      p.data.length := by
    rw [htarget, Frame.footerSize]
    simp only [hflag]
    split <;> omega
  have hcheck : (d.frameInfo.blockChecksumFlag ≠ 0 ∧
      readLE32 (m.bytes (selectedIn + p.data.length) 4) ≠ xxh32 (m.bytes selectedIn p.data.length) 0) ↔
      (f.desc.blockChecksum ∧ p.checksum ≠ xxh32 p.data 0) := by
    rw [hflag]
    refine and_congr_right fun hset => ?_
    rw [f.footer_eq hset, Mem.Holds, length_leBytes] at hfooter
    rw [hfooter, readLE32_leBytes, htext]
  unfold decodeBlock
  dsimp only
  rw [hsize]
  have hunderway : Underway f dict B { d with tmpInTarget := p.data.length } (past ++ outs)
      (.compressed p rest got) :=
    underway.move ⟨rfl, rfl, rfl, rfl, rfl, rfl, id⟩ rfl rfl underway.stand
  by_cases hbad : f.desc.blockChecksum ∧ p.checksum ≠ xxh32 p.data 0
  · rw [if_pos (hcheck.2 hbad), if_pos hbad]
    exact ⟨_, rfl, .fail⟩
  · rw [if_neg (fun h => hbad (hcheck.1 h)), if_neg hbad, io.room_eq scene.layout]
    have hmax := underway.maxBlockSize
    by_cases hdirect : d.maxBlockSize ≤ room ∧ ¬ (d.dict ≠ 0 ∧ d.dict + d.dictSize = d.tmpOut)
    · rw [if_pos hdirect]
      exact decodeToDst_agrees scene place hunderway recollects hraw stands rfl io hskip htext hpos
        (by omega) (by omega)
    · rw [if_neg hdirect]
      exact decodeToTmp_agrees scene place hunderway recollects hraw stands rfl io hskip htext hpos
        (by omega)

end

/-- The turn of the reader at a compressed block that is at hand as a whole. -/
theorem turnStored_full (f : Frame) (place : Place) (p : Piece) (rest : List Piece) (room : Nat)
    {got : Nat} (hgot : got ≤ p.data.length + f.footerSize)
    (havail : p.data.length + f.footerSize - got ≤ avail) :
    ∃ place', f.turnStored ⟨place, avail, room⟩ p rest got = if f.desc.blockChecksum ∧ p.checksum ≠
      xxh32 p.data 0 then .done (.fail .blockChecksum_invalid) else Frame.turnFlush ⟨place',
      avail - (p.data.length + f.footerSize - got), room⟩ p rest 0 := by
  unfold Frame.turnStored
  dsimp only
  rw [Nat.min_eq_left havail, if_neg (by omega)]
  exact ⟨_, rfl⟩

/-- `dstage_storeCBlock` -/
theorem storeCBlock_agrees (scene : Scene c f dict D O B Kept m₀) {got : Nat}
    (h : LoopAt c f dict D O B Kept m₀ whole past after skip ⟨.compressed p rest (some got), avail,
      room⟩ outs ⟨d, m, srcPtr, dstPtr⟩) :
    ∃ x, storeCBlock c ⟨d, m, srcPtr, dstPtr⟩ = some x ∧
      Agrees c f dict D O B Kept m₀ whole past after skip x
      (f.turnStored ⟨.compressed p rest (some got), avail, room⟩ p rest got) := by
  obtain ⟨hplace, io, hskip⟩ := h
  cases hplace with
  | storeCBlock hstage underway recollects hraw stands htarget hsize hgot hbytes =>
  dsimp only at hstage underway recollects htarget hsize hbytes io hskip
  have hlength : (p.data ++ f.footer p).length = p.data.length + f.footerSize := by
    rw [List.length_append, f.length_footer]
  have hfooter : f.footerSize ≤ 4 := by
    unfold Frame.footerSize
    split <;> omega
  have hdata := stands.data_le
  have hstop : dstPtr ≤ c.dst + c.dstSize := by
    have hdst := io.dst
    have hroom := io.room
    omega
  rw [Frame.unread, Option.getD_some, List.append_assoc] at io
  obtain ⟨n, hn⟩ : ∃ n, n = min (p.data.length + f.footerSize - got) avail := ⟨_, rfl⟩
  obtain ⟨m', hstore, hheld, hio, hframe⟩ := io.store underway.tmpIn hsize scene.layout hbytes
    (show n ≤ avail by omega) (by omega) (by omega)
  have hrecollects := recollects.congr
    (fun a ha => (hframe a (scene.history_apart hstop a ha)).symm) (fun a ha => ha)
  unfold storeCBlock
  rw [io.left, htarget, hsize, ← hn, hstore]
  rw [htarget]
  by_cases hmore : got + n < p.data.length + f.footerSize
  · have hturn : f.turnStored ⟨.compressed p rest (some got), avail, room⟩ p rest got =
        .done (.stop ⟨.compressed p rest (some (got + n)), avail - n, room⟩
          (p.data.length + f.footerSize - (got + n) + f.footerSize + bhSize)) := by
      unfold Frame.turnStored
      dsimp only
      rw [← hn, if_pos hmore]
    rw [if_pos hmore, hturn, crcSize_eq underway.info]
    refine ⟨_, rfl, .stop ⟨.storeCBlock hstage (underway.move ⟨rfl, rfl, rfl, rfl, rfl, rfl, id⟩
      rfl rfl underway.stand) hrecollects hraw stands rfl rfl hmore hheld, ?_, hskip⟩⟩
    rw [Frame.unread, Option.getD_some, List.append_assoc]
    exact hio
  · obtain ⟨place, hturn⟩ := turnStored_full f (.compressed p rest (some got)) p rest room
      (show got ≤ p.data.length + f.footerSize by omega)
      (show p.data.length + f.footerSize - got ≤ avail by omega)
    have hall : got + n = p.data.length + f.footerSize := by omega
    rw [hall, List.take_of_length_le (by omega)] at hheld
    rw [hall, List.drop_eq_nil_of_le (by omega), List.nil_append] at hio
    rw [if_neg hmore, hturn, show p.data.length + f.footerSize - got = n by omega]
    refine decodeBlock_agrees scene place (underway.move ⟨rfl, rfl, rfl, rfl, rfl, rfl, id⟩ rfl rfl
      underway.stand) hrecollects hraw stands rfl hio hskip ?_
    rw [underway.tmpIn]
    have htmpIn := scene.layout.dst_tmpIn
    have hblocks := scene.layout.blocks_apart
    exact ⟨hheld, scene.layout.tmpIn_pos, by omega, by omega⟩

/-- `dstage_getCBlock` -/
theorem getCBlock_agrees (scene : Scene c f dict D O B Kept m₀)
    (h : LoopAt c f dict D O B Kept m₀ whole past after skip ⟨.compressed p rest none, avail,
      room⟩ outs ⟨d, m, srcPtr, dstPtr⟩) :
    ∃ x, getCBlock c ⟨d, m, srcPtr, dstPtr⟩ = some x ∧
      Agrees c f dict D O B Kept m₀ whole past after skip x
      (f.turnCompressed ⟨.compressed p rest none, avail, room⟩ p rest none) := by
  obtain ⟨hplace, io, hskip⟩ := h
  cases hplace with
  | getCBlock hstage underway recollects hraw stands htarget =>
  dsimp only at hstage underway recollects htarget io hskip
  have hlength : (p.data ++ f.footer p).length = p.data.length + f.footerSize := by
    rw [List.length_append, f.length_footer]
  have hpos := stands.data_pos hraw
  unfold getCBlock Frame.turnCompressed
  dsimp only
  rw [io.left, htarget]
  by_cases hshort : avail < p.data.length + f.footerSize
  · rw [if_pos hshort, if_pos hshort]
    exact ⟨_, rfl, .next ⟨.storeCBlock rfl (underway.move ⟨rfl, rfl, rfl, rfl, rfl, rfl, id⟩ rfl rfl
      underway.stand) recollects hraw stands rfl rfl (by omega) (Mem.holds_nil _ _), io, hskip⟩⟩
  · obtain ⟨place, hturn⟩ := turnStored_full f (.compressed p rest none) p rest room
      (Nat.zero_le (p.data.length + f.footerSize))
      (show p.data.length + f.footerSize - 0 ≤ avail by omega)
    rw [Frame.unread, Option.getD_none, List.drop_zero, List.append_assoc] at io
    have hinput := io.bytes (show p.data.length + f.footerSize ≤ avail by omega)
    have hio := io.consume (show p.data.length + f.footerSize ≤ avail by omega)
    rw [List.take_left' hlength] at hinput
    rw [List.drop_left' hlength] at hio
    rw [if_neg hshort, if_neg hshort, hturn, Nat.sub_zero]
    refine decodeBlock_agrees scene place underway recollects hraw stands htarget hio hskip ?_
    have hsrc := io.src
    have havail := io.avail_le
    have hsource := scene.layout.src_pos
    have hdst := scene.layout.src_dst
    have htmpOut := scene.layout.src_tmpOut
    refine ⟨?_, by omega, by omega, by omega⟩
    rw [← hinput]
    exact Mem.holds_bytes _ _ _

end Lz4.Lz4f
