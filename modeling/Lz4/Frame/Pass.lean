import Lz4.Frame.Blocks

/-!
# A pass of the frame decompressor

The stages at the end of a frame, and all stages together: one pass of the loop is one turn of
the abstract reader.
-/

namespace Lz4.Lz4f

open FlatMemory Machine

variable {c : DecompressCall} {f : Frame} {dict : List UInt8} {D : Int} {O B : Owned}
  {Kept : Int → Prop} {m₀ : Mem} {whole past after : List UInt8} {skip : Bool}

/-! ## The end of the frame -/

theorem Frame.suffix_eq (f : Frame) (hflag : f.desc.contentChecksum = true) :
    f.suffix = leBytes 4 f.checksum.toNat := by
  rw [Frame.suffix, hflag, if_pos rfl]

/-- A context that is reset waits for the next frame. -/
theorem idle_reset (d : Dctx) (hheader : d.header.length = 19) : Idle d.resetDecompressionContext :=
  ⟨rfl, rfl, rfl, rfl, rfl, hheader⟩

variable {d : Dctx} {got : Nat} {past : List UInt8}

theorem Underway.all_delivered (underway : Underway f dict B d past (.suffix got)) :
    past = f.content := by
  have hcontent := underway.content
  have hnone : f.owed (.suffix got) = [] := rfl
  rw [hnone, List.append_nil] at hcontent
  exact hcontent.symm

/-- The counter of the context is zero iff the declared size is the true one. -/
theorem Underway.remaining_iff (underway : Underway f dict B d past (.suffix got)) :
    d.frameRemainingSize = 0 ↔ f.SizeMatches := by
  have hremaining := underway.counts.remaining
  have hnone : past ++ (Place.suffix got).pending = f.content := by
    rw [← underway.all_delivered]
    exact List.append_nil _
  rw [hremaining, Frame.SizeMatches]
  by_cases hzero : f.desc.contentSize.getD 0 = 0
  · simp [hzero]
  · grind

variable {outs : List UInt8} {m : Mem} {srcPtr dstPtr : Int} {avail room : Nat}

/-- The verdict on the content of the frame. -/
theorem checkSuffix_agrees {selectedIn : Int}
    (underway : Underway f dict B d (past ++ outs) (.suffix got))
    (hflag : f.desc.contentChecksum = true)
    (io : Io c B f.blockSize m₀ whole after avail room outs m srcPtr dstPtr)
    (hskip : d.skipChecksum = skip) (hfield : m.bytes selectedIn 4 = f.suffix) :
    Agrees c f dict D O B Kept m₀ whole past after skip
      (checkSuffix ⟨d, m, srcPtr, dstPtr⟩ selectedIn) (if ¬ skip ∧ f.checksum ≠
      xxh32 f.content 0 then .done (.fail .contentChecksum_invalid) else .done
      (.stop ⟨.finished, avail, room⟩ 0)) := by
  have hover : Agrees c f dict D O B Kept m₀ whole past after skip
      (.done (.stop ⟨d.resetDecompressionContext, m, srcPtr, dstPtr⟩ 0))
      (.done (.stop ⟨.finished, avail, room⟩ 0)) :=
    .finished (idle_reset d underway.header) underway.all_delivered io
  unfold checkSuffix
  rw [hfield, f.suffix_eq hflag, readLE32_leBytes, hskip]
  cases skip with
  | true => exact hover
  | false =>
    have hxxh := underway.counts.xxh hflag hskip
    have hnone : past ++ outs ++ (Place.suffix got).pending = f.content := by
      rw [← underway.all_delivered]
      exact List.append_nil _
    rw [hnone] at hxxh
    rw [hxxh, Xxh32State.digest_after]
    by_cases hbad : f.checksum ≠ xxh32 f.content 0
    · rw [if_pos ⟨by decide, hbad⟩, if_pos ⟨by decide, hbad⟩]
      exact .fail
    · rw [if_neg fun h => hbad h.2, if_neg fun h => hbad h.2]
      exact hover

/-- The turn of the reader at a checksum of the content. -/
theorem Frame.turnSuffix_eq (f : Frame) (hflag : f.desc.contentChecksum = true)
    (hmatches : f.SizeMatches) (skip : Bool) (place : Place) (avail room got : Nat) :
    f.turnSuffix skip ⟨place, avail, room⟩ got =
      if got + min (4 - got) avail < 4 then
        .done (.stop ⟨.suffix (got + min (4 - got) avail), avail - min (4 - got) avail, room⟩
          (4 - (got + min (4 - got) avail)))
      else if ¬ skip ∧ f.checksum ≠ xxh32 f.content 0 then .done (.fail .contentChecksum_invalid)
      else .done (.stop ⟨.finished, avail - min (4 - got) avail, room⟩ 0) := by
  unfold Frame.turnSuffix
  rw [if_neg (not_not.2 hmatches), if_neg (not_not.2 hflag)]

section

variable (scene : Scene c f dict D O B Kept m₀)

include scene

/-- `dstage_storeSuffix` -/
theorem storeSuffix_agrees (place : Place) (hstage : d.dStage = .storeSuffix)
    (underway : Underway f dict B d (past ++ outs) (.suffix got))
    (hflag : f.desc.contentChecksum = true) (hmatches : f.SizeMatches)
    (io : Io c B f.blockSize m₀ whole (f.suffix.drop got ++ after) avail room outs m srcPtr dstPtr)
    (hskip : d.skipChecksum = skip) (hsize : d.tmpInSize = got) (hgot : got < 4)
    (hbytes : m.Holds B.tmpIn (f.suffix.take got)) :
    Agrees c f dict D O B Kept m₀ whole past after skip (storeSuffix c ⟨d, m, srcPtr, dstPtr⟩)
      (f.turnSuffix skip ⟨place, avail, room⟩ got) := by
  have hlength : f.suffix.length = 4 := by
    rw [f.suffix_eq hflag, length_leBytes]
  obtain ⟨n, hn⟩ : ∃ n, n = min (4 - got) avail := ⟨_, rfl⟩
  obtain ⟨m', hstore, hheld, hio, -⟩ := io.store underway.tmpIn hsize scene.layout hbytes
    (show n ≤ avail by omega) (by omega) (by omega)
  have hunderway : Underway f dict B { d with tmpInSize := got + n } (past ++ outs)
      (.suffix (got + n)) :=
    underway.move ⟨rfl, rfl, rfl, rfl, rfl, rfl, id⟩ rfl rfl underway.stand
  rw [f.turnSuffix_eq hflag hmatches, ← hn]
  unfold storeSuffix
  rw [io.left, hsize, ← hn, hstore]
  by_cases hmore : got + n < 4
  · rw [if_pos hmore, if_pos hmore]
    exact .stop ⟨.storeSuffix hstage hunderway hflag hmatches rfl hmore hheld, hio, hskip⟩
  · rw [if_neg hmore, if_neg hmore]
    have hall : got + n = 4 := by omega
    rw [hall, List.drop_eq_nil_of_le (by omega), List.nil_append] at hio
    rw [hall, List.take_of_length_le (by omega), Mem.Holds, hlength] at hheld
    refine checkSuffix_agrees hunderway hflag hio hskip ?_
    rw [underway.tmpIn]
    exact hheld

/-- `dstage_getSuffix` -/
theorem getSuffix_agrees (place : Place) (underway : Underway f dict B d (past ++ outs) (.suffix 0))
    (io : Io c B f.blockSize m₀ whole (f.suffix ++ after) avail room outs m srcPtr dstPtr)
    (hskip : d.skipChecksum = skip) :
    Agrees c f dict D O B Kept m₀ whole past after skip (getSuffix c ⟨d, m, srcPtr, dstPtr⟩)
      (f.turnSuffix skip ⟨place, avail, room⟩ 0) := by
  have hcontentFlag := f.desc.info_contentChecksum
  rw [← underway.info] at hcontentFlag
  unfold getSuffix
  rw [io.left]
  by_cases hmatches : f.SizeMatches
  · have hzero := underway.remaining_iff.2 hmatches
    rw [if_neg (not_not.2 hzero)]
    cases hflag : f.desc.contentChecksum with
    | false =>
      have hnone : f.suffix = [] := by
        rw [Frame.suffix, hflag, if_neg (by decide)]
      rw [hnone, List.nil_append] at io
      have hclear : d.frameInfo.contentChecksumFlag = 0 := by
        rw [hflag] at hcontentFlag
        simpa using hcontentFlag
      unfold Frame.turnSuffix
      rw [if_pos hclear, if_neg (not_not.2 hmatches), if_pos (by rw [hflag]; decide)]
      exact .finished (idle_reset d underway.header) underway.all_delivered io
    | true =>
      have hset := hcontentFlag.2 hflag
      rw [if_neg hset]
      by_cases hshort : avail < 4
      · rw [if_pos hshort]
        exact storeSuffix_agrees scene place rfl
          (underway.move ⟨rfl, rfl, rfl, rfl, rfl, rfl, id⟩ rfl rfl underway.stand) hflag hmatches
          io hskip rfl (by omega) (Mem.holds_nil _ _)
      · have hlength : f.suffix.length = 4 := by
          rw [f.suffix_eq hflag, length_leBytes]
        have hfield := io.bytes (show 4 ≤ avail by omega)
        have hio := io.consume (show 4 ≤ avail by omega)
        rw [List.take_left' hlength] at hfield
        rw [List.drop_left' hlength] at hio
        rw [if_neg hshort, f.turnSuffix_eq hflag hmatches, Nat.min_eq_left (by omega),
          if_neg (by omega), Nat.sub_zero]
        exact checkSuffix_agrees underway hflag hio hskip hfield
  · unfold Frame.turnSuffix
    rw [if_pos fun h => hmatches (underway.remaining_iff.1 h), if_pos hmatches]
    exact .fail

/-! ## A pass -/

/-- **One pass of the loop is one turn of the reader.** -/
theorem pass_agrees {r : Reader} {s : Loop}
    (h : LoopAt c f dict D O B Kept m₀ whole past after skip r outs s) :
    ∃ x, pass c s = some x ∧ Agrees c f dict D O B Kept m₀ whole past after skip x (f.turn skip
      r) := by
  obtain ⟨place, avail, room⟩ := r
  have hio := h.io
  have hskip := h.skip_eq
  have hplace := h.place
  unfold pass Frame.turn
  cases hplace with
  | getFrameHeader hstage starting hremaining =>
    rw [Frame.unread, List.drop_zero, List.append_assoc] at hio
    rw [hstage]
    exact ⟨_, rfl, getFrameHeader_agrees scene hstage starting hremaining hio hskip⟩
  | storeFrameHeader hstage starting hremaining hsize htarget hpos hgot hbytes =>
    rw [Frame.unread, List.append_assoc] at hio
    rw [hstage]
    exact ⟨_, rfl, storeFrameHeader_agrees scene _ hstage starting hremaining hio hskip hsize
      htarget (Or.inl hpos) hgot hbytes⟩
  | init hstage starting hinfo hmax hremaining =>
    rw [hstage]
    exact ⟨_, rfl, init_agrees scene starting hinfo hmax hremaining hio hskip⟩
  | getBlockHeader hstage underway recollects =>
    rw [hstage]
    exact ⟨_, rfl, getBlockHeader_agrees scene _ underway recollects hio hskip⟩
  | storeBlockHeader hstage underway recollects hsize hgot hbytes =>
    rw [hstage]
    exact ⟨_, rfl, storeBlockHeader_agrees scene _ hstage underway recollects hio hskip hsize hgot
      hbytes⟩
  | copyDirect hstage =>
    rw [hstage]
    exact ⟨_, rfl, copyDirect_agrees scene h⟩
  | getBlockChecksum hstage =>
    rw [hstage]
    exact ⟨_, rfl, getBlockChecksum_agrees h⟩
  | getCBlock hstage =>
    rw [hstage]
    exact getCBlock_agrees scene h
  | storeCBlock hstage =>
    rw [hstage]
    exact storeCBlock_agrees scene h
  | flushOut before hstage =>
    rw [hstage]
    exact ⟨_, rfl, flushOut_agrees scene _ h⟩
  | getSuffix hstage underway =>
    rw [hstage]
    exact ⟨_, rfl, getSuffix_agrees scene _ underway hio hskip⟩
  | storeSuffix hstage underway hflag hmatches hsize hgot hbytes =>
    rw [hstage]
    exact ⟨_, rfl, storeSuffix_agrees scene _ hstage underway hflag hmatches hio hskip hsize hgot
      hbytes⟩

end

end Lz4.Lz4f
