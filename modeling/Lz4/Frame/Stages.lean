import Lz4.Frame.Invariant

/-!
# The stages of the frame decompressor

One lemma for each stage: a pass of the loop does what a turn of the abstract reader does.
`LoopAt` relates the two in the middle of a call, and `Agrees` the results of a pass and of a
turn.  Everything a pass can do to memory is a store into `tmpIn`, a move within the context's
buffer, or text written at the output pointer, and each of these has its lemma.
-/

namespace Lz4.Lz4f

open FlatMemory Machine

/-- What holds throughout a call: the frame and its dictionary, the buffers, and which blocks
the context is going to use. -/
structure Scene (c : DecompressCall) (f : Frame) (dict : List UInt8) (D : Int) (O B : Owned)
    (Kept : Int → Prop) (m₀ : Mem) : Prop where
  sound : f.Sound dict
  layout : Layout c B f.blockSize Kept
  dictionary : m₀.Holds D dict
  dict_kept : ∀ a, D ≤ a → a < D + dict.length → Kept a
  fresh : O.size < f.bufferNeeded →
    B = ⟨c.tmpInBlock, c.tmpOutBlock, f.bufferNeeded⟩
  reused : f.bufferNeeded ≤ O.size → B = O

section

variable (c : DecompressCall) (f : Frame) (dict : List UInt8) (D : Int) (O B : Owned)
  (Kept : Int → Prop) (m₀ : Mem) (whole past after : List UInt8) (skip : Bool)

/-- A loop and a reader in the middle of a call, `past` having been delivered before it and
`outs` in it. -/
structure LoopAt (r : Reader) (outs : List UInt8) (s : Loop) : Prop where
  place : At f dict D O B (Caller Kept c.dst s.dstPtr) s.dctx s.mem (past ++ outs) r.place
  io : Io c B f.blockSize m₀ whole (f.unread r.place ++ after) r.avail r.room outs s.mem s.srcPtr
    s.dstPtr
  skip_eq : s.dctx.skipChecksum = skip

/-- A pass of the loop and a turn of the reader lead to the same. -/
inductive Agrees : Step Loop Ending → Step Reader Reply → Prop
  | next {s : Loop} {r : Reader} {outs : List UInt8}
      (h : LoopAt c f dict D O B Kept m₀ whole past after skip r outs s) : Agrees (.next s) (.next r)
  | stop {s : Loop} {r : Reader} {outs : List UInt8} {hint : Nat}
      (h : LoopAt c f dict D O B Kept m₀ whole past after skip r outs s) :
      Agrees (.done (.stop s hint)) (.done (.stop r hint))
  | finished {s : Loop} {avail room : Nat} {outs : List UInt8} (idle : Idle s.dctx)
      (all : past ++ outs = f.content)
      (io : Io c B f.blockSize m₀ whole after avail room outs s.mem s.srcPtr s.dstPtr) :
      Agrees (.done (.stop s 0)) (.done (.stop ⟨.finished, avail, room⟩ 0))
  | fail {s : Loop} {e : FrameError} : Agrees (.done (.ret s (.error e))) (.done (.fail e))
  | idle {s : Loop} {r : Reader} {outs : List UInt8}
      (h : LoopAt c f dict D O B Kept m₀ whole past after skip r outs s) :
      Agrees (.done (.ret s (.ok minFHSize))) (.done (.idle r))

end

variable {c : DecompressCall} {f : Frame} {dict : List UInt8} {D : Int} {O B : Owned}
  {Kept : Int → Prop} {m₀ : Mem} {whole past after : List UInt8} {skip : Bool}

/-! ## The size field of a block -/

variable {n : Nat}

theorem and_low31 (h : n < 2 ^ 31) : n &&& 0x7FFFFFFF = n ∧ (n + 2 ^ 31) &&& 0x7FFFFFFF = n := by
  have hmod (k : Nat) : k &&& 0x7FFFFFFF = k % 2 ^ 31 := Nat.and_two_pow_sub_one_eq_mod k 31
  rw [hmod, hmod]
  omega

theorem and_bit31 (h : n < 2 ^ 31) :
    n &&& 0x80000000 = 0 ∧ (n + 2 ^ 31) &&& 0x80000000 = 2 ^ 31 := by
  have hand (k : Nat) : k &&& 0x80000000 = (k.testBit 31).toNat * 2 ^ 31 := Nat.and_two_pow k 31
  have hlow : n.testBit 31 = false := Nat.testBit_lt_two_pow h
  have hhigh : (n + 2 ^ 31).testBit 31 = true := by
    rw [Nat.add_comm, Nat.testBit_two_pow_add_eq, hlow]
    rfl
  rw [hand, hand, hlow, hhigh]
  exact ⟨rfl, rfl⟩

variable {stop : Int}

/-- Bytes of the caller that hold still are not in the context's buffer. -/
theorem Scene.still_apart (scene : Scene c f dict D O B Kept m₀) (hstop : stop ≤ c.dst + c.dstSize)
    (a : Int) (ha : Caller Kept c.dst stop a) : 0 < a ∧ Foreign B f.blockSize a := by
  have hlayout := scene.layout
  rcases ha with hkept | ⟨hlow, hhigh⟩
  · exact ⟨hlayout.kept_pos a hkept, hlayout.kept_tmpIn a hkept, hlayout.kept_tmpOut a hkept⟩
  · have hnonneg := hlayout.dst_nonneg
    have hnull := hlayout.dst_null
    have htmpIn := hlayout.dst_tmpIn
    have htmpOut := hlayout.dst_tmpOut
    exact ⟨by omega, by omega, by omega⟩

/-- What the history may use is not in `tmpIn`. -/
theorem Scene.history_apart (scene : Scene c f dict D O B Kept m₀)
    (hstop : stop ≤ c.dst + c.dstSize) (a : Int)
    (ha : Caller Kept c.dst stop a ∨ B.tmpOut ≤ a ∧ a < B.tmpOut + B.size) :
    a < B.tmpIn ∨ B.tmpIn + (f.blockSize + 4 : Nat) ≤ a := by
  have hblocks := scene.layout.blocks_apart
  rcases ha with hstill | ⟨hlow, hhigh⟩
  · exact (scene.still_apart hstop a hstill).2.tmpIn
  · omega

/-- The header of a block that stands for its content. -/
theorem Piece.Stands.header_value {history : List UInt8} {p : Piece} (hsize : f.blockSize < 2 ^ 31)
    (stands : p.Stands f.blockSize history) :
    leValue p.header = p.data.length + if p.raw then 2 ^ 31 else 0 := by
  have hlength := stands.data_le
  refine leValue_leBytes ?_
  split <;> omega

theorem Frame.extend_append (f : Frame) (history xs ys : List UInt8) :
    f.extend (f.extend history xs) ys = f.extend history (xs ++ ys) := by
  unfold Frame.extend
  split
  · rfl
  · rw [List.append_assoc]

variable {outs : List UInt8} {m : Mem} {d : Dctx} {srcPtr dstPtr : Int} {avail room got : Nat}
  {rest : List Piece}

section

variable (scene : Scene c f dict D O B Kept m₀)

include scene

/-- **Behind the size field of a block.** -/
theorem decodeBlockHeader_agrees {selectedIn : Int} (place : Place)
    (underway : Underway f dict B d (past ++ outs) (.blockHeader rest got))
    (recollects : Recollects f dict D B (Caller Kept c.dst dstPtr) d.dict d.dictSize d.tmpOut m
      (past ++ outs))
    (io : Io c B f.blockSize m₀ whole ((f.body rest).drop 4 ++ after) avail room outs m srcPtr
      dstPtr) (hskip : d.skipChecksum = skip) (hfield : m.bytes selectedIn 4 = (f.body rest).take 4)
    :
    Agrees c f dict D O B Kept m₀ whole past after skip
      (decodeBlockHeader c ⟨d, m, srcPtr, dstPtr⟩ selectedIn)
      (f.enterBlock ⟨place, avail, room⟩ rest) := by
  obtain ⟨hlow, hhigh⟩ := scene.sound.blockSize_le
  unfold decodeBlockHeader
  rw [hfield]
  cases rest with
  | nil =>
    have hzero : leValue ((f.body []).take 4) = 0 := by
      rfl
    have hunread : (f.body []).drop 4 = f.suffix := by
      rw [Frame.body, List.drop_left' (length_leBytes _ _)]
    refine .next ⟨.getSuffix rfl (underway.move ⟨rfl, rfl, rfl, rfl, rfl, rfl, id⟩ rfl rfl
      trivial), ?_, hskip⟩
    exact io
  | cons p rest =>
    obtain ⟨hstands, hstand⟩ := underway.stand
    have hnone : past ++ outs ++ (Place.blockHeader (p :: rest) got).current = past ++ outs :=
      List.append_nil _
    rw [hnone] at hstands
    rw [Frame.extend_append, hnone] at hstand
    have hlength := hstands.data_le
    have hvalue : leValue ((f.body (p :: rest)).take 4) =
        p.data.length + if p.raw then 2 ^ 31 else 0 := by
      exact hstands.header_value (by omega)
    have hunread : (f.body (p :: rest)).drop 4 = p.data ++ (f.footer p ++ f.body rest) := by
      rw [Frame.body, List.drop_left' p.length_header]
    obtain ⟨hmask, hmask'⟩ := and_low31 (show p.data.length < 2 ^ 31 by omega)
    obtain ⟨hbit, hbit'⟩ := and_bit31 (show p.data.length < 2 ^ 31 by omega)
    have hmax : ¬ d.maxBlockSize < p.data.length := by
      rw [underway.maxBlockSize]
      omega
    rw [hvalue, Frame.enterBlock]
    cases hraw : p.raw with
    | true =>
      have hcontent := hstands.raw_content hraw
      rw [if_pos rfl, if_neg (by omega), hmask', if_neg hmax, hbit', if_pos (by decide),
        if_pos rfl]
      refine .next ⟨.copyDirect rfl (underway.move ⟨rfl, rfl, rfl, rfl, rfl, rfl, id⟩ rfl ?_ ?_)
        recollects hcontent rfl (Nat.zero_le _) ?_, io, hskip⟩
      · change p.data.drop 0 ++ contents rest = p.content ++ contents rest
        rw [hcontent, List.drop_zero]
      · rw [Place.current, List.drop_zero, ← hcontent]
        exact hstand
      · intro hflag _
        have hset : d.frameInfo.blockChecksumFlag ≠ 0 := by
          rw [underway.info]
          exact f.desc.info_blockChecksum.2 hflag
        rw [if_pos hset, Xxh32State.reset_eq, List.take_zero]
    | false =>
      have hpos := hstands.data_pos hraw
      have hcrc : d.frameInfo.blockChecksumFlag * bfSize = f.footerSize := by
        rw [underway.info, Descriptor.info, Frame.footerSize]
        cases f.desc.blockChecksum <;> rfl
      simp only [Bool.false_eq_true, if_false, Nat.add_zero, hmask, hbit, hcrc]
      rw [if_neg (by omega), if_neg hmax, if_neg (by simp)]
      have hat : LoopAt c f dict D O B Kept m₀ whole past after skip
          ⟨.compressed p rest none, avail, room⟩ outs
          ⟨{ d with tmpInTarget := p.data.length + f.footerSize, dStage := .getCBlock }, m,
            srcPtr, dstPtr⟩ := by
        refine ⟨.getCBlock rfl (underway.move ⟨rfl, rfl, rfl, rfl, rfl, rfl, id⟩ rfl rfl
          hstand) recollects hraw hstands rfl, ?_, hskip⟩
        rw [Frame.unread, Option.getD_none, List.drop_zero, List.append_assoc p.data]
        exact io
      have hsource : srcPtr = c.srcEnd ↔ avail = 0 := by
        have hsrc := io.src
        unfold DecompressCall.srcEnd
        omega
      have hdest : dstPtr = c.dstEnd ↔ room = 0 := by
        rw [io.dstEnd scene.layout]
        omega
      simp only [hsource, hdest]
      split
      · exact .stop hat
      · exact .next hat

/-- `dstage_storeBlockHeader` -/
theorem storeBlockHeader_agrees (place : Place) (hstage : d.dStage = .storeBlockHeader)
    (underway : Underway f dict B d (past ++ outs) (.blockHeader rest got))
    (recollects : Recollects f dict D B (Caller Kept c.dst dstPtr) d.dict d.dictSize d.tmpOut m
      (past ++ outs))
    (io : Io c B f.blockSize m₀ whole ((f.body rest).drop got ++ after) avail room outs m srcPtr
      dstPtr) (hskip : d.skipChecksum = skip) (hsize : d.tmpInSize = got) (hgot : got < 4)
    (hbytes : m.Holds B.tmpIn ((f.body rest).take got)) :
    Agrees c f dict D O B Kept m₀ whole past after skip (storeBlockHeader c ⟨d, m, srcPtr, dstPtr⟩)
      (f.turnBlockHeader ⟨place, avail, room⟩ rest got) := by
  have hbody := f.four_le_body rest
  have hstop : dstPtr ≤ c.dst + c.dstSize := by
    have hdst := io.dst
    have hroom := io.room
    omega
  obtain ⟨n, hn⟩ : ∃ n, n = min (4 - got) avail := ⟨_, rfl⟩
  obtain ⟨m', hstore, hheld, hio, hframe⟩ := io.store underway.tmpIn hsize scene.layout hbytes
    (show n ≤ avail by omega) (show got + n ≤ (f.body rest).length by omega) (by omega)
  have hrecollects := recollects.congr
    (fun a ha => (hframe a (scene.history_apart hstop a ha)).symm) (fun a ha => ha)
  unfold storeBlockHeader Frame.turnBlockHeader
  rw [io.left, hsize, show bhSize = 4 by rfl, ← hn, hstore]
  by_cases hmore : got + n < 4
  · rw [if_pos hmore, if_pos hmore]
    refine .stop ⟨.storeBlockHeader hstage (underway.move ⟨rfl, rfl, rfl, rfl, rfl, rfl, id⟩ rfl
      rfl underway.stand) hrecollects rfl hmore hheld, hio, hskip⟩
  · rw [if_neg hmore, if_neg hmore]
    have hfour : got + n = 4 := by omega
    rw [hfour] at hio hheld ⊢
    refine decodeBlockHeader_agrees scene _ (underway.move ⟨rfl, rfl, rfl, rfl, rfl, rfl, id⟩ rfl
      rfl underway.stand) hrecollects hio hskip ?_
    rw [underway.tmpIn]
    rw [Mem.Holds, List.length_take, Nat.min_eq_left hbody] at hheld
    exact hheld

/-- `dstage_getBlockHeader` -/
theorem getBlockHeader_agrees (place : Place)
    (underway : Underway f dict B d (past ++ outs) (.blockHeader rest 0))
    (recollects : Recollects f dict D B (Caller Kept c.dst dstPtr) d.dict d.dictSize d.tmpOut m
      (past ++ outs))
    (io : Io c B f.blockSize m₀ whole (f.body rest ++ after) avail room outs m srcPtr dstPtr)
    (hskip : d.skipChecksum = skip) :
    Agrees c f dict D O B Kept m₀ whole past after skip (getBlockHeader c ⟨d, m, srcPtr, dstPtr⟩)
      (f.turnBlockHeader ⟨place, avail, room⟩ rest 0) := by
  have hbody := f.four_le_body rest
  unfold getBlockHeader
  rw [io.left, show bhSize = 4 by rfl]
  by_cases henough : 4 ≤ avail
  · rw [if_pos henough]
    have hfield := io.bytes henough
    have hio := io.consume henough
    rw [List.take_append_of_le_length hbody] at hfield
    rw [List.drop_append_of_le_length hbody] at hio
    unfold Frame.turnBlockHeader
    rw [Nat.sub_zero, Nat.min_eq_left henough, if_neg (by omega)]
    exact decodeBlockHeader_agrees scene _ underway recollects hio hskip hfield
  · rw [if_neg henough]
    exact storeBlockHeader_agrees scene place rfl
      (underway.move ⟨rfl, rfl, rfl, rfl, rfl, rfl, id⟩ rfl rfl underway.stand) recollects io hskip
      rfl (by omega) (Mem.holds_nil _ _)

end

/-! ## The header of the frame -/

/-- Behind the header. -/
theorem At.begun {Still : Int → Prop} {past : List UInt8} (starting : Starting dict D O d past)
    (hremaining : d.frameRemainingSize = 0) :
    At f dict D O B Still (d.begun f.desc) m past .ready := by
  obtain ⟨hpast, hdict, hdictSize, howned, hheader⟩ := starting
  refine .init rfl ⟨hpast, hdict, hdictSize, howned, hheader⟩ rfl rfl ?_
  unfold Dctx.begun
  rw [hremaining]

section

variable (scene : Scene c f dict D O B Kept m₀)

include scene

/-- `dstage_storeFrameHeader` -/
theorem storeFrameHeader_agrees (place : Place) (hstage : d.dStage = .storeFrameHeader)
    (starting : Starting dict D O d (past ++ outs)) (hremaining : d.frameRemainingSize = 0)
    (io : Io c B f.blockSize m₀ whole (f.desc.header.drop got ++ (f.body f.pieces ++ after)) avail
      room outs m srcPtr dstPtr) (hskip : d.skipChecksum = skip) (hsize : d.tmpInSize = got)
    (htarget : d.tmpInTarget = if got < minFHSize then minFHSize else f.desc.size)
    (hpos : 0 < got ∨ 0 < avail ∧ avail < maxFHSize) (hgot : got < f.desc.size)
    (hbytes : d.header.take got = f.desc.header.take got) :
    Agrees c f dict D O B Kept m₀ whole past after skip (storeFrameHeader c ⟨d, m, srcPtr, dstPtr⟩)
      (f.turnHeader ⟨place, avail, room⟩ got) := by
  have hmin := f.desc.le_size
  have hmax := f.desc.size_le
  have hlength := f.desc.length_header
  have hnineteen : maxFHSize = 19 := rfl
  have hseven : minFHSize = 7 := rfl
  obtain ⟨target, htarget'⟩ : ∃ target, target = if got < minFHSize then minFHSize else f.desc.size :=
    ⟨_, rfl⟩
  have hrange : got < target ∧ target ≤ f.desc.size ∧
      (got < 7 ∧ target = 7 ∨ 7 ≤ got ∧ target = f.desc.size) := by
    rw [htarget']
    split <;> omega
  obtain ⟨n, hn⟩ : ∃ n, n = min (target - got) avail := ⟨_, rfl⟩
  have hinput := io.bytes (show n ≤ avail by omega)
  have harray := starting.header
  have hio := io.consume (show n ≤ avail by omega)
  rw [List.drop_append_of_le_length (by rw [List.length_drop]; omega), List.drop_drop] at hio
  obtain ⟨array, harray'⟩ : ∃ array, array = overwrite d.header got
      ((f.desc.header.drop got ++ (f.body f.pieces ++ after)).take n) := ⟨_, rfl⟩
  have hheld : array.take (got + n) = f.desc.header.take (got + n) := by
    rw [harray']
    exact take_overwrite hbytes (by omega) (by omega)
  have harraylength : array.length = 19 := by
    rw [harray', length_overwrite, harray]
    rw [List.length_take, harray]
    omega
  obtain ⟨hpast, hdict, hdictSize, howned, -⟩ := starting
  have hstore : Loop.storeHeader ⟨d, m, srcPtr, dstPtr⟩ n =
      ⟨{ d with header := array, tmpInSize := got + n }, m, srcPtr + n, dstPtr⟩ := by
    rw [harray', ← hinput, ← hsize]
    rfl
  have hturn : f.turnHeader ⟨place, avail, room⟩ got =
      if got + n < target then
        .done (.stop ⟨.header (got + n), avail - n, room⟩ (target - (got + n) + bhSize))
      else if target < f.desc.size then .next ⟨.header (got + n), avail - n, room⟩
      else .next ⟨.ready, avail - n, room⟩ := by
    unfold Frame.turnHeader
    dsimp only
    rw [if_neg (by omega), if_neg (by omega), ← htarget', ← hn]
  rw [hturn]
  unfold storeFrameHeader
  rw [io.left, htarget, hsize, ← htarget', ← hn, hstore]
  rw [htarget, ← htarget']
  by_cases hmore : got + n < target
  · rw [if_pos hmore, if_pos hmore]
    refine .stop ⟨.storeFrameHeader hstage ⟨hpast, hdict, hdictSize, howned, harraylength⟩
      hremaining rfl ?_ (by omega) (by omega) hheld, ?_, hskip⟩
    · change target = if got + n < minFHSize then minFHSize else f.desc.size
      split <;> omega
    · rw [Frame.unread, List.append_assoc]
      exact hio
  · rw [if_neg hmore, if_neg hmore]
    have hfull : got + n = target := by omega
    rw [hfull] at hheld hio ⊢
    rw [hheld]
    by_cases hpart : target < f.desc.size
    · -- the first seven bytes, which tell the size of the header
      rw [if_pos hpart, decodeHeader_take _ _ (by omega) hpart]
      refine .next ⟨.storeFrameHeader rfl ⟨hpast, hdict, hdictSize, howned, harraylength⟩
        hremaining rfl ?_ (by omega) hpart hheld, ?_, hskip⟩
      · change f.desc.size = if target < minFHSize then minFHSize else f.desc.size
        rw [if_neg (by omega)]
      · rw [Frame.unread, List.append_assoc]
        exact hio
    · have hwhole : f.desc.header.take target = f.desc.header ++ [] := by
        rw [List.append_nil, List.take_of_length_le (by omega)]
      have hnone : f.desc.header.drop target = [] := List.drop_eq_nil_of_le (by omega)
      rw [if_neg hpart, hwhole, decodeHeader_header, if_pos scene.sound.blockSizeID]
      rw [hnone, List.nil_append] at hio
      refine .next ⟨.begun ⟨hpast, hdict, hdictSize, howned, harraylength⟩ hremaining, hio, hskip⟩

/-- `dstage_getFrameHeader` -/
theorem getFrameHeader_agrees (hstage : d.dStage = .getFrameHeader)
    (starting : Starting dict D O d (past ++ outs)) (hremaining : d.frameRemainingSize = 0)
    (io : Io c B f.blockSize m₀ whole (f.desc.header ++ (f.body f.pieces ++ after)) avail room outs
      m srcPtr dstPtr) (hskip : d.skipChecksum = skip) :
    Agrees c f dict D O B Kept m₀ whole past after skip (getFrameHeader c ⟨d, m, srcPtr, dstPtr⟩)
      (f.turnHeader ⟨.header 0, avail, room⟩ 0) := by
  have hmin := f.desc.le_size
  have hmax := f.desc.size_le
  have hlength := f.desc.length_header
  obtain ⟨hpast, hdict, hdictSize, howned, hheader⟩ := starting
  unfold getFrameHeader
  rw [io.left]
  by_cases henough : maxFHSize ≤ avail
  · have hinput : Loop.input ⟨d, m, srcPtr, dstPtr⟩ avail = f.desc.header ++
        (f.body f.pieces ++ after).take (avail - f.desc.size) := by
      unfold Loop.input
      rw [io.bytes (Nat.le_refl _), List.take_append, hlength, List.take_of_length_le (by omega)]
    have hio := io.consume (show f.desc.size ≤ avail by omega)
    rw [List.drop_left' hlength] at hio
    unfold Frame.turnHeader
    rw [if_pos henough, if_pos ⟨rfl, henough⟩, hinput, decodeHeader_header,
      if_pos scene.sound.blockSizeID]
    exact .next ⟨.begun ⟨hpast, hdict, hdictSize, howned, hheader⟩ hremaining, hio, hskip⟩
  · rw [if_neg henough]
    dsimp only
    rw [io.left]
    by_cases hnone : avail = 0
    · unfold Frame.turnHeader
      dsimp only
      rw [if_pos hnone, if_neg (by omega), if_pos ⟨rfl, hnone⟩]
      refine .idle ⟨.getFrameHeader hstage ⟨hpast, hdict, hdictSize, howned, hheader⟩ hremaining,
        ?_, hskip⟩
      rw [Frame.unread, List.drop_zero, List.append_assoc]
      exact io
    · rw [if_neg hnone]
      exact storeFrameHeader_agrees scene _ rfl ⟨hpast, hdict, hdictSize, howned, hheader⟩
        hremaining io hskip rfl rfl (by omega) (by omega) rfl

/-! ## The start of the blocks -/

/-- The context gets the blocks of the scene. -/
theorem Scene.allocate_eq (hinfo : d.frameInfo = f.desc.info) (hmax : d.maxBlockSize = f.blockSize)
    (howned : d.owned = O) :
    allocate c d =
      ({ d with tmpIn := B.tmpIn, tmpOutBuffer := B.tmpOut, maxBufferSize := B.size }, true) := by
  have hneeded : d.maxBlockSize + (if d.frameInfo.blockMode = 0 then 2 * kb64 else 0) =
      f.bufferNeeded := by
    rw [hmax, hinfo, Frame.bufferNeeded, Descriptor.info]
    cases f.desc.independent <;> rfl
  have hsize : d.maxBufferSize = O.size := congrArg Owned.size howned
  unfold allocate
  rw [hneeded, hsize]
  by_cases hsmall : O.size < f.bufferNeeded
  · have hin := scene.layout.tmpIn_pos
    have hout := scene.layout.tmpOut_pos
    rw [scene.fresh hsmall] at hin hout ⊢
    dsimp only at hin hout ⊢
    rw [if_pos hsmall, if_neg (by omega), if_neg (by omega)]
  · rw [if_neg hsmall, scene.reused (by omega), ← howned]
    rfl

/-- The dictionary stands in memory throughout a call. -/
theorem Scene.dictionary_holds {stream : List UInt8}
    (io : Io c B f.blockSize m₀ whole stream avail room outs m srcPtr dstPtr) : m.Holds D dict := by
  refine scene.dictionary.congr fun a hlow hhigh => (io.still a ⟨?_, ?_⟩ ?_).symm
  · exact scene.layout.kept_tmpIn a (scene.dict_kept a hlow hhigh)
  · exact scene.layout.kept_tmpOut a (scene.dict_kept a hlow hhigh)
  · exact scene.layout.kept_dst a (scene.dict_kept a hlow hhigh)

/-- The history before the first block. -/
theorem Scene.past_dictionary (stop : Int) (hholds : m.Holds D dict) :
    Past B (Caller Kept c.dst stop) m D dict.length (dict ++ []) := by
  rw [List.append_nil]
  refine ⟨⟨?_, ?_⟩, Or.inr fun a hlow hhigh => Or.inl (scene.dict_kept a hlow hhigh)⟩
  · rw [length_recent]
    omega
  · exact hholds.ends.drop _

/-- `dstage_init` -/
theorem init_agrees (starting : Starting dict D O d (past ++ outs))
    (hinfo : d.frameInfo = f.desc.info) (hmax : d.maxBlockSize = f.blockSize)
    (hremaining : d.frameRemainingSize = f.desc.contentSize.getD 0)
    (io : Io c B f.blockSize m₀ whole (f.body f.pieces ++ after) avail room outs m srcPtr dstPtr)
    (hskip : d.skipChecksum = skip) :
    Agrees c f dict D O B Kept m₀ whole past after skip (init c ⟨d, m, srcPtr, dstPtr⟩)
      (f.turnBlockHeader ⟨.ready, avail, room⟩ f.pieces 0) := by
  obtain ⟨hpast, hdict, hdictSize, howned, hheader⟩ := starting
  have hneeded : f.bufferNeeded ≤ B.size := by
    by_cases hsmall : O.size < f.bufferNeeded
    · rw [scene.fresh hsmall]
    · rw [scene.reused (by omega)]
      omega
  unfold init
  dsimp only
  rw [scene.allocate_eq (by exact hinfo) (by exact hmax) (by exact howned)]
  dsimp only
  refine getBlockHeader_agrees scene _ ⟨hinfo, hmax, rfl, hneeded, hheader, ⟨?_, ?_⟩, ?_, ?_⟩
    ⟨?_, ?_⟩ io hskip
  · intro hflag _
    have hset : d.frameInfo.contentChecksumFlag ≠ 0 := by
      rw [hinfo]
      exact f.desc.info_contentChecksum.2 hflag
    rw [hpast]
    change (if d.frameInfo.contentChecksumFlag ≠ 0 then Xxh32State.reset 0 else d.xxh) = _
    rw [if_pos hset]
    exact Xxh32State.reset_eq 0
  · rw [hpast]
    change d.frameRemainingSize = _
    rw [hremaining]
    split
    · exact (UInt64.sub_zero _).symm
    · exact not_not.1 ‹_›
  · rw [hpast]
    rfl
  · rw [hpast]
    have hextend : f.extend dict [] = dict := by
      unfold Frame.extend
      split
      · rfl
      · exact List.append_nil _
    exact (congrArg (fun h => f.Stand h f.pieces) hextend).mpr scene.sound.stand
  · intro _
    exact ⟨hdict, hdictSize, rfl⟩
  · intro _
    rw [hpast, hdict, hdictSize]
    exact scene.past_dictionary _ (scene.dictionary_holds io)

end

end Lz4.Lz4f
