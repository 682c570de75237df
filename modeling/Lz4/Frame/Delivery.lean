import Lz4.Frame.Stages

/-!
# Stages that deliver text

An uncompressed block is copied from the input to the output, a decoded one from the context's
buffer; in both cases as much as there is room for, and what has been copied joins the history.
-/

namespace Lz4.Lz4f

open FlatMemory Machine

variable {c : DecompressCall} {f : Frame} {dict : List UInt8} {D : Int} {O B : Owned}
  {Kept : Int → Prop} {m₀ : Mem} {whole past after : List UInt8} {skip : Bool}

/-! ## Text that is delivered -/

variable {d : Dctx}

theorem Counts.produced {decoded : List UInt8} (h : Counts f d decoded)
    (hinfo : d.frameInfo = f.desc.info) (bytes : List UInt8) :
    Counts f (d.produced bytes) (decoded ++ bytes) := by
  obtain ⟨hxxh, hremaining⟩ := h
  unfold Dctx.produced
  refine ⟨fun hflag hskip => ?_, ?_⟩
  · have hset := f.desc.info_contentChecksum.2 hflag
    dsimp only at hskip ⊢
    rw [hinfo, hskip, if_pos ⟨hset, by decide⟩, hxxh hflag hskip, Xxh32State.update_after]
  · rw [hinfo, hremaining, List.length_append, UInt64.ofNat_add]
    change (if f.desc.contentSize.getD 0 ≠ 0 then _ else _) = _
    split
    · grind
    · rfl

variable {outs more : List UInt8} {m : Mem}

/-- Text written behind the output of the call joins the history. -/
theorem Scene.deliver (scene : Scene c f dict D O B Kept m₀) (hinfo : d.frameInfo = f.desc.info)
    (howned : d.owned = B) (hsize : f.bufferNeeded ≤ B.size)
    (recollects : Recollects f dict D B (Caller Kept c.dst (c.dst + outs.length)) d.dict d.dictSize
      d.tmpOut m (past ++ outs)) (hholds : m.Holds c.dst (outs ++ more))
    (hfits : (outs ++ more).length ≤ c.dstSize) :
    ∃ start size m',
      (if d.frameInfo.blockMode =
      0 then updateDict d m (c.dst + outs.length) more.length c.dst false else (d, m)) =
      ({ d with dict := start, dictSize := size }, m') ∧
      Recollects f dict D B (Caller Kept c.dst (c.dst + (outs ++ more).length)) start size d.tmpOut
      m' (past ++ (outs ++ more)) ∧ ∀ a, a < B.tmpOut ∨ B.tmpOut + B.size ≤ a → m' a = m a := by
  obtain ⟨hmode, hnot⟩ | ⟨hmode, hlinked, hroom⟩ := mode_cases hinfo hsize
  · exact ⟨d.dict, d.dictSize, m, if_neg hnot, ⟨recollects.independent, by simp [hmode]⟩,
      fun a _ => rfl⟩
  · have hlow := scene.sound.blockSize_le.1
    have hapart := scene.layout.dst_tmpOut
    obtain ⟨hpast, hframe⟩ := updateDict_copied (congrArg Owned.tmpOut howned)
      (congrArg Owned.size howned) (by omega) (recollects.linked hmode)
      ⟨dict ++ past, by rw [List.append_assoc]⟩ hholds (by omega) scene.layout.kept_tmpOut
    obtain ⟨start, size, hfields⟩ :=
      updateDict_fields d m (c.dst + outs.length) more.length c.dst false
    rw [hfields] at hpast
    refine ⟨start, size, _, ?_, ⟨by simp [hmode], fun _ => ?_⟩, hframe⟩
    · rw [if_pos hlinked, ← hfields]
    · rw [← List.append_assoc past, ← List.append_assoc dict]
      exact hpast

variable {srcPtr dstPtr : Int} {avail room n : Nat} {stream : List UInt8}

/-- Text that is copied to the output pointer, seen from the history and from the input. -/
theorem Scene.copy_apart (scene : Scene c f dict D O B Kept m₀) (origin : Int)
    (io : Io c B f.blockSize m₀ whole stream avail room outs m srcPtr dstPtr) (hn : n ≤ room)
    (a : Int)
    (ha : (Caller Kept c.dst dstPtr a ∨ B.tmpOut ≤ a ∧ a < B.tmpOut + B.size) ∨ srcPtr ≤ a ∧ a <
      srcPtr + avail ∨ a < dstPtr ∨ c.dst + c.dstSize ≤ a) : m.copy dstPtr origin n a = m a := by
  have hdst := io.dst
  have hroom := io.room
  have hsrc := io.src
  have havail := io.avail_le
  refine Mem.copy_outside ?_
  rcases ha with (⟨hkept | hout⟩ | htmpOut) | hinput | hrest
  · have hapart := scene.layout.kept_dst a hkept
    omega
  · omega
  · have hapart := scene.layout.dst_tmpOut
    omega
  · have hapart := scene.layout.src_dst
    omega
  · omega

/-- Text copied to the output pointer, with changes in the context's buffer after it. -/
theorem Scene.copy_out (scene : Scene c f dict D O B Kept m₀) {origin : Int} {bytes : List UInt8}
    (io : Io c B f.blockSize m₀ whole stream avail room outs m srcPtr dstPtr)
    (hbytes : bytes.length ≤ room) (hheld : m.Holds origin bytes) :
    (m.copy dstPtr origin bytes.length).Holds c.dst (outs ++ bytes) ∧ ∀ m',
      (∀ a, a < B.tmpOut ∨ B.tmpOut + B.size ≤ a → m' a = m.copy dstPtr origin bytes.length a) →
      Io c B f.blockSize m₀ whole stream avail (room - bytes.length) (outs ++ bytes) m' srcPtr
      (dstPtr + bytes.length) := by
  have hapart := fun a => scene.copy_apart origin io hbytes a
  have hwritten : (m.copy dstPtr origin bytes.length).Holds dstPtr bytes :=
    hheld.copy (Nat.le_refl _)
  have hdst := io.dst
  have hroom := io.room
  refine ⟨Mem.Holds.append (io.output.congr fun a hlow hhigh => ?_) ?_, fun m' hm' => ?_⟩
  · exact (hapart a (Or.inr (Or.inr (by omega)))).symm
  · rw [← hdst]
    exact hwritten
  · refine io.produce scene.layout hbytes (hwritten.congr fun a hlow hhigh => (hm' a ?_).symm)
      fun a ha hout => ?_
    · have htmpOut := scene.layout.dst_tmpOut
      omega
    · rw [hm' a ha.tmpOut, hapart a (Or.inr (Or.inr hout))]

variable {rest : List Piece} {p : Piece} {done : Nat}

/-- The bytes of an uncompressed block that fit are copied. -/
theorem copyRaw_spec (scene : Scene c f dict D O B Kept m₀)
    (h : LoopAt c f dict D O B Kept m₀ whole past after skip ⟨.raw p rest done, avail,
      room⟩ outs ⟨d, m, srcPtr, dstPtr⟩) (hn : n = min (p.data.length - done) (min avail room)) :
    ∃ d' m', copyRaw c ⟨d, m, srcPtr, dstPtr⟩ = (n, ⟨d', m', srcPtr + n, dstPtr + n⟩) ∧
      d'.tmpInTarget = p.data.length - done ∧
      LoopAt c f dict D O B Kept m₀ whole past after skip ⟨.raw p rest (done + n), avail - n,
      room - n⟩ (outs ++ (p.data.drop done).take n) ⟨{ d' with tmpInTarget := d'.tmpInTarget - n },
      m', srcPtr + n, dstPtr + n⟩ := by
  obtain ⟨hplace, io, hskip⟩ := h
  cases hplace with
  | copyDirect hstage underway recollects hraw htarget hdone hsum =>
  dsimp only at hstage underway recollects htarget hsum io hskip
  unfold copyRaw
  dsimp only
  rw [io.left, io.room_eq scene.layout, htarget, ← hn]
  by_cases hnull : dstPtr = 0
  · -- without an output buffer nothing is copied
    have hroom := io.room_of_null scene.layout hnull
    have hzero : n = 0 := by omega
    subst hzero
    refine ⟨d, m, ?_, htarget, ?_⟩
    · rw [if_pos hnull]
      simp
    · simp only [Nat.add_zero, Nat.sub_zero, List.take_zero, List.append_nil, Nat.cast_zero,
        Int.add_zero]
      exact ⟨.copyDirect hstage underway recollects hraw htarget hdone hsum, io, hskip⟩
  · obtain ⟨bytes, hbytes⟩ : ∃ bytes, bytes = (p.data.drop done).take n := ⟨_, rfl⟩
    have hdrop : (p.data.drop done).length = p.data.length - done := List.length_drop
    have hlength : bytes.length = n := by
      rw [hbytes, List.length_take]
      omega
    have hfirst : (f.unread (.raw p rest done) ++ after).take n = bytes := by
      rw [Frame.unread, List.append_assoc, List.take_append_of_le_length (by omega), hbytes]
    have hrest : (f.unread (.raw p rest done) ++ after).drop n =
        f.unread (.raw p rest (done + n)) ++ after := by
      simp only [Frame.unread, List.append_assoc]
      rw [List.drop_append_of_le_length (by omega), List.drop_drop]
    have hsource := io.bytes (show n ≤ avail by omega)
    rw [hfirst] at hsource
    have hapart := fun a => scene.copy_apart srcPtr io (show n ≤ room by omega) a
    have hheld : m.Holds srcPtr bytes := by
      rw [← hsource]
      exact Mem.holds_bytes _ _ _
    have hio := io.consume (show n ≤ avail by omega)
    rw [hrest] at hio
    obtain ⟨houtput, hproduced⟩ := scene.copy_out hio (by omega) hheld
    rw [hlength] at houtput hproduced
    obtain ⟨m₁, hm₁⟩ : ∃ m₁, m₁ = m.copy dstPtr srcPtr n := ⟨_, rfl⟩
    rw [← hm₁] at hapart houtput hproduced
    have hread : m₁.bytes srcPtr n = bytes := by
      rw [← hsource]
      refine Mem.bytes_congr fun a hlow hhigh => hapart a (Or.inr (Or.inl (by omega)))
    have hrecollects := recollects.congr (fun a ha => (hapart a (Or.inl ha)).symm) fun a ha => ha
    have hfits : (outs ++ bytes).length ≤ c.dstSize := by
      have hroom := io.room
      rw [List.length_append]
      omega
    obtain ⟨d₁, hd₁⟩ : ∃ d₁ : Dctx, d₁ = { d.produced bytes with
        blockChecksum := if d.frameInfo.blockChecksumFlag ≠ 0 ∧ ¬ d.skipChecksum then
          d.blockChecksum.update bytes else d.blockChecksum } := ⟨_, rfl⟩
    have hcounts := underway.counts.produced underway.info bytes
    have hdst := io.dst
    rw [hdst] at hrecollects
    obtain ⟨start, size, m', hupdate, hrecollects', hframe⟩ := scene.deliver (d := d₁)
      (by rw [hd₁]; exact underway.info) (by rw [hd₁]; exact underway.owned) underway.size_ge
      (by rw [hd₁]; exact hrecollects) houtput hfits
    rw [← hdst, hlength] at hupdate
    subst hd₁
    rw [if_neg hnull, ← hm₁, hread]
    refine ⟨_, m', congrArg (fun r : Dctx × Mem =>
      (n, Loop.mk r.1 r.2 (srcPtr + n) (dstPtr + n))) hupdate, htarget, ?_⟩
    rw [← hbytes]
    have hsplit : p.data.drop done = bytes ++ p.data.drop (done + n) := by
      rw [hbytes, ← List.drop_drop, List.take_append_drop]
    refine ⟨.copyDirect hstage ?_ ?_ hraw ?_ (by omega) ?_, ?_, hskip⟩
    · refine ⟨underway.info, underway.maxBlockSize, underway.owned, underway.size_ge,
        underway.header, ?_, ?_, ?_⟩
      · have hdecoded : past ++ outs ++ (Place.raw p rest done).pending ++ bytes =
            past ++ (outs ++ bytes) ++ (Place.raw p rest (done + n)).pending := by
          simp [Place.pending]
        rw [hdecoded] at hcounts
        exact ⟨hcounts.xxh, hcounts.remaining⟩
      · rw [underway.content, Frame.owed, Frame.owed, Place.current, Place.current, hsplit]
        simp [Frame.rest]
      · have hstand := underway.stand
        rw [Place.current, hsplit] at hstand
        rw [Place.current, ← List.append_assoc past, List.append_assoc (past ++ outs)]
        exact hstand
    · have hstop : dstPtr + n = c.dst + (outs ++ bytes).length := by
        rw [List.length_append]
        omega
      rw [hstop]
      exact hrecollects'
    · change d.tmpInTarget - n = _
      omega
    · intro hflag hchecked
      have hset : d.frameInfo.blockChecksumFlag ≠ 0 := by
        rw [underway.info]
        exact f.desc.info_blockChecksum.2 hflag
      change (if d.frameInfo.blockChecksumFlag ≠ 0 ∧ ¬ d.skipChecksum then
        d.blockChecksum.update bytes else d.blockChecksum) = _
      change d.skipChecksum = false at hchecked
      rw [if_pos ⟨hset, by rw [hchecked]; decide⟩, hsum hflag hchecked, Xxh32State.update_after,
        hbytes, ← List.take_add]
    · exact hproduced m' hframe

/-- The size of a checksum field, as the hints compute it. -/
theorem crcSize_eq (hinfo : d.frameInfo = f.desc.info) :
    (if d.frameInfo.blockChecksumFlag ≠ 0 then bfSize else 0) = f.footerSize := by
  have hflag := f.desc.info_blockChecksum
  rw [← hinfo] at hflag
  simp only [hflag]
  rfl

/-- `dstage_copyDirect` -/
theorem copyDirect_agrees (scene : Scene c f dict D O B Kept m₀)
    (h : LoopAt c f dict D O B Kept m₀ whole past after skip ⟨.raw p rest done, avail,
      room⟩ outs ⟨d, m, srcPtr, dstPtr⟩) :
    Agrees c f dict D O B Kept m₀ whole past after skip (copyDirect c ⟨d, m, srcPtr, dstPtr⟩)
      (f.turnRaw ⟨.raw p rest done, avail, room⟩ p rest done) := by
  obtain ⟨n, hn⟩ : ∃ n, n = min (p.data.length - done) (min avail room) := ⟨_, rfl⟩
  obtain ⟨d', m', hcopy, htarget, hat⟩ := copyRaw_spec scene h hn
  have hplace := hat.place
  cases hplace with
  | copyDirect hstage underway recollects hraw htarget' hdone hsum =>
  have hinfo : d'.frameInfo = f.desc.info := underway.info
  unfold copyDirect Frame.turnRaw
  rw [hcopy, ← hn]
  dsimp only
  rw [htarget]
  by_cases hall : n = p.data.length - done
  · rw [if_pos hall, if_pos hall]
    have hwhole : done + n = p.data.length := by
      omega
    rw [hwhole] at hsum underway
    have hstand : f.Stand (f.extend dict (past ++ (outs ++ (p.data.drop done).take n) ++ [])) rest := by
      have hstand := underway.stand
      rw [Place.current, List.drop_length] at hstand
      exact hstand
    have hio := hat.io
    rw [hwhole, Frame.unread, List.drop_length, List.nil_append] at hio
    cases hflag : f.desc.blockChecksum with
    | true =>
      rw [if_pos (by rw [hinfo]; exact f.desc.info_blockChecksum.2 hflag), if_pos rfl]
      refine .next ⟨.getBlockChecksum rfl (underway.move ⟨rfl, rfl, rfl, rfl, rfl, rfl, id⟩ rfl ?_
        hstand) recollects hflag rfl (by omega) rfl ?_, hio, hat.skip_eq⟩
      · rw [Frame.owed, Frame.owed, Place.current, List.drop_length]
        rfl
      · intro hchecked
        have hsum := hsum hflag hchecked
        rw [List.take_length] at hsum
        exact hsum
    | false =>
      have hnone : f.footer p = [] := by
        rw [Frame.footer, hflag]
        rfl
      rw [hnone, List.nil_append] at hio
      rw [if_neg (by rw [hinfo, f.desc.info_blockChecksum, hflag]; decide), if_neg (by decide)]
      refine .next ⟨.getBlockHeader rfl (underway.move ⟨rfl, rfl, rfl, rfl, rfl, rfl, id⟩ rfl ?_
        hstand) recollects, hio, hat.skip_eq⟩
      rw [Frame.owed, Frame.owed, Place.current, List.drop_length]
      rfl
  · rw [if_neg hall, if_neg hall, crcSize_eq hinfo]
    rw [htarget] at hat
    exact .stop hat

/-! ## The checksum of an uncompressed block -/

theorem readLE32_leBytes (v : UInt32) : readLE32 (leBytes 4 v.toNat) = v := by
  rw [readLE32, List.take_of_length_le (by rw [length_leBytes]), leValue_leBytes v.toNat_lt,
    UInt32.ofNat_toNat]

theorem Frame.footer_eq (f : Frame) (hflag : f.desc.blockChecksum = true) (p : Piece) :
    f.footer p = leBytes 4 p.checksum.toNat := by
  rw [Frame.footer, hflag, if_pos rfl]

variable {got : Nat}

/-- The verdict on an uncompressed block. -/
theorem checkBlock_agrees (underway : Underway f dict B d (past ++ outs) (.rawChecksum p rest got))
    (recollects : Recollects f dict D B (Caller Kept c.dst dstPtr) d.dict d.dictSize d.tmpOut m
      (past ++ outs)) (hflag : f.desc.blockChecksum = true)
    (io : Io c B f.blockSize m₀ whole (f.body rest ++ after) avail room outs m srcPtr dstPtr)
    (hskip : d.skipChecksum = skip)
    (hsum : d.skipChecksum = false → d.blockChecksum = .after 0 p.data) :
    Agrees c f dict D O B Kept m₀ whole past after skip
      (checkBlock ⟨d, m, srcPtr, dstPtr⟩ (f.footer p)) (if ¬ skip ∧ p.checksum ≠
      xxh32 p.data 0 then .done (.fail .blockChecksum_invalid) else .next ⟨.blockHeader rest 0,
      avail, room⟩) := by
  unfold checkBlock
  have hat : LoopAt c f dict D O B Kept m₀ whole past after skip ⟨.blockHeader rest 0, avail, room⟩ outs
      ⟨{ d with dStage := .getBlockHeader }, m, srcPtr, dstPtr⟩ :=
    ⟨.getBlockHeader rfl (underway.move ⟨rfl, rfl, rfl, rfl, rfl, rfl, id⟩ rfl rfl underway.stand)
      recollects, io, hskip⟩
  rw [f.footer_eq hflag, readLE32_leBytes, hskip]
  cases skip with
  | true => exact .next hat
  | false =>
    rw [hsum hskip, Xxh32State.digest_after]
    by_cases hbad : p.checksum ≠ xxh32 p.data 0
    · rw [if_pos ⟨by decide, hbad⟩, if_pos ⟨by decide, hbad⟩]
      exact .fail
    · rw [if_neg fun h => hbad h.2, if_neg fun h => hbad h.2]
      exact .next hat

/-- `dstage_getBlockChecksum` -/
theorem getBlockChecksum_agrees
    (h : LoopAt c f dict D O B Kept m₀ whole past after skip ⟨.rawChecksum p rest got, avail,
      room⟩ outs ⟨d, m, srcPtr, dstPtr⟩) :
    Agrees c f dict D O B Kept m₀ whole past after skip (getBlockChecksum c ⟨d, m, srcPtr, dstPtr⟩)
      (Frame.turnRawChecksum skip ⟨.rawChecksum p rest got, avail, room⟩ p rest got) := by
  obtain ⟨hplace, io, hskip⟩ := h
  cases hplace with
  | getBlockChecksum hstage underway recollects hflag hsize hgot hbytes hsum =>
  dsimp only at hstage underway recollects hsize hbytes hsum io hskip
  have hlength : (f.footer p).length = 4 := by
    rw [f.length_footer, Frame.footerSize, hflag, if_pos rfl]
  rw [Frame.unread, List.append_assoc] at io
  obtain ⟨n, hn⟩ : ∃ n, n = min (4 - got) avail := ⟨_, rfl⟩
  have hio := io.consume (show n ≤ avail by omega)
  rw [List.drop_append_of_le_length (by rw [List.length_drop]; omega), List.drop_drop] at hio
  have hinput : Loop.input ⟨d, m, srcPtr, dstPtr⟩ n =
      ((f.footer p).drop got ++ (f.body rest ++ after)).take n := io.bytes (by omega)
  have hrest : got + n = 4 → (f.footer p).drop (got + n) = [] := by
    intro hfour
    exact List.drop_eq_nil_of_le (by omega)
  unfold getBlockChecksum Frame.turnRawChecksum
  rw [io.left, hsize, ← hn]
  by_cases hdirect : 4 ≤ avail ∧ got = 0
  · -- the whole field is at hand
    have hfour : n = 4 := by omega
    rw [hfour] at hinput hrest hio ⊢
    rw [hdirect.2] at hinput hrest hio ⊢
    rw [hrest rfl, List.nil_append] at hio
    rw [List.drop_zero, List.take_left' hlength] at hinput
    rw [if_pos ⟨hdirect.1, rfl⟩, if_neg (by decide), hinput]
    exact checkBlock_agrees underway recollects hflag hio hskip hsum
  · obtain ⟨array, harray⟩ : ∃ array, array = overwrite d.header got
        (((f.footer p).drop got ++ (f.body rest ++ after)).take n) := ⟨_, rfl⟩
    have hheader := underway.header
    have hheld : array.take (got + n) = (f.footer p).take (got + n) := by
      rw [harray]
      exact take_overwrite hbytes (by omega) (by omega)
    have harraylength : array.length = d.header.length := by
      rw [harray, length_overwrite]
      rw [List.length_take, hheader]
      omega
    have hstore : Loop.storeHeader ⟨d, m, srcPtr, dstPtr⟩ n =
        ⟨{ d with header := array, tmpInSize := got + n }, m, srcPtr + n, dstPtr⟩ := by
      rw [harray, ← hinput, ← hsize]
      rfl
    have hunderway : Underway f dict B { d with header := array, tmpInSize := got + n }
        (past ++ outs) (.rawChecksum p rest (got + n)) :=
      underway.move ⟨rfl, rfl, rfl, harraylength, rfl, rfl, id⟩ rfl rfl underway.stand
    rw [if_neg hdirect, hstore]
    by_cases hmore : got + n < 4
    · rw [if_pos hmore, if_pos hmore]
      refine .stop ⟨.getBlockChecksum hstage hunderway recollects hflag rfl hmore hheld hsum, ?_,
        hskip⟩
      rw [Frame.unread, List.append_assoc]
      exact hio
    · rw [if_neg hmore, if_neg hmore]
      have hfour : got + n = 4 := by omega
      rw [hrest hfour, List.nil_append] at hio
      rw [hfour, List.take_of_length_le (Nat.le_of_eq hlength)] at hheld
      rw [hheld]
      exact checkBlock_agrees hunderway recollects hflag hio hskip hsum

/-! ## A block that is delivered from the context's buffer -/

variable {Still : Int → Prop} {content : List UInt8} {size : Nat} {tmpOut start : Int}

/-- A block that has been delivered completely belongs to the past. -/
theorem Pending.toPast {history : List UInt8}
    (h : Pending B Still m start size tmpOut history content content.length) :
    Past B Still m start size (history ++ content) := by
  obtain ⟨⟨preserve, htmpOut, -, hrecent, hfits⟩, -, -, hplace⟩ := h
  rcases hplace with ⟨hstart, hend, hends⟩ | ⟨hrecalls, hstill⟩
  · refine ⟨⟨?_, ?_⟩, Or.inl ⟨hstart, by omega⟩⟩
    · rw [length_recent] at hrecent ⊢
      rw [List.length_append]
      omega
    · rw [hend]
      exact hends
  · rw [List.take_length] at hrecalls
    exact ⟨hrecalls, Or.inr hstill⟩

variable {before : List UInt8}

theorem Retains.holds (h : Retains f dict D B Still start size tmpOut m before content done) :
    m.Holds tmpOut content := by
  cases hmode : f.desc.independent with
  | true =>
    obtain ⟨-, -, htmpOut, hholds⟩ := h.independent hmode
    rw [htmpOut]
    exact hholds
  | false => exact (h.linked hmode).holds

section

variable (scene : Scene c f dict D O B Kept m₀)

include scene

/-- A part of the block written behind the output of the call has been delivered. -/
theorem Scene.deliver_pending (hinfo : d.frameInfo = f.desc.info) (howned : d.owned = B)
    (hsize : f.bufferNeeded ≤ B.size) (hstart : d.tmpOutStart = done)
    (hcontent : d.tmpOutSize = content.length) (hpast : past ++ outs = before ++ content.take done)
    (retains : Retains f dict D B (Caller Kept c.dst (c.dst + outs.length)) d.dict d.dictSize
      d.tmpOut m before content done)
    (hmore : content.take (done + more.length) = content.take done ++ more)
    (hdone : done + more.length ≤ content.length) (hholds : m.Holds c.dst (outs ++ more))
    (hfits : (outs ++ more).length ≤ c.dstSize) :
    ∃ start size m',
      (if d.frameInfo.blockMode =
      0 then updateDict d m (c.dst + outs.length) more.length c.dst true else (d, m)) =
      ({ d with dict := start, dictSize := size }, m') ∧
      Retains f dict D B (Caller Kept c.dst (c.dst + (outs ++ more).length)) start size d.tmpOut m'
      before content (done + more.length) ∧ ∀ a, a < B.tmpOut ∨ B.tmpOut + B.size ≤ a → m' a = m
      a := by
  obtain ⟨hmode, hnot⟩ | ⟨hmode, hlinked, hroom⟩ := mode_cases hinfo hsize
  · exact ⟨d.dict, d.dictSize, m, if_neg hnot, ⟨retains.independent, by simp [hmode]⟩,
      fun a _ => rfl⟩
  · have hlow := scene.sound.blockSize_le.1
    have hapart := scene.layout.dst_tmpOut
    have houts : outs <:+ dict ++ before ++ content.take done := by
      refine ⟨dict ++ past, ?_⟩
      rw [List.append_assoc, hpast, List.append_assoc]
    obtain ⟨hpending, hframe⟩ := updateDict_flushed (congrArg Owned.tmpOut howned) (by omega)
      hstart hcontent (retains.linked hmode) houts hmore hdone hholds (by omega)
      scene.layout.kept_tmpOut
    obtain ⟨start, size, hfields⟩ :=
      updateDict_fields d m (c.dst + outs.length) more.length c.dst true
    rw [hfields] at hpending
    refine ⟨start, size, _, ?_, ⟨by simp [hmode], fun _ => hpending⟩, hframe⟩
    rw [if_pos hlinked, ← hfields]

/-- The bytes of a decoded block that fit are delivered. -/
theorem flushTmpOut_spec
    (h : LoopAt c f dict D O B Kept m₀ whole past after skip ⟨.flush p rest done, avail,
      room⟩ outs ⟨d, m, srcPtr, dstPtr⟩) (hn : n = min (p.content.length - done) room) :
    ∃ d' m', flushTmpOut c ⟨d, m, srcPtr, dstPtr⟩ = ⟨d', m', srcPtr, dstPtr + n⟩ ∧
      LoopAt c f dict D O B Kept m₀ whole past after skip ⟨.flush p rest (done + n), avail,
      room - n⟩ (outs ++ (p.content.drop done).take n) ⟨d', m', srcPtr, dstPtr + n⟩ := by
  obtain ⟨hplace, io, hskip⟩ := h
  cases hplace with
  | flushOut before hstage underway hpast retains hsize hstart hdone hcontent =>
  dsimp only at hstage underway hpast retains hsize hstart io hskip
  unfold flushTmpOut
  dsimp only
  rw [io.room_eq scene.layout, hsize, hstart, ← hn]
  by_cases hnull : dstPtr = 0
  · -- without an output buffer nothing is copied
    have hroom := io.room_of_null scene.layout hnull
    have hzero : n = 0 := by omega
    subst hzero
    refine ⟨d, m, ?_, ?_⟩
    · rw [if_neg (by simpa using hnull)]
      simp
    · simp only [Nat.add_zero, Nat.sub_zero, List.take_zero, List.append_nil, Nat.cast_zero,
        Int.add_zero]
      exact ⟨.flushOut before hstage underway hpast retains hsize hstart hdone hcontent, io, hskip⟩
  · obtain ⟨bytes, hbytes⟩ : ∃ bytes, bytes = (p.content.drop done).take n := ⟨_, rfl⟩
    have hdrop : (p.content.drop done).length = p.content.length - done := List.length_drop
    have hlength : bytes.length = n := by
      rw [hbytes, List.length_take]
      omega
    have hheld : m.Holds (d.tmpOut + done) bytes := by
      rw [hbytes]
      exact (retains.holds.drop hdone).take n
    have hapart := fun a => scene.copy_apart (d.tmpOut + done) io
      (show n ≤ room by omega) a
    obtain ⟨houtput, hproduced⟩ := scene.copy_out io (by omega) hheld
    rw [hlength] at houtput hproduced
    obtain ⟨m₁, hm₁⟩ : ∃ m₁, m₁ = m.copy dstPtr (d.tmpOut + done) n := ⟨_, rfl⟩
    rw [← hm₁] at hapart houtput hproduced
    have hneeded : p.content.length ≤ B.size := by
      have hsize := underway.size_ge
      unfold Frame.bufferNeeded at hsize
      omega
    have hretains := retains.congr hneeded (fun a ha => (hapart a (Or.inl ha)).symm) fun a ha => ha
    have hfits : (outs ++ bytes).length ≤ c.dstSize := by
      have hroom := io.room
      rw [List.length_append]
      omega
    have hdst := io.dst
    have htake : p.content.take (done + bytes.length) = p.content.take done ++ bytes := by
      rw [hlength, hbytes, ← List.take_add]
    rw [hdst] at hretains
    obtain ⟨start, size, m', hupdate, hretains', hframe⟩ := scene.deliver_pending underway.info
      underway.owned underway.size_ge hstart hsize hpast hretains htake (by omega) houtput hfits
    rw [← hdst, hlength] at hupdate
    rw [hlength] at hretains' htake
    rw [if_pos hnull, ← hm₁, hupdate]
    refine ⟨_, m', rfl, ?_⟩
    rw [← hbytes]
    have hsplit : p.content.drop done = bytes ++ p.content.drop (done + n) := by
      rw [hbytes, ← List.drop_drop, List.take_append_drop]
    refine ⟨.flushOut before hstage ?_ ?_ ?_ hsize ?_ (by omega) hcontent, hproduced m' hframe, hskip⟩
    · refine ⟨underway.info, underway.maxBlockSize, underway.owned, underway.size_ge,
        underway.header, ?_, ?_, ?_⟩
      · have hdecoded : past ++ outs ++ (Place.flush p rest done).pending =
            past ++ (outs ++ bytes) ++ (Place.flush p rest (done + n)).pending := by
          rw [Place.pending, Place.pending, hsplit]
          simp
        have hcounts := underway.counts
        rw [hdecoded] at hcounts
        exact ⟨hcounts.xxh, hcounts.remaining⟩
      · rw [underway.content, Frame.owed, Frame.owed, Place.current, Place.current, hsplit]
        simp [Frame.rest]
      · have hstand := underway.stand
        rw [Place.current, hsplit] at hstand
        rw [Place.current, ← List.append_assoc past, List.append_assoc (past ++ outs)]
        exact hstand
    · rw [← List.append_assoc, hpast, List.append_assoc, ← htake]
    · have hstop : dstPtr + n = c.dst + (outs ++ bytes).length := by
        rw [List.length_append]
        omega
      rw [hstop]
      exact hretains'
    · change d.tmpOutStart + n = _
      rw [hstart]

/-- `dstage_flushOut` -/
theorem flushOut_agrees (place : Place)
    (h : LoopAt c f dict D O B Kept m₀ whole past after skip ⟨.flush p rest done, avail,
      room⟩ outs ⟨d, m, srcPtr, dstPtr⟩) :
    Agrees c f dict D O B Kept m₀ whole past after skip (flushOut c ⟨d, m, srcPtr, dstPtr⟩)
      (Frame.turnFlush ⟨place, avail, room⟩ p rest done) := by
  obtain ⟨n, hn⟩ : ∃ n, n = min (p.content.length - done) room := ⟨_, rfl⟩
  obtain ⟨d', m', hflush, hat⟩ := flushTmpOut_spec scene h hn
  have hplace := hat.place
  have hio := hat.io
  cases hplace with
  | flushOut before hstage underway hpast retains hsize hstart hdone hcontent =>
  unfold flushOut Frame.turnFlush
  rw [hflush, ← hn]
  dsimp only
  rw [hstart, hsize]
  by_cases hall : done + n = p.content.length
  · rw [if_pos hall, if_pos hall]
    rw [hall] at underway retains hpast
    rw [List.take_length] at hpast
    have hnone : p.content.drop p.content.length = [] := List.drop_length
    refine .next ⟨.getBlockHeader rfl (underway.move ⟨rfl, rfl, rfl, rfl, rfl, rfl, id⟩ ?_ ?_ ?_)
      ⟨?_, ?_⟩, hio, hat.skip_eq⟩
    · rw [Place.pending, hnone]
      rfl
    · rw [Frame.owed, Frame.owed, Place.current, hnone]
      rfl
    · have hstand := underway.stand
      rw [Place.current, hnone] at hstand
      exact hstand
    · intro hmode
      obtain ⟨hdict, hdictSize, htmpOut, -⟩ := retains.independent hmode
      exact ⟨hdict, hdictSize, htmpOut⟩
    · intro hmode
      have hpast' := (retains.linked hmode).toPast
      rw [List.append_assoc, ← hpast] at hpast'
      exact hpast'
  · rw [if_neg hall, if_neg hall]
    exact .stop hat

end

end Lz4.Lz4f
