import Lz4.Frame.Pass

/-!
# A call of the frame decompressor

Between two calls the caller may do what it likes with its memory, apart from the dictionary and
the output that it has promised to keep; a call takes a context that is at some place of the frame
to the place where the abstract reader stops, and answers what the reader answers
(`decompress_yields`).
-/

namespace Lz4.Lz4f

open FlatMemory Machine

variable {c : DecompressCall} {f : Frame} {dict : List UInt8} {D : Int} {O B : Owned}
  {Kept : Int → Prop} {m₀ : Mem} {whole past after : List UInt8} {skip : Bool}

/-! ## Into a call -/

variable {blockSize : Nat}

theorem not_foreign_tmpOut {a : Int} (hlow : B.tmpOut ≤ a) (hhigh : a < B.tmpOut + B.size) :
    ¬ Foreign B blockSize a := by
  intro h
  have hapart := h.tmpOut
  omega

variable {m m' : Mem}

theorem Mem.Holds.congr_tmpIn {bytes : List UInt8} (h : m.Holds B.tmpIn bytes)
    (hlength : bytes.length ≤ blockSize + 4) (hm : ∀ a, ¬ Foreign B blockSize a → m a = m' a) :
    m'.Holds B.tmpIn bytes := by
  refine h.congr fun a hlow hhigh => hm a fun hforeign => ?_
  have hapart := hforeign.tmpIn
  omega

variable {place : Place} {d : Dctx} {start tmpOut : Int} {size : Nat}

/-- A context stays at its place if the history, the block that is delivered and the field that is
read survive a change; `R` is what else is known of it. -/
theorem At.transfer {R : Prop} {Still Still' : Int → Prop} {skip : Bool}
    (h : At f dict D O B Still d m past place) (hskip : skip = false → d.skipChecksum = false)
    (hstart : d.dStage.index < Stage.init.index ∨ place = .ready →
      (start = d.dict ∧ size = d.dictSize) ∧ R)
    (hpast : Underway f dict B d past place →
      Stage.init.index < d.dStage.index ∧ d.dStage.index < Stage.flushOut.index →
      Recollects f dict D B Still d.dict d.dictSize d.tmpOut m past →
      Recollects f dict D B Still' start size tmpOut m' past ∧ R)
    (hflush : ∀ before content done, Underway f dict B d past place → d.dStage = .flushOut →
      d.tmpOutStart = done → d.tmpOutSize = content.length → content.length ≤ f.blockSize →
      Retains f dict D B Still d.dict d.dictSize d.tmpOut m before content done →
      Retains f dict D B Still' start size tmpOut m' before content done ∧ R)
    (hend : Stage.getSuffix.index ≤ d.dStage.index → R)
    (hfield : ∀ bytes : List UInt8, R → bytes.length ≤ f.blockSize + 4 → m.Holds B.tmpIn bytes →
      m'.Holds B.tmpIn bytes) :
    At f dict D O B Still' { d with
      dict := start, dictSize := size, tmpOut := tmpOut, skipChecksum := skip } m' past place ∧ R := by
  have hmove (underway : Underway f dict B d past place) : Underway f dict B { d with
      dict := start, dictSize := size, tmpOut := tmpOut, skipChecksum := skip } past place :=
    underway.move ⟨rfl, rfl, rfl, rfl, rfl, rfl, hskip⟩ rfl rfl underway.stand
  have hstarting (starting : Starting dict D O d past)
      (hstage : d.dStage.index < Stage.init.index ∨ place = .ready) : Starting dict D O { d with
        dict := start, dictSize := size, tmpOut := tmpOut, skipChecksum := skip } past := by
    obtain ⟨⟨rfl, rfl⟩, -⟩ := hstart hstage
    exact ⟨starting.past_eq, starting.dict_eq, starting.dictSize, starting.owned, starting.header⟩
  cases h with
  | getFrameHeader hstage starting hremaining =>
    exact ⟨.getFrameHeader hstage (hstarting starting (.inl (by rw [hstage]; decide))) hremaining,
      (hstart (.inl (by rw [hstage]; decide))).2⟩
  | storeFrameHeader hstage starting hremaining hsize htarget hpos hgot hbytes =>
    exact ⟨.storeFrameHeader hstage (hstarting starting (.inl (by rw [hstage]; decide))) hremaining
      hsize htarget hpos hgot hbytes, (hstart (.inl (by rw [hstage]; decide))).2⟩
  | init hstage starting hinfo hmax hremaining =>
    exact ⟨.init hstage (hstarting starting (.inr rfl)) hinfo hmax hremaining,
      (hstart (.inr rfl)).2⟩
  | getBlockHeader hstage underway recollects =>
    obtain ⟨recollects', hR⟩ := hpast underway (by rw [hstage]; decide) recollects
    exact ⟨.getBlockHeader hstage (hmove underway) recollects', hR⟩
  | storeBlockHeader hstage underway recollects hsize hgot hbytes =>
    obtain ⟨recollects', hR⟩ := hpast underway (by rw [hstage]; decide) recollects
    exact ⟨.storeBlockHeader hstage (hmove underway) recollects' hsize hgot
      (hfield _ hR (by rw [List.length_take]; omega) hbytes), hR⟩
  | copyDirect hstage underway recollects hraw htarget hdone hsum =>
    obtain ⟨recollects', hR⟩ := hpast underway (by rw [hstage]; decide) recollects
    exact ⟨.copyDirect hstage (hmove underway) recollects' hraw htarget hdone
      fun hflag h => hsum hflag (hskip h), hR⟩
  | getBlockChecksum hstage underway recollects hflag hsize hgot hbytes hsum =>
    obtain ⟨recollects', hR⟩ := hpast underway (by rw [hstage]; decide) recollects
    exact ⟨.getBlockChecksum hstage (hmove underway) recollects' hflag hsize hgot hbytes
      fun h => hsum (hskip h), hR⟩
  | getCBlock hstage underway recollects hraw stands htarget =>
    obtain ⟨recollects', hR⟩ := hpast underway (by rw [hstage]; decide) recollects
    exact ⟨.getCBlock hstage (hmove underway) recollects' hraw stands htarget, hR⟩
  | storeCBlock hstage underway recollects hraw stands htarget hsize hgot hbytes =>
    obtain ⟨recollects', hR⟩ := hpast underway (by rw [hstage]; decide) recollects
    refine ⟨.storeCBlock hstage (hmove underway) recollects' hraw stands htarget hsize hgot
      (hfield _ hR ?_ hbytes), hR⟩
    have hdata := stands.data_le
    have hfooter : f.footerSize ≤ 4 := by
      unfold Frame.footerSize
      split <;> omega
    rw [List.length_take, List.length_append, f.length_footer]
    omega
  | flushOut before hstage underway heq retains hsize hfrom hdone hcontent =>
    obtain ⟨retains', hR⟩ := hflush _ _ _ underway hstage hfrom hsize hcontent retains
    exact ⟨.flushOut before hstage (hmove underway) heq retains' hsize hfrom hdone hcontent, hR⟩
  | getSuffix hstage underway =>
    exact ⟨.getSuffix hstage (hmove underway), hend (by rw [hstage])⟩
  | storeSuffix hstage underway hflag hmatches hsize hgot hbytes =>
    have hR := hend (by rw [hstage]; decide)
    exact ⟨.storeSuffix hstage (hmove underway) hflag hmatches hsize hgot
      (hfield _ hR (by rw [List.length_take]; omega) hbytes), hR⟩

/-- A context that has been left alone is still where it was; it may be told to skip the
checksums. -/
theorem At.resume {Still : Int → Prop} (h : At f dict D O B Kept d m past place)
    (hm : ∀ a, Kept a ∨ ¬ Foreign B f.blockSize a → m a = m' a) (hstill : ∀ a, Kept a → Still a)
    (skipChecksums : Bool) :
    At f dict D O B Still { d with skipChecksum := d.skipChecksum || skipChecksums } m' past
      place := by
  have hmem : ∀ a, Kept a ∨ B.tmpOut ≤ a ∧ a < B.tmpOut + B.size → m a = m' a := by
    rintro a (hkept | ⟨hlow, hhigh⟩)
    · exact hm a (Or.inl hkept)
    · exact hm a (Or.inr (not_foreign_tmpOut hlow hhigh))
  refine (h.transfer (R := True) (fun h => (Bool.or_eq_false_iff.1 h).1)
    (fun _ => ⟨⟨rfl, rfl⟩, trivial⟩)
    (fun _ _ recollects => ⟨recollects.congr hmem hstill, trivial⟩) ?_ (fun _ => trivial)
    (fun bytes _ hlength hheld =>
      Mem.Holds.congr_tmpIn hheld hlength fun a ha => hm a (Or.inr ha))).1
  intro before content done underway _ _ _ hcontent retains
  have hneeded := underway.size_ge
  unfold Frame.bufferNeeded at hneeded
  exact ⟨retains.congr (by omega) hmem hstill, trivial⟩

/-! ## Out of a call -/

/-- What a caller keeps behind a call that has written `written` bytes. -/
def Keeps (c : DecompressCall) (D : Int) (dictSize : Nat) (Kept : Int → Prop) (written : Nat)
    (a : Int) : Prop :=
  D ≤ a ∧ a < D + dictSize ∨ c.stableDst = true ∧ Caller Kept c.dst (c.dst + written) a

/-- The end of a call leaves a context alone that is not among linked blocks. -/
theorem preserveHistory_eq
    (h : d.frameInfo.blockMode ≠ 0 ∨ d.dStage.index < Stage.init.index ∨ Stage.getSuffix.index ≤
      d.dStage.index) : preserveHistory c d m = (d, m) := by
  unfold preserveHistory
  rw [if_neg]
  rintro ⟨hmode, -, -, -, hlow, hhigh⟩
  omega

/-- A caller that promises a stable output keeps what holds still in the call. -/
theorem keeps_of_stable (D : Int) (dictSize : Nat) {written : Nat} (h : c.stableDst = true) (a : Int)
    (ha : Caller Kept c.dst (c.dst + written) a) : Keeps c D dictSize Kept written a :=
  Or.inr ⟨h, ha⟩

section

variable {d : Dctx} {m : Mem} {place : Place} {written : Nat}
  (scene : Scene c f dict D O B Kept m₀) (hwritten : written ≤ c.dstSize)

include scene hwritten

theorem Scene.caller_apart (a : Int) (ha : Caller Kept c.dst (c.dst + written) a) :
    0 < a ∧ (a < B.tmpOut ∨ B.tmpOut + B.size ≤ a) :=
  have hapart := scene.still_apart (by omega) a ha
  ⟨hapart.1, hapart.2.tmpOut⟩

/-- The history between blocks survives the end of a call. -/
theorem Recollects.preserve (underway : Underway f dict B d past place)
    (hamid : Stage.init.index < d.dStage.index ∧ d.dStage.index < Stage.flushOut.index)
    (recollects : Recollects f dict D B (Caller Kept c.dst (c.dst + written)) d.dict d.dictSize
      d.tmpOut m past) : let r := preserveHistory c d m
    Recollects f dict D B (Keeps c D dict.length Kept written) r.1.dict r.1.dictSize r.1.tmpOut r.2
      past ∧ ∀ a, a < B.tmpOut ∨ B.tmpOut + B.size ≤ a → r.2 a = m a := by
  dsimp only
  obtain ⟨hmode, hnot⟩ | ⟨hmode, hlinked, hsize⟩ :=
    mode_cases underway.info underway.size_ge
  · rw [preserveHistory_eq (Or.inl hnot)]
    exact ⟨⟨recollects.independent, by simp [hmode]⟩, fun a _ => rfl⟩
  · have hstage : d.dStage ≠ .flushOut := fun h => by
      rw [h] at hamid
      exact absurd hamid.2 (by decide)
    have horder : Stage.flushOut.index < Stage.getSuffix.index := by decide
    obtain ⟨hpast, hframe⟩ := preserveHistory_past (c := c) (by omega) underway.tmpOutBuffer hlinked
      hstage (by omega) (by omega) (scene.caller_apart hwritten)
      (fun hstable a ha => keeps_of_stable D dict.length hstable a ha) (recollects.linked hmode)
    exact ⟨⟨by simp [hmode], fun _ => hpast⟩, hframe⟩

/-- So does a block that has not been delivered. -/
theorem Retains.preserve {before content : List UInt8} {done : Nat}
    (underway : Underway f dict B d past place) (hstage : d.dStage = .flushOut)
    (hstart : d.tmpOutStart = done) (hcontent : d.tmpOutSize = content.length)
    (retains : Retains f dict D B (Caller Kept c.dst (c.dst + written)) d.dict d.dictSize d.tmpOut m
      before content done) : let r := preserveHistory c d m
    Retains f dict D B (Keeps c D dict.length Kept written) r.1.dict r.1.dictSize r.1.tmpOut r.2
      before content done ∧ ∀ a, a < B.tmpOut ∨ B.tmpOut + B.size ≤ a → r.2 a = m a := by
  dsimp only
  obtain ⟨hmode, hnot⟩ | ⟨hmode, hlinked, hsize⟩ :=
    mode_cases underway.info underway.size_ge
  · rw [preserveHistory_eq (Or.inl hnot)]
    exact ⟨⟨retains.independent, by simp [hmode]⟩, fun a _ => rfl⟩
  · obtain ⟨hpending, hframe⟩ := preserveHistory_pending (c := c) (by omega) underway.tmpOutBuffer
      hlinked hstage hstart hcontent (scene.caller_apart hwritten)
      (fun hstable a ha => keeps_of_stable D dict.length hstable a ha) (retains.linked hmode)
    exact ⟨⟨by simp [hmode], fun _ => hpending⟩, hframe⟩

/-- **A context stays where it is when a call ends.** -/
theorem At.preserve (hplace : place ≠ .ready)
    (h : At f dict D O B (Caller Kept c.dst (c.dst + written)) d m past place) :
    At f dict D O B (Keeps c D dict.length Kept written) (preserveHistory c d m).1
      (preserveHistory c d m).2 past place ∧ (preserveHistory c d m).1.skipChecksum =
      d.skipChecksum ∧ ∀ a, a < B.tmpOut ∨ B.tmpOut + B.size ≤ a → (preserveHistory c d m).2 a = m
      a := by
  have hblocks := scene.layout.blocks_apart
  obtain ⟨start, size, tmpOut, hfields⟩ := preserveHistory_fields c d m
  rw [hfields]
  refine And.imp_right (And.intro rfl) (h.transfer id ?_ ?_ ?_ ?_ ?_)
  · rintro (hlow | hready)
    · rw [preserveHistory_eq (.inr (.inl hlow))] at hfields ⊢
      exact ⟨⟨(congrArg Dctx.dict hfields).symm, (congrArg Dctx.dictSize hfields).symm⟩,
        fun a _ => rfl⟩
    · exact absurd hready hplace
  · intro underway hamid recollects
    have hpast := recollects.preserve scene hwritten underway hamid
    dsimp only at hpast
    rw [hfields] at hpast
    exact hpast
  · intro before content done underway hstage hstart hcontent _ retains
    have hpending := retains.preserve scene hwritten underway hstage hstart hcontent
    dsimp only at hpending
    rw [hfields] at hpending
    exact hpending
  · intro hhigh a _
    rw [preserveHistory_eq (.inr (.inr hhigh))]
  · exact fun bytes hframe hlength hheld =>
      hheld.congr fun a hlow hhigh => (hframe a (by omega)).symm

end

/-! ## The whole call -/

/-- What a call leaves behind that has taken the reader to `r` and written `outs`. -/
structure Advances (c : DecompressCall) (f : Frame) (B : Owned) (m : Mem) (place : Place)
    (after : List UInt8) (r : Reader) (outs : List UInt8) (o : Outcome) : Prop where
  srcRead : o.srcRead + r.avail = c.srcSize
  dstWritten : o.dstWritten + r.room = c.dstSize
  outs_length : outs.length = o.dstWritten
  output : o.mem.Holds c.dst outs
  flow : f.unread r.place ++ after = (f.unread place ++ after).drop o.srcRead
  still : ∀ a, Foreign B f.blockSize a → a < c.dst ∨ c.dst + c.dstSize ≤ a → o.mem a = m a

/-- A call on a context at `place` that has delivered `past` answers what the reader answers, and
leaves the context where the reader is. -/
inductive Yields (c : DecompressCall) (f : Frame) (dict : List UInt8) (D : Int) (O B : Owned)
    (Kept : Int → Prop) (m : Mem) (past after : List UInt8) (place : Place) (skip : Bool)
    (o : Outcome) : Reply → Prop
  | stop {r : Reader} {hint : Nat} {outs : List UInt8} (code : o.code = .ok hint)
      (stops : f.Stops r hint) (advances : Advances c f B m place after r outs o)
      (at_ : At f dict D O B (Keeps c D dict.length Kept o.dstWritten) o.dctx o.mem (past ++ outs)
        r.place)
      (skip_eq : o.dctx.skipChecksum = skip) :
      Yields c f dict D O B Kept m past after place skip o (.stop r hint)
  | finished {avail room : Nat} {outs : List UInt8} (code : o.code = .ok 0)
      (advances : Advances c f B m place after ⟨.finished, avail, room⟩ outs o) (idle : Idle o.dctx)
      (all : past ++ outs = f.content) (sizeMatches : f.SizeMatches) :
      Yields c f dict D O B Kept m past after place skip o (.stop ⟨.finished, avail, room⟩ 0)
  | fail {e : FrameError} (code : o.code = .error e) (srcRead : o.srcRead = 0)
      (dstWritten : o.dstWritten = 0) (faults : f.Faults skip e) :
      Yields c f dict D O B Kept m past after place skip o (.fail e)
  | idle {r : Reader} (code : o.code = .ok minFHSize) (srcRead : o.srcRead = 0)
      (dstWritten : o.dstWritten = 0) (srcSize : c.srcSize = 0) (place_eq : place = .header 0)
      (at_ : At f dict D O B (Keeps c D dict.length Kept 0) o.dctx o.mem past place)
      (still : ∀ a, Foreign B f.blockSize a → a < c.dst ∨ c.dst + c.dstSize ≤ a → o.mem a = m a)
      (skip_eq : o.dctx.skipChecksum = skip) :
      Yields c f dict D O B Kept m past after place skip o (.idle r)

/-- The start of the loop. -/
theorem loopAt_start (hat : At f dict D O B Kept d m past place)
    (hinput : m.Holds c.src ((f.unread place ++ after).take c.srcSize))
    (hsupply : c.srcSize ≤ (f.unread place ++ after).length) :
    LoopAt c f dict D O B Kept m (f.unread place ++ after) past after
      (d.skipChecksum || c.skipChecksums) ⟨place, c.srcSize,
      c.dstSize⟩ [] ⟨{ d with skipChecksum := d.skipChecksum || c.skipChecksums }, m, c.src,
      c.dst⟩ := by
  refine ⟨?_, ⟨rfl, Nat.le_refl _, ?_, ?_, Nat.zero_add _, hsupply, hinput, rfl, fun a _ _ => rfl⟩,
    rfl⟩
  · rw [List.append_nil]
    exact hat.resume (fun a _ => rfl) (fun a ha => Or.inl ha) c.skipChecksums
  · rw [Nat.sub_self, List.drop_zero]
  · simp

theorem Agrees.related {x : Step Loop Ending} {y : Step Reader Reply}
    (h : Agrees c f dict D O B Kept m₀ whole past after skip x y) :
    x.Related (fun s r => ∃ outs, LoopAt c f dict D O B Kept m₀ whole past after skip r outs s)
      (fun e reply => Agrees c f dict D O B Kept m₀ whole past after skip (.done e) (.done reply))
      y := by
  cases h with
  | next h => exact .next ⟨_, h⟩
  | stop h => exact .done (.stop h)
  | finished hidle hall io => exact .done (.finished hidle hall io)
  | fail => exact .done .fail
  | idle h => exact .done (.idle h)

/-- The pointers of a loop that has been left. -/
theorem Io.advances {r : Reader} {srcPtr dstPtr : Int} {outs : List UInt8} {o : Outcome}
    (layout : Layout c B f.blockSize Kept)
    (io : Io c B f.blockSize m (f.unread place ++ after) (f.unread r.place ++ after) r.avail r.room
      outs m' srcPtr dstPtr) (hmem : ∀ a, a < B.tmpOut ∨ B.tmpOut + B.size ≤ a → o.mem a = m' a)
    (hsrc : o.srcRead = (srcPtr - c.src).toNat) (hdst : o.dstWritten = (dstPtr - c.dst).toNat) :
    Advances c f B m place after r outs o := by
  obtain ⟨hsrcPtr, havail, hflow, hdstPtr, hroom, -, -, houtput, hstill⟩ := io
  refine ⟨by omega, by omega, by omega, houtput.congr fun a hlow hhigh => (hmem a ?_).symm, ?_,
    fun a ha hout => ?_⟩
  · have hapart := layout.dst_tmpOut
    omega
  · rw [hflow]
    congr 1
    omega
  · rw [hmem a ha.tmpOut, hstill a ha hout]

/-- **A call of `LZ4F_decompress` answers what the abstract reader answers.** -/
theorem decompress_yields (scene : Scene c f dict D O B Kept m)
    (hat : At f dict D O B Kept d m past place) (hproper : f.Proper place)
    (hinput : m.Holds c.src ((f.unread place ++ after).take c.srcSize))
    (hsupply : c.srcSize ≤ (f.unread place ++ after).length) :
    ∃ o reply, decompress c d m = some o ∧
      f.serve (d.skipChecksum || c.skipChecksums) ⟨place, c.srcSize, c.dstSize⟩ = some reply ∧
      Yields c f dict D O B Kept m past after place (d.skipChecksum || c.skipChecksums) o
      reply := by
  obtain ⟨skip, hskip⟩ : ∃ skip, skip = (d.skipChecksum || c.skipChecksums) := ⟨_, rfl⟩
  obtain ⟨reply, hserve, hreplies⟩ :=
    f.serve_replies skip (show f.Proper (Reader.mk place c.srcSize c.dstSize).place from hproper)
  have hstart := loopAt_start hat hinput hsupply
  rw [← hskip] at hstart ⊢
  obtain ⟨e, hloop, hagrees⟩ := iterate_lockstep
    (R := fun s r => ∃ outs, LoopAt c f dict D O B Kept m (f.unread place ++ after) past after skip
      r outs s)
    (E := fun e reply => Agrees c f dict D O B Kept m (f.unread place ++ after) past after skip
      (.done e) (.done reply))
    (fun s r h => by
      obtain ⟨outs, h⟩ := h
      obtain ⟨x, hx, hagrees⟩ := pass_agrees scene h
      exact ⟨x, hx, hagrees.related⟩) ⟨[], hstart⟩ hserve
  have hdecompress : decompress c d m = some (finish c e) := by
    unfold decompress
    dsimp only at hloop ⊢
    rw [← hskip, hloop]
    rfl
  refine ⟨_, reply, hdecompress, hserve, ?_⟩
  cases hagrees with
  | @stop s r outs hint h =>
    rcases hreplies with hstops | ⟨hover, -, -⟩
    · have hio := h.io
      have hwritten : s.dstPtr = c.dst + outs.length := hio.dst
      have hroom := hio.room
      have hplace := h.place
      rw [hwritten] at hplace
      obtain ⟨hat', hskip', hframe⟩ := hplace.preserve scene (by omega) hstops.begun
      have hadvances := hio.advances scene.layout (o := finish c (.stop s hint)) hframe rfl rfl
      refine .stop rfl hstops hadvances ?_ (hskip'.trans h.skip_eq)
      rw [← hadvances.outs_length]
      exact hat'
    · have hplace := h.place
      rw [hover] at hplace
      cases hplace
  | @finished s avail room outs hidle hall io =>
    have hkept : preserveHistory c s.dctx s.mem = (s.dctx, s.mem) :=
      preserveHistory_eq (Or.inr (Or.inl (by rw [hidle.stage]; decide)))
    have hfinish : finish c (.stop s 0) = ⟨s.dctx, s.mem, (s.srcPtr - c.src).toNat,
        (s.dstPtr - c.dst).toNat, .ok 0⟩ := by
      rw [finish, hkept]
    rw [hfinish]
    rcases hreplies with hstops | ⟨-, -, hmatches⟩
    · exact hstops.proper.elim
    · exact .finished rfl (io.advances (r := ⟨.finished, avail, room⟩) scene.layout (fun a _ => rfl) rfl
        rfl) hidle hall hmatches
  | @fail s e => exact .fail rfl rfl rfl hreplies
  | @idle s r outs h =>
    obtain ⟨rfl, hplace, havail⟩ := hreplies
    subst hplace
    have hat' := h.place
    have hstill := h.io.still
    cases hat' with
    | getFrameHeader hstage starting hremaining =>
      have hnil := List.append_eq_nil_iff.1 starting.past_eq
      rw [hnil.1]
      rw [starting.past_eq] at starting
      exact .idle rfl rfl rfl havail rfl (.getFrameHeader hstage starting hremaining) hstill
        h.skip_eq
    | storeFrameHeader _ _ _ _ _ hpos => exact absurd hpos (Nat.lt_irrefl 0)

end Lz4.Lz4f
