import Lz4.Decoder.Bounds
import Lz4.Frame.Run

/-!
# The state machine on any input

Nothing is assumed about the input here: it may be cut off, damaged or no frame at all.  A pass
that does not end the loop either consumes input or moves on to a stage of smaller rank
(`Stage.rank`), so every call ends.  A context that a call can be resumed with (`Resumable`) waits
for at least one byte, of input or of room, so a call that gets both does not leave empty-handed.

A pass of the loop is described once, by `Goes`, for both purposes.
-/

namespace Lz4.Lz4f

open FlatMemory Machine

/-! ## What a header can lead to -/

variable {p : Prop}

/-- A check that was passed on the way to a result. -/
theorem passed_of_ite {δ ε α : Type} [Decidable p] {d d' : δ} {e : ε} {x : δ × Except ε α} {r : α}
    (h : (if p then (d, .error e) else x) = (d', .ok r)) : ¬ p ∧ x = (d', .ok r) := by
  by_cases hp : p
  · rw [if_pos hp] at h
    cases congrArg Prod.snd h
  · rw [if_neg hp] at h
    exact ⟨hp, h⟩

/-- The ways out of `LZ4F_decodeHeader` without an error. -/
inductive HeaderRead (d : Dctx) (src : List UInt8) (inHeader : Bool) : Dctx → Nat → Prop
  | skippableStored (skippable : isSkippable (leValue (src.take 4)) = true)
      (inHeader_eq : inHeader = true) :
      HeaderRead d src inHeader
        { d with
          frameInfo := { frameType := 1 }, tmpInSize := src.length, tmpInTarget := 8,
          dStage := .storeSFrameSize } src.length
  | skippable : HeaderRead d src inHeader
      { d with frameInfo := { frameType := 1 }, dStage := .getSFrameSize } 4
  | incomplete {size : Nat} (skippable : isSkippable (leValue (src.take 4)) = false)
      (length_lt : src.length < size) (size_le : size ≤ 19) :
      HeaderRead d src inHeader
        { d with
          frameInfo := {}, header := if inHeader then d.header else overwrite d.header 0 src,
          tmpInSize := src.length, tmpInTarget := size, dStage := .storeFrameHeader } src.length
  | complete {info : FrameInfo} {remaining : UInt64} {size : Nat}
      (id_ge : 4 ≤ info.blockSizeID) (id_le : info.blockSizeID ≤ 7) :
      HeaderRead d src inHeader
        { d with
          frameInfo := info, maxBlockSize := getBlockSize info.blockSizeID,
          frameRemainingSize := remaining, dStage := .init } size

variable {d d' : Dctx} {src : List UInt8} {inHeader : Bool} {r : Nat}

theorem decodeHeader_read (hdecode : decodeHeader d src inHeader = (d', .ok r)) :
    7 ≤ src.length ∧ HeaderRead d src inHeader d' r := by
  unfold decodeHeader at hdecode
  obtain ⟨hlength, hdecode⟩ := passed_of_ite hdecode
  refine ⟨Nat.not_lt.1 hlength, ?_⟩
  by_cases hskippable : isSkippable (leValue (src.take 4)) = true
  · rw [if_pos hskippable] at hdecode
    by_cases hin : inHeader = true
    · rw [if_pos hin] at hdecode
      obtain ⟨rfl, hr⟩ := Prod.mk.inj hdecode
      rw [← Except.ok.inj hr]
      exact .skippableStored hskippable hin
    · rw [if_neg hin] at hdecode
      obtain ⟨rfl, hr⟩ := Prod.mk.inj hdecode
      rw [← Except.ok.inj hr]
      exact .skippable
  rw [if_neg hskippable] at hdecode
  obtain ⟨-, hdecode⟩ := passed_of_ite hdecode
  obtain ⟨-, hdecode⟩ := passed_of_ite hdecode
  obtain ⟨-, hdecode⟩ := passed_of_ite hdecode
  have hsize : minFHSize + (if ((src.getD 4 0).toNat >>> 3) &&& 1 ≠ 0 then 8 else 0) +
      (if (src.getD 4 0).toNat &&& 1 ≠ 0 then 4 else 0) ≤ 19 := by
    unfold minFHSize
    split
    · split <;> omega
    · split <;> omega
  generalize minFHSize + (if ((src.getD 4 0).toNat >>> 3) &&& 1 ≠ 0 then 8 else 0) +
    (if (src.getD 4 0).toNat &&& 1 ≠ 0 then 4 else 0) = n at hdecode hsize
  by_cases hshort : src.length < n
  · rw [if_pos hshort] at hdecode
    obtain ⟨rfl, hr⟩ := Prod.mk.inj hdecode
    rw [← Except.ok.inj hr]
    exact .incomplete (Bool.eq_false_iff.2 hskippable) hshort hsize
  · rw [if_neg hshort] at hdecode
    obtain ⟨-, hdecode⟩ := passed_of_ite hdecode
    obtain ⟨hid, hdecode⟩ := passed_of_ite hdecode
    obtain ⟨-, hdecode⟩ := passed_of_ite hdecode
    obtain ⟨-, hdecode⟩ := passed_of_ite hdecode
    obtain ⟨rfl, -⟩ := Prod.mk.inj hdecode
    exact .complete (Nat.not_lt.1 hid) Nat.and_le_right

/-- A check that was not passed, or was. -/
theorem failed_of_ite {δ ε α : Type} [Decidable p] {d d' : δ} {e e' : ε} {x : δ × Except ε α}
    (h : (if p then (d, .error e) else x) = (d', .error e')) : d' = d ∨ x = (d', .error e') := by
  by_cases hp : p
  · rw [if_pos hp] at h
    exact .inl (congrArg Prod.fst h).symm
  · rw [if_neg hp] at h
    exact .inr h

/-- A header that is refused leaves only the parameters of the frame behind. -/
theorem decodeHeader_refused {e : FrameError}
    (hdecode : decodeHeader d src inHeader = (d', .error e)) :
    ∃ info, d' = { d with frameInfo := info } := by
  unfold decodeHeader at hdecode
  obtain rfl | hdecode := failed_of_ite hdecode
  · exact ⟨_, rfl⟩
  by_cases hskippable : isSkippable (leValue (src.take 4)) = true
  · rw [if_pos hskippable] at hdecode
    split at hdecode <;> cases congrArg Prod.snd hdecode
  rw [if_neg hskippable] at hdecode
  obtain rfl | hdecode := failed_of_ite hdecode
  · exact ⟨_, rfl⟩
  obtain rfl | hdecode := failed_of_ite hdecode
  · exact ⟨_, rfl⟩
  obtain rfl | hdecode := failed_of_ite hdecode
  · exact ⟨_, rfl⟩
  generalize minFHSize + (if ((src.getD 4 0).toNat >>> 3) &&& 1 ≠ 0 then 8 else 0) +
    (if (src.getD 4 0).toNat &&& 1 ≠ 0 then 4 else 0) = n at hdecode
  by_cases hshort : src.length < n
  · rw [if_pos hshort] at hdecode
    cases congrArg Prod.snd hdecode
  rw [if_neg hshort] at hdecode
  obtain rfl | hdecode := failed_of_ite hdecode
  · exact ⟨_, rfl⟩
  obtain rfl | hdecode := failed_of_ite hdecode
  · exact ⟨_, rfl⟩
  obtain rfl | hdecode := failed_of_ite hdecode
  · exact ⟨_, rfl⟩
  obtain rfl | hdecode := failed_of_ite hdecode
  · exact ⟨_, rfl⟩
  cases congrArg Prod.snd hdecode

/-! ## Contexts that wait -/

/-- What a context that has stopped at `stage` waits for: at least one byte. -/
def Dctx.WaitsAt (d : Dctx) : Stage → Prop
  | .storeFrameHeader => d.tmpInSize < d.tmpInTarget ∧ d.tmpInTarget ≤ 19 ∧
      (d.tmpInTarget = minFHSize ∨
        minFHSize ≤ d.tmpInSize ∧ isSkippable (leValue (d.header.take 4)) = false)
  | .storeBlockHeader => d.tmpInSize < 4
  | .getBlockChecksum => d.tmpInSize < 4
  | .flushOut => d.tmpOutStart ≤ d.tmpOutSize
  | .getSuffix => False
  | .storeSuffix => d.tmpInSize < 4
  | .storeSFrameSize => d.tmpInSize < d.tmpInTarget ∧ d.tmpInTarget ≤ 8
  | .skipSkippable => d.tmpInTarget ≠ 0
  | _ => True

/-- Where an interrupted call has stopped. -/
def Dctx.Waits (d : Dctx) : Prop := d.WaitsAt d.dStage

variable {stage : Stage}

theorem Dctx.Waits.at (hwaits : d.Waits) (h : d.dStage = stage) : d.WaitsAt stage := by
  rw [← h]
  exact hwaits

theorem Dctx.waits_of (h : d.dStage = stage) (hwaits : d.WaitsAt stage) : d.Waits := by
  rw [← h] at hwaits
  exact hwaits

/-- A context with which decoding can be resumed. -/
structure Resumable (d : Dctx) : Prop where
  header : d.header.length = 19
  waits : d.Waits

/-- The call has consumed or delivered something. -/
def Moved (c : DecompressCall) (s : Loop) : Prop := c.src < s.srcPtr ∨ c.dst < s.dstPtr

/-- Input, and room for output. -/
def DecompressCall.Supplied (c : DecompressCall) : Prop :=
  0 < c.srcSize ∧ 0 < c.dstSize ∧ c.dst ≠ 0

/-- The pointers of a call only move forwards. -/
structure Alive (c : DecompressCall) (s : Loop) : Prop where
  header : s.dctx.header.length = 19
  src : c.src ≤ s.srcPtr
  dst : c.dst ≤ s.dstPtr

/-- A call in the loop.  Two stages that wait for nothing are passed through, behind input that
has been consumed. -/
structure Awake (c : DecompressCall) (s : Loop) : Prop extends Alive c s where
  first : s.dctx.dStage = .getFrameHeader → s.srcPtr = c.src
  waits : s.dctx.Waits ∨
    Moved c s ∧ (s.dctx.dStage = .getSuffix ∨ s.dctx.dStage = .skipSkippable)

/-- A way out of the loop after which decoding can be resumed, unless it is an error. -/
def Rested (c : DecompressCall) : Ending → Prop
  | .ret s code => s.dctx.header.length = 19 ∧
      ∀ n, code = .ok n → Resumable s.dctx ∧ c.srcSize = 0
  | .stop s _ => Resumable s.dctx ∧ Alive c s ∧ (c.Supplied → Moved c s)

/-- The value that a way out of the loop returns. -/
def Ending.code : Ending → Code
  | .ret _ code => code
  | .stop _ hint => .ok hint

/-- The last stage of a frame, with the input it needs: the end mark has been read and the
announced size agrees, and so does the checksum of the content if there is one; or a skippable
frame has been skipped. -/
def FrameEnd (c : DecompressCall) (s : Loop) : Prop :=
  match s.dctx.dStage with
  | .getSuffix => s.dctx.frameRemainingSize = 0 ∧
      (s.dctx.frameInfo.contentChecksumFlag = 0 ∨ 4 ≤ c.left s ∧
        (s.dctx.skipChecksum = true ∨ readLE32 (s.mem.bytes s.srcPtr 4) = s.dctx.xxh.digest))
  | .storeSuffix => 4 ≤ s.dctx.tmpInSize + c.left s ∧
      (s.dctx.skipChecksum = true ∨
        readLE32 ((s.storeInput (4 - s.dctx.tmpInSize)).mem.bytes s.dctx.tmpIn 4) =
          s.dctx.xxh.digest)
  | .skipSkippable => s.dctx.tmpInTarget ≤ c.left s
  | _ => False

/-- How many passes a stage can lead to before input is consumed. -/
def Stage.rank : Stage → Nat
  | .getFrameHeader => 6
  | .storeFrameHeader => 5
  | .storeBlockHeader => 4
  | .copyDirect => 3
  | .getCBlock => 3
  | .getBlockChecksum => 2
  | .storeCBlock => 2
  | .flushOut => 2
  | .init => 1
  | .getBlockHeader => 1
  | .getSFrameSize => 1
  | .storeSFrameSize => 1
  | .getSuffix => 0
  | .storeSuffix => 0
  | .skipSkippable => 0

/-- The passes that are left. -/
def variant (c : DecompressCall) (s : Loop) : Nat := 4 * c.left s + s.dctx.dStage.rank

/-- A pass that goes on has a smaller variant, and the call stays awake.  One that does not leaves
a context to resume with, and it returns zero only at the end of a frame (`E`). -/
def Goes (c : DecompressCall) (E : Prop) (b : Nat) (x : Step Loop Ending) : Prop :=
  x.Ends (Awake c) (fun e => Rested c e ∧ (e.code = .ok 0 → E)) (variant c) b

variable {hint : Nat}

section

variable {c : DecompressCall} {s t : Loop} {E : Prop} {b n : Nat}

theorem Alive.forward (h : Alive c s) (hheader : t.dctx.header.length = 19)
    (hsrc : s.srcPtr ≤ t.srcPtr) (hdst : s.dstPtr ≤ t.dstPtr) : Alive c t :=
  ⟨hheader, Int.le_trans h.src hsrc, Int.le_trans h.dst hdst⟩

theorem Alive.skip (h : Alive c s) (n : Nat) : Alive c { s with srcPtr := s.srcPtr + n } :=
  h.forward h.header (Int.le_add_of_nonneg_right (Int.natCast_nonneg _)) (Int.le_refl _)

theorem Alive.storeInput (h : Alive c s) : Alive c (s.storeInput n) :=
  h.forward h.header (Int.le_add_of_nonneg_right (Int.natCast_nonneg _)) (Int.le_refl _)

theorem Alive.storeHeader (h : Alive c s) (hn : s.dctx.tmpInSize + n ≤ 19) :
    Alive c (s.storeHeader n) := by
  have hlength := h.header
  refine h.forward ?_ (Int.le_add_of_nonneg_right (Int.natCast_nonneg _)) (Int.le_refl _)
  rw [Loop.storeHeader, length_overwrite (by rw [Loop.input, Mem.length_bytes]; omega)]
  exact hlength

/-- A pass that ends in an error. -/
theorem goes_error (h : s.dctx.header.length = 19) (e : FrameError) :
    Goes c E b (.done (.ret s (.error e))) :=
  ⟨⟨h, nofun⟩, nofun⟩

/-- A pass that goes on to a stage that waits. -/
theorem goes_next (h : Alive c s) (hstage : s.dctx.dStage ≠ .getFrameHeader) (hwaits : s.dctx.Waits)
    (hb : 4 * c.left s + s.dctx.dStage.rank < b) : Goes c E b (.next s) :=
  ⟨⟨h, fun hfirst => absurd hfirst hstage, .inl hwaits⟩, hb⟩

/-- A pass that waits for input or room. -/
theorem goes_stop (h : Alive c s) (hwaits : s.dctx.Waits) (hmoved : c.Supplied → Moved c s)
    (hhint : hint ≠ 0) : Goes c E b (.done (.stop s hint)) :=
  ⟨⟨⟨h.header, hwaits⟩, h, hmoved⟩, fun hcode => absurd (Except.ok.inj hcode) hhint⟩

/-- A pass that ends a frame. -/
theorem goes_reset (h : Alive c s) (hmoved : c.Supplied → Moved c s) (hend : E) :
    Goes c E b (.done (.stop { s with dctx := s.dctx.resetDecompressionContext } hint)) :=
  ⟨⟨⟨h.header, trivial⟩, ⟨h.header, h.src, h.dst⟩, hmoved⟩, fun _ => hend⟩

/-- A call that has used up its input has moved. -/
theorem moved_of_left (hc : c.Supplied) (hleft : c.left s = 0) : Moved c s := by
  obtain ⟨hsize, -⟩ := hc
  unfold DecompressCall.left DecompressCall.srcEnd at hleft
  left
  omega

/-- A call that has used up its room has moved. -/
theorem moved_of_room (hc : c.Supplied) (hroom : c.room s = 0) : Moved c s := by
  obtain ⟨-, hsize, hne⟩ := hc
  unfold DecompressCall.room DecompressCall.dstEnd at hroom
  right
  omega

/-- A call that delivers as much as there is room for has moved. -/
theorem moved_of_delivered (h : Alive c s) (hc : c.Supplied) (hsrc : s.srcPtr ≤ t.srcPtr)
    (hdst : t.dstPtr = s.dstPtr + n) (hcause : n = c.room s ∨ s.dstPtr = 0) : Moved c t := by
  have hle := h.dst
  obtain rfl | hnull := hcause
  · by_cases hzero : c.room s = 0
    · obtain hmoved | hmoved := moved_of_room hc hzero
      · left
        omega
      · right
        omega
    · right
      omega
  · -- there is no output buffer, which does not happen in a call with room
    obtain ⟨-, -, hne⟩ := hc
    right
    omega

/-- A call that reads a part of the `k` bytes it waits for has moved. -/
theorem moved_of_read {k : Nat} (h : Alive c s) (hk : 0 < k) (hn : min k (c.left s) = n)
    (hread : t.srcPtr = s.srcPtr + n) (hc : c.Supplied) : Moved c t := by
  have hsrc := h.src
  by_cases hleft : c.left s = 0
  · obtain hmoved | hmoved := moved_of_left hc hleft
    · left
      omega
    · refine moved_of_left hc ?_
      unfold DecompressCall.left at hleft ⊢
      omega
  · left
    omega

/-- Less input is left behind some of it. -/
theorem left_add (s t : Loop) (n : Nat) (h : t.srcPtr = s.srcPtr + n) :
    c.left t = c.left s - n := by
  unfold DecompressCall.left
  omega

/-! ## The stages that read a header -/

/-- What a header leads to waits for input. -/
theorem HeaderRead.waits (h : HeaderRead d src inHeader d' r) (hlength : 7 ≤ src.length)
    (hheader : d.header.length = 19)
    (hin : inHeader = true → d.header.take 4 = src.take 4 ∧
      (src.length = 7 ∨ isSkippable (leValue (src.take 4)) = false)) :
    d'.header.length = 19 ∧ d'.Waits ∧ d'.dStage ≠ .getFrameHeader ∧ d'.dStage.rank ≤ 5 := by
  cases h with
  | skippableStored hskippable hinHeader =>
    obtain hseven | hnot := (hin hinHeader).2
    · exact ⟨hheader, ⟨by dsimp only; omega, Nat.le_refl 8⟩, Stage.noConfusion,
        (by decide : 1 ≤ 5)⟩
    · exact absurd (hskippable.symm.trans hnot) (by decide)
  | skippable => exact ⟨hheader, trivial, Stage.noConfusion, (by decide : 1 ≤ 5)⟩
  | @incomplete size hskippable hlt hle =>
    cases inHeader with
    | true =>
      refine ⟨hheader, ⟨hlt, hle, .inr ⟨hlength, ?_⟩⟩, Stage.noConfusion, Nat.le_refl 5⟩
      rw [if_pos rfl, (hin rfl).1]
      exact hskippable
    | false =>
      have htake : (overwrite d.header 0 src).take 4 = src.take 4 := by
        rw [overwrite, List.take_zero, List.nil_append,
          List.take_append_of_le_length (by omega)]
      refine ⟨?_, ⟨hlt, hle, .inr ⟨hlength, ?_⟩⟩, Stage.noConfusion, Nat.le_refl 5⟩
      · rw [if_neg (by decide), length_overwrite (by omega), hheader]
      · rw [if_neg (by decide), htake]
        exact hskippable
  | complete => exact ⟨hheader, trivial, Stage.noConfusion, (by decide : 1 ≤ 5)⟩

theorem storeFrameHeader_goes (h : Alive c s) (hstage : s.dctx.dStage = .storeFrameHeader)
    (hwaits : s.dctx.Waits) (hb : 4 * c.left s + 5 ≤ b) : Goes c E b (storeFrameHeader c s) := by
  obtain ⟨hlt, hle, hmagic⟩ := hwaits.at hstage
  unfold storeFrameHeader
  dsimp only
  generalize hn : min (s.dctx.tmpInTarget - s.dctx.tmpInSize) (c.left s) = n
  have hleft : c.left (s.storeHeader n) = c.left s - n := left_add s _ n rfl
  have halive : Alive c (s.storeHeader n) := h.storeHeader (by omega)
  -- the magic number stays where it is
  have hmagic' : s.dctx.tmpInTarget = minFHSize ∨ minFHSize ≤ s.dctx.tmpInSize ∧
      isSkippable (leValue ((s.storeHeader n).dctx.header.take 4)) = false := by
    obtain hall | ⟨hseven, hskippable⟩ := hmagic
    · exact .inl hall
    refine .inr ⟨hseven, ?_⟩
    have hlength := h.header
    have htake : (s.storeHeader n).dctx.header.take 4 = s.dctx.header.take 4 := by
      unfold minFHSize at hseven
      rw [Loop.storeHeader, overwrite, List.append_assoc,
        List.take_append_of_le_length (by rw [List.length_take]; omega), List.take_take,
        Nat.min_eq_left (by omega)]
    rw [htake]
    exact hskippable
  have hsize : (s.storeHeader n).dctx.tmpInSize = s.dctx.tmpInSize + n := rfl
  have htarget : (s.storeHeader n).dctx.tmpInTarget = s.dctx.tmpInTarget := rfl
  split
  · rename_i hshort
    refine goes_stop halive (Dctx.waits_of hstage ⟨hshort, hle, ?_⟩)
      (moved_of_read h (by omega) hn rfl) (by omega)
    exact hmagic'.imp_right (And.imp_left fun hseven => by rw [hsize]; omega)
  split
  · rename_i hdecode
    obtain ⟨info, rfl⟩ := decodeHeader_refused hdecode
    refine goes_error ?_ _
    exact halive.header
  rename_i d r hdecode
  rw [htarget] at hdecode
  obtain ⟨hlength, hread⟩ := decodeHeader_read hdecode
  have hheader := halive.header
  have hall : ((s.storeHeader n).dctx.header.take s.dctx.tmpInTarget).length =
      s.dctx.tmpInTarget := by
    rw [List.length_take]
    omega
  have hfour : (s.storeHeader n).dctx.header.take 4 =
      ((s.storeHeader n).dctx.header.take s.dctx.tmpInTarget).take 4 := by
    rw [List.take_take, Nat.min_eq_left (by omega)]
  obtain ⟨hheader', hwaits', hnot, hrank⟩ := hread.waits hlength hheader fun _ => by
    refine ⟨hfour, ?_⟩
    rw [hall, ← hfour]
    exact hmagic'.imp_right fun h => h.2
  refine goes_next (halive.forward hheader' (Int.le_refl _) (Int.le_refl _)) hnot hwaits' ?_
  show 4 * c.left (s.storeHeader n) + d.dStage.rank < b
  omega

theorem getFrameHeader_goes (h : Awake c s) (hstage : s.dctx.dStage = .getFrameHeader)
    (hb : 4 * c.left s + 6 ≤ b) : Goes c E b (getFrameHeader c s) := by
  unfold getFrameHeader
  split
  · split
    · rename_i hdecode
      obtain ⟨info, rfl⟩ := decodeHeader_refused hdecode
      refine goes_error ?_ _
      exact h.header
    rename_i d r hdecode
    obtain ⟨hlength, hread⟩ := decodeHeader_read hdecode
    obtain ⟨hheader, hwaits, hnot, hrank⟩ := hread.waits hlength h.header nofun
    refine goes_next (h.forward hheader (Int.le_add_of_nonneg_right (Int.natCast_nonneg _))
      (Int.le_refl _)) hnot hwaits ?_
    rw [left_add s _ r rfl]
    dsimp only
    omega
  · dsimp only
    split
    · rename_i hnone
      refine ⟨⟨h.header, fun n _ => ⟨⟨h.header, ?_⟩, ?_⟩⟩, fun hcode => ?_⟩
      · exact Dctx.waits_of hstage trivial
      · have hfirst := h.first hstage
        unfold DecompressCall.left DecompressCall.srcEnd at hnone
        dsimp only at hnone
        omega
      · exact absurd (Except.ok.inj hcode) (by decide)
    · exact storeFrameHeader_goes ⟨h.header, h.src, h.dst⟩ rfl
        ⟨(by decide : 0 < 7), (by decide : 7 ≤ 19), .inl rfl⟩ (Nat.le_of_succ_le hb)

/-! ## The stages that read a block header -/

theorem decodeBlockHeader_goes (h : Alive c s) (hmoved : Moved c s) (selectedIn : Int)
    (hb : 4 * c.left s + 3 < b) : Goes c E b (decodeBlockHeader c s selectedIn) := by
  unfold decodeBlockHeader
  dsimp only
  split
  · exact ⟨⟨⟨h.header, h.src, h.dst⟩, nofun, .inr ⟨hmoved, .inl rfl⟩⟩,
      Nat.lt_of_le_of_lt (Nat.add_le_add_left (by decide : 0 ≤ 3) _) hb⟩
  split
  · exact goes_error h.header _
  split
  · exact goes_next ⟨h.header, h.src, h.dst⟩ nofun trivial hb
  split
  · refine goes_stop ⟨h.header, h.src, h.dst⟩ trivial (fun _ => hmoved) ?_
    unfold bhSize
    omega
  · exact goes_next ⟨h.header, h.src, h.dst⟩ nofun trivial hb

theorem storeBlockHeader_goes (h : Alive c s) (hstage : s.dctx.dStage = .storeBlockHeader)
    (hwaits : s.dctx.Waits) (hb : 4 ≤ s.dctx.tmpInSize + c.left s → 4 * c.left s + 3 < b) :
    Goes c E b (storeBlockHeader c s) := by
  have hlt : s.dctx.tmpInSize < 4 := hwaits.at hstage
  unfold storeBlockHeader bhSize
  dsimp only
  generalize hn : min (4 - s.dctx.tmpInSize) (c.left s) = n
  have hleft : c.left (s.storeInput n) = c.left s - n := left_add s _ n rfl
  have hsize : (s.storeInput n).dctx.tmpInSize = s.dctx.tmpInSize + n := rfl
  have halive : Alive c (s.storeInput n) := h.storeInput
  have hmoved : c.Supplied → Moved c (s.storeInput n) := moved_of_read h (by omega) hn rfl
  split
  · rename_i hshort
    exact goes_stop halive (Dctx.waits_of hstage hshort) hmoved (by omega)
  · refine decodeBlockHeader_goes halive (.inl ?_) _ (by omega)
    have hsrc := h.src
    show c.src < s.srcPtr + n
    omega

theorem getBlockHeader_goes (h : Alive c s) (hb : 4 * c.left s < b) :
    Goes c E b (getBlockHeader c s) := by
  unfold getBlockHeader bhSize
  split
  · have hsrc := h.src
    refine decodeBlockHeader_goes (h.skip 4) (.inl ?_) _ ?_
    · show c.src < s.srcPtr + 4
      omega
    · rw [left_add s _ 4 rfl]
      omega
  · refine storeBlockHeader_goes ⟨h.header, h.src, h.dst⟩ rfl (by decide : 0 < 4) fun henough => ?_
    -- the input does not complete the header
    have hfour : 4 ≤ 0 + c.left s := henough
    omega

theorem header_allocate (c : DecompressCall) (d : Dctx) : (allocate c d).1.header = d.header := by
  unfold allocate
  generalize d.maxBlockSize + (if d.frameInfo.blockMode = 0 then 2 * kb64 else 0) = needed
  dsimp only
  split
  · split
    · rfl
    · split <;> rfl
  · rfl

theorem init_goes (h : Alive c s) (hb : 4 * c.left s < b) : Goes c E b (init c s) := by
  unfold init
  dsimp only
  generalize hd : ({ s.dctx with
    xxh := if s.dctx.frameInfo.contentChecksumFlag ≠ 0 then .reset 0 else s.dctx.xxh } : Dctx) = d
  have hheader : (allocate c d).1.header.length = 19 := by
    rw [header_allocate, ← hd]
    exact h.header
  split
  · exact goes_error hheader _
  · exact getBlockHeader_goes ⟨hheader, h.src, h.dst⟩ hb

/-! ## Uncompressed blocks -/

/-- An uncompressed block is copied until it, the input or the room is used up. -/
theorem copyRaw_moves (c : DecompressCall) (s : Loop) :
    ∃ n s', copyRaw c s = (n, s') ∧ n ≤ s.dctx.tmpInTarget ∧
      s'.dctx.header = s.dctx.header ∧ s'.dctx.tmpInTarget = s.dctx.tmpInTarget ∧
      s'.dctx.frameInfo = s.dctx.frameInfo ∧ s'.dctx.dStage = s.dctx.dStage ∧
      s'.srcPtr = s.srcPtr + n ∧ s'.dstPtr = s.dstPtr + n ∧
      (n = s.dctx.tmpInTarget ∨ n = c.left s ∨ n = c.room s ∨ s.dstPtr = 0) := by
  unfold copyRaw
  split
  · rename_i hnull
    exact ⟨0, s, rfl, Nat.zero_le _, rfl, rfl, rfl, rfl, by simp, by simp, by simp [hnull]⟩
  · dsimp only
    generalize hn : min s.dctx.tmpInTarget (min (c.left s) (c.room s)) = n
    generalize s.mem.copy s.dstPtr s.srcPtr n = m
    refine ⟨n, _, rfl, by omega, ?_, ?_, ?_, ?_, rfl, rfl, by omega⟩
    all_goals
      split
      · obtain ⟨dict, dictSize, hfields⟩ := updateDict_fields
          { s.dctx.produced (m.bytes s.srcPtr n) with
            blockChecksum := if s.dctx.frameInfo.blockChecksumFlag ≠ 0 ∧ ¬ s.dctx.skipChecksum then
              s.dctx.blockChecksum.update (m.bytes s.srcPtr n) else s.dctx.blockChecksum }
          m s.dstPtr n c.dst false
        rw [hfields]
        rfl
      · rfl

theorem copyDirect_goes (h : Alive c s) (hstage : s.dctx.dStage = .copyDirect)
    (hb : 4 * c.left s + 2 < b) : Goes c E b (copyDirect c s) := by
  obtain ⟨n, s', hcopy, hle, hheader, htarget, hinfo, hstage', hsrc', hdst', hcause⟩ :=
    copyRaw_moves c s
  have hleft : c.left s' = c.left s - n := left_add s _ n hsrc'
  have halive : Alive c s' :=
    h.forward (by rw [hheader]; exact h.header) (by omega) (by omega)
  unfold copyDirect
  rw [hcopy]
  dsimp only
  split
  · split
    · refine goes_next ⟨halive.header, halive.src, halive.dst⟩ nofun (by decide : 0 < 4) ?_
      show 4 * c.left s' + 2 < b
      omega
    · refine goes_next ⟨halive.header, halive.src, halive.dst⟩ nofun trivial ?_
      show 4 * c.left s' + 1 < b
      omega
  · rename_i hpart
    rw [htarget] at hpart
    refine goes_stop ⟨halive.header, halive.src, halive.dst⟩
      (Dctx.waits_of (hstage'.trans hstage) trivial) (fun hc => ?_) (by unfold bhSize; omega)
    show Moved c s'
    obtain hall | hleft | hcause := hcause
    · exact absurd hall hpart
    · -- the input is used up
      exact moved_of_read h (Nat.succ_pos (c.left s)) (by omega) hsrc' hc
    · exact moved_of_delivered h hc (by omega) hdst' hcause

theorem checkBlock_goes (h : Alive c s) (crcSrc : List UInt8) (hb : 4 * c.left s + 1 < b) :
    Goes c E b (checkBlock s crcSrc) := by
  unfold checkBlock
  split
  · exact goes_error h.header _
  · exact goes_next ⟨h.header, h.src, h.dst⟩ nofun trivial hb

theorem getBlockChecksum_goes (h : Alive c s) (hstage : s.dctx.dStage = .getBlockChecksum)
    (hwaits : s.dctx.Waits) (hb : 4 * c.left s + 1 < b) : Goes c E b (getBlockChecksum c s) := by
  have hlt : s.dctx.tmpInSize < 4 := hwaits.at hstage
  unfold getBlockChecksum
  split
  · refine checkBlock_goes (h.skip 4) _ ?_
    rw [left_add s _ 4 rfl]
    omega
  · dsimp only
    generalize hn : min (4 - s.dctx.tmpInSize) (c.left s) = n
    have hleft : c.left (s.storeHeader n) = c.left s - n := left_add s _ n rfl
    have halive : Alive c (s.storeHeader n) := h.storeHeader (by omega)
    split
    · rename_i hshort
      exact goes_stop halive (Dctx.waits_of hstage hshort) (moved_of_read h (by omega) hn rfl)
        (by decide)
    · exact checkBlock_goes halive _ (by omega)

/-! ## Compressed blocks -/

/-- The block decoder returns, whatever it is given. -/
theorem decompressSafeUsingDict_total (fastDecLoop : Bool) (m : Mem) (source dest : Int)
    (compressedSize : Nat) (maxOutputSize dictStart : Int) (dictSize : Nat) :
    ∃ r h, decompressSafeUsingDict fastDecLoop ⟨m, []⟩ source dest compressedSize maxOutputSize
      dictStart dictSize = some (r, h) := by
  unfold decompressSafeUsingDict
  split
  · obtain ⟨r, h, hrun, -⟩ := decompressGeneric_logged fastDecLoop m source dest
      compressedSize maxOutputSize false .noDict dest 0 0 (Int.le_refl _) (fun _ => rfl) nofun
    exact ⟨r, h, hrun⟩
  split
  · split
    · obtain ⟨r, h, hrun, -⟩ := decompressGeneric_logged fastDecLoop m source dest
        compressedSize maxOutputSize false .withPrefix64k (dest - 65536) 0 0 (by omega)
        (fun _ => rfl) (fun _ => rfl)
      exact ⟨r, h, hrun⟩
    · obtain ⟨r, h, hrun, -⟩ := decompressGeneric_logged fastDecLoop m source dest
        compressedSize maxOutputSize false .noDict (dest - dictSize) 0 0 (by omega)
        (fun _ => rfl) nofun
      exact ⟨r, h, hrun⟩
  · obtain ⟨r, h, hrun, -⟩ := decompressGeneric_logged fastDecLoop m source dest
      compressedSize maxOutputSize false .usingExtDict dest dictStart dictSize (Int.le_refl _)
      (fun hne => absurd rfl hne) nofun
    exact ⟨r, h, hrun⟩

/-- A decoded block is delivered until it or the room is used up. -/
theorem flushTmpOut_moves (c : DecompressCall) (s : Loop) :
    ∃ n s', flushTmpOut c s = s' ∧ n ≤ s.dctx.tmpOutSize - s.dctx.tmpOutStart ∧
      s'.dctx.header = s.dctx.header ∧ s'.dctx.tmpOutSize = s.dctx.tmpOutSize ∧
      s'.dctx.tmpOutStart = s.dctx.tmpOutStart + n ∧ s'.dctx.dStage = s.dctx.dStage ∧
      s'.srcPtr = s.srcPtr ∧ s'.dstPtr = s.dstPtr + n ∧
      (n = s.dctx.tmpOutSize - s.dctx.tmpOutStart ∨ n = c.room s ∨ s.dstPtr = 0) := by
  unfold flushTmpOut
  split
  · dsimp only
    generalize hn : min (s.dctx.tmpOutSize - s.dctx.tmpOutStart) (c.room s) = n
    generalize s.mem.copy s.dstPtr (s.dctx.tmpOut + s.dctx.tmpOutStart) n = m
    obtain ⟨dict, dictSize, hfields⟩ := updateDict_fields s.dctx m s.dstPtr n c.dst true
    refine ⟨n, _, rfl, by omega, ?_, ?_, ?_, ?_, rfl, rfl, by omega⟩
    all_goals
      split
      · rw [hfields]
      · rfl
  · have hzero : s.dstPtr = 0 := by omega
    exact ⟨0, s, rfl, Nat.zero_le _, rfl, rfl, rfl, rfl, rfl, by simp, .inr (.inr hzero)⟩

theorem flushOut_goes (h : Alive c s) (hstage : s.dctx.dStage = .flushOut)
    (hwaits : s.dctx.Waits) (hb : 4 * c.left s + 1 < b) : Goes c E b (flushOut c s) := by
  have hstart : s.dctx.tmpOutStart ≤ s.dctx.tmpOutSize := hwaits.at hstage
  obtain ⟨n, s', hflush, hle, hheader, hsize', hstart', hstage', hsrc', hdst', hcause⟩ :=
    flushTmpOut_moves c s
  have halive : Alive c s' :=
    h.forward (by rw [hheader]; exact h.header) (by omega) (by omega)
  unfold flushOut
  rw [hflush]
  dsimp only
  split
  · refine goes_next ⟨halive.header, halive.src, halive.dst⟩ nofun trivial ?_
    show 4 * c.left s' + 1 < b
    rw [left_add s s' 0 (by rw [hsrc']; simp)]
    exact hb
  · refine goes_stop halive (Dctx.waits_of (hstage'.trans hstage) ?_) (fun hc => ?_) (by decide)
    · show s'.dctx.tmpOutStart ≤ s'.dctx.tmpOutSize
      omega
    · obtain hall | hcause := hcause
      · omega
      · exact moved_of_delivered h hc (Int.le_of_eq hsrc'.symm) hdst' hcause

theorem decodeToDst_goes (h : Alive c s) (selectedIn : Int) (hb : 4 * c.left s + 1 < b) :
    ∃ x, decodeToDst c s selectedIn = some x ∧ Goes c E b x := by
  unfold decodeToDst
  dsimp only
  obtain ⟨r, heap, hrun⟩ := decompressSafeUsingDict_total c.fastDecLoop s.mem selectedIn s.dstPtr
    s.dctx.tmpInTarget s.dctx.maxBlockSize s.dctx.blockDict.1 s.dctx.blockDict.2
  rw [hrun]
  dsimp only
  split
  · exact ⟨_, rfl, goes_error (s := { s with mem := heap.mem }) h.header _⟩
  · generalize hd : s.dctx.produced (heap.mem.bytes s.dstPtr r.toNat) = d
    have hheader : d.header.length = 19 := by
      rw [← hd]
      exact h.header
    refine ⟨_, rfl, goes_next (h.forward ?_ (Int.le_refl _)
      (Int.le_add_of_nonneg_right (Int.natCast_nonneg _))) nofun trivial hb⟩
    split
    · obtain ⟨dict, dictSize, hfields⟩ :=
        updateDict_fields d heap.mem s.dstPtr r.toNat c.dst false
      rw [hfields]
      exact hheader
    · exact hheader

theorem header_selectTmpOut (d : Dctx) (m : Mem) : (selectTmpOut d m).1.header = d.header := by
  unfold selectTmpOut
  split
  · split
    · split <;> rfl
    · rfl
  · rfl

section

variable (h : Alive c s)

include h

theorem decodeToTmp_goes (selectedIn : Int) (hb : 4 * c.left s + 1 < b) :
    ∃ x, decodeToTmp c s selectedIn = some x ∧ Goes c E b x := by
  unfold decodeToTmp
  dsimp only
  have hheader : (selectTmpOut s.dctx s.mem).1.header.length = 19 := by
    rw [header_selectTmpOut]
    exact h.header
  generalize selectTmpOut s.dctx s.mem = selected at hheader ⊢
  obtain ⟨r, heap, hrun⟩ := decompressSafeUsingDict_total c.fastDecLoop selected.2 selectedIn
    selected.1.tmpOut selected.1.tmpInTarget selected.1.maxBlockSize selected.1.blockDict.1
    selected.1.blockDict.2
  rw [hrun]
  dsimp only
  split
  · exact ⟨_, rfl, goes_error hheader _⟩
  · exact ⟨_, rfl, flushOut_goes ⟨hheader, h.src, h.dst⟩ rfl (Nat.zero_le _) hb⟩

theorem decodeBlock_goes (selectedIn : Int) (hb : 4 * c.left s + 1 < b) :
    ∃ x, decodeBlock c s selectedIn = some x ∧ Goes c E b x := by
  unfold decodeBlock
  dsimp only
  generalize (if s.dctx.frameInfo.blockChecksumFlag ≠ 0 then s.dctx.tmpInTarget - 4
    else s.dctx.tmpInTarget) = target
  have halive : Alive c { s with dctx := { s.dctx with tmpInTarget := target } } :=
    ⟨h.header, h.src, h.dst⟩
  split
  · exact ⟨_, rfl, goes_error halive.header _⟩
  split
  · exact decodeToDst_goes halive selectedIn hb
  · exact decodeToTmp_goes halive selectedIn hb

theorem storeCBlock_goes (hstage : s.dctx.dStage = .storeCBlock) (hb : 4 * c.left s + 1 < b) :
    ∃ x, storeCBlock c s = some x ∧ Goes c E b x := by
  unfold storeCBlock
  dsimp only
  generalize hn : min (s.dctx.tmpInTarget - s.dctx.tmpInSize) (c.left s) = n
  have hleft : c.left (s.storeInput n) = c.left s - n := left_add s _ n rfl
  have hsize : (s.storeInput n).dctx.tmpInSize = s.dctx.tmpInSize + n := rfl
  have htarget : (s.storeInput n).dctx.tmpInTarget = s.dctx.tmpInTarget := rfl
  have halive : Alive c (s.storeInput n) := h.storeInput
  split
  · exact ⟨_, rfl, goes_stop halive (Dctx.waits_of hstage trivial)
      (moved_of_read h (by omega) hn rfl) (by unfold bhSize; omega)⟩
  · exact decodeBlock_goes halive _ (by omega)

theorem getCBlock_goes (hb : 4 * c.left s + 2 < b) :
    ∃ x, getCBlock c s = some x ∧ Goes c E b x := by
  unfold getCBlock
  split
  · exact ⟨_, rfl, goes_next ⟨h.header, h.src, h.dst⟩ nofun trivial hb⟩
  · refine decodeBlock_goes (h.skip s.dctx.tmpInTarget) _ ?_
    rw [left_add s _ s.dctx.tmpInTarget rfl]
    omega

/-! ## The end of a frame -/

theorem checkSuffix_goes (hmoved : Moved c s) (selectedIn : Int)
    (hend : s.dctx.skipChecksum = true ∨ readLE32 (s.mem.bytes selectedIn 4) = s.dctx.xxh.digest →
      E) : Goes c E b (checkSuffix s selectedIn) := by
  unfold checkSuffix
  split
  · exact goes_error h.header _
  · rename_i hagrees
    refine goes_reset h (fun _ => hmoved) (hend ?_)
    by_cases hskip : s.dctx.skipChecksum = true
    · exact .inl hskip
    · exact .inr (not_not.1 fun hne => hagrees ⟨hskip, hne⟩)

theorem storeSuffix_goes (hstage : s.dctx.dStage = .storeSuffix) (hwaits : s.dctx.Waits)
    (hend : 4 ≤ s.dctx.tmpInSize + c.left s →
      (s.dctx.skipChecksum = true ∨
      readLE32 ((s.storeInput (4 - s.dctx.tmpInSize)).mem.bytes s.dctx.tmpIn 4) =
      s.dctx.xxh.digest) → E) : Goes c E b (storeSuffix c s) := by
  have hlt : s.dctx.tmpInSize < 4 := hwaits.at hstage
  unfold storeSuffix
  dsimp only
  generalize hn : min (4 - s.dctx.tmpInSize) (c.left s) = n
  have hsize : (s.storeInput n).dctx.tmpInSize = s.dctx.tmpInSize + n := rfl
  have halive : Alive c (s.storeInput n) := h.storeInput
  split
  · rename_i hshort
    exact goes_stop halive (Dctx.waits_of hstage hshort) (moved_of_read h (by omega) hn rfl)
      (by omega)
  · refine checkSuffix_goes halive (.inl ?_) _ fun hagrees => hend (by omega) ?_
    · have hsrc := h.src
      show c.src < s.srcPtr + n
      omega
    · rw [show 4 - s.dctx.tmpInSize = n by omega]
      exact hagrees

theorem getSuffix_goes (hmoved : Moved c s) (hstage : s.dctx.dStage = .getSuffix)
    (hend : FrameEnd c s → E) : Goes c E b (getSuffix c s) := by
  rw [FrameEnd, hstage] at hend
  unfold getSuffix
  split
  · exact goes_error h.header _
  rename_i hremaining
  replace hremaining := not_not.1 hremaining
  split
  · rename_i hflag
    exact goes_reset h (fun _ => hmoved) (hend ⟨hremaining, .inl hflag⟩)
  split
  · refine storeSuffix_goes ⟨h.header, h.src, h.dst⟩ rfl (by decide : 0 < 4) fun hfour => ?_
    -- the input does not complete the checksum
    have hfour : 4 ≤ 0 + c.left s := hfour
    omega
  · have hsrc := h.src
    refine checkSuffix_goes (h.skip 4) (.inl ?_) _ fun hagrees =>
      hend ⟨hremaining, .inr ⟨by omega, hagrees⟩⟩
    show c.src < s.srcPtr + 4
    omega

/-! ## Skippable frames -/

theorem decodeSFrameSize_goes (hmoved : Moved c s) (field : List UInt8) (hb : 4 * c.left s < b) :
    Goes c E b (decodeSFrameSize s field) :=
  ⟨⟨⟨h.header, h.src, h.dst⟩, nofun, .inr ⟨hmoved, .inr rfl⟩⟩, hb⟩

theorem storeSFrameSize_goes (hstage : s.dctx.dStage = .storeSFrameSize) (hwaits : s.dctx.Waits)
    (hb : 4 * c.left s < b) : Goes c E b (storeSFrameSize c s) := by
  obtain ⟨hlt, hle⟩ := hwaits.at hstage
  unfold storeSFrameSize
  dsimp only
  generalize hn : min (s.dctx.tmpInTarget - s.dctx.tmpInSize) (c.left s) = n
  have hleft : c.left (s.storeHeader n) = c.left s - n := left_add s _ n rfl
  have hsize : (s.storeHeader n).dctx.tmpInSize = s.dctx.tmpInSize + n := rfl
  have htarget : (s.storeHeader n).dctx.tmpInTarget = s.dctx.tmpInTarget := rfl
  have halive : Alive c (s.storeHeader n) := h.storeHeader (by omega)
  split
  · rename_i hshort
    exact goes_stop halive (Dctx.waits_of hstage ⟨hshort, hle⟩)
      (moved_of_read h (by omega) hn rfl) (by omega)
  · refine decodeSFrameSize_goes halive (.inl ?_) _ (by omega)
    have hsrc := h.src
    show c.src < s.srcPtr + n
    omega

theorem getSFrameSize_goes (hb : 4 * c.left s < b) : Goes c E b (getSFrameSize c s) := by
  unfold getSFrameSize
  split
  · have hsrc := h.src
    refine decodeSFrameSize_goes (h.skip 4) (.inl ?_) _ ?_
    · show c.src < s.srcPtr + 4
      omega
    · rw [left_add s _ 4 rfl]
      omega
  · exact storeSFrameSize_goes ⟨h.header, h.src, h.dst⟩ rfl
      ⟨(by decide : 4 < 8), Nat.le_refl 8⟩ hb

theorem skipSkippable_goes (hwaits : s.dctx.tmpInTarget ≠ 0 ∨ Moved c s)
    (hstage : s.dctx.dStage = .skipSkippable) (hend : FrameEnd c s → E) :
    Goes c E b (skipSkippable c s) := by
  rw [FrameEnd, hstage] at hend
  unfold skipSkippable
  dsimp only
  generalize hn : min s.dctx.tmpInTarget (c.left s) = n
  have halive : Alive c { s with srcPtr := s.srcPtr + n } := h.skip n
  have hmoved : c.Supplied → Moved c { s with srcPtr := s.srcPtr + n } := by
    intro hc
    obtain htarget | hmoved | hmoved := hwaits
    · exact moved_of_read h (by omega) hn rfl hc
    · left
      dsimp only
      omega
    · exact .inr hmoved
  split
  · rename_i hmore
    exact goes_stop ⟨halive.header, halive.src, halive.dst⟩ (Dctx.waits_of hstage hmore) hmoved
      hmore
  · refine ⟨⟨⟨h.header, trivial⟩, ⟨h.header, halive.src, h.dst⟩, hmoved⟩, fun _ => hend ?_⟩
    omega

end

/-! ## A call -/

/-- **What a pass does, on any input.** -/
theorem pass_goes (h : Awake c s) :
    ∃ x, pass c s = some x ∧ Goes c (FrameEnd c s) (variant c s) x := by
  have halive : Alive c s := h.toAlive
  -- in a stage that is not passed through, an awake call waits
  have hwaits : s.dctx.dStage ≠ .getSuffix → s.dctx.dStage ≠ .skipSkippable → s.dctx.Waits := by
    intro hsuffix hskip
    obtain hwaits | ⟨-, hstage | hstage⟩ := h.waits
    · exact hwaits
    · exact absurd hstage hsuffix
    · exact absurd hstage hskip
  unfold pass variant
  cases hstage : s.dctx.dStage with
  | getFrameHeader => exact ⟨_, rfl, getFrameHeader_goes h hstage (Nat.le_refl _)⟩
  | storeFrameHeader =>
    exact ⟨_, rfl, storeFrameHeader_goes halive hstage
      (hwaits (by rw [hstage]; decide) (by rw [hstage]; decide)) (Nat.le_refl _)⟩
  | init => exact ⟨_, rfl, init_goes halive (Nat.lt_succ_self _)⟩
  | getBlockHeader => exact ⟨_, rfl, getBlockHeader_goes halive (Nat.lt_succ_self _)⟩
  | storeBlockHeader =>
    exact ⟨_, rfl, storeBlockHeader_goes halive hstage
      (hwaits (by rw [hstage]; decide) (by rw [hstage]; decide)) fun _ => Nat.lt_succ_self _⟩
  | copyDirect => exact ⟨_, rfl, copyDirect_goes halive hstage (Nat.lt_succ_self _)⟩
  | getBlockChecksum =>
    exact ⟨_, rfl, getBlockChecksum_goes halive hstage
      (hwaits (by rw [hstage]; decide) (by rw [hstage]; decide)) (Nat.lt_succ_self _)⟩
  | getCBlock => exact getCBlock_goes halive (Nat.lt_succ_self _)
  | storeCBlock => exact storeCBlock_goes halive hstage (Nat.lt_succ_self _)
  | flushOut =>
    exact ⟨_, rfl, flushOut_goes halive hstage
      (hwaits (by rw [hstage]; decide) (by rw [hstage]; decide)) (Nat.lt_succ_self _)⟩
  | getSuffix =>
    refine ⟨_, rfl, getSuffix_goes halive ?_ hstage id⟩
    obtain hnever | ⟨hmoved, -⟩ := h.waits
    · exact (hnever.at hstage).elim
    · exact hmoved
  | storeSuffix =>
    refine ⟨_, rfl, storeSuffix_goes halive hstage
      (hwaits (by rw [hstage]; decide) (by rw [hstage]; decide)) fun hfour hagrees => ?_⟩
    rw [FrameEnd, hstage]
    exact ⟨hfour, hagrees⟩
  | getSFrameSize => exact ⟨_, rfl, getSFrameSize_goes halive (Nat.lt_succ_self _)⟩
  | storeSFrameSize =>
    exact ⟨_, rfl, storeSFrameSize_goes halive hstage
      (hwaits (by rw [hstage]; decide) (by rw [hstage]; decide)) (Nat.lt_succ_self _)⟩
  | skipSkippable =>
    refine ⟨_, rfl, skipSkippable_goes halive ?_ hstage id⟩
    exact h.waits.imp (fun hwaits => hwaits.at hstage) And.left

/-- The states of the loop in a call. -/
inductive Visits (c : DecompressCall) (s₀ : Loop) : Loop → Prop
  | start : Visits c s₀ s₀
  | next {s s' : Loop} (visits : Visits c s₀ s) (step : pass c s = some (.next s')) :
      Visits c s₀ s'

/-- Where the loop of a call starts. -/
def entry (c : DecompressCall) (d : Dctx) (m : Mem) : Loop :=
  ⟨{ d with skipChecksum := d.skipChecksum || c.skipChecksums }, m, c.src, c.dst⟩

theorem Resumable.awake (h : Resumable d) (m : Mem) : Awake c (entry c d m) :=
  ⟨⟨h.header, Int.le_refl _, Int.le_refl _⟩, fun _ => rfl, .inl h.waits⟩

/-- The loop of a call ends, whatever the input is. -/
theorem iterate_pass (h : Resumable d) (m : Mem) :
    ∃ e, iterate (pass c) (4 * c.srcSize + 8) (entry c d m) = some e ∧ Rested c e ∧
      (e.code = .ok 0 → ∃ s, Visits c (entry c d m) s ∧ FrameEnd c s) := by
  refine iterate_ends (fun s => Visits c (entry c d m) s ∧ Awake c s) (variant c)
    (fun s hs => ?_) ⟨.start, h.awake m⟩ ?_
  · obtain ⟨hvisits, hawake⟩ := hs
    obtain ⟨x, hx, hgoes⟩ := pass_goes hawake
    refine ⟨x, hx, ?_⟩
    cases x with
    | next s' => exact ⟨⟨.next hvisits hx, hgoes.1⟩, hgoes.2⟩
    | done e => exact ⟨hgoes.1, fun hcode => ⟨s, hvisits, hgoes.2 hcode⟩⟩
  · have hleft : c.left (entry c d m) = c.srcSize := by
      unfold DecompressCall.left DecompressCall.srcEnd entry
      dsimp only
      omega
    have hrank : ∀ stage : Stage, stage.rank ≤ 6 := by
      intro stage
      cases stage <;> decide
    have hle := hrank (entry c d m).dctx.dStage
    unfold variant
    omega

/-- **A call on any input** returns; what it leaves behind can be resumed, unless it returns an
error; with input and room it consumes or delivers something; and it returns zero only at the end
of a frame. -/
theorem decompress_answers (h : Resumable d) (c : DecompressCall) (m : Mem) :
    ∃ o, decompress c d m = some o ∧ o.dctx.header.length = 19 ∧
      (∀ n, o.code = .ok n → Resumable o.dctx ∧ (c.Supplied → 0 < o.srcRead + o.dstWritten)) ∧
      (o.code = .ok 0 → ∃ s, Visits c (entry c d m) s ∧ FrameEnd c s) := by
  obtain ⟨e, hend, hrested, hzero⟩ := iterate_pass h m
  have hanswer : decompress c d m = some (finish c e) := congrArg (Option.map (finish c)) hend
  cases e with
  | ret s code =>
    refine ⟨_, hanswer, hrested.1, fun n hcode => ?_, hzero⟩
    obtain ⟨hresumable, hsize⟩ := hrested.2 n hcode
    exact ⟨hresumable, fun hc => absurd hsize (Nat.ne_of_gt hc.1)⟩
  | stop s hint =>
    obtain ⟨⟨hheader, hwaits⟩, halive, hmoved⟩ := hrested
    obtain ⟨dict, dictSize, tmpOut, hfields⟩ := preserveHistory_fields c s.dctx s.mem
    have hdctx : (finish c (.stop s hint)).dctx =
        { s.dctx with dict := dict, dictSize := dictSize, tmpOut := tmpOut } := hfields
    refine ⟨_, hanswer, ?_⟩
    rw [hdctx]
    refine ⟨hheader, fun n _ => ⟨⟨hheader, hwaits⟩, fun hc => ?_⟩, hzero⟩
    show 0 < (s.srcPtr - c.src).toNat + (s.dstPtr - c.dst).toNat
    obtain hmoved | hmoved := hmoved hc
    · omega
    · omega

end

/-! ## Contexts that can be reached -/

/-- An answer that is not an error. -/
theorem exists_ok_of_isOk {code : Code} (h : code.isOk = true) : ∃ n, code = .ok n := by
  cases code with
  | error e => exact absurd h Bool.false_ne_true
  | ok n => exact ⟨n, rfl⟩

theorem Resumable.load (h : Resumable d) (dict : Int) (dictSize : Nat) :
    Resumable (d.load dict dictSize) := by
  unfold Dctx.load
  split
  · exact ⟨h.header, h.waits⟩
  · exact h

variable {m : Mem}

/-- What a call on a context that can be resumed leaves behind. -/
theorem Resumable.answer {c : DecompressCall} {o : Outcome} (h : Resumable d)
    (answer : decompress c d m = some o) :
    o.dctx.header.length = 19 ∧ (o.code.isOk = true → Resumable o.dctx) := by
  obtain ⟨o', ho, hheader, hok, -⟩ := decompress_answers h c m
  cases Option.some.inj (answer.symm.trans ho)
  refine ⟨hheader, fun husable => ?_⟩
  obtain ⟨n, hn⟩ := exists_ok_of_isOk husable
  exact (hok n hn).1

end Lz4.Lz4f
