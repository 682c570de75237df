import Lz4.Frame.Loop
import Lz4.Frame.Turns

/-!
# A context at a place in a frame

The relation between a decompression context and the abstract reader.  `At` has one constructor
for each stage that a context can be in while it reads a frame, and says which place that is and
what the variables of the context hold there: the parameters of the frame, the checksum and the
size of what has been decoded, the bytes of a field that is not complete, and where the history
of the next block is.

`O` are the blocks the context has before it knows the frame and `B` those it uses for it.
-/

namespace Lz4.Lz4f

open FlatMemory

/-- The blocks of a context. -/
def Dctx.owned (d : Dctx) : Owned := ⟨d.tmpIn, d.tmpOutBuffer, d.maxBufferSize⟩

/-- A context that waits for a frame. -/
structure Idle (d : Dctx) : Prop where
  stage : d.dStage = .getFrameHeader
  remaining : d.frameRemainingSize = 0
  skipChecksum : d.skipChecksum = false
  dict : d.dict = 0
  dictSize : d.dictSize = 0
  header : d.header.length = 19

/-- The output buffer of a context that reads the frame. -/
def Frame.bufferNeeded (f : Frame) : Nat :=
  f.blockSize + if f.desc.independent then 0 else 2 * kb64

/-- The bytes that have been decoded and not delivered. -/
def Place.pending : Place → List UInt8
  | .flush p _ done => p.content.drop done
  | _ => []

section

variable (f : Frame) (dict : List UInt8) (D : Int) (O B : Owned) (Still : Int → Prop)

/-- Before the blocks are allocated. -/
structure Starting (d : Dctx) (past : List UInt8) : Prop where
  past_eq : past = []
  dict_eq : d.dict = D
  dictSize : d.dictSize = dict.length
  owned : d.owned = O
  header : d.header.length = 19

/-- The content checksum and the size still to come. -/
structure Counts (d : Dctx) (decoded : List UInt8) : Prop where
  xxh : f.desc.contentChecksum = true → d.skipChecksum = false → d.xxh = .after 0 decoded
  remaining : d.frameRemainingSize = if f.desc.contentSize.getD 0 ≠ 0 then
    f.desc.contentSize.getD 0 - UInt64.ofNat decoded.length else 0

/-- Behind the header of the frame, with `past` delivered. -/
structure Underway (d : Dctx) (past : List UInt8) (place : Place) : Prop where
  info : d.frameInfo = f.desc.info
  maxBlockSize : d.maxBlockSize = f.blockSize
  owned : d.owned = B
  size_ge : f.bufferNeeded ≤ B.size
  header : d.header.length = 19
  counts : Counts f d (past ++ place.pending)
  content : f.content = past ++ f.owed place
  stand : f.Stand (f.extend dict (past ++ place.current)) (f.rest place)

/-- The history between two blocks, with the dictionary and the output pointer of the context. -/
structure Recollects (start : Int) (size : Nat) (tmpOut : Int) (m : Mem) (past : List UInt8) :
    Prop where
  independent : f.desc.independent = true →
    start = D ∧ size = dict.length ∧ tmpOut = B.tmpOut
  linked : f.desc.independent = false → Past B Still m start size (dict ++ past)

/-- The history and the block, while the block is delivered. -/
structure Retains (start : Int) (size : Nat) (tmpOut : Int) (m : Mem)
    (past content : List UInt8) (done : Nat) : Prop where
  independent : f.desc.independent = true →
    start = D ∧ size = dict.length ∧ tmpOut = B.tmpOut ∧ m.Holds B.tmpOut content
  linked : f.desc.independent = false →
    Pending B Still m start size tmpOut (dict ++ past) content done

/-- The context `d` is at a place of the frame, after `past` has been delivered. -/
inductive At (d : Dctx) (m : Mem) (past : List UInt8) : Place → Prop
  | getFrameHeader (stage : d.dStage = .getFrameHeader) (starting : Starting dict D O d past)
      (remaining : d.frameRemainingSize = 0) : At d m past (.header 0)
  | storeFrameHeader {got : Nat} (stage : d.dStage = .storeFrameHeader)
      (starting : Starting dict D O d past) (remaining : d.frameRemainingSize = 0)
      (size : d.tmpInSize = got)
      (target : d.tmpInTarget = if got < minFHSize then minFHSize else f.desc.size)
      (got_pos : 0 < got) (got_lt : got < f.desc.size)
      (bytes : d.header.take got = f.desc.header.take got) : At d m past (.header got)
  | init (stage : d.dStage = .init) (starting : Starting dict D O d past)
      (info : d.frameInfo = f.desc.info) (maxBlockSize : d.maxBlockSize = f.blockSize)
      (remaining : d.frameRemainingSize = f.desc.contentSize.getD 0) : At d m past .ready
  | getBlockHeader {rest : List Piece} (stage : d.dStage = .getBlockHeader)
      (underway : Underway f dict B d past (.blockHeader rest 0))
      (recollects : Recollects f dict D B Still d.dict d.dictSize d.tmpOut m past) : At d m past (.blockHeader rest 0)
  | storeBlockHeader {rest : List Piece} {got : Nat} (stage : d.dStage = .storeBlockHeader)
      (underway : Underway f dict B d past (.blockHeader rest got))
      (recollects : Recollects f dict D B Still d.dict d.dictSize d.tmpOut m past) (size : d.tmpInSize = got)
      (got_lt : got < 4) (bytes : m.Holds B.tmpIn ((f.body rest).take got)) :
      At d m past (.blockHeader rest got)
  | copyDirect {p : Piece} {rest : List Piece} {done : Nat} (stage : d.dStage = .copyDirect)
      (underway : Underway f dict B d past (.raw p rest done))
      (recollects : Recollects f dict D B Still d.dict d.dictSize d.tmpOut m past) (raw_content : p.content = p.data)
      (target : d.tmpInTarget = p.data.length - done) (done_le : done ≤ p.data.length)
      (sum : f.desc.blockChecksum = true → d.skipChecksum = false →
        d.blockChecksum = .after 0 (p.data.take done)) : At d m past (.raw p rest done)
  | getBlockChecksum {p : Piece} {rest : List Piece} {got : Nat}
      (stage : d.dStage = .getBlockChecksum)
      (underway : Underway f dict B d past (.rawChecksum p rest got))
      (recollects : Recollects f dict D B Still d.dict d.dictSize d.tmpOut m past) (flag : f.desc.blockChecksum = true)
      (size : d.tmpInSize = got) (got_lt : got < 4)
      (bytes : d.header.take got = (f.footer p).take got)
      (sum : d.skipChecksum = false → d.blockChecksum = .after 0 p.data) :
      At d m past (.rawChecksum p rest got)
  | getCBlock {p : Piece} {rest : List Piece} (stage : d.dStage = .getCBlock)
      (underway : Underway f dict B d past (.compressed p rest none))
      (recollects : Recollects f dict D B Still d.dict d.dictSize d.tmpOut m past) (raw : p.raw = false)
      (stands : p.Stands f.blockSize (f.extend dict past))
      (target : d.tmpInTarget = p.data.length + f.footerSize) :
      At d m past (.compressed p rest none)
  | storeCBlock {p : Piece} {rest : List Piece} {got : Nat} (stage : d.dStage = .storeCBlock)
      (underway : Underway f dict B d past (.compressed p rest (some got)))
      (recollects : Recollects f dict D B Still d.dict d.dictSize d.tmpOut m past) (raw : p.raw = false)
      (stands : p.Stands f.blockSize (f.extend dict past))
      (target : d.tmpInTarget = p.data.length + f.footerSize) (size : d.tmpInSize = got)
      (got_lt : got < p.data.length + f.footerSize)
      (bytes : m.Holds B.tmpIn ((p.data ++ f.footer p).take got)) :
      At d m past (.compressed p rest (some got))
  | flushOut {p : Piece} {rest : List Piece} {done : Nat} (before : List UInt8)
      (stage : d.dStage = .flushOut) (underway : Underway f dict B d past (.flush p rest done))
      (hpast : past = before ++ p.content.take done)
      (retains : Retains f dict D B Still d.dict d.dictSize d.tmpOut m before p.content
        done)
      (size : d.tmpOutSize = p.content.length) (start : d.tmpOutStart = done)
      (done_le : done ≤ p.content.length) (content_le : p.content.length ≤ f.blockSize) :
      At d m past (.flush p rest done)
  | getSuffix (stage : d.dStage = .getSuffix) (underway : Underway f dict B d past (.suffix 0)) :
      At d m past (.suffix 0)
  | storeSuffix {got : Nat} (stage : d.dStage = .storeSuffix)
      (underway : Underway f dict B d past (.suffix got)) (flag : f.desc.contentChecksum = true)
      (sizeMatches : f.SizeMatches) (size : d.tmpInSize = got) (got_lt : got < 4)
      (bytes : m.Holds B.tmpIn (f.suffix.take got)) : At d m past (.suffix got)

end

/-! ## Memory that changes elsewhere -/

variable {place : Place} {tmpOut start : Int} {history content : List UInt8}
  {dictSize size done : Nat}

section

variable {f : Frame} {dict : List UInt8} {D : Int} {O B : Owned} {Still Still' : Int → Prop}
  {d : Dctx} {m m' : Mem} {past : List UInt8}

theorem Past.congr {dict : Int} (h : Past B Still m dict dictSize history)
    (hm : ∀ a, Still a ∨ B.tmpOut ≤ a ∧ a < B.tmpOut + B.size → m a = m' a)
    (hstill : ∀ a, Still a → Still' a) : Past B Still' m' dict dictSize history := by
  obtain ⟨hrecalls, hplace⟩ := h
  rcases hplace with ⟨hdict, hsize⟩ | hplace
  · exact ⟨hrecalls.congr fun a hlow hhigh => hm a (Or.inr (by omega)), Or.inl ⟨hdict, hsize⟩⟩
  · exact ⟨hrecalls.congr fun a hlow hhigh => hm a (Or.inl (hplace a hlow hhigh)),
      Or.inr fun a hlow hhigh => hstill a (hplace a hlow hhigh)⟩

theorem Pending.congr {dict : Int} (h : Pending B Still m dict dictSize tmpOut history content done)
    (hm : ∀ a, Still a ∨ B.tmpOut ≤ a ∧ a < B.tmpOut + B.size → m a = m' a)
    (hstill : ∀ a, Still a → Still' a) :
    Pending B Still' m' dict dictSize tmpOut history content done := by
  obtain ⟨⟨preserve, htmpOut, hpreserve, hrecent, hfits⟩, hdone, hholds, hplace⟩ := h
  refine ⟨⟨preserve, htmpOut, hpreserve, hrecent, hfits⟩, hdone,
    hholds.congr fun a hlow hhigh => hm a (Or.inr (by omega)), ?_⟩
  rcases hplace with ⟨hdict, hend, hends⟩ | ⟨hrecalls, hplace⟩
  · have hlength : (recent (history ++ content)).length ≤ preserve + content.length := by
      rw [length_recent, List.length_append]
      rw [length_recent] at hrecent
      omega
    exact Or.inl ⟨hdict, hend, hends.congr fun a hlow hhigh => hm a (Or.inr (by omega))⟩
  · exact Or.inr ⟨hrecalls.congr fun a hlow hhigh => hm a (Or.inl (hplace a hlow hhigh)),
      fun a hlow hhigh => hstill a (hplace a hlow hhigh)⟩

theorem Recollects.congr (h : Recollects f dict D B Still start size tmpOut m past)
    (hm : ∀ a, Still a ∨ B.tmpOut ≤ a ∧ a < B.tmpOut + B.size → m a = m' a)
    (hstill : ∀ a, Still a → Still' a) : Recollects f dict D B Still' start size tmpOut m' past :=
  ⟨h.independent, fun hmode => (h.linked hmode).congr hm hstill⟩

theorem Retains.congr (hsize : content.length ≤ B.size)
    (h : Retains f dict D B Still start size tmpOut m past content done)
    (hm : ∀ a, Still a ∨ B.tmpOut ≤ a ∧ a < B.tmpOut + B.size → m a = m' a)
    (hstill : ∀ a, Still a → Still' a) :
    Retains f dict D B Still' start size tmpOut m' past content done := by
  refine ⟨fun hmode => ?_, fun hmode => (h.linked hmode).congr hm hstill⟩
  obtain ⟨hdict, hdictSize, htmpOut, hholds⟩ := h.independent hmode
  exact ⟨hdict, hdictSize, htmpOut, hholds.congr fun a hlow hhigh => hm a (Or.inr (by omega))⟩

/-! ## Variables that a pass leaves alone -/

theorem Underway.tmpIn (h : Underway f dict B d past place) : d.tmpIn = B.tmpIn :=
  congrArg Owned.tmpIn h.owned

theorem Underway.tmpOutBuffer (h : Underway f dict B d past place) : d.tmpOutBuffer = B.tmpOut :=
  congrArg Owned.tmpOut h.owned

/-- Linked blocks have a buffer with room for a history. -/
theorem mode_cases (hinfo : d.frameInfo = f.desc.info) (hsize : f.bufferNeeded ≤ B.size) :
    f.desc.independent = true ∧ d.frameInfo.blockMode ≠ 0 ∨ f.desc.independent = false ∧
      d.frameInfo.blockMode = 0 ∧ f.blockSize + 2 * kb64 ≤ B.size := by
  have hmode := f.desc.info_blockMode
  rw [← hinfo] at hmode
  unfold Frame.bufferNeeded at hsize
  cases hlinked : f.desc.independent with
  | true => simp [hmode, hlinked]
  | false => simpa [hmode, hlinked] using hsize

/-- Two contexts with the same parameters, blocks and sums; the second one may have been told to
skip checksums. -/
structure SameFrame (d d' : Dctx) : Prop where
  info : d'.frameInfo = d.frameInfo
  maxBlockSize : d'.maxBlockSize = d.maxBlockSize
  owned : d'.owned = d.owned
  header : d'.header.length = d.header.length
  xxh : d'.xxh = d.xxh
  remaining : d'.frameRemainingSize = d.frameRemainingSize
  skipChecksum : d'.skipChecksum = false → d.skipChecksum = false

/-- From one place to another without a byte decoded or delivered. -/
theorem Underway.move {d' : Dctx} {place' : Place} (h : Underway f dict B d past place)
    (same : SameFrame d d') (hpending : place'.pending = place.pending)
    (howed : f.owed place' = f.owed place)
    (hstand : f.Stand (f.extend dict (past ++ place'.current)) (f.rest place')) :
    Underway f dict B d' past place' := by
  obtain ⟨hinfo, hmax, howned, hsize, hheader, ⟨hxxh, hremaining⟩, hcontent, -⟩ := h
  refine ⟨same.info.trans hinfo, same.maxBlockSize.trans hmax, same.owned.trans howned, hsize,
    same.header.trans hheader, ⟨?_, ?_⟩, ?_, hstand⟩
  · intro hflag hchecked
    rw [same.xxh, hpending]
    exact hxxh hflag (same.skipChecksum hchecked)
  · rw [same.remaining, hpending]
    exact hremaining
  · rw [howed]
    exact hcontent

end

end Lz4.Lz4f
