import Lz4.Frame.Call

/-!
# Decoding a frame call by call

A caller decodes a frame with any number of calls.  It decides how much input and room each of
them gets and where the buffers are, it presents again what a call has not consumed, and between
two calls it may overwrite everything but the dictionary, the output it has promised to keep
(`stableDst`) and the memory of the context.  It may also ask for the parameters of the frame.

`Session` is what the caller and the context share between two calls, and `Rests` says that the
context is at a place of the frame; each call and each query takes a context at rest to one at
rest, or ends the frame.
-/

namespace Lz4.Lz4f

open FlatMemory Machine

variable {c : DecompressCall} {f : Frame} {dict : List UInt8} {D : Int} {O B : Owned}
  {Kept Still : Int → Prop} {past after : List UInt8}

/-! ## Contexts between two calls -/

/-- The context as `LZ4F_decompress_usingDict` passes it on: the dictionary can be set until the
blocks start. -/
def Dctx.load (d : Dctx) (dict : Int) (dictSize : Nat) : Dctx :=
  if d.dStage.index ≤ Stage.init.index then { d with dict := dict, dictSize := dictSize } else d

theorem decompressUsingDict_eq (c : DecompressCall) (d : Dctx) (m : Mem) (dict : Int)
    (dictSize : Nat) :
    decompressUsingDict c d m dict dictSize = decompress c (d.load dict dictSize) m := rfl

/-- The blocks that a context uses in a call: those the allocator answers with, if it has not
got any that are large enough. -/
def Dctx.blocks (d : Dctx) (f : Frame) (c : DecompressCall) : Owned :=
  if d.dStage.index ≤ Stage.init.index ∧ d.maxBufferSize < f.bufferNeeded then
    ⟨c.tmpInBlock, c.tmpOutBlock, f.bufferNeeded⟩ else d.owned

section

variable {d : Dctx} {m : Mem} {place : Place}

section

variable (h : At f dict D O B Still d m past place)

include h

/-- A context is before the blocks of a frame, where the memory for them does not matter, or among
them, where the memory it had before does not matter. -/
theorem At.phase :
    (d.dStage.index ≤ Stage.init.index ∧ Starting dict D O d past ∧ f.owed place = f.content ∧
      ∀ (B' : Owned) (Still' : Int → Prop) (m' : Mem), At f dict D O B' Still' d m' past place) ∨
      (¬ d.dStage.index ≤ Stage.init.index ∧ Underway f dict B d past place ∧ ∀ O' : Owned,
      At f dict D O' B Still d m past place) := by
  cases h with
  | getFrameHeader stage starting =>
    exact .inl ⟨by rw [stage]; decide, starting, rfl, fun _ _ _ => by constructor <;> assumption⟩
  | storeFrameHeader stage starting =>
    exact .inl ⟨by rw [stage]; decide, starting, rfl, fun _ _ _ => by constructor <;> assumption⟩
  | init stage starting =>
    exact .inl ⟨by rw [stage], starting, rfl, fun _ _ _ => by constructor <;> assumption⟩
  | _ =>
    exact .inr ⟨by simp only [*]; decide, by assumption, fun _ => by constructor <;> assumption⟩

/-- A context among the blocks of a frame. -/
theorem At.amid (hstage : ¬ d.dStage.index ≤ Stage.init.index) :
    d.owned = B ∧ f.bufferNeeded ≤ B.size ∧ ∀ O' : Owned, At f dict D O' B Still d m past
      place := by
  obtain ⟨hearly, -⟩ | ⟨-, underway, hlate⟩ := h.phase
  · exact absurd hearly hstage
  · exact ⟨underway.owned, underway.size_ge, hlate⟩

/-- A context before the blocks of a frame: the blocks of memory do not matter, but the
dictionary is set. -/
theorem At.early (hstage : d.dStage.index ≤ Stage.init.index) :
    d.owned = O ∧ d.dict = D ∧ d.dictSize = dict.length ∧
      ∀ (B' : Owned) (Still' : Int → Prop) (m' : Mem), At f dict D O B' Still' d m' past place := by
  obtain ⟨-, starting, -, hearly⟩ | ⟨hlate, -⟩ := h.phase
  · exact ⟨starting.owned, starting.dict_eq, starting.dictSize, hearly⟩
  · exact absurd hstage hlate

/-- A context that waits for a header is at the very beginning. -/
theorem At.place_of_getFrameHeader (hstage : d.dStage = .getFrameHeader) : place = .header 0 := by
  cases h with
  | getFrameHeader => rfl
  | _ => simp_all

/-- A context that is at a place has its dictionary. -/
theorem At.load_eq : d.load D dict.length = d := by
  unfold Dctx.load
  by_cases hstage : d.dStage.index ≤ Stage.init.index
  · obtain ⟨-, hdict, hdictSize, -⟩ := h.early hstage
    rw [if_pos hstage, ← hdict, ← hdictSize]
  · rw [if_neg hstage]

/-- The blocks of a context that is at a place are its own. -/
theorem At.rebase : At f dict D d.owned d.owned Still d m past place := by
  by_cases hstage : d.dStage.index ≤ Stage.init.index
  · obtain ⟨howned, -, -, hearly⟩ := h.early hstage
    rw [howned]
    exact hearly _ _ _
  · have howned := (h.amid hstage).1
    rw [howned]
    exact (h.amid hstage).2.2 _

end

/-- The blocks that a context is going to use. -/
theorem At.equip (h : At f dict D d.owned d.owned Still d m past place) (c : DecompressCall) :
    At f dict D d.owned (d.blocks f c) Still d m past place := by
  by_cases hstage : d.dStage.index ≤ Stage.init.index
  · exact (h.early hstage).2.2.2 _ _ _
  · rw [Dctx.blocks, if_neg fun hearly => hstage hearly.1]
    exact h

end

/-! ## A caller and a context -/

/-- What a caller and a context share: the bytes that the caller has promised to keep, how much of
the input has been consumed, and the output. -/
structure Session where
  dctx : Dctx
  mem : Mem
  kept : Int → Prop
  taken : Nat
  output : List UInt8

/-- The addresses of a dictionary. -/
def InDictionary (D : Int) (dictSize : Nat) (a : Int) : Prop := D ≤ a ∧ a < D + dictSize

/-- The blocks of the context overlap neither each other nor what the caller keeps. -/
structure Separate (B : Owned) (blockSize : Nat) (Kept : Int → Prop) : Prop where
  tmpIn_pos : 0 < B.tmpIn
  tmpOut_pos : 0 < B.tmpOut
  blocks_apart : B.tmpIn + (blockSize + 4 : Nat) ≤ B.tmpOut ∨ B.tmpOut + B.size ≤ B.tmpIn
  kept_pos : ∀ a, Kept a → 0 < a
  kept_foreign : ∀ a, Kept a → Foreign B blockSize a

/-- The session is at a place of the frame, which is followed by `after`. -/
structure Rests (f : Frame) (dict : List UInt8) (D : Int) (after : List UInt8) (s : Session)
    (place : Place) : Prop where
  at_ : At f dict D s.dctx.owned s.dctx.owned s.kept (s.dctx.load D dict.length) s.mem s.output
    place
  proper : f.Proper place
  unread_pos : 0 < (f.unread place).length
  taken_le : s.taken ≤ f.bytes.length
  flow : f.unread place ++ after = (f.bytes ++ after).drop s.taken
  dictionary : s.mem.Holds D dict
  dict_kept : ∀ a, InDictionary D dict.length a → s.kept a
  separate : ¬ s.dctx.dStage.index ≤ Stage.init.index →
    Separate s.dctx.owned f.blockSize s.kept

/-- What the caller leaves alone between two calls. -/
def Untouched (f : Frame) (s : Session) (m : Mem) : Prop :=
  ∀ a, s.kept a ∨ ¬ Foreign s.dctx.owned f.blockSize a → s.mem a = m a

/-- What the caller offers in a call: buffers, and input that goes on where the last call has
stopped. -/
structure Offers (f : Frame) (after : List UInt8) (s : Session) (c : DecompressCall) (m : Mem) :
    Prop where
  untouched : Untouched f s m
  layout : Layout c (s.dctx.blocks f c) f.blockSize s.kept
  input : m.Holds c.src (((f.bytes ++ after).drop s.taken).take c.srcSize)
  supply : s.taken + c.srcSize ≤ (f.bytes ++ after).length

/-- The session after a call. -/
def Session.called (s : Session) (c : DecompressCall) (D : Int) (dictSize : Nat) (o : Outcome) :
    Session :=
  ⟨o.dctx, o.mem, Keeps c D dictSize s.kept o.dstWritten, s.taken + o.srcRead,
    s.output ++ o.mem.bytes c.dst o.dstWritten⟩

theorem Dctx.load_dStage (d : Dctx) (dict : Int) (dictSize : Nat) :
    (d.load dict dictSize).dStage = d.dStage := by
  unfold load
  split <;> rfl

theorem Dctx.load_owned (d : Dctx) (dict : Int) (dictSize : Nat) :
    (d.load dict dictSize).owned = d.owned := by
  unfold load
  split <;> rfl

theorem Dctx.load_skipChecksum (d : Dctx) (dict : Int) (dictSize : Nat) :
    (d.load dict dictSize).skipChecksum = d.skipChecksum := by
  unfold load
  split <;> rfl

theorem Dctx.load_blocks (d : Dctx) (dict : Int) (dictSize : Nat) (f : Frame)
    (c : DecompressCall) : (d.load dict dictSize).blocks f c = d.blocks f c := by
  have hsize : (d.load dict dictSize).maxBufferSize = d.maxBufferSize :=
    congrArg Owned.size (d.load_owned dict dictSize)
  rw [blocks, blocks, load_dStage, load_owned, hsize]

/-- An idle context starts a frame. -/
theorem rests_start {d : Dctx} {m : Mem} (idle : Idle d) (hdict : m.Holds D dict) :
    Rests f dict D after ⟨d, m, InDictionary D dict.length, 0, []⟩ (.header 0) := by
  have hearly : d.dStage.index ≤ Stage.init.index := by
    rw [idle.stage]
    decide
  have hload : d.load D dict.length = { d with dict := D, dictSize := dict.length } := if_pos hearly
  have hmin := f.desc.le_size
  refine ⟨?_, show 0 < f.desc.size by omega, ?_, Nat.zero_le _, ?_, hdict, fun a ha => ha,
    fun h => absurd hearly h⟩
  · rw [hload]
    exact .getFrameHeader idle.stage ⟨rfl, rfl, rfl, rfl, idle.header⟩ idle.remaining
  · rw [Frame.unread, List.length_append, List.drop_zero, f.desc.length_header]
    omega
  · rw [Frame.unread, Frame.bytes, List.drop_zero, List.drop_zero]

/-! ## Calls -/

section

variable {s : Session} {place : Place} {m : Mem}

/-- What a call finds. -/
theorem Rests.scene (rests : Rests f dict D after s place) (sound : f.Sound dict)
    (offers : Offers f after s c m) :
    Scene c f dict D s.dctx.owned (s.dctx.blocks f c) s.kept m := by
  refine ⟨sound, offers.layout, ?_, fun a hlow hhigh => rests.dict_kept a ⟨hlow, hhigh⟩, ?_, ?_⟩
  · exact rests.dictionary.congr fun a hlow hhigh =>
      offers.untouched a (Or.inl (rests.dict_kept a ⟨hlow, hhigh⟩))
  · intro hsmall
    by_cases hstage : s.dctx.dStage.index ≤ Stage.init.index
    · exact if_pos ⟨hstage, hsmall⟩
    · rw [← s.dctx.load_dStage D dict.length] at hstage
      have hneeded := (rests.at_.amid hstage).2.1
      omega
  · intro hlarge
    refine if_neg fun h => ?_
    have hsmall : s.dctx.owned.size < f.bufferNeeded := h.2
    omega

/-- **A call on a context at rest.** -/
theorem Rests.call (rests : Rests f dict D after s place) (sound : f.Sound dict)
    (offers : Offers f after s c m) :
    ∃ o reply, decompress c (s.dctx.load D dict.length) m = some o ∧
      f.serve (s.dctx.skipChecksum || c.skipChecksums) ⟨place, c.srcSize, c.dstSize⟩ = some reply ∧
      Yields c f dict D s.dctx.owned (s.dctx.blocks f c) s.kept m s.output after place
        (s.dctx.skipChecksum || c.skipChecksums) o reply := by
  have hresume := rests.at_.resume offers.untouched (fun a ha => ha) false
  simp only [Bool.or_false] at hresume
  have howned := s.dctx.load_owned D dict.length
  rw [← howned] at hresume
  have hequip := hresume.equip c
  rw [howned, Dctx.load_blocks] at hequip
  have hinput := offers.input
  have hsupply := offers.supply
  rw [← rests.flow] at hinput
  have hyields := decompress_yields (rests.scene sound offers) hequip rests.proper hinput (by
    rw [rests.flow, List.length_drop]
    omega)
  rw [Dctx.load_skipChecksum] at hyields
  exact hyields

/-- What a caller keeps does not overlap the blocks of the context. -/
theorem Scene.separate (scene : Scene c f dict D O B Kept m) {written : Nat}
    (hwritten : written ≤ c.dstSize) :
    Separate B f.blockSize (Keeps c D dict.length Kept written) := by
  have hlayout := scene.layout
  have hstill (a : Int) (ha : Keeps c D dict.length Kept written a) :
      0 < a ∧ Foreign B f.blockSize a := by
    rcases ha with hdict | ⟨-, hcaller⟩
    · have hkept := scene.dict_kept a hdict.1 hdict.2
      exact ⟨hlayout.kept_pos a hkept, hlayout.kept_tmpIn a hkept, hlayout.kept_tmpOut a hkept⟩
    · exact scene.still_apart (by omega) a hcaller
  exact ⟨hlayout.tmpIn_pos, hlayout.tmpOut_pos, hlayout.blocks_apart, fun a ha => (hstill a ha).1,
    fun a ha => (hstill a ha).2⟩

/-- The dictionary is still there behind a call. -/
theorem Scene.dictionary_kept (scene : Scene c f dict D O B Kept m) {m' : Mem}
    (hm : ∀ a, Foreign B f.blockSize a → a < c.dst ∨ c.dst + c.dstSize ≤ a → m' a = m a) :
    m'.Holds D dict := by
  refine scene.dictionary.congr fun a hlow hhigh => (hm a ⟨?_, ?_⟩ ?_).symm
  · exact scene.layout.kept_tmpIn a (scene.dict_kept a hlow hhigh)
  · exact scene.layout.kept_tmpOut a (scene.dict_kept a hlow hhigh)
  · exact scene.layout.kept_dst a (scene.dict_kept a hlow hhigh)

section

variable (rests : Rests f dict D after s place)

include rests

/-- The position in the input. -/
theorem Rests.flow_advances {r : Reader} {n : Nat}
    (hflow : f.unread r.place ++ after = (f.unread place ++ after).drop n)
    (hn : n ≤ (f.unread place ++ after).length) :
    f.unread r.place ++ after = (f.bytes ++ after).drop (s.taken + n) ∧
      s.taken + n + (f.unread r.place).length = f.bytes.length := by
  have hpast := rests.flow
  have htaken := rests.taken_le
  have hdrop : f.unread r.place ++ after = (f.bytes ++ after).drop (s.taken + n) := by
    rw [hflow, hpast, List.drop_drop]
  have hlength := congrArg List.length hdrop
  have hlength' := congrArg List.length hpast
  rw [List.length_append, List.length_drop, List.length_append] at hlength hlength'
  rw [List.length_append] at hn
  exact ⟨hdrop, by omega⟩

/-- **A context at rest after a call that has stopped in the middle of the frame.** -/
theorem Rests.after_stop (sound : f.Sound dict) (offers : Offers f after s c m) {o : Outcome}
    {r : Reader} {hint : Nat} {outs : List UInt8} (stops : f.Stops r hint)
    (advances : Advances c f (s.dctx.blocks f c) m place after r outs o)
    (hat : At f dict D s.dctx.owned (s.dctx.blocks f c) (Keeps c D dict.length s.kept o.dstWritten)
      o.dctx o.mem (s.output ++ outs) r.place) :
    Rests f dict D after (s.called c D dict.length o) r.place := by
  have hscene := rests.scene sound offers
  have houts : o.mem.bytes c.dst o.dstWritten = outs := by
    rw [← advances.outs_length]
    exact advances.output
  have hread := advances.srcRead
  have hwritten := advances.dstWritten
  have hsupply := offers.supply
  obtain ⟨hflow, hsum⟩ := rests.flow_advances advances.flow (by
    rw [rests.flow, List.length_drop]
    omega)
  refine ⟨?_, stops.proper, stops.unread_pos, show s.taken + o.srcRead ≤ _ by omega, hflow,
    hscene.dictionary_kept advances.still, fun a ha => Or.inl ha, fun hstage => ?_⟩
  · unfold Session.called
    rw [hat.load_eq, houts]
    exact hat.rebase
  · have howned := (hat.amid hstage).1
    unfold Session.called
    rw [howned]
    exact hscene.separate (by omega)

/-- A context at rest after a call without input at the very beginning of the frame. -/
theorem Rests.after_idle (sound : f.Sound dict) (offers : Offers f after s c m) {o : Outcome}
    (hread : o.srcRead = 0) (hwritten : o.dstWritten = 0)
    (hat : At f dict D s.dctx.owned (s.dctx.blocks f c) (Keeps c D dict.length s.kept 0) o.dctx
      o.mem s.output place)
    (hstill : ∀ a, Foreign (s.dctx.blocks f c) f.blockSize a → a < c.dst ∨ c.dst + c.dstSize ≤ a →
      o.mem a = m a) : Rests f dict D after (s.called c D dict.length o) place := by
  have hscene := rests.scene sound offers
  unfold Session.called
  rw [hread, hwritten, Nat.add_zero, Mem.bytes_zero, List.append_nil]
  refine ⟨?_, rests.proper, rests.unread_pos, rests.taken_le, rests.flow,
    hscene.dictionary_kept hstill, fun a ha => Or.inl ha, fun hstage => ?_⟩
  · rw [hat.load_eq]
    exact hat.rebase
  · have howned := (hat.amid hstage).1
    rw [howned]
    exact hscene.separate (Nat.zero_le _)

/-- The caller may write elsewhere. -/
theorem Rests.write (untouched : Untouched f s m) :
    Rests f dict D after { s with mem := m } place := by
  have hresume := rests.at_.resume untouched (fun a ha => ha) false
  simp only [Bool.or_false] at hresume
  exact ⟨hresume, rests.proper, rests.unread_pos, rests.taken_le, rests.flow,
    rests.dictionary.congr fun a hlow hhigh => untouched a (Or.inl (rests.dict_kept a ⟨hlow, hhigh⟩)),
    rests.dict_kept, rests.separate⟩

end

end

/-! ## Queries -/

/-- A frame that respects the format gives no reason for an error. -/
theorem Frame.Valid.not_faults (valid : f.Valid dict) {skip : Bool} {e : FrameError} :
    ¬ f.Faults skip e := by
  intro h
  cases h with
  | block hmem hflag hbad => exact hbad (valid.blockChecksum hflag _ hmem)
  | size hbad =>
    apply hbad
    cases hsize : f.desc.contentSize with
    | none => exact Or.inl (by rw [hsize]; rfl)
    | some n =>
      have hlength := valid.contentSize n hsize
      refine Or.inr ?_
      rw [hsize, ← hlength]
      simp
  | content hflag hbad => exact hbad (valid.contentChecksum hflag)

/-- The call that a query makes once the header is known. -/
def queryCall (fastDecLoop : Bool) (tmpInBlock tmpOutBlock : Int) : DecompressCall :=
  { dst := 0, dstSize := 0, src := 0, srcSize := 0, fastDecLoop := fastDecLoop,
    tmpInBlock := tmpInBlock, tmpOutBlock := tmpOutBlock }

theorem Separate.layout {blockSize : Nat} (h : Separate B blockSize Kept) (fastDecLoop : Bool)
    (tmpInBlock tmpOutBlock : Int) :
    Layout (queryCall fastDecLoop tmpInBlock tmpOutBlock) B blockSize Kept := by
  obtain ⟨hin, hout, hblocks, hpos, hforeign⟩ := h
  exact ⟨hin, hout, hblocks, Int.le_refl 0, fun _ => rfl, Or.inl (by dsimp only [queryCall]; omega),
    Or.inl (by dsimp only [queryCall]; omega), Or.inl rfl, Or.inl rfl, Or.inl rfl, Or.inl rfl, hpos,
    fun a ha => by dsimp only [queryCall]; have := hpos a ha; omega,
    fun a ha => (hforeign a ha).tmpIn, fun a ha => (hforeign a ha).tmpOut⟩

/-- The session after a query. -/
def Session.queried (s : Session) (q : Query) : Session :=
  { s with dctx := q.dctx, mem := q.mem, taken := s.taken + q.srcRead }

section

variable {s : Session} {place : Place} {m : Mem}

theorem Stage.index_lt_init {stage : Stage} (h : Stage.storeFrameHeader.index < stage.index)
    (hinit : stage ≠ .init) : ¬ stage.index ≤ Stage.init.index := by
  revert h hinit
  cases stage <;> decide

/-- A caller may keep more than it has to. -/
theorem Rests.keep (rests : Rests f dict D after s place) (Still : Int → Prop)
    (hkept : ∀ a, s.kept a → Still a)
    (hseparate : ¬ s.dctx.dStage.index ≤ Stage.init.index →
      Separate s.dctx.owned f.blockSize Still) :
    Rests f dict D after { s with kept := Still } place := by
  have hresume := rests.at_.resume (fun a _ => rfl) hkept false
  simp only [Bool.or_false] at hresume
  exact ⟨hresume, rests.proper, rests.unread_pos, rests.taken_le, rests.flow, rests.dictionary,
    fun a ha => hkept a (rests.dict_kept a ha), hseparate⟩

/-- A query among the blocks of the frame runs the state machine without buffers; it moves the
history into the context's buffer, and nothing else happens. -/
theorem Rests.query_amid (rests : Rests f dict D after s place) (valid : f.Valid dict)
    (untouched : Untouched f s m) (hstage : ¬ s.dctx.dStage.index ≤ Stage.init.index)
    (fastDecLoop : Bool) (tmpInBlock tmpOutBlock : Int) :
    ∃ o place', decompress (queryCall fastDecLoop tmpInBlock tmpOutBlock) s.dctx m = some o ∧
      Rests f dict D after { s with dctx := o.dctx, mem := o.mem } place' := by
  obtain ⟨c, hc⟩ : ∃ c, c = queryCall fastDecLoop tmpInBlock tmpOutBlock := ⟨_, rfl⟩
  have hblocks : s.dctx.blocks f c = s.dctx.owned := if_neg fun h => hstage h.1
  have hload : s.dctx.load D dict.length = s.dctx := if_neg hstage
  have hseparate := rests.separate hstage
  have htaken := rests.taken_le
  have offers : Offers f after s c m := by
    refine ⟨untouched, ?_, ?_, ?_⟩
    · rw [hblocks, hc]
      exact hseparate.layout _ _ _
    · rw [hc]
      exact Mem.holds_nil _ _
    · rw [hc, List.length_append]
      dsimp only [queryCall]
      omega
  obtain ⟨o, reply, hrun, -, hyields⟩ := rests.call valid.toSound offers
  rw [hload, hc] at hrun
  have hsrcSize : c.srcSize = 0 := by rw [hc]; rfl
  have hdstSize : c.dstSize = 0 := by rw [hc]; rfl
  cases hyields with
  | @stop r hint outs hcode hstops hadvances hat hskip =>
    have hread : o.srcRead = 0 := by
      have hsum := hadvances.srcRead
      omega
    have hwritten : o.dstWritten = 0 := by
      have hsum := hadvances.dstWritten
      omega
    have hrests := rests.after_stop valid.toSound offers hstops hadvances hat
    have hstable : c.stableDst = false := by rw [hc]; rfl
    have hcalled : s.called c D dict.length o =
        ⟨o.dctx, o.mem, Keeps c D dict.length s.kept 0, s.taken, s.output⟩ := by
      unfold Session.called
      rw [hread, hwritten, Nat.add_zero, Mem.bytes_zero, List.append_nil]
    rw [hcalled] at hrests
    refine ⟨o, r.place, hrun, hrests.keep s.kept (fun a ha => ?_) fun hlate => ?_⟩
    · rcases ha with hdict | ⟨htrue, -⟩
      · exact rests.dict_kept a hdict
      · rw [hstable] at htrue
        exact absurd htrue (by decide)
    · have howned := (hat.amid hlate).1
      rw [howned, hblocks]
      exact hseparate
  | finished hcode hadvances hidle hall hmatches =>
    have hread : o.srcRead = 0 := by
      have hsum := hadvances.srcRead
      omega
    have hflow := hadvances.flow
    have hpos := rests.unread_pos
    have hlength := congrArg List.length hflow
    rw [hread, List.drop_zero, List.length_append, List.length_append] at hlength
    have hnone : (f.unread .finished).length = 0 := rfl
    dsimp only at hlength
    omega
  | fail hcode hread hwritten hfaults => exact absurd hfaults valid.not_faults
  | idle hcode hread hwritten hsize hplace =>
    have hat := rests.at_
    rw [hload, hplace] at hat
    cases hat with
    | getFrameHeader stage => exact absurd (by rw [stage]; decide) hstage
    | storeFrameHeader stage => exact absurd (by rw [stage]; decide) hstage

/-- The header is read by a query. -/
theorem Rests.begun (rests : Rests f dict D after s (.header 0))
    (hstage : s.dctx.dStage = .getFrameHeader) (info : Option FrameInfo) (code : Code) :
    Rests f dict D after (s.queried ⟨s.dctx.begun f.desc, s.mem, f.desc.size, info, code⟩)
      .ready := by
  have hearly : s.dctx.dStage.index ≤ Stage.init.index := by
    rw [hstage]
    decide
  have hload : s.dctx.load D dict.length = { s.dctx with dict := D, dictSize := dict.length } :=
    if_pos hearly
  have hbegun : (s.dctx.begun f.desc).load D dict.length =
      (s.dctx.load D dict.length).begun f.desc := by
    rw [hload]
    rfl
  have hlength := f.desc.length_header
  have hflow := rests.flow
  rw [Frame.unread, List.drop_zero, List.append_assoc] at hflow
  have hsum := congrArg List.length hflow
  have htaken := rests.taken_le
  rw [List.length_append, List.length_append, List.length_drop, List.length_append] at hsum
  refine ⟨?_, trivial, ?_, ?_, ?_, rests.dictionary, rests.dict_kept, fun h => absurd ?_ h⟩
  · unfold Session.queried
    rw [hbegun]
    have hat := rests.at_
    cases hat with
    | getFrameHeader _ starting remaining => exact .begun starting remaining
    | storeFrameHeader stage =>
      rw [Dctx.load_dStage, hstage] at stage
      exact absurd stage (by decide)
  · have hfour := Frame.four_le_body f f.pieces
    rw [Frame.unread]
    omega
  · unfold Session.queried
    dsimp only
    omega
  · unfold Session.queried
    rw [Frame.unread, ← List.drop_drop, ← hflow, ← hlength, List.drop_left]
  · exact Nat.le_refl _

/-- A query before the header has been read reads the header, if it is all there. -/
theorem Rests.query_header (rests : Rests f dict D after s place) (sound : f.Sound dict)
    (hstage : s.dctx.dStage = .getFrameHeader) {srcBuffer : Int} {srcSize : Nat}
    (hinput : s.mem.Holds srcBuffer (((f.bytes ++ after).drop s.taken).take srcSize))
    (fastDecLoop : Bool) (tmpInBlock tmpOutBlock : Int) :
    ∃ q place', getFrameInfo fastDecLoop tmpInBlock tmpOutBlock s.dctx s.mem srcBuffer srcSize =
        some q ∧ Rests f dict D after (s.queried q) place' := by
  have hplace : place = .header 0 := by
    have hat := rests.at_
    have hload : (s.dctx.load D dict.length).dStage = .getFrameHeader := by
      rw [Dctx.load_dStage, hstage]
    exact hat.place_of_getFrameHeader hload
  subst hplace
  have hunchanged {e : FrameError} {info : Option FrameInfo} :
      Rests f dict D after (s.queried ⟨s.dctx, s.mem, 0, info, .error e⟩) (.header 0) := rests
  have hlength := f.desc.length_header
  have hmin := f.desc.le_size
  have hlow : ¬ Stage.storeFrameHeader.index < s.dctx.dStage.index := by
    rw [hstage]
    decide
  have hnot : ¬ s.dctx.dStage = .storeFrameHeader := by
    rw [hstage]
    decide
  rw [← rests.flow, Frame.unread, List.drop_zero, List.append_assoc] at hinput
  have hheader {n : Nat} (hn : n ≤ srcSize) (hsize : n ≤ f.desc.size) :
      s.mem.Holds srcBuffer (f.desc.header.take n) := by
    have hpart := hinput.take n
    rw [List.take_take, Nat.min_eq_left hn, List.take_append_of_le_length (by omega)] at hpart
    exact hpart
  unfold getFrameInfo
  rw [if_neg hlow, if_neg hnot]
  by_cases hnull : srcBuffer = 0
  · have hsize : headerSize s.mem srcBuffer srcSize = .error .srcPtr_wrong := if_pos hnull
    rw [hsize]
    exact ⟨_, .header 0, rfl, hunchanged⟩
  · by_cases hfive : srcSize < 5
    · have hsize : headerSize s.mem srcBuffer srcSize = .error .frameHeader_incomplete := by
        unfold headerSize
        rw [if_neg hnull, if_pos hfive]
      rw [hsize]
      exact ⟨_, .header 0, rfl, hunchanged⟩
    · rw [headerSize_header hnull (by omega) (hheader (by omega) (by omega))]
      by_cases hshort : srcSize < f.desc.size
      · exact ⟨_, .header 0, if_pos hshort, hunchanged⟩
      · have hbytes : s.mem.bytes srcBuffer f.desc.size = f.desc.header ++ [] := by
          have hwhole := hheader (n := f.desc.size) (by omega) (Nat.le_refl _)
          rw [← hlength, List.take_length] at hwhole
          rw [List.append_nil, ← hlength]
          exact hwhole
        refine ⟨_, .ready, ?_, rests.begun hstage (some f.desc.info) (.ok bhSize)⟩
        dsimp only
        rw [if_neg hshort, hbytes, decodeHeader_header, if_pos sound.blockSizeID]
        rfl

/-- **A query on a context at rest**, anywhere but between the header and the first block. -/
theorem Rests.query (rests : Rests f dict D after s place) (valid : f.Valid dict)
    (untouched : Untouched f s m) (hinit : s.dctx.dStage ≠ .init) {srcBuffer : Int}
    {srcSize : Nat} (hinput : m.Holds srcBuffer (((f.bytes ++ after).drop s.taken).take srcSize))
    (fastDecLoop : Bool) (tmpInBlock tmpOutBlock : Int) :
    ∃ q place', getFrameInfo fastDecLoop tmpInBlock tmpOutBlock s.dctx m srcBuffer srcSize =
        some q ∧ Rests f dict D after (s.queried q) place' := by
  have hwrite := rests.write untouched
  by_cases hlate : Stage.storeFrameHeader.index < s.dctx.dStage.index
  · obtain ⟨o, place', hrun, hrests⟩ := rests.query_amid valid untouched
      (Stage.index_lt_init hlate hinit) fastDecLoop tmpInBlock tmpOutBlock
    refine ⟨⟨o.dctx, o.mem, 0, some s.dctx.frameInfo, o.code⟩, place', ?_, hrests⟩
    unfold getFrameInfo
    rw [if_pos hlate]
    exact congrArg (Option.map _) hrun
  · by_cases hstore : s.dctx.dStage = .storeFrameHeader
    · refine ⟨⟨s.dctx, m, 0, none, .error .frameDecoding_alreadyStarted⟩, place, ?_, hwrite⟩
      unfold getFrameInfo
      rw [if_neg hlate, if_pos hstore]
    · have hstage : s.dctx.dStage = .getFrameHeader := by
        revert hlate hstore
        cases s.dctx.dStage <;> decide
      exact hwrite.query_header valid.toSound hstage hinput fastDecLoop tmpInBlock tmpOutBlock

end

end Lz4.Lz4f
