import Lz4.Frame.Compress

/-!
# The memory of a compression context

A context is used for any number of frames, and the allocator may refuse any request.  The state
of the block compressor and the buffer are replaced when a frame needs larger ones: the old block
is freed first.  `Secure` says what the context knows about its blocks between two calls, `Open`
what holds in addition while a frame is written.

`LZ4F_compressBegin` forgets the old buffer before it asks for a new one (`maxBufferSize = 0`),
but not the old state: if the request for a larger state fails, `lz4CtxAlloc` still describes the
block that has been freed.  In runs where this does not happen, and with block sizes that exist,
everything a context touches is live (`compress_secure`); otherwise it may not be
(`compress_insecure`).
-/

namespace Lz4.Lz4f

open FlatMemory

variable {σ : Type} {K : BlockCompressor σ} {A : Allocator} {w : Writer σ} {c : Cctx} {a : Arena}

/-! ## Invariants -/

/-- The blocks of a context are live and as large as it believes. -/
structure Secure (c : Cctx) (a : Arena) : Prop where
  sound : a.sound = true
  ctx : c.lz4CtxAlloc ≠ 0 → a.Provides c.lz4CtxPtr (ctxTypeIDToSize c.lz4CtxAlloc)
  buffer : c.maxBufferSize ≠ 0 → a.Provides c.tmpBuff c.maxBufferSize
  ctx_null : c.lz4CtxAlloc = 0 → c.lz4CtxPtr = 0
  buffer_null : c.maxBufferSize = 0 → c.tmpBuff = 0
  apart : c.lz4CtxPtr ≠ 0 → c.lz4CtxPtr ≠ c.tmpBuff

/-- A frame has been begun: the blocks are large enough for it. -/
structure Begun (c : Cctx) (a : Arena) : Prop extends Secure c a where
  type_le : ctxTypeIDToSize c.ctxTypeID ≤ ctxTypeIDToSize c.lz4CtxAlloc
  blockSize_pos : 0 < c.maxBlockSize
  tmpIn_ge : c.tmpBuff ≤ c.tmpIn
  room : c.prefs.autoFlush = 0 →
    c.maxBlockSize + (if c.prefs.frameInfo.blockMode = 0 then kb64 else 0) ≤ c.maxBufferSize
  window : c.prefs.frameInfo.blockMode = 0 → kb64 ≤ c.maxBufferSize
  still : c.prefs.frameInfo.blockMode ≠ 0 → c.prefs.autoFlush = 0 →
    c.tmpIn + c.maxBlockSize ≤ c.tmpBuff + c.maxBufferSize

/-- The next block fits into the buffer. -/
def Placed (c : Cctx) : Prop :=
  c.prefs.autoFlush = 0 → c.tmpIn + c.maxBlockSize ≤ c.tmpBuff + c.maxBufferSize

/-- A frame is being written: less than a block waits in the buffer. -/
structure Open (c : Cctx) (a : Arena) : Prop extends Begun c a where
  placed : Placed c
  pending_lt : c.tmpInSize < c.maxBlockSize
  pending_zero : c.prefs.autoFlush ≠ 0 → c.tmpInSize = 0

theorem secure_new (a : Arena) (hsound : a.sound = true) : Secure {} a where
  sound := hsound
  ctx h := absurd rfl h
  buffer h := absurd rfl h
  ctx_null _ := rfl
  buffer_null _ := rfl
  apart h := absurd rfl h

/-! ## Accesses -/

theorem ctxTypeIDToSize_pos (c : Cctx) : 0 < ctxTypeIDToSize c.ctxTypeID := by
  unfold Cctx.ctxTypeID
  split <;> decide

/-- The state of the block compressor is live. -/
theorem Begun.touchCtx (h : Begun w.cctx w.arena) : w.touchCtx = w := by
  have halloc : w.cctx.lz4CtxAlloc ≠ 0 := by
    intro hzero
    have hle := h.type_le
    have hpos := ctxTypeIDToSize_pos w.cctx
    rw [hzero, show ctxTypeIDToSize 0 = 0 from rfl] at hle
    omega
  have hlive := (h.ctx halloc).mono h.type_le
  unfold Writer.touchCtx
  rw [Arena.touch_eq hlive (Int.le_refl _) (Int.le_refl _)]

variable {n : Nat}

/-- A part of the buffer is live. -/
theorem Begun.touchBuffer (h : Begun w.cctx w.arena) {p : Int} (hlo : w.cctx.tmpBuff ≤ p)
    (hhi : p + n ≤ w.cctx.tmpBuff + w.cctx.maxBufferSize) : w.touchBuffer p n = w := by
  unfold Writer.touchBuffer
  by_cases hempty : w.cctx.maxBufferSize = 0
  · have hzero : n = 0 := by omega
    rw [hzero, Arena.touch_zero]
  · rw [Arena.touch_eq (h.buffer hempty) hlo hhi]

/-- What blocks need of the context. -/
structure Kept (w w' : Writer σ) : Prop where
  cctx : w'.cctx = w.cctx
  arena : w'.arena = w.arena

theorem CompressFunc.run_kept (f : CompressFunc) (h : Begun w.cctx w.arena)
    (src dst srcSize dstCapacity : Int) : Kept w (f.run K w src dst srcSize dstCapacity).1 := by
  have hctx := h.touchCtx
  unfold CompressFunc.run
  rw [hctx]
  cases f with
  | doNotCompressBlock => exact ⟨rfl, rfl⟩
  | compressBlock => dsimp only; split <;> exact ⟨rfl, rfl⟩
  | compressBlockContinue => exact ⟨rfl, rfl⟩
  | compressBlockHC => dsimp only; split <;> exact ⟨rfl, rfl⟩
  | compressBlockHCContinue => exact ⟨rfl, rfl⟩

theorem makeBlock_kept (f : CompressFunc) (h : Begun w.cctx w.arena) (dst src : Int)
    (srcSize : Nat) : Kept w (makeBlock K f w dst src srcSize).1 := by
  have hrun := f.run_kept (K := K) h src (dst + bhSize) (asInt srcSize)
    (if 1 < srcSize then asInt srcSize - 1 else 1)
  exact ⟨hrun.cctx, hrun.arena⟩

/-! ## The calls of a frame -/

/-- Moving `tmpIn` to a place inside the first `64 KB` of the buffer. -/
theorem Begun.moveTmpIn (h : Begun c a) (hlinked : c.prefs.frameInfo.blockMode = 0) (hn : n ≤ kb64)
    : Begun { c with tmpIn := c.tmpBuff + n } a ∧ Placed { c with tmpIn := c.tmpBuff + n } := by
  have hroom := h.room
  rw [if_pos hlinked] at hroom
  refine ⟨{ h with
    tmpIn_ge := ?_
    still := fun hnot => absurd hlinked hnot }, fun hmanual => ?_⟩
  · dsimp only
    omega
  · have hfits := hroom hmanual
    dsimp only
    omega

theorem localSaveDict_begun (h : Begun w.cctx w.arena)
    (hlinked : w.cctx.prefs.frameInfo.blockMode = 0) :
    ∃ tmpIn, (localSaveDict K w).cctx = { w.cctx with tmpIn := tmpIn } ∧
      (localSaveDict K w).arena = w.arena ∧ Begun { w.cctx with tmpIn := tmpIn } w.arena ∧
      Placed { w.cctx with tmpIn := tmpIn } := by
  have hwindow := h.window hlinked
  have hle := K.saveDict_le (2 ≤ w.level) w.stream w.mem w.cctx.tmpBuff kb64
  unfold localSaveDict
  rw [h.touchCtx]
  dsimp only
  rw [h.touchBuffer (Int.le_refl _) (by omega)]
  exact ⟨_, rfl, rfl, h.moveTmpIn hlinked hle⟩

/-- A block that does not fit any more belongs to a linked frame. -/
theorem Begun.linked_of_full (h : Begun w.cctx w.arena) (hmanual : w.cctx.prefs.autoFlush = 0)
    (hfull : w.full) : w.cctx.prefs.frameInfo.blockMode = 0 := by
  by_contra hnot
  have hstill := h.still hnot hmanual
  unfold Writer.full at hfull
  omega

/-- Behind a block from the buffer. -/
theorem Open.behind (h : Open c a) (n : Nat) (hmanual : c.prefs.autoFlush = 0) :
    Begun { c with
      tmpIn := if c.prefs.frameInfo.blockMode = 0 then c.tmpIn + n else c.tmpIn
      tmpInSize := 0 } a := by
  have hplaced := h.placed hmanual
  have hge := h.tmpIn_ge
  refine { h.toBegun with tmpIn_ge := ?_, still := fun hnot _ => ?_ }
  · dsimp only
    split <;> omega
  · rw [if_neg hnot]
    exact hplaced

theorem linked_eq (w : Writer σ) : (w.linked = true) = (w.cctx.prefs.frameInfo.blockMode = 0) := by
  simp [Writer.linked]

theorem flush_open (h : Open w.cctx w.arena) (dst : Int) (dstCapacity : Nat) :
    Open (flush K w dst dstCapacity).1.cctx (flush K w dst dstCapacity).1.arena ∧
      (flush K w dst dstCapacity).1.cctx.prefs = w.cctx.prefs ∧
      (flush K w dst dstCapacity).1.cctx.maxBlockSize = w.cctx.maxBlockSize := by
  unfold flush
  dsimp only
  by_cases hempty : w.cctx.tmpInSize = 0
  · rw [if_pos hempty]
    exact ⟨h, rfl, rfl⟩
  rw [if_neg hempty]
  by_cases hstage : w.cctx.cStage ≠ 1
  · rw [if_pos hstage]
    exact ⟨h, rfl, rfl⟩
  rw [if_neg hstage]
  by_cases hcapacity : dstCapacity < w.cctx.tmpInSize + bhSize + bfSize
  · rw [if_pos hcapacity]
    exact ⟨h, rfl, rfl⟩
  rw [if_neg hcapacity]
  have hmanual : w.cctx.prefs.autoFlush = 0 := by
    by_contra hauto
    exact hempty (h.pending_zero hauto)
  have hplaced := h.placed hmanual
  have hlt := h.pending_lt
  rw [h.touchBuffer h.tmpIn_ge (by omega)]
  generalize selectCompression _ _ _ = f
  have hkept := makeBlock_kept (K := K) f h.toBegun dst w.cctx.tmpIn w.cctx.tmpInSize
  generalize makeBlock K f w dst w.cctx.tmpIn w.cctx.tmpInSize = r at hkept ⊢
  obtain ⟨w', size⟩ := r
  obtain ⟨hcctx, harena⟩ := hkept
  dsimp only at hcctx harena ⊢
  simp only [linked_eq, hcctx]
  have hbehind := h.behind w.cctx.tmpInSize hmanual
  rw [← harena] at hbehind
  generalize hnew : ({ w.cctx with tmpIn := _, tmpInSize := 0 } : Cctx) = c' at hbehind ⊢
  have hprefs : c'.prefs = w.cctx.prefs := by rw [← hnew]
  have hblock : c'.maxBlockSize = w.cctx.maxBlockSize := by rw [← hnew]
  have hzero : c'.tmpInSize = 0 := by rw [← hnew]
  by_cases hfull : ({ w' with cctx := c' } : Writer σ).full
  · rw [if_pos hfull]
    have hlinked := Begun.linked_of_full (w := { w' with cctx := c' }) hbehind
      (by rw [← hmanual, ← hprefs]) hfull
    obtain ⟨tmpIn, hc, ha, hbegun, hnext⟩ :=
      localSaveDict_begun (K := K) (w := { w' with cctx := c' }) hbehind hlinked
    rw [hc, ha]
    refine ⟨{ hbegun with placed := hnext, pending_lt := ?_, pending_zero := fun _ => hzero },
      hprefs, hblock⟩
    dsimp only
    omega
  · rw [if_neg hfull]
    refine ⟨{ hbehind with
      placed := fun _ => ?_, pending_lt := ?_, pending_zero := fun _ => hzero }, hprefs, hblock⟩
    · unfold Writer.full at hfull
      omega
    · dsimp only
      omega

/-- An update of a frame with the parameters of `c₀`, among its blocks. -/
structure Working (u : Update) (c₀ : Cctx) (p : Progress σ) : Prop where
  begun : Begun p.w.cctx p.w.arena
  pending_lt : p.w.cctx.tmpInSize < p.w.cctx.maxBlockSize
  pending_zero : p.w.cctx.prefs.autoFlush ≠ 0 → p.w.cctx.tmpInSize = 0
  prefs_eq : p.w.cctx.prefs = c₀.prefs
  blockSize_eq : p.w.cctx.maxBlockSize = c₀.maxBlockSize
  srcPtr_le : p.srcPtr ≤ u.src + u.srcSize

variable {u : Update} {p : Progress σ} {c₀ : Cctx}

theorem Working.compressSrc (h : Working u c₀ p) (f : CompressFunc)
    (hn : p.srcPtr + n ≤ u.src + u.srcSize) : Working u c₀ (p.compressSrc K f n) := by
  obtain ⟨hcctx, harena⟩ := makeBlock_kept (K := K) f h.begun p.dstPtr p.srcPtr n
  unfold Progress.compressSrc
  constructor <;> dsimp only
  case begun =>
    rw [hcctx, harena]
    exact h.begun
  case pending_lt =>
    rw [hcctx]
    exact h.pending_lt
  case pending_zero =>
    rw [hcctx]
    exact h.pending_zero
  case prefs_eq => rw [hcctx, h.prefs_eq]
  case blockSize_eq => rw [hcctx, h.blockSize_eq]
  case srcPtr_le => exact hn

theorem Working.fullBlocks (f : CompressFunc) :
    ∀ (n : Nat) (p : Progress σ), Working u c₀ p → p.srcPtr + (n * c₀.maxBlockSize : Nat) ≤
      u.src + u.srcSize → Working u c₀ (p.fullBlocks K f n) ∧ (p.fullBlocks K f n).srcPtr =
      p.srcPtr + (n * c₀.maxBlockSize : Nat) := by
  intro n
  induction n with
  | zero =>
    intro p h _
    exact ⟨h, by simp [Progress.fullBlocks]⟩
  | succ n ih =>
    intro p h hle
    rw [Nat.succ_mul] at hle ⊢
    unfold Progress.fullBlocks
    rw [h.blockSize_eq]
    have hnext := h.compressSrc (K := K) f (n := c₀.maxBlockSize) (by omega)
    have hptr : (p.compressSrc K f c₀.maxBlockSize).srcPtr = p.srcPtr + c₀.maxBlockSize := rfl
    obtain ⟨hworking, heq⟩ := ih _ hnext (by omega)
    exact ⟨hworking, by omega⟩

theorem completeTmp_working (h : Open p.w.cctx p.w.arena) (hprefs : p.w.cctx.prefs = c₀.prefs)
    (hblock : p.w.cctx.maxBlockSize = c₀.maxBlockSize) (hptr : p.srcPtr = u.src) (f : CompressFunc)
    :
    Working u c₀ (p.completeTmp K f u) := by
  unfold Progress.completeTmp
  dsimp only
  by_cases hempty : 0 < p.w.cctx.tmpInSize
  · rw [if_pos hempty]
    have hmanual : p.w.cctx.prefs.autoFlush = 0 := by
      by_contra hauto
      exact absurd (h.pending_zero hauto) (Nat.ne_of_gt hempty)
    have hplaced := h.placed hmanual
    have hlt := h.pending_lt
    have hge := h.tmpIn_ge
    by_cases hshort : u.srcSize < p.w.cctx.maxBlockSize - p.w.cctx.tmpInSize
    · rw [if_pos hshort, h.touchBuffer (by omega) (by omega)]
      constructor <;> dsimp only
      case begun => exact { h.toBegun with }
      case pending_lt => omega
      case pending_zero => exact fun hauto => absurd hmanual hauto
      case prefs_eq => exact hprefs
      case blockSize_eq => exact hblock
      case srcPtr_le => omega
    · rw [if_neg hshort, h.touchBuffer (by omega) (by omega)]
      generalize hfilled : ({ p.w with mem := _ } : Writer σ) = w
      have hc : w.cctx = p.w.cctx := by rw [← hfilled]
      have ha : w.arena = p.w.arena := by rw [← hfilled]
      have hopen : Open w.cctx w.arena := by rwa [hc, ha]
      rw [← hc] at hplaced hge hmanual
      rw [← hc, hopen.touchBuffer hge (by omega)]
      obtain ⟨hcctx, harena⟩ := makeBlock_kept (K := K) f hopen.toBegun p.dstPtr w.cctx.tmpIn
        w.cctx.maxBlockSize
      have hbehind := hopen.behind w.cctx.maxBlockSize hmanual
      simp only [linked_eq, hcctx, harena]
      constructor <;> dsimp only
      case begun => exact hbehind
      case pending_lt => exact hopen.blockSize_pos
      case pending_zero => exact fun _ => rfl
      case prefs_eq => rw [hc, hprefs]
      case blockSize_eq => rw [hc, hblock]
      case srcPtr_le =>
        rw [hc]
        omega
  · rw [if_neg hempty]
    exact ⟨h.toBegun, h.pending_lt, h.pending_zero, hprefs, hblock, by omega⟩

theorem switchMode_open (h : Open w.cctx w.arena) (u : Update) :
    Open (w.switchMode K u).1.cctx (w.switchMode K u).1.arena ∧
      (w.switchMode K u).1.cctx.prefs = w.cctx.prefs ∧
      (w.switchMode K u).1.cctx.maxBlockSize = w.cctx.maxBlockSize := by
  unfold Writer.switchMode
  by_cases hmode : w.blockCompressMode ≠ u.mode
  · rw [if_pos hmode]
    exact flush_open h u.dst u.dstCapacity
  · rw [if_neg hmode]
    exact ⟨h, rfl, rfl⟩

/-- Behind the blocks of an update, less than a block is left, and nothing with automatic
flushes. -/
theorem updateBlocks_working (h : Open w.cctx w.arena) (u : Update) :
    Working u w.cctx (w.updateBlocks K u) ∧
      u.src + u.srcSize - (w.updateBlocks K u).srcPtr < w.cctx.maxBlockSize ∧
      (w.cctx.prefs.autoFlush ≠ 0 → (w.updateBlocks K u).srcPtr = u.src + u.srcSize) := by
  unfold Writer.updateBlocks
  dsimp only
  generalize selectCompression _ _ _ = f
  obtain ⟨hopen, hprefs, hblock⟩ := switchMode_open (K := K) h u
  generalize w.switchMode K u = r at hopen hprefs hblock ⊢
  obtain ⟨w', bytesWritten⟩ := r
  have hpos := h.blockSize_pos
  have hfirst : Working u w.cctx
      (Progress.completeTmp K f u ⟨w', u.src, u.dst + bytesWritten, .notDone⟩) :=
    completeTmp_working hopen hprefs hblock rfl f
  generalize Progress.completeTmp K f u _ = p at hfirst ⊢
  have hle := hfirst.srcPtr_le
  generalize hleft : (u.src + u.srcSize - p.srcPtr).toNat = left
  have hmod := Nat.div_add_mod left w.cctx.maxBlockSize
  have hlt := Nat.mod_lt left hpos
  rw [Nat.mul_comm] at hmod
  obtain ⟨hworking, hptr⟩ := Working.fullBlocks (K := K) f (left / w.cctx.maxBlockSize) p hfirst
    (by omega)
  generalize Progress.fullBlocks K f (left / w.cctx.maxBlockSize) p = q at hworking hptr ⊢
  have hrest : u.src + u.srcSize - q.srcPtr = (left % w.cctx.maxBlockSize : Nat) := by omega
  unfold Progress.finish
  rw [hrest, Int.toNat_natCast]
  by_cases hauto : q.w.cctx.prefs.autoFlush ≠ 0 ∧ 0 < left % w.cctx.maxBlockSize
  · rw [if_pos hauto]
    have hend : (q.compressSrc K f (left % w.cctx.maxBlockSize)).srcPtr = u.src + u.srcSize := by
      have : (q.compressSrc K f (left % w.cctx.maxBlockSize)).srcPtr =
        q.srcPtr + (left % w.cctx.maxBlockSize : Nat) := rfl
      omega
    exact ⟨hworking.compressSrc f (by omega), by omega, fun _ => hend⟩
  · rw [if_neg hauto]
    refine ⟨hworking, by omega, fun hflush => ?_⟩
    rw [← hworking.prefs_eq] at hflush
    omega

theorem preserveDict_begun (h : Begun w.cctx w.arena) (u : Update) (last : LastBlockStatus) :
    ∃ tmpIn, (w.preserveDict K u last).cctx = { w.cctx with tmpIn := tmpIn } ∧
      (w.preserveDict K u last).arena = w.arena ∧ Begun { w.cctx with tmpIn := tmpIn } w.arena := by
  unfold Writer.preserveDict
  by_cases hlast : w.linked ∧ last = .fromSrcBuffer
  · rw [if_pos hlast]
    have hlinked : w.cctx.prefs.frameInfo.blockMode = 0 := by
      rw [← linked_eq]
      exact hlast.1
    by_cases hstable : u.stableSrc = true
    · rw [if_pos hstable]
      have hmoved := h.moveTmpIn hlinked (Nat.zero_le kb64)
      rw [Int.natCast_zero, Int.add_zero] at hmoved
      exact ⟨_, rfl, rfl, hmoved.1⟩
    · rw [if_neg hstable]
      obtain ⟨tmpIn, hc, ha, hbegun, -⟩ := localSaveDict_begun (K := K) h hlinked
      exact ⟨tmpIn, hc, ha, hbegun⟩
  · rw [if_neg hlast]
    exact ⟨w.cctx.tmpIn, rfl, rfl, h⟩

/-- Making room for the next block. -/
theorem makeRoom_begun (h : Begun w.cctx w.arena) :
    ∃ tmpIn, (if w.cctx.prefs.autoFlush = 0 ∧ w.full then localSaveDict K w else w).cctx =
        { w.cctx with tmpIn := tmpIn } ∧
      (if w.cctx.prefs.autoFlush = 0 ∧ w.full then localSaveDict K w else w).arena = w.arena ∧
      Begun { w.cctx with tmpIn := tmpIn } w.arena ∧ Placed { w.cctx with tmpIn := tmpIn } := by
  by_cases hfull : w.cctx.prefs.autoFlush = 0 ∧ w.full
  · rw [if_pos hfull]
    exact localSaveDict_begun h (h.linked_of_full hfull.1 hfull.2)
  · rw [if_neg hfull]
    refine ⟨w.cctx.tmpIn, rfl, rfl, h, fun hmanual => ?_⟩
    have hroom : ¬ w.full := fun hw => hfull ⟨hmanual, hw⟩
    unfold Writer.full at hroom
    dsimp only
    omega

theorem keep_open (h : Working u c p) (hleft : u.src + u.srcSize - p.srcPtr < c.maxBlockSize)
    (hauto : c.prefs.autoFlush ≠ 0 → p.srcPtr = u.src + u.srcSize) :
    Open (p.keep K u).cctx (p.keep K u).arena := by
  obtain ⟨t₁, hc₁, ha₁, hbegun₁⟩ :=
    preserveDict_begun (K := K) h.begun u p.lastBlockCompressed
  unfold Progress.keep
  dsimp only
  generalize p.w.preserveDict K u p.lastBlockCompressed = w₁ at hc₁ ha₁ ⊢
  rw [← hc₁, ← ha₁] at hbegun₁
  obtain ⟨t₂, hc₂, ha₂, hbegun₂, hplaced⟩ := makeRoom_begun (K := K) hbegun₁
  generalize (if w₁.cctx.prefs.autoFlush = 0 ∧ w₁.full then localSaveDict K w₁ else w₁) = w₂
    at hc₂ ha₂ ⊢
  rw [← hc₂] at hplaced
  rw [← hc₂, ← ha₂] at hbegun₂
  have hprefs : w₂.cctx.prefs = c.prefs := by rw [hc₂, hc₁, ← h.prefs_eq]
  have hblock : w₂.cctx.maxBlockSize = c.maxBlockSize := by rw [hc₂, hc₁, ← h.blockSize_eq]
  have hsize : w₂.cctx.tmpInSize = p.w.cctx.tmpInSize := by rw [hc₂, hc₁]
  have hlt := h.pending_lt
  rw [h.blockSize_eq] at hlt
  have hzero := h.pending_zero
  rw [h.prefs_eq] at hzero
  by_cases hmore : 0 < (u.src + u.srcSize - p.srcPtr).toNat
  · have hmanual : w₂.cctx.prefs.autoFlush = 0 := by
      by_contra hflush
      rw [hprefs] at hflush
      omega
    have hfits := hplaced hmanual
    rw [if_pos hmore, hbegun₂.touchBuffer hbegun₂.tmpIn_ge (by omega)]
    refine { hbegun₂ with
      placed := hplaced, pending_lt := ?_, pending_zero := fun hflush => absurd hmanual hflush }
    dsimp only
    omega
  · rw [if_neg hmore]
    refine { hbegun₂ with
      placed := hplaced, pending_lt := ?_, pending_zero := fun hflush => ?_ }
    · dsimp only
      omega
    · rw [hsize]
      exact hzero (by rwa [← hprefs])

theorem compressUpdate_open (h : Open w.cctx w.arena) (u : Update) :
    Open (compressUpdate K w u).1.cctx (compressUpdate K w u).1.arena := by
  unfold compressUpdate
  by_cases hstage : w.cctx.cStage ≠ 1
  · rw [if_pos hstage]
    exact h
  rw [if_neg hstage]
  by_cases hcapacity : u.dstCapacity < compressBoundInternal u.srcSize w.cctx.prefs w.cctx.tmpInSize
  · rw [if_pos hcapacity]
    exact h
  rw [if_neg hcapacity]
  by_cases hraw : u.mode = .uncompressed ∧ u.dstCapacity < u.srcSize
  · rw [if_pos hraw]
    exact h
  rw [if_neg hraw]
  obtain ⟨hworking, hleft, hauto⟩ := updateBlocks_working (K := K) h u
  exact keep_open hworking hleft hauto

theorem compressEnd_open (h : Open w.cctx w.arena) (dst : Int) (dstCapacity : Nat) :
    Open (compressEnd K w dst dstCapacity).1.cctx (compressEnd K w dst dstCapacity).1.arena := by
  obtain ⟨hopen, -, -⟩ := flush_open (K := K) h dst dstCapacity
  unfold compressEnd
  generalize flush K w dst dstCapacity = r at hopen ⊢
  obtain ⟨w', code⟩ := r
  cases code with
  | error e => exact hopen
  | ok flushSize =>
    dsimp only at hopen ⊢
    -- the end mark and the checksum leave the buffers alone
    have hended : Open { w'.cctx with cStage := 0 } w'.arena :=
      { hopen with placed := hopen.placed }
    by_cases hcapacity : dstCapacity - flushSize < 4
    · rw [if_pos hcapacity]
      exact hopen
    rw [if_neg hcapacity]
    by_cases hchecked : w'.cctx.prefs.frameInfo.contentChecksumFlag = 1 ∧
        dstCapacity - flushSize < 8
    · rw [if_pos hchecked]
      exact hopen
    rw [if_neg hchecked]
    split <;> exact hended

/-! ## Beginning a frame -/

/-- If there is a state that is too small for the level, the allocator has a larger one. -/
def Supported (A : Allocator) (c : Cctx) (a : Arena) : Prop :=
  c.lz4CtxAlloc ≠ 0 → ctxTypeIDToSize c.lz4CtxAlloc < ctxTypeIDToSize c.ctxTypeID →
    A.answer (a.free c.lz4CtxPtr) (ctxTypeIDToSize c.ctxTypeID) ≠ 0

instance (A : Allocator) (c : Cctx) (a : Arena) : Decidable (Supported A c a) :=
  inferInstanceAs (Decidable (_ → _ → _))

/-- Freeing the state leaves the buffer. -/
theorem Secure.freeCtx (h : Secure c a) :
    (a.free c.lz4CtxPtr).sound = true ∧
      (c.maxBufferSize ≠ 0 → (a.free c.lz4CtxPtr).Provides c.tmpBuff c.maxBufferSize) := by
  by_cases halloc : c.lz4CtxAlloc = 0
  · rw [h.ctx_null halloc, Arena.free_null]
    exact ⟨h.sound, h.buffer⟩
  · refine ⟨Arena.sound_free (h.ctx halloc) h.sound, fun hsize => ?_⟩
    by_cases hnull : c.lz4CtxPtr = 0
    · rw [hnull, Arena.free_null]
      exact h.buffer hsize
    · exact (h.buffer hsize).free (h.apart hnull).symm

/-- Freeing the buffer leaves the state. -/
theorem Secure.freeBuffer (h : Secure c a) :
    (a.free c.tmpBuff).sound = true ∧
      (c.lz4CtxAlloc ≠ 0 →
        (a.free c.tmpBuff).Provides c.lz4CtxPtr (ctxTypeIDToSize c.lz4CtxAlloc)) := by
  by_cases hsize : c.maxBufferSize = 0
  · rw [h.buffer_null hsize, Arena.free_null]
    exact ⟨h.sound, h.ctx⟩
  · refine ⟨Arena.sound_free (h.buffer hsize) h.sound, fun halloc => ?_⟩
    by_cases hnull : c.tmpBuff = 0
    · rw [hnull, Arena.free_null]
      exact h.ctx halloc
    · refine (h.ctx halloc).free fun heq => ?_
      exact h.apart (by rwa [heq]) heq

theorem ctxTypeID_ne_zero (c : Cctx) : c.ctxTypeID ≠ 0 := by
  unfold Cctx.ctxTypeID
  split <;> decide

theorem prepareCtx_secure (h : Secure w.cctx w.arena) (hgranted : Supported A w.cctx w.arena) :
    Secure (w.prepareCtx K A).1.cctx (w.prepareCtx K A).1.arena ∧
      (w.prepareCtx K A).1.cctx.prefs = w.cctx.prefs ∧
      ((w.prepareCtx K A).2 = true → ctxTypeIDToSize w.cctx.ctxTypeID ≤
        ctxTypeIDToSize (w.prepareCtx K A).1.cctx.lz4CtxAlloc) := by
  unfold Writer.prepareCtx
  dsimp only
  by_cases hsmall : ctxTypeIDToSize w.cctx.lz4CtxAlloc < ctxTypeIDToSize w.cctx.ctxTypeID
  · rw [if_pos hsmall]
    obtain ⟨hsound, hbuffer⟩ := h.freeCtx
    unfold Cctx.prepareCtx
    rw [if_pos hsmall]
    generalize hfreed : w.arena.free w.cctx.lz4CtxPtr = freed at hsound hbuffer ⊢
    by_cases hnull : A.answer freed (ctxTypeIDToSize w.cctx.ctxTypeID) = 0
    · -- the first state of the context: nothing was freed
      have halloc : w.cctx.lz4CtxAlloc = 0 := by
        by_contra hold
        exact hgranted hold hsmall (by rw [hfreed]; exact hnull)
      rw [if_pos hnull]
      refine ⟨?_, rfl, fun hanswered => absurd hanswered (by simp)⟩
      exact {
        sound := hsound
        ctx := fun hold => absurd halloc hold
        buffer := fun hsize => Allocator.provides_malloc (hbuffer hsize)
        ctx_null := fun _ => rfl
        buffer_null := h.buffer_null
        apart := fun hne => absurd rfl hne }
    · rw [if_neg hnull]
      have hnew := Allocator.provides_answer hnull
      have hlive : (A.malloc freed (ctxTypeIDToSize w.cctx.ctxTypeID)).touch
          (A.answer freed (ctxTypeIDToSize w.cctx.ctxTypeID))
          (ctxTypeIDToSize w.cctx.ctxTypeID) = A.malloc freed (ctxTypeIDToSize w.cctx.ctxTypeID) :=
        Arena.touch_eq hnew (Int.le_refl _) (Int.le_refl _)
      refine ⟨?_, rfl, fun _ => Nat.le_refl _⟩
      rw [if_pos rfl]
      unfold Writer.touchCtx
      exact {
        sound := (congrArg Arena.sound hlive).trans hsound
        ctx := fun _ => hnew
        buffer := fun hsize => Allocator.provides_malloc (hbuffer hsize)
        ctx_null := fun hzero => absurd hzero (ctxTypeID_ne_zero w.cctx)
        buffer_null := h.buffer_null
        apart := fun hne => by
          by_cases hsize : w.cctx.maxBufferSize = 0
          · rw [h.buffer_null hsize]
            exact hne
          · exact (Allocator.ne_answer (hbuffer hsize) hnull).symm }
  · rw [if_neg hsmall]
    have halloc : w.cctx.lz4CtxAlloc ≠ 0 := by
      intro hzero
      have hpos := ctxTypeIDToSize_pos w.cctx
      rw [hzero, show ctxTypeIDToSize 0 = 0 from rfl] at hsmall
      omega
    have hle : ctxTypeIDToSize w.cctx.ctxTypeID ≤ ctxTypeIDToSize w.cctx.lz4CtxAlloc := by omega
    by_cases htype : w.cctx.lz4CtxType ≠ w.cctx.ctxTypeID
    · rw [if_pos htype]
      have hlive : w.touchCtx = w := by
        unfold Writer.touchCtx
        rw [Arena.touch_eq ((h.ctx halloc).mono hle) (Int.le_refl _) (Int.le_refl _)]
      rw [hlive]
      unfold Cctx.prepareCtx
      rw [if_neg hsmall]
      exact ⟨{ h with }, rfl, fun _ => hle⟩
    · rw [if_neg htype]
      exact ⟨h, rfl, fun _ => hle⟩

variable {c : Cctx}

theorem requiredBuffSize_eq (hvalid : c.maxBlockSize ≤ 4 * 1024 * 1024) :
    c.requiredBuffSize = if c.prefs.autoFlush ≠ 0 then if c.prefs.frameInfo.blockMode =
      0 then kb64 else 0 else c.maxBlockSize + if c.prefs.frameInfo.blockMode =
      0 then 2 * kb64 else 0 := by
  have hkb : kb64 = 65536 := rfl
  unfold Cctx.requiredBuffSize
  split
  · rfl
  · rw [Nat.mod_eq_of_lt (by split <;> omega)]

theorem prepareBuffer_secure (h : Secure w.cctx w.arena) :
    Secure (w.prepareBuffer A).1.cctx (w.prepareBuffer A).1.arena ∧
      (w.prepareBuffer A).1.cctx.prefs = w.cctx.setBlockSize.prefs ∧
      (w.prepareBuffer A).1.cctx.maxBlockSize = w.cctx.setBlockSize.maxBlockSize ∧
      (w.prepareBuffer A).1.cctx.lz4CtxAlloc = w.cctx.lz4CtxAlloc ∧
      ((w.prepareBuffer A).2 = true →
        w.cctx.setBlockSize.requiredBuffSize ≤ (w.prepareBuffer A).1.cctx.maxBufferSize) := by
  have hsecure : Secure w.cctx.setBlockSize w.arena := { h with }
  have halloc : w.cctx.setBlockSize.lz4CtxAlloc = w.cctx.lz4CtxAlloc := rfl
  unfold Writer.prepareBuffer
  dsimp only
  generalize w.cctx.setBlockSize = c at hsecure halloc ⊢
  by_cases hsmall : c.maxBufferSize < c.requiredBuffSize
  · rw [if_pos hsmall]
    obtain ⟨hsound, hctx⟩ := hsecure.freeBuffer
    unfold Cctx.prepareBuffer
    rw [if_pos hsmall]
    generalize w.arena.free c.tmpBuff = freed at hsound hctx ⊢
    by_cases hnull : A.answer freed c.requiredBuffSize = 0
    · rw [if_pos hnull]
      refine ⟨?_, rfl, rfl, halloc, fun hanswered => absurd hanswered (by simp)⟩
      exact {
        sound := hsound
        ctx := fun hold => Allocator.provides_malloc (hctx hold)
        buffer := fun hsize => absurd rfl hsize
        ctx_null := hsecure.ctx_null
        buffer_null := fun _ => rfl
        apart := id }
    · rw [if_neg hnull]
      refine ⟨?_, rfl, rfl, halloc, fun _ => Nat.le_refl _⟩
      exact {
        sound := hsound
        ctx := fun hold => Allocator.provides_malloc (hctx hold)
        buffer := fun _ => Allocator.provides_answer hnull
        ctx_null := hsecure.ctx_null
        buffer_null := fun hzero => by
          dsimp only at hzero
          omega
        apart := fun hne => by
          have hold : c.lz4CtxAlloc ≠ 0 := fun hzero => hne (hsecure.ctx_null hzero)
          exact Allocator.ne_answer (hctx hold) hnull }
  · rw [if_neg hsmall]
    exact ⟨hsecure, rfl, rfl, halloc, fun _ => Nat.le_of_not_lt hsmall⟩

/-- A use of the state, under a condition. -/
theorem Begun.useStream (h : Begun w.cctx w.arena) (P : Prop) [Decidable P] (s : σ) :
    Kept w (if P then { w.touchCtx with stream := s } else w) := by
  rw [h.touchCtx]
  split <;> exact ⟨rfl, rfl⟩

theorem Begun.of_kept {w' : Writer σ} (h : Begun w.cctx w.arena) (hkept : Kept w w') :
    Begun w'.cctx w'.arena := by
  rw [hkept.cctx, hkept.arena]
  exact h

theorem prepareStream_kept (h : Begun w.cctx w.arena) (favorDecSpeed : Nat) (dict : Int)
    (dictSize : Nat) : Kept w (w.prepareStream K favorDecSpeed dict dictSize) := by
  unfold Writer.prepareStream
  dsimp only
  have hlinked := h.useStream (w.linked = true) (initStream K w.stream w.cdict w.level 0)
  generalize (if w.linked = true then _ else w) = w₁ at hlinked ⊢
  have hfavor := (h.of_kept hlinked).useStream (2 ≤ w₁.level)
    (K.favorDecompressionSpeed w₁.stream favorDecSpeed)
  generalize (if 2 ≤ w₁.level then _ else w₁) = w₂ at hfavor ⊢
  have hdict := ((h.of_kept hlinked).of_kept hfavor).useStream (dict ≠ 0)
    (if w₂.cctx.lz4CtxType = 1 then K.loadDict w₂.stream w₂.mem dict dictSize
      else K.loadDictHC w₂.stream w₂.mem dict dictSize)
  exact ⟨hdict.cctx.trans (hfavor.cctx.trans hlinked.cctx),
    hdict.arena.trans (hfavor.arena.trans hlinked.arena)⟩

/-- A block size that exists. -/
def Preferences.Sized (p : Preferences) : Prop :=
  p.frameInfo.blockSizeID = 0 ∨ (4 ≤ p.frameInfo.blockSizeID ∧ p.frameInfo.blockSizeID ≤ 7)

instance (p : Preferences) : Decidable p.Sized := inferInstanceAs (Decidable (_ ∨ _))

theorem setBlockSize_bounds (h : c.prefs.Sized) :
    kb64 ≤ c.setBlockSize.maxBlockSize ∧ c.setBlockSize.maxBlockSize ≤ 4 * 1024 * 1024 := by
  have hid : 4 ≤ usedBlockSizeID c.prefs.frameInfo.blockSizeID ∧
      usedBlockSizeID c.prefs.frameInfo.blockSizeID ≤ 7 := by
    unfold usedBlockSizeID
    rcases h with hzero | hrange <;> split <;> omega
  exact getBlockSize_le hid.1 hid.2

/-- Blocks that are large enough for the preferences: the frame begins with an empty buffer. -/
theorem Secure.begun (h : Secure c a) (hsized : kb64 ≤ c.maxBlockSize)
    (hle : c.maxBlockSize ≤ 4 * 1024 * 1024)
    (htype : ctxTypeIDToSize c.ctxTypeID ≤ ctxTypeIDToSize c.lz4CtxAlloc)
    (hbuffer : c.requiredBuffSize ≤ c.maxBufferSize) (htmpIn : c.tmpIn = c.tmpBuff)
    (hempty : c.tmpInSize = 0) : Open c a := by
  have hkb : kb64 = 65536 := rfl
  rw [requiredBuffSize_eq hle] at hbuffer
  refine { h with
    type_le := htype
    blockSize_pos := by omega
    tmpIn_ge := Int.le_of_eq htmpIn.symm
    room := fun hmanual => ?_
    window := fun hlinked => ?_
    still := fun _ hmanual => ?_
    placed := fun hmanual => ?_
    pending_lt := by omega
    pending_zero := fun _ => hempty }
  · rw [if_neg (by simpa using hmanual)] at hbuffer
    split at hbuffer <;> split <;> omega
  · split at hbuffer <;> omega
  · rw [if_neg (by simpa using hmanual)] at hbuffer
    omega
  · rw [if_neg (by simpa using hmanual)] at hbuffer
    omega

theorem compressBeginInternal_secure {preferences : Option Preferences}
    (h : Secure w.cctx w.arena) (hsized : (preferences.getD {}).Sized)
    (hgranted : Supported A { w.cctx with prefs := preferences.getD {} } w.arena)
    (dst : Int) (dstCapacity : Nat) (dict : Int) (dictSize : Nat) (cdict : Int) :
    let r := compressBeginInternal K A w dst dstCapacity dict dictSize cdict preferences
    Secure r.1.cctx r.1.arena ∧ (∀ n, r.2 = .ok n → Open r.1.cctx r.1.arena) := by
  intro r
  have hr : compressBeginInternal K A w dst dstCapacity dict dictSize cdict preferences = r := rfl
  unfold compressBeginInternal at hr
  by_cases hcapacity : dstCapacity < maxFHSize
  · rw [if_pos hcapacity] at hr
    rw [← hr]
    exact ⟨h, fun n hn => by cases hn⟩
  rw [if_neg hcapacity] at hr
  dsimp only at hr
  obtain ⟨hsecure₁, hprefs₁, htype⟩ := prepareCtx_secure (K := K)
    (w := { w with cctx := { w.cctx with prefs := preferences.getD {} } }) { h with } hgranted
  generalize Writer.prepareCtx K A { w with cctx := { w.cctx with prefs := preferences.getD {} } }
    = first at hsecure₁ hprefs₁ htype hr
  obtain ⟨w₁, answered⟩ := first
  dsimp only at hsecure₁ hprefs₁ htype hr
  cases answered with
  | false =>
    rw [if_pos (by simp)] at hr
    rw [← hr]
    exact ⟨hsecure₁, fun n hn => by cases hn⟩
  | true =>
  rw [if_neg (by simp)] at hr
  obtain ⟨hsecure₂, hprefs₂, hblock₂, halloc₂, hbuffer⟩ := prepareBuffer_secure (A := A) hsecure₁
  have hbounds := setBlockSize_bounds (c := w₁.cctx) (by rw [hprefs₁]; exact hsized)
  have hrequired : w₁.cctx.setBlockSize.requiredBuffSize =
      (w₁.prepareBuffer A).1.cctx.requiredBuffSize := by
    unfold Cctx.requiredBuffSize
    rw [hprefs₂, hblock₂]
  generalize w₁.prepareBuffer A = second
    at hsecure₂ hprefs₂ hblock₂ halloc₂ hbuffer hrequired hr
  obtain ⟨w₂, answered⟩ := second
  dsimp only at hsecure₂ hprefs₂ hblock₂ halloc₂ hbuffer hrequired hr
  cases answered with
  | false =>
    rw [if_pos (by simp)] at hr
    rw [← hr]
    exact ⟨hsecure₂, fun n hn => by cases hn⟩
  | true =>
  rw [if_neg (by simp)] at hr
  have htypeID : w₂.cctx.ctxTypeID =
      Cctx.ctxTypeID { w.cctx with prefs := preferences.getD {} } := by
    unfold Cctx.ctxTypeID
    rw [hprefs₂, show w₁.cctx.setBlockSize.prefs.compressionLevel =
      w₁.cctx.prefs.compressionLevel from rfl, hprefs₁]
  generalize hnew : ({ w₂ with cdict := _, cctx := _ } : Writer σ) = w₃ at hr
  have hopen : Open w₃.cctx w₃.arena := by
    rw [← hnew]
    refine Secure.begun { hsecure₂ with } ?_ ?_ ?_ ?_ rfl rfl
    · exact hblock₂ ▸ hbounds.1
    · exact hblock₂ ▸ hbounds.2
    · show ctxTypeIDToSize w₂.cctx.ctxTypeID ≤ ctxTypeIDToSize w₂.cctx.lz4CtxAlloc
      rw [htypeID, halloc₂]
      exact htype rfl
    · show w₂.cctx.requiredBuffSize ≤ w₂.cctx.maxBufferSize
      rw [← hrequired]
      exact hbuffer rfl
  by_cases hdict : dict ≠ 0 ∧ 2 ^ 31 ≤ dictSize
  · rw [if_pos hdict] at hr
    obtain ⟨hc, ha⟩ := prepareStream_kept (K := K) hopen.toBegun
      (preferences.getD {}).favorDecSpeed 0 0
    rw [← hr]
    dsimp only
    rw [hc, ha]
    exact ⟨hopen.toSecure, fun n hn => by cases hn⟩
  · rw [if_neg hdict] at hr
    obtain ⟨hc, ha⟩ := prepareStream_kept (K := K) hopen.toBegun
      (preferences.getD {}).favorDecSpeed dict dictSize
    rw [← hr]
    dsimp only
    rw [hc, ha]
    exact ⟨{ hopen.toSecure with }, fun _ _ => { hopen with placed := hopen.placed }⟩

/-! ## The context without its memory -/

theorem prepareCtx_eq (K : BlockCompressor σ) (A : Allocator) (w : Writer σ) :
    ∃ ctxBlock, w.cctx.prepareCtx ctxBlock =
        ((w.prepareCtx K A).1.cctx, (w.prepareCtx K A).2) ∧
      (w.prepareCtx K A).1.mem = w.mem := by
  unfold Writer.prepareCtx
  dsimp only
  by_cases hsmall : ctxTypeIDToSize w.cctx.lz4CtxAlloc < ctxTypeIDToSize w.cctx.ctxTypeID
  · rw [if_pos hsmall]
    refine ⟨A.answer (w.arena.free w.cctx.lz4CtxPtr) (ctxTypeIDToSize w.cctx.ctxTypeID), ?_⟩
    generalize w.cctx.prepareCtx _ = r
    obtain ⟨c, answered⟩ := r
    cases answered <;> exact ⟨rfl, rfl⟩
  · rw [if_neg hsmall]
    by_cases htype : w.cctx.lz4CtxType ≠ w.cctx.ctxTypeID
    · rw [if_pos htype]
      refine ⟨0, ?_, rfl⟩
      unfold Cctx.prepareCtx
      rw [if_neg hsmall]
    · rw [if_neg htype]
      refine ⟨0, ?_, rfl⟩
      unfold Cctx.prepareCtx
      rw [if_neg hsmall, ← not_not.1 htype]

theorem prepareBuffer_eq (A : Allocator) (w : Writer σ) :
    ∃ buffBlock, w.cctx.setBlockSize.prepareBuffer buffBlock =
        ((w.prepareBuffer A).1.cctx, (w.prepareBuffer A).2) ∧
      (w.prepareBuffer A).1.mem = w.mem := by
  unfold Writer.prepareBuffer
  by_cases hsmall : w.cctx.setBlockSize.maxBufferSize < w.cctx.setBlockSize.requiredBuffSize
  · rw [if_pos hsmall]
    exact ⟨_, rfl, rfl⟩
  · rw [if_neg hsmall]
    refine ⟨0, ?_, rfl⟩
    unfold Cctx.prepareBuffer
    rw [if_neg hsmall]

/-! ## Runs -/

/-- `LZ4F_compressBegin` -/
def Writer.compressBegin (K : BlockCompressor σ) (A : Allocator) (w : Writer σ) (dst : Int)
    (dstCapacity : Nat) (preferences : Option Preferences) : Writer σ × Code :=
  compressBeginInternal K A w dst dstCapacity 0 0 0 preferences

/-- The contexts that calls reach, each with whether the last `LZ4F_compressBegin` succeeded: only
then a frame can be written.  All calls of `LZ4F_compressBegin` meet the condition `P`. -/
inductive Reached (K : BlockCompressor σ) (A : Allocator) (P : Writer σ → Option Preferences → Prop) :
    Bool → Writer σ → Prop
  | new (s : σ) (m : Mem) (a : Arena) (sound : a.sound = true) :
      Reached K A P false { stream := s, mem := m, arena := a }
  | begin {ready ready' : Bool} {w : Writer σ} (h : Reached K A P ready w) (dst : Int)
      (dstCapacity : Nat) (preferences : Option Preferences) (condition : P w preferences)
      (outcome : (w.compressBegin K A dst dstCapacity preferences).2.isOk = ready') :
      Reached K A P ready' (w.compressBegin K A dst dstCapacity preferences).1
  | update {w : Writer σ} (h : Reached K A P true w) (u : Update) :
      Reached K A P true (compressUpdate K w u).1
  | flush {w : Writer σ} (h : Reached K A P true w) (dst : Int) (dstCapacity : Nat) :
      Reached K A P true (flush K w dst dstCapacity).1
  | compressEnd {w : Writer σ} (h : Reached K A P true w) (dst : Int) (dstCapacity : Nat) :
      Reached K A P true (compressEnd K w dst dstCapacity).1

/-- A call of `LZ4F_compressBegin` with a block size that exists, and if it needs a larger state
than the context has, the allocator does not refuse it. -/
def Provided (A : Allocator) (w : Writer σ) (preferences : Option Preferences) : Prop :=
  (preferences.getD {}).Sized ∧ Supported A { w.cctx with prefs := preferences.getD {} } w.arena

theorem Reached.secure {ready : Bool} (h : Reached K A (Provided A) ready w) :
    Secure w.cctx w.arena ∧ (ready = true → Open w.cctx w.arena) := by
  induction h with
  | new s m a sound => exact ⟨secure_new a sound, fun hready => absurd hready (by simp)⟩
  | begin _ dst dstCapacity preferences condition outcome ih =>
    obtain ⟨hsecure, hopen⟩ := compressBeginInternal_secure (K := K) ih.1 condition.1 condition.2
      dst dstCapacity 0 0 0
    refine ⟨hsecure, fun hready => ?_⟩
    unfold Writer.compressBegin at outcome ⊢
    generalize compressBeginInternal K A _ dst dstCapacity 0 0 0 preferences = r
      at hopen outcome ⊢
    obtain ⟨w', code⟩ := r
    cases code with
    | error e => exact absurd (outcome.trans hready) (by simp [Except.isOk, Except.toBool])
    | ok n => exact hopen n rfl
  | update _ u ih =>
    have hopen := compressUpdate_open (K := K) (ih.2 rfl) u
    exact ⟨hopen.toSecure, fun _ => hopen⟩
  | flush _ dst dstCapacity ih =>
    have hopen := (flush_open (K := K) (ih.2 rfl) dst dstCapacity).1
    exact ⟨hopen.toSecure, fun _ => hopen⟩
  | compressEnd _ dst dstCapacity ih =>
    have hopen := compressEnd_open (K := K) (ih.2 rfl) dst dstCapacity
    exact ⟨hopen.toSecure, fun _ => hopen⟩

/-- **A context that is used for any number of frames, with an allocator that may refuse any
request but one for a larger state, owns the blocks that it describes, and all its accesses were
to live memory.** -/
theorem compress_secure (K : BlockCompressor σ) (A : Allocator) (w : Writer σ) (ready : Bool)
    (h : Reached K A (Provided A) ready w) :
    (w.cctx.lz4CtxAlloc ≠ 0 →
        w.arena.Provides w.cctx.lz4CtxPtr (ctxTypeIDToSize w.cctx.lz4CtxAlloc)) ∧
      (w.cctx.maxBufferSize ≠ 0 → w.arena.Provides w.cctx.tmpBuff w.cctx.maxBufferSize) ∧
      w.arena.sound = true :=
  ⟨h.secure.1.ctx, h.secure.1.buffer, h.secure.1.sound⟩

/-- A block compressor that never finds a block smaller. -/
def storeOnly : BlockCompressor Unit where
  initStream _ := ()
  setCompressionLevel _ _ := ()
  resetStreamFast _ := ()
  resetStreamHCFast _ _ := ()
  attachDictionary _ _ := ()
  attachHCDictionary _ _ := ()
  favorDecompressionSpeed _ _ := ()
  loadDict _ _ _ _ := ()
  loadDictHC _ _ _ _ := ()
  compressFastContinue _ m _ _ _ _ _ := ((), m, 0)
  compressFastExtStateFastReset _ m _ _ _ _ _ := ((), m, 0)
  compressHCContinue _ m _ _ _ _ := ((), m, 0)
  compressHCExtStateHCFastReset _ m _ _ _ _ _ := ((), m, 0)
  saveDict _ _ m _ _ := ((), m, 0)
  saveDict_le _ _ _ _ _ := Nat.zero_le _

/-- An allocator that refuses the requests in a list. -/
def refusing (refused : List Nat) : Allocator where
  answer a _ :=
    let p : Int := 2 ^ 24 * (a.requests + 1)
    if a.requests ∈ refused ∨ ∃ b ∈ a.live, b.start = p then 0 else p
  fresh a size := by
    dsimp only
    split
    · exact fun hnull => absurd rfl hnull
    · rename_i hfree
      rw [not_or] at hfree
      exact fun _ b hb heq => hfree.2 ⟨b, hb, heq⟩

/-- A new context. -/
def newWriter : Writer Unit := { stream := (), mem := fun _ => 0 }

/-- A frame at a high level after one at a low level, on a context whose first request for a buffer
was refused. -/
theorem compress_secure_levels : let A := refusing [1]
    let fast : Option Preferences := none
    let high : Option Preferences := some { compressionLevel := 9 }
    let w₁ := (newWriter.compressBegin storeOnly A 1000 19 fast).1
    let w₂ := (w₁.compressBegin storeOnly A 1000 19 fast).1
    let w₃ := (compressUpdate storeOnly w₂ ⟨1000, 200000, 500000, 100000, false, .compressed⟩).1
    let w₄ := (w₃.compressBegin storeOnly A 1000 19 high).1
    w₁.cctx.tmpBuff = 0 ∧ w₄.cctx.lz4CtxAlloc = 2 ∧
      w₄.arena.Provides w₄.cctx.lz4CtxPtr (ctxTypeIDToSize w₄.cctx.lz4CtxAlloc) ∧
      w₄.arena.Provides w₄.cctx.tmpBuff w₄.cctx.maxBufferSize ∧ w₄.arena.sound = true := by
  intro A fast high w₁ w₂ w₃ w₄
  have h₁ : Reached storeOnly A (Provided A) false w₁ :=
    .begin (.new () (fun _ => 0) {} rfl) 1000 19 fast ⟨by decide, by decide⟩ (by decide +kernel)
  have h₂ : Reached storeOnly A (Provided A) true w₂ :=
    .begin h₁ 1000 19 fast ⟨by decide, by decide⟩ (by decide +kernel)
  have h₃ : Reached storeOnly A (Provided A) true w₃ := .update h₂ _
  have h₄ : Reached storeOnly A (Provided A) true w₄ :=
    .begin h₃ 1000 19 high ⟨by decide, by decide +kernel⟩ (by decide +kernel)
  obtain ⟨hctx, hbuffer, hsound⟩ := compress_secure storeOnly A w₄ true h₄
  exact ⟨by decide +kernel, by decide +kernel, hctx (by decide +kernel), hbuffer (by decide +kernel),
    hsound⟩

/-- A frame at a low level has been begun when the allocator refuses the larger state for a high
level: `LZ4F_compressBegin` returns an error, the old state has been freed, and `lz4CtxAlloc` still
describes it.  The next frame at a low level is begun without an error on memory that is not
live. -/
theorem compress_insecure : let A := refusing [2]
    let w₁ := (newWriter.compressBegin storeOnly A 1000 19 none).1
    let r₂ := w₁.compressBegin storeOnly A 1000 19 (some { compressionLevel := 9 })
    let r₃ := r₂.1.compressBegin storeOnly A 1000 19 none
    Reached storeOnly A (fun _ _ => True) true r₃.1 ∧
      r₂.2 = .error .allocation_failed ∧ r₂.1.cctx.lz4CtxAlloc = 1 ∧
      r₂.1.cctx.lz4CtxPtr = 0 ∧
      ¬ r₂.1.arena.Provides r₂.1.cctx.lz4CtxPtr (ctxTypeIDToSize r₂.1.cctx.lz4CtxAlloc) ∧
      r₂.1.arena.sound = true ∧ r₃.2 = .ok 7 ∧ r₃.1.arena.sound = false := by
  intro A w₁ r₂ r₃
  have h₁ : Reached storeOnly A (fun _ _ => True) true w₁ :=
    .begin (.new () (fun _ => 0) {} rfl) 1000 19 none trivial (by decide +kernel)
  have h₂ : Reached storeOnly A (fun _ _ => True) false r₂.1 := .begin h₁ 1000 19 _ trivial (by decide +kernel)
  have h₃ : Reached storeOnly A (fun _ _ => True) true r₃.1 := .begin h₂ 1000 19 none trivial (by decide +kernel)
  refine ⟨h₃, by decide +kernel, by decide +kernel, by decide +kernel, ?_, by decide +kernel,
    by decide +kernel, by decide +kernel⟩
  rintro ⟨b, hb, hstart, -⟩
  revert b
  decide +kernel

/-- A block size that does not exist: the size of the buffer wraps around to a small one, and an
update fills more than that. -/
theorem compress_overruns : let A := refusing []
    let r := newWriter.compressBegin storeOnly A 1000 19
      (some { frameInfo := { blockSizeID := 1 } })
    let u : Update := ⟨1000, 400000, 500000, 200000, false, .compressed⟩
    r.2 = .ok 7 ∧ r.1.cctx.maxBufferSize = 131070 ∧ r.1.arena.sound = true ∧
      (compressUpdate storeOnly r.1 u).2 = .ok 0 ∧
      (compressUpdate storeOnly r.1 u).1.arena.sound = false := by
  decide +kernel

end Lz4.Lz4f
