import Lz4.Encoder.Continue

/-!
# Sessions

A session is what the two sides of a stream share: the dictionary it started with, and the
blocks with their sources since then (`Session`).  It also records what the caller knows about
memory: the last `len` bytes of the history stand in front of the address `stop`.  None of
this is taken from the stream, so that `SessionRun` says which calls are made and what the
caller keeps in memory, and `SessionRun.tracks` that the stream agrees with it.

Two operations do not do what is expected of them in every state.  A dictionary that is
attached replaces the history, but the history is used nevertheless if the next block happens
to follow it in memory, and also if the dictionary turns out to be too short.  And resets of
a stream whose table is empty let its indices grow until they wrap around.  `Regular`
excludes these steps; `compressFastContinue_forgotten` is a run with the first of them.
-/

namespace Lz4

open FlatMemory Encoder

/-! ## What is decoded -/

/-- The blocks are decoded in order, each after the dictionary and what was decoded before it. -/
inductive Decoded (dictionary : List UInt8) : List (List UInt8) → List (List UInt8) → Prop
  | nil : Decoded dictionary [] []
  | snoc {blocks pieces : List (List UInt8)} {block piece : List UInt8}
      (decoded : Decoded dictionary blocks pieces)
      (hblock : DecodesTo (dictionary ++ pieces.flatten) block piece) :
      Decoded dictionary (blocks ++ [block]) (pieces ++ [piece])

/-- An empty block is one token. -/
theorem decodesTo_empty (history : List UInt8) : DecodesTo history [0] [] := by
  have conforming : (⟨[], [], 0⟩ : Block).Conforming history := by
    constructor <;> simp [Reaches]
  have hdecode : (⟨[], [], 0⟩ : Block).decode history = [] := by
    simp [Block.decode]
  have hdecodes := decodesTo_of_conforming conforming
  rw [hdecode] at hdecodes
  exact hdecodes

variable {block : List UInt8}

theorem Decoded.last {dictionary piece : List UInt8} (decoded : Decoded dictionary [block] [piece])
    :
    DecodesTo dictionary block piece := by
  generalize hblocks : [block] = blocks at decoded
  generalize hpieces : [piece] = pieces at decoded
  cases decoded with
  | nil => exact absurd hblocks (by simp)
  | @snoc blocks pieces block' piece' _ hblock =>
    rw [List.singleton_eq_append_iff] at hblocks hpieces
    simp_all

/-! ## Sessions -/

structure Session where
  dictionary : List UInt8 := []
  blocks : List (List UInt8) := []
  sources : List (List UInt8) := []
  /-- the last `len` bytes of the history are in front of this address -/
  stop : Int := 0
  len : Nat := 0
  /-- the dictionary was attached, and no block has been compressed since -/
  attached : Bool := false

namespace Session

variable (g : Session)

def history : List UInt8 := g.dictionary ++ g.sources.flatten

/-- How much of the history has to stay where it is. -/
def window : Nat := min g.len 65535

/-- A session that starts with a dictionary of `size` bytes. -/
def start (m : Mem) (dictionary : Int) (size : Nat) (attached : Bool) : Session where
  dictionary := m.bytes dictionary size
  stop := dictionary + size
  len := size
  attached

/-- A block of the bytes `source`, which are at `address`. -/
def add (block source : List UInt8) (address : Int) : Session :=
  { g with
    blocks := g.blocks ++ [block]
    sources := g.sources ++ [source]
    stop := if source = [] then g.stop else address + source.length
    len := if source = [] then g.len
      else if address = g.stop then g.len + source.length else source.length
    attached := g.attached && source.isEmpty }

/-- The last `size` bytes were moved to `address`. -/
def save (address : Int) (size : Nat) : Session :=
  if g.attached = true ∨ size = 0 then g else { g with stop := address + size, len := size }

/-- A block at `source` may overwrite the oldest bytes of the history, but not its end, and
nothing of an attached dictionary. -/
def Allows (source n : Int) : Prop :=
  if g.attached = true then source + n ≤ g.stop - g.len ∨ g.stop ≤ source
  else g.len = 0 ∨ source + n < g.stop ∨ g.stop ≤ source

end Session

/-! ## Runs -/

/-- What is done to a stream, as far as it matters for `Regular`. -/
inductive Operation where
  | loadDict
  | attach (dictCtx : Context)
  | compress (source n : Int)
  | saveDict
  | reset

/-- All states that calls on one stream lead to, with the memory and the session.  Before each
call the caller changes memory, but keeps the history that the session refers to; a block
itself may take the place of older bytes. -/
inductive SessionRun (ptr32 : Bool) (Admits : Stream → Operation → Prop) :
    Stream → Mem → Session → Prop
  | init (m : Mem) : SessionRun ptr32 Admits {} m {}
  | loadDict {s : Stream} {m : Mem} {g : Session} (run : SessionRun ptr32 Admits s m g)
      (m' : Mem) (slow : Bool) (dictionary : Int) (dictSize : Nat)
      (hdict : 0 < dictSize → 0 < dictionary) (hadmits : Admits s .loadDict) :
      SessionRun ptr32 Admits
        { loadDictInternal ptr32 slow m' dictionary dictSize with dictCtx := none } m'
        (.start m' dictionary dictSize false)
  | attach {s : Stream} {m : Mem} {g : Session} (run : SessionRun ptr32 Admits s m g)
      (m₀ m' : Mem) (slow : Bool) (dictionary : Int) (dictSize : Nat)
      (hdict : 0 < dictSize → 0 < dictionary)
      (hadmits : Admits s (.attach (loadDictInternal ptr32 slow m₀ dictionary dictSize))) :
      SessionRun ptr32 Admits
        (attachDictionary s (some (loadDictInternal ptr32 slow m₀ dictionary dictSize))) m'
        (.start m' dictionary dictSize true)
  | compress {s : Stream} {m : Mem} {g : Session} (run : SessionRun ptr32 Admits s m g)
      (m' : Mem) {source dest n cap acceleration : Int} {c : Compression}
      (hn : -2 ^ 31 ≤ n ∧ n < 2 ^ 31) (hsource : 0 < n → 0 < source)
      (hallows : g.Allows source n)
      (hkept : ∀ a, g.stop - g.window ≤ a → a < g.stop → (a < source ∨ source + n ≤ a) →
        m' a = m a)
      (hapart : source + n ≤ dest ∨ dest + cap ≤ source)
      (hdest : g.stop ≤ dest ∨ dest + cap ≤ g.stop - g.window)
      (hadmits : Admits s (.compress source n))
      (hcall : compressFastContinue ptr32 s ⟨m', []⟩ source dest n cap acceleration = some c)
      (hpos : 0 < c.result) :
      SessionRun ptr32 Admits c.stream c.heap.mem
        (g.add (c.heap.mem.bytes dest c.result.toNat) (m'.bytes source n.toNat) source)
  | saveDict {s : Stream} {m : Mem} {g : Session} (run : SessionRun ptr32 Admits s m g)
      (m' : Mem) {safeBuffer dictSize saved : Int} {s' : Stream} {h : Heap}
      (hsize : -2 ^ 31 ≤ dictSize ∧ dictSize < 2 ^ 31)
      (hkept : ∀ a, g.stop - g.window ≤ a → a < g.stop → m' a = m a)
      (hcall : saveDict s ⟨m', []⟩ safeBuffer dictSize = (saved, s', h))
      (hbuffer : 0 < saved → 0 < safeBuffer)
      (hapart : g.attached = true →
        safeBuffer + saved ≤ g.stop - g.window ∨ g.stop ≤ safeBuffer)
      (hadmits : Admits s .saveDict) :
      SessionRun ptr32 Admits s' h.mem (g.save safeBuffer saved.toNat)
  | reset {s : Stream} {m : Mem} {g : Session} (run : SessionRun ptr32 Admits s m g)
      (m' : Mem) (hadmits : Admits s .reset) :
      SessionRun ptr32 Admits (resetStreamFast s) m' {}

/-- The steps that do what is expected.  While the stream has a history of its own, a
dictionary is not attached if it is too short to be used, and after that the next block is not
put behind this history.  Indices stay below `2 ^ 32`. -/
def Regular (s : Stream) : Operation → Prop
  | .attach dictCtx => s.dictSize = 0 ∨ dictCtx.dictSize ≠ 0
  | .compress source n => (0 < n → Detached s source) ∧ s.currentOffset + n < 2 ^ 32
  | _ => True

/-- The stream and memory agree with the session. -/
structure InStep (s : Stream) (m : Mem) (g : Session) : Prop where
  steady : Steady s
  refers : Refers s g.stop g.len
  len_le : g.len ≤ g.history.length
  kept : ∀ i : Nat, 1 ≤ i → i ≤ g.window →
    m (g.stop - i) = g.history.getD (g.history.length - i) 0
  attached : s.dictCtx ≠ none → g.attached = true
  unused : g.attached = true → s.dictCtx = none → s.dictSize = 0
  decoded : Decoded g.dictionary g.blocks g.sources

variable {h : Heap} {dictionary : Int} {cctx : Stream} {mode : Mode} {dictSize i : Nat}

section

variable {ptr32 : Bool} {s : Stream} {m m' : Mem} {g : Session}
  {source dest n cap acceleration : Int} {c : Compression}

theorem Session.window_le (g : Session) : g.window ≤ g.len := Nat.min_le_left _ _

theorem Session.start_kept (m : Mem) (dictionary : Int) (size : Nat) (attached : Bool)
    (hlow : 1 ≤ i) (hhigh : i ≤ (Session.start m dictionary size attached).window) :
    m ((Session.start m dictionary size attached).stop - i) =
      (Session.start m dictionary size attached).history.getD
      ((Session.start m dictionary size attached).history.length - i) 0 := by
  have hle : i ≤ size := Nat.le_trans hhigh (Nat.min_le_left _ _)
  have hhistory : (Session.start m dictionary size attached).history = m.bytes dictionary size :=
    List.append_nil _
  rw [hhistory, Mem.length_bytes, Mem.getD_bytes _ _ (by omega)]
  congr 1
  simp only [Session.start]
  omega

theorem inStep_start (m : Mem) {size : Nat} {attached : Bool} (steady : Steady s)
    (refers : Refers s (dictionary + size) size) (hattached : s.dictCtx ≠ none → attached = true)
    (hunused : attached = true → s.dictCtx = none → s.dictSize = 0) :
    InStep s m (Session.start m dictionary size attached) where
  steady := steady
  refers := refers
  len_le := by
    simp [Session.start, Session.history]
  kept _ hlow hhigh := Session.start_kept m dictionary size attached hlow hhigh
  attached := hattached
  unused := hunused
  decoded := .nil

/-! ## The operations without a block -/

theorem inStep_loadDict (ptr32 slow : Bool) (m : Mem) (hdict : 0 < dictSize → 0 < dictionary) :
    InStep { loadDictInternal ptr32 slow m dictionary dictSize with dictCtx :=
      none } m (.start m dictionary dictSize false) := by
  obtain ⟨loaded, hsize, hend⟩ := loadDictInternal_loaded ptr32 slow m
    (show (0 : Int) < (dictSize : Int) → 0 < dictionary by omega)
  refine inStep_start m loaded.steady ⟨fun _ => ⟨by simpa using hsize, hend⟩, ?_⟩ (by simp)
    (by simp)
  intro d hd
  exact absurd hd (by simp)

theorem inStep_attach (ptr32 slow : Bool) (m₀ m : Mem) (hdict : 0 < dictSize → 0 < dictionary)
    (steady : Steady s)
    (hregular : s.dictSize = 0 ∨ (loadDictInternal ptr32 slow m₀ dictionary dictSize).dictSize ≠ 0)
    :
    InStep (attachDictionary s (some (loadDictInternal ptr32 slow m₀ dictionary dictSize))) m
      (.start m dictionary dictSize true) := by
  obtain ⟨loaded, hsize, hend⟩ := loadDictInternal_loaded ptr32 slow m₀
    (show (0 : Int) < (dictSize : Int) → 0 < dictionary by omega)
  generalize loadDictInternal ptr32 slow m₀ dictionary dictSize = d at *
  -- if the dictionary was too short, there is no history
  have hown (hnone : (attachDictionary s (some d)).dictCtx = none) :
      (attachDictionary s (some d)).dictSize = 0 := by
    refine hregular.resolve_right fun hne => ?_
    simp [attachDictionary, hne] at hnone
  refine inStep_start m (attachDictionary_steady steady loaded) ⟨fun hnone => ?_, fun d' hd' => ?_⟩
    (fun _ => rfl) (fun _ => hown)
  · have := hown hnone
    omega
  · simp only [attachDictionary] at hd'
    split at hd'
    · exact absurd hd' (by simp)
    · obtain rfl := Option.some.inj hd'
      exact ⟨by simpa using hsize, hend (by omega)⟩

theorem inStep_reset (m : Mem) (steady : Steady s) : InStep (resetStreamFast s) m {} where
  steady := resetStreamFast_steady steady
  refers := ⟨fun _ => ⟨Nat.le_refl 0, fun h => absurd h (Nat.lt_irrefl 0)⟩,
    fun d hd => absurd hd (by simp [resetStreamFast, prepareTable])⟩
  len_le := Nat.zero_le _
  kept i hlow hhigh := by
    simp only [Session.window] at hhigh
    omega
  attached h := absurd rfl h
  unused h := absurd h (by simp)
  decoded := .nil

/-- What `LZ4_saveDict` saves is the end of the dictionary. -/
theorem saveDict_cases (s : Stream) (h : Heap) (safeBuffer : Int) {dictSize : Int}
    (hrange : -2 ^ 31 ≤ dictSize ∧ dictSize < 2 ^ 31) :
    ∃ size : Nat, size ≤ s.dictSize ∧ size ≤ 65536 ∧
      saveDict s h safeBuffer dictSize = ((size : Int),
        { s with dictionary := safeBuffer, dictSize := size },
        if 0 < size then h.memcpy .window safeBuffer (s.dictionary + s.dictSize - size) size
        else h) := by
  unfold saveDict
  dsimp only
  generalize hfirst : (if dictSize % 2 ^ 32 > 65536 then 65536 else dictSize) = first
  generalize hsecond : (if first % 2 ^ 32 > (s.dictSize : Int) then (s.dictSize : Int) else first) =
    second
  obtain ⟨size, rfl⟩ : ∃ size : Nat, second = size := ⟨second.toNat, by omega⟩
  have hmod : ((size : Int) % 2 ^ 32).toNat = size := by omega
  refine ⟨size, by omega, by omega, ?_⟩
  simp only [hmod, gt_iff_lt, Int.natCast_pos, Int.toNat_natCast]

theorem inStep_saveDict {safeBuffer dictSize saved : Int} {s' : Stream} (inStep : InStep s m g)
    (hrange : -2 ^ 31 ≤ dictSize ∧ dictSize < 2 ^ 31)
    (hkept : ∀ a, g.stop - g.window ≤ a → a < g.stop → m' a = m a)
    (hcall : saveDict s ⟨m', []⟩ safeBuffer dictSize = (saved, s', h))
    (hbuffer : 0 < saved → 0 < safeBuffer)
    (hapart : g.attached = true → safeBuffer + saved ≤ g.stop - g.window ∨ g.stop ≤ safeBuffer) :
    InStep s' h.mem (g.save safeBuffer saved.toNat) := by
  obtain ⟨steady, refers, hlen, hkept₀, hattached, hunused, decoded⟩ := inStep
  obtain ⟨size, hle, hmax, heq⟩ := saveDict_cases s ⟨m', []⟩ safeBuffer hrange
  rw [hcall, Prod.mk.injEq, Prod.mk.injEq] at heq
  obtain ⟨rfl, rfl, rfl⟩ := heq
  rw [Int.toNat_natCast]
  have hsteady : Steady { s with dictionary := safeBuffer, dictSize := size } :=
    ⟨steady.table, steady.empty, steady.used, Nat.le_trans hle steady.size_le, steady.offset_lt,
      fun hpos => hbuffer (by dsimp only at hpos; omega), steady.attached⟩
  by_cases hsame : g.attached = true ∨ size = 0
  · -- the session goes on with the same history
    rw [Session.save, if_pos hsame]
    refine ⟨hsteady, ⟨fun hnone => ?_, refers.attached⟩, hlen, fun i hlow hhigh => ?_, hattached,
      fun hatt hnone => ?_, decoded⟩
    · have hzero : size = 0 := by
        rcases hsame with hatt | hzero
        · have := hunused hatt hnone
          omega
        · exact hzero
      dsimp only
      omega
    · rw [← hkept₀ i hlow hhigh, ← hkept _ (by omega) (by omega)]
      split
      · have := hapart (hsame.resolve_right (by omega))
        exact Mem.copy_outside (by omega)
      · rfl
    · have := hunused hatt hnone
      dsimp only
      omega
  · -- the end of the history has moved
    rw [Session.save, if_neg hsame]
    have hpos : 0 < size := by omega
    have hnone : s.dictCtx = none := by
      by_contra hctx
      exact hsame (Or.inl (hattached hctx))
    obtain ⟨hown, hstop⟩ := refers.own hnone
    refine ⟨hsteady, ⟨fun _ => ⟨Nat.le_refl _, fun _ => rfl⟩, ?_⟩, ?_, fun i hlow hhigh => ?_,
      hattached, fun hatt => absurd (Or.inl hatt) hsame, decoded⟩
    · intro d hd
      rw [show s.dictCtx = some d from hd] at hnone
      exact absurd hnone (by simp)
    · exact Nat.le_trans (Nat.le_trans hle hown) hlen
    · have hi : i ≤ size ∧ i ≤ 65535 := ⟨Nat.le_trans hhigh (Nat.min_le_left _ _),
        Nat.le_trans hhigh (Nat.min_le_right _ _)⟩
      have hwindow : i ≤ g.window := by
        unfold Session.window
        omega
      have hold := hkept₀ i hlow hwindow
      rw [if_pos hpos, Heap.memcpy_mem]
      dsimp only [Session.history] at hold ⊢
      rw [← hold, ← hkept _ (by omega) (by omega), Mem.copy_inside (by omega) (by omega)]
      congr 1
      omega

/-! ## A block -/

theorem compressFastContinue_call (ptr32 : Bool) (s : Stream) (h : Heap)
    (source dest n cap acceleration : Int) :
    ∃ cctx mode ext, mode.outputDirective = .limitedOutput ∧
      compressFastContinue ptr32 s h source dest n cap acceleration =
        (compressGeneric ptr32 cctx h source dest n cap mode (clampAcceleration acceleration)).map
          fun c => { c with stream := c.stream.finish ext source n } := by
  unfold compressFastContinue
  dsimp only
  generalize (if s.dictSize ≠ 0 then s.dictionary + (s.dictSize : Int) else 0) = dictEnd
  generalize (if (renormDictT s n).dictSize < 4 ∧ dictEnd ≠ source ∧ n > 0 ∧
    (renormDictT s n).dictCtx.isNone = true then source else dictEnd) = dictEnd'
  generalize trimDictionary _ _ dictEnd' = t
  by_cases hfollows : dictEnd' = source
  · rw [if_pos hfollows]
    exact ⟨t, ⟨.limitedOutput, .byU32, .withPrefix64k,
      t.dictSize < 65536 ∧ t.dictSize < t.currentOffset⟩, false, rfl, by simp [Stream.finish]⟩
  · rw [if_neg hfollows]
    split
    · split
      · exact ⟨_, _, true, rfl, by rw [Option.map_eq_bind]; rfl⟩
      · exact ⟨_, _, true, rfl, by rw [Option.map_eq_bind]; rfl⟩
    · exact ⟨_, _, true, rfl, by rw [Option.map_eq_bind]; rfl⟩

theorem compressGeneric_refused (hlarge : n % 2 ^ 32 > maxInputSize) :
    compressGeneric ptr32 cctx h source dest n cap mode acceleration = some ⟨0, none, h, cctx⟩ := by
  unfold compressGeneric
  rw [if_pos hlarge]

/-- A size that is not supported is refused. -/
theorem compressFastContinue_size (hn : -2 ^ 31 ≤ n ∧ n < 2 ^ 31)
    (hcall : compressFastContinue ptr32 s h source dest n cap acceleration = some c)
    (hpos : 0 < c.result) : 0 ≤ n ∧ n ≤ maxInputSize := by
  by_contra hsize
  have hlarge : n % 2 ^ 32 > maxInputSize := by
    unfold maxInputSize at hsize ⊢
    omega
  obtain ⟨cctx, mode, ext, -, heq⟩ :=
    compressFastContinue_call ptr32 s h source dest n cap acceleration
  obtain ⟨c', hc', rfl⟩ := Option.map_eq_some_iff.mp (heq ▸ hcall)
  rw [compressGeneric_refused hlarge] at hc'
  obtain rfl := Option.some.inj hc'
  exact absurd hpos (by simp)

theorem compressGeneric_empty (hdir : mode.outputDirective = .limitedOutput) :
    compressGeneric ptr32 cctx h source dest 0 cap mode acceleration =
      some (if cap ≤ 0 then ⟨0, none, h, cctx⟩ else ⟨1, none, h.store dest [0], cctx⟩) := by
  unfold compressGeneric
  rw [if_neg (by decide), if_pos rfl]
  simp only [hdir, ne_eq, reduceCtorEq, not_false_eq_true, true_and, if_false]
  split
  · rfl
  · rfl

/-- An empty block is one token.  Unless it follows the history, the stream forgets its own. -/
theorem compressFastContinue_empty (steady : Steady s)
    (hcall : compressFastContinue ptr32 s h source dest 0 cap acceleration = some c)
    (hpos : 0 < c.result) :
    0 < cap ∧ c.result = 1 ∧ c.heap = h.store dest [0] ∧ Steady c.stream ∧ c.stream.dictCtx =
      s.dictCtx ∧ (c.stream.dictSize = 0 ∨ c.stream.dictSize ≤ s.dictSize ∧
      c.stream.dictionary + c.stream.dictSize = s.dictionary + s.dictSize) := by
  obtain ⟨steady', -, hctx, hle, -, hend⟩ := renormDictT_steady steady (Int.le_refl 0)
    (by decide) (by have := steady.offset_lt; omega)
  unfold compressFastContinue at hcall
  have htiny (a b : Prop) : ¬ (a ∧ b ∧ (0 : Int) > 0 ∧
      (renormDictT s 0).dictCtx.isNone = true) := by omega
  simp only [if_neg (htiny _ _)] at hcall
  generalize (if s.dictSize ≠ 0 then s.dictionary + (s.dictSize : Int) else 0) = dictEnd at hcall
  generalize renormDictT s 0 = s' at *
  have hresult (cctx : Stream) {c : Compression}
      (heq : (if cap ≤ 0 then (⟨0, none, h, cctx⟩ : Compression)
        else ⟨1, none, h.store dest [0], cctx⟩) = c) (hpos : 0 < c.result) :
      0 < cap ∧ c.result = 1 ∧ c.heap = h.store dest [0] ∧ c.stream = cctx := by
    subst heq
    split at hpos
    · exact absurd hpos (by simp)
    · rename_i hcap
      rw [if_neg hcap]
      exact ⟨by omega, rfl, rfl, rfl⟩
  by_cases hfollows : dictEnd = source
  · have htrim : trimDictionary s' (source + 0) dictEnd = s' := by
      unfold trimDictionary
      rw [if_neg (by omega)]
    rw [htrim, if_pos hfollows, compressGeneric_empty rfl] at hcall
    obtain ⟨hcap, hone, hheap, hstream⟩ := hresult s' (Option.some.inj hcall) hpos
    rw [hstream]
    exact ⟨hcap, hone, hheap, steady', hctx, Or.inr ⟨hle, hend⟩⟩
  · -- nothing but the dictionary of the stream changes
    have htrim : (trimDictionary s' (source + 0) dictEnd).hashTable = s'.hashTable ∧
        (trimDictionary s' (source + 0) dictEnd).currentOffset = s'.currentOffset ∧
        (trimDictionary s' (source + 0) dictEnd).tableType = s'.tableType ∧
        (trimDictionary s' (source + 0) dictEnd).dictCtx = s'.dictCtx := by
      unfold trimDictionary
      split
      · exact ⟨rfl, rfl, rfl, rfl⟩
      · exact ⟨rfl, rfl, rfl, rfl⟩
    generalize trimDictionary s' (source + 0) dictEnd = t at *
    obtain ⟨htable, hoffset, htype, htctx⟩ := htrim
    have hfollow : Steady (t.follow source 0) := by
      refine ⟨?_, ?_, ?_, Nat.zero_le _, ?_, fun h => absurd h (by simp [Stream.follow]), ?_⟩
      · simpa only [Stream.follow, htable, hoffset] using steady'.table
      · simpa only [Stream.follow, htable, htype] using steady'.empty
      · simpa only [Stream.follow, htype, hoffset] using steady'.used
      · simpa only [Stream.follow, hoffset] using steady'.offset_lt
      · simpa only [Stream.follow, htctx, hoffset] using steady'.attached
    have hcalled : ∃ mode : Mode, mode.outputDirective = .limitedOutput ∧
        (compressGeneric ptr32 t h source dest 0 cap mode (clampAcceleration acceleration)).map
          (fun c => { c with stream := c.stream.follow source 0 }) = some c := by
      rw [if_neg hfollows] at hcall
      split at hcall
      · exact ⟨_, rfl, by rw [Option.map_eq_bind]; exact hcall⟩
      · exact ⟨_, rfl, by rw [Option.map_eq_bind]; exact hcall⟩
    obtain ⟨mode, hdir, hcalled⟩ := hcalled
    obtain ⟨c', hc', rfl⟩ := Option.map_eq_some_iff.mp hcalled
    rw [compressGeneric_empty hdir] at hc'
    obtain ⟨hcap, hone, hheap, hstream⟩ := hresult t (Option.some.inj hc') hpos
    rw [hstream]
    exact ⟨hcap, hone, hheap, hfollow, by rw [← hctx, ← htctx]; rfl, Or.inl rfl⟩

/-- An empty block changes nothing in the session, but the list of blocks. -/
theorem inStep_empty (inStep : InStep s m g)
    (hkept : ∀ a, g.stop - g.window ≤ a → a < g.stop → m' a = m a)
    (hdest : g.stop ≤ dest ∨ dest + cap ≤ g.stop - g.window)
    (hcall : compressFastContinue ptr32 s ⟨m', []⟩ source dest 0 cap acceleration = some c)
    (hpos : 0 < c.result) :
    InStep c.stream c.heap.mem (g.add (c.heap.mem.bytes dest c.result.toNat) [] source) := by
  obtain ⟨steady₀, refers, hlen, hkept₀, hattached, hunused, decoded⟩ := inStep
  obtain ⟨hcap, hone, hheap, steady, hctx, hsize⟩ :=
    compressFastContinue_empty steady₀ hcall hpos
  have hhistory : (g.add (c.heap.mem.bytes dest c.result.toNat) [] source).history = g.history := by
    simp [Session.history, Session.add]
  have hwindow : (g.add (c.heap.mem.bytes dest c.result.toNat) [] source).window = g.window := by
    simp [Session.window, Session.add]
  refine ⟨steady, ⟨fun hnone => ?_, fun d hd => ?_⟩, by rw [hhistory]; exact hlen,
    fun i hlow hhigh => ?_, fun h => ?_, fun h hnone => ?_, ?_⟩
  · obtain ⟨hle, hstop⟩ := refers.own (by rw [← hctx, hnone])
    show c.stream.dictSize ≤ g.len ∧ (_ → _ = g.stop)
    rcases hsize with hzero | ⟨hle', hend⟩
    · omega
    · exact ⟨by omega, fun hpos' => by rw [hend]; exact hstop (by omega)⟩
  · exact refers.attached d (by rw [← hctx, hd])
  · rw [hhistory, ← hkept₀ i hlow hhigh, hheap]
    show (m'.store dest [0]) (g.stop - i) = _
    rw [← hkept _ (by omega) (by omega)]
    exact Mem.store_outside (by rw [List.length_singleton]; omega)
  · simpa [Session.add] using hattached (by rw [← hctx]; exact h)
  · have hzero := hunused (by simpa [Session.add] using h) (by rw [← hctx, hnone])
    omega
  · have hbytes : c.heap.mem.bytes dest c.result.toNat = [0] := by
      rw [hheap, hone]
      exact Mem.holds_store m' dest [0]
    rw [hbytes]
    exact decoded.snoc (decodesTo_empty _)

/-- The text that a block is compressed after. -/
theorem shows_session {e : Env} (hsize : e.inputSize = block.length) (hreach : e.reach ≤ g.window)
    (hlen : g.len ≤ g.history.length) (hblock : m'.bytes e.source block.length = block)
    (hbehind : ∀ i : Nat, 1 ≤ i → i ≤ e.reach → e.address (e.source - i) = g.stop - i ∧
      m' (g.stop - i) = g.history.getD (g.history.length - i) 0) :
    Shows e (g.history ++ block) g.history.length m' where
  length_eq := by rw [List.length_append, hsize]
  reach_le := Nat.le_trans hreach (Nat.le_trans g.window_le hlen)
  byte v hlow hhigh := by
    have hiend : e.iend = e.source + e.inputSize := rfl
    by_cases hv : e.source ≤ v
    · obtain ⟨i, rfl⟩ : ∃ i : Nat, v = e.source + i := ⟨(v - e.source).toNat, by omega⟩
      rw [Env.address_of_ge hv, show e.pos g.history.length (e.source + i) = g.history.length + i
        by unfold Env.pos; omega, List.getD_append_right _ _ _ _ (Nat.le_add_right _ _),
        Nat.add_sub_cancel_left, ← hblock, Mem.getD_bytes _ _ (by omega)]
    · obtain ⟨i, rfl⟩ : ∃ i : Nat, v = e.source - i := ⟨(e.source - v).toNat, by omega⟩
      have hi : i ≤ g.history.length := by
        have := g.window_le
        omega
      obtain ⟨haddress, hbyte⟩ := hbehind i (by omega) (by omega)
      rw [haddress, hbyte, show e.pos g.history.length (e.source - i) = g.history.length - i
        by unfold Env.pos; omega, List.getD_append _ _ _ _ (by omega)]

/-- Behind a block, the history ends with it. -/
theorem kept_add {mem : Mem} (hn : 0 < n) (hlen : g.len ≤ g.history.length)
    (hsource : ∀ a, source ≤ a → a < source + n → mem a = m' a)
    (hbehind : ∀ i : Nat, 1 ≤ i → i ≤ g.window → source = g.stop → mem (g.stop - i) =
      g.history.getD (g.history.length - i) 0) (hlow : 1 ≤ i)
    (hhigh : i ≤ (g.add block (m'.bytes source n.toNat) source).window) :
    mem ((g.add block (m'.bytes source n.toNat) source).stop - i) =
      (g.add block (m'.bytes source n.toNat) source).history.getD
      ((g.add block (m'.bytes source n.toNat) source).history.length - i) 0 := by
  have hhistory : (g.add block (m'.bytes source n.toNat) source).history =
      g.history ++ m'.bytes source n.toNat := by
    simp [Session.history, Session.add]
  have hne : m'.bytes source n.toNat ≠ [] := by
    rw [← List.length_pos_iff, Mem.length_bytes]
    omega
  have hstop : (g.add block (m'.bytes source n.toNat) source).stop = source + n := by
    simp only [Session.add, if_neg hne, Mem.length_bytes]
    omega
  have hwindow : (g.add block (m'.bytes source n.toNat) source).window =
      min (if source = g.stop then g.len + n.toNat else n.toNat) 65535 := by
    simp only [Session.window, Session.add, if_neg hne, Mem.length_bytes]
  rw [hwindow] at hhigh
  rw [hhistory, hstop, List.length_append, Mem.length_bytes]
  by_cases hblock : i ≤ n.toNat
  · rw [hsource _ (by omega) (by omega), List.getD_append_right _ _ _ _ (by omega),
      Mem.getD_bytes _ _ (by omega)]
    congr 1
    omega
  · have hfollows : source = g.stop := by
      by_contra hapart
      rw [if_neg hapart] at hhigh
      omega
    rw [if_pos hfollows] at hhigh
    obtain ⟨j, rfl⟩ : ∃ j, i = n.toNat + j := ⟨i - n.toNat, by omega⟩
    have hj := hbehind j (by omega) (by unfold Session.window; omega) hfollows
    rw [List.getD_append _ _ _ _ (by omega), show g.history.length + n.toNat - (n.toNat + j) =
      g.history.length - j by omega, ← hj]
    congr 1
    omega

/-- The conditions of the block compressor are met. -/
theorem sound_ready {ext : Bool}
    (ready : Encoder.Ready ptr32 cctx mode ext source dest n cap acceleration g.stop g.len)
    (hn : 0 < n) (hlen : g.len ≤ g.history.length)
    (hapart : source + n ≤ dest ∨ dest + cap ≤ source)
    (hdest : g.stop ≤ dest ∨ dest + cap ≤ g.stop - g.window)
    (hhistory : ∀ i : Nat, 1 ≤ i → i ≤ g.window → (g.stop - i < source ∨ source + n ≤ g.stop - i) →
      m' (g.stop - i) = g.history.getD (g.history.length - i) 0) :
    Sound (cctx.env ptr32 mode source dest n.toNat cap acceleration)
      (g.history ++ m'.bytes source n.toNat) g.history.length cctx.hashTable cap m' := by
  obtain ⟨hlimited, admissible, hdepth, hbehind, -⟩ := ready
  have hreach := Env.reach_le_depth (cctx.env ptr32 mode source dest n.toNat cap acceleration)
  have hwindow :
      (cctx.env ptr32 mode source dest n.toNat cap acceleration).reach ≤ g.window := by
    unfold Env.reach Session.window
    omega
  refine ⟨shows_session ?_ hwindow hlen ?_ fun i hlow hhigh => ?_, ⟨?_, fun v hlow hhigh => ?_⟩,
    ?_, admissible⟩
  · rw [Mem.length_bytes]
    rfl
  · rw [Mem.length_bytes]
    rfl
  · obtain ⟨haddress, hclear⟩ := hbehind i hlow (by omega)
    exact ⟨haddress, hhistory i hlow (by omega) hclear⟩
  · simp only [Env.iend, Stream.env]
    omega
  · have hlow : source - _ ≤ v := hlow
    have hhigh : v < source := hhigh
    obtain ⟨i, rfl⟩ : ∃ i : Nat, v = source - i := ⟨(source - v).toNat, by omega⟩
    rw [(hbehind i (by omega) (by omega)).1]
    show g.stop - i < dest ∨ dest + cap ≤ g.stop - i
    omega
  · unfold Env.Capacity
    simp only [Stream.env, hlimited]

theorem inStep_block (ptr32 : Bool) (acceleration : Int) (inStep : InStep s m g) (hn : 0 < n)
    (hmax : n ≤ maxInputSize) (hsource : 0 < source) (hallows : g.Allows source n)
    (hkept : ∀ a, g.stop - g.window ≤ a → a < g.stop → (a < source ∨ source + n ≤ a) →
      m' a = m a)
    (hapart : source + n ≤ dest ∨ dest + cap ≤ source)
    (hdest : g.stop ≤ dest ∨ dest + cap ≤ g.stop - g.window)
    (detached : Detached s source) (hoffset : s.currentOffset + n < 2 ^ 32) :
    ∃ c, compressFastContinue ptr32 s ⟨m', []⟩ source dest n cap acceleration = some c ∧
      (0 < c.result → InStep c.stream c.heap.mem
        (g.add (c.heap.mem.bytes dest c.result.toNat) (m'.bytes source n.toNat) source)) := by
  obtain ⟨steady, refers, hlen, hkept₀, hattached, hunused, decoded⟩ := inStep
  have placed : Placed s g.stop g.len source n := by
    unfold Session.Allows at hallows
    refine ⟨fun _ => ?_, fun hctx => ?_⟩
    · split at hallows
      · omega
      · exact hallows
    · rwa [if_pos (hattached hctx)] at hallows
  obtain ⟨cctx, mode, ext, ready, hcalls⟩ : ∃ cctx mode ext,
      Encoder.Ready ptr32 cctx mode ext source dest n cap (clampAcceleration acceleration) g.stop g.len ∧
      compressFastContinue ptr32 s ⟨m', []⟩ source dest n cap acceleration =
        (compressGeneric ptr32 cctx ⟨m', []⟩ source dest n cap mode
          (clampAcceleration acceleration)).map
          fun c => { c with stream := c.stream.finish ext source n } := by
    cases hctx : s.dictCtx with
    | none =>
      exact compressFastContinue_own ptr32 _ dest cap acceleration steady refers placed hctx hn
        hmax hoffset hsource
    | some d =>
      exact compressFastContinue_attached ptr32 _ dest cap acceleration steady refers placed
        hctx detached hn hmax hoffset hsource
  have hhistory (i : Nat) (hlow : 1 ≤ i) (hhigh : i ≤ g.window)
      (hclear : g.stop - i < source ∨ source + n ≤ g.stop - i) :
      m' (g.stop - i) = g.history.getD (g.history.length - i) 0 := by
    rw [hkept _ (by omega) (by omega) hclear]
    exact hkept₀ i hlow hhigh
  have sound := sound_ready ready hn hlen hapart hdest hhistory
  obtain ⟨hlimited, -, -, -, hnext⟩ := ready
  obtain ⟨c, table, hc, contained, hstream, entries, yields⟩ :=
    compressGeneric_encodes hn hmax (fun _ => accelerates_clamp hmax) sound
  rw [hc] at hcalls
  refine ⟨_, hcalls, fun hpos => ?_⟩
  have entries := entries.resolve_left (by simp [hlimited])
  obtain ⟨b, used, encodes⟩ := yields.resolve_left (fun hzero => by dsimp only at hpos; omega)
  obtain ⟨steady', hctx', hend', hsize'⟩ := hnext table entries
  rw [← hstream] at steady' hctx' hend' hsize'
  have hframe {a : Int} (ha : a < dest ∨ dest + cap ≤ a) : c.heap.mem a = m' a :=
    frame_of_within contained.logged ha
  have hne : m'.bytes source n.toNat ≠ [] := by
    rw [← List.length_pos_iff, Mem.length_bytes]
    omega
  refine ⟨steady', ⟨fun _ => ?_, fun d hd => ?_⟩, ?_, fun i hlow hhigh => ?_, fun h => ?_,
    fun h => ?_, ?_⟩
  · simp only [Session.add, if_neg hne, Mem.length_bytes]
    refine ⟨?_, fun _ => by omega⟩
    split
    · omega
    · omega
  · rw [hctx'] at hd
    exact absurd hd (by simp)
  · simp only [Session.add, Session.history, if_neg hne, Mem.length_bytes, List.flatten_append,
      List.flatten_singleton, List.length_append] at hlen ⊢
    split
    · omega
    · omega
  · refine kept_add hn hlen (fun a hlow hhigh => hframe (by omega))
      (fun i hlow hhigh hfollows => ?_) hlow hhigh
    rw [hframe (by omega)]
    exact hhistory i hlow hhigh (by omega)
  · exact absurd hctx' h
  · simp [Session.add, hne] at h
  · have hused : used = n := encodes.all (by simp [hlimited])
    have hblock : c.heap.mem.bytes dest c.result.toNat = b.encode := by
      rw [encodes.result, Int.toNat_natCast]
      exact encodes.holds
    have hconforming := encodes.conforming
    have hdecode := encodes.decode
    rw [List.take_left] at hconforming hdecode
    rw [List.drop_left, List.take_of_length_le (by rw [Mem.length_bytes]; omega)] at hdecode
    have hdecodes := decodesTo_of_conforming hconforming
    rw [hdecode] at hdecodes
    rw [hblock]
    exact decoded.snoc hdecodes

/-! ## Runs of a stream -/

theorem inStep_compress (inStep : InStep s m g) (hn : -2 ^ 31 ≤ n ∧ n < 2 ^ 31)
    (hsource : 0 < n → 0 < source) (hallows : g.Allows source n)
    (hkept : ∀ a, g.stop - g.window ≤ a → a < g.stop → (a < source ∨ source + n ≤ a) →
      m' a = m a)
    (hapart : source + n ≤ dest ∨ dest + cap ≤ source)
    (hdest : g.stop ≤ dest ∨ dest + cap ≤ g.stop - g.window)
    (hregular : Regular s (.compress source n))
    (hcall : compressFastContinue ptr32 s ⟨m', []⟩ source dest n cap acceleration = some c)
    (hpos : 0 < c.result) :
    InStep c.stream c.heap.mem
      (g.add (c.heap.mem.bytes dest c.result.toNat) (m'.bytes source n.toNat) source) := by
  obtain ⟨hnonneg, hmax⟩ := compressFastContinue_size hn hcall hpos
  by_cases hzero : n = 0
  · subst hzero
    exact inStep_empty inStep (fun a hlow hhigh => hkept a hlow hhigh (by omega)) hdest hcall hpos
  · obtain ⟨c', hcall', hnext'⟩ := inStep_block ptr32 acceleration inStep (by omega) hmax
      (hsource (by omega)) hallows hkept hapart hdest
      (hregular.1 (by omega)) hregular.2
    obtain rfl : c' = c := Option.some.inj (hcall'.symm.trans hcall)
    exact hnext' hpos

/-- In a run of regular steps, the stream agrees with the session. -/
theorem SessionRun.tracks (run : SessionRun ptr32 Regular s m g) : InStep s m g := by
  induction run with
  | init m => exact inStep_reset m steady_init
  | loadDict _ m' slow dictionary dictSize hdict _ _ =>
    exact inStep_loadDict ptr32 slow m' hdict
  | attach _ m₀ m' slow dictionary dictSize hdict hregular ih =>
    exact inStep_attach ptr32 slow m₀ m' hdict ih.steady hregular
  | compress _ m' hn hsource hallows hkept hapart hdest hregular hcall hpos ih =>
    exact inStep_compress ih hn hsource hallows hkept hapart hdest hregular hcall hpos
  | saveDict _ m' hsize hkept hcall hbuffer hapart _ ih =>
    exact inStep_saveDict ih hsize hkept hcall hbuffer hapart
  | reset _ m' _ ih => exact inStep_reset m' ih.steady

/-- `LZ4_compress_fast_continue` always returns. -/
theorem compressFastContinue_returns (ptr32 : Bool) (s : Stream) (m : Mem)
    (source dest cap acceleration : Int) (hn : -2 ^ 31 ≤ n ∧ n < 2 ^ 31) :
    ∃ c, compressFastContinue ptr32 s ⟨m, []⟩ source dest n cap acceleration = some c := by
  obtain ⟨cctx, mode, ext, hdir, heq⟩ :=
    compressFastContinue_call ptr32 s ⟨m, []⟩ source dest n cap acceleration
  have hreturns : ∃ c, compressGeneric ptr32 cctx ⟨m, []⟩ source dest n cap mode
      (clampAcceleration acceleration) = some c := by
    by_cases hlarge : n % 2 ^ 32 > maxInputSize
    · exact ⟨_, compressGeneric_refused hlarge⟩
    · have hsize : 0 ≤ n ∧ n ≤ maxInputSize := by
        unfold maxInputSize at hlarge ⊢
        omega
      have capacity : (cctx.env ptr32 mode source dest n.toNat cap
          (clampAcceleration acceleration)).Capacity cap := by
        unfold Env.Capacity
        simp only [Stream.env, hdir]
      obtain ⟨c, hc, -⟩ := compressGeneric_contained m hsize.1 hsize.2
        (fun _ => accelerates_clamp hsize.2) capacity
      exact ⟨c, hc⟩
  obtain ⟨c, hc⟩ := hreturns
  exact ⟨_, by rw [heq, hc, Option.map_some]⟩

/-- In a run of regular steps, each block is decoded to its source, with the last 64 KB of the
dictionary and what was decoded before it. -/
theorem compressFastContinue_decoded (run : SessionRun ptr32 Regular s m g) :
    Decoded g.dictionary g.blocks g.sources ∧
      ∀ (m' : Mem) (source dest n cap acceleration : Int), -2 ^ 31 ≤ n ∧ n < 2 ^ 31 →
        ∃ c, compressFastContinue ptr32 s ⟨m', []⟩ source dest n cap acceleration = some c :=
  ⟨run.tracks.decoded, fun m' source dest _ cap acceleration hn =>
    compressFastContinue_returns ptr32 s m' source dest cap acceleration hn⟩

end

/-- The bytes from 1 to 16, which are followed by the same bytes and five others. -/
def repeated : Mem :=
  Mem.store (fun _ => 0) 1000 [1, 2, 3, 4, 5, 6, 7, 8, 9, 10, 11, 12, 13, 14, 15, 16,
    1, 2, 3, 4, 5, 6, 7, 8, 9, 10, 11, 12, 13, 14, 15, 16, 9, 9, 9, 9, 9]

/-- The first 16 bytes are the dictionary for the rest. -/
theorem compressFastContinue_decoded_dictionary :
    ∃ s m g, SessionRun false Regular s m g ∧ g.blocks = [[12, 16, 0, 80, 9, 9, 9, 9, 9]] ∧
      Decoded g.dictionary g.blocks g.sources := by
  have hrun : (compressFastContinue false
      { loadDictInternal false false repeated 1000 16 with dictCtx := none } ⟨repeated, []⟩ 1016
      6000 21 100 1).map (fun c => (c.result, c.heap.mem.bytes 6000 9)) =
      some (9, [12, 16, 0, 80, 9, 9, 9, 9, 9]) := by
    decide +kernel
  obtain ⟨c, hcall, heq⟩ := Option.map_eq_some_iff.mp hrun
  rw [Prod.mk.injEq] at heq
  obtain ⟨hresult, hbytes⟩ := heq
  have hregular : Regular { loadDictInternal false false repeated 1000 16 with dictCtx := none }
      (.compress 1016 21) := by
    refine ⟨fun _ h => absurd rfl h, ?_⟩
    decide +kernel
  have run := ((SessionRun.init repeated).loadDict repeated false 1000 16 (by decide)
    trivial).compress repeated (by decide) (by decide) (Or.inr (by decide)) (fun _ _ _ _ => rfl)
    (by decide) (by decide) hregular hcall (by rw [hresult]; decide)
  refine ⟨_, _, _, run, ?_, (compressFastContinue_decoded run).1⟩
  show [c.heap.mem.bytes 6000 c.result.toNat] = _
  rw [hresult, show (9 : Int).toNat = 9 from rfl, hbytes]

/-- The first 16 bytes are a block, then a dictionary of zeros is attached, and the block that
follows in memory still refers to the first one. -/
theorem compressFastContinue_forgotten :
    ∃ s m g, SessionRun false (fun _ _ => True) s m g ∧
      g.dictionary = List.replicate 16 0 ∧ g.blocks = [[12, 16, 0, 80, 9, 9, 9, 9, 9]] ∧
      ¬ Decoded g.dictionary g.blocks g.sources := by
  have hrun : (do
      let c₁ ← compressFastContinue false {} ⟨repeated, []⟩ 1000 5000 16 100 1
      let c₂ ← compressFastContinue false
        (attachDictionary c₁.stream (some (loadDictInternal false false c₁.heap.mem 3000 16)))
        ⟨c₁.heap.mem, []⟩ 1016 6000 21 100 1
      return (c₁.result, c₂.result, c₂.heap.mem.bytes 6000 9, c₁.heap.mem.bytes 3000 16,
        c₁.heap.mem.bytes 1016 21)) =
      some (18, 9, [12, 16, 0, 80, 9, 9, 9, 9, 9], List.replicate 16 0,
        [1, 2, 3, 4, 5, 6, 7, 8, 9, 10, 11, 12, 13, 14, 15, 16, 9, 9, 9, 9, 9]) := by
    decide +kernel
  obtain ⟨c₁, hcall₁, hrun⟩ := Option.bind_eq_some_iff.mp hrun
  obtain ⟨c₂, hcall₂, hrun⟩ := Option.bind_eq_some_iff.mp hrun
  simp only [pure, Option.some.injEq, Prod.mk.injEq] at hrun
  obtain ⟨hresult₁, hresult₂, hblock, hdict, hsource⟩ := hrun
  have run : SessionRun false (fun _ _ => True) {} repeated {} := .init repeated
  have run₁ := run.compress repeated (by decide) (by decide) (Or.inl rfl) (fun _ _ _ _ => rfl)
    (by decide) (by decide) trivial hcall₁ (by rw [hresult₁]; decide)
  have run₂ := (run₁.attach c₁.heap.mem c₁.heap.mem false 3000 16 (by decide) trivial).compress
    c₁.heap.mem (by decide) (by decide) (Or.inl (show (1016 : Int) + 21 ≤ 3000 + 16 - 16 by decide))
    (fun _ _ _ _ => rfl) (by decide) (Or.inl (show (3000 : Int) + 16 ≤ 6000 by decide)) trivial
    hcall₂ (by rw [hresult₂]; decide)
  have hblocks : c₂.heap.mem.bytes 6000 c₂.result.toNat = [12, 16, 0, 80, 9, 9, 9, 9, 9] := by
    rw [hresult₂]
    exact hblock
  refine ⟨_, _, _, run₂, hdict, congrArg (fun b => [b]) hblocks, fun decoded => ?_⟩
  have hdecodes : DecodesTo (List.replicate 16 0) [12, 16, 0, 80, 9, 9, 9, 9, 9]
      [1, 2, 3, 4, 5, 6, 7, 8, 9, 10, 11, 12, 13, 14, 15, 16, 9, 9, 9, 9, 9] := by
    rw [← hdict, ← hblocks, ← hsource]
    exact Decoded.last decoded
  -- the match refers to the dictionary
  have hdecode : (decompressSafeUsingDict true
      ⟨Mem.store (fun _ => 0) 1 [12, 16, 0, 80, 9, 9, 9, 9, 9], []⟩ 1 100 9 21 50 16).map
      (fun x => x.2.mem 100) = some 0 := by
    decide +kernel
  obtain ⟨h', hcall', hout⟩ := hdecodes true
    (Mem.store (fun _ => 0) 1 [12, 16, 0, 80, 9, 9, 9, 9, 9]) 1 100 21 50
    (Mem.holds_store _ _ _) (by decide)
    ⟨by decide, by decide, by decide, by decide⟩ (by decide)
  have hcall' : decompressSafeUsingDict true
      ⟨Mem.store (fun _ => 0) 1 [12, 16, 0, 80, 9, 9, 9, 9, 9], []⟩ 1 100 9 21 50 16 =
        some (21, h') := hcall'
  rw [hcall', Option.map_some, Option.some.injEq] at hdecode
  have hfirst := hout.apply (i := 0) (by decide)
  rw [Nat.cast_zero, Int.add_zero, hdecode] at hfirst
  exact absurd hfirst (by decide)

end Lz4
