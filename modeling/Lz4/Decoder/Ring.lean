import Lz4.Decoder.Stream

/-!
# Decoding into a ring buffer

A ring buffer holds the history that a block needs next to the block itself.  Blocks are
decoded one behind the other, and when less than `maxBlockSize` bytes remain, decoding
resumes at the start.  In the terms of the stream decoder every lap is a segment that
starts at the same address, so a lap overwrites the one before it while that is still
used as a dictionary.

The lap before ended at least 65551 bytes behind the start, by the size that
`LZ4_decoderRingBufferSize` gives to the buffer.  The byte that a match at `op` can reach
at most is therefore at least 16 bytes ahead of `op`.  The plain copies of the decoder
never write that far, but the fast loop does: it may write 31 bytes too many.  A lap that
ends before 65566 is damaged by it, and `decompressSafeContinue_ring` excludes it.
-/

namespace Lz4

open FlatMemory Decoder

/-- `LZ4_decoderRingBufferSize`; `0` stands for an invalid argument. -/
def decoderRingBufferSize (maxBlockSize : Int) : Int :=
  if maxBlockSize < 0 then 0
  else if maxBlockSize > 0x7E000000 then 0
  else
    let maxBlockSize := if maxBlockSize < 16 then 16 else maxBlockSize
    65536 + 14 + maxBlockSize

variable {maxBlockSize : Nat}

theorem decoderRingBufferSize_bounds (hsize : maxBlockSize ≤ 0x7E000000) :
    65550 + (maxBlockSize : Int) ≤ decoderRingBufferSize maxBlockSize := by
  unfold decoderRingBufferSize
  dsimp only
  split
  · omega
  · omega

/-! ## The caller's loop -/

/-- The next block does not fit behind the position `pos`. -/
def Wraps (maxBlockSize pos : Nat) : Prop :=
  decoderRingBufferSize maxBlockSize - pos < maxBlockSize

instance (maxBlockSize pos : Nat) : Decidable (Wraps maxBlockSize pos) :=
  inferInstanceAs (Decidable (_ < _))

/-- The position of the next block. -/
def ringNext (maxBlockSize pos : Nat) : Nat := if Wraps maxBlockSize pos then 0 else pos

/-- The ends of the completed laps, the last one first, once the next block is placed. -/
def ringLaps (maxBlockSize pos : Nat) (laps : List Nat) : List Nat :=
  if Wraps maxBlockSize pos then pos :: laps else laps

theorem mem_ringLaps {pos lap : Nat} {laps : List Nat} (h : lap ∈ laps) :
    lap ∈ ringLaps maxBlockSize pos laps := by
  unfold ringLaps
  split
  · exact List.mem_cons_of_mem _ h
  · exact h

/-- A block of a linked stream, and an input buffer outside the ring. -/
structure RingCall (ring : Int) (maxBlockSize : Nat) (m : Mem) (hist : List UInt8) (source : Int)
    (b : Block) : Prop where
  source_ne : source ≠ 0
  conforming : b.Conforming hist
  holds : m.Holds source b.encode
  size_le : (b.decode hist).length ≤ maxBlockSize
  outside : source + b.encode.length ≤ ring ∨
    ring + decoderRingBufferSize maxBlockSize ≤ source

/-- The states of a caller who decodes a stream of blocks into the ring buffer at `ring`:
memory, decoder, the position behind the last block, the laps so far, and what was
decoded.  Outside the ring memory may change in any way. -/
inductive RingRun (fastDecLoop : Bool) (ring : Int) (maxBlockSize : Nat) :
    Mem → StreamDecode → Nat → List Nat → List UInt8 → Prop
  | start (m : Mem) : RingRun fastDecLoop ring maxBlockSize m (setStreamDecode 0 0) 0 [] []
  | write {m : Mem} {sd : StreamDecode} {pos : Nat} {laps : List Nat} {hist : List UInt8}
      (run : RingRun fastDecLoop ring maxBlockSize m sd pos laps hist) (m' : Mem)
      (hring : ∀ a, ring ≤ a → a < ring + decoderRingBufferSize maxBlockSize → m' a = m a) :
      RingRun fastDecLoop ring maxBlockSize m' sd pos laps hist
  | block {m : Mem} {sd : StreamDecode} {pos : Nat} {laps : List Nat} {hist : List UInt8}
      (run : RingRun fastDecLoop ring maxBlockSize m sd pos laps hist) {source : Int} {b : Block}
      (call : RingCall ring maxBlockSize m hist source b) {r : Int} {h' : Heap}
      {sd' : StreamDecode}
      (hcall : decompressSafeContinue fastDecLoop sd ⟨m, []⟩ source
        (ring + ringNext maxBlockSize pos) b.encode.length maxBlockSize = some (r, h', sd')) :
      RingRun fastDecLoop ring maxBlockSize h'.mem sd'
        (ringNext maxBlockSize pos + (b.decode hist).length) (ringLaps maxBlockSize pos laps)
        (hist ++ b.decode hist)

/-- A lap ends late enough for the copies that overwrite it. -/
def LapSafe (fastDecLoop : Bool) (maxBlockSize lap : Nat) : Prop :=
  fastDecLoop = false ∨ maxBlockSize < 64 ∨ 65566 ≤ lap

/-! ## Laps as segments -/

/-- Every segment is a lap; the newest ends at `pos`, unless the position was just
reset and nothing was decoded since. -/
structure Layout (ring : Int) (pos : Nat) (laps : List Nat) (segs : List Segment) : Prop where
  start_eq : ∀ s ∈ segs, s.start = ring
  lengths : segs.map (fun s => s.bytes.length) = pos :: laps ∨
    pos = 0 ∧ segs.map (fun s => s.bytes.length) = laps

/-- The bounds that the size of the buffer gives. -/
structure Bounded (maxBlockSize pos : Nat) (laps : List Nat) : Prop where
  pos_le : (pos : Int) ≤ decoderRingBufferSize maxBlockSize
  laps_ge : ∀ lap ∈ laps, 65551 ≤ lap
  laps_le : ∀ lap ∈ laps, (lap : Int) ≤ decoderRingBufferSize maxBlockSize

variable {slack dest : Int} {s : Segment}

section

variable {ring : Int} {maxBlockSize pos : Nat} {laps : List Nat} {segs : List Segment}

theorem Bounded.next (bounded : Bounded maxBlockSize pos laps)
    (hsize : maxBlockSize ≤ 0x7E000000) {n : Nat} (hn : n ≤ maxBlockSize) :
    Bounded maxBlockSize (ringNext maxBlockSize pos + n) (ringLaps maxBlockSize pos laps) := by
  have hbuffer := decoderRingBufferSize_bounds hsize
  obtain ⟨hpos, hge, hle⟩ := bounded
  unfold ringNext ringLaps
  by_cases hwraps : Wraps maxBlockSize pos
  · have hremaining : decoderRingBufferSize maxBlockSize - pos < maxBlockSize := hwraps
    simp only [if_pos hwraps]
    refine ⟨by omega, fun lap hlap => ?_, fun lap hlap => ?_⟩
    · rcases List.mem_cons.mp hlap with rfl | hold
      · omega
      · exact hge lap hold
    · rcases List.mem_cons.mp hlap with rfl | hold
      · exact hpos
      · exact hle lap hold
  · have hremaining : ¬ decoderRingBufferSize maxBlockSize - pos < maxBlockSize := hwraps
    simp only [if_neg hwraps]
    exact ⟨by omega, hge, hle⟩

/-- All of the history lies in the ring. -/
theorem address_mem_ring {size : Int} (hstart : ∀ s ∈ segs, s.start = ring)
    (hlength : ∀ s ∈ segs, (s.bytes.length : Int) ≤ size) {k : Nat} (hk : 1 ≤ k)
    (hhist : k ≤ (history segs).length) : ring ≤ address segs k ∧ address segs k < ring + size := by
  induction segs generalizing k with
  | nil =>
    have : (history []).length = 0 := rfl
    omega
  | cons s rest ih =>
    have hfirst := hstart s (List.mem_cons_self)
    have hsize := hlength s (List.mem_cons_self)
    have hcount : (history (s :: rest)).length = (history rest).length + s.bytes.length :=
      List.length_append
    simp only [address, Segment.stop]
    by_cases hin : k ≤ s.bytes.length
    · omega
    · rw [if_neg hin]
      exact ih (fun t ht => hstart t (List.mem_cons_of_mem _ ht))
        (fun t ht => hlength t (List.mem_cons_of_mem _ ht)) (by omega) (by omega)

/-- Where the next block goes: behind the newest segment, or to the start of the ring,
where it begins another. -/
theorem Layout.next (layout : Layout ring pos laps segs) (hsize : maxBlockSize ≤ 0x7E000000) :
    (∃ s rest, segs = s :: rest ∧ ringNext maxBlockSize pos = s.bytes.length ∧
      rest.map (fun s => s.bytes.length) = ringLaps maxBlockSize pos laps) ∨
    (ringNext maxBlockSize pos = 0 ∧
      segs.map (fun s => s.bytes.length) = ringLaps maxBlockSize pos laps) := by
  have hbuffer := decoderRingBufferSize_bounds hsize
  unfold ringNext ringLaps
  rcases layout.lengths with hlengths | ⟨hpos, hlengths⟩
  · by_cases hwraps : Wraps maxBlockSize pos
    · exact Or.inr ⟨if_pos hwraps, hlengths.trans (if_pos hwraps).symm⟩
    · simp only [if_neg hwraps]
      cases segs with
      | nil => exact absurd hlengths (by simp)
      | cons s rest =>
        obtain ⟨hfirst, hrest⟩ := List.cons.inj hlengths
        exact Or.inl ⟨s, rest, rfl, hfirst.symm, hrest⟩
  · have hwraps : ¬ Wraps maxBlockSize pos := by
      show ¬ decoderRingBufferSize maxBlockSize - pos < maxBlockSize
      omega
    simp only [if_neg hwraps]
    exact Or.inr ⟨hpos, hlengths⟩

/-- What is decoded behind the newest segment makes it longer. -/
theorem record_continues (rest : List Segment) (hdest : dest ≠ 0) (hstop : s.stop = dest)
    (out : List UInt8) :
    ∃ t : Segment, record (s :: rest) dest hdest out = t :: rest ∧ t.start = s.start ∧
      t.bytes.length = s.bytes.length + out.length := by
  unfold record
  split
  · rename_i hout
    exact ⟨s, rfl, rfl, by rw [hout, List.length_nil, Nat.add_zero]⟩
  · dsimp only
    rw [if_pos hstop]
    exact ⟨_, rfl, rfl, List.length_append⟩

/-- What is decoded elsewhere is a new segment. -/
theorem record_starts (hdest : dest ≠ 0) (hcontinues : ¬ Continues segs dest) {out : List UInt8}
    (hout : out ≠ []) : record segs dest hdest out = ⟨dest, out, hdest, hout⟩ :: segs := by
  rw [record, dif_neg hout]
  cases segs with
  | nil => rfl
  | cons s rest => exact if_neg hcontinues

/-- What a call on the ring finds. -/
structure Ready (ring : Int) (maxBlockSize pos : Nat) (laps : List Nat) (segs : List Segment)
    (slack : Int) : Prop where
  reach : WithinReach segs (ring + ringNext maxBlockSize pos)
  spared : Spared segs (ring + ringNext maxBlockSize pos) maxBlockSize slack
  layout : ∀ hdest out, Layout ring (ringNext maxBlockSize pos + out.length)
    (ringLaps maxBlockSize pos laps) (record segs (ring + ringNext maxBlockSize pos) hdest out)

theorem ready_continues {rest : List Segment} (hstart : ∀ t ∈ s :: rest, t.start = ring)
    (hnext : ringNext maxBlockSize pos = s.bytes.length)
    (hlengths : rest.map (fun s => s.bytes.length) = ringLaps maxBlockSize pos laps)
    (hlaps : ∀ lap ∈ ringLaps maxBlockSize pos laps, 65535 + slack ≤ (lap : Int))
    (hslack : 0 ≤ slack) : Ready ring maxBlockSize pos laps (s :: rest) slack := by
  have hfirst : s.start = ring := hstart s List.mem_cons_self
  have hstop : s.stop = ring + ringNext maxBlockSize pos := by
    rw [Segment.stop, hfirst, hnext]
  have hrest : ∀ t ∈ rest, 65535 + slack ≤ (t.bytes.length : Int) := fun t ht =>
    hlaps _ (hlengths ▸ List.mem_map_of_mem ht)
  refine ⟨?_, ?_, fun hdest out => ?_⟩
  · rw [WithinReach, if_pos (show Continues (s :: rest) _ from hstop)]
    cases rest with
    | nil => trivial
    | cons t older =>
      cases older with
      | nil => trivial
      | cons u older =>
        have hlap := hrest t List.mem_cons_self
        show 65535 ≤ s.bytes.length + t.bytes.length
        omega
  · intro k op hk hhist hlow hhigh hreach
    by_cases hin : k ≤ s.bytes.length
    · left
      rw [address, if_pos hin]
      omega
    · -- a byte of the lap before
      cases rest with
      | nil =>
        have : (history [s]).length = s.bytes.length := by simp [history]
        omega
      | cons t older =>
        have hlap := hrest t List.mem_cons_self
        have hsecond : t.start = ring := hstart t (by simp)
        rw [address, if_neg hin, address, if_pos (by omega), Segment.stop]
        omega
  · obtain ⟨t, hrecord, htstart, htlength⟩ := record_continues rest hdest hstop out
    rw [hrecord]
    refine ⟨fun u hu => ?_, Or.inl ?_⟩
    · rcases List.mem_cons.mp hu with rfl | hu
      · rw [htstart, hfirst]
      · exact hstart u (List.mem_cons_of_mem _ hu)
    · rw [List.map_cons, htlength, hnext, hlengths]

theorem ready_starts (hstart : ∀ t ∈ segs, t.start = ring) (hnext : ringNext maxBlockSize pos = 0)
    (hlengths : segs.map (fun s => s.bytes.length) = ringLaps maxBlockSize pos laps)
    (hlaps : ∀ lap ∈ ringLaps maxBlockSize pos laps, 65535 + slack ≤ (lap : Int))
    (hslack : 0 ≤ slack) : Ready ring maxBlockSize pos laps segs slack := by
  have hlong : ∀ t ∈ segs, 65535 + slack ≤ (t.bytes.length : Int) := fun t ht =>
    hlaps _ (hlengths ▸ List.mem_map_of_mem ht)
  have hring : ring + (ringNext maxBlockSize pos : Int) = ring := by
    omega
  have hcontinues : ¬ Continues segs ring := by
    cases segs with
    | nil => exact id
    | cons s rest =>
      have := hlong s List.mem_cons_self
      have hfirst := hstart s List.mem_cons_self
      show ¬ s.start + (s.bytes.length : Int) = ring
      omega
  refine ⟨?_, ?_, ?_⟩
  · rw [hring, WithinReach, if_neg hcontinues]
    cases segs with
    | nil => trivial
    | cons s rest =>
      cases rest with
      | nil => trivial
      | cons t rest =>
        have hlap := hlong s List.mem_cons_self
        show 65535 ≤ s.bytes.length
        omega
  · intro k op hk hhist hlow hhigh hreach
    cases segs with
    | nil =>
      have : (history []).length = 0 := rfl
      omega
    | cons s rest =>
      have := hlong s List.mem_cons_self
      have hfirst := hstart s List.mem_cons_self
      rw [address, if_pos (by omega), Segment.stop]
      omega
  · rw [hring, hnext]
    intro hdest out
    by_cases hout : out = []
    · rw [record, dif_pos hout, hout]
      exact ⟨hstart, Or.inr ⟨rfl, hlengths⟩⟩
    · rw [record_starts hdest hcontinues hout]
      refine ⟨fun u hu => ?_, Or.inl ?_⟩
      · rcases List.mem_cons.mp hu with rfl | hu
        · rfl
        · exact hstart u hu
      · rw [List.map_cons, hlengths, Nat.zero_add]

theorem Layout.ready (layout : Layout ring pos laps segs) (hsize : maxBlockSize ≤ 0x7E000000)
    (hlaps : ∀ lap ∈ ringLaps maxBlockSize pos laps, 65535 + slack ≤ (lap : Int))
    (hslack : 0 ≤ slack) : Ready ring maxBlockSize pos laps segs slack := by
  rcases layout.next hsize with ⟨s, rest, rfl, hnext, hlengths⟩ | ⟨hnext, hlengths⟩
  · exact ready_continues layout.start_eq hnext hlengths hlaps hslack
  · exact ready_starts layout.start_eq hnext hlengths hlaps hslack

end

/-! ## Whole streams -/

section Run

variable {fastDecLoop : Bool} {ring : Int} {maxBlockSize : Nat} {m : Mem} {sd : StreamDecode}
  {pos : Nat} {laps : List Nat} {hist : List UInt8} {source : Int} {b : Block}

/-- The decoder tracks the laps, and the history they hold is in place. -/
def RingTracks (ring : Int) (m : Mem) (sd : StreamDecode) (pos : Nat) (laps : List Nat)
    (hist : List UInt8) : Prop :=
  ∃ segs, history segs = hist ∧ sd.Tracks segs ∧ Kept m segs ∧ Layout ring pos laps segs

/-- One block: it is decoded, and the laps go on being tracked. -/
theorem ringTracks_block (hring : 0 < ring) (hsize : maxBlockSize ≤ 0x7E000000)
    (bounded : Bounded maxBlockSize pos laps)
    (hlaps : ∀ lap ∈ ringLaps maxBlockSize pos laps, LapSafe fastDecLoop maxBlockSize lap)
    (tracks : RingTracks ring m sd pos laps hist)
    (call : RingCall ring maxBlockSize m hist source b) :
    ∃ h' sd', decompressSafeContinue fastDecLoop sd ⟨m, []⟩ source
          (ring + ringNext maxBlockSize pos) b.encode.length maxBlockSize =
        some (((b.decode hist).length : Int), h', sd') ∧
      h'.mem.Holds (ring + ringNext maxBlockSize pos) (b.decode hist) ∧
      RingTracks ring h'.mem sd' (ringNext maxBlockSize pos + (b.decode hist).length)
        (ringLaps maxBlockSize pos laps) (hist ++ b.decode hist) := by
  obtain ⟨segs, rfl, tracks, kept, layout⟩ := tracks
  have hbounds := bounded.next hsize (Nat.le_refl maxBlockSize)
  have hend := hbounds.pos_le
  obtain ⟨slack, hslack, hfast, hreached⟩ : ∃ slack : Int, 16 ≤ slack ∧
      (fastDecLoop = true → 64 ≤ maxBlockSize → 31 ≤ slack) ∧
      ∀ lap ∈ ringLaps maxBlockSize pos laps, 65535 + slack ≤ (lap : Int) := by
    by_cases hfast : fastDecLoop = true ∧ 64 ≤ maxBlockSize
    · refine ⟨31, by decide, fun _ _ => Int.le_refl 31, fun lap hlap => ?_⟩
      rcases hlaps lap hlap with hslow | hsmall | hlate
      · exact absurd hfast.1 (by simp [hslow])
      · omega
      · omega
    · refine ⟨16, Int.le_refl 16, fun h1 h2 => absurd ⟨h1, h2⟩ hfast, fun lap hlap => ?_⟩
      have := hbounds.laps_ge lap hlap
      omega
  have ready := layout.ready hsize hreached (by omega)
  have valid : ValidCall m segs source (ring + ringNext maxBlockSize pos) maxBlockSize b := by
    refine ⟨call.source_ne, by omega, call.conforming, call.holds, call.size_le, ?_⟩
    rcases call.outside with hbelow | habove
    · exact Or.inl (by omega)
    · exact Or.inr (by omega)
  obtain ⟨h', hcall, hholds, hkept⟩ := decompressSafeContinue_complete fastDecLoop tracks
    ready.reach kept valid ready.spared hslack hfast
  refine ⟨h', _, hcall, hholds, _, history_record segs valid.dest_ne _,
    tracks.advance_record ready.reach valid.dest_ne _, hkept, ready.layout valid.dest_ne _⟩

/-- Memory outside the ring does not matter. -/
theorem RingTracks.write {m' : Mem} (bounded : Bounded maxBlockSize pos laps)
    (tracks : RingTracks ring m sd pos laps hist)
    (hring : ∀ a, ring ≤ a → a < ring + decoderRingBufferSize maxBlockSize → m' a = m a) :
    RingTracks ring m' sd pos laps hist := by
  obtain ⟨segs, hhist, tracks, kept, layout⟩ := tracks
  refine ⟨segs, hhist, tracks, fun k hk hwindow hlength => ?_, layout⟩
  have hlengths : ∀ s ∈ segs, (s.bytes.length : Int) ≤ decoderRingBufferSize maxBlockSize := by
    intro s hs
    have hmem := List.mem_map_of_mem (f := fun s : Segment => s.bytes.length) hs
    rcases layout.lengths with heq | ⟨-, heq⟩
    · rw [heq] at hmem
      rcases List.mem_cons.mp hmem with hpos | hlap
      · rw [hpos]
        exact bounded.pos_le
      · exact bounded.laps_le _ hlap
    · rw [heq] at hmem
      exact bounded.laps_le _ hmem
  obtain ⟨hlow, hhigh⟩ := address_mem_ring layout.start_eq hlengths hk hlength
  rw [hring _ hlow hhigh]
  exact kept k hk hwindow hlength

/-- Along a run whose laps are all safe, the laps are tracked. -/
theorem RingRun.tracks (hring : 0 < ring) (hsize : maxBlockSize ≤ 0x7E000000)
    (run : RingRun fastDecLoop ring maxBlockSize m sd pos laps hist)
    (hlaps : ∀ lap ∈ laps, LapSafe fastDecLoop maxBlockSize lap) :
    Bounded maxBlockSize pos laps ∧ RingTracks ring m sd pos laps hist := by
  have hbuffer := decoderRingBufferSize_bounds hsize
  induction run with
  | start m =>
    refine ⟨⟨by omega, by simp, by simp⟩, [], rfl, ⟨rfl, rfl⟩, fun k hk _ hlength => ?_, ?_⟩
    · have : (history []).length = 0 := rfl
      omega
    · exact ⟨by simp, Or.inr ⟨rfl, rfl⟩⟩
  | write run m' hkept ih =>
    obtain ⟨bounded, tracks⟩ := ih hlaps
    exact ⟨bounded, tracks.write bounded hkept⟩
  | @block m sd pos laps hist run source b call r h' sd' hcall ih =>
    obtain ⟨bounded, tracks⟩ := ih fun lap hlap => hlaps lap (mem_ringLaps hlap)
    obtain ⟨h'', sd'', hcall', -, tracks'⟩ := ringTracks_block hring hsize bounded hlaps tracks
      call
    cases Option.some.inj (hcall.symm.trans hcall')
    exact ⟨bounded.next hsize call.size_le, tracks'⟩

end Run

/-! ### A lap of 65551 bytes

The first block fills the lap with zeros.  The second starts with 15 literals, which the
fast loop copies as 32 bytes.  The last of these is the first byte of the match that
follows, 65535 bytes back. -/

end Lz4
