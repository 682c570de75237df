import Lz4.Frame.Run

/-!
# The declared content size

A header can declare the size of the content.  The decoder counts down from the declared size
while it delivers and expects zero behind the last block.  It counts only if the declared value,
not the flag, says so: a declared size of zero is never compared with anything.  The counter has
64 bits.

A run that has ended therefore tells a wrong size from the true one exactly if the declared size
is not zero, or there is no content, and the two differ modulo `2 ^ 64`.
-/

namespace Lz4.Lz4f

open FlatMemory

variable {f : Frame} {dict after : List UInt8} {D : Int} {s : Session} {m : Mem} {d : Dctx}
  {past : List Event} {usingDict : Bool}

/-- What the last call has returned. -/
def lastCode (past : List Event) : Option Code := (past.filterMap Event.code?).getLast?

theorem lastCode_call (past : List Event) (c : DecompressCall) (o : Outcome) :
    lastCode (past ++ [.call c o]) = some o.code := by
  have hsingle : [Event.call c o].filterMap Event.code? = [o.code] := rfl
  rw [lastCode, List.filterMap_append, hsingle, List.getLast?_concat]

/-- All checksums of a frame are the true ones. -/
structure Frame.ChecksumsMatch (f : Frame) : Prop where
  block : f.desc.blockChecksum = true → ∀ p ∈ f.pieces, p.checksum = xxh32 p.data 0
  content : f.desc.contentChecksum = true → f.checksum = xxh32 f.content 0

/-- If the checksums are right, the size is the only reason for an error. -/
theorem Frame.ChecksumsMatch.faults (hmatch : f.ChecksumsMatch) {skip : Bool} {e : FrameError}
    (hfaults : f.Faults skip e) : e = .frameSize_wrong ∧ ¬ f.SizeMatches := by
  cases hfaults with
  | block hmem hflag hbad => exact absurd (hmatch.block hflag _ hmem) hbad
  | size hbad => exact ⟨rfl, hbad⟩
  | content hflag hbad => exact absurd (hmatch.content hflag) hbad

/-- The verdict at the end of a run. -/
theorem Status.lastCode_eq (status : Status usingDict f dict D after past s)
    (hmatch : f.ChecksumsMatch) (hended : ¬ Going past) :
    lastCode past = some (if f.SizeMatches then .ok 0 else .error .frameSize_wrong) := by
  cases status with
  | amid amid => exact absurd amid.going hended
  | finished _ past_eq code hfinished =>
    rw [past_eq, lastCode_call, code, if_pos hfinished.sizeMatches]
  | failed _ past_eq code faults =>
    obtain ⟨he, hbad⟩ := hmatch.faults faults
    rw [past_eq, lastCode_call, code, he, if_neg hbad]

/-- A declared size passes if it is zero, or true modulo `2 ^ 64`. -/
theorem Frame.sizeMatches_iff {n : UInt64} (hflag : f.desc.contentSize = some n) :
    f.SizeMatches ↔ n = 0 ∨ f.content.length % 2 ^ 64 = n.toNat := by
  unfold Frame.SizeMatches
  rw [hflag, Option.getD_some]
  refine or_congr Iff.rfl ⟨fun h => ?_, fun h => ?_⟩
  · rw [h, UInt64.toNat_ofNat']
  · rw [← UInt64.toNat_inj, UInt64.toNat_ofNat', h]

/-- The last call tells whether the decoded size is the declared one. -/
def ReportsSize (declared decoded : Nat) (past : List Event) : Prop :=
  (lastCode past = some (.ok 0) ↔ decoded = declared) ∧
    (decoded ≠ declared → lastCode past = some (.error .frameSize_wrong))

/-- **The declared size.**  In a run to the end of a frame whose checksums are right, the decoder
reports whether the declared size is the true one if and only if a declared zero stands for an
empty content and the two sizes do not merely agree modulo `2 ^ 64`. -/
theorem decompress_reportsSize_iff {n : UInt64} (sound : f.Sound [])
    (hflag : f.desc.contentSize = some n) (hmatch : f.ChecksumsMatch) (idle : Idle d)
    (run : Run false (spaced f) f [] 0 after (Session.start d m 0 0) past s)
    (hended : ¬ Going past) :
    ReportsSize n.toNat f.content.length past ↔
      (n = 0 → f.content.length = 0) ∧
        (f.content.length % 2 ^ 64 = n.toNat → f.content.length = n.toNat) := by
  have hstatus := run.status sound (spaced_safe false f []) idle (Mem.holds_nil _ _)
    fun _ => ⟨rfl, rfl⟩
  have hlast := hstatus.lastCode_eq hmatch hended
  have hzero : n = 0 ↔ n.toNat = 0 := by
    rw [← UInt64.toNat_inj]
    rfl
  have hlt := n.toNat_lt
  unfold ReportsSize
  rw [hlast, hzero]
  by_cases hpasses : f.SizeMatches
  · -- the decoder is content, so the sizes have to agree
    rw [if_pos hpasses]
    rw [f.sizeMatches_iff hflag, hzero] at hpasses
    constructor
    · rintro ⟨hreports, -⟩
      have hequal := hreports.1 rfl
      exact ⟨fun h => hequal.trans h, fun _ => hequal⟩
    · rintro ⟨hempty, hmodulo⟩
      have hequal : f.content.length = n.toNat := by
        rcases hpasses with hnone | hagree
        · rw [hempty hnone, hnone]
        · exact hmodulo hagree
      exact ⟨⟨fun _ => hequal, fun _ => rfl⟩, fun hne => absurd hequal hne⟩
  · rw [if_neg hpasses]
    rw [f.sizeMatches_iff hflag, hzero, not_or] at hpasses
    obtain ⟨hsome, hdiffer⟩ := hpasses
    have hunequal : f.content.length ≠ n.toNat := by
      intro hequal
      apply hdiffer
      rw [hequal, Nat.mod_eq_of_lt hlt]
    refine iff_of_true ⟨⟨fun h => ?_, fun h => absurd h hunequal⟩, fun _ => rfl⟩
      ⟨fun h => absurd h hsome, fun h => absurd h hdiffer⟩
    cases h

/-- A frame of one byte that declares `n` bytes. -/
def declaring (n : UInt64) : Frame :=
  { desc := { Descriptor.plain with independent := true, contentSize := some n }
    pieces := [⟨true, [7], 0, [7]⟩]
    checksum := 0 }

theorem declaring_sound (n : UInt64) : (declaring n).Sound [] := by
  have hsize : (declaring n).blockSize = 65536 := rfl
  refine ⟨Nat.le_refl 4, ⟨?_, ?_, fun _ => rfl, fun h => absurd h (by decide)⟩, trivial⟩
  · rw [hsize]
    decide
  · rw [hsize]
    decide

theorem declaring_checksumsMatch (n : UInt64) : (declaring n).ChecksumsMatch :=
  ⟨fun h => absurd h Bool.false_ne_true, fun h => absurd h Bool.false_ne_true⟩

theorem decompress_reportsSize_iff_one :
    ∃ past s, Run false (spaced (declaring 1)) (declaring 1) [] 0 []
        (Session.start {} (wholeMem (declaring 1)) 0 0) past s ∧
      ReportsSize 1 1 past := by
  obtain ⟨past, s, run, hended⟩ := exists_run_whole (declaring_sound 1)
  exact ⟨past, s, run, (decompress_reportsSize_iff (declaring_sound 1) rfl
    (declaring_checksumsMatch 1) idle_new run hended).2 ⟨by decide, by decide⟩⟩

/-- A frame that declares no content and has one byte is decoded without complaint. -/
theorem decompress_declared_zero :
    ∃ past s, Run false (spaced (declaring 0)) (declaring 0) [] 0 []
        (Session.start {} (wholeMem (declaring 0)) 0 0) past s ∧
      ¬ Going past ∧ (declaring 0).content.length = 1 ∧ lastCode past = some (.ok 0) := by
  obtain ⟨past, s, run, hended⟩ := exists_run_whole (declaring_sound 0)
  have hstatus := run.status (declaring_sound 0) (spaced_safe false _ _) idle_new
    (Mem.holds_nil _ _) fun _ => ⟨rfl, rfl⟩
  have hlast := hstatus.lastCode_eq (declaring_checksumsMatch 0) hended
  have hpasses : (declaring 0).SizeMatches := Or.inl rfl
  exact ⟨past, s, run, hended, rfl, hlast⟩

/-! ## Valid frames -/

/-- **Decoding in any portions.**  With any buffers, without a dictionary or with one and queries
between the calls: while a run over a valid frame goes on, it has read nothing behind the frame and
delivered a beginning of the content, and the next call returns.  It ends with a zero when all of
the content has been delivered, and the context is ready for another frame. -/
theorem decompress_delivers (valid : f.Valid dict) {rules : Rules}
    (safe : rules.Safe usingDict f dict) (idle : Idle d) (hdict : m.Holds D dict)
    (hplain : usingDict = false → D = 0 ∧ dict = [])
    (run : Run usingDict rules f dict D after (Session.start d m D dict.length) past s) :
    Going past ∧ s.taken < f.bytes.length ∧ s.output <+: f.content ∧
        (∀ c m', Presents f after s c m' → ¬ Abuts f s c →
          ∃ o, decode usingDict c s.dctx m' D dict.length = some o) ∨
      lastCode past = some (.ok 0) ∧ Over f s := by
  cases run.status valid.toSound safe idle hdict hplain with
  | amid amid =>
    refine .inl ⟨amid.going, amid.rests.taken_lt, ⟨_, amid.rests.content_eq.symm⟩, ?_⟩
    intro c m' presents hgap
    obtain ⟨o, answer, -⟩ := amid.call valid.toSound presents hgap
    exact ⟨o, answer⟩
  | finished _ past_eq code hover =>
    rw [past_eq, lastCode_call, code]
    exact .inr ⟨rfl, hover⟩
  | failed _ _ _ faults => exact absurd faults valid.not_faults

/-- A frame of one byte, in one call. -/
theorem decompress_delivers_one :
    ∃ past s, Run false (spaced (declaring 1)) (declaring 1) [] 0 []
        (Session.start {} (wholeMem (declaring 1)) 0 0) past s ∧
      lastCode past = some (.ok 0) ∧ Over (declaring 1) s := by
  obtain ⟨past, s, run, hended⟩ := exists_run_whole (declaring_sound 1)
  have valid : (declaring 1).Valid [] := by
    refine ⟨declaring_sound 1, (declaring_checksumsMatch 1).block,
      (declaring_checksumsMatch 1).content, ?_⟩
    rintro n ⟨⟩
    rfl
  exact ⟨past, s, run, (decompress_delivers valid (spaced_safe false _ _) idle_new
    (Mem.holds_nil _ _) (fun _ => ⟨rfl, rfl⟩) run).resolve_left fun h => hended h.1⟩

end Lz4.Lz4f
