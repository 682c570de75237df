import Lz4.Decoder.Correct

/-!
# `LZ4_decompress_safe_usingDict`

The history may be absent, lie directly before the output (in which case a long
and a short prefix go different ways) or in a buffer of its own.  The lemmas of the
first section show that each placement sets up the generic decoder for that history
(`exists_callEnv`), and then soundness and completeness hold for all of them at once.
-/

namespace Lz4

open FlatMemory Decoder

/-- The buffers of a call: input, output and history exist, and the output overlaps
neither of the others. -/
structure Buffers (source dest : Int) (compressedSize capacity : Nat) (dictStart : Int)
    (dictSize : Nat) : Prop where
  source_ne : source ≠ 0
  source_apart : source + compressedSize ≤ dest ∨ dest + capacity ≤ source
  dict_ne : 0 < dictSize → dictStart ≠ 0
  dict_apart : 0 < dictSize → dictStart + dictSize ≤ dest ∨ dest + capacity ≤ dictStart

section

variable {m : Mem} {source dest : Int} {compressedSize capacity : Nat} {dictStart : Int}
  {dictSize : Nat}

/-- A history that ends where the output starts is found there. -/
theorem historyAt_contiguous {e : Env} (hdst : e.dst = dictStart + dictSize)
    (hlow : e.lowPrefix ≤ max dictStart (e.dst - 65535)) :
    HistoryAt e m (m.bytes dictStart dictSize) := by
  intro v hv hreach hhigh
  rw [Mem.length_bytes] at hv ⊢
  have hbase : e.dst - dictSize = dictStart := by omega
  rw [Env.phys_of_le (by omega), contents_bytes hv (by omega)]
  congr 1
  omega

theorem historyClear_contiguous {e : Env} {n : Nat} (slack : Int)
    (hlow : e.lowPrefix ≤ max (e.dst - n) (e.dst - 65535)) : e.HistoryClear n slack := by
  intro v op hv hext hdst hoend hreach
  omega

/-- Whatever the placement, the generic decoder is set up for the history. -/
theorem exists_callEnv (buffers : Buffers source dest compressedSize capacity dictStart dictSize) :
    ∃ dict lowPrefix dictStart' dictSize',
      ((∀ fastDecLoop h, decompressSafeUsingDict fastDecLoop h source dest compressedSize capacity
          dictStart dictSize =
        decompressGeneric fastDecLoop h source dest compressedSize capacity false dict lowPrefix
          dictStart' dictSize') ∧
      (∀ fastDecLoop h targetOutputSize dstCapacity,
        decompressSafePartialUsingDict fastDecLoop h source dest compressedSize targetOutputSize
          dstCapacity dictStart dictSize =
        decompressGeneric fastDecLoop h source dest compressedSize
          (min targetOutputSize dstCapacity) true dict lowPrefix dictStart' dictSize') ∧
      (dict = .usingExtDict → 0 < dictSize ∧ dictStart' = dictStart ∧ dictSize' = dictSize)) ∧
      (callEnv source dest compressedSize capacity false dict lowPrefix dictStart'
        dictSize').Serves dictSize ∧
      (∀ slack, (callEnv source dest compressedSize capacity false dict lowPrefix dictStart'
        dictSize').HistoryClear dictSize slack) ∧
      HistoryAt (callEnv source dest compressedSize capacity false dict lowPrefix dictStart'
        dictSize') m (m.bytes dictStart dictSize) := by
  obtain ⟨-, -, hne, hapart⟩ := buffers
  by_cases hnone : dictSize = 0
  · -- no history
    refine ⟨.noDict, dest, 0, 0, ⟨fun _ _ => by
      simp only [decompressSafeUsingDict, decompressSafe, if_pos hnone], fun _ _ _ _ => by
      simp only [decompressSafePartialUsingDict, decompressSafePartial, if_pos hnone],
      by simp⟩,
      ⟨⟨Int.le_refl _, ?_, fun _ => rfl, by simp [callEnv]⟩, rfl, ?_⟩, fun slack => ?_, ?_⟩
    · show dest ≤ dest + capacity
      omega
    · show max (dest - (dictSize : Int)) (dest - 65535) = max (dest - ((0 : Nat) : Int)) (dest - 65535)
      omega
    · refine historyClear_contiguous slack ?_
      show dest ≤ max (dest - (dictSize : Int)) (dest - 65535)
      omega
    · intro v hv _ hhigh
      rw [Mem.length_bytes] at hv
      omega
  by_cases hcontiguous : dictStart + dictSize = dest
  · by_cases hlong : dictSize ≥ 65536 - 1
    · -- a prefix of at least 64 KB - 1
      refine ⟨.withPrefix64k, dest - 65536, 0, 0, ⟨fun _ _ => by
        simp only [decompressSafeUsingDict, decompressSafeWithPrefix64k, if_neg hnone,
          if_pos hcontiguous, if_pos hlong], fun _ _ _ _ => by
        simp only [decompressSafePartialUsingDict, decompressSafePartialWithPrefix64k,
          if_neg hnone, if_pos hcontiguous, if_pos hlong], by simp⟩,
        ⟨⟨?_, ?_, fun _ => rfl, fun _ => rfl⟩, rfl, ?_⟩, fun slack => ?_, ?_⟩
      · show dest - 65536 ≤ dest
        omega
      · show dest ≤ dest + capacity
        omega
      · show max (dest - (dictSize : Int)) (dest - 65535) =
          max (dest - 65536 - ((0 : Nat) : Int)) (dest - 65535)
        omega
      · refine historyClear_contiguous slack ?_
        show dest - 65536 ≤ max (dest - (dictSize : Int)) (dest - 65535)
        omega
      · refine historyAt_contiguous hcontiguous.symm ?_
        show dest - 65536 ≤ max dictStart (dest - 65535)
        omega
    · -- a shorter prefix
      refine ⟨.noDict, dest - dictSize, 0, 0, ⟨fun _ _ => by
        simp only [decompressSafeUsingDict, decompressSafeWithSmallPrefix, if_neg hnone,
          if_pos hcontiguous, if_neg hlong], fun _ _ _ _ => by
        simp only [decompressSafePartialUsingDict, decompressSafePartialWithSmallPrefix,
          if_neg hnone, if_pos hcontiguous, if_neg hlong], by simp⟩,
        ⟨⟨?_, ?_, fun _ => rfl, by simp [callEnv]⟩, rfl, ?_⟩, fun slack => ?_, ?_⟩
      · show dest - (dictSize : Int) ≤ dest
        omega
      · show dest ≤ dest + capacity
        omega
      · show max (dest - (dictSize : Int)) (dest - 65535) =
          max (dest - (dictSize : Int) - ((0 : Nat) : Int)) (dest - 65535)
        omega
      · refine historyClear_contiguous slack ?_
        show dest - (dictSize : Int) ≤ max (dest - (dictSize : Int)) (dest - 65535)
        omega
      · refine historyAt_contiguous hcontiguous.symm ?_
        show dest - (dictSize : Int) ≤ max dictStart (dest - 65535)
        omega
  · -- an external dictionary
    have hnull := hne (by omega)
    have hend : (callEnv source dest compressedSize capacity false .usingExtDict dest dictStart
        dictSize).dictEnd = dictStart + dictSize := if_neg hnull
    refine ⟨.usingExtDict, dest, dictStart, dictSize, ⟨fun _ _ => by
      simp only [decompressSafeUsingDict, decompressSafeForceExtDict, if_neg hnone,
        if_neg hcontiguous], fun _ _ _ _ => by
      simp only [decompressSafePartialUsingDict, decompressSafePartialForceExtDict,
        if_neg hnone, if_neg hcontiguous], fun _ => ⟨by omega, rfl, rfl⟩⟩,
      ⟨⟨Int.le_refl _, ?_, by simp [callEnv], by simp [callEnv]⟩, rfl, rfl⟩, fun slack => ?_, ?_⟩
    · show dest ≤ dest + capacity
      omega
    · intro v op hv hext hdst hoend hreach
      rw [Env.phys_of_lt hext, hend]
      simp only [callEnv] at *
      omega
    · intro v hv hreach hhigh
      rw [Mem.length_bytes] at hv ⊢
      rw [Env.phys_of_lt hhigh, contents_bytes hv (by omega), hend]
      congr 1
      simp only [callEnv] at *
      omega

/-- A nonnegative result means that the input was a block, that its offsets stay in the
history and the output, and that the output is what the block stands for. -/
theorem decompressSafeUsingDict_sound (fastDecLoop : Bool) (m : Mem) (source dest : Int)
    (compressedSize capacity : Nat) (dictStart : Int) (dictSize : Nat)
    (buffers : Buffers source dest compressedSize capacity dictStart dictSize) :
    ∃ r h', decompressSafeUsingDict fastDecLoop ⟨m, []⟩ source dest compressedSize capacity
        dictStart dictSize = some (r, h') ∧
      (0 ≤ r → ∃ b : Block, b.lastField < 16 ∧ Reaches dictSize b.sequences ∧
        m.bytes source compressedSize = b.encode ∧
        r = (b.decode (m.bytes dictStart dictSize)).length ∧ r ≤ capacity ∧
        h'.mem.Holds dest (b.decode (m.bytes dictStart dictSize))) := by
  obtain ⟨dict, lowPrefix, dictStart', dictSize', ⟨hcall, -⟩, serves, clear, hhist⟩ :=
    exists_callEnv (m := m) buffers
  have hlength := Mem.length_bytes m dictStart dictSize
  rw [← hlength] at serves clear
  obtain ⟨r, h', hrun, hsound⟩ := decompressGeneric_sound fastDecLoop
    buffers.source_ne (by omega) serves (clear 31) buffers.source_apart hhist
  rw [hlength] at hsound
  exact ⟨r, h', by rw [hcall, hrun], hsound⟩

/-- One byte of input after a history of five. -/
theorem decompressSafeUsingDict_sound_one :
    Buffers 1 100 1 10 50 5 ∧
    ∃ r h', decompressSafeUsingDict true ⟨fun _ => 0, []⟩ 1 100 1 10 50 5 = some (r, h') ∧
      (0 ≤ r → ∃ b : Block, b.lastField < 16 ∧ Reaches 5 b.sequences ∧
        Mem.bytes (fun _ => 0) 1 1 = b.encode ∧
        r = (b.decode (Mem.bytes (fun _ => 0) 50 5)).length ∧ r ≤ (10 : Nat) ∧
        h'.mem.Holds 100 (b.decode (Mem.bytes (fun _ => 0) 50 5))) := by
  have buffers : Buffers 1 100 1 10 50 5 := by constructor <;> decide
  exact ⟨buffers, decompressSafeUsingDict_sound true (fun _ => 0) 1 100 1 10 50 5 buffers⟩

/-- `LZ4_decompress_safe` decodes every block that respects the format. -/
theorem decompressSafe_decodes (fastDecLoop : Bool) {b : Block} (conforming : b.Conforming [])
    (hholds : m.Holds source b.encode) (hsource : source ≠ 0)
    (hapart : source + b.encode.length ≤ dest ∨ dest + capacity ≤ source)
    (hroom : (b.decode []).length ≤ capacity) :
    ∃ h', decompressSafe fastDecLoop ⟨m, []⟩ source dest b.encode.length capacity =
        some (((b.decode []).length : Int), h') ∧
      h'.mem.Holds dest (b.decode []) := by
  obtain ⟨dict, lowPrefix, dictStart', dictSize', ⟨hcall, -⟩, serves, clear, hhist⟩ :=
    exists_callEnv (m := m) (⟨hsource, hapart, by omega, by omega⟩ :
      Buffers source dest b.encode.length capacity 0 0)
  obtain ⟨h', hrun, rel⟩ := decompressGeneric_complete rfl hsource serves (clear _)
    conforming hhist hholds (by omega) (Or.inl hapart)
  have hsame : decompressSafeUsingDict fastDecLoop ⟨m, []⟩ source dest b.encode.length capacity 0 0 =
      decompressSafe fastDecLoop ⟨m, []⟩ source dest b.encode.length capacity := by
    simp [decompressSafeUsingDict]
  exact ⟨h', by rw [← hsame, hcall, hrun], rel.holds_output⟩

/-- A block is decoded to `piece`, wherever it and the last 64 KB of the history are. -/
def DecodesTo (history block piece : List UInt8) : Prop :=
  ∀ (fastDecLoop : Bool) (m : Mem) (source dest : Int) (capacity : Nat) (dictStart : Int),
    m.Holds source block → m.Holds dictStart (recent history) →
    Buffers source dest block.length capacity dictStart (recent history).length →
    piece.length ≤ capacity →
    ∃ h', decompressSafeUsingDict fastDecLoop ⟨m, []⟩ source dest block.length capacity dictStart
        (recent history).length = some ((piece.length : Int), h') ∧
      h'.mem.Holds dest piece

/-- A block that respects the format after a history needs no more than its last 64 KB. -/
theorem decodesTo_of_conforming {history : List UInt8} {b : Block}
    (conforming : b.Conforming history) : DecodesTo history b.encode (b.decode history) := by
  intro fastDecLoop m source dest capacity dictStart hholds hdict buffers hroom
  obtain ⟨dict, lowPrefix, dictStart', dictSize', ⟨hcall, -⟩, serves, clear, hhist⟩ :=
    exists_callEnv (m := m) buffers
  have hbytes : m.bytes dictStart (recent history).length = recent history := hdict
  rw [hbytes] at hhist
  obtain ⟨h', hrun, rel⟩ := decompressGeneric_complete rfl buffers.source_ne serves (clear _)
    conforming.recent hhist hholds (by rw [decode_recent conforming]; omega)
    (Or.inl buffers.source_apart)
  have hout := rel.holds_output
  rw [decode_recent conforming] at hrun hout
  exact ⟨h', by rw [hcall, hrun], hout⟩

/-- Every block that respects the format is decoded, with any capacity that holds the
result. -/
theorem decompressSafeUsingDict_complete (fastDecLoop : Bool) (m : Mem) (source dest : Int)
    (capacity : Nat) (dictStart : Int) (dictSize : Nat) (b : Block)
    (buffers : Buffers source dest b.encode.length capacity dictStart dictSize)
    (conforming : b.Conforming (m.bytes dictStart dictSize)) (hholds : m.Holds source b.encode)
    (hroom : (b.decode (m.bytes dictStart dictSize)).length ≤ capacity) :
    ∃ h', decompressSafeUsingDict fastDecLoop ⟨m, []⟩ source dest b.encode.length capacity
        dictStart dictSize =
          some (((b.decode (m.bytes dictStart dictSize)).length : Int), h') ∧
      h'.mem.Holds dest (b.decode (m.bytes dictStart dictSize)) := by
  obtain ⟨dict, lowPrefix, dictStart', dictSize', ⟨hcall, -⟩, serves, clear, hhist⟩ :=
    exists_callEnv (m := m) buffers
  rw [← Mem.length_bytes m dictStart dictSize] at serves clear
  obtain ⟨h', hrun, rel⟩ := decompressGeneric_complete rfl buffers.source_ne serves (clear _)
    conforming hhist hholds (by omega) (Or.inl buffers.source_apart)
  exact ⟨h', by rw [hcall, hrun], rel.holds_output⟩

/-- A block with a match that reaches from its first literal into the history. -/
theorem decompressSafeUsingDict_complete_match :
    let b : Block := ⟨[⟨[7], 3, 8⟩], [1, 2, 3, 4, 5], 0⟩
    let m : Mem := Mem.store (fun _ => 9) 1 b.encode
    ∃ h', decompressSafeUsingDict true ⟨m, []⟩ 1 100 b.encode.length 20 50 5 =
        some (((b.decode (m.bytes 50 5)).length : Int), h') ∧
      h'.mem.Holds 100 (b.decode (m.bytes 50 5)) := by
  intro b m
  refine decompressSafeUsingDict_complete true m 1 100 20 50 5 b ?_ ?_ (Mem.holds_store _ _ _)
    (by decide)
  · constructor <;> decide
  · constructor <;> decide

end

end Lz4
