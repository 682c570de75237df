import Lz4.Decoder.Passes

/-!
# Parsing is the inverse of encoding

`literalRun` and `matchRun` recover exactly what `Sequence.encode` wrote: a parsed
sequence is an encoded one (`Parsed.holds_encode`), and an encoded sequence is
parsed when enough input follows it (`parsed_of_holds`).  The second half is where
the limits of `read_variable_length` matter.  Literal lengths must end 15 bytes
before the end of the input and match lengths 4, and both are met because at
least that many bytes follow in any block.
-/

namespace Lz4

open FlatMemory

/-! ## Length bytes -/

variable {n : Nat}

theorem lengthBytes_of_lt (h : n < 15) : lengthBytes n = [] := if_pos h

theorem lengthBytes_add_255 (k : Nat) : lengthBytes (15 + (255 + k)) = 255 :: lengthBytes (15 + k) := by
  have hdiv : (15 + (255 + k) - 15) / 255 = (15 + k - 15) / 255 + 1 := by omega
  have hmod : (15 + (255 + k) - 15) % 255 = (15 + k - 15) % 255 := by omega
  unfold lengthBytes
  rw [if_neg (by omega), if_neg (by omega), hdiv, hmod, List.replicate_succ, List.cons_append]

variable {k : Nat}

theorem lengthBytes_singleton (h : k < 255) : lengthBytes (15 + k) = [UInt8.ofNat k] := by
  have hdiv : (15 + k - 15) / 255 = 0 := by omega
  have hmod : (15 + k - 15) % 255 = k := by omega
  unfold lengthBytes
  rw [if_neg (by omega), hdiv, hmod, List.replicate_zero, List.nil_append]

namespace Decoder

variable {ip ip' : Int} {m : Mem} {acc v : Nat}

theorem readLengthBytes_sound (h : readLengthBytes m n ip acc = (some v, ip')) :
    ∃ k, v = acc + k ∧ ip' = ip + (lengthBytes (15 + k)).length ∧ m.Holds ip (lengthBytes (15 +
      k)) := by
  induction n generalizing ip acc with
  | zero => simp [readLengthBytes] at h
  | succ n ih =>
    have hbyte := (m ip).toNat_lt
    simp only [readLengthBytes] at h
    split at h
    · rename_i h255
      obtain ⟨k, hv, hip, hholds⟩ := ih h
      refine ⟨255 + k, by omega, ?_, ?_⟩
      · rw [lengthBytes_add_255, List.length_cons]
        omega
      · rw [lengthBytes_add_255, Mem.holds_cons]
        exact ⟨UInt8.toNat_inj.mp h255, hholds⟩
    · simp only [Prod.mk.injEq, Option.some.injEq] at h
      refine ⟨(m ip).toNat, h.1.symm, ?_, ?_⟩
      · rw [lengthBytes_singleton (by omega), List.length_singleton]
        omega
      · rw [lengthBytes_singleton (by omega), Mem.holds_cons]
        exact ⟨by simp, Mem.holds_nil _ _⟩

theorem readLengthBytes_complete (hholds : m.Holds ip (lengthBytes (15 + k)))
    (hn : (lengthBytes (15 + k)).length ≤ n) :
    readLengthBytes m n ip acc = (some (acc + k), ip + (lengthBytes (15 + k)).length) := by
  induction n generalizing ip acc k with
  | zero =>
    rw [length_lengthBytes] at hn
    omega
  | succ n ih =>
    by_cases hless : k < 255
    · rw [lengthBytes_singleton hless, Mem.holds_cons] at hholds
      have hbyte : (m ip).toNat = k := by
        rw [hholds.1, UInt8.toNat_ofNat']
        omega
      simp only [readLengthBytes, hbyte]
      rw [if_neg (by omega), lengthBytes_singleton hless]
      rfl
    · obtain ⟨k, rfl⟩ : ∃ j, k = 255 + j := ⟨k - 255, by omega⟩
      rw [lengthBytes_add_255, List.length_cons] at hn
      rw [lengthBytes_add_255, Mem.holds_cons] at hholds
      have hbyte : (m ip).toNat = 255 := by rw [hholds.1]; rfl
      simp only [readLengthBytes, hbyte]
      rw [if_pos trivial, ih hholds.2 (by omega), lengthBytes_add_255, List.length_cons]
      simp only [Prod.mk.injEq, Option.some.injEq]
      omega

variable {check : Bool} {ilimit : Int}

theorem readVariableLength_sound (h : readVariableLength m ip ilimit check = (some v, ip')) :
    ip' = ip + (lengthBytes (15 + v)).length ∧ m.Holds ip (lengthBytes (15 + v)) := by
  unfold readVariableLength at h
  split at h
  · simp at h
  · obtain ⟨k, hv, hip, hholds⟩ := readLengthBytes_sound h
    rw [Nat.zero_add] at hv
    subst hv
    exact ⟨hip, hholds⟩

theorem readVariableLength_complete (hholds : m.Holds ip (lengthBytes (15 + k)))
    (hlimit : ip + (lengthBytes (15 + k)).length ≤ ilimit) :
    readVariableLength m ip ilimit check = (some k, ip + (lengthBytes (15 + k)).length) := by
  have hpos : 0 < (lengthBytes (15 + k)).length := by
    rw [length_lengthBytes]
    omega
  unfold readVariableLength
  rw [if_neg (by omega), readLengthBytes_complete hholds (by omega), Nat.zero_add]

/-! ## The two runs -/

variable {source : Mem} {length : Nat} {e : Env} {lit : Int}

theorem literalRun_sound (h : literalRun e source ip = some (length, lit)) :
    (source ip).toNat / 16 = lengthField length ∧ lit = ip + 1 + (lengthBytes length).length ∧
      source.Holds (ip + 1) (lengthBytes length) := by
  unfold literalRun at h
  split at h
  · split at h
    · simp at h
    · rename_i addl ip' hread
      obtain ⟨rfl, rfl⟩ := h
      have hfield' : lengthField (15 + addl) = 15 := by
        unfold lengthField
        omega
      exact ⟨by omega, readVariableLength_sound hread⟩
  · simp only [Option.some.injEq, Prod.mk.injEq] at h
    have hlt := (source ip).toNat_lt
    have hbytes : lengthBytes length = [] := lengthBytes_of_lt (by omega)
    refine ⟨by unfold lengthField; omega, ?_, ?_⟩
    · rw [hbytes, List.length_nil]
      omega
    · rw [hbytes]
      exact Mem.holds_nil _ _

theorem literalRun_complete (htoken : (source ip).toNat / 16 = lengthField length)
    (hholds : source.Holds (ip + 1) (lengthBytes length))
    (hiend : ip + 1 + (lengthBytes length).length + length ≤ e.iend) :
    literalRun e source ip = some (length, ip + 1 + (lengthBytes length).length) := by
  unfold literalRun
  rw [htoken]
  unfold lengthField
  by_cases hlong : length < 15
  · rw [if_neg (by omega), lengthBytes_of_lt hlong, Nat.min_eq_left (by omega)]
    simp
  · obtain ⟨k, rfl⟩ : ∃ k, length = 15 + k := ⟨length - 15, by omega⟩
    rw [if_pos (by omega), readVariableLength_complete hholds (by omega)]

variable {field : Nat}

theorem matchRun_sound (hfield : field < 16) (h : matchRun e source field ip = some (length, ip')) :
    4 ≤ length ∧ field = lengthField (length - 4) ∧ ip' = ip + (lengthBytes (length - 4)).length ∧
      source.Holds ip (lengthBytes (length - 4)) := by
  unfold matchRun at h
  unfold lengthField
  split at h
  · split at h
    · simp at h
    · rename_i addl ip'' hread
      obtain ⟨rfl, rfl⟩ := h
      have hcode : 15 + addl + 4 - 4 = 15 + addl := by omega
      exact ⟨by omega, by omega, readVariableLength_sound hread⟩
  · simp only [Option.some.injEq, Prod.mk.injEq] at h
    have hbytes : lengthBytes (length - 4) = [] := lengthBytes_of_lt (by omega)
    rw [hbytes, List.length_nil]
    exact ⟨by omega, by omega, by omega, Mem.holds_nil _ _⟩

theorem matchRun_complete (hlength : 4 ≤ length) (hfield : field = lengthField (length - 4))
    (hholds : source.Holds ip (lengthBytes (length - 4)))
    (hiend : ip + (lengthBytes (length - 4)).length ≤ e.iend - 4) :
    matchRun e source field ip = some (length, ip + (lengthBytes (length - 4)).length) := by
  unfold matchRun
  unfold lengthField at hfield
  by_cases hlong : length - 4 < 15
  · rw [if_neg (by omega), lengthBytes_of_lt hlong, List.length_nil, hfield,
      Nat.min_eq_left (by omega)]
    simp only [Option.some.injEq, Prod.mk.injEq]
    omega
  · obtain ⟨k, rfl⟩ : ∃ k, length = 15 + k + 4 := ⟨length - 19, by omega⟩
    have hcode : 15 + k + 4 - 4 = 15 + k := by omega
    rw [hcode] at hholds hiend ⊢
    rw [if_pos (by omega), readVariableLength_complete hholds (by omega)]

/-! ## Whole sequences -/

theorem toNat_token (litLength matchCode : Nat) :
    (token litLength matchCode).toNat / 16 = lengthField litLength ∧
      (token litLength matchCode).toNat % 16 = lengthField matchCode := by
  unfold token lengthField
  rw [UInt8.toNat_ofNat']
  omega

theorem eq_token {b : UInt8} {litLength matchCode : Nat} (hlit : b.toNat / 16 = lengthField litLength)
    (hmatch : b.toNat % 16 = lengthField matchCode) : b = token litLength matchCode := by
  obtain ⟨h1, h2⟩ := toNat_token litLength matchCode
  apply UInt8.toNat_inj.mp
  omega

theorem holds_le16 (source : Mem) (a : Int) : source.Holds a (le16 (readLE16 source a)) := by
  have h0 := (source a).toNat_lt
  have h1 := (source (a + 1)).toNat_lt
  simp only [le16, Mem.holds_cons, Mem.holds_nil, and_true]
  constructor
  · apply UInt8.toNat_inj.mp
    rw [UInt8.toNat_ofNat']
    unfold readLE16
    omega
  · apply UInt8.toNat_inj.mp
    rw [UInt8.toNat_ofNat']
    unfold readLE16
    omega

variable {offset : Nat}

theorem readLE16_of_holds {a : Int} (hoffset : offset < 65536)
    (hholds : source.Holds a (le16 offset)) : readLE16 source a = offset := by
  simp only [le16, Mem.holds_cons, Mem.holds_nil, and_true] at hholds
  unfold readLE16
  rw [hholds.1, hholds.2, UInt8.toNat_ofNat', UInt8.toNat_ofNat']
  omega

variable {s : Sequence}

/-- The encoding of a sequence, piece by piece. -/
theorem holds_encode_iff :
    source.Holds ip s.encode ↔ source ip = token s.literals.length s.matchCode ∧
      source.Holds (ip + 1) (lengthBytes s.literals.length) ∧
      source.Holds (ip + 1 + (lengthBytes s.literals.length).length) s.literals ∧
      source.Holds (ip + 1 + (lengthBytes s.literals.length).length + s.literals.length)
      (le16 s.offset) ∧
      source.Holds (ip + 1 + (lengthBytes s.literals.length).length + s.literals.length + 2)
      (lengthBytes s.matchCode) := by
  unfold Sequence.encode
  rw [Mem.holds_cons, Mem.holds_append, Mem.holds_append, Mem.holds_append]
  rfl

/-- The sequence that was parsed. -/
theorem Parsed.holds_encode {matchLength : Nat}
    (parsed : Parsed e source ip length lit offset matchLength ip') :
    4 ≤ matchLength ∧ offset < 65536 ∧
      source.Holds ip (Sequence.encode ⟨source.bytes lit length, offset, matchLength⟩) ∧ ip' =
      ip + (Sequence.encode ⟨source.bytes lit length, offset, matchLength⟩).length := by
  obtain ⟨hliteral, -, hoffset, hmatch⟩ := parsed
  obtain ⟨hfield, hlit, hlitBytes⟩ := literalRun_sound hliteral
  obtain ⟨hfour, hfield', hip', hmatchBytes⟩ :=
    matchRun_sound (Nat.mod_lt _ (by omega)) hmatch
  refine ⟨hfour, by rw [hoffset]; exact readLE16_lt _ _, ?_, ?_⟩
  · rw [holds_encode_iff]
    simp only [Mem.length_bytes, Sequence.matchCode, ← hlit]
    refine ⟨eq_token hfield hfield', hlitBytes, Mem.holds_bytes _ _ _, ?_, hmatchBytes⟩
    rw [hoffset]
    exact holds_le16 _ _
  · rw [length_encode, hip', hlit, length_lengthBytes, length_lengthBytes, Mem.length_bytes]
    unfold Sequence.matchCode
    push_cast
    omega

/-- An encoded sequence is parsed if at least four more bytes follow. -/
theorem parsed_of_holds (hholds : source.Holds ip s.encode) (hlength : 4 ≤ s.matchLength)
    (hoffset : s.offset < 65536) (hiend : ip + s.encode.length + 4 ≤ e.iend) :
    Parsed e source ip s.literals.length (ip + 1 + (lengthBytes s.literals.length).length) s.offset
      s.matchLength (ip + s.encode.length) ∧
      source.bytes (ip + 1 + (lengthBytes s.literals.length).length) s.literals.length =
      s.literals := by
  rw [holds_encode_iff] at hholds
  obtain ⟨htoken, hlitBytes, hliterals, hle16, hmatchBytes⟩ := hholds
  obtain ⟨hfield, hfield'⟩ := toNat_token s.literals.length s.matchCode
  have hsize := length_encode s
  have hlit := length_lengthBytes s.literals.length
  have hmatch := length_lengthBytes s.matchCode
  have hnext : ip + s.encode.length = ip + 1 + (lengthBytes s.literals.length).length +
      s.literals.length + 2 + (lengthBytes s.matchCode).length := by omega
  refine ⟨⟨?_, by omega, ?_, ?_⟩, hliterals⟩
  · exact literalRun_complete (by rw [htoken, hfield]) hlitBytes (by omega)
  · exact (readLE16_of_holds hoffset hle16).symm
  · rw [hnext]
    refine matchRun_complete hlength (by rw [htoken, hfield']; rfl) hmatchBytes ?_
    unfold Sequence.matchCode at *
    omega

/-- The final literals that were parsed. -/
theorem holds_encodeLast (h : literalRun e source ip = some (length, lit))
    (hiend : lit + length = e.iend) :
    source.Holds ip (encodeLast (source.bytes lit length) ((source ip).toNat % 16)) ∧ e.iend =
      ip + (encodeLast (source.bytes lit length) ((source ip).toNat % 16)).length := by
  obtain ⟨hfield, hlit, hlitBytes⟩ := literalRun_sound h
  constructor
  · unfold encodeLast
    rw [Mem.holds_cons, Mem.holds_append, Mem.length_bytes, ← hlit, ← hfield]
    refine ⟨?_, hlitBytes, Mem.holds_bytes _ _ _⟩
    apply UInt8.toNat_inj.mp
    have := (source ip).toNat_lt
    rw [UInt8.toNat_ofNat']
    omega
  · rw [length_encodeLast, Mem.length_bytes, ← hiend, hlit, length_lengthBytes]
    omega

/-- Encoded final literals are parsed. -/
theorem literalRun_of_holds_encodeLast {literals : List UInt8} (hfield : field < 16)
    (hholds : source.Holds ip (encodeLast literals field))
    (hiend : ip + (encodeLast literals field).length = e.iend) :
    literalRun e source ip = some (literals.length, ip + 1 + (lengthBytes literals.length).length) ∧
      source.bytes (ip + 1 + (lengthBytes literals.length).length) literals.length = literals := by
  rw [length_encodeLast] at hiend
  have hlen := length_lengthBytes literals.length
  unfold encodeLast at hholds
  rw [Mem.holds_cons, Mem.holds_append] at hholds
  obtain ⟨htoken, hlitBytes, hliterals⟩ := hholds
  refine ⟨literalRun_complete ?_ hlitBytes (by omega), hliterals⟩
  rw [htoken, UInt8.toNat_ofNat']
  unfold lengthField
  omega

end Decoder

end Lz4
