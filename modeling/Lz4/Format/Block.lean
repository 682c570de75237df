import Mathlib.Algebra.Ring.Nat
import Lz4.Lib.Mem

/-!
# The LZ4 block format

A block is a list of sequences and a final run of literals.  This file fixes
what the format document says about it: how a sequence is laid out in bytes
(`Sequence.encode`), what a block stands for (`Block.decode`, one byte at a
time), and which blocks respect the end-of-block conditions
(`Block.Conforming`).

Nothing here looks at the implementation.  The interpretation is deliberately
naive: a match appends `matchLength` bytes, each the byte `offset` positions
before the current end, which gives overlapping matches their meaning.  Offset
`0` is invalid in the format; a decoder that lets it pass clears the match, so
it stands for zero bytes here.
-/

namespace Lz4

/-! ## Sequences and their encoding -/

/-- Literals followed by a match. -/
structure Sequence where
  literals : List UInt8
  offset : Nat
  matchLength : Nat
  deriving Repr, DecidableEq

/-- The 4-bit length field of a token; `15` announces more length bytes. -/
def lengthField (n : Nat) : Nat := min n 15

/-- The length bytes that follow a saturated field: any number of `255`, then
the rest. -/
def lengthBytes (n : Nat) : List UInt8 :=
  if n < 15 then [] else
    List.replicate ((n - 15) / 255) 255 ++ [UInt8.ofNat ((n - 15) % 255)]

/-- The token: literal length in the high, match length in the low 4 bits. -/
def token (litLength matchCode : Nat) : UInt8 :=
  UInt8.ofNat (16 * lengthField litLength + lengthField matchCode)

/-- A 16-bit value in little-endian order. -/
def le16 (n : Nat) : List UInt8 := [UInt8.ofNat (n % 256), UInt8.ofNat (n / 256)]

namespace Sequence

/-- The match length as it is stored: the minimum of 4 is implicit. -/
def matchCode (s : Sequence) : Nat := s.matchLength - 4

def encode (s : Sequence) : List UInt8 :=
  token s.literals.length s.matchCode ::
    (lengthBytes s.literals.length ++
      (s.literals ++ (le16 s.offset ++ lengthBytes s.matchCode)))

end Sequence

/-- The final literals; the match field of their token has no meaning. -/
def encodeLast (literals : List UInt8) (field : Nat) : List UInt8 :=
  UInt8.ofNat (16 * lengthField literals.length + field) ::
    (lengthBytes literals.length ++ literals)

/-- A block: sequences, then literals only. -/
structure Block where
  sequences : List Sequence
  lastLiterals : List UInt8
  /-- the match field of the last token, which decoders ignore -/
  lastField : Nat := 0
  deriving Repr, DecidableEq

def encodeSequences (sequences : List Sequence) : List UInt8 :=
  sequences.flatMap Sequence.encode

def Block.encode (b : Block) : List UInt8 :=
  encodeSequences b.sequences ++ encodeLast b.lastLiterals b.lastField

/-! ## Reference interpretation -/

/-- The byte `offset` positions before the end; offset `0` stands for a zero. -/
def copyByte (buf : List UInt8) (offset : Nat) : UInt8 :=
  if offset = 0 then 0 else buf.getD (buf.length - offset) 0

/-- Append `n` bytes, each copied from `offset` positions before the end. -/
def copyMatch (buf : List UInt8) (offset : Nat) : Nat → List UInt8
  | 0 => buf
  | n + 1 => copyMatch (buf ++ [copyByte buf offset]) offset n

/-- One sequence appended to everything decoded so far. -/
def Sequence.apply (buf : List UInt8) (s : Sequence) : List UInt8 :=
  copyMatch (buf ++ s.literals) s.offset s.matchLength

/-- What a block decodes to after `history`. -/
def Block.decode (history : List UInt8) (b : Block) : List UInt8 :=
  (b.sequences.foldl Sequence.apply history ++ b.lastLiterals).drop history.length

/-- Number of bytes a list of sequences produces. -/
def decodedLength (sequences : List Sequence) : Nat :=
  (sequences.map fun s => s.literals.length + s.matchLength).sum

/-! ## Well-formedness -/

/-- Matches have at least four bytes, offsets fit in 16 bits, and no offset
reaches further back than the `n` bytes known before the sequences plus what
they have produced so far. -/
def Reaches : Nat → List Sequence → Prop
  | _, [] => True
  | n, s :: rest =>
    4 ≤ s.matchLength ∧ s.offset < 65536 ∧ s.offset ≤ n + s.literals.length ∧
      Reaches (n + s.literals.length + s.matchLength) rest

/-- A block that respects the format after `history`, the three end-of-block
conditions included.  The empty block is the single byte `0`. -/
structure Block.Conforming (history : List UInt8) (b : Block) : Prop where
  reaches : Reaches history.length b.sequences
  offset_pos : ∀ s ∈ b.sequences, 1 ≤ s.offset
  lastField_lt : b.lastField < 16
  empty : b.sequences = [] → b.lastLiterals = [] → b.lastField = 0
  lastFive : b.sequences ≠ [] → 5 ≤ b.lastLiterals.length
  lastMatch : ∀ s, b.sequences.getLast? = some s → 12 ≤ s.matchLength + b.lastLiterals.length

instance decidableReaches : ∀ n sequences, Decidable (Reaches n sequences)
  | _, [] => inferInstanceAs (Decidable True)
  | n, s :: rest =>
    have := decidableReaches (n + s.literals.length + s.matchLength) rest
    inferInstanceAs (Decidable (4 ≤ s.matchLength ∧ s.offset < 65536 ∧
      s.offset ≤ n + s.literals.length ∧
        Reaches (n + s.literals.length + s.matchLength) rest))

/-! ## Sizes -/

theorem length_lengthBytes (n : Nat) : (lengthBytes n).length = (n + 240) / 255 := by
  unfold lengthBytes
  split
  · rw [List.length_nil]; omega
  · rw [List.length_append, List.length_replicate, List.length_singleton]; omega

theorem length_encode (s : Sequence) :
    s.encode.length = 3 + (s.literals.length + 240) / 255 + s.literals.length +
      (s.matchCode + 240) / 255 := by
  simp only [Sequence.encode, List.length_cons, List.length_append, length_lengthBytes, le16,
    List.length_nil]
  omega

theorem length_encodeLast (literals : List UInt8) (field : Nat) :
    (encodeLast literals field).length = 1 + (literals.length + 240) / 255 + literals.length := by
  simp only [encodeLast, List.length_cons, List.length_append, length_lengthBytes]
  omega

@[simp] theorem encodeSequences_nil : encodeSequences [] = [] := rfl

@[simp] theorem encodeSequences_cons (s : Sequence) (rest : List Sequence) :
    encodeSequences (s :: rest) = s.encode ++ encodeSequences rest := rfl

theorem encodeSequences_append (xs ys : List Sequence) :
    encodeSequences (xs ++ ys) = encodeSequences xs ++ encodeSequences ys := by
  simp [encodeSequences]

@[simp] theorem decodedLength_nil : decodedLength [] = 0 := rfl

@[simp] theorem decodedLength_cons (s : Sequence) (rest : List Sequence) :
    decodedLength (s :: rest) = s.literals.length + s.matchLength + decodedLength rest := by
  simp [decodedLength]

theorem decodedLength_append (xs ys : List Sequence) :
    decodedLength (xs ++ ys) = decodedLength xs + decodedLength ys := by
  simp [decodedLength]

@[simp] theorem length_copyMatch (buf : List UInt8) (offset n : Nat) :
    (copyMatch buf offset n).length = buf.length + n := by
  induction n generalizing buf with
  | zero => rfl
  | succ n ih =>
    rw [copyMatch, ih, List.length_append, List.length_singleton]
    omega

@[simp] theorem length_apply (buf : List UInt8) (s : Sequence) :
    (s.apply buf).length = buf.length + (s.literals.length + s.matchLength) := by
  simp only [Sequence.apply, length_copyMatch, List.length_append]
  omega

theorem length_foldl_apply (buf : List UInt8) (sequences : List Sequence) :
    (sequences.foldl Sequence.apply buf).length = buf.length + decodedLength sequences := by
  induction sequences generalizing buf with
  | nil => simp
  | cons s rest ih =>
    rw [List.foldl_cons, ih, length_apply, decodedLength_cons]
    omega

theorem length_decode (history : List UInt8) (b : Block) :
    (b.decode history).length = decodedLength b.sequences + b.lastLiterals.length := by
  rw [Block.decode, List.length_drop, List.length_append, length_foldl_apply]
  omega

theorem isPrefix_copyMatch (buf : List UInt8) (offset n : Nat) :
    buf <+: copyMatch buf offset n := by
  induction n generalizing buf with
  | zero => exact List.prefix_rfl
  | succ n ih => exact (List.prefix_append buf _).trans (ih _)

theorem copyMatch_add (buf : List UInt8) (offset a b : Nat) :
    copyMatch buf offset (a + b) = copyMatch (copyMatch buf offset a) offset b := by
  induction a generalizing buf with
  | zero => rw [Nat.zero_add, copyMatch]
  | succ a ih => rw [Nat.succ_add, copyMatch, copyMatch, ih]

/-- A match that is cut. -/
theorem copyMatch_of_le (buf : List UInt8) (offset : Nat) {a b : Nat} (h : a ≤ b) :
    copyMatch buf offset a = (copyMatch buf offset b).take (buf.length + a) := by
  obtain ⟨more, hmore⟩ := isPrefix_copyMatch (copyMatch buf offset a) offset (b - a)
  rw [← copyMatch_add, Nat.add_sub_cancel' h] at hmore
  rw [← hmore, ← length_copyMatch buf offset a, List.take_left]

theorem isPrefix_foldl_apply (buf : List UInt8) (sequences : List Sequence) :
    buf <+: sequences.foldl Sequence.apply buf := by
  induction sequences generalizing buf with
  | nil => exact List.prefix_rfl
  | cons s rest ih =>
    have happly : buf <+: s.apply buf :=
      (List.prefix_append buf s.literals).trans (isPrefix_copyMatch _ _ _)
    exact happly.trans (ih _)

/-- Decoding only appends. -/
theorem append_decode (history : List UInt8) (b : Block) :
    history ++ b.decode history =
      b.sequences.foldl Sequence.apply history ++ b.lastLiterals := by
  obtain ⟨more, hmore⟩ := isPrefix_foldl_apply history b.sequences
  rw [Block.decode, ← hmore, List.append_assoc, List.drop_left]

/-! ## The bytes of a match -/

variable {buf : List UInt8} {i : Nat}

theorem getD_copyMatch_lt (offset n : Nat) (hi : i < buf.length) :
    (copyMatch buf offset n).getD i 0 = buf.getD i 0 := by
  induction n generalizing buf with
  | zero => rfl
  | succ n ih =>
    rw [copyMatch, ih (by rw [List.length_append]; omega), List.getD_append _ _ _ _ hi]

variable {n offset : Nat}

/-- A byte of a match equals the byte `offset` positions before it, overlapping or
not; the bytes of a match at offset `0` are zero. -/
theorem getD_copyMatch (hlow : buf.length ≤ i) (hhigh : i < buf.length + n)
    (hoffset : offset ≤ buf.length) :
    (copyMatch buf offset n).getD i 0 = if offset =
      0 then 0 else (copyMatch buf offset n).getD (i - offset) 0 := by
  induction n generalizing buf with
  | zero => omega
  | succ n ih =>
    rw [copyMatch]
    have hlength : (buf ++ [copyByte buf offset]).length = buf.length + 1 := by simp
    rcases Nat.eq_or_lt_of_le hlow with heq | hlt
    · -- the byte just appended
      have hnew : (buf ++ [copyByte buf offset]).getD buf.length 0 = copyByte buf offset := by
        rw [List.getD_append_right _ _ _ _ (Nat.le_refl _), Nat.sub_self, List.getD_cons_zero]
      rw [← heq, getD_copyMatch_lt _ _ (by omega), hnew, copyByte]
      split
      · rfl
      · rw [getD_copyMatch_lt _ _ (by rw [List.length_append, List.length_singleton]; omega),
          List.getD_append _ _ _ _ (by omega)]
    · exact ih (by omega) (by omega) (by omega)

/-! ## Unused history -/

variable {sequences : List Sequence} {n' : Nat}

theorem Reaches.mono (h : Reaches n sequences) (hn : n ≤ n') : Reaches n' sequences := by
  induction sequences generalizing n n' with
  | nil => trivial
  | cons s rest ih =>
    obtain ⟨hlength, hoffset, hreach, hrest⟩ := h
    exact ⟨hlength, hoffset, by omega, ih hrest (by omega)⟩

theorem copyMatch_append_left (junk : List UInt8) (n : Nat) (hoffset : offset ≤ buf.length) :
    copyMatch (junk ++ buf) offset n = junk ++ copyMatch buf offset n := by
  induction n generalizing buf with
  | zero => rfl
  | succ n ih =>
    have hbyte : copyByte (junk ++ buf) offset = copyByte buf offset := by
      unfold copyByte
      split
      · rfl
      · rw [List.length_append, List.getD_append_right _ _ _ _ (by omega)]
        congr 1
        omega
    rw [copyMatch, copyMatch, hbyte, List.append_assoc, ih (by rw [List.length_append]; omega)]

theorem foldl_apply_append_left (junk : List UInt8) (h : Reaches buf.length sequences) :
    sequences.foldl Sequence.apply (junk ++ buf) = junk ++ sequences.foldl Sequence.apply buf := by
  induction sequences generalizing buf with
  | nil => rfl
  | cons s rest ih =>
    obtain ⟨-, -, hreach, hrest⟩ := h
    have happly : s.apply (junk ++ buf) = junk ++ s.apply buf := by
      unfold Sequence.apply
      rw [List.append_assoc, copyMatch_append_left _ _ (by rw [List.length_append]; omega)]
    rw [List.foldl_cons, List.foldl_cons, happly]
    refine ih ?_
    rw [length_apply, ← Nat.add_assoc]
    exact hrest

variable {history : List UInt8} {b : Block}

/-- Bytes before the history a block was made for do not change what it stands for. -/
theorem decode_append_left (junk : List UInt8) (h : Reaches history.length b.sequences) :
    b.decode (junk ++ history) = b.decode history := by
  have hjunk := append_decode (junk ++ history) b
  rw [foldl_apply_append_left junk h, List.append_assoc, List.append_assoc,
    ← append_decode history b] at hjunk
  exact List.append_cancel_left (List.append_cancel_left hjunk)

theorem Block.Conforming.append_left (junk : List UInt8) (conforming : b.Conforming history) :
    b.Conforming (junk ++ history) :=
  { conforming with
    reaches := conforming.reaches.mono (by rw [List.length_append]; omega) }

/-- Offsets have 16 bits, so 64 KB of history are enough. -/
theorem Reaches.window (h : Reaches n sequences) (hn : n ≤ n' ∨ 65535 ≤ n') :
    Reaches n' sequences := by
  induction sequences generalizing n n' with
  | nil => trivial
  | cons s rest ih =>
    obtain ⟨hlength, hoffset, hreach, hrest⟩ := h
    exact ⟨hlength, hoffset, by omega, ih hrest (by omega)⟩

/-- The last 64 KB. -/
def recent (history : List UInt8) : List UInt8 := history.drop (history.length - 65536)

theorem take_append_recent (history : List UInt8) :
    history.take (history.length - 65536) ++ recent history = history :=
  List.take_append_drop _ _

theorem length_recent (history : List UInt8) :
    (recent history).length = min history.length 65536 := by
  rw [recent, List.length_drop]
  omega

/-- A block refers to the last 64 KB of its history only. -/
theorem Block.Conforming.recent (conforming : b.Conforming history) :
    b.Conforming (recent history) :=
  { conforming with
    reaches := conforming.reaches.window (by rw [length_recent]; omega) }

theorem decode_recent (conforming : b.Conforming history) :
    b.decode (recent history) = b.decode history := by
  have h := decode_append_left (history.take (history.length - 65536))
    conforming.recent.reaches
  rw [take_append_recent] at h
  exact h.symm

/-! ## Lists of sequences -/

theorem reaches_append (n : Nat) (xs ys : List Sequence) :
    Reaches n (xs ++ ys) ↔ Reaches n xs ∧ Reaches (n + decodedLength xs) ys := by
  induction xs generalizing n with
  | nil => simp [Reaches]
  | cons s rest ih =>
    have hshift : n + s.literals.length + s.matchLength + decodedLength rest =
        n + (s.literals.length + s.matchLength + decodedLength rest) := by omega
    simp only [List.cons_append, Reaches, ih, decodedLength_cons, hshift]
    tauto

/-! ## Expansion -/

theorem length_encodeSequences_le (h : Reaches n sequences) :
    (encodeSequences sequences).length ≤ 2 * decodedLength sequences := by
  induction sequences generalizing n with
  | nil => simp
  | cons s rest ih =>
    obtain ⟨hfour, -, -, hrest⟩ := h
    have hmatch : s.matchCode = s.matchLength - 4 := rfl
    have hrestLe := ih hrest
    rw [encodeSequences_cons, List.length_append, length_encode, decodedLength_cons]
    omega

/-- Encoding does not double the size, except for the empty block. -/
theorem Block.Conforming.length_encode_le (conforming : b.Conforming history)
    (hne : b.decode history ≠ []) : b.encode.length ≤ 2 * (b.decode history).length := by
  have hsequences := length_encodeSequences_le conforming.reaches
  have hpos := List.length_pos_iff.mpr hne
  rw [length_decode] at hpos ⊢
  have hlast : 0 < b.lastLiterals.length := by
    by_cases hnone : b.sequences = []
    · rw [hnone, decodedLength_nil] at hpos
      omega
    · have := conforming.lastFive hnone
      omega
  rw [Block.encode, List.length_append, length_encodeLast]
  omega

end Lz4
