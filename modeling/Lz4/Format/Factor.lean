import Lz4.Format.Block

/-!
# Factorisations of a text

What a compressor has to find, independently of how it does so: a text is split into
runs of literals and matches, where a match says that the text repeats itself at some
distance.  `Factors` is such a split of a part of the text, built from the front, and
`Factors.decode` says that the block made of it stands for that part.
-/

namespace Lz4

/-- From `pos` on, `length` bytes of the text are those `offset` positions before them. -/
structure Repeats (text : List UInt8) (pos offset length : Nat) : Prop where
  offset_pos : 1 ≤ offset
  offset_le : offset ≤ pos
  length_le : pos + length ≤ text.length
  eq : ∀ i, i < length → text.getD (pos + i) 0 = text.getD (pos + i - offset) 0

namespace Repeats

variable {text : List UInt8} {pos offset length : Nat}

theorem mono (h : Repeats text pos offset length) {n : Nat} (hn : n ≤ length) :
    Repeats text pos offset n where
  offset_pos := h.offset_pos
  offset_le := h.offset_le
  length_le := Nat.le_trans (by omega) h.length_le
  eq i hi := h.eq i (by omega)

/-- Copying repeats the text. -/
theorem copyMatch_take (h : Repeats text pos offset length) :
    copyMatch (text.take pos) offset length = text.take (pos + length) := by
  induction length generalizing pos with
  | zero => rfl
  | succ n ih =>
    obtain ⟨hpos, hle, hlength, heq⟩ := h
    have hbyte : copyByte (text.take pos) offset = text.getD pos 0 := by
      have hcopy := heq 0 (by omega)
      rw [Nat.add_zero] at hcopy
      rw [copyByte, if_neg (by omega), List.length_take, Nat.min_eq_left (by omega),
        List.getD_eq_getElem?_getD, List.getElem?_take_of_lt (by omega), hcopy,
        List.getD_eq_getElem?_getD]
    have hnext : text.take pos ++ [text.getD pos 0] = text.take (pos + 1) := by
      rw [List.getD_eq_getElem _ _ (by omega), List.take_append_getElem (by omega)]
    rw [copyMatch, hbyte, hnext, ih, show pos + 1 + n = pos + (n + 1) by omega]
    refine ⟨hpos, by omega, by omega, fun i hi => ?_⟩
    have := heq (i + 1) (by omega)
    rw [show pos + 1 + i = pos + (i + 1) by omega]
    exact this

end Repeats

/-- The sequences describe the text from `start` to `stop`. -/
inductive Factors (text : List UInt8) (start : Nat) : List Sequence → Nat → Prop
  | nil : Factors text start [] start
  | snoc {seqs : List Sequence} {stop : Nat} (factors : Factors text start seqs stop)
      (litLength offset matchLength : Nat) (hmatch : 4 ≤ matchLength) (hoffset : offset < 65536)
      (hrepeats : Repeats text (stop + litLength) offset matchLength) :
      Factors text start
        (seqs ++ [⟨(text.drop stop).take litLength, offset, matchLength⟩])
        (stop + litLength + matchLength)

namespace Factors

variable {text : List UInt8} {start stop : Nat} {seqs : List Sequence}

theorem length_literals {litLength : Nat} (h : stop + litLength ≤ text.length) :
    ((text.drop stop).take litLength).length = litLength := by
  rw [List.length_take, List.length_drop]
  omega

section

variable (factors : Factors text start seqs stop)

include factors

theorem decodedLength_eq : start + decodedLength seqs = stop := by
  induction factors with
  | nil => rfl
  | snoc _ litLength _ matchLength _ _ hrepeats ih =>
    have := hrepeats.length_le
    rw [decodedLength_append, decodedLength_cons, decodedLength_nil, length_literals (by omega)]
    dsimp only
    omega

theorem foldl_apply : seqs.foldl Sequence.apply (text.take start) = text.take stop := by
  induction factors with
  | nil => rfl
  | @snoc seqs stop _ litLength offset matchLength _ _ hrepeats ih =>
    rw [List.foldl_append, ih, List.foldl_cons, List.foldl_nil, Sequence.apply]
    have hlits : text.take stop ++ (text.drop stop).take litLength =
        text.take (stop + litLength) := List.take_add.symm
    rw [hlits, hrepeats.copyMatch_take]

theorem reaches : Reaches start seqs := by
  induction factors with
  | nil => trivial
  | snoc factors litLength offset matchLength hmatch hoffset hrepeats ih =>
    have hlength := hrepeats.length_le
    have hle := hrepeats.offset_le
    rw [reaches_append, factors.decodedLength_eq]
    refine ⟨ih, hmatch, hoffset, ?_, trivial⟩
    rw [length_literals (by omega)]
    exact hle

theorem offset_pos : ∀ s ∈ seqs, 1 ≤ s.offset := by
  induction factors with
  | nil => exact fun s hs => absurd hs List.not_mem_nil
  | snoc _ _ _ _ _ _ hrepeats ih =>
    intro s hs
    rcases List.mem_append.mp hs with hs | hs
    · exact ih s hs
    · rw [List.mem_singleton.mp hs]
      exact hrepeats.offset_pos

/-- A block made of a factorisation and the literals behind it stands for the text. -/
theorem decode (hstart : start ≤ text.length) (lastRun : Nat) :
    Block.decode (text.take start) ⟨seqs, (text.drop stop).take lastRun, 0⟩ =
      (text.drop start).take (stop - start + lastRun) := by
  have hle := factors.decodedLength_eq
  have hlength : (text.take start).length = start := by
    rw [List.length_take]
    omega
  rw [Block.decode, factors.foldl_apply, hlength]
  have hlits : text.take stop ++ (text.drop stop).take lastRun = text.take (stop + lastRun) :=
    List.take_add.symm
  rw [hlits, List.drop_take]
  congr 1
  omega

/-- The block respects the format if the end-of-block conditions hold for its last match. -/
theorem conforming (hstart : start ≤ text.length) {lastRun : Nat}
    (hrun : stop + lastRun ≤ text.length) (hfive : seqs ≠ [] → 5 ≤ lastRun)
    (hlast : ∀ s, seqs.getLast? = some s → 12 ≤ s.matchLength + lastRun) :
    Block.Conforming (text.take start) ⟨seqs, (text.drop stop).take lastRun, 0⟩ where
  reaches := by
    rw [List.length_take, Nat.min_eq_left hstart]
    exact factors.reaches
  offset_pos := factors.offset_pos
  lastField_lt := (by decide : 0 < 16)
  empty _ _ := rfl
  lastFive hne := by
    rw [length_literals hrun]
    exact hfive hne
  lastMatch s hs := by
    rw [length_literals hrun]
    exact hlast s hs

end

end Factors

end Lz4
