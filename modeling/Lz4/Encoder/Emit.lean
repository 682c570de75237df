import Lz4.Encoder.Generic

/-!
# Writing a sequence

What the compressor writes for a sequence is its encoding.  The token is written
twice: the literals leave their half of it, with the literals behind (`OpenToken`), and
the match adds the other half.  The helpers write beyond what they leave: up to eight bytes
behind the literals, and up to three behind the length of a match.

For every step there is one lemma on what it writes and one on where (`Within`).
-/

namespace Lz4.Encoder

open FlatMemory

/-- Writes stay between `lo` and `hi`. -/
def Within (lo hi : Int) (a : Access) : Prop :=
  a.port = .output → lo ≤ a.lo ∧ a.lo + a.len ≤ hi

theorem within_downward (lo hi : Int) : Downward (Within lo hi) := by
  intro port a a' n n' hlow hhigh h hport
  have := h hport
  dsimp only at this ⊢
  omega

variable {a lo hi : Int} {n : Nat}

theorem within_read : Within lo hi ⟨.input, a, n⟩ := by
  intro hport
  exact absurd hport (by simp)

theorem within_write (hlow : lo ≤ a) (hhigh : a + n ≤ hi) :
    Within lo hi ⟨.output, a, n⟩ := fun _ => ⟨hlow, hhigh⟩

/-- Memory that no write was allowed to reach is as it was. -/
theorem frame_of_within {m₀ : Mem} {h : Heap} (hlog : h.Logged (Within lo hi) m₀)
    (ha : a < lo ∨ hi ≤ a) : h.mem a = m₀ a := by
  refine hlog.2 a fun lo' len hin => ?_
  have := hin rfl
  dsimp only at this
  omega

variable {literals : List UInt8} {m m' : Mem} {matchCode offset : Nat} {token op : Int}

section

variable {lo hi : Int} {m₀ : Mem} {h : Heap} {token op : Int} {length : Nat}

/-! ## Lengths -/

theorem writeLength_snd (h : Heap) (op : Int) (rest : UInt8) (n : Nat) :
    (writeLength h op rest n).2 = op + n + 1 := by
  induction n generalizing h op with
  | zero => simp [writeLength]
  | succ n ih =>
    rw [writeLength, ih]
    omega

theorem writeLength_frame (h : Heap) (op : Int) (rest : UInt8) (n : Nat)
    (ha : a < op ∨ op + n + 1 ≤ a) : (writeLength h op rest n).1.mem a = h.mem a := by
  induction n generalizing h op with
  | zero =>
    refine Mem.store_outside ?_
    rw [List.length_singleton]
    omega
  | succ n ih =>
    rw [writeLength, ih _ _ (by push_cast at ha; omega)]
    refine Mem.store_outside ?_
    rw [List.length_singleton]
    omega

theorem writeLength_holds (h : Heap) (op : Int) (rest : UInt8) (n : Nat) :
    (writeLength h op rest n).1.mem.Holds op (List.replicate n 255 ++ [rest]) := by
  induction n generalizing h op with
  | zero => exact Mem.holds_store _ _ _
  | succ n ih =>
    rw [List.replicate_succ, List.cons_append, Mem.holds_cons]
    refine ⟨?_, ih _ _⟩
    rw [writeLength, writeLength_frame _ _ _ _ (Or.inl (by omega))]
    exact Mem.store_singleton _ _ _

theorem writeLength_logged (rest : UInt8) (n : Nat) (hlow : lo ≤ op) (hhigh : op + n + 1 ≤ hi)
    (hlog : h.Logged (Within lo hi) m₀) : (writeLength h op rest n).1.Logged (Within lo hi) m₀ := by
  induction n generalizing h op with
  | zero => exact Heap.logged_store (within_write hlow (by simpa using hhigh)) hlog
  | succ n ih =>
    refine ih (by omega) (by omega) (Heap.logged_store (within_write hlow ?_) hlog)
    rw [List.length_singleton]
    omega

theorem ofNat_shift_four : UInt8.ofNat (n <<< 4) = UInt8.ofNat (16 * n) := by
  rw [Nat.shiftLeft_eq, Nat.mul_comm]

theorem writeRun_snd (h : Heap) (token : Int) (length : Nat) :
    (writeRun h token (token + 1) length).2 = token + 1 + (lengthBytes length).length := by
  rw [length_lengthBytes, writeRun]
  split
  · rw [writeLength_snd]
    omega
  · omega

theorem writeRun_frame (h : Heap) (token : Int) (length : Nat)
    (ha : a < token ∨ token + 1 + (lengthBytes length).length ≤ a) :
    (writeRun h token (token + 1) length).1.mem a = h.mem a := by
  rw [length_lengthBytes] at ha
  rw [writeRun]
  split
  · rw [writeLength_frame _ _ _ _ (by omega)]
    refine Mem.store_outside ?_
    rw [List.length_singleton]
    omega
  · refine Mem.store_outside ?_
    rw [List.length_singleton]
    omega

/-- The token with the literal length in its upper half, and the length bytes. -/
theorem writeRun_holds (h : Heap) (token : Int) (length : Nat) :
    (writeRun h token (token + 1) length).1.mem token = UInt8.ofNat (16 * lengthField length) ∧
      (writeRun h token (token + 1) length).1.mem.Holds (token + 1) (lengthBytes length) := by
  rw [writeRun, lengthBytes, lengthField]
  split
  · rename_i hlong
    refine ⟨?_, ?_⟩
    · rw [writeLength_frame _ _ _ _ (Or.inl (by omega)), Nat.min_eq_right hlong]
      exact Mem.store_singleton _ _ _
    · rw [if_neg (by omega)]
      exact writeLength_holds _ _ _ _
  · dsimp only
    refine ⟨?_, ?_⟩
    · rw [Nat.min_eq_left (by omega), ← ofNat_shift_four]
      exact Mem.store_singleton _ _ _
    · rw [if_pos (by omega)]
      exact Mem.holds_nil _ _

theorem writeRun_logged (length : Nat) (hlow : lo ≤ token)
    (hhigh : token + 1 + (lengthBytes length).length ≤ hi) (hlog : h.Logged (Within lo hi) m₀) :
    (writeRun h token (token + 1) length).1.Logged (Within lo hi) m₀ := by
  rw [length_lengthBytes] at hhigh
  have htoken (b : UInt8) : (h.store token [b]).Logged (Within lo hi) m₀ := by
    refine Heap.logged_store (within_write hlow ?_) hlog
    rw [List.length_singleton]
    omega
  rw [writeRun]
  split
  · exact writeLength_logged _ _ (by omega) (by omega) (htoken _)
  · exact htoken _

/-! ## Literals -/

/-- A token with the literal length in it, followed by the literals. -/
structure OpenToken (m : Mem) (token op : Int) (literals : List UInt8) : Prop where
  token_eq : m token = UInt8.ofNat (16 * lengthField literals.length)
  holds : m.Holds (token + 1) (lengthBytes literals.length ++ literals)
  op_eq : op = token + 1 + (lengthBytes literals.length).length + literals.length

/-- The token that a match without literals starts with. -/
theorem openToken_nil (m : Mem) (token : Int) : OpenToken (m.store token [0]) token (token + 1) [] where
  token_eq := Mem.store_singleton _ _ _
  holds := Mem.holds_nil _ _
  op_eq := by simp [length_lengthBytes]

variable {e : Env} {anchor ip op' : Int} {h' : Heap}

theorem encodeLiterals_fail (hfail : encodeLiterals e h anchor ip token = .fail) :
    e.outputDirective = .limitedOutput := by
  unfold encodeLiterals at hfail
  dsimp only at hfail
  split at hfail
  · rename_i hlimited
    exact hlimited.1
  · split at hfail
    · exact absurd hfail (by simp)
    · exact absurd hfail (by simp)

/-- The literals were written because they fit. -/
theorem encodeLiterals_room (hwritten : encodeLiterals e h anchor ip token = .written h' op') :
    (e.outputDirective = .limitedOutput →
      token + 1 + (ip - anchor).toNat + 8 + ((ip - anchor).toNat / 255 : Nat) ≤ e.olimit) ∧
    (e.outputDirective = .fillOutput →
      token + 1 + (((ip - anchor).toNat + 240) / 255 : Nat) + (ip - anchor).toNat + 11 ≤
        e.olimit) := by
  unfold encodeLiterals at hwritten
  dsimp only at hwritten
  split at hwritten
  · exact absurd hwritten (by simp)
  · rename_i hlimited
    split at hwritten
    · exact absurd hwritten (by simp)
    · rename_i hfill
      refine ⟨fun hdir => ?_, fun hdir => ?_⟩
      · have hfits := not_and.mp hlimited hdir
        omega
      · have hfits := not_and.mp hfill hdir
        omega

/-- The literals from `anchor` to `ip` with their token and their length. -/
def writeLiterals (h : Heap) (token anchor ip : Int) : Heap × Int :=
  let litLength := (ip - anchor).toNat
  let (h, op) := writeRun h token (token + 1) litLength
  (wildCopy8 .input h op anchor (op + litLength), op + litLength)

theorem writeLiterals_snd (h : Heap) (token anchor ip : Int) :
    (writeLiterals h token anchor ip).2 =
      token + 1 + (((ip - anchor).toNat + 240) / 255 : Nat) + (ip - anchor).toNat := by
  simp only [writeLiterals]
  rw [writeRun_snd, length_lengthBytes]

theorem writeLiterals_logged (hlow : lo ≤ token)
    (hhigh : max ((writeLiterals h token anchor ip).2 - (ip - anchor).toNat + 8)
      ((writeLiterals h token anchor ip).2 + 7) ≤ hi)
    (hlog : h.Logged (Within lo hi) m₀) :
    (writeLiterals h token anchor ip).1.Logged (Within lo hi) m₀ := by
  have hop := writeLiterals_snd h token anchor ip
  have hsnd := writeRun_snd h token (ip - anchor).toNat
  rw [length_lengthBytes] at hsnd
  have hrun := writeRun_logged (ip - anchor).toNat hlow (by rw [length_lengthBytes]; omega) hlog
  simp only [writeLiterals]
  exact wildCopy8_logged (n := (hi - (writeRun h token (token + 1) (ip - anchor).toNat).2).toNat)
    (within_downward lo hi) (by omega) hrun within_read (within_write (by omega) (by omega))

/-- Copying the literals behind their length leaves an open token, if they stand apart. -/
theorem openToken_of_copied {limit : Int}
    (hcopied : LiteralsCopied (writeRun h token (token + 1) length).1.mem m'
      (writeRun h token (token + 1) length).2 anchor length limit)
    (hapart : anchor + length ≤ token ∨ (writeRun h token (token + 1) length).2 + length ≤ anchor) :
    OpenToken m' token ((writeRun h token (token + 1) length).2 + length)
      (h.mem.bytes anchor length) := by
  have hsnd := writeRun_snd h token length
  obtain ⟨htoken, hbytes⟩ := writeRun_holds h token length
  refine ⟨?_, ?_, ?_⟩
  · rw [hcopied.frame token (by omega), htoken, Mem.length_bytes]
  · rw [Mem.length_bytes, Mem.holds_append]
    refine ⟨hbytes.congr fun x hlow hhigh => ?_, ?_⟩
    · exact (hcopied.frame x (by omega)).symm
    · refine Mem.bytes_eq_of_forall fun i hi => ?_
      rw [Mem.length_bytes] at hi
      rw [Mem.getD_bytes _ _ hi, ← hsnd, hcopied.copied _ (by omega) (by omega),
        writeRun_frame _ _ _ (by omega)]
      congr 1
      omega
  · rw [Mem.length_bytes]
    omega

/-- Last literals are an open token. -/
theorem OpenToken.holds_last (hopen : OpenToken m token op literals) :
    m.Holds token (encodeLast literals 0) := by
  rw [encodeLast, Mem.holds_cons]
  exact ⟨hopen.token_eq, hopen.holds⟩

/-- If input and output are apart, the token is open and the literals are in place. -/
theorem writeLiterals_open
    (hapart : anchor + (ip - anchor).toNat + 8 ≤ token ∨
      (writeLiterals h token anchor ip).2 ≤ anchor) :
    OpenToken (writeLiterals h token anchor ip).1.mem token (writeLiterals h token anchor ip).2
        (h.mem.bytes anchor (ip - anchor).toNat) ∧
      ∀ a, a < token → (writeLiterals h token anchor ip).1.mem a = h.mem a := by
  simp only [writeLiterals] at hapart ⊢
  have hsnd := writeRun_snd h token (ip - anchor).toNat
  have hcopied := literalsCopied_wildCopy8 (writeRun h token (token + 1) (ip - anchor).toNat).1
    (writeRun h token (token + 1) (ip - anchor).toNat).2 anchor (ip - anchor).toNat (by omega)
  refine ⟨openToken_of_copied hcopied (by omega), fun a ha => ?_⟩
  rw [hcopied.frame a (by omega), writeRun_frame _ _ _ (by omega)]

section

variable (hwritten : encodeLiterals e h anchor ip token = .written h' op')

include hwritten

theorem encodeLiterals_eq :
    h' = (writeLiterals h token anchor ip).1 ∧ op' = (writeLiterals h token anchor ip).2 := by
  unfold encodeLiterals at hwritten
  dsimp only at hwritten
  split at hwritten
  · exact absurd hwritten (by simp)
  · split at hwritten
    · exact absurd hwritten (by simp)
    · obtain ⟨rfl, rfl⟩ := Literals.written.inj hwritten
      exact ⟨rfl, rfl⟩

theorem encodeLiterals_op :
    op' = token + 1 + (((ip - anchor).toNat + 240) / 255 : Nat) + (ip - anchor).toNat := by
  rw [(encodeLiterals_eq hwritten).2, writeLiterals_snd]

theorem encodeLiterals_logged (hlow : lo ≤ token)
    (hhigh : max (op' - (ip - anchor).toNat + 8) (op' + 7) ≤ hi) (hlog : h.Logged (Within lo hi) m₀)
    :
    h'.Logged (Within lo hi) m₀ := by
  obtain ⟨rfl, rfl⟩ := encodeLiterals_eq hwritten
  exact writeLiterals_logged hlow hhigh hlog

theorem encodeLiterals_open (hapart : anchor + (ip - anchor).toNat + 8 ≤ token ∨ op' ≤ anchor) :
    OpenToken h'.mem token op' (h.mem.bytes anchor (ip - anchor).toNat) ∧ ∀ a, a < token →
      h'.mem a = h.mem a := by
  obtain ⟨rfl, rfl⟩ := encodeLiterals_eq hwritten
  exact writeLiterals_open hapart

end

/-! ## Matches -/

theorem writeOnes_frame (h : Heap) (op : Int) (n : Nat) (ha : a < op ∨ op + 4 * n + 4 ≤ a) :
    (writeOnes h op n).mem a = h.mem a := by
  induction n generalizing h op with
  | zero =>
    refine Mem.store_outside ?_
    simp only [List.length_cons, List.length_nil]
    omega
  | succ n ih =>
    rw [writeOnes, ih _ _ (by push_cast at ha; omega)]
    refine Mem.store_outside ?_
    simp only [List.length_cons, List.length_nil]
    omega

theorem writeOnes_holds (h : Heap) (op : Int) (n : Nat) (hlow : op ≤ a) (hhigh : a < op + 4 * n + 4)
    :
    (writeOnes h op n).mem a = 255 := by
  have hword (h : Heap) (op : Int) (hlow : op ≤ a) (hhigh : a < op + 4) :
      (h.store op [255, 255, 255, 255]).mem a = 255 := by
    obtain ⟨i, hi⟩ : ∃ i : Nat, a = op + i := ⟨(a - op).toNat, by omega⟩
    have hlt : i < 4 := by omega
    rw [Heap.store_mem, hi, Mem.store_inside (by simpa using hlt)]
    interval_cases i <;> rfl
  induction n generalizing h op with
  | zero => exact hword h op hlow (by omega)
  | succ n ih =>
    rw [writeOnes]
    rcases Int.lt_or_le a (op + 4) with hfirst | hrest
    · rw [writeOnes_frame _ _ _ (Or.inl hfirst)]
      exact hword h op hlow hfirst
    · exact ih _ _ hrest (by omega)

theorem writeOnes_logged (hlow : lo ≤ op) (hhigh : op + 4 * n + 4 ≤ hi)
    (hlog : h.Logged (Within lo hi) m₀) : (writeOnes h op n).Logged (Within lo hi) m₀ := by
  induction n generalizing h op with
  | zero =>
    refine Heap.logged_store (within_write hlow ?_) hlog
    simp only [List.length_cons, List.length_nil]
    omega
  | succ n ih =>
    refine ih (by omega) (by omega) (Heap.logged_store (within_write hlow ?_) hlog)
    simp only [List.length_cons, List.length_nil]
    omega

variable {matchCode : Nat}

theorem encodeMatchLength_snd (h : Heap) (token op : Int) (matchCode : Nat) :
    (encodeMatchLength h token op matchCode).2 = op + (lengthBytes matchCode).length := by
  rw [length_lengthBytes, encodeMatchLength]
  split
  · dsimp only
    omega
  · omega

theorem encodeMatchLength_frame (h : Heap) (matchCode : Nat) (htoken : a ≠ token)
    (ha : a < op ∨ op + (lengthBytes matchCode).length + 3 ≤ a) :
    (encodeMatchLength h token op matchCode).1.mem a = h.mem a := by
  rw [length_lengthBytes] at ha
  rw [encodeMatchLength]
  split
  · rw [Heap.store_mem, Mem.store_outside (by rw [List.length_singleton]; omega),
      writeOnes_frame _ _ _ (by omega), Heap.store_mem,
      Mem.store_outside (by rw [List.length_singleton]; omega)]
  · rw [Heap.store_mem, Mem.store_outside (by rw [List.length_singleton]; omega)]

/-- The match length is added to the token, and its bytes are written. -/
theorem encodeMatchLength_holds (h : Heap) (matchCode : Nat) (hop : token < op) :
    (encodeMatchLength h token op matchCode).1.mem token =
      h.mem token + UInt8.ofNat (lengthField matchCode) ∧
      (encodeMatchLength h token op matchCode).1.mem.Holds op (lengthBytes matchCode) := by
  rw [encodeMatchLength, lengthBytes, lengthField]
  split
  · rename_i hlong
    rw [Nat.min_eq_right hlong, if_neg (by omega)]
    refine ⟨?_, ?_⟩
    · rw [Heap.store_mem, Mem.store_outside (by rw [List.length_singleton]; omega),
        writeOnes_frame _ _ _ (by omega)]
      exact Mem.store_singleton _ _ _
    · have hrem : (matchCode - 15) % 255 = (matchCode - 15) % 1020 % 255 := by omega
      rw [Mem.holds_append]
      refine ⟨?_, ?_⟩
      · refine Mem.bytes_eq_of_forall fun i hi => ?_
        rw [List.length_replicate] at hi
        rw [List.getD_replicate _ hi, Heap.store_mem,
          Mem.store_outside (by rw [List.length_singleton]; omega),
          writeOnes_holds _ _ _ (by omega) (by omega)]
      · rw [List.length_replicate, Mem.holds_cons]
        refine ⟨?_, Mem.holds_nil _ _⟩
        have haddr : op + (((matchCode - 15) / 255 : Nat) : Int) =
            op + 4 * (((matchCode - 15) / 1020 : Nat) : Int) +
              ((matchCode - 15) % 1020 / 255 : Nat) := by
          omega
        rw [haddr, hrem]
        exact Mem.store_singleton _ _ _
  · dsimp only
    rw [Nat.min_eq_left (by omega), if_pos (by omega)]
    exact ⟨Mem.store_singleton _ _ _, Mem.holds_nil _ _⟩

theorem encodeMatchLength_logged (hlow : lo ≤ token) (hop : token < op)
    (hhigh : op + (lengthBytes matchCode).length + 3 ≤ hi) (hlog : h.Logged (Within lo hi) m₀) :
    (encodeMatchLength h token op matchCode).1.Logged (Within lo hi) m₀ := by
  rw [length_lengthBytes] at hhigh
  have htoken (b : UInt8) : (h.store token [b]).Logged (Within lo hi) m₀ := by
    refine Heap.logged_store (within_write hlow ?_) hlog
    rw [List.length_singleton]
    omega
  rw [encodeMatchLength]
  split
  · refine Heap.logged_store (within_write ?_ ?_)
      (writeOnes_logged (by omega) (by omega) (htoken _))
    · omega
    · rw [List.length_singleton]
      omega
  · exact htoken _

/-- An open token, the offset and the match length make up a sequence. -/
theorem OpenToken.holds_sequence (hopen : OpenToken m token op literals)
    (hfield : m' token = m token + UInt8.ofNat (lengthField matchCode))
    (hframe : ∀ a, token < a → a < op → m' a = m a) (hoffset : m'.Holds op (le16 offset))
    (hbytes : m'.Holds (op + 2) (lengthBytes matchCode)) :
    m'.Holds token (Sequence.encode ⟨literals, offset, matchCode + 4⟩) := by
  obtain ⟨htoken, hlits, hop⟩ := hopen
  have hencode : Sequence.encode ⟨literals, offset, matchCode + 4⟩ =
      Lz4.token literals.length matchCode :: ((lengthBytes literals.length ++ literals) ++
        (le16 offset ++ lengthBytes matchCode)) := by
    simp [Sequence.encode, Sequence.matchCode]
  have hend : token + 1 + ((lengthBytes literals.length ++ literals).length : Nat) = op := by
    rw [List.length_append]
    omega
  rw [hencode, Mem.holds_cons, Mem.holds_append, hend]
  refine ⟨?_, ?_, Mem.holds_append.mpr ⟨hoffset, hbytes⟩⟩
  · rw [hfield, htoken, Lz4.token, UInt8.ofNat_add]
  · exact hlits.congr fun x hlow hhigh => (hframe x (by omega) (by omega)).symm

theorem OpenToken.length_sequence (hopen : OpenToken m token op literals) :
    token + ((Sequence.encode ⟨literals, offset, matchCode + 4⟩).length : Int) =
      op + 2 + (lengthBytes matchCode).length := by
  have hop := hopen.op_eq
  have hpair : (le16 offset).length = 2 := rfl
  simp only [Sequence.encode, List.length_cons, List.length_append, Sequence.matchCode,
    Nat.add_sub_cancel, hpair]
  omega

theorem encodeMatch_holds (matchCode offset : Nat) (hopen : OpenToken h.mem token op literals) :
    (encodeMatchLength (h.store op (le16 offset)) token (op + 2) matchCode).1.mem.Holds token
      (Sequence.encode ⟨literals, offset, matchCode + 4⟩) := by
  have hop := hopen.op_eq
  have hpair : (le16 offset).length = 2 := rfl
  obtain ⟨hfield, hbytes⟩ := encodeMatchLength_holds (h.store op (le16 offset)) matchCode
    (show token < op + 2 by omega)
  refine hopen.holds_sequence ?_ (fun x hlow hhigh => ?_) ?_ hbytes
  · rw [hfield, Heap.store_mem, Mem.store_outside (by omega)]
  · rw [encodeMatchLength_frame _ _ (by omega) (by omega), Heap.store_mem,
      Mem.store_outside (by omega)]
  · refine (Mem.holds_store h.mem op (le16 offset)).congr fun x hlow hhigh => ?_
    rw [encodeMatchLength_frame _ _ (by omega) (by omega), Heap.store_mem]

end

end Lz4.Encoder
