import Lz4.Encoder.Generic

/-!
# Comparing bytes

`LZ4_count` returns the exact number of bytes in which input and match agree, up to its
limit, although it compares words (`count_spec`).  The backward extension of a match moves
both pointers by the same amount over equal bytes (`catchUp_spec`).
-/

namespace Lz4.Encoder

open FlatMemory

/-- `n` is the number of equal bytes at `p` and `q`, as far as `p` stays below `limit`. -/
structure Agrees (m : Mem) (p q limit : Int) (n : Nat) : Prop where
  le : p + n ≤ max p limit
  eq : ∀ i : Nat, i < n → m (p + i) = m (q + i)
  ne : p + n < limit → m (p + n) ≠ m (q + n)

section

variable {m : Mem} {p q limit : Int} {n : Nat}

/-- Equal bytes are counted. -/
theorem Agrees.ge (h : Agrees m p q limit n) {k : Nat}
    (heq : ∀ i : Nat, i < k → m (p + i) = m (q + i)) (hk : p + k ≤ limit) : k ≤ n := by
  by_contra hlt
  exact h.ne (by omega) (heq n (by omega))

/-- The bytes counted so far: all equal, and not beyond the limit. -/
structure Counted (m : Mem) (p q limit : Int) (n : Nat) : Prop where
  le : p + n ≤ max p limit
  eq : ∀ i : Nat, i < n → m (p + i) = m (q + i)

theorem Counted.add (h : Counted m p q limit n) {k : Nat} (hk : p + n + k ≤ limit)
    (heq : ∀ i : Nat, i < k → m (p + n + i) = m (q + n + i)) : Counted m p q limit (n + k) where
  le := by
    omega
  eq i hi := by
    by_cases hold : i < n
    · exact h.eq i hold
    · have hnew := heq (i - n) (by omega)
      have hcast : ((i - n : Nat) : Int) = i - n := by omega
      rw [hcast] at hnew
      rw [show p + (i : Int) = p + n + (i - n) by omega,
        show q + (i : Int) = q + n + (i - n) by omega]
      exact hnew

theorem countWords_spec {stepSize : Nat} (fuel : Nat) (hstep : 0 < stepSize)
    (h : Counted m p q limit n) (hfuel : limit - (p + n) ≤ fuel) :
    ∃ n' differs, countWords stepSize m limit fuel (p + n) (q + n) n = (n', differs) ∧
      Counted m p q limit n' ∧
      (differs = true → p + n' < limit ∧ m (p + n') ≠ m (q + n')) ∧
      (differs = false → limit - (p + n') < stepSize) := by
  induction fuel generalizing n with
  | zero => exact ⟨n, false, rfl, h, by simp, fun _ => by omega⟩
  | succ fuel ih =>
    rw [countWords]
    split
    · dsimp only
      split
      · -- a whole word agrees
        rename_i hdiff
        have hword := readLE_eq_iff.mp (Nat.xor_eq_zero_iff.mp hdiff)
        have hnext := h.add (k := stepSize) (by omega) fun i hi => (hword i hi).symm
        have hfuel' : limit - (p + ((n + stepSize : Nat) : Int)) ≤ fuel := by
          omega
        obtain ⟨n', differs, hcount, hrest⟩ := ih hnext hfuel'
        refine ⟨n', differs, ?_, hrest⟩
        rw [← hcount]
        push_cast
        rw [Int.add_assoc, Int.add_assoc]
      · -- the first different byte lies in this word
        rename_i hdiff
        obtain ⟨hle, heq, hne⟩ := lowZeroBytes_xor m m (q + n) (p + n) stepSize
        set k := lowZeroBytes stepSize (readLE m (q + n) stepSize ^^^ readLE m (p + n) stepSize)
        have hlt : k < stepSize := by
          by_contra hk
          refine hdiff (Nat.xor_eq_zero_iff.mpr (readLE_eq_iff.mpr fun i hi => ?_))
          exact heq i (by omega)
        have hdiffer := hne hlt
        refine ⟨n + k, true, rfl, h.add (by omega) fun i hi => (heq i hi).symm, fun _ => ?_,
          by simp⟩
        refine ⟨by omega, fun hsame => hdiffer ?_⟩
        rw [Int.add_assoc, Int.add_assoc]
        exact hsame.symm
    · exact ⟨n, false, rfl, h, by simp, fun _ => by omega⟩

/-- The last two comparisons of `LZ4_count`. -/
theorem countTail_spec (h : Counted m p q limit n)
    (hshort : p + n + 4 ≤ limit → ¬ ∀ i : Nat, i < 4 → m (p + n + i) = m (q + n + i)) :
    Agrees m p q limit
      (let n := if p + n < limit - 1 ∧ readLE m (q + n) 2 = readLE m (p + n) 2 then n + 2 else n
      if p + n < limit ∧ m (q + n) = m (p + n) then n + 1 else n) := by
  by_cases htwo : p + n < limit - 1 ∧ readLE m (q + n) 2 = readLE m (p + n) 2
  · have hpair := readLE_eq_iff.mp htwo.2
    have h2 := h.add (k := 2) (by omega) fun i hi => (hpair i hi).symm
    simp only [if_pos htwo]
    by_cases hone : p + ((n + 2 : Nat) : Int) < limit ∧ m (q + (n + 2 : Nat)) = m (p + (n + 2 : Nat))
    · simp only [if_pos hone]
      have h3 := h2.add (k := 1) (by omega) fun i hi => by
        obtain rfl : i = 0 := by omega
        simpa using hone.2.symm
      refine ⟨h3.le, h3.eq, fun hlt hsame => hshort (by omega) fun i hi => ?_⟩
      by_cases hlast : i = 3
      · subst hlast
        simpa [Int.add_assoc] using hsame
      · have := h3.eq (n + i) (by omega)
        rw [Int.add_assoc, Int.add_assoc]
        exact this
    · simp only [if_neg hone]
      exact ⟨h2.le, h2.eq, fun hlt hsame => hone ⟨hlt, hsame.symm⟩⟩
  · simp only [if_neg htwo]
    by_cases hone : p + (n : Int) < limit ∧ m (q + n) = m (p + n)
    · simp only [if_pos hone]
      have h1 := h.add (k := 1) (by omega) fun i hi => by
        obtain rfl : i = 0 := by omega
        simpa using hone.2.symm
      refine ⟨h1.le, h1.eq, fun hlt hsame => htwo ⟨by omega, readLE_eq_iff.mpr fun i hi => ?_⟩⟩
      have hcases : i = 0 ∨ i = 1 := by omega
      rcases hcases with rfl | rfl
      · simpa using hone.2
      · rw [Int.add_assoc, Int.add_assoc]
        exact hsame.symm
    · simp only [if_neg hone]
      exact ⟨h.le, h.eq, fun hlt hsame => hone ⟨hlt, hsame.symm⟩⟩

/-- `LZ4_count` counts exactly. -/
theorem count_spec {stepSize : Nat} (hstep : stepSize = 4 ∨ stepSize = 8) (m : Mem)
    (p q limit : Int) : Agrees m p q limit (count stepSize m p q limit) := by
  have h0 : Counted m p q limit 0 := ⟨by omega, fun i hi => by omega⟩
  obtain ⟨n, differs, hwords, hn, hdiffer, hrest⟩ := countWords_spec
    (limit - p).toNat (show 0 < stepSize by omega) h0 (by omega)
  simp only [Nat.cast_zero, Int.add_zero] at hwords
  rw [count, hwords]
  cases differs with
  | true =>
    obtain ⟨-, hne⟩ := hdiffer rfl
    exact ⟨hn.le, hn.eq, fun _ => hne⟩
  | false =>
    have hrest := hrest rfl
    by_cases hfour : stepSize = 8 ∧ p + n < limit - 3 ∧
        readLE m (q + n) 4 = readLE m (p + n) 4
    · have hword := readLE_eq_iff.mp hfour.2.2
      have h4 := hn.add (k := 4) (by omega) fun i hi => (hword i hi).symm
      simp only [if_pos hfour]
      exact countTail_spec h4 fun hlong => by
        omega
    · simp only [if_neg hfour]
      refine countTail_spec hn fun hlong hsame => hfour ⟨by omega, by omega, ?_⟩
      exact readLE_eq_iff.mpr fun i hi => (hsame i hi).symm

/-! ## Catching up -/

theorem catchUpLoop_spec (m : Mem) (anchor lowLimit : Int) (fuel : Nat) (ip matchPtr : Int)
    (hanchor : anchor ≤ ip) :
    ∃ j : Nat, catchUpLoop m anchor lowLimit fuel ip matchPtr = (ip - j, matchPtr - j) ∧
      anchor ≤ ip - j ∧ (lowLimit ≤ matchPtr → lowLimit ≤ matchPtr - j) ∧
      ∀ i : Nat, i < j → m (ip - j + i) = m (matchPtr - j + i) := by
  induction fuel generalizing ip matchPtr with
  | zero => exact ⟨0, by simp [catchUpLoop], by omega, by omega, fun i hi => by omega⟩
  | succ fuel ih =>
    rw [catchUpLoop]
    split
    · rename_i hmore
      obtain ⟨hip, hmatch, hbyte⟩ := hmore
      obtain ⟨j, hloop, hlow, hlimit, heq⟩ := ih (ip - 1) (matchPtr - 1) (by omega)
      refine ⟨j + 1, ?_, by omega, by omega, fun i hi => ?_⟩
      · rw [hloop]
        congr 1 <;> omega
      · rw [show ip - ((j + 1 : Nat) : Int) = ip - 1 - j by omega,
          show matchPtr - ((j + 1 : Nat) : Int) = matchPtr - 1 - j by omega]
        by_cases hlast : i = j
        · subst hlast
          rw [show ip - 1 - (i : Int) + i = ip - 1 by omega,
            show matchPtr - 1 - (i : Int) + i = matchPtr - 1 by omega]
          exact hbyte
        · exact heq i (by omega)
    · exact ⟨0, by simp, by omega, by omega, fun i hi => by omega⟩

/-- Catching up moves back over equal bytes, not beyond `anchor` and the limit of the
match. -/
theorem catchUp_spec (m : Mem) {anchor : Int} {found : Found} (hanchor : anchor < found.ip) :
    ∃ j : Nat, catchUp m anchor found =
        { found with ip := found.ip - j, matchPtr := found.matchPtr - j } ∧
      anchor ≤ found.ip - j ∧
      (found.lowLimit ≤ found.matchPtr → found.lowLimit ≤ found.matchPtr - j) ∧
      ∀ i : Nat, i < j → m (found.ip - j + i) = m (found.matchPtr - j + i) := by
  unfold catchUp
  split
  · rename_i hfirst
    obtain ⟨j, hloop, hlow, hlimit, heq⟩ := catchUpLoop_spec m anchor found.lowLimit
      (found.ip - anchor).toNat (found.ip - 1) (found.matchPtr - 1) (by omega)
    refine ⟨j + 1, ?_, by omega, by omega, fun i hi => ?_⟩
    · rw [hloop]
      push_cast
      congr 1 <;> omega
    · rw [show found.ip - ((j + 1 : Nat) : Int) = found.ip - 1 - j by omega,
        show found.matchPtr - ((j + 1 : Nat) : Int) = found.matchPtr - 1 - j by omega]
      by_cases hlast : i = j
      · subst hlast
        rw [show found.ip - 1 - (i : Int) + i = found.ip - 1 by omega,
          show found.matchPtr - 1 - (i : Int) + i = found.matchPtr - 1 by omega]
        exact hfirst.2
      · exact heq i (by omega)
  · exact ⟨0, by simp, by omega, by omega, fun i hi => by omega⟩

end

end Lz4.Encoder
