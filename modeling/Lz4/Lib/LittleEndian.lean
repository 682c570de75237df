import Lz4.Lib.Mem
import Mathlib.Data.Nat.Bitwise

/-!
# Little-endian words

`readLE m p n` is the number that `n` bytes at `p` stand for.  Two such words are equal
exactly when their bytes are, and the number of bytes in which they agree, counted from
the lowest address, is the number of zero bytes at the low end of their exclusive or.
`leValue` and `leBytes` are the same for a word held in a list.
-/

namespace FlatMemory

/-- The value of `n` bytes at `p`, the lowest byte first. -/
def readLE (m : Mem) (p : Int) : Nat → Nat
  | 0 => 0
  | n + 1 => (m p).toNat + 256 * readLE m (p + 1) n

/-- Zero bytes at the low end of a word of `n` bytes. -/
def lowZeroBytes : Nat → Nat → Nat
  | 0, _ => 0
  | n + 1, v => if v % 256 = 0 then lowZeroBytes n (v / 256) + 1 else 0

theorem readLE_eq_iff {m m' : Mem} {p q : Int} {n : Nat} :
    readLE m p n = readLE m' q n ↔ ∀ i : Nat, i < n → m (p + i) = m' (q + i) := by
  induction n generalizing p q with
  | zero => simp [readLE]
  | succ n ih =>
    have hp := (m p).toNat_lt
    have hq := (m' q).toNat_lt
    have hsplit : readLE m p (n + 1) = readLE m' q (n + 1) ↔
        (m p).toNat = (m' q).toNat ∧ readLE m (p + 1) n = readLE m' (q + 1) n := by
      simp only [readLE]
      omega
    rw [hsplit, ih, UInt8.toNat_inj]
    constructor
    · rintro ⟨hfirst, hrest⟩ i hi
      cases i with
      | zero => simpa using hfirst
      | succ i =>
        have hbyte := hrest i (by omega)
        rw [show p + ((i + 1 : Nat) : Int) = p + 1 + i by omega,
          show q + ((i + 1 : Nat) : Int) = q + 1 + i by omega]
        exact hbyte
    · intro h
      refine ⟨by simpa using h 0 (by omega), fun i hi => ?_⟩
      have hbyte := h (i + 1) (by omega)
      rw [show p + ((i + 1 : Nat) : Int) = p + 1 + i by omega,
        show q + ((i + 1 : Nat) : Int) = q + 1 + i by omega] at hbyte
      exact hbyte

theorem xor_mod_256 (a b c d : Nat) (ha : a < 256) (hc : c < 256) :
    ((a + 256 * b) ^^^ (c + 256 * d)) % 256 = a ^^^ c := by
  have h := @Nat.xor_mod_two_pow (a + 256 * b) (c + 256 * d) 8
  have h1 : (a + 256 * b) % 2 ^ 8 = a := by omega
  have h2 : (c + 256 * d) % 2 ^ 8 = c := by omega
  rw [h1, h2] at h
  exact h

theorem xor_div_256 (a b c d : Nat) (ha : a < 256) (hc : c < 256) :
    ((a + 256 * b) ^^^ (c + 256 * d)) / 256 = b ^^^ d := by
  have h := @Nat.xor_div_two_pow (a + 256 * b) (c + 256 * d) 8
  have h1 : (a + 256 * b) / 2 ^ 8 = b := by omega
  have h2 : (c + 256 * d) / 2 ^ 8 = d := by omega
  rw [h1, h2] at h
  exact h

/-- The low zero bytes of an exclusive or count the bytes that agree. -/
theorem lowZeroBytes_xor (m m' : Mem) (p q : Int) (n : Nat) :
    lowZeroBytes n (readLE m p n ^^^ readLE m' q n) ≤ n ∧
      (∀ i : Nat, i < lowZeroBytes n (readLE m p n ^^^ readLE m' q n) → m (p + i) = m' (q + i)) ∧
      (lowZeroBytes n (readLE m p n ^^^ readLE m' q n) < n →
        m (p + lowZeroBytes n (readLE m p n ^^^ readLE m' q n)) ≠
          m' (q + lowZeroBytes n (readLE m p n ^^^ readLE m' q n))) := by
  induction n generalizing p q with
  | zero => simp [lowZeroBytes]
  | succ n ih =>
    have hp : (m p).toNat < 256 := (m p).toNat_lt
    have hq : (m' q).toNat < 256 := (m' q).toNat_lt
    obtain ⟨hle, heq, hne⟩ := ih (p + 1) (q + 1)
    simp only [readLE, lowZeroBytes, xor_mod_256 _ _ _ _ hp hq, xor_div_256 _ _ _ _ hp hq]
    by_cases hfirst : m p = m' q
    · rw [hfirst, Nat.xor_self, if_pos rfl]
      refine ⟨by omega, fun i hi => ?_, fun hlt => ?_⟩
      · cases i with
        | zero => simpa using hfirst
        | succ i =>
          have hbyte := heq i (by omega)
          rw [show p + ((i + 1 : Nat) : Int) = p + 1 + i by omega,
            show q + ((i + 1 : Nat) : Int) = q + 1 + i by omega]
          exact hbyte
      · have hbyte := hne (by omega)
        push_cast
        rw [show ∀ a b : Int, a + (b + 1) = a + 1 + b by omega,
          show ∀ a b : Int, a + (b + 1) = a + 1 + b by omega]
        exact hbyte
    · have hdiff : ¬ (m p).toNat ^^^ (m' q).toNat = 0 := by
        rw [Nat.xor_eq_zero_iff, UInt8.toNat_inj]
        exact hfirst
      rw [if_neg hdiff]
      exact ⟨by omega, fun i hi => by omega, fun _ => by simpa using hfirst⟩

/-! ## Words in a list of bytes -/

/-- The number that a list of bytes stands for, the lowest byte first. -/
def leValue : List UInt8 → Nat
  | [] => 0
  | b :: rest => b.toNat + 256 * leValue rest

/-- The `n` low bytes of a number, the lowest first. -/
def leBytes : Nat → Nat → List UInt8
  | 0, _ => []
  | n + 1, v => UInt8.ofNat v :: leBytes n (v / 256)

@[simp] theorem length_leBytes (n v : Nat) : (leBytes n v).length = n := by
  induction n generalizing v with
  | zero => rfl
  | succ n ih => simp [leBytes, ih]

theorem leValue_leBytes {n v : Nat} (hv : v < 256 ^ n) : leValue (leBytes n v) = v := by
  induction n generalizing v with
  | zero => simp [leBytes, leValue] at hv ⊢; omega
  | succ n ih =>
    rw [leBytes, leValue, ih (by omega), UInt8.toNat_ofNat']
    omega

end FlatMemory
