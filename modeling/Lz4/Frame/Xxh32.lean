import Lz4.Lib.LittleEndian

/-!
# XXH32

The checksum of the frame format.  `xxh32` is the one-shot function, a fold of four lanes
over stripes of 16 bytes followed by a mix of the rest, and `Xxh32State` the streaming
interface of `xxhash.c`, which keeps the bytes of an unfinished stripe.

The state after some bytes is `Xxh32State.after`, computed from these bytes alone.  An
update takes it to the state after the longer text (`update_after`), so however a text is
cut into updates, the digest is the one-shot checksum of the whole (`digest_after`).
-/

namespace Lz4

open FlatMemory

/-! ## Words -/

def prime32_1 : UInt32 := 2654435761
def prime32_2 : UInt32 := 2246822519
def prime32_3 : UInt32 := 3266489917
def prime32_4 : UInt32 := 668265263
def prime32_5 : UInt32 := 374761393

/-- The four bytes at the head of a list as a little-endian word. -/
def readLE32 (bytes : List UInt8) : UInt32 := UInt32.ofNat (leValue (bytes.take 4))

def rotl32 (x r : UInt32) : UInt32 := (x <<< r) ||| (x >>> (32 - r))

def xxh32Round (seed input : UInt32) : UInt32 :=
  rotl32 (seed + input * prime32_2) 13 * prime32_1

/-- Mix all bits. -/
def xxh32Avalanche (h32 : UInt32) : UInt32 :=
  let h32 := h32 ^^^ (h32 >>> 15)
  let h32 := h32 * prime32_2
  let h32 := h32 ^^^ (h32 >>> 13)
  let h32 := h32 * prime32_3
  h32 ^^^ (h32 >>> 16)

/-- The bytes behind the last stripe: whole words first, then single bytes. -/
def xxh32Finalize (h32 : UInt32) : List UInt8 → UInt32
  | b₀ :: b₁ :: b₂ :: b₃ :: rest =>
    xxh32Finalize (rotl32 (h32 + readLE32 [b₀, b₁, b₂, b₃] * prime32_3) 17 * prime32_4) rest
  | b :: rest => xxh32Finalize (rotl32 (h32 + b.toUInt32 * prime32_5) 11 * prime32_1) rest
  | [] => xxh32Avalanche h32

/-! ## Lanes -/

/-- The four accumulators. -/
structure Lanes where
  v1 : UInt32
  v2 : UInt32
  v3 : UInt32
  v4 : UInt32
  deriving Repr, DecidableEq

namespace Lanes

def start (seed : UInt32) : Lanes :=
  ⟨seed + prime32_1 + prime32_2, seed + prime32_2, seed, seed - prime32_1⟩

/-- One stripe of 16 bytes. -/
def stripe (v : Lanes) (bytes : List UInt8) : Lanes :=
  ⟨xxh32Round v.v1 (readLE32 bytes), xxh32Round v.v2 (readLE32 (bytes.drop 4)),
    xxh32Round v.v3 (readLE32 (bytes.drop 8)), xxh32Round v.v4 (readLE32 (bytes.drop 12))⟩

/-- `n` stripes, one after the other. -/
def stripes : Nat → Lanes → List UInt8 → Lanes
  | 0, v, _ => v
  | n + 1, v, bytes => stripes n (v.stripe bytes) (bytes.drop 16)

def merge (v : Lanes) : UInt32 :=
  rotl32 v.v1 1 + rotl32 v.v2 7 + rotl32 v.v3 12 + rotl32 v.v4 18

end Lanes

/-- `XXH32` -/
def xxh32 (input : List UInt8) (seed : UInt32) : UInt32 :=
  let n := input.length / 16
  let h32 :=
    if 16 ≤ input.length then ((Lanes.start seed).stripes n input).merge else seed + prime32_5
  xxh32Finalize (h32 + UInt32.ofNat input.length) (input.drop (16 * n))

example : xxh32 [] 0 = 0x02CC5D05 := by decide

/-! ## Streaming -/

/-- `XXH32_state_t`; `mem` holds the `memsize` bytes of the stripe begun. -/
structure Xxh32State where
  totalLen : UInt32
  largeLen : Bool
  v : Lanes
  mem : List UInt8
  deriving Repr, DecidableEq

namespace Xxh32State

/-- `XXH32_reset` -/
def reset (seed : UInt32) : Xxh32State := ⟨0, false, .start seed, []⟩

/-- `XXH32_update` -/
def update (s : Xxh32State) (input : List UInt8) : Xxh32State :=
  let totalLen := s.totalLen + UInt32.ofNat input.length
  let largeLen := s.largeLen || decide (16 ≤ input.length) || decide (16 ≤ totalLen)
  if s.mem.length + input.length < 16 then ⟨totalLen, largeLen, s.v, s.mem ++ input⟩
  else
    -- some data left from the previous update
    let fill := if s.mem.length ≠ 0 then 16 - s.mem.length else 0
    let v := if s.mem.length ≠ 0 then s.v.stripe (s.mem ++ input.take fill) else s.v
    let p := input.drop fill
    let n := p.length / 16
    ⟨totalLen, largeLen, v.stripes n p, p.drop (16 * n)⟩

/-- `XXH32_digest` -/
def digest (s : Xxh32State) : UInt32 :=
  let h32 := if s.largeLen then s.v.merge else s.v.v3 + prime32_5
  xxh32Finalize (h32 + s.totalLen) s.mem

/-- The state after `bytes`, computed from them alone. -/
def after (seed : UInt32) (bytes : List UInt8) : Xxh32State :=
  ⟨UInt32.ofNat bytes.length, decide (16 ≤ bytes.length),
    (Lanes.start seed).stripes (bytes.length / 16) bytes, bytes.drop (16 * (bytes.length / 16))⟩

end Xxh32State

theorem readLE32_take (bytes : List UInt8) {n : Nat} (hn : 4 ≤ n) :
    readLE32 (bytes.take n) = readLE32 bytes := by
  rw [readLE32, readLE32, List.take_take, Nat.min_eq_left hn]

namespace Lanes

/-- A stripe reads 16 bytes. -/
theorem stripe_take (v : Lanes) (bytes : List UInt8) :
    v.stripe (bytes.take 16) = v.stripe bytes := by
  simp only [stripe, List.drop_take, readLE32_take _ (show 4 ≤ 16 by omega),
    readLE32_take _ (show 4 ≤ 16 - 4 by omega), readLE32_take _ (show 4 ≤ 16 - 8 by omega),
    readLE32_take _ (show 4 ≤ 16 - 12 by omega)]

theorem stripes_add (a b : Nat) (v : Lanes) (bytes : List UInt8) :
    v.stripes (a + b) bytes = (v.stripes a bytes).stripes b (bytes.drop (16 * a)) := by
  induction a generalizing v bytes with
  | zero => simp [stripes]
  | succ a ih =>
    rw [show a + 1 + b = (a + b) + 1 by omega, stripes, stripes, ih, List.drop_drop]
    congr 2
    omega

/-- The stripes read nothing behind their last byte. -/
theorem stripes_append {n : Nat} (v : Lanes) (bytes more : List UInt8)
    (hn : 16 * n ≤ bytes.length) : v.stripes n (bytes ++ more) = v.stripes n bytes := by
  induction n generalizing v bytes with
  | zero => rfl
  | succ n ih =>
    rw [stripes, stripes, List.drop_append_of_le_length (by omega),
      ih _ _ (by rw [List.length_drop]; omega), ← stripe_take v (bytes ++ more),
      List.take_append_of_le_length (by omega), stripe_take]

end Lanes

namespace Xxh32State

theorem reset_eq (seed : UInt32) : reset seed = after seed [] := rfl

/-- The flag for a long text survives the wrap of the 32-bit length. -/
theorem large_iff (bytes input : List UInt8) :
    (decide (16 ≤ bytes.length) || decide (16 ≤ input.length) ||
        decide (16 ≤ UInt32.ofNat (bytes ++ input).length)) =
      decide (16 ≤ (bytes ++ input).length) := by
  rw [Bool.eq_iff_iff]
  simp only [Bool.or_eq_true, decide_eq_true_eq, List.length_append,
    UInt32.le_iff_toNat_le, UInt32.toNat_ofNat', show (16 : UInt32).toNat = 16 from rfl]
  omega

/-- **An update continues the text.** -/
theorem update_after (seed : UInt32) (bytes input : List UInt8) :
    (after seed bytes).update input = after seed (bytes ++ input) := by
  obtain ⟨q, hq⟩ : ∃ q, q = bytes.length / 16 := ⟨_, rfl⟩
  have hdrop : (bytes ++ input).drop (16 * q) = bytes.drop (16 * q) ++ input :=
    List.drop_append_of_le_length (by omega)
  have htail : (bytes.drop (16 * q)).length = bytes.length - 16 * q := List.length_drop
  have hlanes : ((Lanes.start seed).stripes q (bytes ++ input)) =
      (Lanes.start seed).stripes q bytes := Lanes.stripes_append _ _ _ (by omega)
  have hlength : (bytes ++ input).length = bytes.length + input.length := List.length_append
  unfold update
  simp only [after, ← UInt32.ofNat_add, ← hq, htail, ← hlength, large_iff]
  split
  · -- the stripe stays unfinished
    have hsame : (bytes ++ input).length / 16 = q := by omega
    rw [hsame, hlanes, hdrop]
  · obtain ⟨fill, hfill⟩ : ∃ fill, fill = if bytes.length - 16 * q ≠ 0 then
        16 - (bytes.length - 16 * q) else 0 := ⟨_, rfl⟩
    rw [← hfill]
    by_cases hopen : bytes.length - 16 * q ≠ 0
    · -- the stripe begun is completed first
      rw [if_pos hopen] at hfill ⊢
      have hcount : (bytes ++ input).length / 16 = q + (1 + (input.drop fill).length / 16) := by
        rw [List.length_drop]
        omega
      have hnext : (bytes.drop (16 * q) ++ input).drop 16 = input.drop fill := by
        rw [List.drop_append, List.drop_of_length_le (by omega), List.nil_append, htail, hfill]
      have hstripe : (bytes.drop (16 * q) ++ input).take 16 =
          bytes.drop (16 * q) ++ input.take fill := by
        rw [List.take_append, List.take_of_length_le (by omega), htail, hfill]
      rw [hcount, Lanes.stripes_add, hlanes, hdrop, Lanes.stripes_add, Nat.mul_add,
        ← List.drop_drop, hdrop, Nat.mul_add, ← List.drop_drop, Nat.mul_one, hnext, ← hstripe]
      simp only [Lanes.stripes, Lanes.stripe_take]
    · rw [if_neg hopen] at hfill ⊢
      have hcount : (bytes ++ input).length / 16 = q + input.length / 16 := by omega
      have hempty : bytes.drop (16 * q) = [] := List.drop_of_length_le (by omega)
      rw [hfill, List.drop_zero, hcount, Lanes.stripes_add, hlanes, hdrop, hempty, Nat.mul_add,
        ← List.drop_drop, hdrop, hempty, List.nil_append]

/-- **The digest is the checksum of the text.** -/
theorem digest_after (seed : UInt32) (bytes : List UInt8) :
    (after seed bytes).digest = xxh32 bytes seed := by
  unfold digest after xxh32
  by_cases hlong : 16 ≤ bytes.length
  · simp only [hlong, decide_true, if_true]
  · have hnone : bytes.length / 16 = 0 := by omega
    simp only [hlong, decide_false, Bool.false_eq_true, if_false, hnone, Lanes.stripes,
      Lanes.start]

/-- However the input is cut, the checksum is that of the whole. -/
theorem digest_updates (seed : UInt32) (portions : List (List UInt8)) :
    (portions.foldl update (reset seed)).digest = xxh32 portions.flatten seed := by
  have hfold (bytes : List UInt8) : portions.foldl update (after seed bytes) =
      after seed (bytes ++ portions.flatten) := by
    induction portions generalizing bytes with
    | nil => rw [List.flatten_nil, List.append_nil, List.foldl_nil]
    | cons portion portions ih =>
      rw [List.foldl_cons, update_after, ih, List.flatten_cons, List.append_assoc]
  rw [reset_eq, hfold, digest_after, List.nil_append]

end Xxh32State

end Lz4
