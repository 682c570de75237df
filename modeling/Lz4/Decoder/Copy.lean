import Mathlib.Tactic.IntervalCases
import Lz4.Lib.Periodic

/-!
# The copy helpers of the decoder

`wildCopy8`, `wildCopy32` and `memcpyUsingOffset` move whole words and so write
past the end they are given.  What the decoder relies on is stated once for
all of them by `MatchCopied`: nothing outside `[op, limit)` changes, and the
bytes of the match are periodic with the offset (or zero, for offset `0`).

Offsets below 8 are the delicate case.  The helper lays down eight bytes first
(`copyFirst8`), moving the match pointer so that it ends up at a multiple of the
offset, at least eight bytes behind; the tables `inc32table` and `dec64table`
hold the corrections.
-/

namespace Lz4

open FlatMemory

/-! ## The helpers -/

/-- `LZ4_wildCopy8`: 8 bytes at a time, up to 8 bytes too far. -/
def wildCopy8 (port : Port) (h : Heap) (d s e : Int) : Heap :=
  stride (fun h d s => h.memcpy port d s 8) 8 (passes 8 d e) h d s

/-- `LZ4_wildCopy32`: twice 16 bytes at a time, compatible with offsets of 16. -/
def wildCopy32 (port : Port) (h : Heap) (d s e : Int) : Heap :=
  stride (fun h d s => (h.memcpy port d s 16).memcpy port (d + 16) (s + 16) 16) 32
    (passes 32 d e) h d s

def inc32table : List Int := [0, 1, 2, 1, 0, 4, 4, 4]

def dec64table : List Int := [0, 0, 0, -1, -4, 1, 2, 3]

/-- The first eight bytes of a match, and the match pointer to continue from. -/
def copyFirst8 (h : Heap) (op mtch : Int) (offset : Nat) : Heap × Int :=
  if offset < 8 then
    -- the store silences a warning about uninitialised memory when offset is 0
    let h := h.store op [0, 0, 0, 0]
    let h := byteCopy .window h op mtch 4
    let mtch := mtch + inc32table.getD offset 0
    let h := h.memcpy .window (op + 4) mtch 4
    (h, mtch - dec64table.getD offset 0)
  else
    (h.memcpy .window op mtch 8, mtch + 8)

/-- `LZ4_memcpy_using_offset_base` -/
def memcpyUsingOffsetBase (h : Heap) (d s e : Int) (offset : Nat) : Heap :=
  let (h, s) := copyFirst8 h d s offset
  wildCopy8 .window h (d + 8) s e

/-- Store the eight bytes of a pattern until the end is reached. -/
def storePattern (h : Heap) (v : List UInt8) (d e : Int) : Heap :=
  stride (fun h d _ => h.store d v) 8 (passes 8 d e) h d d

/-- `LZ4_memcpy_using_offset`: offsets 1, 2 and 4 divide a word, so the word is
built in a register. -/
def memcpyUsingOffset (h : Heap) (d s e : Int) (offset : Nat) : Heap :=
  let m := h.mem
  match offset with
  | 1 => storePattern (h.load .window s 1) [m s, m s, m s, m s, m s, m s, m s, m s] d e
  | 2 =>
    storePattern (h.load .window s 2)
      [m s, m (s + 1), m s, m (s + 1), m s, m (s + 1), m s, m (s + 1)] d e
  | 4 =>
    storePattern (h.load .window s 4)
      [m s, m (s + 1), m (s + 2), m (s + 3), m s, m (s + 1), m (s + 2), m (s + 3)] d e
  | _ => memcpyUsingOffsetBase h d s e offset

/-! ## What a match copy delivers -/

/-- From `m` to `m'`, a match of `n` bytes at distance `offset` was laid down at
`op`, touching no byte at or above `limit`. -/
structure MatchCopied (m m' : Mem) (op : Int) (offset n : Nat) (limit : Int) : Prop where
  frame : ∀ a, (a < op ∨ limit ≤ a) → m' a = m a
  zero : offset = 0 → ∀ a, op ≤ a → a < op + n → m' a = 0
  periodic : 0 < offset → PeriodicOn m' op (op + n) offset

variable {offset n : Nat} {limit op : Int} {m' : Mem}

theorem MatchCopied.weaken {m : Mem} {limit' : Int} (copied : MatchCopied m m' op offset n limit)
    (hlimit : limit ≤ limit') : MatchCopied m m' op offset n limit' where
  frame a ha := copied.frame a (by omega)
  zero := copied.zero
  periodic := copied.periodic

/-- A further copy at a multiple of the offset, at least 8 bytes behind, carries
a match on. -/
theorem MatchCopied.continue {m m₁ : Mem} {n₁ : Nat} {q : Nat}
    (first : MatchCopied m m₁ op offset n₁ (op + n₁)) (hn₁ : 8 ≤ n₁) (hlimit : op + n₁ ≤ limit)
    (hframe : ∀ a, (a < op + n₁ ∨ limit ≤ a) → m' a = m₁ a)
    (hzero : offset = 0 → PeriodicOn m' (op + n₁) (op + n) 8)
    (hcopy : 0 < offset → ∀ a, op + n₁ ≤ a → a < op + n → m' a = m' (a - (q + 1) * offset))
    (hroom : 0 < offset → (q * offset : Int) ≤ n₁) : MatchCopied m m' op offset n limit where
  frame a ha := by
    rw [hframe a (by omega), first.frame a (by omega)]
  zero h0 := by
    refine PeriodicOn.zero_of_zero (p := 8) (hzero h0) (by omega) (by omega) ?_
    intro a hlow hhigh
    rw [hframe a (by omega)]
    exact first.zero h0 a hlow hhigh
  periodic hpos := by
    have hfirst : PeriodicOn m' op (op + n₁) offset := by
      intro a hlow hhigh
      rw [hframe a (by omega), hframe (a - offset) (by omega)]
      exact first.periodic hpos a hlow hhigh
    exact hfirst.extend (by omega) q (by have := hroom hpos; omega) (hcopy hpos)

/-- A match that was laid down is what a byte loop leaves. -/
theorem MatchCopied.eq_byteCopy {h : Heap} (copied : MatchCopied h.mem m' op offset n limit)
    (hpos : 0 < offset) {a : Int} (ha : a < op + n) :
    m' a = (byteCopy .window h op (op - offset) n).mem a := by
  refine (copied.periodic hpos).unique (fun a hlow hhigh => ?_) (by omega) (fun a hbelow => ?_) ha
  · rw [byteCopy_backward _ _ _ _ _ _ (by omega) hlow hhigh]
    congr 1
    omega
  · rw [copied.frame a (Or.inl hbelow), byteCopy_frame _ _ _ _ _ _ (Or.inl hbelow)]

theorem wildCopy8_frame (port : Port) (h : Heap) (d s e a : Int)
    (ha : a < d ∨ max (d + 8) (e + 7) ≤ a) : (wildCopy8 port h d s e).mem a = h.mem a := by
  have hle := passes_le (k := 8) (by omega) d e
  exact stride_frame (strip_memcpy port 8) _ h d s a (by omega)

theorem wildCopy8_forward (port : Port) (h : Heap) (d s e a : Int) (hds : d ≤ s) (hlow : d ≤ a)
    (hhigh : a < e) : (wildCopy8 port h d s e).mem a = h.mem (s + (a - d)) := by
  have hle := le_passes (k := 8) (by omega) d e
  exact stride_forward (strip_memcpy port 8) _ h d s a hds hlow (by omega)

theorem wildCopy8_backward (port : Port) (h : Heap) (d s e : Int) (hds : s + 8 ≤ d) :
    PeriodicOn (wildCopy8 port h d s e).mem d e (d - s) := by
  have hle := le_passes (k := 8) (by omega) d e
  exact (periodicOn_stride (strip_memcpy port 8) _ h d s hds).mono (by omega) (by omega)

/-- The end of the last strip of a `wildCopy32` towards `e`. -/
def wildEnd32 (d e : Int) : Int := d + (32 * passes 32 d e : Nat)

theorem strip_wildCopy32 (port : Port) :
    Strip (fun h d s => (h.memcpy port d s 16).memcpy port (d + 16) (s + 16) 16) 32 16 :=
  strip_memcpy_twice port 16

theorem wildCopy32_frame (port : Port) (h : Heap) (d s e a : Int)
    (ha : a < d ∨ wildEnd32 d e ≤ a) : (wildCopy32 port h d s e).mem a = h.mem a :=
  stride_frame (strip_wildCopy32 port) _ h d s a ha

theorem le_wildEnd32 (d e : Int) : e ≤ wildEnd32 d e :=
  le_passes (k := 32) (by omega) d e

theorem wildEnd32_le (d e : Int) : wildEnd32 d e ≤ max (d + 32) (e + 31) := by
  have := passes_le (k := 32) (by omega) d e
  unfold wildEnd32
  omega

theorem wildCopy32_forward (port : Port) (h : Heap) (d s e a : Int) (hds : d ≤ s) (hlow : d ≤ a)
    (hhigh : a < e) : (wildCopy32 port h d s e).mem a = h.mem (s + (a - d)) := by
  have hle := le_passes (k := 32) (by omega) d e
  exact stride_forward (strip_wildCopy32 port) _ h d s a hds hlow (by omega)

theorem wildCopy32_backward (port : Port) (h : Heap) (d s e : Int) (hds : s + 16 ≤ d) :
    PeriodicOn (wildCopy32 port h d s e).mem d e (d - s) := by
  have hle := le_passes (k := 32) (by omega) d e
  exact (periodicOn_stride (strip_wildCopy32 port) _ h d s hds).mono (by omega) (by omega)

/-! ## Small offsets -/

/-- The corrections of `inc32table` bring the second half of the first word to a
multiple of the offset, with enough periods laid down before it. -/
theorem inc32table_multiple (hpos : 0 < offset) (hlt : offset < 8) :
    ∃ q : Nat, ((q : Int) + 1) * offset = offset - inc32table.getD offset 0 + 4 ∧
      (q : Int) * offset ≤ 4 ∧ 4 ≤ (offset : Int) - inc32table.getD offset 0 + 4 := by
  interval_cases offset
  exacts [⟨3, by decide⟩, ⟨1, by decide⟩, ⟨1, by decide⟩, ⟨1, by decide⟩, ⟨0, by decide⟩,
    ⟨0, by decide⟩, ⟨0, by decide⟩]

/-- After the first word the match pointer is a multiple of the offset behind,
and at least eight bytes. -/
theorem dec64table_multiple (hpos : 0 < offset) (hlt : offset < 8) :
    ∃ q : Nat, ((q : Int) + 1) * offset =
      offset - inc32table.getD offset 0 + dec64table.getD offset 0 + 8 ∧ (q : Int) * offset ≤ 8 ∧
      0 ≤ (offset : Int) - inc32table.getD offset 0 + dec64table.getD offset 0 := by
  interval_cases offset
  exacts [⟨7, by decide⟩, ⟨3, by decide⟩, ⟨2, by decide⟩, ⟨1, by decide⟩, ⟨1, by decide⟩,
    ⟨1, by decide⟩, ⟨1, by decide⟩]

/-- Four bytes laid down one at a time over cleared memory. -/
theorem matchCopied_byteCopy (h : Heap) (op : Int) (offset : Nat) :
    MatchCopied h.mem (byteCopy .window (h.store op [0, 0, 0, 0]) op (op - offset) 4).mem op
      offset 4 (op + 4) where
  frame a ha := by
    rw [byteCopy_frame _ _ _ _ _ _ (by omega), Heap.store_mem,
      Mem.store_outside (by simp only [List.length_cons, List.length_nil]; omega)]
  zero h0 a hlow hhigh := by
    subst h0
    have hkeep : (byteCopy .window (h.store op [0, 0, 0, 0]) op (op - (0 : Nat)) 4).mem a =
        (h.store op [0, 0, 0, 0]).mem (op - (0 : Nat) + (a - op)) :=
      stride_forward (strip_memcpy .window 1) 4 _ op _ a (by omega) hlow (by omega)
    have haddr : op - ((0 : Nat) : Int) + (a - op) = op + ((a - op).toNat : Int) := by omega
    have hi : (a - op).toNat < 4 := by omega
    rw [hkeep, haddr, Heap.store_mem, Mem.store_inside (by simpa using hi)]
    interval_cases (a - op).toNat <;> rfl
  periodic hpos a hlow hhigh := by
    rw [byteCopy_backward _ _ _ _ _ _ (by omega) hlow (by omega)]
    congr 1
    omega

/-- `copyFirst8` lays down eight bytes of the match … -/
theorem matchCopied_copyFirst8 (h : Heap) (op : Int) (offset : Nat) :
    MatchCopied h.mem (copyFirst8 h op (op - offset) offset).1.mem op offset 8 (op + 8) := by
  unfold copyFirst8
  split
  · rename_i hlt
    have first := matchCopied_byteCopy h op offset
    set h₁ := byteCopy .window (h.store op [0, 0, 0, 0]) op (op - offset) 4 with hh₁
    rcases Nat.eq_zero_or_pos offset with h0 | hpos
    · -- offset 0: the second half copies the cleared first half
      subst h0
      refine ⟨?_, ?_, fun hpos => absurd hpos (Nat.lt_irrefl 0)⟩
      · intro a ha
        rw [Heap.memcpy_mem, Mem.copy_outside (by omega), first.frame a (by omega)]
      · intro _ a hlow hhigh
        rcases Int.lt_or_le a (op + 4) with hhalf | hhalf
        · rw [Heap.memcpy_mem, Mem.copy_outside (by omega)]
          exact first.zero rfl a hlow hhalf
        · rw [Heap.memcpy_mem, Mem.copy_inside hhalf (by omega)]
          have hinc : inc32table.getD 0 0 = 0 := by decide
          exact first.zero rfl _ (by rw [hinc]; omega) (by rw [hinc]; omega)
    · obtain ⟨q, hmul, hroom, hfar⟩ := inc32table_multiple hpos hlt
      refine ⟨?_, fun h0 => absurd h0 (by omega), fun _ => ?_⟩
      · intro a ha
        rw [Heap.memcpy_mem, Mem.copy_outside (by omega), first.frame a (by omega)]
      · have hfirst : PeriodicOn (h₁.memcpy .window (op + 4)
            (op - offset + inc32table.getD offset 0) 4).mem op (op + 4) offset := by
          intro a hlow hhigh
          rw [Heap.memcpy_mem, Mem.copy_outside (by omega), Mem.copy_outside (by omega)]
          exact first.periodic hpos a hlow hhigh
        have hn : op + ((8 : Nat) : Int) = op + 8 := rfl
        refine hfirst.extend (by omega) q (by omega) ?_
        intro a hlow hhigh
        rw [hmul, Heap.memcpy_mem, Mem.copy_inside hlow (by omega),
          Mem.copy_outside (a := a - _) (by omega)]
        congr 1
        omega
  · dsimp only
    refine ⟨?_, fun h0 => absurd h0 (by omega), fun _ => ?_⟩
    · intro a ha
      rw [Heap.memcpy_mem, Mem.copy_outside (by omega)]
    · intro a hlow hhigh
      rw [Heap.memcpy_mem, Mem.copy_inside hlow (by omega), Mem.copy_outside (by omega)]
      congr 1
      omega

/-- … and leaves the match pointer a multiple of the offset behind. -/
theorem copyFirst8_snd (h : Heap) (op : Int) (offset : Nat) :
    ∃ q : Nat, (0 < offset → ((q : Int) + 1) * offset =
        op + 8 - (copyFirst8 h op (op - offset) offset).2) ∧
      (0 < offset → (q : Int) * offset ≤ 8) ∧
      (offset = 0 → op + 8 - (copyFirst8 h op (op - offset) offset).2 = 8) ∧
      8 ≤ op + 8 - (copyFirst8 h op (op - offset) offset).2 := by
  unfold copyFirst8
  split
  · rename_i hlt
    dsimp only
    rcases Nat.eq_zero_or_pos offset with h0 | hpos
    · subst h0
      have hinc : inc32table.getD 0 0 = 0 := by decide
      have hdec : dec64table.getD 0 0 = 0 := by decide
      refine ⟨0, fun h => absurd h (by omega), fun h => absurd h (by omega), fun _ => ?_, ?_⟩
      all_goals rw [hinc, hdec]; omega
    · obtain ⟨q, hmul, hroom, hfar⟩ := dec64table_multiple hpos hlt
      exact ⟨q, fun _ => by omega, fun _ => hroom, fun h0 => by omega, by omega⟩
  · dsimp only
    exact ⟨0, fun _ => by omega, fun _ => by omega, fun h0 => by omega, by omega⟩

/-- It never moves below the match. -/
theorem le_copyFirst8_snd (h : Heap) (op : Int) (offset : Nat) :
    op - offset ≤ (copyFirst8 h op (op - offset) offset).2 := by
  unfold copyFirst8
  split
  · have hinc : 0 ≤ inc32table.getD offset 0 - dec64table.getD offset 0 := by
      interval_cases offset <;> decide
    dsimp only
    omega
  · omega

/-- A match whose first eight bytes come from `copyFirst8` and whose rest is copied
from the pointer it leaves. -/
theorem matchCopied_of_copyFirst8 {h : Heap} (hlimit : op + 8 ≤ limit)
    (hframe : ∀ a, (a < op + 8 ∨ limit ≤ a) → m' a = (copyFirst8 h op (op - offset) offset).1.mem a)
    (hcopy : PeriodicOn m' (op + 8) (op + n) (op + 8 - (copyFirst8 h op (op - offset) offset).2)) :
    MatchCopied h.mem m' op offset n limit := by
  obtain ⟨q, hmul, hroom, hzero, hfar⟩ := copyFirst8_snd h op offset
  refine (matchCopied_copyFirst8 h op offset).continue (q := q) (by omega) hlimit hframe ?_ ?_ hroom
  · intro h0
    have := hcopy
    rw [hzero h0] at this
    exact this
  · intro hpos a hlow hhigh
    rw [hmul hpos]
    exact hcopy a hlow hhigh

theorem matchCopied_base (h : Heap) (d : Int) (offset n : Nat) :
    MatchCopied h.mem (memcpyUsingOffsetBase h d (d - offset) (d + n) offset).mem d offset n
      (max (d + 16) (d + n + 7)) := by
  obtain ⟨_, _, _, _, hfar⟩ := copyFirst8_snd h d offset
  refine matchCopied_of_copyFirst8 (by omega) ?_ ?_
  · intro a ha
    exact wildCopy8_frame .window _ (d + 8) _ (d + n) a (by omega)
  · exact wildCopy8_backward .window (copyFirst8 h d (d - offset) offset).1 (d + 8)
      (copyFirst8 h d (d - offset) offset).2 (d + n) (by omega)

variable {v : List UInt8}

theorem storePattern_apply (h : Heap) (hv : v.length = 8) {d e a : Int} (hlow : d ≤ a)
    (hhigh : a < e) : (storePattern h v d e).mem a = v.getD ((a - d) % 8).toNat 0 := by
  have hle := le_passes (k := 8) (by omega) d e
  exact stride_store_apply hv _ h d d a hlow (by omega)

theorem storePattern_frame (h : Heap) (hv : v.length = 8) {d e a : Int}
    (ha : a < d ∨ max (d + 8) (e + 7) ≤ a) : (storePattern h v d e).mem a = h.mem a := by
  have hle := passes_le (k := 8) (by omega) d e
  exact stride_store_frame hv _ h d d a (by omega)

/-- A pattern whose eight bytes repeat the `offset` bytes before `d` is a match. -/
theorem matchCopied_storePattern (h h₀ : Heap) (hv : v.length = 8) (d : Int) (hpos : 0 < offset)
    (hdvd : 8 % offset = 0) (hmem : h.mem = h₀.mem)
    (hval : ∀ i, i < 8 → v.getD i 0 = h₀.mem (d - offset + (i % offset : Nat))) :
    MatchCopied h₀.mem (storePattern h v d (d + n)).mem d offset n (max (d + 16) (d + n + 7)) where
  frame a ha := by
    rw [storePattern_frame h hv (by omega), hmem]
  zero h0 := absurd h0 (by omega)
  periodic _ a hlow hhigh := by
    have hmod : ∀ x : Int, 0 ≤ x →
        ((x % 8).toNat % offset : Nat) = (x % offset).toNat := by
      intro x hx
      have hdvd' : (offset : Nat) ∣ 8 := Nat.dvd_of_mod_eq_zero hdvd
      obtain ⟨n, rfl⟩ : ∃ n : Nat, x = n := ⟨x.toNat, by omega⟩
      have h8 : ((n : Int) % 8).toNat = n % 8 := by omega
      have ho : ((n : Int) % (offset : Int)).toNat = n % offset := by
        rw [← Int.natCast_emod]; rfl
      rw [h8, ho, Nat.mod_mod_of_dvd n hdvd']
    rw [storePattern_apply h hv hlow (by omega), hval _ (by omega), hmod _ (by omega)]
    rcases Int.lt_or_le (a - offset) d with hbelow | habove
    · rw [storePattern_frame h hv (by omega), hmem, Int.emod_eq_of_lt (by omega) (by omega)]
      congr 1
      omega
    · rw [storePattern_apply h hv habove (by omega), hval _ (by omega), hmod _ (by omega)]
      have hshift : a - offset - d = a - d - offset := by omega
      rw [hshift, Int.sub_emod_right]

theorem matchCopied_memcpyUsingOffset (h : Heap) (d : Int) (offset n : Nat) :
    MatchCopied h.mem (memcpyUsingOffset h d (d - offset) (d + n) offset).mem d offset n
      (max (d + 16) (d + n + 7)) := by
  unfold memcpyUsingOffset
  split
  · refine matchCopied_storePattern _ h rfl d (by omega) (by omega) rfl ?_
    intro i hi
    interval_cases i <;> simp
  · refine matchCopied_storePattern _ h rfl d (by omega) (by omega) rfl ?_
    intro i hi
    interval_cases i <;> simp
  · refine matchCopied_storePattern _ h rfl d (by omega) (by omega) rfl ?_
    intro i hi
    interval_cases i <;> simp
  · exact matchCopied_base h d offset n

/-- Offsets of at least 16 are served by `wildCopy32` directly; it continues the match
to the end of its last strip. -/
theorem matchCopied_wildCopy32 (h : Heap) (d e : Int) (hoffset : 16 ≤ offset)
    (hn : d + n ≤ wildEnd32 d e) :
    MatchCopied h.mem (wildCopy32 .window h d (d - offset) e).mem d offset n (wildEnd32 d e) where
  frame a ha := wildCopy32_frame _ _ _ _ _ _ ha
  zero h0 := absurd h0 (by omega)
  periodic _ := by
    have hperiod : d - (d - offset) = (offset : Int) := by omega
    have hstrips := periodicOn_stride (strip_wildCopy32 .window) (passes 32 d e) h d (d - offset)
      (by omega)
    rw [hperiod] at hstrips
    exact hstrips.mono (Int.le_refl d) hn

/-- The three moves of 8, 8 and 2 bytes that serve short matches. -/
theorem matchCopied_eighteen (h : Heap) (op : Int) (hoffset : 8 ≤ offset) (hn : n ≤ 18) :
    MatchCopied h.mem
      (((h.memcpy .window op (op - offset) 8).memcpy .window (op + 8) (op - offset + 8) 8).memcpy
      .window (op + 16) (op - offset + 16) 2).mem op offset n (op + 18) where
  frame a ha := by
    simp only [Heap.memcpy_mem]
    rw [Mem.copy_outside (by omega), Mem.copy_outside (by omega), Mem.copy_outside (by omega)]
  zero h0 := absurd h0 (by omega)
  periodic _ a hlow hhigh := by
    simp only [Heap.memcpy_mem]
    rcases Int.lt_or_le a (op + 8) with h8 | h8
    · rw [Mem.copy_outside (by omega), Mem.copy_outside (by omega), Mem.copy_inside hlow (by omega),
        Mem.copy_outside (a := a - offset) (by omega), Mem.copy_outside (a := a - offset) (by omega),
        Mem.copy_outside (a := a - offset) (by omega)]
      congr 1
      omega
    · rcases Int.lt_or_le a (op + 16) with h16 | h16
      · rw [Mem.copy_outside (by omega), Mem.copy_inside h8 (by omega),
          Mem.copy_outside (a := a - offset) (d := op + 16) (by omega),
          Mem.copy_outside (a := a - offset) (d := op + 8) (by omega)]
        congr 1
        omega
      · rw [Mem.copy_inside h16 (by omega),
          Mem.copy_outside (a := a - offset) (d := op + 16) (by omega)]
        congr 1
        omega

/-! ## Literals -/

/-- `length` bytes were copied from `ip` to `op`, without a write at or above `limit`. -/
structure LiteralsCopied (m m' : Mem) (op ip : Int) (length : Nat) (limit : Int) : Prop where
  frame : ∀ a, (a < op ∨ limit ≤ a) → m' a = m a
  copied : ∀ a, op ≤ a → a < op + length → m' a = m (ip + (a - op))

theorem literalsCopied_memcpy (h : Heap) (op ip : Int) {length : Nat} (hn : length ≤ n) :
    LiteralsCopied h.mem (h.memcpy .input op ip n).mem op ip length (op + n) where
  frame a ha := Mem.copy_outside (by omega)
  copied a hlow hhigh := Mem.copy_inside hlow (by omega)

theorem literalsCopied_wildCopy8 (h : Heap) (op ip : Int) (length : Nat)
    (hapart : op ≤ ip ∨ ip + length + 8 ≤ op) :
    LiteralsCopied h.mem (wildCopy8 .input h op ip (op + length)).mem op ip length
      (op + length + 8) where
  frame a ha := wildCopy8_frame _ _ _ _ _ _ (by omega)
  copied a hlow hhigh := by
    rcases hapart with hbelow | habove
    · exact wildCopy8_forward _ _ _ _ _ _ hbelow hlow hhigh
    · -- the source is below and untouched, so copying upwards is exact too
      have hperiod := wildCopy8_backward .input h op ip (op + length) (by omega) a hlow hhigh
      have haddr : a - (op - ip) = ip + (a - op) := by omega
      rw [hperiod, haddr, wildCopy8_frame _ _ _ _ _ _ (by omega)]

theorem literalsCopied_wildCopy32 (h : Heap) (op ip : Int) (length : Nat)
    (hapart : op ≤ ip ∨ ip + length + 32 ≤ op) :
    LiteralsCopied h.mem (wildCopy32 .input h op ip (op + length)).mem op ip length
      (wildEnd32 op (op + length)) where
  frame a ha := wildCopy32_frame _ _ _ _ _ _ ha
  copied a hlow hhigh := by
    rcases hapart with hbelow | habove
    · exact wildCopy32_forward _ _ _ _ _ _ hbelow hlow hhigh
    · have hperiod := wildCopy32_backward .input h op ip (op + length) (by omega) a hlow hhigh
      have haddr : a - (op - ip) = ip + (a - op) := by omega
      rw [hperiod, haddr, wildCopy32_frame _ _ _ _ _ _ (by omega)]

/-! ## Which bytes the helpers touch -/

section Touched

variable {P : Access → Prop} (hP : Downward P) {m₀ : Mem} {port : Port} {h : Heap} {d s e : Int}
  {n : Nat}
include hP

theorem wildCopy8_logged (hn : max (d + 8) (e + 7) ≤ d + n) (hlog : h.Logged P m₀)
    (hread : P ⟨port, s, n⟩) (hwrite : P ⟨.output, d, n⟩) :
    (wildCopy8 port h d s e).Logged P m₀ := by
  have hle := passes_le (k := 8) (by omega) d e
  refine stride_logged _ h d s hlog ?_
  intro h' d' s' hlow hhigh hshift hlog'
  exact Heap.logged_memcpy (hP _ _ _ _ _ hlow (by omega) hwrite)
    (hP _ _ _ _ _ (by omega) (by omega) hread) hlog'

theorem wildCopy32_logged (hn : wildEnd32 d e ≤ d + n) (hlog : h.Logged P m₀)
    (hread : P ⟨port, s, n⟩) (hwrite : P ⟨.output, d, n⟩) :
    (wildCopy32 port h d s e).Logged P m₀ := by
  unfold wildEnd32 at hn
  refine stride_logged _ h d s hlog ?_
  intro h' d' s' hlow hhigh hshift hlog'
  refine Heap.logged_memcpy (hP _ _ _ _ _ ?_ ?_ hwrite) (hP _ _ _ _ _ ?_ ?_ hread)
    (Heap.logged_memcpy (hP _ _ _ _ _ hlow ?_ hwrite) (hP _ _ _ _ _ ?_ ?_ hread) hlog')
  all_goals omega

theorem storePattern_logged (hv : v.length = 8) (hn : max (d + 8) (e + 7) ≤ d + n)
    (hlog : h.Logged P m₀) (hwrite : P ⟨.output, d, n⟩) : (storePattern h v d e).Logged P m₀ := by
  have hle := passes_le (k := 8) (by omega) d e
  refine stride_logged _ h d d hlog ?_
  intro h' d' s' hlow hhigh hshift hlog'
  exact Heap.logged_store (hP _ _ _ _ _ hlow (by omega) hwrite) hlog'

theorem copyFirst8_logged (hlog : h.Logged P m₀) (hread : P ⟨.window, s, 8⟩)
    (hwrite : P ⟨.output, d, 8⟩) : (copyFirst8 h d s offset).1.Logged P m₀ := by
  unfold copyFirst8
  split
  · have hinc : 0 ≤ inc32table.getD offset 0 ∧ inc32table.getD offset 0 ≤ 4 := by
      interval_cases offset <;> decide
    refine Heap.logged_memcpy (hP _ _ _ _ _ (by omega) (by omega) hwrite)
      (hP _ _ _ _ _ (by omega) (by omega) hread)
      (byteCopy_logged hP ?_ (hP _ _ _ _ _ (by omega) (by omega) hread)
        (hP _ _ _ _ _ (by omega) (by omega) hwrite))
    exact Heap.logged_store (hP _ _ _ _ _ (by omega) (by simp) hwrite) hlog
  · exact Heap.logged_memcpy hwrite hread hlog

theorem memcpyUsingOffset_logged (hn : max (d + 16) (e + 7) ≤ d + n) (hlog : h.Logged P m₀)
    (hread : P ⟨.window, d - offset, offset + n⟩) (hwrite : P ⟨.output, d, n⟩) :
    (memcpyUsingOffset h d (d - offset) e offset).Logged P m₀ := by
  unfold memcpyUsingOffset
  split
  iterate 3
    refine storePattern_logged hP rfl (by omega) ?_ hwrite
    exact Heap.logged_load (hP _ _ _ _ _ (by omega) (by omega) hread) hlog
  obtain ⟨_, _, _, _, hfar⟩ := copyFirst8_snd h d offset
  have hnear := le_copyFirst8_snd h d offset
  have hread' : P ⟨.window, (copyFirst8 h d (d - offset) offset).2, n - 8⟩ :=
    hP _ _ _ _ _ hnear (by omega) hread
  refine wildCopy8_logged (n := n - 8) hP (by omega) ?_ hread'
    (hP _ _ _ _ _ (by omega) (by omega) hwrite)
  exact copyFirst8_logged hP hlog (hP _ _ _ _ _ (by omega) (by omega) hread)
    (hP _ _ _ _ _ (by omega) (by omega) hwrite)

end Touched

end Lz4
