import Lz4.Lib.Mem

/-!
# Copies made in fixed strides

A fast copy loop moves a strip of `k` bytes, advances both pointers by `k` and
goes on until the destination pointer has passed the end, so it writes up to
`k - 1` bytes too many.  `stride` is the loop, `passes` the number of times its
`do … while (d < e)` runs, and `Strip` what one pass has to satisfy.

Two facts about such a loop are used throughout, and neither asks for the
ranges to be disjoint:

* if the destination lies at or below the source, every byte written is the
  byte the source held at the start (`stride_forward`);
* if the destination lies above the source by at least the width `c` that one
  pass moves at once, every byte written equals, *in the resulting memory*, the
  byte `d - s` below it (`stride_backward`).  This is the periodic
  extension that a back-reference means.
-/

namespace FlatMemory

/-- One pass of a copy loop: it writes `k` bytes at `d`, and reads them so that
sources at a distance of at least `c` below are already up to date. -/
structure Strip (body : Heap → Int → Int → Heap) (k c : Nat) : Prop where
  frame : ∀ (h : Heap) (d s a : Int), (a < d ∨ d + k ≤ a) → (body h d s).mem a = h.mem a
  forward : ∀ (h : Heap) (d s a : Int), d ≤ s → d ≤ a → a < d + k →
    (body h d s).mem a = h.mem (s + (a - d))
  backward : ∀ (h : Heap) (d s a : Int), s + c ≤ d → d ≤ a → a < d + k →
    (body h d s).mem a = (body h d s).mem (s + (a - d))

/-- `n` passes of `body`, each advancing both pointers by `k`. -/
def stride (body : Heap → Int → Int → Heap) (k : Nat) : Nat → Heap → Int → Int → Heap
  | 0, h, _, _ => h
  | n + 1, h, d, s => stride body k n (body h d s) (d + k) (s + k)

/-- How often `do { …; d += k; } while (d < e)` runs its body. -/
def passes (k : Nat) (d e : Int) : Nat :=
  ((e - d - 1) / k).toNat + 1

/-- The loop reaches its end. -/
theorem le_passes {k : Nat} (hk : 0 < k) (d e : Int) : e ≤ d + (k * passes k d e : Nat) := by
  have hdiv := Int.emod_add_mul_ediv (e - d - 1) k
  have hmod := Int.emod_lt_of_pos (e - d - 1) (show (0 : Int) < k by omega)
  have hself := Int.self_le_toNat ((e - d - 1) / (k : Int))
  have hmul := Int.mul_le_mul_of_nonneg_left hself (show (0 : Int) ≤ k by omega)
  rw [passes, Nat.mul_succ]
  omega

/-- The loop stops less than one strip behind its end. -/
theorem passes_le {k : Nat} (hk : 0 < k) (d e : Int) :
    d + (k * passes k d e : Nat) ≤ max (d + k) (e + k - 1) := by
  rcases Int.lt_or_le (e - d - 1) 0 with hneg | hnonneg
  · have hzero : ((e - d - 1) / (k : Int)).toNat = 0 := by
      have := Int.ediv_lt_of_lt_mul (a := e - d - 1) (b := 0) (show (0 : Int) < k by omega)
        (by omega)
      omega
    simp only [passes, hzero]
    omega
  · have hdiv := Int.emod_add_mul_ediv (e - d - 1) k
    have hmod := Int.emod_nonneg (e - d - 1) (show (k : Int) ≠ 0 by omega)
    have hquot := Int.ediv_nonneg hnonneg (show (0 : Int) ≤ k by omega)
    have hcast : (((e - d - 1) / (k : Int)).toNat : Int) = (e - d - 1) / k :=
      Int.toNat_of_nonneg hquot
    rw [passes, Nat.mul_succ]
    push_cast
    rw [hcast]
    omega

section

variable {body : Heap → Int → Int → Heap} {k c : Nat} (strip : Strip body k c)
include strip

/-- The loop writes nothing outside its strips. -/
theorem stride_frame (n : Nat) (h : Heap) (d s a : Int)
    (ha : a < d ∨ d + (k * n : Nat) ≤ a) : (stride body k n h d s).mem a = h.mem a := by
  induction n generalizing h d s with
  | zero => rfl
  | succ n ih =>
    have hmul : k * (n + 1) = k * n + k := Nat.mul_succ k n
    rw [stride, ih _ _ _ (by omega), strip.frame _ _ _ _ (by omega)]

/-- Copying towards lower addresses delivers the original bytes. -/
theorem stride_forward (n : Nat) (h : Heap) (d s a : Int) (hds : d ≤ s) (hlow : d ≤ a)
    (hhigh : a < d + (k * n : Nat)) : (stride body k n h d s).mem a = h.mem (s + (a - d)) := by
  induction n generalizing h d s with
  | zero => simp at hhigh; omega
  | succ n ih =>
    have hmul : k * (n + 1) = k * n + k := Nat.mul_succ k n
    rw [stride]
    rcases Int.lt_or_le a (d + k) with hfirst | hlater
    · -- later passes work above `a`
      rw [stride_frame strip _ _ _ _ _ (by omega), strip.forward _ _ _ _ hds hlow hfirst]
    · rw [ih _ _ _ (by omega) hlater (by omega)]
      have haddr : s + k + (a - (d + k)) = s + (a - d) := by omega
      rw [haddr, strip.frame _ _ _ _ (by omega)]

/-- Copying towards higher addresses extends the bytes below periodically. -/
theorem stride_backward (n : Nat) (h : Heap) (d s a : Int) (hds : s + c ≤ d) (hlow : d ≤ a)
    (hhigh : a < d + (k * n : Nat)) :
    (stride body k n h d s).mem a = (stride body k n h d s).mem (s + (a - d)) := by
  induction n generalizing h d s with
  | zero => simp at hhigh; omega
  | succ n ih =>
    have hmul : k * (n + 1) = k * n + k := Nat.mul_succ k n
    rw [stride]
    rcases Int.lt_or_le a (d + k) with hfirst | hlater
    · rw [stride_frame strip _ _ _ _ _ (by omega), strip.backward _ _ _ _ hds hlow hfirst,
        stride_frame strip _ _ _ _ _ (by omega)]
    · rw [ih _ _ _ (by omega) hlater (by omega)]
      have haddr : s + k + (a - (d + k)) = s + (a - d) := by omega
      rw [haddr]

end

/-- A property of the log that every pass keeps is kept by the loop. -/
theorem stride_logged {body : Heap → Int → Int → Heap} {k : Nat} {P : Access → Prop} {m₀ : Mem}
    (n : Nat) (h : Heap) (d s : Int) (hlog : h.Logged P m₀)
    (hbody : ∀ h' d' s', d ≤ d' → d' + k ≤ d + (k * n : Nat) → s' - s = d' - d → h'.Logged P m₀ →
      (body h' d' s').Logged P m₀) : (stride body k n h d s).Logged P m₀ := by
  induction n generalizing h d s with
  | zero => exact hlog
  | succ n ih =>
    have hmul : k * (n + 1) = k * n + k := Nat.mul_succ k n
    apply ih
    · exact hbody h d s (by omega) (by omega) (by omega) hlog
    · intro h' d' s' hlow hhigh hshift hlog'
      exact hbody h' d' s' (by omega) (by omega) (by omega) hlog'

/-! ## Passes that move one block -/

/-- A pass that moves `k` bytes at once. -/
theorem strip_memcpy (port : Port) (k : Nat) : Strip (fun h d s => h.memcpy port d s k) k k where
  frame _ _ _ _ ha := Mem.copy_outside ha
  forward _ _ _ _ _ hlow hhigh := Mem.copy_inside hlow hhigh
  backward h d s a hds hlow hhigh := by
    rw [Heap.memcpy_mem, Mem.copy_inside hlow hhigh, Mem.copy_outside (by omega)]

/-- A pass that moves `k` bytes and then the next `k` bytes. -/
theorem strip_memcpy_twice (port : Port) (k : Nat) :
    Strip (fun h d s => (h.memcpy port d s k).memcpy port (d + k) (s + k) k) (k + k) k where
  frame h d s a ha := by
    simp only [Heap.memcpy_mem]
    rw [Mem.copy_outside (by omega), Mem.copy_outside (by omega)]
  forward h d s a hds hlow hhigh := by
    simp only [Heap.memcpy_mem]
    rcases Int.lt_or_le a (d + k) with hfirst | hsecond
    · rw [Mem.copy_outside (by omega), Mem.copy_inside hlow hfirst]
    · rw [Mem.copy_inside hsecond (by omega), Mem.copy_outside (by omega)]
      congr 1
      omega
  backward h d s a hds hlow hhigh := by
    simp only [Heap.memcpy_mem]
    rcases Int.lt_or_le a (d + k) with hfirst | hsecond
    · rw [Mem.copy_outside (by omega), Mem.copy_inside hlow hfirst,
        Mem.copy_outside (a := s + (a - d)) (by omega),
        Mem.copy_outside (a := s + (a - d)) (by omega)]
    · rw [Mem.copy_inside hsecond (by omega), Mem.copy_outside (a := s + (a - d)) (d := d + k)
        (by omega)]
      congr 1
      omega

/-- The byte loop `while (n--) *d++ = *s++`. -/
def byteCopy (port : Port) (h : Heap) (d s : Int) (n : Nat) : Heap :=
  stride (fun h d s => h.memcpy port d s 1) 1 n h d s

theorem byteCopy_frame (port : Port) (h : Heap) (d s : Int) (n : Nat) (a : Int)
    (ha : a < d ∨ d + n ≤ a) : (byteCopy port h d s n).mem a = h.mem a :=
  stride_frame (strip_memcpy port 1) n h d s a (by omega)

/-- A byte loop at distance at least one extends the bytes below periodically. -/
theorem byteCopy_backward (port : Port) (h : Heap) (d s : Int) (n : Nat) (a : Int)
    (hds : s < d) (hlow : d ≤ a) (hhigh : a < d + n) :
    (byteCopy port h d s n).mem a = (byteCopy port h d s n).mem (s + (a - d)) :=
  stride_backward (strip_memcpy port 1) n h d s a (by omega) hlow (by omega)

theorem byteCopy_logged {P : Access → Prop} (hP : Downward P) {m₀ : Mem} {port : Port} {h : Heap}
    {d s : Int} {n : Nat} (hlog : h.Logged P m₀) (hread : P ⟨port, s, n⟩)
    (hwrite : P ⟨.output, d, n⟩) : (byteCopy port h d s n).Logged P m₀ := by
  refine stride_logged n h d s hlog ?_
  intro h' d' s' hlow hhigh hshift hlog'
  exact Heap.logged_memcpy (hP _ _ _ _ _ hlow (by omega) hwrite)
    (hP _ _ _ _ _ (by omega) (by omega) hread) hlog'

end FlatMemory
