import Lz4.Lib.Stride

/-!
# Periodic ranges of memory

A back-reference at distance `p` produces a range in which every byte equals
the byte `p` below it.  Copy loops that work on words establish this directly
for the first few bytes and then copy at a *multiple* of `p`, so that a word
never reads what it is about to write.  `PeriodicOn.extend` says that this is
just as good, provided enough bytes were laid down first.
-/

namespace FlatMemory

/-- Every byte of `[lo, hi)` equals the byte `p` below it. -/
def PeriodicOn (m : Mem) (lo hi p : Int) : Prop :=
  ∀ a, lo ≤ a → a < hi → m a = m (a - p)

namespace PeriodicOn

variable {m : Mem} {lo mid hi p : Int}

theorem mono {lo' hi' : Int} (periodic : PeriodicOn m lo hi p) (hlo : lo ≤ lo') (hhi : hi' ≤ hi) :
    PeriodicOn m lo' hi' p :=
  fun a hlow hhigh => periodic a (by omega) (by omega)

/-- Going down several periods at once. -/
theorem iterate (periodic : PeriodicOn m lo hi p) (hp : 0 ≤ p) (j : Nat) {a : Int}
    (hlow : lo ≤ a - j * p) (hhigh : a < hi) : m a = m (a - (j + 1) * p) := by
  induction j with
  | zero =>
    have hzero : a - ((0 : Nat) + 1) * p = a - p := by simp
    rw [hzero]
    exact periodic a (by simpa using hlow) hhigh
  | succ j ih =>
    have hstep : ((j + 1 : Nat) : Int) * p = j * p + p := by push_cast; rw [Int.add_mul]; omega
    have hnext : (((j + 1 : Nat) : Int) + 1) * p = (j + 1) * p + p := by
      push_cast; rw [Int.add_mul (j + 1 : Int) 1 p]; omega
    have hone : ((j : Int) + 1) * p = j * p + p := by rw [Int.add_mul]; omega
    have hpos : 0 ≤ (j : Int) * p := Int.mul_nonneg (by omega) hp
    rw [ih (by omega), periodic (a - (j + 1) * p) (by omega) (by omega), hnext]
    congr 1
    omega

/-- Bytes copied at a multiple of the period continue the period, once the
range below holds all but one of these periods. -/
theorem extend (periodic : PeriodicOn m lo mid p) (hp : 0 < p) (q : Nat)
    (hroom : q * p ≤ mid - lo)
    (hcopy : ∀ a, mid ≤ a → a < hi → m a = m (a - (q + 1) * p)) : PeriodicOn m lo hi p := by
  -- strong induction along the range: everything below `a` is periodic already
  have main : ∀ n : Nat, ∀ a, lo ≤ a → a < hi → (a - lo).toNat < n → m a = m (a - p) := by
    intro n
    induction n with
    | zero => intro a _ _ hn; omega
    | succ n ih =>
      intro a hlow hhigh hn
      rcases Int.lt_or_le a mid with hfirst | hlater
      · exact periodic a hlow hfirst
      · have below : PeriodicOn m lo a p := fun b hb hba =>
          ih b hb (by omega) (by omega)
        rw [hcopy a hlater hhigh]
        cases q with
        | zero => simp
        | succ q =>
          have hexpand : ((q + 1 : Nat) : Int) * p = q * p + p := by
            push_cast; rw [Int.add_mul]; omega
          have hexpand' : (((q + 1 : Nat) : Int) + 1) * p = (q + 1 : Nat) * p + p := by
            rw [Int.add_mul]; omega
          have hone : ((q : Int) + 1) * p = q * p + p := by rw [Int.add_mul]; omega
          have hdown := below.iterate (a := a - p) (by omega) q (by omega) (by omega)
          rw [hdown]
          congr 1
          omega
  intro a hlow hhigh
  exact main _ a hlow hhigh (Nat.lt_succ_self _)

/-- A range that starts with a period of zeros is zero. -/
theorem zero_of_zero (periodic : PeriodicOn m mid hi p) (hp : 0 < p) (hroom : lo + p ≤ mid)
    (hzero : ∀ a, lo ≤ a → a < mid → m a = 0) : ∀ a, lo ≤ a → a < hi → m a = 0 := by
  have main : ∀ n : Nat, ∀ a, lo ≤ a → a < hi → (a - lo).toNat < n → m a = 0 := by
    intro n
    induction n with
    | zero => intro a _ _ hn; omega
    | succ n ih =>
      intro a hlow hhigh hn
      rcases Int.lt_or_le a mid with hfirst | hlater
      · exact hzero a hlow hfirst
      · rw [periodic a hlater hhigh]
        exact ih (a - p) (by omega) (by omega) (by omega)
  intro a hlow hhigh
  exact main _ a hlow hhigh (Nat.lt_succ_self _)

/-- A periodic continuation is determined by what is in front of it. -/
theorem unique {m' : Mem} (periodic : PeriodicOn m lo hi p) (periodic' : PeriodicOn m' lo hi p)
    (hp : 0 < p) (hbelow : ∀ a, a < lo → m a = m' a) {a : Int} (ha : a < hi) : m a = m' a := by
  obtain ⟨n, hn⟩ : ∃ n : Nat, a < lo + n := ⟨(a - lo + 1).toNat, by omega⟩
  induction n using Nat.strongRecOn generalizing a with
  | ind n ih =>
    by_cases hlow : lo ≤ a
    · rw [periodic a hlow ha, periodic' a hlow ha]
      exact ih (a - lo).toNat (by omega) (by omega) (by omega)
    · exact hbelow a (by omega)

end PeriodicOn

/-- A copy loop whose source lies at least `c` below its destination leaves a
periodic range. -/
theorem periodicOn_stride {body : Heap → Int → Int → Heap} {k c : Nat} (strip : Strip body k c)
    (n : Nat) (h : Heap) (d s : Int) (hds : s + c ≤ d) :
    PeriodicOn (stride body k n h d s).mem d (d + (k * n : Nat)) (d - s) := by
  intro a hlow hhigh
  rw [stride_backward strip n h d s a hds hlow hhigh]
  congr 1
  omega

/-! ## Storing one pattern over and over -/

theorem stride_store_frame {bs : List UInt8} {k : Nat} (hk : bs.length = k) (n : Nat) (h : Heap)
    (d s a : Int) (ha : a < d ∨ d + (k * n : Nat) ≤ a) :
    (stride (fun h d _ => h.store d bs) k n h d s).mem a = h.mem a := by
  induction n generalizing h d s with
  | zero => rfl
  | succ n ih =>
    have hmul : k * (n + 1) = k * n + k := Nat.mul_succ k n
    rw [stride, ih _ _ _ (by omega), Heap.store_mem, Mem.store_outside (by omega)]

/-- The loop that stores the same bytes in every strip. -/
theorem stride_store_apply {bs : List UInt8} {k : Nat} (hk : bs.length = k) (n : Nat) (h : Heap)
    (d s a : Int) (hlow : d ≤ a) (hhigh : a < d + (k * n : Nat)) :
    (stride (fun h d _ => h.store d bs) k n h d s).mem a =
      bs.getD ((a - d) % k).toNat 0 := by
  induction n generalizing h d s with
  | zero => simp at hhigh; omega
  | succ n ih =>
    have hmul : k * (n + 1) = k * n + k := Nat.mul_succ k n
    rw [stride]
    rcases Int.lt_or_le a (d + k) with hfirst | hlater
    · have hidx : ((a - d) % k).toNat = (a - d).toNat := by
        rw [Int.emod_eq_of_lt (by omega) (by omega)]
      have haddr : a = d + ((a - d).toNat : Int) := by omega
      rw [stride_store_frame hk _ _ _ _ _ (by omega), hidx, Heap.store_mem]
      conv_lhs => rw [haddr]
      exact Mem.store_inside (by omega)
    · rw [ih _ _ _ hlater (by omega)]
      have hshift : a - (d + k) = (a - d) - k := by omega
      rw [hshift, Int.sub_emod_right]

end FlatMemory
