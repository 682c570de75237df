import Lz4.Lib.Stride

/-!
# Reads of memory that was not written

The log of a heap tells which bytes were written, and which were read before that
(`FreshRead`).  For a program whose accesses do not depend on some part of memory, this
decides whether its results depend on it.

* Two runs with the same log agree on everything that is known from the start or was written,
  unless a byte was read that is neither (`Paired`).
* A program that writes from lower to higher addresses and reads below the end of what it has
  written makes no such reads (`Filled`).  Copying a byte to itself is the exception; the byte
  then keeps the value it had at the start.
-/

namespace FlatMemory

/-- The byte at `a` was written. -/
def Wrote : List Access → Int → Prop
  | [], _ => False
  | x :: log, a => Wrote log a ∨ (x.port = .output ∧ x.lo ≤ a ∧ a < x.lo + x.len)

/-- The byte at `a` was read when it had not been written yet. -/
def FreshRead : List Access → Int → Prop
  | [], _ => False
  | x :: log, a =>
    FreshRead log a ∨ (x.port ≠ .output ∧ (x.lo ≤ a ∧ a < x.lo + x.len) ∧ ¬ Wrote log a)

namespace Heap

variable {h : Heap} {port : Port} {d s a : Int} {n : Nat}

theorem wrote_load (hport : port ≠ .output) : Wrote (h.load port s n).log a ↔ Wrote h.log a := by
  simp [load, Wrote, hport]

theorem wrote_memcpy (hport : port ≠ .output) :
    Wrote (h.memcpy port d s n).log a ↔ Wrote h.log a ∨ (d ≤ a ∧ a < d + n) := by
  simp [memcpy, Wrote, hport]

theorem wrote_store {bs : List UInt8} :
    Wrote (h.store d bs).log a ↔ Wrote h.log a ∨ (d ≤ a ∧ a < d + bs.length) := by
  simp [store, Wrote]

theorem freshRead_load (hport : port ≠ .output) : FreshRead (h.load port s n).log a ↔
    FreshRead h.log a ∨ ((s ≤ a ∧ a < s + n) ∧ ¬ Wrote h.log a) := by
  simp [load, FreshRead, hport]

theorem freshRead_memcpy (hport : port ≠ .output) : FreshRead (h.memcpy port d s n).log a ↔
    FreshRead h.log a ∨ ((s ≤ a ∧ a < s + n) ∧ ¬ Wrote h.log a) := by
  simp [memcpy, FreshRead, hport]

theorem freshRead_store {bs : List UInt8} : FreshRead (h.store d bs).log a ↔ FreshRead h.log a := by
  simp [store, FreshRead]

end Heap

/-! ## Two runs -/

/-- Two heaps with the same accesses.  If all fresh reads are of addresses that are `Known`,
they agree on these and on what was written. -/
structure Paired (Known : Int → Prop) (h₁ h₂ : Heap) : Prop where
  log : h₁.log = h₂.log
  agree : (∀ a, FreshRead h₁.log a → Known a) → ∀ a, Known a ∨ Wrote h₁.log a →
    h₁.mem a = h₂.mem a

section

variable {Known : Int → Prop} {h₁ h₂ : Heap} {port : Port} {d s : Int} {n : Nat}

section

variable (paired : Paired Known h₁ h₂)

include paired

theorem Paired.load (hport : port ≠ .output) :
    Paired Known (h₁.load port s n) (h₂.load port s n) where
  log := congrArg (fun log => _ :: log) paired.log
  agree hfresh a ha := by
    refine paired.agree (fun x hx => hfresh x ?_) a ?_
    · exact (Heap.freshRead_load hport).mpr (Or.inl hx)
    · rwa [Heap.wrote_load hport] at ha

/-- A byte that was just read is the same in both. -/
theorem Paired.agree_of_load (hport : port ≠ .output)
    (hfresh : ∀ a, FreshRead (h₁.load port s n).log a → Known a) {a : Int} (hlow : s ≤ a)
    (hhigh : a < s + n) : h₁.mem a = h₂.mem a := by
  refine paired.agree (fun x hx => hfresh x ?_) a ?_
  · exact (Heap.freshRead_load hport).mpr (Or.inl hx)
  · by_contra hnot
    exact hnot (Or.inl (hfresh a ((Heap.freshRead_load hport).mpr
      (Or.inr ⟨⟨hlow, hhigh⟩, fun hw => hnot (Or.inr hw)⟩))))

theorem Paired.memcpy (hport : port ≠ .output) :
    Paired Known (h₁.memcpy port d s n) (h₂.memcpy port d s n) where
  log := congrArg (fun log => _ :: _ :: log) paired.log
  agree hfresh a ha := by
    have hread (x : Int) (hx : FreshRead (h₁.load port s n).log x) : Known x := by
      refine hfresh x ?_
      rwa [Heap.freshRead_memcpy hport, ← Heap.freshRead_load hport]
    rw [Heap.wrote_memcpy hport] at ha
    simp only [Heap.memcpy_mem]
    by_cases hin : d ≤ a ∧ a < d + n
    · rw [Mem.copy_inside hin.1 hin.2, Mem.copy_inside hin.1 hin.2]
      exact paired.agree_of_load hport hread (by omega) (by omega)
    · rw [Mem.copy_outside (by omega), Mem.copy_outside (by omega)]
      refine paired.agree (fun x hx => hread x ?_) a ?_
      · exact (Heap.freshRead_load hport).mpr (Or.inl hx)
      · exact ha.imp_right fun hw => hw.resolve_right hin

theorem Paired.store {bs bs' : List UInt8} (hlength : bs.length = bs'.length)
    (heq : (∀ a, FreshRead h₁.log a → Known a) → bs = bs') :
    Paired Known (h₁.store d bs) (h₂.store d bs') where
  log := by
    simp only [Heap.store, hlength, paired.log]
  agree hfresh a ha := by
    have hfresh' (x : Int) (hx : FreshRead h₁.log x) : Known x :=
      hfresh x (Heap.freshRead_store.mpr hx)
    rw [Heap.wrote_store] at ha
    rw [Heap.store_mem, Heap.store_mem, ← heq hfresh']
    by_cases hin : d ≤ a ∧ a < d + bs.length
    · simp only [Mem.store, if_pos hin]
    · rw [Mem.store_outside (by omega), Mem.store_outside (by omega)]
      exact paired.agree hfresh' a (ha.imp_right fun hw => hw.resolve_right hin)

end

theorem Paired.stride {body₁ body₂ : Heap → Int → Int → Heap} {k : Nat}
    (hbody : ∀ h₁ h₂ d s, Paired Known h₁ h₂ → Paired Known (body₁ h₁ d s) (body₂ h₂ d s))
    (paired : Paired Known h₁ h₂) :
    Paired Known (FlatMemory.stride body₁ k n h₁ d s) (FlatMemory.stride body₂ k n h₂ d s) := by
  induction n generalizing h₁ h₂ d s with
  | zero => exact paired
  | succ n ih => exact ih (hbody _ _ _ _ paired)

theorem Paired.byteCopy (paired : Paired Known h₁ h₂) (hport : port ≠ .output) :
    Paired Known (FlatMemory.byteCopy port h₁ d s n) (FlatMemory.byteCopy port h₂ d s n) :=
  paired.stride fun _ _ _ _ paired => paired.memcpy hport

end

/-! ## Writing from lower to higher addresses -/

/-- From the memory `m`, everything below `hi` that is not `Known` was written.  Only bytes
below `op` were read before that, and they are as they were. -/
structure Filled (Known : Int → Prop) (m : Mem) (op hi : Int) (h : Heap) : Prop where
  kept : ∀ a, ¬ Wrote h.log a → h.mem a = m a
  written : ∀ a, ¬ Known a → a < hi → Wrote h.log a
  fresh : ∀ a, ¬ Known a → FreshRead h.log a → a < op ∧ h.mem a = m a

section

variable {Known : Int → Prop} {m : Mem} {op hi : Int} {h : Heap} {port : Port} {d s : Int} {n : Nat}

section

variable (filled : Filled Known m op hi h)

include filled

theorem Filled.mono {op' hi' : Int} (hop : op ≤ op') (hhi : hi' ≤ hi) :
    Filled Known m op' hi' h where
  kept := filled.kept
  written a hknown ha := filled.written a hknown (by omega)
  fresh a hknown hfresh := ⟨by have := (filled.fresh a hknown hfresh).1; omega,
    (filled.fresh a hknown hfresh).2⟩

/-- A byte below `hi` is known or was written. -/
theorem Filled.not_fresh {a : Int} (hknown : ¬ Known a)
    (hread : (s ≤ a ∧ a < s + n) ∧ ¬ Wrote h.log a)
    (hcovered : ∀ x, s ≤ x → x < s + n → x < hi ∨ Known x) : False :=
  (hcovered a hread.1.1 hread.1.2).elim (fun hlt => hread.2 (filled.written a hknown hlt)) hknown

theorem Filled.load (hport : port ≠ .output) (hcovered : ∀ x, s ≤ x → x < s + n → x < hi ∨ Known x)
    :
    Filled Known m op hi (h.load port s n) where
  kept a ha := filled.kept a (by rwa [Heap.wrote_load hport] at ha)
  written a hknown ha := (Heap.wrote_load hport).mpr (filled.written a hknown ha)
  fresh a hknown hfresh := by
    rw [Heap.freshRead_load hport] at hfresh
    rcases hfresh with hold | hread
    · exact filled.fresh a hknown hold
    · exact (filled.not_fresh hknown hread hcovered).elim

theorem Filled.memcpy (hport : port ≠ .output) (hop : op ≤ d) (hd : d ≤ hi)
    (hcovered : ∀ x, s ≤ x → x < s + n → x < hi ∨ Known x) :
    Filled Known m op (max hi (d + n)) (h.memcpy port d s n) where
  kept a ha := by
    rw [Heap.wrote_memcpy hport, not_or] at ha
    rw [Heap.memcpy_mem, Mem.copy_outside (by omega)]
    exact filled.kept a ha.1
  written a hknown ha := by
    rw [Heap.wrote_memcpy hport]
    by_cases hlow : a < hi
    · exact Or.inl (filled.written a hknown hlow)
    · exact Or.inr (by omega)
  fresh a hknown hfresh := by
    rw [Heap.freshRead_memcpy hport] at hfresh
    rcases hfresh with hold | hread
    · obtain ⟨hlt, heq⟩ := filled.fresh a hknown hold
      rw [Heap.memcpy_mem, Mem.copy_outside (by omega)]
      exact ⟨hlt, heq⟩
    · exact (filled.not_fresh hknown hread hcovered).elim

theorem Filled.store (hop : op ≤ d) (hd : d ≤ hi) (bs : List UInt8) :
    Filled Known m op (max hi (d + bs.length)) (h.store d bs) where
  kept a ha := by
    rw [Heap.wrote_store, not_or] at ha
    rw [Heap.store_mem, Mem.store_outside (by omega)]
    exact filled.kept a ha.1
  written a hknown ha := by
    rw [Heap.wrote_store]
    by_cases hlow : a < hi
    · exact Or.inl (filled.written a hknown hlow)
    · exact Or.inr (by omega)
  fresh a hknown hfresh := by
    rw [Heap.freshRead_store] at hfresh
    obtain ⟨hlt, heq⟩ := filled.fresh a hknown hfresh
    rw [Heap.store_mem, Mem.store_outside (by omega)]
    exact ⟨hlt, heq⟩

end

/-- A loop in strips of `k` bytes that reads what is at least `c` bytes below, or known. -/
theorem Filled.stride {body : Heap → Int → Int → Heap} {k c : Nat}
    (hbody : ∀ (h : Heap) (hi d s : Int), Filled Known m op hi h → op ≤ d → d ≤ hi →
      (s + c ≤ d ∨ ∀ x, s ≤ x → x < s + k → Known x) →
      Filled Known m op (max hi (d + k)) (body h d s))
    (filled : Filled Known m op hi h) (hop : op ≤ d) (hd : d ≤ hi)
    (hcovered : s + c ≤ d ∨ ∀ x, s ≤ x → x < s + (k * n : Nat) → Known x) :
    Filled Known m op (max hi (d + (k * n : Nat))) (FlatMemory.stride body k n h d s) := by
  induction n generalizing h hi d s with
  | zero => exact filled.mono (Int.le_refl _) (by rw [Nat.mul_zero]; omega)
  | succ n ih =>
    have hmul : k * (n + 1) = k * n + k := Nat.mul_succ k n
    have hnext := hbody h hi d s filled hop hd
      (hcovered.imp_right fun hknown x hlow hhigh => hknown x hlow (by omega))
    refine (ih hnext (by omega) (by omega) ?_).mono (Int.le_refl _) (by omega)
    rcases hcovered with hbelow | hknown
    · exact Or.inl (by omega)
    · exact Or.inr fun x hlow hhigh => hknown x (by omega) (by omega)

/-- A block move as a strip. -/
theorem Filled.memcpy_strip (filled : Filled Known m op hi h) (hport : port ≠ .output)
    (hop : op ≤ d) (hd : d ≤ hi) (hcovered : s + n ≤ d ∨ ∀ x, s ≤ x → x < s + n → Known x) :
    Filled Known m op (max hi (d + n)) (h.memcpy port d s n) := by
  refine filled.memcpy hport hop hd fun x hlow hhigh => ?_
  rcases hcovered with hbelow | hknown
  · exact Or.inl (by omega)
  · exact Or.inr (hknown x hlow hhigh)

theorem Filled.byteCopy (filled : Filled Known m op hi h) (hport : port ≠ .output) (hop : op ≤ d)
    (hd : d ≤ hi) (hbelow : s < d) :
    Filled Known m op (max hi (d + n)) (FlatMemory.byteCopy port h d s n) := by
  have hstride : Filled Known m op (max hi (d + (1 * n : Nat)))
      (FlatMemory.byteCopy port h d s n) :=
    filled.stride (fun _ _ _ _ filled hop hd hcovered => filled.memcpy_strip hport hop hd hcovered)
      hop hd (Or.inl (show s + (1 : Nat) ≤ d by omega))
  rwa [Nat.one_mul] at hstride

/-- A byte copy that reads only what is below `hi` already. -/
theorem Filled.byteCopy_covered (filled : Filled Known m op hi h) (hport : port ≠ .output)
    (hop : op ≤ d) (hd : d ≤ hi) (hbelow : s + n ≤ hi) :
    Filled Known m op (max hi (d + n)) (FlatMemory.byteCopy port h d s n) := by
  induction n generalizing h d s hi with
  | zero => exact filled.mono (Int.le_refl _) (by omega)
  | succ n ih =>
    have first := filled.memcpy (d := d) (s := s) (n := 1) hport hop hd
      fun x _ hhigh => Or.inl (by omega)
    exact Filled.mono (h := FlatMemory.byteCopy port h d s (n + 1))
      (ih first (by omega) (by omega) (by omega)) (Int.le_refl _) (by omega)

/-- Bytes that are copied to themselves may not have been written before. -/
theorem Filled.byteCopy_self (filled : Filled Known m d hi h) (hport : port ≠ .output) (hd : d ≤ hi)
    :
    Filled Known m (d + n) (max hi (d + n)) (FlatMemory.byteCopy port h d d n) := by
  induction n generalizing h d hi with
  | zero => exact filled.mono (by omega) (by omega)
  | succ n ih =>
    have hmem : (h.memcpy port d d 1).mem = h.mem := by
      funext a
      rw [Heap.memcpy_mem]
      by_cases hin : d ≤ a ∧ a < d + (1 : Nat)
      · rw [Mem.copy_inside hin.1 hin.2]
        congr 1
        omega
      · rw [Mem.copy_outside (by omega)]
    have hnext : Filled Known m (d + 1) (max hi (d + 1)) (h.memcpy port d d 1) := by
      constructor
      · intro a ha
        rw [Heap.wrote_memcpy hport, not_or] at ha
        rw [hmem]
        exact filled.kept a ha.1
      · intro a hknown ha
        rw [Heap.wrote_memcpy hport]
        by_cases hlow : a < hi
        · exact Or.inl (filled.written a hknown hlow)
        · exact Or.inr (by omega)
      · intro a hknown hfresh
        rw [Heap.freshRead_memcpy hport] at hfresh
        rw [hmem]
        rcases hfresh with hold | hread
        · obtain ⟨hlt, heq⟩ := filled.fresh a hknown hold
          exact ⟨by omega, heq⟩
        · exact ⟨by omega, filled.kept a hread.2⟩
    have hrest := ih hnext (by omega)
    refine Filled.mono (h := FlatMemory.byteCopy port h d d (n + 1)) hrest (by omega) (by omega)

end

end FlatMemory
