import Lz4.Lib.Mem

/-!
# Blocks of bytes that are moved

A streaming program keeps its data in buffers that it copies around.  This file is about what
stands in memory after a copy: a block that was there before and is not hit, and the block that
has been moved.  `Mem.Ends` speaks of bytes by the address behind their last one, which is how
a window of recent output is found.
-/

namespace FlatMemory.Mem

variable {m m' : Mem} {a d s p : Int} {n : Nat} {xs ys : List UInt8}

/-! ## Parts of a block -/

theorem Holds.take (h : m.Holds a xs) (k : Nat) : m.Holds a (xs.take k) := by
  rw [← List.take_append_drop k xs, holds_append] at h
  exact h.1

theorem Holds.drop (h : m.Holds a xs) {k : Nat} (hk : k ≤ xs.length) :
    m.Holds (a + k) (xs.drop k) := by
  rw [← List.take_append_drop k xs, holds_append, List.length_take, Nat.min_eq_left hk] at h
  exact h.2

theorem Holds.append (hxs : m.Holds a xs) (hys : m.Holds (a + xs.length) ys) :
    m.Holds a (xs ++ ys) :=
  holds_append.2 ⟨hxs, hys⟩

/-! ## Copies -/

/-- A copy holds what its source held. -/
theorem Holds.copy (h : m.Holds s xs) (hn : xs.length ≤ n) : (m.copy d s n).Holds d xs := by
  refine bytes_eq_of_forall fun i hi => ?_
  rw [copy_inside (by omega) (by omega), ← h.apply hi]
  congr 1
  omega

/-- A copy leaves alone what it does not hit. -/
theorem Holds.copy_apart (h : m.Holds a xs) (hapart : a + xs.length ≤ d ∨ d + n ≤ a) :
    (m.copy d s n).Holds a xs :=
  h.congr fun x hlow hhigh => (copy_outside (by omega)).symm

/-! ## Blocks by their end -/

/-- The bytes `xs` stand in memory before `p`. -/
def Ends (m : Mem) (p : Int) (xs : List UInt8) : Prop := m.Holds (p - xs.length) xs

@[simp] theorem ends_nil (m : Mem) (p : Int) : m.Ends p [] := rfl

theorem Holds.ends (h : m.Holds a xs) : m.Ends (a + xs.length) xs := by
  unfold Ends
  rwa [Int.add_sub_cancel]

theorem Ends.append (hxs : m.Ends p xs) (hys : m.Holds p ys) :
    m.Ends (p + ys.length) (xs ++ ys) := by
  unfold Ends
  have hstart : p + ys.length - (xs ++ ys).length = p - xs.length := by
    rw [List.length_append]
    omega
  rw [hstart]
  refine Holds.append hxs ?_
  rwa [Int.sub_add_cancel]

theorem Ends.left (h : m.Ends p (xs ++ ys)) : m.Ends (p - ys.length) xs := by
  unfold Ends at h ⊢
  rw [holds_append] at h
  have hstart : p - (xs ++ ys).length = p - ys.length - xs.length := by
    rw [List.length_append]
    omega
  rw [hstart] at h
  exact h.1

theorem Ends.drop (h : m.Ends p xs) (k : Nat) : m.Ends p (xs.drop k) := by
  by_cases hk : k ≤ xs.length
  · have hdrop := Holds.drop h hk
    unfold Ends
    rw [List.length_drop]
    rwa [show p - xs.length + k = p - (xs.length - k : Nat) by omega] at hdrop
  · rw [List.drop_of_length_le (by omega)]
    exact ends_nil m p

theorem Ends.congr (h : m.Ends p xs) (heq : ∀ x, p - xs.length ≤ x → x < p → m x = m' x) :
    m'.Ends p xs :=
  Holds.congr h fun x hlow hhigh => heq x hlow (by omega)

/-- A copy ends with what its source ended with. -/
theorem Ends.copy (h : m.Ends (s + n) xs) (hn : xs.length ≤ n) :
    (m.copy d s n).Ends (d + n) xs := by
  refine bytes_eq_of_forall fun i hi => ?_
  rw [copy_inside (by omega) (by omega), ← Holds.apply h hi]
  congr 1
  omega

theorem Ends.copy_apart (h : m.Ends p xs) (hapart : p ≤ d ∨ d + n ≤ p - xs.length) :
    (m.copy d s n).Ends p xs :=
  h.congr fun x hlow hhigh => (copy_outside (by omega)).symm

end FlatMemory.Mem
