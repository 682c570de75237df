import Lz4.Lib.Mem

/-!
# Memory from an allocator

A program gets blocks from an allocator and gives them back.  An `Arena` lists the blocks that
are live and remembers whether everything the program has touched or freed was live at that
moment (`sound`); once it is lost, soundness does not come back.

An `Allocator` may refuse any request, with the answer `0`.  Otherwise it answers with the start
of a block, which is not the start of a live one.  `Arena.Provides` is what a program that owns a
block knows about it, and the lemmas say which operations keep that.
-/

namespace FlatMemory

/-- A block of memory. -/
structure Extent where
  start : Int
  size : Nat
  deriving Repr, DecidableEq

/-- The live blocks, the number of requests that have been made, and whether all accesses were
to live memory. -/
structure Arena where
  live : List Extent := []
  requests : Nat := 0
  sound : Bool := true
  deriving Repr, DecidableEq

namespace Arena

variable {a : Arena} {p q : Int} {n k : Nat}

/-- A range is inside a live block, or empty. -/
def covers (a : Arena) (p : Int) (n : Nat) : Bool :=
  n == 0 || a.live.any fun b => decide (b.start ≤ p) && decide (p + n ≤ b.start + b.size)

/-- An access to `n` bytes. -/
def touch (a : Arena) (p : Int) (n : Nat) : Arena := { a with sound := a.sound && a.covers p n }

/-- `free`, which does nothing for a null pointer. -/
def free (a : Arena) (p : Int) : Arena :=
  if p = 0 then a
  else
    { a with
      live := a.live.filter fun b => b.start ≠ p
      sound := a.sound && a.live.any fun b => b.start = p }

/-- A live block of at least `n` bytes starts at `p`. -/
def Provides (a : Arena) (p : Int) (n : Nat) : Prop :=
  ∃ b ∈ a.live, b.start = p ∧ n ≤ b.size

theorem Provides.mono (h : a.Provides p n) (hle : k ≤ n) : a.Provides p k := by
  obtain ⟨b, hb, hstart, hsize⟩ := h
  exact ⟨b, hb, hstart, Nat.le_trans hle hsize⟩

theorem Provides.covers (h : a.Provides p n) {lo : Int} (hlo : p ≤ lo) (hhi : lo + k ≤ p + n) :
    a.covers lo k = true := by
  obtain ⟨b, hb, rfl, hsize⟩ := h
  simp only [Arena.covers, Bool.or_eq_true, List.any_eq_true, Bool.and_eq_true,
    decide_eq_true_eq]
  exact Or.inr ⟨b, hb, hlo, by omega⟩

@[simp] theorem covers_zero (a : Arena) (p : Int) : a.covers p 0 = true := rfl

/-- An access to a part of a live block. -/
theorem touch_eq (h : a.Provides p n) {lo : Int} (hlo : p ≤ lo) (hhi : lo + k ≤ p + n) :
    a.touch lo k = a := by
  unfold touch
  rw [h.covers hlo hhi, Bool.and_true]

theorem touch_zero (a : Arena) (p : Int) : a.touch p 0 = a := by
  unfold touch
  rw [covers_zero, Bool.and_true]

theorem free_null (a : Arena) : a.free 0 = a := if_pos rfl

theorem sound_free (h : a.Provides p n) (hsound : a.sound = true) : (a.free p).sound = true := by
  unfold free
  obtain ⟨b, hb, hstart, -⟩ := h
  by_cases hnull : p = 0
  · rw [if_pos hnull]
    exact hsound
  · rw [if_neg hnull]
    simp only [hsound, Bool.true_and, List.any_eq_true, decide_eq_true_eq]
    exact ⟨b, hb, hstart⟩

/-- The other blocks stay live. -/
theorem Provides.free (h : a.Provides q k) (hne : q ≠ p) : (a.free p).Provides q k := by
  unfold Arena.free
  obtain ⟨b, hb, hstart, hsize⟩ := h
  by_cases hnull : p = 0
  · rw [if_pos hnull]
    exact ⟨b, hb, hstart, hsize⟩
  · rw [if_neg hnull]
    refine ⟨b, ?_, hstart, hsize⟩
    rw [List.mem_filter]
    exact ⟨hb, by simp [hstart, hne]⟩

end Arena

/-- An allocator: its answer to a request may depend on what is live and on how many requests
there were.  The answer `0` is a refusal. -/
structure Allocator where
  answer : Arena → Nat → Int
  fresh : ∀ (a : Arena) (size : Nat), answer a size ≠ 0 → ∀ b ∈ a.live, b.start ≠ answer a size

namespace Allocator

variable (A : Allocator) (a : Arena) (size : Nat)

/-- `malloc`: the arena after a request, which has been answered by `A.answer a size`. -/
def malloc : Arena :=
  { a with
    live := if A.answer a size = 0 then a.live else ⟨A.answer a size, size⟩ :: a.live
    requests := a.requests + 1 }

variable {A a size} {p : Int} {n : Nat}

/-- A live block stays live. -/
theorem provides_malloc (h : a.Provides p n) : (A.malloc a size).Provides p n := by
  obtain ⟨b, hb, hstart, hsize⟩ := h
  refine ⟨b, ?_, hstart, hsize⟩
  unfold malloc
  by_cases hnull : A.answer a size = 0
  · simp only [if_pos hnull, hb]
  · simp only [if_neg hnull, List.mem_cons, hb, or_true]

/-- The new block is not a live one. -/
theorem ne_answer (h : a.Provides p n) (hanswer : A.answer a size ≠ 0) : p ≠ A.answer a size := by
  obtain ⟨b, hb, rfl, -⟩ := h
  exact A.fresh a size hanswer b hb

/-- The new block. -/
theorem provides_answer (h : A.answer a size ≠ 0) :
    (A.malloc a size).Provides (A.answer a size) size :=
  ⟨⟨A.answer a size, size⟩, by simp [malloc, h], rfl, Nat.le_refl size⟩

end Allocator

end FlatMemory
