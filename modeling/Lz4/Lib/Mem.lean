import Mathlib.Tactic.Common
import Mathlib.Data.List.GetD

/-!
# A flat byte memory with an access log

The programs verified in this development work on raw pointers: they move
blocks of bytes with `memcpy`, deliberately write past the logical end of what
they produce, and repair the excess later.  A memory is therefore a total
function from addresses to bytes, addresses are integers on which pointer
arithmetic never wraps, and a block move reads all of its source before it
writes (the behaviour of `memmove`).

A `Heap` pairs such a memory with the list of all accesses made so far.  The
log is what a bounds statement quantifies over; it never influences a value.
Every access carries the `Port` it goes through, so that a stray read of the
input cannot be excused by landing in some other buffer.
-/

namespace FlatMemory

/-- A byte for every address. -/
abbrev Mem := Int → UInt8

namespace Mem

/-- `n` bytes moved from `s` to `d`; all of them are read before one is written. -/
def copy (m : Mem) (d s : Int) (n : Nat) : Mem :=
  fun a => if d ≤ a ∧ a < d + n then m (s + (a - d)) else m a

/-- The bytes `bs` stored from `d` on. -/
def store (m : Mem) (d : Int) (bs : List UInt8) : Mem :=
  fun a => if d ≤ a ∧ a < d + bs.length then bs.getD (a - d).toNat 0 else m a

/-- The `n` bytes from `a` on. -/
def bytes (m : Mem) (a : Int) : Nat → List UInt8
  | 0 => []
  | n + 1 => m a :: bytes m (a + 1) n

variable {m : Mem} {a d : Int} {n : Nat}

theorem copy_inside {s : Int} (hlow : d ≤ a) (hhigh : a < d + n) :
    m.copy d s n a = m (s + (a - d)) := by
  simp [copy, hlow, hhigh]

theorem copy_outside {s : Int} (h : a < d ∨ d + n ≤ a) : m.copy d s n a = m a := by
  have hnot : ¬ (d ≤ a ∧ a < d + n) := by omega
  simp [copy, hnot]

variable {bs : List UInt8}

theorem store_outside (h : a < d ∨ d + bs.length ≤ a) : m.store d bs a = m a := by
  have hnot : ¬ (d ≤ a ∧ a < d + bs.length) := by omega
  simp [store, hnot]

variable {i : Nat}

theorem store_inside (hi : i < bs.length) : m.store d bs (d + i) = bs.getD i 0 := by
  have hin : d ≤ d + i ∧ d + i < d + bs.length := by omega
  have hidx : (d + i - d).toNat = i := by omega
  simp only [store, if_pos hin, hidx]

@[simp] theorem store_singleton (m : Mem) (d : Int) (b : UInt8) : m.store d [b] d = b := by
  have hin := store_inside (m := m) (d := d) (i := 0) (show 0 < [b].length by simp)
  simpa using hin

/-! ## Reading a block of bytes -/

@[simp] theorem bytes_zero (m : Mem) (a : Int) : m.bytes a 0 = [] := rfl

@[simp] theorem length_bytes (m : Mem) (a : Int) (n : Nat) : (m.bytes a n).length = n := by
  induction n generalizing a with
  | zero => rfl
  | succ n ih => simp [bytes, ih]

theorem getElem?_bytes (m : Mem) (a : Int) (hi : i < n) : (m.bytes a n)[i]? = some (m (a + i)) := by
  induction n generalizing a i with
  | zero => omega
  | succ n ih =>
    cases i with
    | zero => simp [bytes]
    | succ i =>
      have haddr : a + 1 + (i : Int) = a + ((i + 1 : Nat) : Int) := by omega
      simp only [bytes, List.getElem?_cons_succ]
      rw [ih (a + 1) (by omega), haddr]

theorem getD_bytes (m : Mem) (a : Int) (hi : i < n) (b : UInt8) :
    (m.bytes a n).getD i b = m (a + i) := by
  rw [List.getD_eq_getElem?_getD, getElem?_bytes m a hi]
  rfl

theorem bytes_add (m : Mem) (a : Int) (n k : Nat) :
    m.bytes a (n + k) = m.bytes a n ++ m.bytes (a + n) k := by
  induction n generalizing a with
  | zero => simp
  | succ n ih =>
    have hcount : n + 1 + k = (n + k) + 1 := by omega
    have haddr : a + 1 + (n : Int) = a + ((n + 1 : Nat) : Int) := by omega
    rw [hcount]
    simp only [bytes, List.cons_append]
    rw [ih (a + 1), haddr]

variable {m' : Mem}

/-- Two memories that agree on a range give the same block. -/
theorem bytes_congr (h : ∀ x, a ≤ x → x < a + n → m x = m' x) : m.bytes a n = m'.bytes a n := by
  induction n generalizing a with
  | zero => rfl
  | succ n ih =>
    simp only [bytes]
    rw [h a (by omega) (by omega), ih fun x hlow hhigh => h x (by omega) (by omega)]

/-- A block read byte by byte from a list. -/
theorem bytes_eq_of_forall (h : ∀ i, i < bs.length → m (a + i) = bs.getD i 0) :
    m.bytes a bs.length = bs := by
  induction bs generalizing a with
  | nil => rfl
  | cons b bs ih =>
    have hhead : m a = b := by simpa using h 0 (by simp)
    have htail : m.bytes (a + 1) bs.length = bs := by
      apply ih
      intro i hi
      have hnext := h (i + 1) (by simpa using hi)
      have haddr : a + 1 + (i : Int) = a + ((i + 1 : Nat) : Int) := by omega
      rw [haddr, hnext]
      simp
    simp only [List.length_cons, bytes, hhead, htail]

/-- The bytes `bs` stand in memory from `a` on. -/
def Holds (m : Mem) (a : Int) (bs : List UInt8) : Prop := m.bytes a bs.length = bs

instance (m : Mem) (a : Int) (bs : List UInt8) : Decidable (m.Holds a bs) :=
  inferInstanceAs (Decidable (m.bytes a bs.length = bs))

@[simp] theorem holds_nil (m : Mem) (a : Int) : m.Holds a [] := rfl

@[simp] theorem holds_cons {b : UInt8} : m.Holds a (b :: bs) ↔ m a = b ∧ m.Holds (a + 1) bs := by
  simp [Holds, bytes]

theorem holds_append {xs ys : List UInt8} :
    m.Holds a (xs ++ ys) ↔ m.Holds a xs ∧ m.Holds (a + xs.length) ys := by
  unfold Holds
  rw [List.length_append, bytes_add]
  constructor
  · intro h
    exact List.append_inj h (by simp)
  · rintro ⟨hxs, hys⟩
    rw [hxs, hys]

theorem holds_bytes (m : Mem) (a : Int) (n : Nat) : m.Holds a (m.bytes a n) := by
  rw [Holds, length_bytes]

theorem Holds.apply (h : m.Holds a bs) (hi : i < bs.length) : m (a + i) = bs.getD i 0 := by
  have hget := getD_bytes m a hi 0
  rw [h] at hget
  exact hget.symm

theorem Holds.congr (h : m.Holds a bs) (heq : ∀ x, a ≤ x → x < a + bs.length → m x = m' x) :
    m'.Holds a bs := by
  unfold Holds at h ⊢
  rw [← bytes_congr heq, h]

theorem holds_store (m : Mem) (d : Int) (bs : List UInt8) : (m.store d bs).Holds d bs :=
  bytes_eq_of_forall fun _ hi => store_inside hi

end Mem

/-! ## Heaps -/

/-- The buffer an access goes through: the input being consumed, the window of
already produced bytes, or the output. -/
inductive Port
  | input
  | window
  | output
  deriving Repr, DecidableEq

/-- `len` consecutive bytes from `lo` on, touched through `port`. -/
structure Access where
  port : Port
  lo : Int
  len : Nat
  deriving Repr, DecidableEq

/-- A bound on accesses that is inherited by their parts. -/
def Downward (P : Access → Prop) : Prop :=
  ∀ (port : Port) (lo lo' : Int) (len len' : Nat), lo ≤ lo' → lo' + len' ≤ lo + len →
    P ⟨port, lo, len⟩ → P ⟨port, lo', len'⟩

/-- A memory together with every access made to it, the latest first. -/
structure Heap where
  mem : Mem
  log : List Access

namespace Heap

/-- Note a read of `n` bytes at `a` into registers. -/
def load (h : Heap) (port : Port) (a : Int) (n : Nat) : Heap :=
  { h with log := ⟨port, a, n⟩ :: h.log }

/-- Move `n` bytes read through `port` from `s` to the output position `d`. -/
def memcpy (h : Heap) (port : Port) (d s : Int) (n : Nat) : Heap :=
  ⟨h.mem.copy d s n, ⟨.output, d, n⟩ :: ⟨port, s, n⟩ :: h.log⟩

/-- Store bytes held in registers at the output position `d`. -/
def store (h : Heap) (d : Int) (bs : List UInt8) : Heap :=
  ⟨h.mem.store d bs, ⟨.output, d, bs.length⟩ :: h.log⟩

@[simp] theorem memcpy_mem (h : Heap) (port : Port) (d s : Int) (n : Nat) :
    (h.memcpy port d s n).mem = h.mem.copy d s n := rfl

@[simp] theorem store_mem (h : Heap) (d : Int) (bs : List UInt8) :
    (h.store d bs).mem = h.mem.store d bs := rfl

/-- Every access made so far satisfies `P`, and memory differs from `m₀`, where it
started, only at addresses that `P` allows to be written. -/
def Logged (P : Access → Prop) (m₀ : Mem) (h : Heap) : Prop :=
  (∀ access ∈ h.log, P access) ∧
    ∀ a, (∀ lo len, P ⟨.output, lo, len⟩ → a < lo ∨ lo + len ≤ a) → h.mem a = m₀ a

section

variable {P : Access → Prop} {m₀ : Mem} {h : Heap} {port : Port} {d s : Int} {n : Nat}

theorem logged_load (hread : P ⟨port, s, n⟩) (hlog : h.Logged P m₀) :
    (h.load port s n).Logged P m₀ := by
  refine ⟨?_, hlog.2⟩
  simp only [load, List.mem_cons, forall_eq_or_imp]
  exact ⟨hread, hlog.1⟩

theorem logged_memcpy (hwrite : P ⟨.output, d, n⟩) (hread : P ⟨port, s, n⟩)
    (hlog : h.Logged P m₀) : (h.memcpy port d s n).Logged P m₀ := by
  refine ⟨?_, fun a ha => ?_⟩
  · simp only [memcpy, List.mem_cons, forall_eq_or_imp]
    exact ⟨hwrite, hread, hlog.1⟩
  · rw [memcpy_mem, Mem.copy_outside (ha d n hwrite)]
    exact hlog.2 a ha

theorem logged_store {bs : List UInt8} (hwrite : P ⟨.output, d, bs.length⟩)
    (hlog : h.Logged P m₀) : (h.store d bs).Logged P m₀ := by
  refine ⟨?_, fun a ha => ?_⟩
  · simp only [store, List.mem_cons, forall_eq_or_imp]
    exact ⟨hwrite, hlog.1⟩
  · rw [store_mem, Mem.store_outside (ha d bs.length hwrite)]
    exact hlog.2 a ha

end

end Heap

end FlatMemory
