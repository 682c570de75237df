import Lz4.Decoder.Copy
import Lz4.Lib.Trace

/-!
# The copy routines of the OpenCL kernels

The kernels of `lz4_gpu.cl` copy with vector loads and stores.  Their routines are
straight-line cascades: strips of 16 bytes while they fit, then one strip of 8, one of 4, then
single bytes.  A `Cursor` holds the two pointers and the number of bytes still to do, `move` is
one load and store, and a `while` loop over strips is a number of moves fixed by the length.

Each routine has one rule (`uaCopyN_rule`, `copyMatch_rule`): a property of cursors that every
move the routine can make preserves holds when it is done.  What is left alone, what is
written and what is logged are all read off these rules.
-/

namespace Lz4.Kernel

open FlatMemory

/-! ## Cursors -/

/-- A copy in progress: `len` bytes are still to be written at `op`, from `pos`. -/
structure Cursor where
  heap : Heap
  op : Int
  pos : Int
  len : Nat

namespace Cursor

/-- Load `k` bytes, store them, and advance. -/
def move (port : Port) (k : Nat) (c : Cursor) : Cursor :=
  ⟨c.heap.memcpy port c.op c.pos k, c.op + k, c.pos + k, c.len - k⟩

/-- The same width `n` times. -/
def moves (port : Port) (k : Nat) : Nat → Cursor → Cursor
  | 0, c => c
  | n + 1, c => moves port k n (c.move port k)

/-- `if (len >= k)` one move of `k` bytes. -/
def moveIf (port : Port) (k : Nat) (c : Cursor) : Cursor :=
  if k ≤ c.len then c.move port k else c

/-- Store bytes held in registers; the source pointer stays. -/
def put (bs : List UInt8) (c : Cursor) : Cursor :=
  ⟨c.heap.store c.op bs, c.op + bs.length, c.pos, c.len - bs.length⟩

def puts (bs : List UInt8) : Nat → Cursor → Cursor
  | 0, c => c
  | n + 1, c => puts bs n (c.put bs)

def putIf (bs : List UInt8) (c : Cursor) : Cursor :=
  if bs.length ≤ c.len then c.put bs else c

end Cursor

/-! ## The routines -/

/-- `LZ4_UA_COPYN`. -/
def uaCopyN (port : Port) (h : Heap) (d s : Int) (nn : Nat) : Heap :=
  let c : Cursor := ⟨h, d, s, nn⟩
  -- two strips of 16 bytes in every pass
  let c := c.moves port 16 (2 * (c.len / 32))
  let c := c.moveIf port 16
  let c := c.moveIf port 8
  let c := c.moveIf port 4
  (c.moves port 1 c.len).heap

/-- The register `v16`: the `period` bytes at `pos`, over and over. -/
def v16 (m : Mem) (pos : Int) (period : Nat) : List UInt8 :=
  (List.range 16).map fun i => m (pos + (i % period : Nat))

/-- The branch of `LZ4_COPY_MATCH` for offset 1. -/
def copyMatch1 (h : Heap) (op mPos : Int) (len : Nat) : Heap :=
  let v := v16 h.mem mPos 1
  let c : Cursor := ⟨h.load .window mPos 1, op, mPos, len⟩
  -- four strips of 16 bytes in every pass
  let c := c.puts v (4 * (c.len / 64))
  let c := c.puts v (c.len / 16)
  let c := c.putIf (v.take 8)
  let c := c.putIf (v.take 4)
  (c.puts (v.take 1) c.len).heap

/-- The branch for offset 2. -/
def copyMatch2 (h : Heap) (op mPos : Int) (len : Nat) : Heap :=
  let v := v16 h.mem mPos 2
  let c : Cursor := ⟨h.load .window mPos 2, op, mPos, len⟩
  let c := c.puts v (c.len / 16)
  let c := c.putIf (v.take 8)
  let c := c.putIf (v.take 4)
  let c := c.puts (v.take 2) (c.len / 2)
  (c.putIf (v.take 1)).heap

/-- The branch for offset 4. -/
def copyMatch4 (h : Heap) (op mPos : Int) (len : Nat) : Heap :=
  let v := v16 h.mem mPos 4
  let c : Cursor := ⟨h.load .window mPos 4, op, mPos, len⟩
  let c := c.puts v (c.len / 16)
  let c := c.putIf (v.take 8)
  let c := c.putIf (v.take 4)
  -- the stores have not moved the match pointer
  (c.moves .window 1 c.len).heap

/-- The other offsets: strips no wider than the offset. -/
def copyMatchStrips (h : Heap) (op mPos : Int) (len offset : Nat) : Heap :=
  let c : Cursor := ⟨h, op, mPos, len⟩
  let c := if offset ≥ 64 then c.moves .window 16 (4 * (c.len / 64)) else c
  let c := if offset ≥ 32 then c.moves .window 16 (2 * (c.len / 32)) else c
  let c := if offset ≥ 16 then c.moves .window 16 (c.len / 16) else c
  let c := if offset ≥ 8 then c.moves .window 8 (c.len / 8) else c
  let c := if offset ≥ 4 then c.moveIf .window 4 else c
  (c.moves .window 1 c.len).heap

/-- `LZ4_COPY_MATCH`; the distance is a `uint`. -/
def copyMatch (h : Heap) (op mPos : Int) (len : Nat) : Heap :=
  let offset := ((op - mPos) % 2 ^ 32).toNat
  if offset ≥ len then uaCopyN .window h op mPos len
  else if offset = 1 then copyMatch1 h op mPos len
  else if offset = 2 then copyMatch2 h op mPos len
  else if offset = 4 then copyMatch4 h op mPos len
  else copyMatchStrips h op mPos len offset

/-- `LZ4_lit_wildCopy8`. -/
def litWildCopy8 (h : Heap) (dst src dstEnd : Int) : Heap :=
  if dstEnd - dst ≤ 8 then h.memcpy .input dst src 8
  else if dstEnd - dst ≤ 16 then
    (h.memcpy .input dst src 8).memcpy .input (dst + 8) (src + 8) 8
  else uaCopyN .input h dst src (dstEnd - dst).toNat

/-- `lz4_v1_fast_direct_match_copy_18`.  The fast path of the decoder has the same moves
written out once more, for offsets of at least 8. -/
def fastDirectMatchCopy18 (h : Heap) (op mtch : Int) (mlenFast : Nat) : Heap :=
  let h := h.memcpy .window op mtch 8
  if mlenFast ≤ 8 then h
  else
    let h := h.memcpy .window (op + 8) (mtch + 8) 8
    if mlenFast > 16 then
      let h := h.memcpy .window (op + 16) (mtch + 16) 1
      if mlenFast > 17 then h.memcpy .window (op + 17) (mtch + 17) 1 else h
    else h

/-! ## Rules for cursors -/

namespace Cursor

variable {port : Port} {k n : Nat} {bs : List UInt8} {I : Cursor → Prop} {c : Cursor}

@[simp] theorem move_len (port : Port) (k : Nat) (c : Cursor) :
    (c.move port k).len = c.len - k := rfl

@[simp] theorem move_op (port : Port) (k : Nat) (c : Cursor) : (c.move port k).op = c.op + k := rfl

@[simp] theorem put_len (bs : List UInt8) (c : Cursor) : (c.put bs).len = c.len - bs.length := rfl

theorem move_end (hle : k ≤ c.len) : (c.move port k).op + (c.move port k).len = c.op + c.len := by
  show c.op + (k : Int) + (c.len - k : Nat) = c.op + c.len
  omega

theorem put_end (hle : bs.length ≤ c.len) : (c.put bs).op + (c.put bs).len = c.op + c.len := by
  show c.op + (bs.length : Int) + (c.len - bs.length : Nat) = c.op + c.len
  omega

@[simp] theorem moves_len (port : Port) (k n : Nat) (c : Cursor) :
    (c.moves port k n).len = c.len - k * n := by
  induction n generalizing c with
  | zero => rfl
  | succ n ih =>
    have hmul : k * (n + 1) = k * n + k := Nat.mul_succ k n
    rw [moves, ih, move_len]
    omega

@[simp] theorem puts_len (bs : List UInt8) (n : Nat) (c : Cursor) :
    (c.puts bs n).len = c.len - bs.length * n := by
  induction n generalizing c with
  | zero => rfl
  | succ n ih =>
    have hmul : bs.length * (n + 1) = bs.length * n + bs.length := Nat.mul_succ _ n
    rw [puts, ih, put_len]
    omega

theorem putIf_len (bs : List UInt8) (c : Cursor) :
    (c.putIf bs).len = if bs.length ≤ c.len then c.len - bs.length else c.len := by
  unfold putIf
  split <;> rfl

theorem moves_rule (hmove : ∀ c, k ≤ c.len → I c → I (c.move port k)) (hn : k * n ≤ c.len)
    (hI : I c) : I (c.moves port k n) := by
  induction n generalizing c with
  | zero => exact hI
  | succ n ih =>
    have hmul : k * (n + 1) = k * n + k := Nat.mul_succ k n
    refine ih ?_ (hmove c (by omega) hI)
    rw [move_len]
    omega

theorem moveIf_rule (hmove : ∀ c, k ≤ c.len → I c → I (c.move port k)) (hI : I c) :
    I (c.moveIf port k) := by
  unfold moveIf
  split
  · rename_i hle
    exact hmove c hle hI
  · exact hI

theorem puts_rule (hput : ∀ c, bs.length ≤ c.len → I c → I (c.put bs))
    (hn : bs.length * n ≤ c.len) (hI : I c) : I (c.puts bs n) := by
  induction n generalizing c with
  | zero => exact hI
  | succ n ih =>
    have hmul : bs.length * (n + 1) = bs.length * n + bs.length := Nat.mul_succ _ n
    refine ih ?_ (hput c (by omega) hI)
    rw [put_len]
    omega

theorem putIf_rule (hput : ∀ c, bs.length ≤ c.len → I c → I (c.put bs)) (hI : I c) :
    I (c.putIf bs) := by
  unfold putIf
  split
  · rename_i hle
    exact hput c hle hI
  · exact hI

end Cursor

/-! ## Rules for the routines -/

/-- What every move of `LZ4_UA_COPYN` keeps holds at its end. -/
theorem uaCopyN_rule (port : Port) (h : Heap) (d s : Int) (nn : Nat) {I : Cursor → Prop}
    (hmove : ∀ c k, 0 < k → k ≤ c.len → I c → I (c.move port k)) (hI : I ⟨h, d, s, nn⟩) :
    ∃ c, c.len = 0 ∧ I c ∧ uaCopyN port h d s nn = c.heap := by
  unfold uaCopyN
  refine ⟨_, ?_, ?_, rfl⟩
  · rw [Cursor.moves_len]
    omega
  · refine Cursor.moves_rule (fun c => hmove c 1 (by omega)) (by omega) ?_
    refine Cursor.moveIf_rule (fun c => hmove c 4 (by omega)) ?_
    refine Cursor.moveIf_rule (fun c => hmove c 8 (by omega)) ?_
    refine Cursor.moveIf_rule (fun c => hmove c 16 (by omega)) ?_
    exact Cursor.moves_rule (fun c => hmove c 16 (by omega)) (by dsimp only; omega) hI

@[simp] theorem length_v16 (m : Mem) (pos : Int) (period : Nat) : (v16 m pos period).length = 16 :=
  by simp [v16]

variable {k : Nat}

theorem length_take_v16 (m : Mem) (pos : Int) (period : Nat) (hk : k ≤ 16) :
    ((v16 m pos period).take k).length = k := by
  rw [List.length_take, length_v16]
  omega

variable {m : Mem}

theorem getD_v16 {pos : Int} {period i : Nat} (hi : i < 16) :
    (v16 m pos period).getD i 0 = m (pos + (i % period : Nat)) := by
  simp [v16, List.getD_eq_getElem?_getD, List.getElem?_range hi]

/-- `bs` are the first bytes of a register that repeats the `offset` bytes before `op`. -/
def Pattern (m : Mem) (op : Int) (offset : Nat) (bs : List UInt8) : Prop :=
  ∀ i, i < bs.length → bs.getD i 0 = m (op - offset + (i % offset : Nat))

theorem pattern_v16 (m : Mem) (op : Int) (offset : Nat) :
    Pattern m op offset (v16 m (op - offset) offset) := by
  intro i hi
  exact getD_v16 hi

variable {bs : List UInt8} {offset : Nat} {op : Int}

theorem Pattern.take (pattern : Pattern m op offset bs) (k : Nat) :
    Pattern m op offset (bs.take k) := by
  intro i hi
  rw [List.length_take] at hi
  have hget : (bs.take k).getD i 0 = bs.getD i 0 := by
    rw [List.getD_eq_getElem?_getD, List.getElem?_take_of_lt (by omega),
      List.getD_eq_getElem?_getD]
  rw [hget, pattern i (by omega)]

/-- The match pointer is a multiple of the offset behind, and all these periods but one have
been laid down. -/
def Cursor.Lags (op : Int) (offset : Nat) (c : Cursor) : Prop :=
  ∃ q : Nat, c.op - c.pos = ((q : Int) + 1) * offset ∧ (q : Int) * offset ≤ c.op - op

/-- What is known while patterns are stored: the match pointer has not moved, and a whole
number of periods has been written. -/
structure Cursor.Aligned (op : Int) (offset : Nat) (c : Cursor) : Prop where
  pos : c.pos = op - offset
  le : op ≤ c.op
  whole : ∃ q : Nat, c.op - op = (q : Int) * offset

variable {c : Cursor}

theorem Cursor.Aligned.put (aligned : c.Aligned op offset) (hwhole : bs.length % offset = 0) :
    (c.put bs).Aligned op offset := by
  obtain ⟨hpos, hle, q, hq⟩ := aligned
  refine ⟨hpos, ?_, q + bs.length / offset, ?_⟩
  · show op ≤ c.op + bs.length
    omega
  · show c.op + (bs.length : Int) - op = ((q + bs.length / offset : Nat) : Int) * offset
    have hdiv := Nat.div_add_mod bs.length offset
    rw [hwhole, Nat.add_zero, Nat.mul_comm] at hdiv
    push_cast
    rw [Int.add_mul, ← hq, ← Int.natCast_ediv, ← Int.natCast_mul, hdiv]
    omega

theorem Cursor.Aligned.lags (aligned : c.Aligned op offset) : c.Lags op offset := by
  obtain ⟨hpos, -, q, hq⟩ := aligned
  refine ⟨q, ?_, by omega⟩
  rw [hpos, Int.add_mul, ← hq]
  omega

variable {n : Nat}

section CopyMatch

variable {I : Cursor → Prop} {h : Heap} {op : Int} {offset len : Nat}

/-- A property of cursors survives every store of the first bytes of a pattern. -/
def PutsKeep (I : Cursor → Prop) (m : Mem) (op : Int) (offset : Nat) : Prop :=
  ∀ (c : Cursor) (bs : List UInt8), 0 < bs.length → bs.length ≤ c.len → Pattern m op offset bs →
    c.Aligned op offset → I c → I (c.put bs)

/-- A property of cursors survives every move that reads no byte it writes. -/
def MovesKeep (I : Cursor → Prop) (op : Int) (offset : Nat) : Prop :=
  ∀ (c : Cursor) (k : Nat), 0 < k → k ≤ c.len → k ≤ max 1 offset → c.Lags op offset → I c →
    I (c.move .window k)

/-- Storing whole periods keeps the alignment too. -/
theorem PutsKeep.aligned (hput : PutsKeep I h.mem op offset) (pattern : Pattern h.mem op offset bs)
    (hpos : 0 < bs.length) (hwhole : bs.length % offset = 0) :
    ∀ c : Cursor, bs.length ≤ c.len → I c ∧ c.Aligned op offset → I (c.put bs) ∧
      (c.put bs).Aligned op offset := by
  rintro c hle ⟨hI, aligned⟩
  exact ⟨hput c bs hpos hle pattern aligned hI, aligned.put hwhole⟩

theorem aligned_start (h : Heap) (op : Int) (offset len : Nat) :
    Cursor.Aligned op offset ⟨h, op, op - offset, len⟩ :=
  ⟨rfl, Int.le_refl op, 0, by simp⟩

theorem copyMatch1_rule (hI : I ⟨h.load .window (op - (1 : Nat)) 1, op, op - (1 : Nat), len⟩)
    (hput : PutsKeep I h.mem op 1) :
    ∃ c : Cursor, c.len = 0 ∧ I c ∧ copyMatch1 h op (op - (1 : Nat)) len = c.heap := by
  have pattern := pattern_v16 h.mem op 1
  refine ⟨_, ?_, ?_, rfl⟩
  · simp
  · refine (Cursor.puts_rule (I := fun c => I c ∧ c.Aligned op 1)
      (hput.aligned (pattern.take 1) (by simp) (by simp)) (by simp) ?_).1
    refine Cursor.putIf_rule (hput.aligned (pattern.take 4) (by simp) (by simp)) ?_
    refine Cursor.putIf_rule (hput.aligned (pattern.take 8) (by simp) (by simp)) ?_
    refine Cursor.puts_rule (hput.aligned pattern (by simp) (by simp))
      (by rw [length_v16]; omega) ?_
    exact Cursor.puts_rule (hput.aligned pattern (by simp) (by simp))
      (by rw [length_v16]; dsimp only; omega) ⟨hI, aligned_start _ op 1 len⟩

theorem copyMatch2_rule (hI : I ⟨h.load .window (op - (2 : Nat)) 2, op, op - (2 : Nat), len⟩)
    (hput : PutsKeep I h.mem op 2) :
    ∃ c : Cursor, c.len = 0 ∧ I c ∧ copyMatch2 h op (op - (2 : Nat)) len = c.heap := by
  have pattern := pattern_v16 h.mem op 2
  refine ⟨_, ?_, ?_, rfl⟩
  · rw [Cursor.putIf_len, Cursor.puts_len, length_take_v16 _ _ _ (by omega),
      length_take_v16 _ _ _ (by omega)]
    split <;> omega
  · -- the last store is of one byte, half a period
    have hlast : ∀ c : Cursor, I c ∧ c.Aligned op 2 →
        I (c.putIf ((v16 h.mem (op - (2 : Nat)) 2).take 1)) := by
      rintro c ⟨hI, aligned⟩
      unfold Cursor.putIf
      split
      · rename_i hle
        exact hput c _ (by simp) hle (pattern.take 1) aligned hI
      · exact hI
    refine hlast _ (Cursor.puts_rule (I := fun c => I c ∧ c.Aligned op 2)
      (hput.aligned (pattern.take 2) (by simp) (by simp))
      (by rw [length_take_v16 _ _ _ (by omega)]; omega) ?_)
    refine Cursor.putIf_rule (hput.aligned (pattern.take 4) (by simp) (by simp)) ?_
    refine Cursor.putIf_rule (hput.aligned (pattern.take 8) (by simp) (by simp)) ?_
    exact Cursor.puts_rule (hput.aligned pattern (by simp) (by simp))
      (by rw [length_v16]; dsimp only; omega) ⟨hI, aligned_start _ op 2 len⟩

theorem copyMatch4_rule (hI : I ⟨h.load .window (op - (4 : Nat)) 4, op, op - (4 : Nat), len⟩)
    (hput : PutsKeep I h.mem op 4) (hmove : MovesKeep I op 4) :
    ∃ c : Cursor, c.len = 0 ∧ I c ∧ copyMatch4 h op (op - (4 : Nat)) len = c.heap := by
  have pattern := pattern_v16 h.mem op 4
  refine ⟨_, ?_, ?_, rfl⟩
  · rw [Cursor.moves_len]
    omega
  · -- the bytes left are read a multiple of the offset behind
    have hbyte : ∀ c : Cursor, 1 ≤ c.len → I c ∧ c.Lags op 4 →
        I (c.move .window 1) ∧ (c.move .window 1).Lags op 4 := by
      rintro c hle ⟨hI, q, hdist, hroom⟩
      refine ⟨hmove c 1 (by omega) hle (by omega) ⟨q, hdist, hroom⟩ hI, q, ?_, ?_⟩
      · rw [← hdist]
        show c.op + ((1 : Nat) : Int) - (c.pos + (1 : Nat)) = c.op - c.pos
        omega
      · show (q : Int) * (4 : Nat) ≤ c.op + ((1 : Nat) : Int) - op
        omega
    refine (Cursor.moves_rule (I := fun c => I c ∧ c.Lags op 4) hbyte (by omega) ?_).1
    refine And.imp_right Cursor.Aligned.lags ?_
    refine Cursor.putIf_rule (I := fun c => I c ∧ c.Aligned op 4)
      (hput.aligned (pattern.take 4) (by simp) (by simp)) ?_
    refine Cursor.putIf_rule (hput.aligned (pattern.take 8) (by simp) (by simp)) ?_
    exact Cursor.puts_rule (hput.aligned pattern (by simp) (by simp))
      (by rw [length_v16]; dsimp only; omega) ⟨hI, aligned_start _ op 4 len⟩

/-- The pointers of the plain branches stay at the distance of the offset. -/
def Cursor.Abreast (op : Int) (offset : Nat) (c : Cursor) : Prop :=
  c.op - c.pos = offset ∧ op ≤ c.op

theorem abreast_start (h : Heap) (op : Int) (offset len : Nat) :
    Cursor.Abreast op offset ⟨h, op, op - offset, len⟩ := by
  refine ⟨?_, Int.le_refl op⟩
  show op - (op - (offset : Int)) = offset
  omega

theorem MovesKeep.abreast (hmove : MovesKeep I op offset) (hk : 0 < k) (hwidth : k ≤ max 1 offset)
    (c : Cursor) (hle : k ≤ c.len) (hJ : I c ∧ c.Abreast op offset) :
    I (c.move .window k) ∧ (c.move .window k).Abreast op offset := by
  obtain ⟨hI, hdist, hle'⟩ := hJ
  refine ⟨hmove c k hk hle hwidth ⟨0, by simpa using hdist, by simpa using hle'⟩ hI, ?_, ?_⟩
  · show c.op + (k : Int) - (c.pos + k) = offset
    omega
  · show op ≤ c.op + (k : Int)
    omega

theorem MovesKeep.moves (hmove : MovesKeep I op offset) (hk : 0 < k) (hwidth : k ≤ max 1 offset)
    (hn : k * n ≤ c.len) (hJ : I c ∧ c.Abreast op offset) :
    I (c.moves .window k n) ∧ (c.moves .window k n).Abreast op offset :=
  Cursor.moves_rule (I := fun c => I c ∧ c.Abreast op offset) (hmove.abreast hk hwidth) hn hJ

/-- Strips of a width that only offsets of at least `width` have. -/
theorem MovesKeep.movesIf (hmove : MovesKeep I op offset) {width : Nat} (hk : 0 < k)
    (hwidth : k ≤ width) (hn : k * n ≤ c.len) (hJ : I c ∧ c.Abreast op offset) :
    I (if offset ≥ width then c.moves .window k n else c) ∧
      (if offset ≥ width then c.moves .window k n else c).Abreast op offset := by
  split
  · exact hmove.moves hk (by omega) hn hJ
  · exact hJ

theorem copyMatchStrips_rule (hI : I ⟨h, op, op - offset, len⟩) (hmove : MovesKeep I op offset) :
    ∃ c : Cursor, c.len = 0 ∧ I c ∧ copyMatchStrips h op (op - offset) len offset = c.heap := by
  have hlast {c : Cursor} (hJ : I c ∧ c.Abreast op offset) :
      I (if offset ≥ 4 then c.moveIf .window 4 else c) ∧
        (if offset ≥ 4 then c.moveIf .window 4 else c).Abreast op offset := by
    split
    · exact Cursor.moveIf_rule (I := fun c => I c ∧ c.Abreast op offset)
        (hmove.abreast (by omega) (by omega)) hJ
    · exact hJ
  refine ⟨_, ?_, ?_, rfl⟩
  · rw [Cursor.moves_len]
    omega
  · refine (hmove.moves (k := 1) (by omega) (by omega) (by omega) (hlast ?_)).1
    refine hmove.movesIf (by omega) (by omega) (by omega) ?_
    refine hmove.movesIf (by omega) (by omega) (by omega) ?_
    refine hmove.movesIf (by omega) (by omega) (by omega) ?_
    exact hmove.movesIf (by omega) (by omega) (by dsimp only; omega)
      ⟨hI, abreast_start h op offset len⟩

/-- What every move and store of `LZ4_COPY_MATCH` keeps holds at its end. -/
theorem copyMatch_rule (h : Heap) (op : Int) (len : Nat) (hsmall : offset < 2 ^ 32)
    (hI : I ⟨h, op, op - offset, len⟩)
    (hload : I ⟨h.load .window (op - offset) offset, op, op - offset, len⟩)
    (hmove : MovesKeep I op offset) (hput : PutsKeep I h.mem op offset) :
    ∃ c : Cursor, c.len = 0 ∧ I c ∧ copyMatch h op (op - offset) len = c.heap := by
  have hoffset : ((op - (op - (offset : Int))) % 2 ^ 32).toNat = offset := by omega
  unfold copyMatch
  dsimp only
  rw [hoffset]
  split
  · have hstep (c : Cursor) (k : Nat) (hk : 0 < k) (hle : k ≤ c.len)
        (hJ : (I c ∧ c.Abreast op offset) ∧ c.len ≤ len) :
        (I (c.move .window k) ∧ (c.move .window k).Abreast op offset) ∧
          (c.move .window k).len ≤ len := by
      refine ⟨hmove.abreast hk (by omega) c hle hJ.1, ?_⟩
      rw [Cursor.move_len]
      omega
    obtain ⟨c, hlen, ⟨hJ, -⟩, hheap⟩ := uaCopyN_rule .window h op (op - offset) len
      (I := fun c => (I c ∧ c.Abreast op offset) ∧ c.len ≤ len) hstep
      ⟨⟨hI, abreast_start h op offset len⟩, Nat.le_refl len⟩
    exact ⟨c, hlen, hJ.1, hheap⟩
  split
  · rename_i hone
    subst hone
    exact copyMatch1_rule hload hput
  split
  · rename_i htwo
    subst htwo
    exact copyMatch2_rule hload hput
  split
  · rename_i hfour
    subst hfour
    exact copyMatch4_rule hload hput hmove
  · exact copyMatchStrips_rule hI hmove

end CopyMatch

/-! ## What the routines write -/

/-- Every byte from `op - offset` up to the cursor is the byte of the period it belongs to. -/
structure Cursor.Cycles (m : Mem) (op : Int) (offset : Nat) (c : Cursor) : Prop where
  le : op ≤ c.op
  frame : ∀ a, (a < op ∨ c.op ≤ a) → c.heap.mem a = m a
  cyclic : 0 < offset → ∀ a, op - offset ≤ a → a < c.op →
    c.heap.mem a = m (op - offset + (a - op) % offset)

variable {P : Access → Prop} {m₀ : Mem}

section CopyMatch

variable {m : Mem} {h : Heap} {op : Int} {offset len : Nat} {c : Cursor}

theorem cycles_start (len : Nat) (hmem : h.mem = m) :
    Cursor.Cycles m op offset ⟨h, op, op - offset, len⟩ where
  le := Int.le_refl op
  frame a _ := by rw [hmem]
  cyclic hpos a hlow hhigh := by
    dsimp only at hhigh
    have hmod : (a - op) % (offset : Int) = a - op + offset := by
      rw [← Int.add_emod_right, Int.emod_eq_of_lt (by omega) (by omega)]
    rw [hmem, hmod]
    congr 1
    omega

theorem Cursor.Cycles.move (cycles : c.Cycles m op offset) (hwidth : k ≤ max 1 offset)
    (lags : c.Lags op offset) : (c.move .window k).Cycles m op offset := by
  obtain ⟨hle, hframe, hcyclic⟩ := cycles
  obtain ⟨q, hdist, hroom⟩ := lags
  rw [Int.add_mul, Int.one_mul] at hdist
  refine ⟨?_, ?_, ?_⟩
  · show op ≤ c.op + (k : Int)
    omega
  · intro a ha
    change a < op ∨ c.op + (k : Int) ≤ a at ha
    show (c.heap.mem.copy c.op c.pos k) a = m a
    rw [Mem.copy_outside (by omega), hframe a (by omega)]
  · intro hpos a hlow hhigh
    change a < c.op + (k : Int) at hhigh
    show (c.heap.mem.copy c.op c.pos k) a = _
    have hnonneg : 0 ≤ (q : Int) * offset := Int.mul_nonneg (by omega) (by omega)
    rcases Int.lt_or_le a c.op with hbelow | habove
    · rw [Mem.copy_outside (by omega), hcyclic hpos a hlow hbelow]
    · -- the byte comes from `q + 1` periods below
      have hsource : c.pos + (a - c.op) - op = (a - op) + offset * (-((q : Int) + 1)) := by
        rw [Int.mul_neg, Int.mul_add, Int.mul_one, Int.mul_comm]
        omega
      rw [Mem.copy_inside habove hhigh, hcyclic hpos _ (by omega) (by omega), hsource,
        Int.add_mul_emod_self_left]

theorem Cursor.Cycles.put (cycles : c.Cycles m op offset) (pattern : Pattern m op offset bs)
    (aligned : c.Aligned op offset) : (c.put bs).Cycles m op offset := by
  obtain ⟨hle, hframe, hcyclic⟩ := cycles
  obtain ⟨-, -, q, hwhole⟩ := aligned
  refine ⟨?_, ?_, ?_⟩
  · show op ≤ c.op + (bs.length : Int)
    omega
  · intro a ha
    change a < op ∨ c.op + (bs.length : Int) ≤ a at ha
    show (c.heap.mem.store c.op bs) a = m a
    rw [Mem.store_outside (by omega), hframe a (by omega)]
  · intro hpos a hlow hhigh
    change a < c.op + (bs.length : Int) at hhigh
    show (c.heap.mem.store c.op bs) a = _
    rcases Int.lt_or_le a c.op with hbelow | habove
    · rw [Mem.store_outside (by omega), hcyclic hpos a hlow hbelow]
    · obtain ⟨i, hi⟩ : ∃ i : Nat, a = c.op + i := ⟨(a - c.op).toNat, by omega⟩
      have hindex : a - op = i + offset * (q : Int) := by
        rw [Int.mul_comm]
        omega
      rw [hindex, Int.add_mul_emod_self_left, hi, Mem.store_inside (by omega),
        pattern i (by omega), Int.natCast_emod]

theorem copyMatch_cycles (h : Heap) (op : Int) (len : Nat) (hsmall : offset < 2 ^ 32) :
    ∃ c : Cursor, c.op = op + len ∧ c.Cycles h.mem op offset ∧
      copyMatch h op (op - offset) len = c.heap := by
  obtain ⟨c, hlen, ⟨cycles, hend⟩, hheap⟩ := copyMatch_rule h op len hsmall
    (I := fun c => c.Cycles h.mem op offset ∧ c.op + c.len = op + len)
    ⟨cycles_start len rfl, rfl⟩ ⟨cycles_start len rfl, rfl⟩
    (fun c k _ hle hwidth lags hI => ⟨hI.1.move hwidth lags, by rw [Cursor.move_end hle, hI.2]⟩)
    (fun c bs _ hle pattern aligned hI => ⟨hI.1.put pattern aligned, by
      rw [Cursor.put_end hle, hI.2]⟩)
  exact ⟨c, by omega, cycles, hheap⟩

/-- `LZ4_COPY_MATCH` writes the bytes of the match and no others, whatever the offset … -/
theorem copyMatch_frame (h : Heap) (op : Int) (len : Nat) (hsmall : offset < 2 ^ 32) (a : Int)
    (ha : a < op ∨ op + len ≤ a) : (copyMatch h op (op - offset) len).mem a = h.mem a := by
  obtain ⟨c, hend, cycles, hheap⟩ := copyMatch_cycles h op len hsmall
  rw [hheap]
  exact cycles.frame a (by omega)

theorem Cursor.Cycles.matchCopied (cycles : c.Cycles m op offset) (hpos : 0 < offset)
    (hn : op + n ≤ c.op) {limit : Int} (hlimit : c.op ≤ limit) :
    MatchCopied m c.heap.mem op offset n limit where
  frame a ha := cycles.frame a (by omega)
  zero h0 := absurd h0 (by omega)
  periodic _ a hlow hhigh := by
    have hshift : a - offset - op = (a - op) - offset := by omega
    rw [cycles.cyclic hpos a (by omega) (by omega),
      cycles.cyclic hpos (a - offset) (by omega) (by omega), hshift, Int.sub_emod_right]

/-- … and extends the bytes before the match periodically. -/
theorem matchCopied_copyMatch (h : Heap) (op : Int) (len : Nat) (hsmall : offset < 2 ^ 32)
    (hpos : 0 < offset) :
    MatchCopied h.mem (copyMatch h op (op - offset) len).mem op offset len (op + len) := by
  obtain ⟨c, hend, cycles, hheap⟩ := copyMatch_cycles h op len hsmall
  rw [hheap]
  exact cycles.matchCopied hpos (by omega) (by omega)

/-- The log tells the same: the bytes of the match are written, and no others. -/
theorem wrote_copyMatch (h : Heap) (op : Int) (len : Nat) (hsmall : offset < 2 ^ 32) (a : Int) :
    Wrote (copyMatch h op (op - offset) len).log a ↔ Wrote h.log a ∨ op ≤ a ∧ a < op + len := by
  obtain ⟨c, hlen, ⟨hwrote, -, hend⟩, hheap⟩ := copyMatch_rule h op len hsmall
    (I := fun c => (Wrote c.heap.log a ↔ Wrote h.log a ∨ op ≤ a ∧ a < c.op) ∧ op ≤ c.op ∧
      c.op + c.len = op + len)
    ⟨by simp, Int.le_refl op, rfl⟩
    ⟨by simp [Heap.wrote_load], Int.le_refl op, rfl⟩
    (fun c k _ hle _ _ hI => by
      obtain ⟨hI, hop, hend⟩ := hI
      refine ⟨?_, Int.le_trans hop (Int.le_add_of_nonneg_right (Int.natCast_nonneg k)), by
        rw [Cursor.move_end hle, hend]⟩
      simp only [Cursor.move, Heap.wrote_memcpy (show Port.window ≠ .output by decide), hI, or_assoc]
      exact or_congr_right (by omega))
    (fun c bs _ hle _ _ hI => by
      obtain ⟨hI, hop, hend⟩ := hI
      refine ⟨?_, Int.le_trans hop (Int.le_add_of_nonneg_right (Int.natCast_nonneg _)), by
        rw [Cursor.put_end hle, hend]⟩
      simp only [Cursor.put, Heap.wrote_store, hI, or_assoc]
      exact or_congr_right (by omega))
  rw [hheap, hwrote, show c.op = op + len by omega]

/-- **`LZ4_COPY_MATCH` writes exactly the bytes of the match, and leaves what a byte loop leaves.**
-/
theorem copyMatch_eq_byteCopy (h : Heap) (op : Int) (offset len : Nat) (hpos : 1 ≤ offset)
    (hsmall : offset < 2 ^ 32) :
    (∀ a, Wrote (copyMatch h op (op - offset) len).log a ↔
        Wrote h.log a ∨ op ≤ a ∧ a < op + len) ∧
      (copyMatch h op (op - offset) len).mem = (byteCopy .window h op (op - offset) len).mem := by
  refine ⟨wrote_copyMatch h op len hsmall, funext fun a => ?_⟩
  by_cases ha : a < op + len
  · exact (matchCopied_copyMatch h op len hsmall hpos).eq_byteCopy hpos ha
  · rw [copyMatch_frame h op len hsmall a (by omega), byteCopy_frame _ _ _ _ _ _ (by omega)]

theorem copyMatch_eq_byteCopy_three :
    let h : Heap := ⟨fun a => if a = 97 then 1 else 0, []⟩
    (copyMatch h 100 97 50).mem = (byteCopy .window h 100 97 50).mem :=
  (copyMatch_eq_byteCopy _ 100 3 50 (by decide) (by decide)).2

/-- A distance of `2 ^ 32 + 1` is taken for 1: the first byte is repeated. -/
theorem copyMatch_truncates :
    let h : Heap := ⟨fun a => if a = 0 then 7 else 0, []⟩
    (copyMatch h 4294967297 (4294967297 - 4294967297) 2).mem 4294967298 = 7 ∧
      (byteCopy .window h 4294967297 (4294967297 - 4294967297) 2).mem 4294967298 = 0 := by
  decide

/-- Every access of `LZ4_COPY_MATCH` is to the match or to the bytes it repeats. -/
theorem copyMatch_logged (hsmall : offset < 2 ^ 32) (hP : Downward P) (hlog : h.Logged P m₀)
    (hread : P ⟨.window, op - offset, offset + len⟩) (hwrite : P ⟨.output, op, len⟩) :
    (copyMatch h op (op - offset) len).Logged P m₀ := by
  have hmove : MovesKeep (fun c => c.heap.Logged P m₀ ∧ op ≤ c.op ∧ c.op + c.len = op + len) op
      offset := by
    rintro c k - hle hwidth ⟨q, hdist, hroom⟩ ⟨hlogged, hop, hend⟩
    rw [Int.add_mul, Int.one_mul] at hdist
    have hnonneg : 0 ≤ (q : Int) * offset := Int.mul_nonneg (by omega) (by omega)
    refine ⟨Heap.logged_memcpy (hP _ _ _ _ _ hop (by omega) hwrite)
      (hP _ _ _ _ _ (by omega) (by omega) hread) hlogged, ?_, by rw [Cursor.move_end hle, hend]⟩
    show op ≤ c.op + (k : Int)
    omega
  have hput : PutsKeep (fun c => c.heap.Logged P m₀ ∧ op ≤ c.op ∧ c.op + c.len = op + len) h.mem
      op offset := by
    rintro c bs - hle - - ⟨hlogged, hop, hend⟩
    refine ⟨Heap.logged_store (hP _ _ _ _ _ hop (by omega) hwrite) hlogged, ?_,
      by rw [Cursor.put_end hle, hend]⟩
    show op ≤ c.op + (bs.length : Int)
    omega
  obtain ⟨c, -, ⟨hlogged, -⟩, hheap⟩ := copyMatch_rule h op len hsmall
    ⟨hlog, Int.le_refl op, rfl⟩
    ⟨Heap.logged_load (hP _ _ _ _ _ (Int.le_refl _) (by omega) hread) hlog, Int.le_refl op, rfl⟩
    hmove hput
  rw [hheap]
  exact hlogged

/-- `h'` was reached from `h`: no access is forgotten. -/
def Grown (h h' : Heap) : Prop := h.log <:+ h'.log

theorem Grown.refl (h : Heap) : Grown h h := List.suffix_rfl

theorem Grown.trans {h₁ h₂ h₃ : Heap} (first : Grown h₁ h₂) (second : Grown h₂ h₃) :
    Grown h₁ h₃ := List.IsSuffix.trans first second

theorem grown_memcpy (h : Heap) (port : Port) (d s : Int) (n : Nat) :
    Grown h (h.memcpy port d s n) := (List.suffix_cons _ _).trans (List.suffix_cons _ _)

theorem grown_store (h : Heap) (d : Int) (bs : List UInt8) : Grown h (h.store d bs) :=
  List.suffix_cons _ _

theorem grown_load (h : Heap) (port : Port) (a : Int) (n : Nat) : Grown h (h.load port a n) :=
  List.suffix_cons _ _

/-- The last byte of a match is written, whatever its offset and wherever its end. -/
theorem copyMatch_reaches (h : Heap) (op : Int) (hsmall : offset < 2 ^ 32) (hlen : 0 < len) :
    ∃ a ∈ (copyMatch h op (op - offset) len).log, a.port = .output ∧ a.lo + a.len = op + len := by
  obtain ⟨c, hdone, ⟨hend, hlast⟩, hheap⟩ := copyMatch_rule h op len hsmall
    (I := fun c => c.op + c.len = op + len ∧
      (c.len = len ∨ ∃ a ∈ c.heap.log, a.port = .output ∧ a.lo + a.len = c.op))
    ⟨rfl, Or.inl rfl⟩ ⟨rfl, Or.inl rfl⟩
    (fun c k _ hle _ _ hI => ⟨by rw [Cursor.move_end hle, hI.1],
      Or.inr ⟨⟨.output, c.op, k⟩, List.mem_cons_self, rfl, rfl⟩⟩)
    (fun c bs _ hle _ _ hI => ⟨by rw [Cursor.put_end hle, hI.1],
      Or.inr ⟨⟨.output, c.op, bs.length⟩, List.mem_cons_self, rfl, rfl⟩⟩)
  rw [hheap]
  obtain ⟨a, ha, hport, hlo⟩ := hlast.resolve_left (by omega)
  exact ⟨a, ha, hport, by omega⟩

theorem grown_copyMatch (h : Heap) (op : Int) (len : Nat) (hsmall : offset < 2 ^ 32) :
    Grown h (copyMatch h op (op - offset) len) := by
  obtain ⟨c, -, hgrown, hheap⟩ := copyMatch_rule h op len hsmall
    (I := fun c => Grown h c.heap) List.suffix_rfl (grown_load _ _ _ _)
    (fun c k _ _ _ _ hI => hI.trans (grown_memcpy _ _ _ _ _))
    (fun c bs _ _ _ _ hI => hI.trans (grown_store _ _ _))
  rw [hheap]
  exact hgrown

end CopyMatch

/-! ## Literals -/

variable {nn : Nat} {d s : Int}

section Literals

variable {h : Heap} {op ip : Int} {port : Port}

/-- The bytes below the cursor have been copied from `s` to `d`. -/
structure Cursor.Copied (m : Mem) (d s : Int) (nn : Nat) (c : Cursor) : Prop where
  stop : c.op + c.len = d + nn
  pos : c.pos - s = c.op - d
  le : d ≤ c.op
  frame : ∀ a, (a < d ∨ c.op ≤ a) → c.heap.mem a = m a
  copied : ∀ a, d ≤ a → a < c.op → c.heap.mem a = m (s + (a - d))

theorem copied_start (h : Heap) (d s : Int) (nn : Nat) :
    Cursor.Copied h.mem d s nn ⟨h, d, s, nn⟩ := by
  refine ⟨rfl, ?_, Int.le_refl d, fun _ _ => rfl, fun a hlow hhigh => ?_⟩
  · show s - s = d - d
    omega
  · change a < d at hhigh
    omega

theorem Cursor.Copied.move (copied : c.Copied m d s nn) (hapart : d + nn ≤ s ∨ s + nn ≤ d)
    (hle : k ≤ c.len) : (c.move port k).Copied m d s nn := by
  obtain ⟨hend, hpos, hop, hframe, hcopied⟩ := copied
  refine ⟨by rw [Cursor.move_end hle, hend], ?_, ?_, ?_, ?_⟩
  · show c.pos + (k : Int) - s = c.op + k - d
    omega
  · show d ≤ c.op + (k : Int)
    omega
  · intro a ha
    change a < d ∨ c.op + (k : Int) ≤ a at ha
    show (c.heap.mem.copy c.op c.pos k) a = m a
    rw [Mem.copy_outside (by omega), hframe a (by omega)]
  · intro a hlow hhigh
    change a < c.op + (k : Int) at hhigh
    show (c.heap.mem.copy c.op c.pos k) a = m (s + (a - d))
    rcases Int.lt_or_le a c.op with hbelow | habove
    · rw [Mem.copy_outside (by omega), hcopied a hlow hbelow]
    · rw [Mem.copy_inside habove hhigh, hframe _ (by omega)]
      congr 1
      omega

/-- `LZ4_UA_COPYN` moves bytes between ranges that do not meet. -/
theorem literalsCopied_uaCopyN (port : Port) (h : Heap) (d s : Int) (nn : Nat)
    (hapart : d + nn ≤ s ∨ s + nn ≤ d) :
    LiteralsCopied h.mem (uaCopyN port h d s nn).mem d s nn (d + nn) := by
  obtain ⟨c, hdone, copied, hheap⟩ := uaCopyN_rule port h d s nn
    (fun c k _ hle (hI : c.Copied h.mem d s nn) => hI.move hapart hle) (copied_start h d s nn)
  have hend := copied.stop
  rw [hheap]
  exact ⟨fun a ha => copied.frame a (by omega), fun a hlow hhigh =>
    copied.copied a hlow (by omega)⟩

theorem uaCopyN_logged (hP : Downward P) (hlog : h.Logged P m₀) (hread : P ⟨port, s, nn⟩)
    (hwrite : P ⟨.output, d, nn⟩) : (uaCopyN port h d s nn).Logged P m₀ := by
  have hmove (c : Cursor) (k : Nat) (_ : 0 < k) (hle : k ≤ c.len)
      (hI : c.heap.Logged P m₀ ∧ c.op + c.len = d + nn ∧ d ≤ c.op ∧ c.pos - s = c.op - d) :
      (c.move port k).heap.Logged P m₀ ∧ (c.move port k).op + (c.move port k).len = d + nn ∧
        d ≤ (c.move port k).op ∧ (c.move port k).pos - s = (c.move port k).op - d := by
    obtain ⟨hlogged, hend, hop, hpos⟩ := hI
    refine ⟨Heap.logged_memcpy (hP _ _ _ _ _ hop (by omega) hwrite)
      (hP _ _ _ _ _ (by omega) (by omega) hread) hlogged, by rw [Cursor.move_end hle, hend],
      ?_, ?_⟩
    · show d ≤ c.op + (k : Int)
      omega
    · show c.pos + (k : Int) - s = c.op + k - d
      omega
  obtain ⟨c, -, ⟨hlogged, -⟩, hheap⟩ := uaCopyN_rule port h d s nn hmove
    ⟨hlog, rfl, Int.le_refl d, by dsimp only; omega⟩
  rw [hheap]
  exact hlogged

theorem grown_uaCopyN (port : Port) (h : Heap) (d s : Int) (nn : Nat) :
    Grown h (uaCopyN port h d s nn) := by
  obtain ⟨c, -, hgrown, hheap⟩ := uaCopyN_rule port h d s nn
    (I := fun c => Grown h c.heap) (fun c k _ _ hI => hI.trans (grown_memcpy _ _ _ _ _))
    List.suffix_rfl
  rw [hheap]
  exact hgrown

/-- `LZ4_lit_wildCopy8` copies the literals, and at most eight bytes too many. -/
theorem literalsCopied_litWildCopy8 (h : Heap) (op ip : Int) (length : Nat)
    (hapart : op + length + 8 ≤ ip ∨ ip + length + 8 ≤ op) :
    LiteralsCopied h.mem (litWildCopy8 h op ip (op + length)).mem op ip length
      (op + length + 8) := by
  have hdist : op + (length : Int) - op = length := by omega
  unfold litWildCopy8
  rw [hdist]
  split
  · exact ⟨fun a ha => Mem.copy_outside (by omega), fun a hlow hhigh =>
      Mem.copy_inside hlow (by omega)⟩
  split
  · refine ⟨fun a ha => ?_, fun a hlow hhigh => ?_⟩
    · simp only [Heap.memcpy_mem]
      rw [Mem.copy_outside (by omega), Mem.copy_outside (by omega)]
    · simp only [Heap.memcpy_mem]
      rcases Int.lt_or_le a (op + 8) with hfirst | hsecond
      · rw [Mem.copy_outside (by omega), Mem.copy_inside hlow (by omega)]
      · rw [Mem.copy_inside hsecond (by omega), Mem.copy_outside (by omega)]
        congr 1
        omega
  · have hcopied := literalsCopied_uaCopyN .input h op ip (length : Int).toNat (by omega)
    exact ⟨fun a ha => hcopied.frame a (by omega), fun a hlow hhigh =>
      hcopied.copied a hlow (by omega)⟩

theorem litWildCopy8_logged (hP : Downward P) {length : Nat} (hlog : h.Logged P m₀)
    (hread : P ⟨.input, ip, length + 8⟩) (hwrite : P ⟨.output, op, length + 8⟩) :
    (litWildCopy8 h op ip (op + length)).Logged P m₀ := by
  have hdist : op + (length : Int) - op = length := by omega
  unfold litWildCopy8
  split
  · exact Heap.logged_memcpy (hP _ _ _ _ _ (by omega) (by omega) hwrite)
      (hP _ _ _ _ _ (by omega) (by omega) hread) hlog
  split
  · refine Heap.logged_memcpy (hP _ _ _ _ _ ?_ ?_ hwrite) (hP _ _ _ _ _ ?_ ?_ hread)
      (Heap.logged_memcpy (hP _ _ _ _ _ ?_ ?_ hwrite) (hP _ _ _ _ _ ?_ ?_ hread) hlog)
    all_goals omega
  · exact uaCopyN_logged hP hlog (hP _ _ _ _ _ (by omega) (by omega) hread)
      (hP _ _ _ _ _ (by omega) (by omega) hwrite)

theorem grown_litWildCopy8 (h : Heap) (dst src dstEnd : Int) :
    Grown h (litWildCopy8 h dst src dstEnd) := by
  unfold litWildCopy8
  split
  · exact grown_memcpy _ _ _ _ _
  split
  · exact (grown_memcpy _ _ _ _ _).trans (grown_memcpy _ _ _ _ _)
  · exact grown_uaCopyN _ _ _ _ _

end Literals

/-! ## Short matches -/

section ShortMatch

variable {h : Heap} {op : Int} {offset mlenFast : Nat}

theorem Cursor.Cycles.move_abreast (cycles : c.Cycles m op offset) (abreast : c.Abreast op offset)
    (hwidth : k ≤ max 1 offset) :
    (c.move .window k).Cycles m op offset ∧ (c.move .window k).Abreast op offset := by
  obtain ⟨hdist, hle⟩ := abreast
  refine ⟨cycles.move hwidth ⟨0, by simpa using hdist, by simpa using hle⟩, ?_, ?_⟩
  · show c.op + (k : Int) - (c.pos + k) = offset
    omega
  · show op ≤ c.op + (k : Int)
    omega

/-- The moves for short matches lay down the match, and stay below 18 bytes. -/
theorem matchCopied_fastDirectMatchCopy18 (h : Heap) (op : Int) (hmlen : mlenFast ≤ 18)
    (hoffset : mlenFast ≤ offset ∨ 8 ≤ offset) (hpos : 0 < offset) :
    MatchCopied h.mem (fastDirectMatchCopy18 h op (op - offset) mlenFast).mem op offset mlenFast
      (op + 18) := by
  unfold fastDirectMatchCopy18
  split
  · -- a single move may read bytes it writes, but none of the match depends on them
    refine ⟨fun a ha => Mem.copy_outside (by omega), fun h0 => absurd h0 (by omega), ?_⟩
    intro _ a hlow hhigh
    rw [Heap.memcpy_mem, Mem.copy_inside hlow (by omega), Mem.copy_outside (by omega)]
    congr 1
    omega
  · have hwide : 8 ≤ max 1 offset := by omega
    obtain ⟨cycles₁, abreast₁⟩ := (cycles_start 18 (rfl : h.mem = h.mem)).move_abreast
      (abreast_start h op offset 18) hwide
    obtain ⟨cycles₂, abreast₂⟩ := cycles₁.move_abreast abreast₁ hwide
    obtain ⟨cycles₃, abreast₃⟩ := cycles₂.move_abreast abreast₂ (k := 1) (by omega)
    obtain ⟨cycles₄, -⟩ := cycles₃.move_abreast abreast₃ (k := 1) (by omega)
    have h16 : ∀ a : Int, a + 16 = a + (8 : Nat) + (8 : Nat) := by omega
    have h17 : ∀ a : Int, a + 17 = a + (8 : Nat) + (8 : Nat) + (1 : Nat) := by omega
    simp only [h16, h17]
    split
    · split
      · exact cycles₄.matchCopied hpos (by simp only [Cursor.move_op]; omega)
          (by simp only [Cursor.move_op]; omega)
      · exact cycles₃.matchCopied hpos (by simp only [Cursor.move_op]; omega)
          (by simp only [Cursor.move_op]; omega)
    · exact cycles₂.matchCopied hpos (by simp only [Cursor.move_op]; omega)
        (by simp only [Cursor.move_op]; omega)

theorem fastDirectMatchCopy18_logged (hP : Downward P) {mtch : Int} (hlog : h.Logged P m₀)
    (hread : P ⟨.window, mtch, 18⟩) (hwrite : P ⟨.output, op, 18⟩) :
    (fastDirectMatchCopy18 h op mtch mlenFast).Logged P m₀ := by
  have hmove {h : Heap} (hlog : h.Logged P m₀) (d k : Nat) (hd : d + k ≤ 18) :
      (h.memcpy .window (op + d) (mtch + d) k).Logged P m₀ :=
    Heap.logged_memcpy (hP _ _ _ _ _ (by omega) (by omega) hwrite)
      (hP _ _ _ _ _ (by omega) (by omega) hread) hlog
  have hfirst : (h.memcpy .window op mtch 8).Logged P m₀ :=
    Heap.logged_memcpy (hP _ _ _ _ _ (by omega) (by omega) hwrite)
      (hP _ _ _ _ _ (by omega) (by omega) hread) hlog
  unfold fastDirectMatchCopy18
  split
  · exact hfirst
  have hsecond := hmove hfirst 8 8 (by omega)
  split
  · have hthird := hmove hsecond 16 1 (by omega)
    split
    · exact hmove hthird 17 1 (by omega)
    · exact hthird
  · exact hsecond

theorem grown_fastDirectMatchCopy18 (h : Heap) (op mtch : Int) (mlenFast : Nat) :
    Grown h (fastDirectMatchCopy18 h op mtch mlenFast) := by
  have hmove {h' : Heap} (hgrown : Grown h h') (d s : Int) (k : Nat) :
      Grown h (h'.memcpy .window d s k) := hgrown.trans (grown_memcpy _ _ _ _ _)
  unfold fastDirectMatchCopy18
  split
  · exact grown_memcpy _ _ _ _ _
  split
  · split
    · exact hmove (hmove (hmove (grown_memcpy _ _ _ _ _) _ _ _) _ _ _) _ _ _
    · exact hmove (hmove (grown_memcpy _ _ _ _ _) _ _ _) _ _ _
  · exact hmove (grown_memcpy _ _ _ _ _) _ _ _

end ShortMatch

end Lz4.Kernel
