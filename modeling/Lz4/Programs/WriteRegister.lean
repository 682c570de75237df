import Mathlib.Algebra.Ring.Nat
import Lz4.Lib.Machine
import Lz4.Lib.Mem

/-!
# Compressed blocks in the order of the input

The threads that compress a file finish their blocks in any order.  `LZ4IO_checkWriteOrder`
receives them and writes a block at once if it is the next one of the file; otherwise its buffer
waits in the `WriteRegister`, an array with one descriptor for each waiting buffer and `NULL`
descriptors behind them.  A block that is written may be followed by blocks that waited for it.

The register stands for a list of waiting buffers (`WriteRegister.Holds`), and each of its
functions is one operation on that list.  Whatever the order in which the blocks come, they are
written and freed in the order of their ranks (`checkWriteOrder_in_order`).

A register grows by at most 256 descriptors at a time, so its size in bytes does not overflow while
memory for it is found.  The messages about progress are left out.
-/

namespace Lz4.Programs

open FlatMemory Machine

/-! ## The register -/

structure BufferDesc where
  buf : Int
  size : Nat
  rank : Nat
  deriving Repr, DecidableEq

/-- What `calloc` and `memset` leave in a slot; `buf` is `NULL`. -/
def nullBd : BufferDesc := ⟨0, 0, 0⟩

structure WriteRegister where
  expectedRank : Nat
  buffers : List BufferDesc
  blockSize : Nat
  totalCSize : Nat

/-- What the environment answers: whether `realloc` finds memory for so many descriptors, and how
many bytes of a buffer `fwrite` writes. -/
structure Services where
  realloc : Nat → Bool
  fwrite : Int → Nat → Nat

namespace WriteRegister

/-- `WR_init` -/
def init (blockSize : Nat) : WriteRegister := ⟨0, List.replicate 16 nullBd, blockSize, 0⟩

def capacity (wr : WriteRegister) : Nat := wr.buffers.length

/-- The loop of `WR_addBufDesc`. -/
def fillHole (bd : BufferDesc) : List BufferDesc → List BufferDesc
  | [] => []
  | b :: rest => if b.buf = 0 then bd :: rest else b :: fillHole bd rest

/-- `WR_addBufDesc`; an error is the code of `END_PROCESS`. -/
def addBufDesc (io : Services) (wr : WriteRegister) (bd : BufferDesc) :
    Except Nat WriteRegister :=
  if (wr.buffers.getLastD nullBd).buf ≠ 0 then
    let addedCapacity := min wr.capacity 256
    if io.realloc (wr.capacity + addedCapacity) then
      .ok { wr with
        buffers := (wr.buffers ++ List.replicate addedCapacity nullBd).set wr.capacity bd }
    else .error 39
  else .ok { wr with buffers := fillHole bd wr.buffers }

/-- The loop that `WR_isPresent` and `WR_getBufID` share. -/
def find (id : Nat) : List BufferDesc → Option BufferDesc
  | [] => none
  | b :: rest => if b.buf = 0 then none else if b.rank = id then some b else find id rest

/-- `WR_isPresent` -/
def isPresent (wr : WriteRegister) (id : Nat) : Bool := (find id wr.buffers).isSome

/-- `WR_getBufID` -/
def getBufID (wr : WriteRegister) (id : Nat) : Except Nat BufferDesc :=
  match find id wr.buffers with
  | some bd => .ok bd
  | none => .error 41

/-- The second loop of `WR_removeBuffID`: everything behind the first slot moves down by one. -/
def scaleDown : List BufferDesc → List BufferDesc
  | [] => []
  | [_] => [nullBd]
  | _ :: b :: rest => b :: if b.buf = 0 then b :: rest else scaleDown (b :: rest)

/-- The array after `WR_removeBuffID` and what was freed; `none` if there is neither the
descriptor nor a hole. -/
def remove (id : Nat) : List BufferDesc → Option (List BufferDesc × Option Int)
  | [] => none
  | b :: rest =>
    if b.buf = 0 then some (b :: rest, none)
    else if b.rank = id then some (scaleDown (b :: rest), some b.buf)
    else (remove id rest).map fun r => (b :: r.1, r.2)

/-- `WR_removeBuffID`, with the buffer it frees. -/
def removeBuffID (wr : WriteRegister) (id : Nat) : WriteRegister × Option Int :=
  match remove id wr.buffers with
  | some r => ({ wr with buffers := r.1 }, r.2)
  -- the search went through a full array: only the last slot is overwritten
  | none => ({ wr with buffers := wr.buffers.dropLast ++ [nullBd] }, none)

end WriteRegister

/-! ## The jobs -/

/-- What happens to a buffer. -/
inductive Effect where
  | fwrite (buf : Int) (size : Nat)
  | free (buf : Int)
  deriving Repr, DecidableEq

/-- The bytes that reach the output. -/
def Effect.written (m : Mem) : Effect → List UInt8
  | .fwrite buf size => m.bytes buf size
  | .free _ => []

def Effect.freed : Effect → Option Int
  | .fwrite _ _ => none
  | .free buf => some buf

/-- The register, and what was done so far. -/
structure Writer where
  wr : WriteRegister
  trace : List Effect

/-- A new register, where the frame header may have been counted already. -/
def Writer.new (blockSize totalCSize : Nat) : Writer :=
  ⟨{ WriteRegister.init blockSize with totalCSize := totalCSize % 2 ^ 64 }, []⟩

structure WriteJobDesc where
  cBuf : Int
  cSize : Nat
  blockNb : Nat
  deriving Repr, DecidableEq

/-- `bd` in `LZ4IO_checkWriteOrder`. -/
def WriteJobDesc.desc (wjd : WriteJobDesc) : BufferDesc := ⟨wjd.cBuf, wjd.cSize, wjd.blockNb⟩

/-- `LZ4IO_writeBuffer` -/
def writeBuffer (io : Services) (w : Writer) (bd : BufferDesc) : Except Nat Writer :=
  if io.fwrite bd.buf bd.size ≠ bd.size then .error 38
  else .ok { w with trace := w.trace ++ [.fwrite bd.buf bd.size] }

/-- One block was written: the counters. -/
def WriteRegister.advance (wr : WriteRegister) (size : Nat) : WriteRegister :=
  { wr with
    expectedRank := (wr.expectedRank + 1) % 2 ^ 64
    totalCSize := (wr.totalCSize + size) % 2 ^ 64 }

/-- One pass of the loop over the blocks that were stored before. -/
def storedPass (io : Services) (w : Writer) : Step Writer (Except Nat Writer) :=
  if w.wr.isPresent w.wr.expectedRank then
    match w.wr.getBufID w.wr.expectedRank with
    | .error code => .done (.error code)
    | .ok bd =>
      match writeBuffer io w bd with
      | .error code => .done (.error code)
      | .ok w =>
        let removed := w.wr.removeBuffID w.wr.expectedRank
        .next ⟨removed.1.advance bd.size, w.trace ++ removed.2.toList.map .free⟩
  else .done (.ok w)

/-- `LZ4IO_checkWriteOrder`; every pass of its loop empties a slot. -/
def checkWriteOrder (io : Services) (w : Writer) (wjd : WriteJobDesc) :
    Option (Except Nat Writer) :=
  if wjd.blockNb ≠ w.wr.expectedRank then
    some ((w.wr.addBufDesc io wjd.desc).map fun wr => { w with wr := wr })
  else
    match writeBuffer io w wjd.desc with
    | .error code => some (.error code)
    | .ok w =>
      iterate (fun w => some (storedPass io w)) (w.wr.capacity + 1)
        ⟨w.wr.advance wjd.cSize, w.trace ++ [.free wjd.cBuf]⟩

/-- The jobs in the order in which they are received. -/
def checkAll (io : Services) : Writer → List WriteJobDesc → Option (Except Nat Writer)
  | w, [] => some (.ok w)
  | w, wjd :: rest =>
    match checkWriteOrder io w wjd with
    | some (.ok w) => checkAll io w rest
    | other => other

/-! ## The register as a list of waiting buffers -/

namespace WriteRegister

/-- The buffers `stored` wait in the first slots, and the slots behind them are empty. -/
structure Holds (wr : WriteRegister) (stored : List BufferDesc) : Prop where
  capacity_pos : 0 < wr.capacity
  filled : ∀ b ∈ stored, b.buf ≠ 0
  buffers : ∃ free, wr.buffers = stored ++ List.replicate free nullBd

variable {wr : WriteRegister} {stored before after : List BufferDesc} {bd : BufferDesc} {id : Nat}

theorem advance_holds (holds : wr.Holds stored) (size : Nat) : (wr.advance size).Holds stored :=
  ⟨holds.capacity_pos, holds.filled, holds.buffers⟩

theorem Holds.length_le (holds : wr.Holds stored) : stored.length ≤ wr.capacity := by
  obtain ⟨free, hbuffers⟩ := holds.buffers
  rw [capacity, hbuffers, List.length_append]
  omega

theorem fillHole_append (hfilled : ∀ b ∈ stored, b.buf ≠ 0) (rest : List BufferDesc) :
    fillHole bd (stored ++ nullBd :: rest) = stored ++ bd :: rest := by
  induction stored with
  | nil => rfl
  | cons b stored ih =>
    simp only [List.mem_cons, forall_eq_or_imp] at hfilled
    simp only [List.cons_append, fillHole, if_neg hfilled.1]
    rw [ih hfilled.2]

theorem holds_concat {free : Nat} (hfilled : ∀ b ∈ stored ++ [bd], b.buf ≠ 0)
    (hbuffers : wr.buffers = stored ++ [bd] ++ List.replicate free nullBd) :
    wr.Holds (stored ++ [bd]) := by
  refine ⟨?_, hfilled, free, hbuffers⟩
  rw [capacity, hbuffers, List.length_append, List.length_append, List.length_singleton]
  omega

/-- A buffer that has to wait is put behind the others, whether or not there is a free slot. -/
theorem addBufDesc_holds {io : Services} (hrealloc : ∀ n, io.realloc n = true)
    (holds : wr.Holds stored) (hbuf : bd.buf ≠ 0) :
    ∃ wr', wr.addBufDesc io bd = .ok wr' ∧ wr'.Holds (stored ++ [bd]) ∧
      wr'.expectedRank = wr.expectedRank ∧ wr'.totalCSize = wr.totalCSize := by
  have hpos := holds.capacity_pos
  have hfilled : ∀ b ∈ stored ++ [bd], b.buf ≠ 0 := by
    intro b hb
    rcases List.mem_append.mp hb with hb | hb
    · exact holds.filled b hb
    · rw [List.mem_singleton.mp hb]
      exact hbuf
  obtain ⟨free, hbuffers⟩ := holds.buffers
  unfold addBufDesc
  cases free with
  | zero =>
    rw [List.replicate_zero, List.append_nil] at hbuffers
    have hstored : stored ≠ [] := by
      rintro rfl
      simp [capacity, hbuffers] at hpos
    have hlast : (wr.buffers.getLastD nullBd).buf ≠ 0 := by
      rw [hbuffers, List.getLastD_eq_getLast?, List.getLast?_eq_some_getLast hstored]
      exact holds.filled _ (List.getLast_mem hstored)
    obtain ⟨more, hmore⟩ : ∃ more, min wr.capacity 256 = more + 1 :=
      ⟨min wr.capacity 256 - 1, by omega⟩
    rw [if_pos hlast]
    rw [if_pos (hrealloc _)]
    have hextended : (wr.buffers ++ List.replicate (min wr.capacity 256) nullBd).set
        wr.capacity bd = stored ++ [bd] ++ List.replicate more nullBd := by
      rw [hmore, capacity, hbuffers, List.set_append_right _ _ (Nat.le_refl _), Nat.sub_self,
        List.replicate_succ, List.set_cons_zero, List.append_assoc]
      rfl
    exact ⟨_, rfl, holds_concat hfilled hextended, rfl, rfl⟩
  | succ free =>
    have hlast : ¬ (wr.buffers.getLastD nullBd).buf ≠ 0 := by
      rw [hbuffers, List.replicate_succ', ← List.append_assoc, List.getLastD_concat]
      simp [nullBd]
    rw [if_neg hlast]
    have hplaced : fillHole bd wr.buffers = stored ++ [bd] ++ List.replicate free nullBd := by
      rw [hbuffers, List.replicate_succ, fillHole_append holds.filled, List.append_assoc]
      rfl
    exact ⟨_, rfl, holds_concat hfilled hplaced, rfl, rfl⟩

theorem find_replicate (free : Nat) : find id (List.replicate free nullBd) = none := by
  cases free with
  | zero => rfl
  | succ free => rfl

/-- A search ends at the first waiting buffer with the rank. -/
theorem find_append (id : Nat) (hfilled : ∀ b ∈ stored, b.buf ≠ 0) (free : Nat) :
    (find id (stored ++ List.replicate free nullBd) = none ∧ ∀ b ∈ stored, b.rank ≠ id) ∨
      ∃ before bd after, stored = before ++ bd :: after ∧ bd.rank = id ∧
        (∀ b ∈ before, b.rank ≠ id) ∧
        find id (stored ++ List.replicate free nullBd) = some bd := by
  induction stored with
  | nil => exact Or.inl ⟨find_replicate free, fun b hb => absurd hb (by simp)⟩
  | cons b stored ih =>
    simp only [List.mem_cons, forall_eq_or_imp] at hfilled
    simp only [List.cons_append, find, if_neg hfilled.1]
    by_cases hrank : b.rank = id
    · rw [if_pos hrank]
      exact Or.inr ⟨[], b, stored, rfl, hrank, fun b hb => absurd hb (by simp), rfl⟩
    · rw [if_neg hrank]
      rcases ih hfilled.2 with ⟨hnone, hother⟩ | ⟨before, bd, after, rfl, hbd, hbefore, hfind⟩
      · exact Or.inl ⟨hnone, List.forall_mem_cons.mpr ⟨hrank, hother⟩⟩
      · exact Or.inr ⟨b :: before, bd, after, rfl, hbd,
          List.forall_mem_cons.mpr ⟨hrank, hbefore⟩, hfind⟩

theorem scaleDown_append (hfilled : ∀ b ∈ after, b.buf ≠ 0) (free : Nat) :
    scaleDown (bd :: (after ++ List.replicate free nullBd)) =
      after ++ List.replicate (free + 1) nullBd := by
  induction after generalizing bd with
  | nil =>
    cases free with
    | zero => rfl
    | succ free => rfl
  | cons b after ih =>
    simp only [List.mem_cons, forall_eq_or_imp] at hfilled
    simp only [List.cons_append, scaleDown, if_neg hfilled.1]
    rw [ih hfilled.2]

theorem remove_append (hbefore : ∀ b ∈ before, b.buf ≠ 0 ∧ b.rank ≠ id) (hbuf : bd.buf ≠ 0)
    (hrank : bd.rank = id) (hafter : ∀ b ∈ after, b.buf ≠ 0) (free : Nat) :
    remove id (before ++ bd :: (after ++ List.replicate free nullBd)) =
      some (before ++ (after ++ List.replicate (free + 1) nullBd), some bd.buf) := by
  induction before with
  | nil =>
    simp only [List.nil_append, remove, if_neg hbuf, if_pos hrank]
    rw [scaleDown_append hafter]
  | cons b before ih =>
    simp only [List.mem_cons, forall_eq_or_imp] at hbefore
    simp only [List.cons_append, remove, if_neg hbefore.1.1, if_neg hbefore.1.2]
    rw [ih hbefore.2]
    rfl

/-- Either no buffer with the rank waits, or the register finds it, and removes and frees it. -/
theorem Holds.search (holds : wr.Holds stored) (id : Nat) :
    (wr.isPresent id = false ∧ ∀ b ∈ stored, b.rank ≠ id) ∨
      ∃ before bd after, stored = before ++ bd :: after ∧ bd.rank = id ∧
        wr.isPresent id = true ∧ wr.getBufID id = .ok bd ∧
        (wr.removeBuffID id).1.Holds (before ++ after) ∧
        wr.removeBuffID id =
          ({ wr with buffers := (wr.removeBuffID id).1.buffers }, some bd.buf) := by
  obtain ⟨free, hbuffers⟩ := holds.buffers
  have hfilled := holds.filled
  rcases find_append id hfilled free with
    ⟨hnone, hother⟩ | ⟨before, bd, after, rfl, hrank, hbefore, hfind⟩
  · left
    rw [isPresent, hbuffers, hnone]
    exact ⟨rfl, hother⟩
  · right
    have hremove := remove_append
      (fun b hb => ⟨hfilled b (List.mem_append_left _ hb), hbefore b hb⟩)
      (hfilled bd (List.mem_append_right _ List.mem_cons_self)) hrank
      (fun b hb => hfilled b (List.mem_append_right _ (List.mem_cons_of_mem _ hb))) free
    rw [List.append_assoc, List.cons_append] at hbuffers hfind
    have hremoved : wr.removeBuffID id = ({ wr with
        buffers := before ++ (after ++ List.replicate (free + 1) nullBd) }, some bd.buf) := by
      rw [removeBuffID, hbuffers, hremove]
    refine ⟨before, bd, after, rfl, hrank, ?_, ?_, ?_, ?_⟩
    · rw [isPresent, hbuffers, hfind]
      rfl
    · rw [getBufID, hbuffers, hfind]
    · rw [hremoved]
      refine ⟨?_, fun b hb => hfilled b ?_, free + 1, (List.append_assoc _ _ _).symm⟩
      · simp only [capacity, List.length_append, List.length_replicate]
        omega
      · rcases List.mem_append.mp hb with hb | hb
        · exact List.mem_append_left _ hb
        · exact List.mem_append_right _ (List.mem_cons_of_mem _ hb)
    · rw [hremoved]

end WriteRegister

/-! ## Blocks by rank -/

/-- A block is written, then freed. -/
def effects (blocks : List BufferDesc) : List Effect :=
  blocks.flatMap fun bd => [.fwrite bd.buf bd.size, .free bd.buf]

theorem written_effects (m : Mem) (blocks : List BufferDesc) :
    (effects blocks).flatMap (·.written m) = blocks.flatMap fun bd => m.bytes bd.buf bd.size := by
  induction blocks with
  | nil => rfl
  | cons bd blocks ih =>
    rw [List.flatMap_cons, ← ih]
    simp [effects, Effect.written]

theorem freed_effects (blocks : List BufferDesc) :
    (effects blocks).filterMap (·.freed) = blocks.map (·.buf) := by
  induction blocks with
  | nil => rfl
  | cons bd blocks ih =>
    rw [List.map_cons, ← ih]
    simp [effects, Effect.freed]

/-- Memory is found, writes are complete, and the block of rank `r` is at position `r`. -/
structure Ranked (io : Services) (ordered : List BufferDesc) : Prop where
  realloc : ∀ n, io.realloc n = true
  fwrite : ∀ buf size, io.fwrite buf size = size
  ranks : ordered.map (·.rank) = List.range ordered.length
  length_lt : ordered.length < 2 ^ 64

section

variable {io : Services} {ordered received stored : List BufferDesc} {bd : BufferDesc}
  {total n : Nat} {w : Writer}

section

variable (ranked : Ranked io ordered)

include ranked

theorem Ranked.rank_getElem {i : Nat} (hi : i < ordered.length) : ordered[i].rank = i := by
  have hmap : (ordered.map (·.rank))[i]? = (List.range ordered.length)[i]? := by
    rw [ranked.ranks]
  simpa [hi] using hmap

theorem Ranked.rank_lt (hbd : bd ∈ ordered.take n) : bd.rank < n ∧ bd.rank < ordered.length := by
  obtain ⟨i, hi, rfl⟩ := List.getElem_of_mem hbd
  rw [List.length_take] at hi
  rw [List.getElem_take, ranked.rank_getElem (by omega)]
  omega

theorem Ranked.take_succ (hbd : bd ∈ ordered) :
    ordered.take (bd.rank + 1) = ordered.take bd.rank ++ [bd] := by
  obtain ⟨i, hi, rfl⟩ := List.getElem_of_mem hbd
  rw [ranked.rank_getElem hi, List.take_succ_eq_append_getElem hi]

/-! ## What a job leaves behind -/

/-- Of the blocks that were `received`, those in front of the expected one are written, and the
others wait. -/
structure Sorted (ordered : List BufferDesc) (total : Nat) (received : List BufferDesc)
    (w : Writer) (stored : List BufferDesc) : Prop where
  known : received ⊆ ordered
  expected_le : w.wr.expectedRank ≤ ordered.length
  trace : w.trace = effects (ordered.take w.wr.expectedRank)
  total : w.wr.totalCSize =
    (total + ((ordered.take w.wr.expectedRank).map (·.size)).sum) % 2 ^ 64
  holds : w.wr.Holds stored
  received : (ordered.take w.wr.expectedRank ++ stored).Perm received

/-- The block that is expected does not wait. -/
def Settled (w : Writer) (stored : List BufferDesc) : Prop :=
  ∀ b ∈ stored, b.rank ≠ w.wr.expectedRank

/-- The expected block is written, wherever it comes from. -/
theorem Sorted.write (sorted : Sorted ordered total received w stored)
    (hrank : bd.rank = w.wr.expectedRank) {wr' : WriteRegister}
    {stored' received' : List BufferDesc} (holds : wr'.Holds stored')
    (hexpected : wr'.expectedRank = w.wr.expectedRank) (htotal : wr'.totalCSize = w.wr.totalCSize)
    (hbd : bd ∈ ordered) (hknown : received' ⊆ ordered)
    (hperm : (ordered.take w.wr.expectedRank ++ [bd] ++ stored').Perm received') :
    Sorted ordered total received' ⟨wr'.advance bd.size,
      w.trace ++ [.fwrite bd.buf bd.size] ++ [.free bd.buf]⟩ stored' := by
  have hlength := ranked.length_lt
  have hlt : bd.rank < ordered.length :=
    (ranked.rank_lt (n := ordered.length) (by rwa [List.take_length])).2
  have htake := ranked.take_succ hbd
  rw [hrank] at hlt htake
  have hnext : (wr'.advance bd.size).expectedRank = w.wr.expectedRank + 1 := by
    show (wr'.expectedRank + 1) % 2 ^ 64 = w.wr.expectedRank + 1
    omega
  refine ⟨hknown, ?_, ?_, ?_, WriteRegister.advance_holds holds _, ?_⟩
  · rw [hnext]
    exact hlt
  · rw [hnext, htake, sorted.trace]
    simp [effects]
  · have hsum := sorted.total
    rw [hnext, htake, List.map_append, List.sum_append]
    show (wr'.totalCSize + bd.size) % 2 ^ 64 = _
    simp only [List.map_cons, List.map_nil, List.sum_cons, List.sum_nil]
    omega
  · rw [hnext, htake]
    exact hperm

theorem Ranked.writeBuffer_ok (w : Writer) (bd : BufferDesc) :
    writeBuffer io w bd = .ok { w with trace := w.trace ++ [.fwrite bd.buf bd.size] } := by
  rw [writeBuffer, if_neg (by simp [ranked.fwrite])]

section

variable (sorted : Sorted ordered total received w stored)

include sorted

/-- One pass writes the expected block if it waits; otherwise the loop is over. -/
theorem storedPass_sorted :
    (storedPass io w).Satisfies (fun w' => ∃ n < stored.length, ∃ stored', stored'.length = n ∧
      Sorted ordered total received w' stored') (fun r => ∃ w' stored', r = .ok w' ∧
      Sorted ordered total received w' stored' ∧ Settled w' stored') := by
  unfold storedPass
  rcases sorted.holds.search w.wr.expectedRank with
    ⟨habsent, hsettled⟩ | ⟨before, bd, after, rfl, hrank, hpresent, hget, holds, hremoved⟩
  · rw [habsent]
    exact ⟨w, stored, rfl, sorted, hsettled⟩
  · rw [if_pos hpresent, hget]
    dsimp only
    rw [ranked.writeBuffer_ok]
    have hmem : bd ∈ received := sorted.received.subset (by simp)
    have hperm : (ordered.take w.wr.expectedRank ++ [bd] ++ (before ++ after)).Perm received := by
      refine List.Perm.trans ?_ sorted.received
      rw [List.append_assoc, List.singleton_append]
      exact List.Perm.append_left _ List.perm_middle.symm
    refine ⟨(before ++ after).length, by simp, before ++ after, rfl, ?_⟩
    have hnext := sorted.write ranked hrank holds (by rw [hremoved]) (by rw [hremoved])
      (sorted.known hmem) sorted.known hperm
    rw [hremoved] at hnext ⊢
    exact hnext

theorem iterate_storedPass {fuel : Nat} (hfuel : stored.length < fuel) :
    ∃ r, iterate (fun w => some (storedPass io w)) fuel w = some r ∧ ∃ w' stored', r = .ok w' ∧
      Sorted ordered total received w' stored' ∧ Settled w' stored' := by
  refine iterate_budget (fun n w => ∃ stored, stored.length = n ∧
    Sorted ordered total received w stored) (fun n w h => ?_) ⟨stored, rfl, sorted⟩ hfuel
  obtain ⟨stored, rfl, sorted⟩ := h
  exact ⟨_, rfl, storedPass_sorted ranked sorted⟩

theorem checkWriteOrder_sorted (settled : Settled w stored) {wjd : WriteJobDesc}
    (hwjd : wjd.desc ∈ ordered) (hbuf : wjd.cBuf ≠ 0) :
    ∃ w' stored', checkWriteOrder io w wjd = some (.ok w') ∧
      Sorted ordered total (received ++ [wjd.desc]) w' stored' ∧ Settled w' stored' := by
  have hknown : received ++ [wjd.desc] ⊆ ordered :=
    List.append_subset.mpr ⟨sorted.known, List.cons_subset.mpr ⟨hwjd, List.nil_subset _⟩⟩
  unfold checkWriteOrder
  by_cases hrank : wjd.blockNb = w.wr.expectedRank
  · rw [if_neg (not_not_intro hrank), ranked.writeBuffer_ok]
    have hperm : (ordered.take w.wr.expectedRank ++ [wjd.desc] ++ stored).Perm
        (received ++ [wjd.desc]) := by
      rw [List.append_assoc]
      refine (List.Perm.append_left _ List.perm_append_comm).trans ?_
      rw [← List.append_assoc]
      exact sorted.received.append_right _
    have hwritten := sorted.write ranked hrank sorted.holds rfl rfl hwjd hknown hperm
    obtain ⟨r, hrun, w', stored', rfl, hafter⟩ := iterate_storedPass ranked hwritten
      (Nat.lt_succ_of_le sorted.holds.length_le)
    exact ⟨w', stored', hrun, hafter⟩
  · rw [if_pos hrank]
    obtain ⟨wr', hadd, holds, hexpected, htotal⟩ :=
      WriteRegister.addBufDesc_holds ranked.realloc sorted.holds (show wjd.desc.buf ≠ 0 from hbuf)
    rw [hadd]
    refine ⟨{ w with wr := wr' }, stored ++ [wjd.desc], rfl, ⟨hknown, ?_, ?_, ?_, holds, ?_⟩, ?_⟩
    · rw [hexpected]
      exact sorted.expected_le
    · rw [hexpected]
      exact sorted.trace
    · rw [hexpected, htotal]
      exact sorted.total
    · rw [hexpected, ← List.append_assoc]
      exact sorted.received.append_right _
    · intro b hb
      rw [hexpected]
      rcases List.mem_append.mp hb with hb | hb
      · exact settled b hb
      · rw [List.mem_singleton.mp hb]
        exact hrank

theorem checkAll_sorted (settled : Settled w stored) {jobs : List WriteJobDesc}
    (hjobs : ∀ wjd ∈ jobs, wjd.desc ∈ ordered ∧ wjd.cBuf ≠ 0) :
    ∃ w' stored', checkAll io w jobs = some (.ok w') ∧
      Sorted ordered total (received ++ jobs.map (·.desc)) w' stored' ∧ Settled w' stored' := by
  induction jobs generalizing received w stored with
  | nil => exact ⟨w, stored, rfl, by simpa using sorted, settled⟩
  | cons wjd jobs ih =>
    simp only [List.mem_cons, forall_eq_or_imp] at hjobs
    obtain ⟨w₁, stored₁, hcheck, sorted₁, settled₁⟩ :=
      checkWriteOrder_sorted ranked sorted settled hjobs.1.1 hjobs.1.2
    obtain ⟨w', stored', hrest, sorted', settled'⟩ := ih sorted₁ settled₁ hjobs.2
    refine ⟨w', stored', ?_, by simpa using sorted', settled'⟩
    rw [checkAll, hcheck]
    exact hrest

/-- When every block was received, none of them waits. -/
theorem Sorted.all (settled : Settled w stored) (hall : received.Perm ordered) :
    w.wr.expectedRank = ordered.length ∧ stored = [] := by
  have hperm := sorted.received.trans hall
  have hexpected : w.wr.expectedRank = ordered.length := by
    by_contra hne
    have hle := sorted.expected_le
    have hlt : w.wr.expectedRank < ordered.length := by omega
    have hrank := ranked.rank_getElem hlt
    rcases List.mem_append.mp (hperm.symm.subset (List.getElem_mem hlt)) with htaken | hwaits
    · have := (ranked.rank_lt htaken).1
      omega
    · exact settled _ hwaits hrank
  refine ⟨hexpected, ?_⟩
  have hlength := hperm.length_eq
  rw [hexpected, List.take_length, List.length_append] at hlength
  exact List.length_eq_zero_iff.mp (by omega)

end

end

end

/-! ## Every order of the jobs -/

/-- `LZ4IO_checkWriteOrder` receives the blocks `0 .. n-1` in any order.  It writes them in the
order of their ranks and frees each buffer once; at the end no buffer waits and both counters tell
what was written.  After every job the buffers that wait fill the register from its beginning. -/
theorem checkWriteOrder_in_order (io : Services) (hrealloc : ∀ n, io.realloc n = true)
    (hfwrite : ∀ buf size, io.fwrite buf size = size) (m : Mem) (blockSize total : Nat)
    (ordered jobs : List WriteJobDesc)
    (hranks : ordered.map (·.blockNb) = List.range ordered.length)
    (hlength : ordered.length < 2 ^ 64) (hbufs : ∀ wjd ∈ ordered, wjd.cBuf ≠ 0)
    (hperm : jobs.Perm ordered) :
    (∀ k, ∃ w stored, checkAll io (.new blockSize total) (jobs.take k) = some (.ok w) ∧
      w.wr.Holds stored) ∧
    ∃ w, checkAll io (.new blockSize total) jobs = some (.ok w) ∧
      w.trace.flatMap (·.written m) = ordered.flatMap (fun wjd => m.bytes wjd.cBuf wjd.cSize) ∧
      w.trace.filterMap (·.freed) = ordered.map (·.cBuf) ∧ w.wr.Holds [] ∧
      w.wr.expectedRank = ordered.length ∧
      w.wr.totalCSize = (total + (ordered.map (·.cSize)).sum) % 2 ^ 64 := by
  have ranked : Ranked io (ordered.map (·.desc)) :=
    ⟨hrealloc, hfwrite, by rwa [List.length_map, List.map_map], by rwa [List.length_map]⟩
  have sorted : Sorted (ordered.map (·.desc)) total [] (.new blockSize total) [] :=
    ⟨List.nil_subset _, Nat.zero_le _, rfl, by simp [Writer.new, WriteRegister.init],
      ⟨Nat.succ_pos 15, fun b hb => absurd hb (by simp), 16, rfl⟩, List.Perm.refl []⟩
  have settled : Settled (.new blockSize total) [] := fun b hb => absurd hb (by simp)
  have hjobs : ∀ wjd ∈ jobs, wjd.desc ∈ ordered.map (·.desc) ∧ wjd.cBuf ≠ 0 := by
    intro wjd hwjd
    have hmem := hperm.subset hwjd
    exact ⟨List.mem_map_of_mem hmem, hbufs wjd hmem⟩
  refine ⟨fun k => ?_, ?_⟩
  · obtain ⟨w, stored, hcheck, hsorted, -⟩ := checkAll_sorted ranked sorted settled
      (fun wjd hwjd => hjobs wjd (List.mem_of_mem_take hwjd))
    exact ⟨w, stored, hcheck, hsorted.holds⟩
  · obtain ⟨w, stored, hcheck, hsorted, hsettled⟩ := checkAll_sorted ranked sorted settled hjobs
    obtain ⟨hexpected, rfl⟩ := hsorted.all ranked hsettled (hperm.map _)
    have htrace := hsorted.trace
    have htotal := hsorted.total
    rw [hexpected, List.take_length] at htrace htotal
    refine ⟨w, hcheck, ?_, ?_, hsorted.holds, ?_, ?_⟩
    · rw [htrace, written_effects, List.flatMap_map]
      rfl
    · rw [htrace, freed_effects, List.map_map]
      rfl
    · rw [hexpected, List.length_map]
    · rw [htotal, List.map_map]
      rfl

/-- Three blocks, the first one last. -/
theorem checkWriteOrder_in_order_reversed :
    ∃ w, checkAll ⟨fun _ => true, fun _ size => size⟩ (.new 4 7)
        [⟨30, 1, 2⟩, ⟨20, 2, 1⟩, ⟨10, 1, 0⟩] = some (.ok w) ∧
      w.trace.flatMap (·.written fun a => UInt8.ofNat a.toNat) = [10, 20, 21, 30] ∧
      w.trace.filterMap (·.freed) = [10, 20, 30] ∧ w.wr.Holds [] ∧ w.wr.expectedRank = 3 ∧
      w.wr.totalCSize = 11 :=
  (checkWriteOrder_in_order ⟨fun _ => true, fun _ size => size⟩ (fun _ => rfl) (fun _ _ => rfl)
    (fun a => UInt8.ofNat a.toNat) 4 7 [⟨10, 1, 0⟩, ⟨20, 2, 1⟩, ⟨30, 1, 2⟩]
    [⟨30, 1, 2⟩, ⟨20, 2, 1⟩, ⟨10, 1, 0⟩] rfl (by decide) (by decide) (by decide)).2

end Lz4.Programs
