import Mathlib.Algebra.Ring.Nat
import Lz4.Lib.Stdio

/-!
# Sparse output files

`LZ4IO_fwriteSparse` writes no zeros where it can seek over them.  A buffer is taken in segments of
32 KB, the zero words at the start of each are only counted in `storedSkips`, and the rest of the
segment is written behind one seek over all that was counted.  The bytes behind the last whole word
are treated the same way, byte by byte.  The count goes from one buffer to the next; when it has
passed 1 GB, the next call seeks over 1 GB first.  `LZ4IO_fwriteSparseEnd` writes the last zero.

At every moment the file and the zeros that are owed make up the bytes received so far
(`Output.Owes`).  Each step keeps that, so at the end the file is the concatenation of the buffers,
and the 32-bit counter stays under 1 GB + 8 MB (`writeBuffers_content`).
-/

namespace Lz4.Programs

open Stdio (File)

/-! ## The code -/

/-- The output as the code finds it: which calls of `fseek` and `fwrite` succeed, the size of a
word, whether sparse files are asked for, and whether the file is `stdout`. -/
structure Channel where
  seeks : File → Nat → Bool
  writes : File → List UInt8 → Bool
  sizeT : Nat
  sparseFileSupport : Int
  isStdout : Bool

/-- `sparseMode` of `LZ4IO_fwriteSparse` -/
def Channel.sparseMode (ch : Channel) : Bool :=
  decide (ch.sparseFileSupport - ch.isStdout.toNat > 0)

/-- Every seek and every write succeeds. -/
def Channel.Reliable (ch : Channel) : Prop :=
  (∀ f n, ch.seeks f n = true) ∧ ∀ f bytes, ch.writes f bytes = true

/-- The file and the counter; `overflow` records that a sum did not fit into the counter. -/
structure Output where
  file : File
  storedSkips : Nat
  overflow : Bool

/-- A file that was just created. -/
def Output.fresh : Output := ⟨⟨[], 0, false⟩, 0, false⟩

/-- The number of zero units, of `size` bytes each, at the start of `count` of them. -/
def zeroUnits (size : Nat) : Nat → List UInt8 → Nat
  | 0, _ => 0
  | count + 1, ptr =>
    if (ptr.take size).all (· == 0) then zeroUnits size count (ptr.drop size) + 1 else 0

namespace Output

/-- `storedSkips += n` -/
def addSkips (o : Output) (n : Nat) : Output :=
  { o with
    storedSkips := (o.storedSkips + n) % 2 ^ 32
    overflow := o.overflow || decide (2 ^ 32 ≤ o.storedSkips + n) }

/-- `UTIL_fseek` over `skips` of the bytes counted, with the code of `END_PROCESS` for a failure. -/
def skip (ch : Channel) (o : Output) (skips code : Nat) : Except Nat Output :=
  if ch.seeks o.file skips then
    .ok { o with file := o.file.fseek skips, storedSkips := o.storedSkips - skips }
  else .error code

/-- `fwrite`, with the code of `END_PROCESS` for a short count. -/
def fwrite (ch : Channel) (o : Output) (bytes : List UInt8) (code : Nat) : Except Nat Output :=
  if ch.writes o.file bytes then .ok { o with file := o.file.fwrite bytes } else .error code

/-- The body of the loop over segments, and the treatment of the bytes behind the last word. -/
def writeUnits (ch : Channel) (size count : Nat) (ptr : List UInt8) (seekCode writeCode : Nat)
    (o : Output) : Except Nat Output :=
  let nb0 := zeroUnits size count ptr
  let o := o.addSkips (nb0 * size)
  if nb0 ≠ count then do
    let o ← o.skip ch o.storedSkips seekCode
    o.fwrite ch ((ptr.drop (nb0 * size)).take ((count - nb0) * size)) writeCode
  else .ok o

/-- The loop over segments, with `bufferSizeT` words to come; `fuel` bounds their number. -/
def segmentLoop (ch : Channel) : Nat → Nat → List UInt8 → Output → Except Nat Output
  | 0, _, _, o => .ok o
  | fuel + 1, bufferSizeT, ptrT, o =>
    if bufferSizeT = 0 then .ok o
    else do
      let seg0SizeT := min (32768 / ch.sizeT) bufferSizeT
      let o ← o.writeUnits ch ch.sizeT seg0SizeT ptrT 72 73
      segmentLoop ch fuel (bufferSizeT - seg0SizeT) (ptrT.drop (seg0SizeT * ch.sizeT)) o

/-- "avoid int overflow" -/
def skipGigabyte (ch : Channel) (o : Output) : Except Nat Output :=
  if o.storedSkips > 2 ^ 30 then o.skip ch (2 ^ 30) 71 else .ok o

/-- `LZ4IO_fwriteSparse` -/
def fwriteSparse (ch : Channel) (buffer : List UInt8) (o : Output) : Except Nat Output :=
  if !ch.sparseMode then do
    let o ← o.fwrite ch buffer 70
    return { o with storedSkips := 0 }
  else do
    let bufferSizeT := buffer.length / ch.sizeT
    let restSize := buffer.length &&& (ch.sizeT - 1)
    let o ← o.skipGigabyte ch
    let o ← o.segmentLoop ch bufferSizeT bufferSizeT buffer
    if restSize ≠ 0 then
      o.writeUnits ch 1 restSize (buffer.drop (bufferSizeT * ch.sizeT)) 74 75
    else return o

/-- `LZ4IO_fwriteSparseEnd` -/
def fwriteSparseEnd (ch : Channel) (o : Output) : Except Nat Output :=
  if o.storedSkips > 0 then do
    let o ← o.skip ch (o.storedSkips - 1) 69
    o.fwrite ch [0] 69
  else return o

/-- The buffers one after the other, and the end. -/
def writeBuffers (ch : Channel) : List (List UInt8) → Output → Except Nat Output
  | [], o => o.fwriteSparseEnd ch
  | buffer :: buffers, o => do
    let o ← o.fwriteSparse ch buffer
    writeBuffers ch buffers o

end Output

/-! ## Zeros at the start -/

theorem zeroUnits_le (size count : Nat) (ptr : List UInt8) : zeroUnits size count ptr ≤ count := by
  induction count generalizing ptr with
  | zero => exact Nat.le_refl 0
  | succ count ih =>
    rw [zeroUnits]
    split
    · exact Nat.succ_le_succ (ih _)
    · exact Nat.zero_le _

theorem take_zeroUnits {size count : Nat} {ptr : List UInt8} (hlength : count * size ≤ ptr.length) :
    ptr.take (zeroUnits size count ptr * size) =
      List.replicate (zeroUnits size count ptr * size) 0 := by
  induction count generalizing ptr with
  | zero => simp [zeroUnits]
  | succ count ih =>
    rw [Nat.succ_mul] at hlength
    rw [zeroUnits]
    split
    case isFalse => simp
    case isTrue hzero =>
      have hunit : ptr.take size = List.replicate size 0 := by
        rw [List.eq_replicate_iff, List.length_take]
        exact ⟨by omega, fun b hb => by simpa using List.all_eq_true.1 hzero b hb⟩
      have hrest := @ih (ptr.drop size) (by rw [List.length_drop]; omega)
      rw [Nat.succ_mul, Nat.add_comm, List.take_add, hunit, hrest, List.replicate_append_replicate]

/-! ## Calls that may end the process -/

variable {ch : Channel} {o : Output} {bytes ptr : List UInt8} {size count n code code' : Nat}
  {P Q : Output → Prop}

/-- The result satisfies `P`, and only a call that failed ends the process. -/
def Channel.Ends (ch : Channel) (P : Output → Prop) : Except Nat Output → Prop
  | .ok o => P o
  | .error _ => ¬ ch.Reliable

theorem Channel.Ends.bind {r : Except Nat Output} {k : Output → Except Nat Output}
    (hr : ch.Ends P r) (hk : ∀ o, P o → ch.Ends Q (k o)) : ch.Ends Q (r >>= k) := by
  cases r with
  | ok o => exact hk o hr
  | error code => exact hr

theorem Channel.Ends.imp {r : Except Nat Output} (hr : ch.Ends P r) (himp : ∀ o, P o → Q o) :
    ch.Ends Q r := by
  cases r with
  | ok o => exact himp o hr
  | error code => exact hr

theorem Output.skip_ends (h : P { o with
      file := o.file.fseek n, storedSkips := o.storedSkips - n }) :
    ch.Ends P (o.skip ch n code) := by
  rw [Output.skip]
  split
  case isTrue => exact h
  case isFalse hfails => exact fun hreliable => hfails (hreliable.1 _ _)

theorem Output.fwrite_ends (h : P { o with file := o.file.fwrite bytes }) :
    ch.Ends P (o.fwrite ch bytes code) := by
  rw [Output.fwrite]
  split
  case isTrue => exact h
  case isFalse hfails => exact fun hreliable => hfails (hreliable.2 _ _)

/-! ## The zeros that are owed -/

/-- The file and the zeros that are still to come make up `bytes`. -/
structure Output.Owes (o : Output) (bytes : List UInt8) : Prop where
  past : o.file.data.length ≤ o.file.pos
  owed : o.file.data ++
    List.replicate (o.file.pos + o.storedSkips - o.file.data.length) 0 = bytes
  /-- A seek is left without a write only while zeros are owed. -/
  settled : o.storedSkips = 0 → o.file.pos = o.file.data.length
  exact : o.overflow = false

namespace Output.Owes

section

variable (h : o.Owes bytes)

include h

theorem addSkips (hn : o.storedSkips + n < 2 ^ 32) :
    (o.addSkips n).Owes (bytes ++ List.replicate n 0) ∧ (o.addSkips n).storedSkips =
      o.storedSkips + n := by
  have hskips : (o.addSkips n).storedSkips = o.storedSkips + n := Nat.mod_eq_of_lt hn
  refine ⟨⟨h.past, ?_, fun hzero => h.settled (by omega), ?_⟩, hskips⟩
  · have hpast := h.past
    rw [hskips, ← h.owed, List.append_assoc, List.replicate_append_replicate]
    dsimp only [Output.addSkips]
    congr 2
    omega
  · simp only [Output.addSkips, h.exact, Bool.false_or, decide_eq_false_iff_not]
    omega

/-- A seek over some of the zeros. -/
theorem fseek (hn : n < o.storedSkips) :
    Output.Owes { o with file := o.file.fseek n, storedSkips := o.storedSkips - n } bytes := by
  have hpos : (o.file.fseek n).pos = o.file.pos + n := by
    simp only [File.fseek]
    omega
  have hpast := h.past
  refine ⟨?_, ?_, fun hzero => ?_, h.exact⟩
  · rw [hpos]
    exact Nat.le_add_right_of_le hpast
  · rw [← h.owed]
    dsimp only [File.fseek]
    congr 2
    omega
  · dsimp only at hzero
    omega

/-- A seek over some of the zeros and a write: what is missing to the position was skipped. -/
theorem fseek_fwrite {chunk : List UInt8} (hn : n ≤ o.storedSkips) (hchunk : chunk ≠ []) :
    (o.file.fseek n).fwrite chunk =
      { o.file with
        data := bytes.take (o.file.pos + n) ++ chunk
        pos := o.file.pos + n + chunk.length
        eof := false } := by
  have hpos : ((o.file.pos : Int) + n).toNat = o.file.pos + n := by omega
  have hpast : (o.file.fseek n).data.length ≤ (o.file.fseek n).pos := by
    have := h.past
    simp only [File.fseek]
    omega
  have htake : bytes.take (o.file.pos + n) =
      o.file.data ++ List.replicate (o.file.pos + n - o.file.data.length) 0 := by
    have := h.past
    rw [← h.owed, List.take_append, List.take_replicate,
      List.take_of_length_le (Nat.le_add_right_of_le this)]
    congr 2
    omega
  rw [File.fwrite_past hpast hchunk, htake]
  simp only [File.fseek, hpos]

theorem length_eq : bytes.length = o.file.pos + o.storedSkips := by
  have := h.past
  rw [← h.owed, List.length_append, List.length_replicate]
  omega

/-- A seek over all of the zeros and a write. -/
theorem write {chunk : List UInt8} (hchunk : chunk ≠ []) :
    Output.Owes { o with
      file := (o.file.fseek o.storedSkips).fwrite chunk
      storedSkips := o.storedSkips - o.storedSkips } (bytes ++ chunk) := by
  have hlength : (bytes ++ chunk).length = o.file.pos + o.storedSkips + chunk.length := by
    rw [List.length_append, h.length_eq]
  rw [h.fseek_fwrite (Nat.le_refl _) hchunk, ← h.length_eq, List.take_length, h.length_eq]
  refine ⟨Nat.le_of_eq hlength, ?_, fun _ => hlength.symm, h.exact⟩
  rw [hlength, Nat.sub_self, Nat.add_zero, Nat.sub_self, List.replicate_zero, List.append_nil]

/-- The last zero alone, behind a seek over the others. -/
theorem lastZero (hpos : 0 < o.storedSkips) :
    ((o.file.fseek (o.storedSkips - 1 : Nat)).fwrite [0]).data = bytes := by
  have hpast := h.past
  rw [h.fseek_fwrite (Nat.sub_le _ _) (List.cons_ne_nil _ _)]
  conv_rhs => rw [← List.take_append_drop (o.file.pos + (o.storedSkips - 1)) bytes]
  congr 1
  rw [← h.owed, List.drop_append, List.drop_of_length_le (Nat.le_add_right_of_le hpast),
    List.drop_replicate, List.nil_append]
  have hone : o.file.pos + o.storedSkips - o.file.data.length -
      (o.file.pos + (o.storedSkips - 1) - o.file.data.length) = 1 := by omega
  rw [hone, List.replicate_one]

end

end Output.Owes

/-! ## One buffer -/

namespace Output

theorem writeUnits_ends (h : o.Owes bytes) (hlength : count * size ≤ ptr.length)
    (hfits : o.storedSkips + count * size < 2 ^ 32) (hsize : 0 < size) :
    ch.Ends
      (fun o' => o'.Owes (bytes ++ ptr.take (count * size)) ∧
        o'.storedSkips ≤ o.storedSkips + count * size)
      (o.writeUnits ch size count ptr code code') := by
  have hle := zeroUnits_le size count ptr
  have hzeros := take_zeroUnits hlength
  rw [writeUnits]
  generalize zeroUnits size count ptr = nb0 at *
  have hsplit : ptr.take (count * size) = List.replicate (nb0 * size) 0 ++
      (ptr.drop (nb0 * size)).take ((count - nb0) * size) := by
    rw [← hzeros, ← List.take_add, ← Nat.add_mul, Nat.add_sub_cancel' hle]
  have hmul := Nat.mul_le_mul_right size hle
  obtain ⟨howes, hskips⟩ := h.addSkips (n := nb0 * size) (by omega)
  split
  case isFalse hall =>
    obtain rfl : nb0 = count := not_not.1 hall
    exact ⟨hzeros ▸ howes, Nat.le_of_eq hskips⟩
  case isTrue hsome =>
    have hunits : 0 < (count - nb0) * size :=
      Nat.mul_pos (Nat.sub_pos_of_lt (Nat.lt_of_le_of_ne hle hsome)) hsize
    have hchunk : (ptr.drop (nb0 * size)).take ((count - nb0) * size) ≠ [] := by
      rw [← List.length_pos_iff, List.length_take, List.length_drop]
      rw [Nat.sub_mul] at *
      omega
    refine Channel.Ends.bind (P := fun o' => o' = _) (skip_ends rfl) ?_
    rintro o' rfl
    refine fwrite_ends ⟨?_, by simp⟩
    rw [hsplit, ← List.append_assoc]
    exact howes.write hchunk

theorem segmentLoop_ends (hsize : ch.sizeT = 4 ∨ ch.sizeT = 8) {fuel bufferSizeT : Nat}
    (hfuel : bufferSizeT ≤ fuel) (h : o.Owes bytes) (hlength : bufferSizeT * ch.sizeT ≤ ptr.length)
    (hfits : o.storedSkips + bufferSizeT * ch.sizeT < 2 ^ 32) :
    ch.Ends
      (fun o' => o'.Owes (bytes ++ ptr.take (bufferSizeT * ch.sizeT)) ∧
        o'.storedSkips ≤ o.storedSkips + bufferSizeT * ch.sizeT)
      (o.segmentLoop ch fuel bufferSizeT ptr) := by
  induction fuel generalizing bufferSizeT o bytes ptr with
  | zero =>
    obtain rfl := Nat.le_zero.1 hfuel
    simpa [segmentLoop, Channel.Ends] using h
  | succ fuel ih =>
    rw [segmentLoop]
    split
    case isTrue hnone =>
      subst hnone
      simpa [Channel.Ends] using h
    case isFalse hmore =>
      have hseg : 0 < min (32768 / ch.sizeT) bufferSizeT := by
        obtain heq | heq := hsize <;> rw [heq] <;> omega
      have hle := Nat.min_le_right (32768 / ch.sizeT) bufferSizeT
      generalize min (32768 / ch.sizeT) bufferSizeT = seg at *
      have hwords : seg * ch.sizeT + (bufferSizeT - seg) * ch.sizeT = bufferSizeT * ch.sizeT := by
        rw [← Nat.add_mul, Nat.add_sub_cancel' hle]
      refine (writeUnits_ends h (by omega) (by omega) (by omega)).bind fun o' ho' => ?_
      refine (ih (by omega) ho'.1 (by rw [List.length_drop]; omega) (by omega)).imp
        fun o'' ho'' => ⟨?_, by omega⟩
      rw [← hwords, List.take_add, ← List.append_assoc]
      exact ho''.1

theorem skipGigabyte_ends (h : o.Owes bytes) (hskips : o.storedSkips ≤ 2 ^ 30 + 2 ^ 23) :
    ch.Ends (fun o' => o'.Owes bytes ∧ o'.storedSkips ≤ 2 ^ 30) (o.skipGigabyte ch) := by
  rw [skipGigabyte]
  split
  case isTrue hmany => exact skip_ends ⟨h.fseek hmany, by dsimp only; omega⟩
  case isFalse hfew => exact ⟨h, by omega⟩

theorem fwriteSparse_ends (hsize : ch.sizeT = 4 ∨ ch.sizeT = 8) (hmode : ch.sparseMode = true)
    {buffer : List UInt8} (hbuffer : buffer.length ≤ 2 ^ 23) (h : o.Owes bytes)
    (hskips : o.storedSkips ≤ 2 ^ 30 + 2 ^ 23) :
    ch.Ends (fun o' => o'.Owes (bytes ++ buffer) ∧ o'.storedSkips ≤ 2 ^ 30 + 2 ^ 23)
      (o.fwriteSparse ch buffer) := by
  have hrest : buffer.length &&& (ch.sizeT - 1) = buffer.length % ch.sizeT := by
    obtain heq | heq := hsize <;> rw [heq]
    · exact Nat.and_two_pow_sub_one_eq_mod buffer.length 2
    · exact Nat.and_two_pow_sub_one_eq_mod buffer.length 3
  have hdiv := Nat.div_add_mod' buffer.length ch.sizeT
  rw [fwriteSparse, if_neg (by simp [hmode]), hrest]
  refine (skipGigabyte_ends h hskips).bind fun o₁ ho₁ => ?_
  refine (segmentLoop_ends hsize (Nat.le_refl _) ho₁.1 (by omega) (by omega)).bind fun o₂ ho₂ => ?_
  split
  case isTrue hsome =>
    refine (writeUnits_ends ho₂.1 (by rw [List.length_drop]; omega) (by omega) Nat.one_pos).imp
      fun o₃ ho₃ => ⟨?_, by omega⟩
    have howes := ho₃.1
    rwa [List.append_assoc, ← List.take_add, Nat.mul_one, hdiv, List.take_length] at howes
  case isFalse hnone =>
    have howes := ho₂.1
    rw [List.take_of_length_le (by omega)] at howes
    exact ⟨howes, by omega⟩

/-! ## A sequence of buffers -/

theorem fwriteSparseEnd_ends (h : o.Owes bytes) :
    ch.Ends (fun o' => o'.file.data = bytes ∧ o'.overflow = false) (o.fwriteSparseEnd ch) := by
  rw [fwriteSparseEnd]
  split
  case isTrue hsome =>
    refine Channel.Ends.bind (P := fun o' => o' = _) (skip_ends rfl) ?_
    rintro o' rfl
    exact fwrite_ends ⟨h.lastZero hsome, h.exact⟩
  case isFalse hnone =>
    obtain hzero := Nat.eq_zero_of_not_pos hnone
    have howed := h.owed
    rw [hzero, h.settled hzero, Nat.add_zero, Nat.sub_self, List.replicate_zero,
      List.append_nil] at howed
    exact ⟨howed, h.exact⟩

theorem owes_fresh : fresh.Owes [] := ⟨Nat.le_refl 0, rfl, fun _ => rfl, rfl⟩

/-- Buffers of at most 8 MB each come out as they are, and the counter of the bytes that were
skipped never overflows. -/
theorem writeBuffers_content (hsize : ch.sizeT = 4 ∨ ch.sizeT = 8) (hmode : ch.sparseMode = true)
    {buffers : List (List UInt8)} (hbuffers : ∀ buffer ∈ buffers, buffer.length ≤ 2 ^ 23) :
    ch.Ends (fun o => o.file.data = buffers.flatten ∧ o.overflow = false)
      (fresh.writeBuffers ch buffers) := by
  -- the induction is over the buffers to come, for any bytes that were received before
  have hrun : ∀ {o : Output} {bytes : List UInt8}, o.Owes bytes →
      o.storedSkips ≤ 2 ^ 30 + 2 ^ 23 →
      ch.Ends (fun o => o.file.data = bytes ++ buffers.flatten ∧ o.overflow = false)
        (o.writeBuffers ch buffers) := by
    intro o bytes h hskips
    induction buffers generalizing o bytes with
    | nil =>
      rw [writeBuffers, List.flatten_nil, List.append_nil]
      exact fwriteSparseEnd_ends h
    | cons buffer buffers ih =>
      obtain ⟨hbuffer, hrest⟩ := List.forall_mem_cons.1 hbuffers
      rw [List.flatten_cons, ← List.append_assoc]
      exact (fwriteSparse_ends hsize hmode hbuffer h hskips).bind fun o' ho' =>
        ih hrest ho'.1 ho'.2
  simpa using hrun owes_fresh (Nat.zero_le _)

end Output

/-- A file on a disk with room, on a machine of 64 bits. -/
def Channel.disk : Channel := ⟨fun _ _ => true, fun _ _ => true, 8, 1, false⟩

/-- Zeros that run from one buffer into the next, and at the end. -/
theorem writeBuffers_content_disk : Channel.disk.Reliable ∧ Channel.disk.Ends
    (fun o => o.file.data = [0, 0, 0, 0, 0, 0, 0, 0, 0, 0, 7, 0] ∧ o.overflow = false)
    (Output.fresh.writeBuffers .disk [[0, 0, 0, 0, 0, 0, 0, 0, 0], [], [0, 7], [0]]) :=
  ⟨⟨fun _ _ => rfl, fun _ _ => rfl⟩,
    @Output.writeBuffers_content .disk (.inr rfl) rfl
      [[0, 0, 0, 0, 0, 0, 0, 0, 0], [], [0, 7], [0]] (by decide)⟩

end Lz4.Programs
