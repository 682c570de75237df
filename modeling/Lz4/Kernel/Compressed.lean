import Lz4.Kernel.Compress

/-!
# What the kernel's encoder writes

With room for the worst case, `lz4_compress_core_accelerated` returns the size of a block that
respects the format and stands for its input.  Nothing is needed of the hash table, not even that
its entries come from this block: a candidate counts only if it is an earlier position, near
enough, with the same four bytes (`tryIndex_genuine`).  So no invariant below mentions the table.

Most of the work is that of the library's compressor, whose description of the text and of the
output so far is used again (`Job.env`).  New are the comparison of whole words, the output
without a test in front of a match, and the step of the search.  The step grows with the number
of rounds, so the distance covered is quadratic in it, and the counter stays far below 32 bits
for every acceleration up to `2 ^ 24` (`Pace`).
-/

namespace Lz4.Kernel

open FlatMemory Machine
open Encoder (Table wrap32 wrap32_eq catchUpLoop catchUpLoop_spec countWords countWords_spec
  countTail_spec writeLength writeLength_snd writeLength_frame writeLength_holds
  writeLength_logged writeRun writeRun_snd writeRun_frame writeRun_logged Agrees Counted Within
  within_write within_read within_downward frame_of_within OpenToken openToken_nil
  openToken_of_copied Parsed Shows Genuine Located Fits Found)

/-! ## Counting -/

section Count

variable {m : Mem} {p q limit : Int} {n : Nat}

theorem agrees_unique {n' : Nat} (h : Agrees m p q limit n) (h' : Agrees m p q limit n') :
    n = n' := by
  have hle := h.le
  have hle' := h'.le
  refine Nat.le_antisymm ?_ ?_
  · rcases Nat.eq_zero_or_pos n with rfl | hpos
    · exact Nat.zero_le _
    · exact h'.ge h.eq (by omega)
  · rcases Nat.eq_zero_or_pos n' with rfl | hpos
    · exact Nat.zero_le _
    · exact h.ge h'.eq (by omega)

/-- A word that differs contains the first byte that differs. -/
theorem counted_of_diff (h : Counted m p q limit n) (hfits : p + n + 8 ≤ limit)
    (hdiff : ¬ readLE m (q + n) 8 ^^^ readLE m (p + n) 8 = 0) :
    Counted m p q limit (n + lowZeroBytes 8 (readLE m (q + n) 8 ^^^ readLE m (p + n) 8)) ∧
      p + (n + lowZeroBytes 8 (readLE m (q + n) 8 ^^^ readLE m (p + n) 8) : Nat) < limit ∧
      m (p + (n + lowZeroBytes 8 (readLE m (q + n) 8 ^^^ readLE m (p + n) 8) : Nat)) ≠
        m (q + (n + lowZeroBytes 8 (readLE m (q + n) 8 ^^^ readLE m (p + n) 8) : Nat)) := by
  obtain ⟨hle, heq, hne⟩ := lowZeroBytes_xor m m (q + n) (p + n) 8
  set k := lowZeroBytes 8 (readLE m (q + n) 8 ^^^ readLE m (p + n) 8)
  have hlt : k < 8 := by
    by_contra hk
    refine hdiff (Nat.xor_eq_zero_iff.mpr (readLE_eq_iff.mpr fun i hi => ?_))
    exact heq i (by omega)
  have hdiffer := hne hlt
  refine ⟨h.add (by omega) fun i hi => (heq i hi).symm, by push_cast; omega, fun hsame => ?_⟩
  refine hdiffer ?_
  rw [Int.add_assoc, Int.add_assoc]
  exact hsame.symm

theorem counted_of_word (h : Counted m p q limit n) (hfits : p + n + 8 ≤ limit)
    (hdiff : readLE m (q + n) 8 ^^^ readLE m (p + n) 8 = 0) : Counted m p q limit (n + 8) := by
  have hword := readLE_eq_iff.mp (Nat.xor_eq_zero_iff.mp hdiff)
  exact h.add (k := 8) (by omega) fun i hi => (hword i hi).symm

theorem countPairs_spec (fuel : Nat) (h : Counted m p q limit n) :
    ∃ n' differs, countPairs m limit fuel (p + n) (q + n) n = (n', differs) ∧
      Counted m p q limit n' ∧ (differs = true → p + n' < limit ∧ m (p + n') ≠ m (q + n')) := by
  induction fuel generalizing n with
  | zero => exact ⟨n, false, rfl, h, by simp⟩
  | succ fuel ih =>
    rw [countPairs]
    split
    · dsimp only
      split
      · rename_i hfirst
        have hword := counted_of_word h (by omega) hfirst
        have hp : p + (n : Int) + 8 = p + ((n + 8 : Nat) : Int) := by omega
        have hq : q + (n : Int) + 8 = q + ((n + 8 : Nat) : Int) := by omega
        rw [hp, hq]
        split
        · rename_i hsecond
          have hpair := counted_of_word hword (by omega) hsecond
          obtain ⟨n', differs, hcount, hrest⟩ := ih hpair
          refine ⟨n', differs, ?_, hrest⟩
          have hp' : p + (n : Int) + 16 = p + ((n + 8 + 8 : Nat) : Int) := by omega
          have hq' : q + (n : Int) + 16 = q + ((n + 8 + 8 : Nat) : Int) := by omega
          rw [← hcount, hp', hq']
        · rename_i hsecond
          obtain ⟨hcounted, hdiffer⟩ := counted_of_diff hword (by omega) hsecond
          exact ⟨_, true, rfl, hcounted, fun _ => hdiffer⟩
      · rename_i hfirst
        obtain ⟨hcounted, hdiffer⟩ := counted_of_diff h (by omega) hfirst
        exact ⟨_, true, rfl, hcounted, fun _ => hdiffer⟩
    · exact ⟨n, false, rfl, h, by simp⟩

/-- `LZ4_count` counts exactly, as the one of the library does. -/
theorem count_spec (m : Mem) (p q limit : Int) : Agrees m p q limit (count m p q limit) := by
  have h0 : Counted m p q limit 0 := ⟨by omega, fun i hi => by omega⟩
  obtain ⟨n₁, differs₁, hpairs, hn₁, hdiffer₁⟩ := countPairs_spec (limit - p).toNat h0
  obtain ⟨n₂, differs₂, hwords, hn₂, hdiffer₂, -⟩ := countWords_spec
    (limit - p).toNat (show 0 < 8 by omega) hn₁ (by omega)
  obtain ⟨n₃, differs₃, hhalves, hn₃, hdiffer₃, hrest⟩ := countWords_spec
    (limit - p).toNat (show 0 < 4 by omega) hn₂ (by omega)
  rw [Int.natCast_zero, Int.add_zero, Int.add_zero] at hpairs
  rw [count, hpairs]
  dsimp only
  split
  · rename_i hd
    exact ⟨hn₁.le, hn₁.eq, fun _ => (hdiffer₁ hd).2⟩
  · rw [hwords]
    split
    · rename_i hd
      exact ⟨hn₂.le, hn₂.eq, fun _ => (hdiffer₂ hd).2⟩
    · rw [hhalves]
      split
      · rename_i hd
        exact ⟨hn₃.le, hn₃.eq, fun _ => (hdiffer₃ hd).2⟩
      · rename_i hd
        have hshort := hrest (by simpa using hd)
        exact countTail_spec hn₃ fun hlong => by omega

end Count

/-! ## The text -/

/-- The call as one of the library's compressor, with which it shares the description of the text
and of the output.  The destination has no limit there: with enough room the tests of the kernel
never fail. -/
def Job.env (j : Job) : Encoder.Env where
  ptr32 := false
  outputDirective := .notLimited
  tableType := .byU32
  dictDirective := .noDict
  dictSmall := false
  acceleration := j.acceleration
  source := j.src
  inputSize := j.srcSize.toNat
  dest := j.dst
  maxOutputSize := j.dstCapacity
  startIndex := 0
  dictionary := 0
  dictSize := 0
  dictTable := fun _ => 0
  dictOffset := 0

/-- A call with room for the worst case, and buffers that are apart. -/
structure Job.Roomy (j : Job) : Prop where
  size_pos : 1 ≤ j.srcSize
  size_lt : j.srcSize < 2 ^ 31
  accel_pos : 1 ≤ j.acceleration
  accel_le : j.acceleration ≤ 2 ^ 24
  room : j.srcSize + j.srcSize / 255 + 16 ≤ j.dstCapacity
  capacity_lt : j.dstCapacity < 2 ^ 31
  apart : j.iend ≤ j.dst ∨ j.oend ≤ j.src

variable {budget : Nat} {literals : List UInt8} {searchMatchNb forwardIp step : Int} {w : Work}

section

variable {j : Job} {text : List UInt8} {m m' m₀ : Mem} {h : Heap} {table : Table}
  {anchor ip op token mtch : Int}

theorem Job.Roomy.env_iend (roomy : j.Roomy) : j.env.iend = j.iend := by
  have := roomy.size_pos
  have hiend : j.env.iend = j.src + j.srcSize.toNat := rfl
  have hjob : j.iend = j.src + j.srcSize := rfl
  omega

theorem Job.Roomy.env_mflimitPlusOne (roomy : j.Roomy) :
    j.env.mflimitPlusOne = j.mflimitPlusOne := by
  rw [Encoder.Env.mflimitPlusOne, roomy.env_iend, Job.mflimitPlusOne]

theorem Job.Roomy.env_matchlimit (roomy : j.Roomy) : j.env.matchlimit = j.matchlimit := by
  rw [Encoder.Env.matchlimit, roomy.env_iend, Job.matchlimit]

theorem Job.Roomy.env_capacity (roomy : j.Roomy) : j.env.Capacity j.dstCapacity := by
  have := roomy.size_pos
  have hroom := roomy.room
  show (j.srcSize.toNat : Int) + j.srcSize.toNat / 255 + 16 ≤ j.dstCapacity
  omega

theorem Job.Roomy.env_apart (roomy : j.Roomy) : j.env.Apart j.dstCapacity where
  input := by
    rw [roomy.env_iend]
    exact roomy.apart
  behind v hlow hhigh := by
    have hreach : j.env.reach = 0 := rfl
    omega

theorem Job.shows (j : Job) (m : Mem) : Shows j.env (m.bytes j.src j.srcSize.toNat) 0 m where
  length_eq := by
    rw [Mem.length_bytes, Nat.zero_add]
    rfl
  reach_le := Nat.le_refl 0
  byte v hlow hhigh := by
    have hreach : j.env.reach = 0 := rfl
    have hsource : j.env.source = j.src := rfl
    have hiend : j.env.iend = j.src + j.srcSize.toNat := rfl
    rw [Encoder.Env.address_of_ge (by omega)]
    have hpos : j.env.pos 0 v = (v - j.src).toNat := by
      unfold Encoder.Env.pos
      omega
    rw [hpos, Mem.getD_bytes _ _ (by omega)]
    congr 1
    omega

/-! ## Candidates -/

/-- Whatever the table has, a candidate that passes the tests is a match. -/
theorem tryIndex_genuine (roomy : j.Roomy) (hshows : Shows j.env text 0 m) (hlow : j.src ≤ ip)
    (hip : ip < j.mflimitPlusOne) {matchIndex : Option Nat}
    (htry : tryIndex j m (j.index ip) (readLE m ip 4) matchIndex = some mtch) :
    ∃ dist, Genuine j.env text 0 ⟨ip, mtch, j.src, 0⟩ dist 4 := by
  have hsize := roomy.size_lt
  have hmflimit : j.mflimitPlusOne = j.src + j.srcSize - 12 + 1 := rfl
  have hsource : j.env.source = j.src := rfl
  have hiend := roomy.env_iend
  have hjob : j.iend = j.src + j.srcSize := rfl
  have hindex : (j.index ip : Int) = ip - j.src := by
    unfold Job.index
    omega
  cases matchIndex with
  | none => exact absurd htry (by simp [tryIndex])
  | some matchIndex =>
    rw [tryIndex] at htry
    split at htry
    · rename_i hpassed
      obtain ⟨hless, hnear, hword⟩ := hpassed
      obtain rfl := Option.some.inj htry
      have hptr : j.src + (matchIndex : Int) = ip - (j.index ip - matchIndex : Nat) := by omega
      have located : Located j.env ip (j.src + matchIndex) j.src (j.index ip - matchIndex) 4 :=
        .inside (fun hext => absurd hext.1 (by simp [Job.env, Encoder.Env.maybeExtMem]))
          (by simp [Job.env, Encoder.Env.maybeExtMem, Encoder.Env.depth]) hptr (by omega)
          (by omega)
      refine ⟨j.index ip - matchIndex, located, ?_, by omega, ?_, hlow, Nat.le_refl 4, ?_⟩
      · refine located.repeats hshows (by omega) hlow (by omega) fun i hi => ?_
        exact (readLE_eq_iff.mp hword i hi).symm
      · have hwritten : Found.written j.env ⟨ip, j.src + matchIndex, j.src, 0⟩ =
            ((ip - (j.src + matchIndex)) % 2 ^ 16).toNat := rfl
        omega
      · have hmatchlimit : j.env.matchlimit = j.env.iend - 5 := rfl
        dsimp only
        omega
    · exact absurd htry (by simp)

/-! ## The search -/

/-- After `rounds` rounds the step is at least a 64th of their number, so the position is
quadratic in it. -/
structure Pace (j : Job) (forwardIp step searchMatchNb rounds : Int) : Prop where
  rounds_ge : 0 ≤ rounds
  count_eq : searchMatchNb = 64 * j.acceleration + rounds
  step_pos : 1 ≤ step
  step_ge : rounds ≤ 64 * step
  covered : rounds * rounds ≤ 128 * (forwardIp - j.src) + rounds

/-- What the arithmetic of the search needs. -/
structure Job.Paced (j : Job) : Prop where
  size_lt : j.srcSize < 2 ^ 31
  accel_pos : 1 ≤ j.acceleration
  accel_le : j.acceleration ≤ 2 ^ 24

theorem Job.Roomy.paced (roomy : j.Roomy) : j.Paced :=
  ⟨roomy.size_lt, roomy.accel_pos, roomy.accel_le⟩

theorem pace_start (paced : j.Paced) (hip : j.src ≤ ip) :
    Pace j ip 1 (wrap32 (j.acceleration * 2 ^ 6)) 0 := by
  have := paced.accel_pos
  have := paced.accel_le
  refine ⟨by omega, ?_, by omega, by omega, by omega⟩
  rw [wrap32_eq (by omega) (by omega)]
  omega

theorem Pace.next {rounds : Int} (paced : j.Paced)
    (pace : Pace j forwardIp step searchMatchNb rounds) (hnear : forwardIp ≤ j.iend) :
    Pace j (forwardIp + step) (searchMatchNb / 2 ^ 6) (wrap32 (searchMatchNb + 1)) (rounds +
      1) := by
  obtain ⟨hrounds, rfl, hstep, hge, hcovered⟩ := pace
  have haccel := paced.accel_pos
  have haccel' := paced.accel_le
  have hsize := paced.size_lt
  have hiend : j.iend = j.src + j.srcSize := rfl
  have hsmall : rounds < 2 ^ 20 := by
    by_contra hlarge
    have hsquare : 2 ^ 20 * rounds ≤ rounds * rounds :=
      Int.mul_le_mul_of_nonneg_right (by omega) hrounds
    omega
  have hexpand : (rounds + 1) * (rounds + 1) = rounds * rounds + 2 * rounds + 1 := by
    rw [Int.add_mul, Int.mul_add]
    omega
  refine ⟨by omega, ?_, by omega, by omega, ?_⟩
  · rw [wrap32_eq (by omega) (by omega)]
    omega
  · omega

/-! ## The end of a block -/

/-- The output up to `op` describes the text up to `anchor`, and is not much longer. -/
structure Written (j : Job) (text : List UInt8) (m : Mem) (anchor op : Int) : Prop where
  src_le : j.src ≤ anchor
  dst_le : j.dst ≤ op
  op_le : op ≤ j.dst + (anchor - j.src) + (anchor - j.src) / 255
  parsed : ∃ seqs, Parsed j.env text 0 m anchor op seqs

theorem Written.congr (written : Written j text m anchor op) (m' : Mem)
    (heq : ∀ a, j.dst ≤ a → a < op → m' a = m a) : Written j text m' anchor op := by
  obtain ⟨hsrc, hdst, hop, seqs, parsed⟩ := written
  refine ⟨hsrc, hdst, hop, seqs, parsed.factors, ?_, parsed.op_eq, parsed.last⟩
  refine parsed.holds.congr fun a hlow hhigh => (heq a hlow ?_).symm
  rw [parsed.op_eq]
  exact hhigh

theorem written_start (j : Job) (text : List UInt8) (m : Mem) : Written j text m j.src j.dst :=
  ⟨by omega, by omega, by omega, [], Encoder.parsed_nil j.env text 0 m⟩

/-- The result is the size of a block that respects the format and stands for the text, and only
the destination was written to. -/
structure Encodes (j : Job) (text : List UInt8) (m₀ : Mem) (o : Outcome) (block : Block) :
    Prop where
  logged : o.heap.Logged (Within j.dst j.oend) m₀
  holds : o.heap.mem.Holds j.dst block.encode
  result : o.result = block.encode.length
  result_pos : 1 ≤ o.result
  result_le : o.result ≤ j.dstCapacity
  conforming : block.Conforming []
  decode : block.decode [] = text

/-- There is room for the last literals, so they are written as by the library. -/
theorem lastLiterals_eq (roomy : j.Roomy) (written : Written j text h.mem anchor op)
    (hanchor : anchor ≤ j.iend) :
    lastLiterals j h table anchor op =
      ⟨wrap32 (Encoder.lastLiterals j.env h table anchor op).result,
        (Encoder.lastLiterals j.env h table anchor op).heap, table⟩ := by
  have hop := written.op_le
  have hroom := roomy.room
  have hiend : j.iend = j.src + j.srcSize := rfl
  have hoend : j.oend = j.dst + j.dstCapacity := rfl
  have hrun : Encoder.lastRunLength j.env anchor op = (j.iend - anchor).toNat := by
    rw [Encoder.lastRunLength_all (by simp [Job.env]), roomy.env_iend]
  have hunlimited : ¬ (j.env.outputDirective = .limitedOutput ∧
      Encoder.runTooLong j.env op (j.env.iend - anchor).toNat) := by
    simp [Job.env]
  rw [lastLiterals, Encoder.lastLiterals, if_neg hunlimited]
  rw [if_neg (by omega), hrun]
  rfl

theorem lastLiterals_encodes (roomy : j.Roomy) (hshows : Shows j.env text 0 m₀)
    (hlog : h.Logged (Within j.dst j.oend) m₀) (written : Written j text h.mem anchor op)
    (hanchor : anchor ≤ j.iend) :
    ∃ block, Encodes j text m₀ (lastLiterals j h table anchor op) block := by
  have hshows' := hshows.frame roomy.env_apart hlog
  rw [lastLiterals_eq roomy written hanchor]
  obtain ⟨hsrc, hdst, hop, seqs, parsed⟩ := written
  have hfits : Encoder.Fits j.env anchor op := Encoder.fits_of_bound rfl hop
  have hanchor' : anchor ≤ j.env.iend := by
    rw [roomy.env_iend]
    exact hanchor
  obtain ⟨hlogged, hresult⟩ : Encoder.Returns j.env j.dstCapacity m₀
      (Encoder.lastLiterals j.env h table anchor op) :=
    Encoder.lastLiterals_returns roomy.env_capacity hanchor' hdst hfits hlog
  have hpositive : 1 ≤ (Encoder.lastLiterals j.env h table anchor op).result ∧
      (Encoder.lastLiterals j.env h table anchor op).result ≤ j.dstCapacity := by
    rcases hresult with ⟨-, hlimited⟩ | hpositive
    · exact absurd hlimited (by simp [Job.env])
    · exact hpositive
  have hcapacity := roomy.capacity_lt
  have hwrap : wrap32 (Encoder.lastLiterals j.env h table anchor op).result =
      (Encoder.lastLiterals j.env h table anchor op).result := wrap32_eq (by omega) (by omega)
  have hcompressed : (Encoder.lastLiterals j.env h table anchor op).result = 0 ∨ ∃ block,
      Encoder.Compressed j.env text 0 (Encoder.lastLiterals j.env h table anchor op) block :=
    parsed.compressed hshows' roomy.env_apart hsrc hanchor' hdst
      (Encoder.lastRunLength_fits roomy.env_capacity hanchor' hfits)
  rcases hcompressed with hzero | ⟨block, compressed⟩
  · omega
  · refine ⟨block, hlogged, compressed.holds, ?_, ?_, ?_, compressed.conforming, ?_⟩
    · rw [hwrap]
      exact compressed.result
    · rw [hwrap]
      exact hpositive.1
    · rw [hwrap]
      exact hpositive.2
    · have hlength := hshows.length_eq
      have hall := compressed.all (by simp [Job.env])
      have hiend : j.env.iend = j.env.source + j.env.inputSize := rfl
      rw [← List.take_zero (l := text), compressed.decode, List.drop_zero]
      exact List.take_of_length_le (by omega)

/-! ## One sequence -/

theorem writeMatchLength_snd (h : Heap) (token op : Int) (matchCode : Nat) :
    (writeMatchLength h token op matchCode).2 = op + (lengthBytes matchCode).length := by
  rw [length_lengthBytes, writeMatchLength]
  split
  · rw [writeLength_snd]
    omega
  · omega

theorem writeMatchLength_frame (h : Heap) (matchCode : Nat) {a : Int} (htoken : a ≠ token)
    (ha : a < op) : (writeMatchLength h token op matchCode).1.mem a = h.mem a := by
  rw [writeMatchLength]
  split
  · rw [writeLength_frame _ _ _ _ (Or.inl ha), Heap.store_mem,
      Mem.store_outside (by rw [List.length_singleton]; omega)]
  · exact Mem.store_outside (by rw [List.length_singleton]; omega)

theorem writeMatchLength_holds (h : Heap) (matchCode : Nat) (hop : token < op) :
    (writeMatchLength h token op matchCode).1.mem token =
        h.mem token + UInt8.ofNat (lengthField matchCode) ∧
      (writeMatchLength h token op matchCode).1.mem.Holds op (lengthBytes matchCode) := by
  rw [writeMatchLength, lengthBytes, lengthField]
  split
  · rename_i hlong
    rw [Nat.min_eq_right hlong, if_neg (by omega)]
    refine ⟨?_, writeLength_holds _ _ _ _⟩
    rw [writeLength_frame _ _ _ _ (Or.inl hop)]
    exact Mem.store_singleton _ _ _
  · dsimp only
    rw [Nat.min_eq_left (by omega), if_pos (by omega)]
    exact ⟨Mem.store_singleton _ _ _, Mem.holds_nil _ _⟩

theorem writeMatchLength_logged {lo hi : Int} {matchCode : Nat} (hlow : lo ≤ token)
    (hop : token < op) (hhigh : op + (lengthBytes matchCode).length ≤ hi)
    (hlog : h.Logged (Within lo hi) m₀) :
    (writeMatchLength h token op matchCode).1.Logged (Within lo hi) m₀ := by
  rw [length_lengthBytes] at hhigh
  have htoken (b : UInt8) : (h.store token [b]).Logged (Within lo hi) m₀ := by
    refine Heap.logged_store (within_write hlow ?_) hlog
    rw [List.length_singleton]
    omega
  rw [writeMatchLength]
  split
  · exact writeLength_logged _ _ (by omega) (by omega) (htoken _)
  · exact htoken _

/-- The sequence that an open token, the offset and the length make up. -/
theorem writeMatch_holds (matchCode offset : Nat) (hopen : OpenToken h.mem token op literals) :
    (writeMatchLength (h.store op (le16 offset)) token (op + 2) matchCode).1.mem.Holds token
      (Sequence.encode ⟨literals, offset, matchCode + 4⟩) := by
  have hop := hopen.op_eq
  have hpair : (le16 offset).length = 2 := rfl
  obtain ⟨hfield, hbytes⟩ := writeMatchLength_holds (h.store op (le16 offset)) matchCode
    (show token < op + 2 by omega)
  refine hopen.holds_sequence ?_ (fun x hlow hhigh => ?_) ?_ hbytes
  · rw [hfield, Heap.store_mem, Mem.store_outside (by omega)]
  · rw [writeMatchLength_frame _ _ (by omega) (by omega), Heap.store_mem,
      Mem.store_outside (by omega)]
  · refine (Mem.holds_store h.mem op (le16 offset)).congr fun x hlow hhigh => ?_
    rw [writeMatchLength_frame _ _ (by omega) (by omega), Heap.store_mem]

/-! ## One pass -/

/-- What holds between two passes, of which at most `budget` remain.  A pass of the search moves
`forwardIp`, and a match moves the anchor. -/
def Amid (j : Job) (text : List UInt8) (m₀ : Mem) (budget : Nat) (w : Work) : Prop :=
  w.heap.Logged (Within j.dst j.oend) m₀ ∧
    match w.place with
    | .search anchor op forwardIp step searchMatchNb _ forwardIpValue =>
      Written j text w.heap.mem anchor op ∧ anchor < forwardIp ∧
        forwardIp ≤ j.mflimitPlusOne ∧ forwardIpValue = readLE w.heap.mem forwardIp 4 ∧
        (∃ rounds, Pace j forwardIp step searchMatchNb rounds) ∧
        (j.iend - anchor).toNat * (j.srcSize.toNat + 2) + (j.iend - forwardIp).toNat + 1 ≤ budget
    | .nextMatch op token ip mtch =>
      ∃ anchor, Written j text w.heap.mem anchor token ∧ anchor ≤ ip ∧
        ip < j.mflimitPlusOne ∧
        OpenToken w.heap.mem token op
          ((text.drop (j.env.pos 0 anchor)).take (ip - anchor).toNat) ∧
        (∃ dist len, Genuine j.env text 0 ⟨ip, mtch, j.src, 0⟩ dist len) ∧
        (j.iend - anchor).toNat * (j.srcSize.toNat + 2) ≤ budget

theorem openToken_congr (hopen : OpenToken m token op literals) (m' : Mem)
    (heq : ∀ a, token ≤ a → a < op → m' a = m a) : OpenToken m' token op literals := by
  obtain ⟨htoken, hholds, hop⟩ := hopen
  refine ⟨?_, ?_, hop⟩
  · rw [heq token (by omega) (by omega)]
    exact htoken
  · refine hholds.congr fun a hlow hhigh => (heq a (by omega) ?_).symm
    rw [List.length_append] at hhigh
    omega

/-- Nothing but the input, the output so far and the place in the loops matters: not the hash
table, the epoch, or the rest of memory. -/
theorem Amid.congr (roomy : j.Roomy) (amid : Amid j text m₀ budget w) (epoch : Nat) (table : Table)
    (hinput : ∀ a, j.src ≤ a → a < j.iend → m a = w.heap.mem a)
    (houtput : ∀ a, j.dst ≤ a → a < j.oend → m a = w.heap.mem a) :
    Amid { j with epoch } text m budget ⟨⟨m, []⟩, table, w.place⟩ := by
  obtain ⟨h, table', place⟩ := w
  have hroom := roomy.room
  have hiend : j.iend = j.src + j.srcSize := rfl
  have hoend : j.oend = j.dst + j.dstCapacity := rfl
  have hmflimit : j.mflimitPlusOne = j.iend - 12 + 1 := rfl
  obtain ⟨-, amid⟩ := amid
  refine ⟨⟨fun a ha => absurd ha (by simp), fun _ _ => rfl⟩, ?_⟩
  cases place with
  | search anchor op forwardIp step searchMatchNb forwardH forwardIpValue =>
    obtain ⟨written, hanchor, hforward, hvalue, ⟨rounds, pace⟩, hbudget⟩ := amid
    have hop := written.op_le
    obtain ⟨hsrc', hdst', hop', hparsed⟩ := written.congr m fun a hlow hhigh =>
      houtput a hlow (by omega)
    refine ⟨⟨hsrc', hdst', hop', hparsed⟩, hanchor, hforward, ?_,
      ⟨rounds, pace.rounds_ge, pace.count_eq, pace.step_pos, pace.step_ge, pace.covered⟩, hbudget⟩
    rw [hvalue]
    exact readLE_eq_iff.mpr fun i hi => (hinput _ (by omega) (by omega)).symm
  | nextMatch op token ip mtch =>
    obtain ⟨anchor, written, hanchor, hip, hopen, hgenuine, hbudget⟩ := amid
    have hop := written.op_le
    have hopened := hopen.op_eq
    have hlits := length_lengthBytes
      ((text.drop (j.env.pos 0 anchor)).take (ip - anchor).toNat).length
    have htake := List.length_take_le (ip - anchor).toNat (text.drop (j.env.pos 0 anchor))
    obtain ⟨hsrc', hdst', hop', hparsed⟩ := written.congr m fun a hlow hhigh =>
      houtput a hlow (by omega)
    have hopen' := openToken_congr hopen m fun a hlow hhigh =>
      houtput a (by omega) (by omega)
    exact ⟨anchor, ⟨hsrc', hdst', hop', hparsed⟩, hanchor, hip, hopen', hgenuine, hbudget⟩

/-- A match pays for all passes until the next one. -/
theorem budget_lt {a a' n r : Nat} (ha : a' < a) (hr : r < n) : a' * n + r < a * n := by
  calc a' * n + r < a' * n + n := by omega
    _ = (a' + 1) * n := (Nat.succ_mul a' n).symm
    _ ≤ a * n := Nat.mul_le_mul_right n ha

theorem enterSearch_amid (b : Build) (roomy : j.Roomy) (hlog : h.Logged (Within j.dst j.oend) m₀)
    (written : Written j text h.mem anchor op) (hanchor : anchor < j.mflimitPlusOne)
    (hbudget : (j.iend - anchor).toNat * (j.srcSize.toNat + 2) + (j.srcSize.toNat + 1) ≤ budget) :
    Amid j text m₀ budget ⟨h, table, enterSearch b j h.mem anchor (anchor + 1) op⟩ := by
  have hsrc := written.src_le
  have hiend : j.iend = j.src + j.srcSize := rfl
  refine ⟨hlog, written, by omega, by omega, rfl, ⟨0, pace_start roomy.paced (by omega)⟩, ?_⟩
  omega

theorem emitLiterals_amid (table : Table) {len : Nat} (roomy : j.Roomy)
    (hshows : Shows j.env text 0 m₀) (hlog : h.Logged (Within j.dst j.oend) m₀)
    (written : Written j text h.mem anchor op) (hanchor : anchor ≤ ip) (hip : ip < j.mflimitPlusOne)
    (hgenuine : ∃ dist, Genuine j.env text 0 ⟨ip, mtch, j.src, 0⟩ dist len)
    (hbudget : (j.iend - anchor).toNat * (j.srcSize.toNat + 2) ≤ budget) :
    ∃ w, emitLiterals j h table anchor op ip mtch = .next w ∧ Amid j text m₀ budget w := by
  have hsrc := written.src_le
  have hdst := written.dst_le
  have hop := written.op_le
  have hroom := roomy.room
  have hapart := roomy.apart
  have hiend : j.iend = j.src + j.srcSize := rfl
  have hoend : j.oend = j.dst + j.dstCapacity := rfl
  have hmflimit : j.mflimitPlusOne = j.iend - 12 + 1 := rfl
  have hshows' := hshows.frame roomy.env_apart hlog
  obtain ⟨dist, genuine⟩ := hgenuine
  obtain ⟨i, hcatch, hback, hlimit, heq⟩ := catchUpLoop_spec h.mem anchor j.src
    (ip - anchor).toNat ip mtch hanchor
  have genuine' := genuine.back hshows' rfl (j := i) (show j.src ≤ ip - i by omega)
    (hlimit (genuine.located.lowLimit_le rfl)) heq
  set n := (ip - i - anchor).toNat with hn
  have hcount := length_lengthBytes n
  have hsnd := writeRun_snd h op n
  have hcopied := literalsCopied_litWildCopy8 (writeRun h op (op + 1) n).1
    (writeRun h op (op + 1) n).2 anchor n (by omega)
  have hopen := openToken_of_copied hcopied (by omega)
  rw [hshows'.bytes_eq hsrc (by rw [roomy.env_iend]; omega)] at hopen
  have hlog₁ := writeRun_logged n hdst (show op + 1 + (lengthBytes n).length ≤ j.oend by omega) hlog
  have hlog₂ : (litWildCopy8 (writeRun h op (op + 1) n).1 (writeRun h op (op + 1) n).2 anchor
      ((writeRun h op (op + 1) n).2 + n)).Logged (Within j.dst j.oend) m₀ :=
    litWildCopy8_logged (within_downward j.dst j.oend) hlog₁ within_read
      (within_write (by omega) (by omega))
  have hframe (a : Int) (ha : a < op) :
      (litWildCopy8 (writeRun h op (op + 1) n).1 (writeRun h op (op + 1) n).2 anchor
        ((writeRun h op (op + 1) n).2 + n)).mem a = h.mem a := by
    rw [hcopied.frame a (by omega), writeRun_frame _ _ _ (by omega)]
  rw [emitLiterals, hcatch]
  dsimp only
  rw [← hn, if_neg (by omega)]
  refine ⟨_, rfl, hlog₂, anchor, written.congr _ fun a _ => hframe a, by omega, by omega, hopen,
    ⟨dist, len + i, genuine'⟩, hbudget⟩

theorem afterMatch_amid (b : Build) (roomy : j.Roomy) (hshows : Shows j.env text 0 m₀)
    (hlog : h.Logged (Within j.dst j.oend) m₀) (written : Written j text h.mem ip op)
    (hlimit : ip ≤ j.matchlimit)
    (hbudget : (j.iend - ip).toNat * (j.srcSize.toNat + 2) + (j.srcSize.toNat + 1) < budget) :
    (afterMatch b j h table ip op).Satisfies (fun w => ∃ budget' < budget,
      Amid j text m₀ budget' w) (fun o => ∃ block, Encodes j text m₀ o block) := by
  have hsrc := written.src_le
  have hdst := written.dst_le
  have hop := written.op_le
  have hroom := roomy.room
  have hiend : j.iend = j.src + j.srcSize := rfl
  have hoend : j.oend = j.dst + j.dstCapacity := rfl
  have hmatchlimit : j.matchlimit = j.iend - 5 := rfl
  unfold afterMatch
  split
  · exact lastLiterals_encodes roomy hshows hlog written (by omega)
  · dsimp only
    split
    · -- the next position matches at once
      rename_i mtch' hfound
      obtain ⟨dist, genuine⟩ := tryIndex_genuine roomy (hshows.frame roomy.env_apart hlog) hsrc
        (by omega) hfound
      have hstored : (h.store op [0]).Logged (Within j.dst j.oend) m₀ := by
        refine Heap.logged_store (within_write hdst ?_) hlog
        rw [List.length_singleton]
        omega
      have hkept := written.congr (h.store op [0]).mem
        fun a _ ha => Mem.store_outside (by omega)
      refine ⟨_, hbudget, hstored, ip, hkept, by omega, by omega, ?_, ⟨dist, 4, genuine⟩, by omega⟩
      rw [Int.sub_self]
      exact openToken_nil _ _
    · exact ⟨_, hbudget, enterSearch_amid b roomy hlog written (by omega) (Nat.le_refl _)⟩

/-- The kernel measures a match as the library does. -/
theorem count_eq_measureMatch (roomy : j.Roomy) (m : Mem) (ip mtch : Int) :
    count m (ip + 4) (mtch + 4) j.matchlimit =
      (Encoder.measureMatch j.env m ⟨ip, mtch, j.src, 0⟩).1 := by
  have hinside : ¬ (j.env.maybeExtMem = true ∧ j.src = j.env.dictionary) :=
    fun hext => absurd hext.1 (by simp [Job.env, Encoder.Env.maybeExtMem])
  rw [Encoder.measureMatch, if_neg hinside]
  rw [roomy.env_matchlimit]
  exact agrees_unique (count_spec m _ _ _)
    (Encoder.count_spec (Encoder.stepSize_cases j.env) m _ _ _)

theorem matchPass_amid (b : Build) (roomy : j.Roomy) (hshows : Shows j.env text 0 m₀)
    (amid : Amid j text m₀ budget ⟨h, table, .nextMatch op token ip mtch⟩) :
    (matchPass b j h table op token ip mtch).Satisfies (fun w => ∃ budget' < budget,
      Amid j text m₀ budget' w) (fun o => ∃ block, Encodes j text m₀ o block) := by
  obtain ⟨hlog, anchor, written, hanchor, hip, hopen, ⟨dist, len, genuine⟩, hbudget⟩ := amid
  obtain ⟨hsrc, hdst, hop, seqs, parsed⟩ := written
  have hroom := roomy.room
  have hiend : j.iend = j.src + j.srcSize := rfl
  have hoend : j.oend = j.dst + j.dstCapacity := rfl
  have hmflimit : j.mflimitPlusOne = j.iend - 12 + 1 := rfl
  have hmatchlimit : j.matchlimit = j.iend - 5 := rfl
  have hwritten : ((ip - mtch) % 2 ^ 16).toNat = dist := genuine.written
  have hlength : ((text.drop (j.env.pos 0 anchor)).take (ip - anchor).toNat).length =
      (ip - anchor).toNat := by
    refine Factors.length_literals ?_
    have hsource : j.env.source = j.src := rfl
    have hsize : text.length = 0 + j.srcSize.toNat := hshows.length_eq
    unfold Encoder.Env.pos
    omega
  have hopened := hopen.op_eq
  rw [hlength, length_lengthBytes] at hopened
  have hpair : (le16 dist).length = 2 := rfl
  have hlog₁ : (h.store op (le16 dist)).Logged (Within j.dst j.oend) m₀ :=
    Heap.logged_store (within_write (by omega) (by omega)) hlog
  have hshows₁ := hshows.frame roomy.env_apart hlog₁
  obtain ⟨hrepeats, -⟩ := genuine.measureMatch hshows₁
  have hend := (count_spec (h.store op (le16 dist)).mem (ip + 4) (mtch + 4) j.matchlimit).le
  rw [← count_eq_measureMatch roomy] at hrepeats
  rw [matchPass, hwritten]
  dsimp only
  set matchCode := count (h.store op (le16 dist)).mem (ip + 4) (mtch + 4) j.matchlimit
  have hsnd := writeMatchLength_snd (h.store op (le16 dist)) token (op + 2) matchCode
  have hcount := length_lengthBytes matchCode
  have hlog₂ : (writeMatchLength (h.store op (le16 dist)) token (op + 2) matchCode).1.Logged
      (Within j.dst j.oend) m₀ := writeMatchLength_logged hdst (by omega) (by omega) hlog₁
  have hframe (a : Int) (ha : a < token) :
      (writeMatchLength (h.store op (le16 dist)) token (op + 2) matchCode).1.mem a = h.mem a := by
    rw [writeMatchLength_frame _ _ (by omega) (by omega), Heap.store_mem,
      Mem.store_outside (by omega)]
  have hnext := parsed.sequence (writeMatch_holds matchCode dist hopen) hframe
    (hsnd.trans hopen.length_sequence.symm) hsrc hanchor
    (by rw [roomy.env_mflimitPlusOne]; exact hip) (by rw [roomy.env_matchlimit]; omega)
    genuine.dist_le hrepeats (fun hfill => absurd hfill (by simp [Job.env]))
  rw [show ip + ((matchCode : Int) + 4) = ip + 4 + matchCode by omega]
  refine afterMatch_amid b roomy hshows hlog₂ ⟨by omega, by omega, by omega, _, hnext⟩ (by omega) ?_
  refine Nat.lt_of_lt_of_le (budget_lt ?_ ?_) hbudget
  · omega
  · omega

theorem searchPass_amid (b : Build) {forwardH forwardIpValue : Nat} (roomy : j.Roomy)
    (hshows : Shows j.env text 0 m₀)
    (amid : Amid j text m₀ budget ⟨h, table,
      .search anchor op forwardIp step searchMatchNb forwardH forwardIpValue⟩) :
    (searchPass b j h table anchor op forwardIp step searchMatchNb forwardH
      forwardIpValue).Satisfies (fun w => ∃ budget' < budget, Amid j text m₀ budget' w) (fun o =>
      ∃ block, Encodes j text m₀ o block) := by
  obtain ⟨hlog, written, hanchor, hforward, hvalue, ⟨rounds, pace⟩, hbudget⟩ := amid
  have hsrc := written.src_le
  have hstep := pace.step_pos
  have hmflimit : j.mflimitPlusOne = j.iend - 12 + 1 := rfl
  unfold searchPass
  dsimp only
  split
  · exact lastLiterals_encodes roomy hshows hlog written (by omega)
  · split
    · rename_i mtch hfound
      rw [hvalue] at hfound
      have hgenuine := tryIndex_genuine roomy (hshows.frame roomy.env_apart hlog)
        (by omega) (by omega) hfound
      obtain ⟨w, hw, amid⟩ := emitLiterals_amid (b.putIndexOnHashMasked table j.epoch
        (j.index forwardIp) forwardH) roomy hshows hlog written (by omega) (by omega) hgenuine
        (Nat.le_refl _)
      rw [hw]
      exact ⟨_, by omega, amid⟩
    · exact ⟨_, by omega, hlog, written, by omega, by omega, rfl,
        ⟨rounds + 1, pace.next roomy.paced (by omega)⟩, Nat.le_refl _⟩

/-- Every pass keeps the invariant, with fewer passes left, or ends with a block. -/
theorem compressPass_amid (b : Build) (roomy : j.Roomy) (hshows : Shows j.env text 0 m₀)
    (amid : Amid j text m₀ budget w) :
    (compressPass b j w).Satisfies (fun w => ∃ budget' < budget, Amid j text m₀ budget' w) (fun o =>
      ∃ block, Encodes j text m₀ o block) := by
  obtain ⟨h, table, place⟩ := w
  cases place with
  | search anchor op forwardIp step searchMatchNb forwardH forwardIpValue =>
    exact searchPass_amid b roomy hshows amid
  | nextMatch op token ip mtch => exact matchPass_amid b roomy hshows amid

theorem compressStart_amid (h : Heap) (table : Table) (b : Build) {bound : Nat}
    (hbound : j.passes ≤ bound) (roomy : j.Roomy)
    (hshows : Shows j.env text 0 m₀) (hlog : h.Logged (Within j.dst j.oend) m₀) :
    (compressStart b j h table).Satisfies (fun w => ∃ budget < bound, Amid j text m₀ budget w)
      (fun o => ∃ block, Encodes j text m₀ o block) := by
  have hsize := roomy.size_pos
  have hiend : j.iend = j.src + j.srcSize := rfl
  have hmflimit : j.mflimitPlusOne = j.iend - 12 + 1 := rfl
  have written := written_start j text h.mem
  unfold compressStart
  split
  · exact lastLiterals_encodes roomy hshows hlog written (by omega)
  · refine ⟨_, Nat.lt_of_lt_of_le ?_ hbound,
      enterSearch_amid b roomy hlog written (by omega) (Nat.le_refl _)⟩
    exact budget_lt (by omega) (by omega)

end

/-! ## The function -/

variable {j : Job}

/-- With room for the worst case the kernel's encoder returns a block for its input, whatever the
hash table contains and however it was compiled. -/
theorem compressCoreAccelerated_encodes (b : Build) (roomy : j.Roomy) (m : Mem) (table : Table) :
    ∃ o block, compressCoreAccelerated b j ⟨m, []⟩ table = some o ∧
      Encodes j (m.bytes j.src j.srcSize.toNat) m o block := by
  have hshows := j.shows m
  have hstart := compressStart_amid ⟨m, []⟩ table b (Nat.le_refl _) roomy
    hshows ⟨fun a ha => absurd ha (by simp), fun _ _ => rfl⟩
  unfold compressCoreAccelerated
  split
  · rename_i o hdone
    rw [hdone] at hstart
    obtain ⟨block, encodes⟩ := hstart
    exact ⟨o, block, rfl, encodes⟩
  · rename_i w hnext
    rw [hnext] at hstart
    obtain ⟨budget, hbudget, amid⟩ := hstart
    have hends : ∃ o, iterate (fun w => some (compressPass b j w)) j.passes w = some o ∧
        ∃ block, Encodes j (m.bytes j.src j.srcSize.toNat) m o block :=
      iterate_budget (Amid j (m.bytes j.src j.srcSize.toNat) m)
        (fun budget w amid => ⟨_, rfl, compressPass_amid b roomy hshows amid⟩) amid hbudget
    obtain ⟨o, hrun, block, encodes⟩ := hends
    exact ⟨o, block, hrun, encodes⟩

/-- `lz4_compress_core_accelerated` returns the size of a block that respects the conditions at
its end and that stands for the input: for every content of the hash table, every epoch and
every build. -/
theorem compressCoreAccelerated_roundTrip (b : Build) (j : Job) (m : Mem) (table : Table)
    (hpos : 1 ≤ j.srcSize) (hsize : j.srcSize ≤ 2 ^ 31 - 1) (haccel : 1 ≤ j.acceleration)
    (haccel' : j.acceleration ≤ 2 ^ 24) (hroom : j.srcSize + j.srcSize / 255 + 16 ≤ j.dstCapacity)
    (hcapacity : j.dstCapacity ≤ 2 ^ 31 - 1) (hapart : j.iend ≤ j.dst ∨ j.oend ≤ j.src) :
    ∃ o, ∃ block : Block, compressCoreAccelerated b j ⟨m, []⟩ table = some o ∧ 0 < o.result ∧
      o.heap.mem.bytes j.dst o.result.toNat = block.encode ∧ block.Conforming [] ∧
      block.decode [] = m.bytes j.src j.srcSize.toNat := by
  have roomy : j.Roomy := ⟨hpos, by omega, haccel, haccel', hroom, by omega, hapart⟩
  obtain ⟨o, block, hcompress, encodes⟩ := compressCoreAccelerated_encodes b roomy m table
  refine ⟨o, block, hcompress, ?_, ?_, encodes.conforming, encodes.decode⟩
  · have := encodes.result_pos
    omega
  · rw [encodes.result]
    exact encodes.holds

/-- A block of 20 equal bytes, with a table full of entries from elsewhere. -/
theorem compressCoreAccelerated_roundTrip_stale :
    ∃ o, ∃ block : Block, compressCoreAccelerated .epochTagged ⟨0, 100, 20, 40, 1, 3⟩
        ⟨fun _ => 7, []⟩ (fun _ => 0x00312345) = some o ∧ 0 < o.result ∧
      o.heap.mem.bytes 100 o.result.toNat = block.encode ∧ block.Conforming [] ∧
      block.decode [] = Mem.bytes (fun _ => 7) 0 20 :=
  compressCoreAccelerated_roundTrip .epochTagged ⟨0, 100, 20, 40, 1, 3⟩ (fun _ => 7)
    (fun _ => 0x00312345) (by decide) (by decide) (by decide) (by decide) (by decide) (by decide)
    (by decide)

/-! ## Slots in a shared output buffer -/

/-- An empty block is a single token. -/
theorem compressCoreAccelerated_empty (b : Build) (hsize : j.srcSize = 0)
    (hroom : 1 ≤ j.dstCapacity) (m : Mem) (table : Table) :
    ∃ o, compressCoreAccelerated b j ⟨m, []⟩ table = some o ∧ o.heap.Logged (Within j.dst j.oend)
      m := by
  have hoend : j.oend = j.dst + j.dstCapacity := rfl
  have hrun : (j.iend - j.src).toNat = 0 := by
    unfold Job.iend
    omega
  have hstart : Heap.Logged (Within j.dst j.oend) m ⟨m, []⟩ :=
    ⟨fun a ha => absurd ha (by simp), fun _ _ => rfl⟩
  have htoken : ∀ bs : List UInt8, bs.length = 1 →
      (Heap.store ⟨m, []⟩ j.dst bs).Logged (Within j.dst j.oend) m := by
    intro bs hlength
    refine Heap.logged_store (fun _ => ?_) hstart
    exact ⟨Int.le_refl _, by dsimp only; omega⟩
  refine ⟨lastLiterals j ⟨m, []⟩ table j.src j.dst, ?_, ?_⟩
  · rw [compressCoreAccelerated, compressStart, if_pos (by omega)]
  · rw [lastLiterals, hrun]
    rw [if_neg (by omega), writeRun, if_neg (by omega)]
    refine Heap.logged_memcpy (fun _ => ?_) (fun hport => Port.noConfusion hport)
      (htoken _ rfl)
    dsimp only
    omega

/-- In a slot of `1.1 * blockSize + 64` bytes, which is what the host allots for each block of
`blockSize` bytes, every store of the encoder stays inside the slot: the literals that are copied
in groups of eight as well, and the lengths for which no test is made.  The slots beside it keep
their bytes. -/
theorem compressCoreAccelerated_within_slot (b : Build) (j : Job) (m : Mem) (table : Table)
    (blockSize : Int) (hsize : 0 ≤ j.srcSize) (hblock : j.srcSize ≤ blockSize)
    (haccel : 1 ≤ j.acceleration) (haccel' : j.acceleration ≤ 2 ^ 24)
    (hcapacity : j.dstCapacity = (11 * blockSize + 640) / 10) (hint : j.dstCapacity ≤ 2 ^ 31 - 1)
    (hapart : j.iend ≤ j.dst ∨ j.oend ≤ j.src) :
    ∃ o, compressCoreAccelerated b j ⟨m, []⟩ table = some o ∧
      (∀ a ∈ o.heap.log, a.port = .output →
        j.dst ≤ a.lo ∧ a.lo + a.len ≤ j.dst + j.dstCapacity) ∧
      ∀ x, x < j.dst ∨ j.dst + j.dstCapacity ≤ x → o.heap.mem x = m x := by
  have hlogged : ∃ o, compressCoreAccelerated b j ⟨m, []⟩ table = some o ∧
      o.heap.Logged (Within j.dst j.oend) m := by
    rcases Int.le_iff_eq_or_lt.mp hsize with hzero | hpos
    · exact compressCoreAccelerated_empty b hzero.symm (by omega) m table
    · have roomy : j.Roomy :=
        ⟨by omega, by omega, haccel, haccel', by omega, by omega, hapart⟩
      obtain ⟨o, block, hcompress, encodes⟩ := compressCoreAccelerated_encodes b roomy m table
      exact ⟨o, hcompress, encodes.logged⟩
  obtain ⟨o, hcompress, hwithin⟩ := hlogged
  exact ⟨o, hcompress, hwithin.1, fun x hx => frame_of_within hwithin hx⟩

/-- A block of 20 bytes in a slot for 20 bytes, next to the input. -/
theorem compressCoreAccelerated_within_slot_twenty :
    ∃ o, compressCoreAccelerated .epochTagged ⟨0, 20, 20, 86, 1, 3⟩ ⟨fun _ => 7, []⟩
        (fun _ => 0x00312345) = some o ∧
      (∀ a ∈ o.heap.log, a.port = .output → 20 ≤ a.lo ∧ a.lo + a.len ≤ 20 + 86) ∧
      ∀ x : Int, x < 20 ∨ 20 + 86 ≤ x → o.heap.mem x = 7 :=
  compressCoreAccelerated_within_slot .epochTagged ⟨0, 20, 20, 86, 1, 3⟩ (fun _ => 7)
    (fun _ => 0x00312345) 20 (by decide) (by decide) (by decide) (by decide) (by decide)
    (by decide) (by decide)

end Lz4.Kernel
