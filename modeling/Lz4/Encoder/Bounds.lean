import Lz4.Encoder.Count
import Lz4.Encoder.Emit
import Lz4.Encoder.Search

/-!
# Where the compressor writes

A call returns, and everything it writes lies in the destination buffer, including what
the copies write beyond their end.  Two different arguments are behind this.

* With a limit, every step checks its room.  Six bytes remain behind each match, five of
  them for what the next checks come too late for.
* Without a limit nothing is checked.  A sequence may be longer than what it stands for,
  but only by one byte for 255 literals, so after `n` bytes of input the output has at most
  `n + n / 255` bytes (`Fits`).

Neither depends on the bytes that are compressed, so the buffers may even overlap.
-/

namespace Lz4.Encoder

open FlatMemory Machine

theorem stepSize_cases (e : Env) : e.stepSize = 4 ∨ e.stepSize = 8 := by
  unfold Env.stepSize
  split
  · exact Or.inl rfl
  · exact Or.inr rfl

/-! ## One match -/

theorem measureMatch_snd (e : Env) (m : Mem) (found : Found) :
    (measureMatch e m found).2 = found.ip + 4 + (measureMatch e m found).1 := by
  unfold measureMatch
  split
  · dsimp only
    split
    · omega
    · omega
  · dsimp only
    omega

variable {found : Found}

/-- No match ends behind `matchlimit`. -/
theorem measureMatch_le (e : Env) (m : Mem) (hip : found.ip + 4 ≤ e.matchlimit) :
    (measureMatch e m found).2 ≤ e.matchlimit := by
  unfold measureMatch
  split
  · dsimp only
    have hfirst := (count_spec (stepSize_cases e) m (found.ip + 4) (found.matchPtr + 4)
      (min (found.ip + (e.dictEnd - found.matchPtr)) e.matchlimit)).le
    split
    · have hmore := (count_spec (stepSize_cases e) m
        (min (found.ip + (e.dictEnd - found.matchPtr)) e.matchlimit) e.source e.matchlimit).le
      omega
    · omega
  · have hcount := (count_spec (stepSize_cases e) m (found.ip + 4) (found.matchPtr + 4)
      e.matchlimit).le
    dsimp only
    omega

/-- The offset that is written for a match. -/
def Found.written (e : Env) (found : Found) : Nat :=
  if e.maybeExtMem then found.offset % 2 ^ 16
  else ((found.ip - found.matchPtr) % 2 ^ 16).toNat

/-- The match is written with the length `matchCode`: all of it, or what the budget
leaves. -/
structure Coded (e : Env) (h : Heap) (table : Table) (op : Int) (found : Found)
    (matchCode : Nat) (table' : Table) : Prop where
  le_full : matchCode ≤ (measureMatch e (h.store op (le16 (found.written e))).mem found).1
  room : e.outputDirective ≠ .notLimited →
    op + 8 + ((matchCode + 240) / 255 : Nat) ≤ e.olimit
  filled : e.outputDirective = .fillOutput → op + 11 ≤ e.olimit
  full_or_cut :
    matchCode = (measureMatch e (h.store op (le16 (found.written e))).mem found).1 ∧
        table' = table ∨
      e.outputDirective = .fillOutput ∧ 15 ≤ matchCode ∧
        op + 8 + ((matchCode + 240) / 255 : Nat) = e.olimit

/-- The ways `_next_match` can go. -/
theorem nextMatch_cases {e : Env} (h : Heap) (table : Table) (anchor op token filledIp : Int)
    (hsize : e.inputSize < 2 ^ 31) (hsource : e.source ≤ found.ip)
    (hip : found.ip + 4 ≤ e.matchlimit) :
    (e.outputDirective = .fillOutput ∧ nextMatch e h table anchor op token found filledIp =
      .done (lastLiterals e h table anchor token)) ∨
      (e.outputDirective = .limitedOutput ∧ ∃ ip,
      nextMatch e h table anchor op token found filledIp =
      .done ⟨0, ip, h.store op (le16 (found.written e)), table⟩) ∨ ∃ matchCode table',
      Coded e h table op found matchCode table' ∧
      nextMatch e h table anchor op token found filledIp =
      afterMatch e
      (encodeMatchLength (h.store op (le16 (found.written e))) token (op + 2) matchCode).1 table'
      (found.ip + 4 + matchCode)
      (encodeMatchLength (h.store op (le16 (found.written e))) token (op + 2) matchCode).2
      filledIp := by
  have hmatchlimit : e.matchlimit = e.source + e.inputSize - 5 := rfl
  unfold nextMatch
  split
  · rename_i hfill
    exact Or.inl ⟨hfill.1, rfl⟩
  rename_i hroom
  have hoffset : (if e.maybeExtMem = true then found.offset % 2 ^ 16
      else ((found.ip - found.matchPtr) % 2 ^ 16).toNat) = found.written e := rfl
  dsimp only
  rw [hoffset]
  set h₁ := h.store op (le16 (found.written e))
  have hsnd := measureMatch_snd e h₁.mem found
  have hle := measureMatch_le e h₁.mem hip
  set full := (measureMatch e h₁.mem found).1
  have hfilled : e.outputDirective = .fillOutput → op + 11 ≤ e.olimit := fun hfill => by
    have := not_and.mp hroom hfill
    omega
  split
  · rename_i hlong
    obtain ⟨hlimited, hlong⟩ := hlong
    split
    · -- reduced
      rename_i hfill
      have hop := hfilled hfill
      set newMatchCode := ((15 - 1 + (e.olimit - (op + 2) - 1 - 5) * 255) % 2 ^ 32).toNat
        with hnew
      have hvalue : (newMatchCode : Int) = 14 + (e.olimit - (op + 2) - 6) * 255 := by omega
      have hless : newMatchCode ≤ full := by omega
      have hip' : (measureMatch e h₁.mem found).2 - ((full - newMatchCode : Nat) : Int) =
          found.ip + 4 + newMatchCode := by
        omega
      rw [hip']
      right
      right
      refine ⟨newMatchCode, _, ?_, rfl⟩
      exact ⟨hless, fun _ => by omega, hfilled, Or.inr ⟨hfill, by omega, by omega⟩⟩
    · rename_i hnotfill
      right
      left
      refine ⟨?_, _, rfl⟩
      cases hdir : e.outputDirective with
      | notLimited => exact absurd hdir hlimited
      | limitedOutput => rfl
      | fillOutput => exact absurd hdir hnotfill
  · rename_i hfits
    right
    right
    refine ⟨full, table, ⟨Nat.le_refl _, fun hlimited => ?_, hfilled, Or.inl ⟨rfl, rfl⟩⟩, ?_⟩
    · have := not_and.mp hfits hlimited
      omega
    · rw [hsnd]

/-! ## The budget -/

/-- The output so far fits: it is not much longer than the input, or it was checked. -/
def Fits (e : Env) (anchor op : Int) : Prop :=
  match e.outputDirective with
  | .notLimited => op ≤ e.dest + (anchor - e.source) + (anchor - e.source) / 255
  | _ => anchor = e.source ∧ op = e.dest ∨ op + 6 ≤ e.olimit

/-- `cap` bytes can be written.  Without a limit this has to be enough for any input. -/
def Env.Capacity (e : Env) (cap : Int) : Prop :=
  match e.outputDirective with
  | .notLimited => (e.inputSize : Int) + e.inputSize / 255 + 16 ≤ cap
  | .limitedOutput => cap = e.maxOutputSize
  | .fillOutput => cap = e.maxOutputSize ∧ 1 ≤ cap

variable {filledIp : Int}

section

variable {e : Env} {cap : Int} {anchor ip op token : Int} {h h' : Heap} {m₀ : Mem} {table : Table}

theorem Env.Capacity.eq_of_limited (capacity : e.Capacity cap)
    (hlimited : e.outputDirective ≠ .notLimited) : cap = e.maxOutputSize := by
  unfold Env.Capacity at capacity
  cases hdir : e.outputDirective with
  | notLimited => exact absurd hdir hlimited
  | limitedOutput => simpa only [hdir] using capacity
  | fillOutput =>
    simp only [hdir] at capacity
    exact capacity.1

theorem Env.Capacity.bound (capacity : e.Capacity cap) (hdir : e.outputDirective = .notLimited) :
    (e.inputSize : Int) + e.inputSize / 255 + 16 ≤ cap := by
  unfold Env.Capacity at capacity
  simpa only [hdir] using capacity

theorem Fits.bound (hfits : Fits e anchor op) (hdir : e.outputDirective = .notLimited) :
    op ≤ e.dest + (anchor - e.source) + (anchor - e.source) / 255 := by
  unfold Fits at hfits
  simpa only [hdir] using hfits

theorem fits_of_limited (hlimited : e.outputDirective ≠ .notLimited) (h : op + 6 ≤ e.olimit) :
    Fits e anchor op := by
  unfold Fits
  cases hdir : e.outputDirective with
  | notLimited => exact absurd hdir hlimited
  | limitedOutput => exact Or.inr h
  | fillOutput => exact Or.inr h

theorem fits_of_bound (hdir : e.outputDirective = .notLimited)
    (h : op ≤ e.dest + (anchor - e.source) + (anchor - e.source) / 255) : Fits e anchor op := by
  unfold Fits
  simpa only [hdir] using h

/-- The last literals fit, after they were adapted. -/
theorem lastRunLength_fits (capacity : e.Capacity cap) (hanchor : anchor ≤ e.iend)
    (hfits : Fits e anchor op)
    (hroom : ¬ (e.outputDirective = .limitedOutput ∧ runTooLong e op (e.iend - anchor).toNat)) :
    op + 1 + ((lastRunLength e anchor op + 240) / 255 : Nat) + lastRunLength e anchor op ≤
        e.dest + cap ∧
      anchor + lastRunLength e anchor op ≤ e.iend := by
  have holimit : e.olimit = e.dest + e.maxOutputSize := rfl
  have hiend : e.iend = e.source + e.inputSize := rfl
  unfold lastRunLength
  unfold runTooLong at hroom ⊢
  unfold Fits at hfits
  unfold Env.Capacity at capacity
  cases hdir : e.outputDirective with
  | notLimited =>
    simp only [hdir] at capacity hfits
    rw [if_neg (by simp)]
    omega
  | limitedOutput =>
    simp only [hdir] at capacity hfits
    rw [hdir] at hroom
    simp only [true_and] at hroom
    rw [if_neg (by simp)]
    omega
  | fillOutput =>
    simp only [hdir] at capacity hfits
    simp only [true_and]
    split
    · omega
    · omega

/-- A call ends: it fails for lack of room, or returns the size of what it wrote. -/
structure Returns (e : Env) (cap : Int) (m₀ : Mem) (o : Outcome) : Prop where
  logged : o.heap.Logged (Within e.dest (e.dest + cap)) m₀
  result : o.result = 0 ∧ e.outputDirective = .limitedOutput ∨ 1 ≤ o.result ∧ o.result ≤ cap

/-- There is room for the last literals, if they are written. -/
def RoomForLast (e : Env) (cap anchor op : Int) : Prop :=
  ¬ (e.outputDirective = .limitedOutput ∧ runTooLong e op (e.iend - anchor).toNat) →
    op + 1 + ((lastRunLength e anchor op + 240) / 255 : Nat) + lastRunLength e anchor op ≤
        e.dest + cap ∧
      anchor + lastRunLength e anchor op ≤ e.iend

theorem RoomForLast.returns (hroom : RoomForLast e cap anchor op) (hdest : e.dest ≤ op)
    (hlog : h.Logged (Within e.dest (e.dest + cap)) m₀) :
    Returns e cap m₀ (lastLiterals e h table anchor op) := by
  unfold lastLiterals
  split
  · rename_i hfail
    exact ⟨hlog, Or.inl ⟨rfl, hfail.1⟩⟩
  · rename_i hfits
    obtain ⟨hrun, -⟩ := hroom hfits
    have hsnd := writeRun_snd h op (lastRunLength e anchor op)
    rw [length_lengthBytes] at hsnd
    refine ⟨Heap.logged_memcpy (within_write ?_ ?_) within_read
      (writeRun_logged _ hdest ?_ hlog), Or.inr ⟨?_, ?_⟩⟩
    · omega
    · omega
    · rw [length_lengthBytes]
      omega
    · dsimp only
      omega
    · dsimp only
      omega

theorem lastLiterals_returns (capacity : e.Capacity cap) (hanchor : anchor ≤ e.iend)
    (hdest : e.dest ≤ op) (hfits : Fits e anchor op)
    (hlog : h.Logged (Within e.dest (e.dest + cap)) m₀) :
    Returns e cap m₀ (lastLiterals e h table anchor op) :=
  RoomForLast.returns (lastRunLength_fits capacity hanchor hfits) hdest hlog

/-! ## The main loop -/

/-- Positions and room at the two places of the main loop. -/
def Sized (e : Env) (cap : Int) (m₀ : Mem) : Next → Prop
  | .search h _ anchor ip op _ =>
    h.Logged (Within e.dest (e.dest + cap)) m₀ ∧ e.source ≤ anchor ∧ anchor < ip ∧
      ip ≤ e.mflimitPlusOne ∧ e.dest ≤ op ∧ Fits e anchor op
  | .nextMatch h _ anchor op token found _ =>
    h.Logged (Within e.dest (e.dest + cap)) m₀ ∧ e.source ≤ anchor ∧ anchor ≤ found.ip ∧
      found.ip < e.mflimitPlusOne ∧ e.dest ≤ token ∧ Fits e anchor token ∧
      op = token + 1 + (((found.ip - anchor).toNat + 240) / 255 : Nat) +
        (found.ip - anchor).toNat ∧
      (e.outputDirective ≠ .notLimited → op + 5 ≤ e.olimit)

/-- Every sequence moves the anchor forward. -/
def variant (e : Env) : Next → Nat
  | .search _ _ anchor _ _ _ => 2 * (e.iend - anchor).toNat + 1
  | .nextMatch _ _ anchor _ _ _ _ => 2 * (e.iend - anchor).toNat

theorem afterMatch_sized (capacity : e.Capacity cap) {n : Nat}
    (hlog : h.Logged (Within e.dest (e.dest + cap)) m₀) (hip : e.source ≤ ip)
    (hlimit : ip ≤ e.matchlimit) (hdest : e.dest ≤ op) (hfits : Fits e ip op)
    (hroom : e.outputDirective ≠ .notLimited → op + 6 ≤ e.olimit)
    (hn : 2 * (e.iend - ip).toNat + 1 < n) :
    (afterMatch e h table ip op filledIp).Ends (Sized e cap m₀) (Returns e cap m₀) (variant e)
      n := by
  have hmatchlimit : e.matchlimit = e.iend - 5 := rfl
  have hiend : e.iend = e.source + e.inputSize := rfl
  have holimit : e.olimit = e.dest + e.maxOutputSize := rfl
  unfold afterMatch
  split
  · exact lastLiterals_returns capacity (by omega) hdest hfits hlog
  · dsimp only
    split
    · -- the next position matches at once
      rename_i found hfound
      have heq := tryMatch_ip hfound
      have hwrite : op + 1 ≤ e.dest + cap := by
        by_cases hdir : e.outputDirective = .notLimited
        · have := capacity.bound hdir
          have := hfits.bound hdir
          omega
        · have := capacity.eq_of_limited hdir
          have := hroom hdir
          omega
      refine ⟨⟨Heap.logged_store (within_write hdest ?_) hlog, hip, by omega, by omega, hdest,
        hfits, ?_, fun hlimited => ?_⟩, ?_⟩
      · exact hwrite
      · rw [heq]
        simp
      · have := hroom hlimited
        omega
      · show 2 * (e.iend - ip).toNat < n
        omega
    · exact ⟨⟨hlog, hip, by omega, by omega, hdest, hfits⟩, hn⟩

/-- There is room for the offset of a match. -/
theorem offset_logged (capacity : e.Capacity cap)
    (sized : Sized e cap m₀ (.nextMatch h table anchor op token found filledIp)) :
    (h.store op (le16 (found.written e))).Logged (Within e.dest (e.dest + cap)) m₀ := by
  obtain ⟨hlog, hsource, hanchor, hip, hdest, hfits, hop, hroom⟩ := sized
  have hmflimit : e.mflimitPlusOne = e.iend - 12 + 1 := rfl
  have hiend : e.iend = e.source + e.inputSize := rfl
  have holimit : e.olimit = e.dest + e.maxOutputSize := rfl
  have hpair : (le16 (found.written e)).length = 2 := rfl
  refine Heap.logged_store (within_write (by omega) ?_) hlog
  by_cases hdir : e.outputDirective = .notLimited
  · have := capacity.bound hdir
    have := hfits.bound hdir
    omega
  · have := capacity.eq_of_limited hdir
    have := hroom hdir
    omega

/-- The rest of a match fits, and leaves six bytes if there is a limit. -/
theorem Coded.sized {matchCode : Nat} {table' : Table}
    (coded : Coded e h table op found matchCode table') (capacity : e.Capacity cap)
    (sized : Sized e cap m₀ (.nextMatch h table anchor op token found filledIp)) :
    (encodeMatchLength (h.store op (le16 (found.written e))) token (op + 2) matchCode).1.Logged
      (Within e.dest (e.dest + cap)) m₀ ∧ found.ip + 4 + matchCode ≤ e.matchlimit ∧
      Fits e (found.ip + 4 + matchCode)
      (encodeMatchLength (h.store op (le16 (found.written e))) token (op + 2) matchCode).2 ∧
      (e.outputDirective ≠ .notLimited →
      (encodeMatchLength (h.store op (le16 (found.written e))) token (op + 2) matchCode).2 + 6 ≤
      e.olimit) := by
  have hlog₁ := offset_logged capacity sized
  obtain ⟨hlog, hsource, hanchor, hip, hdest, hfits, hop, -⟩ := sized
  have hmatchlimit : e.matchlimit = e.iend - 5 := rfl
  have hmflimit : e.mflimitPlusOne = e.iend - 12 + 1 := rfl
  have hiend : e.iend = e.source + e.inputSize := rfl
  have holimit : e.olimit = e.dest + e.maxOutputSize := rfl
  have hend := measureMatch_snd e (h.store op (le16 (found.written e))).mem found
  have hfull := measureMatch_le e (h.store op (le16 (found.written e))).mem
    (show found.ip + 4 ≤ e.matchlimit by omega)
  have hcode := coded.le_full
  have hsnd := encodeMatchLength_snd (h.store op (le16 (found.written e))) token (op + 2)
    matchCode
  rw [length_lengthBytes] at hsnd
  refine ⟨?_, by omega, ?_, fun hlimited => ?_⟩
  · refine encodeMatchLength_logged hdest (by omega) ?_ hlog₁
    rw [length_lengthBytes]
    by_cases hdir : e.outputDirective = .notLimited
    · have := capacity.bound hdir
      have := hfits.bound hdir
      omega
    · have := capacity.eq_of_limited hdir
      have := coded.room hdir
      omega
  · by_cases hdir : e.outputDirective = .notLimited
    · have := hfits.bound hdir
      exact fits_of_bound hdir (by omega)
    · have := coded.room hdir
      exact fits_of_limited hdir (by omega)
  · have := coded.room hlimited
    omega

theorem nextMatch_sized (capacity : e.Capacity cap) (hsize : e.inputSize < 2 ^ 31)
    (sized : Sized e cap m₀ (.nextMatch h table anchor op token found filledIp)) :
    (nextMatch e h table anchor op token found filledIp).Ends (Sized e cap m₀) (Returns e cap m₀)
      (variant e) (variant e (.nextMatch h table anchor op token found filledIp)) := by
  have hlog₁ := offset_logged capacity sized
  have hrest {matchCode : Nat} {table' : Table}
      (coded : Coded e h table op found matchCode table') := coded.sized capacity sized
  obtain ⟨hlog, hsource, hanchor, hip, hdest, hfits, hop, -⟩ := sized
  have hmatchlimit : e.matchlimit = e.iend - 5 := rfl
  have hmflimit : e.mflimitPlusOne = e.iend - 12 + 1 := rfl
  rcases nextMatch_cases h table anchor op token filledIp hsize (by omega)
    (show found.ip + 4 ≤ e.matchlimit by omega) with
    ⟨-, heq⟩ | ⟨hlimited, ip', heq⟩ | ⟨matchCode, table', coded, heq⟩
  · rw [heq]
    exact lastLiterals_returns capacity (by omega) hdest hfits hlog
  · rw [heq]
    exact ⟨hlog₁, Or.inl ⟨rfl, hlimited⟩⟩
  · rw [heq]
    obtain ⟨hlog', hend, hfits', hroom⟩ := hrest coded
    have hsnd := encodeMatchLength_snd (h.store op (le16 (found.written e))) token (op + 2)
      matchCode
    refine afterMatch_sized capacity hlog' (by omega) hend (by omega) hfits' hroom ?_
    show _ < 2 * (e.iend - anchor).toNat
    omega

/-- There is room for literals, and for what the copy writes beyond them. -/
theorem encodeLiterals_within (capacity : e.Capacity cap) (hfits : Fits e anchor op)
    (hanchor : anchor ≤ ip) (hip : ip < e.mflimitPlusOne) {op' : Int}
    (hwritten : encodeLiterals e h anchor ip op = .written h' op') :
    max (op' - (ip - anchor).toNat + 8) (op' + 7) ≤ e.dest + cap := by
  have hmflimit : e.mflimitPlusOne = e.iend - 12 + 1 := rfl
  have hiend : e.iend = e.source + e.inputSize := rfl
  have holimit : e.olimit = e.dest + e.maxOutputSize := rfl
  have hop := encodeLiterals_op hwritten
  obtain ⟨hlimited, hfill⟩ := encodeLiterals_room hwritten
  cases hdir : e.outputDirective with
  | notLimited =>
    have := capacity.bound hdir
    have := hfits.bound hdir
    omega
  | limitedOutput =>
    have := capacity.eq_of_limited (by simp [hdir])
    have := hlimited hdir
    omega
  | fillOutput =>
    have := capacity.eq_of_limited (by simp [hdir])
    have := hfill hdir
    omega

/-- One step of the main loop stays in bounds and moves on. -/
theorem step_sized (accelerates : e.Accelerates) (capacity : e.Capacity cap) {next : Next}
    (sized : Sized e cap m₀ next) :
    ∃ x, step e next = some x ∧
      x.Ends (Sized e cap m₀) (Returns e cap m₀) (variant e) (variant e next) := by
  have hsize : e.inputSize < 2 ^ 31 := by
    have := accelerates.1
    have := accelerates.2
    omega
  cases next with
  | nextMatch h table anchor op token found filledIp =>
    exact ⟨_, rfl, nextMatch_sized capacity hsize sized⟩
  | search h table anchor ip op forwardH =>
    obtain ⟨hlog, hsource, hanchor, hip, hdest, hfits⟩ := sized
    have hmflimit : e.mflimitPlusOne = e.iend - 12 + 1 := rfl
    obtain ⟨⟨found?, table'⟩, hsearch, hends⟩ := search_ends accelerates h.mem
      (Q := fun _ _ => True) (fun _ _ _ _ => trivial) table forwardH
      (show e.source < ip by omega) hip trivial
    simp only [step, hsearch, Option.bind_eq_bind, Option.bind_some]
    cases found? with
    | none => exact ⟨_, rfl, lastLiterals_returns capacity (by omega) hdest hfits hlog⟩
    | some found =>
      obtain ⟨hlow, hhigh, -⟩ := hends
      obtain ⟨j, hcatch, hback, -, -⟩ := catchUp_spec h.mem (show anchor < found.ip by omega)
      dsimp only
      rw [hcatch]
      cases hlits : encodeLiterals e h anchor (found.ip - j) op with
      | fail => exact ⟨_, rfl, hlog, Or.inl ⟨rfl, encodeLiterals_fail hlits⟩⟩
      | full => exact ⟨_, rfl, lastLiterals_returns capacity (by omega) hdest hfits hlog⟩
      | written h' op' =>
        have hop := encodeLiterals_op hlits
        obtain ⟨hlimited, hfill⟩ := encodeLiterals_room hlits
        have hwithin := encodeLiterals_within capacity hfits hback (by omega) hlits
        refine ⟨_, rfl, ⟨encodeLiterals_logged hlits hdest hwithin hlog, hsource, hback,
          by dsimp only; omega, hdest, hfits, hop, fun hdir => ?_⟩, ?_⟩
        · cases hdir' : e.outputDirective with
          | notLimited => exact absurd hdir' hdir
          | limitedOutput =>
            have := hlimited hdir'
            omega
          | fillOutput =>
            have := hfill hdir'
            omega
        · exact Nat.lt_succ_self _

theorem fits_start (e : Env) : Fits e e.source e.dest := by
  by_cases hdir : e.outputDirective = .notLimited
  · exact fits_of_bound hdir (by omega)
  · unfold Fits
    split
    · contradiction
    · exact Or.inl ⟨rfl, rfl⟩

theorem logged_start (e : Env) (cap : Int) (m : Mem) :
    Heap.Logged (Within e.dest (e.dest + cap)) m ⟨m, []⟩ := ⟨by simp, fun _ _ => rfl⟩

theorem sized_start (m : Mem) (table : Table) (forwardH : Nat) (hlong : ¬ e.inputSize < 13) :
    Sized e cap m (.search ⟨m, []⟩ table e.source (e.source + 1) e.dest forwardH) := by
  have hiend : e.iend = e.source + e.inputSize := rfl
  have hmflimit : e.mflimitPlusOne = e.iend - 12 + 1 := rfl
  exact ⟨logged_start e cap m, Int.le_refl _, by omega, by omega, Int.le_refl _, fits_start e⟩

theorem Env.Capacity.not_empty (capacity : e.Capacity cap) :
    ¬ (e.outputDirective = .fillOutput ∧ e.maxOutputSize < 1) := by
  rintro ⟨hfill, hempty⟩
  unfold Env.Capacity at capacity
  simp only [hfill] at capacity
  omega

/-- `LZ4_compress_generic_validated` returns, and what it writes lies in the destination. -/
theorem compressGenericValidated_returns (accelerates : 13 ≤ e.inputSize → e.Accelerates)
    (capacity : e.Capacity cap) (m : Mem) (table : Table) :
    ∃ o, compressGenericValidated e ⟨m, []⟩ table = some o ∧ Returns e cap m o := by
  have hiend : e.iend = e.source + e.inputSize := rfl
  unfold compressGenericValidated
  rw [if_neg capacity.not_empty]
  split
  · exact ⟨_, rfl, lastLiterals_returns capacity (by omega) (Int.le_refl _) (fits_start e)
      (logged_start e cap m)⟩
  · rename_i hlong
    refine iterate_ends (Sized e cap m) (variant e)
      (fun _ sized => step_sized (accelerates (by omega)) capacity sized)
      (sized_start m _ _ hlong) ?_
    show 2 * (e.iend - e.source).toNat + 1 < _
    omega

end

end Lz4.Encoder
