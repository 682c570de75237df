import Lz4.Decoder.Window

/-!
# What a pass of the decoder writes

Both loops, the shortcuts and the jumps between them implement one operation:
parse a sequence, append its literals and its match.  What becomes of the match is
decided by the input (`matchVerdict`), and every way to copy it carries this out
(`MatchCopy.carried`).

`Parsed` collects what a sequence consists of, and `PassEnd` says how a pass of a full
decoding may end:

* with a negative result, which a sequence within all limits never causes;
* with the final literals, which end exactly at the end of the input;
* in front of the next sequence, memory related to the longer list.

A pass does not check that the bytes it overwrites were dead; `SourceClear` and
`HistoryClear` are therefore hypotheses throughout.  With separate buffers the whole pass
is decided by the input (`exists_pass`).
-/

namespace Lz4.Decoder

open FlatMemory

/-- The sequence at `ip`: `length` literals at `lit`, then a match, then the next
sequence at `ip'`. -/
structure Parsed (e : Env) (source : Mem) (ip : Int) (length : Nat) (lit : Int)
    (offset matchLength : Nat) (ip' : Int) : Prop where
  literals : literalRun e source ip = some (length, lit)
  more : lit + length + 2 < e.iend
  offset_eq : offset = readLE16 source (lit + length)
  matchRun : matchRun e source ((source ip).toNat % 16) (lit + length + 2) = some (matchLength, ip')

/-! ## What becomes of a match -/

/-- What becomes of a match: it is refused, or `n` bytes of it are copied, after which the call
may end. -/
def matchVerdict (e : Env) (op : Int) (offset length : Nat) : Option (Nat × Bool) :=
  if e.checkOffset ∧ op - offset + e.dictSize < e.lowPrefix then none
  else if e.dict = .usingExtDict ∧ op - offset < e.lowPrefix then
    if op + length > e.oend - 5 then
      if e.partialDecoding then some (min length (e.oend - op).toNat, false) else none
    else some (length, false)
  else if e.partialDecoding ∧ op + length > e.oend - 12 then
    some (min length (e.oend - op).toNat, decide (op + min length (e.oend - op).toNat = e.oend))
  else if op + length > e.oend - 5 then none
  else some (length, false)

def sequenceVerdict (e : Env) (short : Bool) (op : Int) (offset length : Nat) :
    Option (Nat × Bool) :=
  if short ∧ Served e op offset then some (length, false) else matchVerdict e op offset length

/-- A match that is copied byte by byte, each byte to itself. -/
def SelfCopy (e : Env) (op : Int) (offset length : Nat) : Prop :=
  offset = 0 ∧ e.partialDecoding = true ∧ op + length > e.oend - 12

instance (e : Env) (op : Int) (offset length : Nat) : Decidable (SelfCopy e op offset length) :=
  inferInstanceAs (Decidable (_ ∧ _))

/-- The copy is one that is made without asking where the match ends. -/
def MatchCopy.short : MatchCopy → Bool
  | .eighteen fast => !fast
  | .safeCopy => false
  | .fastCopy => false

section Verdict

variable {e : Env} {op : Int} {offset length n : Nat} {short stops : Bool}

theorem Served.lowPrefix_le (placed : e.Placed) (hdst : e.dst ≤ op) (hoffset : offset < 65536)
    (served : Served e op offset) : e.lowPrefix ≤ op - offset := by
  rcases served.2 with h64k | hlow
  · have := placed.prefix64k h64k
    omega
  · exact hlow

/-- A match in the prefix that stays away from the end of the output is copied. -/
theorem matchVerdict_inside (hlow : e.lowPrefix ≤ op - offset)
    (hfar : op + length ≤ e.oend - 12) : matchVerdict e op offset length = some (length, false) := by
  unfold matchVerdict
  rw [if_neg (by omega), if_neg (by omega), if_neg (by omega), if_neg (by omega)]

/-- An offset that passes the check stays in the dictionary. -/
theorem reach_of_check (hlow : e.lowPrefix ≤ op) (hoffset : offset < 65536)
    (hcheck : ¬ (e.checkOffset ∧ op - offset + e.dictSize < e.lowPrefix)) :
    e.lowPrefix - (op - offset) ≤ e.dictSize := by
  unfold Env.checkOffset at hcheck
  omega

/-- A match that passes the checks and is not sent to the dictionary lies in the prefix. -/
theorem lowPrefix_le_of_checks (placed : e.Placed)
    (hcheck : ¬ (e.checkOffset ∧ op - offset + e.dictSize < e.lowPrefix))
    (hext : ¬ (e.dict = .usingExtDict ∧ op - offset < e.lowPrefix)) :
    e.lowPrefix ≤ op - offset := by
  by_contra hbelow
  by_cases hdict : e.dict = .usingExtDict
  · exact hext ⟨hdict, by omega⟩
  · have := placed.dictSize_eq hdict
    refine hcheck ⟨?_, by omega⟩
    unfold Env.checkOffset
    omega

/-- A match is refused because of its offset, or because it ends too late. -/
theorem sequenceVerdict_none (hverdict : sequenceVerdict e short op offset length = none) :
    (e.checkOffset ∧ op - offset + e.dictSize < e.lowPrefix) ∨
      (e.partialDecoding = false ∧ e.oend - 5 < op + length) := by
  unfold sequenceVerdict matchVerdict at hverdict
  grind

/-- A match that is not refused: its offset has passed the check, and if it is cut then by a
partial decoding, at the end of the output. -/
structure Granted (e : Env) (op : Int) (offset length n : Nat) (stops : Bool) : Prop where
  check : ¬ (e.checkOffset ∧ op - offset + e.dictSize < e.lowPrefix)
  length_eq : n = length ∨ (e.partialDecoding = true ∧ n = min length (e.oend - op).toNat)
  full : stops = true → e.partialDecoding = true ∧ op + n = e.oend

theorem sequenceVerdict_some (placed : e.Placed) (hdst : e.dst ≤ op) (hoffset : offset < 65536)
    (hverdict : sequenceVerdict e short op offset length = some (n, stops)) :
    Granted e op offset length n stops := by
  unfold sequenceVerdict at hverdict
  split at hverdict
  · rename_i hserved
    have hlow := hserved.2.lowPrefix_le placed hdst hoffset
    obtain ⟨rfl, rfl⟩ := hverdict
    exact ⟨fun hall => by omega, Or.inl rfl, Bool.noConfusion⟩
  · unfold matchVerdict at hverdict
    constructor <;> grind

end Verdict

/-! ## Copies of a match -/

variable {m' m : Mem} {field k : Nat}

section Match

variable {e : Env} {h : Heap} {fast : Bool} {ip op : Int} {offset length : Nat}

/-- The dictionary part of a match is moved at once, so it is exact even when the
dictionary overlaps the output. -/
theorem matchDone_extDict (hlp : e.lowPrefix ≤ e.dst) (hdst : e.dst ≤ op)
    (hext : op - offset < e.lowPrefix) (hlength : length ≤ (e.lowPrefix - (op - offset)).toNat) :
    MatchDone e h.mem
      (h.memcpy .window op (e.dictEnd - (e.lowPrefix - (op - offset))) length).mem op offset length
      (op + length) where
  frame a ha := Mem.copy_outside ha
  zero h0 := by
    omega
  dictionary a hlow hhigh hbelow := by
    rw [Heap.memcpy_mem, Mem.copy_inside hlow hhigh, Env.phys_of_lt hbelow]
    congr 1
    omega
  back _ a hlow hhigh hpos := by omega

/-- A match that stretches from the dictionary into the current block: its first `k` bytes
are moved from the end of the dictionary, the others repeat the block. -/
theorem matchDone_split (hlp : e.lowPrefix ≤ e.dst) (hdst : e.dst ≤ op)
    (hext : op - offset < e.lowPrefix) (hk : (k : Int) = e.lowPrefix - (op - offset))
    (hlength : k ≤ length) {h₂ : Heap}
    (hframe : ∀ a, (a < op + k ∨ op + length ≤ a) → h₂.mem a =
      (h.memcpy .window op (e.dictEnd - k) k).mem a)
    (hback : ∀ a, op + k ≤ a → a < op + length → h₂.mem a = h₂.mem (a - offset)) :
    MatchDone e h.mem h₂.mem op offset length (op + length) := by
  have first : MatchDone e h.mem (h.memcpy .window op (e.dictEnd - k) k).mem op offset k (op + k) := by
    have hfirst := matchDone_extDict (h := h) hlp hdst hext (show k ≤ _ by omega)
    rwa [← hk] at hfirst
  refine ⟨?_, by omega, ?_, ?_⟩
  · intro a ha
    rw [hframe a (by omega), first.frame a (by omega)]
  · intro a hlow hhigh hbelow
    rw [hframe a (by omega)]
    exact first.dictionary a hlow (by omega) hbelow
  · intro _ a hlow hhigh hge
    exact hback a (by omega) hhigh

theorem matchDone_stretch (hlp : e.lowPrefix ≤ e.dst) (hdst : e.dst ≤ op)
    (hext : op - offset < e.lowPrefix) (hk : (k : Int) = e.lowPrefix - (op - offset))
    (hlength : k < length) :
    MatchDone e h.mem
      (if ((length - k : Nat) : Int) > op + k - e.lowPrefix then byteCopy .window
      (h.memcpy .window op (e.dictEnd - k) k) (op + k) e.lowPrefix (length - k) else
      (h.memcpy .window op (e.dictEnd - k) k).memcpy .window (op + k) e.lowPrefix (length - k)).mem
      op offset length (op + length) := by
  refine matchDone_split hlp hdst hext hk (by omega) ?_ ?_
  · intro a ha
    split
    · exact byteCopy_frame _ _ _ _ _ _ (by omega)
    · exact Mem.copy_outside (by omega)
  · intro a hlow hhigh
    have haddr : e.lowPrefix + (a - (op + k)) = a - offset := by omega
    split
    · rw [byteCopy_backward _ _ _ _ _ _ (by omega) hlow (by omega), haddr]
    · rw [Heap.memcpy_mem, Mem.copy_inside hlow (by omega), haddr, Mem.copy_outside (by omega)]

/-- The copy of `safe_match_copy`, close to the end of the output or not. -/
theorem matchCopied_safePrefixCopy (e : Env) (h : Heap) (op : Int) (offset : Nat)
    (hlength : 4 ≤ length) (hend : op + length ≤ e.oend - 5) :
    MatchCopied h.mem (safePrefixCopy e h op offset length).mem op offset length
      (min e.oend (op + length + 12)) := by
  obtain ⟨_, _, _, _, hfar⟩ := copyFirst8_snd h op offset
  refine matchCopied_of_copyFirst8 (by omega) ?_ ?_
  all_goals
    unfold safePrefixCopy
    dsimp only
    set h₁ := (copyFirst8 h op (op - offset) offset).1
    set mtch := (copyFirst8 h op (op - offset) offset).2
  · intro a ha
    split
    · split
      · rw [byteCopy_frame _ _ _ _ _ _ (by omega), wildCopy8_frame _ _ _ _ _ _ (by omega)]
      · rw [byteCopy_frame _ _ _ _ _ _ (by omega)]
    · split
      · rw [wildCopy8_frame _ _ _ _ _ _ (by omega), Heap.memcpy_mem, Mem.copy_outside (by omega)]
      · rw [Heap.memcpy_mem, Mem.copy_outside (by omega)]
  · intro a hlow hhigh
    split
    · split
      · rcases Int.lt_or_le a (e.oend - 7) with hwild | hbytes
        · -- below the limit the words are final
          rw [byteCopy_frame _ _ _ _ _ _ (by omega), byteCopy_frame _ _ _ _ _ _ (by omega)]
          exact wildCopy8_backward .window h₁ (op + 8) mtch (e.oend - 7) (by omega) a hlow hwild
        · rw [byteCopy_backward _ _ _ _ _ _ (by omega) hbytes (by omega)]
          congr 1
          omega
      · rw [byteCopy_backward _ _ _ _ _ _ (by omega) hlow (by omega)]
        congr 1
        omega
    · have hword : ∀ a, op + 8 ≤ a → a < op + 16 →
          (h₁.memcpy .window (op + 8) mtch 8).mem a =
            (h₁.memcpy .window (op + 8) mtch 8).mem (a - (op + 8 - mtch)) := by
        intro a hlow hhigh
        rw [Heap.memcpy_mem, Mem.copy_inside hlow (by omega), Mem.copy_outside (by omega)]
        congr 1
        omega
      split
      · rcases Int.lt_or_le a (op + 16) with hfirst | hrest
        · rw [wildCopy8_frame _ _ _ _ _ _ (by omega), wildCopy8_frame _ _ _ _ _ _ (by omega)]
          exact hword a hlow hfirst
        · have hperiod := wildCopy8_backward .window (h₁.memcpy .window (op + 8) mtch 8)
            (op + 8 + 8) (mtch + 8) (op + length) (by omega) a (by omega) hhigh
          rw [hperiod]
          congr 1
          omega
      · exact hword a hlow (by omega)

/-- **The match copies of the two loops leave what a byte loop leaves**, whatever the output held
before.  The safe loop refuses a match that ends in the last five bytes. -/
theorem matchCopy_eq_byteCopy (e : Env) (h : Heap) (op : Int) (offset : Nat) (hpos : 1 ≤ offset)
    (hlength : 4 ≤ length) (a : Int) (hhigh : a < op + length) :
    (memcpyUsingOffset h op (op - offset) (op + length) offset).mem a =
        (byteCopy .window h op (op - offset) length).mem a ∧
      (16 ≤ offset → (wildCopy32 .window h op (op - offset) (op + length)).mem a =
        (byteCopy .window h op (op - offset) length).mem a) ∧
      (op + length ≤ e.oend - 5 → (safePrefixCopy e h op offset length).mem a =
        (byteCopy .window h op (op - offset) length).mem a) := by
  refine ⟨?_, fun hfar => ?_, fun hend => ?_⟩
  · exact (matchCopied_memcpyUsingOffset h op offset length).eq_byteCopy hpos hhigh
  · exact (matchCopied_wildCopy32 h op (op + length) hfar (le_wildEnd32 _ _)).eq_byteCopy hpos hhigh
  · exact (matchCopied_safePrefixCopy e h op offset hlength hend).eq_byteCopy hpos hhigh

theorem matchCopy_eq_byteCopy_seven :
    let e : Env := ⟨false, .noDict, 1000, 1100, 90, 147, 90, 0, 0⟩
    let h : Heap := ⟨fun a => if a = 95 then 1 else 0, []⟩
    (safePrefixCopy e h 100 7 40).mem 137 = (byteCopy .window h 100 93 40).mem 137 :=
  (matchCopy_eq_byteCopy _ _ 100 7 (by decide) (by decide) 137 (by decide)).2.2 (by decide)

/-- Byte by byte, or at once if the ranges are apart. -/
theorem matchCopied_exact (h : Heap) (op : Int) {offset : Nat} (length : Nat) (hpos : 0 < offset) :
    MatchCopied h.mem
      (if op - offset + (length : Int) > op then byteCopy .window h op (op - offset) length
        else h.memcpy .window op (op - offset) length).mem op offset length (op + length) where
  frame a ha := by
    split
    · exact byteCopy_frame _ _ _ _ _ _ ha
    · exact Mem.copy_outside ha
  zero h0 := absurd h0 (by omega)
  periodic _ a hlow hhigh := by
    split
    · rw [byteCopy_backward _ _ _ _ _ _ (by omega) hlow hhigh]
      congr 1
      omega
    · rw [Heap.memcpy_mem, Mem.copy_inside hlow hhigh, Mem.copy_outside (by omega)]
      congr 1
      omega

theorem byteCopy_self (port : Port) (h : Heap) (d : Int) (n : Nat) :
    (byteCopy port h d d n).mem = h.mem := by
  funext a
  by_cases hin : d ≤ a ∧ a < d + n
  · have hsame := stride_forward (strip_memcpy port 1) n h d d a (Int.le_refl d) hin.1
      (by omega)
    rw [add_sub_cancel] at hsame
    exact hsame
  · exact byteCopy_frame _ _ _ _ _ _ (by omega)

/-- A match was copied.  All writes stay within 14 bytes of its end, except for those of the fast
loop's `wildCopy32`, which serves long matches at offsets of at least 16 and goes on with the
match. -/
structure MatchWrites (e : Env) (fast : Bool) (m m' : Mem) (op : Int) (offset n : Nat)
    (limit : Int) : Prop where
  done : MatchDone e m m' op offset n limit
  le_oend : limit ≤ e.oend
  near : limit ≤ op + n + 14 ∨ (fast = true ∧ 16 ≤ offset ∧ 19 ≤ n ∧ op + n < e.oend - 64 ∧
    limit = wildEnd32 op (op + n) ∧ MatchDone e m m' op offset (limit - op).toNat limit)

/-- What a copy of a match has done to memory. -/
def MatchWritten (e : Env) (fast : Bool) (m m' : Mem) (op : Int) (offset length n : Nat) : Prop :=
  if SelfCopy e op offset length then m' = m
  else ∃ limit, MatchWrites e fast m m' op offset n limit

theorem matchWritten_of_done {n : Nat} {limit : Int} (hself : ¬ SelfCopy e op offset length)
    (hlimit : limit ≤ e.oend) (hnear : limit ≤ op + n + 14)
    (done : MatchDone e m m' op offset n limit) : MatchWritten e fast m m' op offset length n := by
  unfold MatchWritten
  rw [if_neg hself]
  exact ⟨limit, done, hlimit, Or.inl hnear⟩

/-- A copy has carried out the verdict on its match.  Only a copy of the fast loop goes on
there. -/
def MatchCarried (e : Env) (fast : Bool) (m : Mem) (ip op : Int) (offset length : Nat)
    (next : Next) : Option (Nat × Bool) → Prop
  | none => ∃ h', next = outputError e h' ip
  | some (n, true) => op + n ≤ e.oend ∧ ∃ h', next = .ret (op + n - e.dst) h' ∧
      MatchWritten e fast m h'.mem op offset length n
  | some (n, false) => op + n ≤ e.oend ∧ ∃ fast' h', next = .loop fast' h' ip (op + n) ∧
      (fast' = true → fast = true) ∧ MatchWritten e fast m h'.mem op offset length n

theorem extDictMatch_carried (placed : e.Placed) (hdst : e.dst ≤ op) (hoend : op ≤ e.oend)
    (hext : op - offset < e.lowPrefix) {fast' : Bool} (hfast : fast' = true → fast = true) :
    MatchCarried e fast h.mem ip op offset length (extDictMatch e fast' h ip op offset length)
      (if op + length > e.oend - 5 then
        if e.partialDecoding then some (min length (e.oend - op).toNat, false) else none
      else some (length, false)) := by
  have hlp := placed.lowPrefix_le
  have hself : ¬ SelfCopy e op offset length := fun hself => by
    have := hself.1
    omega
  unfold extDictMatch
  dsimp only
  by_cases hbad : op + (length : Int) > e.oend - 5 ∧ ¬ e.partialDecoding = true
  · rw [if_pos hbad, if_pos hbad.1, if_neg hbad.2]
    exact ⟨h, rfl⟩
  · have hverdict : (if op + (length : Int) > e.oend - 5 then
          if e.partialDecoding then some (min length (e.oend - op).toNat, false) else none
        else some (length, false)) =
        some (if op + (length : Int) > e.oend - 5 then min length (e.oend - op).toNat else length,
          false) := by
      split
      · rename_i hnear
        rw [if_pos (by_contra fun hfull => hbad ⟨hnear, hfull⟩)]
      · rfl
    rw [if_neg hbad, hverdict]
    generalize hk : (if op + (length : Int) > e.oend - 5 then min length (e.oend - op).toNat
      else length) = k
    have hroom : op + k ≤ e.oend := by
      split at hk
      · omega
      · omega
    split
    · rename_i hfits
      exact ⟨hroom, fast', _, rfl, hfast, matchWritten_of_done hself hroom (by omega)
        (matchDone_extDict hlp hdst hext hfits)⟩
    · have hend : op + ((e.lowPrefix - (op - offset)).toNat : Int) +
          ((k - (e.lowPrefix - (op - offset)).toNat : Nat) : Int) = op + k := by omega
      rw [hend]
      exact ⟨hroom, fast', _, rfl, hfast, matchWritten_of_done hself hroom (by omega)
        (matchDone_stretch hlp hdst hext (by omega) (by omega))⟩

theorem safeMatchCopy_carried (placed : e.Placed) (hdst : e.dst ≤ op) (hoend : op ≤ e.oend)
    (hlength : 4 ≤ length) :
    MatchCarried e fast h.mem ip op offset length (safeMatchCopy e h ip op offset length)
      (matchVerdict e op offset length) := by
  unfold safeMatchCopy matchVerdict
  dsimp only
  split
  · exact ⟨h, rfl⟩
  rename_i hcheck
  split
  · rename_i hext
    exact extDictMatch_carried placed hdst hoend hext.2 Bool.noConfusion
  rename_i hext
  have hlow := lowPrefix_le_of_checks placed hcheck hext
  split
  · rename_i hnear
    set k := min length (e.oend - op).toNat
    have written : MatchWritten e fast h.mem
        (if op - offset + (k : Int) > op then byteCopy .window h op (op - offset) k
          else h.memcpy .window op (op - offset) k).mem op offset length k := by
      rcases Nat.eq_zero_or_pos offset with rfl | hpos
      · unfold MatchWritten
        rw [if_pos ⟨rfl, hnear⟩, Int.natCast_zero, Int.sub_zero]
        split
        · exact byteCopy_self _ _ _ _
        · funext a
          rw [Heap.memcpy_mem, Mem.copy_outside (by omega)]
      · exact matchWritten_of_done (fun hself => by have := hself.1; omega)
          (show op + k ≤ e.oend by omega) (by omega)
          (MatchDone.of_matchCopied (matchCopied_exact h op k hpos) hlow)
    split
    · rename_i hfull
      rw [decide_eq_true hfull]
      exact ⟨by omega, _, rfl, written⟩
    · rename_i hfull
      rw [decide_eq_false hfull]
      exact ⟨by omega, false, _, rfl, Bool.noConfusion, written⟩
  · rename_i hfar
    by_cases hlast : op + (length : Int) > e.oend - 5
    · rw [if_pos ⟨by omega, hlast⟩, if_pos hlast]
      exact ⟨_, rfl⟩
    · rw [if_neg fun hall => hlast hall.2, if_neg hlast]
      exact ⟨by omega, false, _, rfl, Bool.noConfusion, matchWritten_of_done
        (fun hself => hfar hself.2) (min_le_left _ _) (by omega) (MatchDone.of_matchCopied
          (matchCopied_safePrefixCopy e h op offset hlength (by omega)) hlow)⟩

/-- In the fast loop short matches in the prefix have been served before, so `wildCopy32` only
sees long ones. -/
theorem fastMatchCopy_carried (placed : e.Placed) (hdst : e.dst ≤ op)
    (hoend : op + length < e.oend - 64) (hlength : 4 ≤ length)
    (hlong : length < 19 → ¬ Served e op offset) :
    MatchCarried e true h.mem ip op offset length (fastMatchCopy e h ip op offset length)
      (matchVerdict e op offset length) := by
  have hself : ¬ SelfCopy e op offset length := fun hself => by
    have := hself.2.2
    omega
  unfold fastMatchCopy
  by_cases hcheck : e.checkOffset ∧ op - offset + e.dictSize < e.lowPrefix
  · rw [if_pos hcheck, matchVerdict, if_pos hcheck]
    exact ⟨h, rfl⟩
  by_cases hext : e.dict = .usingExtDict ∧ op - offset < e.lowPrefix
  · rw [if_neg hcheck, if_pos hext, matchVerdict, if_neg hcheck, if_pos hext]
    exact extDictMatch_carried placed hdst (by omega) hext.2 fun _ => rfl
  have hlow := lowPrefix_le_of_checks placed hcheck hext
  rw [if_neg hcheck, if_neg hext, matchVerdict_inside hlow (by omega)]
  refine ⟨by omega, true, _, rfl, fun _ => rfl, ?_⟩
  split
  · exact matchWritten_of_done hself (by omega) (by omega)
      (MatchDone.of_matchCopied (matchCopied_memcpyUsingOffset h op offset length) hlow)
  · have hend := wildEnd32_le op (op + length)
    have hle := le_wildEnd32 op (op + length)
    have hlarge : 19 ≤ length := by
      by_contra hsmall
      exact hlong (by omega) ⟨by omega, Or.inr hlow⟩
    have done (k : Nat) (hk : op + k ≤ wildEnd32 op (op + length)) :=
      MatchDone.of_matchCopied (matchCopied_wildCopy32 h op (op + length) (by omega) hk) hlow
    unfold MatchWritten
    rw [if_neg hself]
    exact ⟨_, done length hle, by omega, Or.inr ⟨rfl, by omega, hlarge, hoend, rfl,
      done _ (by omega)⟩⟩

/-- Every way to copy a match carries out the verdict on it. -/
theorem MatchCopy.carried {how : MatchCopy} {entry : Entry} (placed : e.Placed) (hdst : e.dst ≤ op)
    (hoend : op ≤ e.oend) (hoffset : offset < 65536) (hlength : 4 ≤ length)
    (hfits : how.Fits e op offset length) (hchosen : how.Chosen e entry field op offset length)
    (hfast : entry = .fast → fast = true) :
    MatchCarried e fast h.mem ip op offset length (how.run e h ip op offset length)
      (sequenceVerdict e how.short op offset length) := by
  have hplain : sequenceVerdict e false op offset length = matchVerdict e op offset length :=
    if_neg (by simp)
  cases how with
  | eighteen fast' =>
    obtain ⟨hfar, hsize, hroom, hplace, hlimit⟩ := hfits
    have served : Served e op offset := ⟨hfar, hplace⟩
    have hlow := served.lowPrefix_le placed hdst hoffset
    have hself : ¬ SelfCopy e op offset length := fun hself => by
      have := hself.1
      omega
    have hverdict : sequenceVerdict e (!fast') op offset length = some (length, false) := by
      cases fast' with
      | false => exact if_pos ⟨rfl, served⟩
      | true =>
        have := hlimit rfl
        exact hplain.trans (matchVerdict_inside hlow (by omega))
    rw [short, hverdict]
    refine ⟨by omega, fast', _, rfl, fun hf => hfast ?_, matchWritten_of_done hself hroom
      (by omega) (MatchDone.of_matchCopied (matchCopied_eighteen h op hfar hsize) hlow)⟩
    rw [hchosen, if_pos hf]
  | safeCopy =>
    exact safeMatchCopy_carried placed hdst hoend hlength
  | fastCopy =>
    obtain rfl := hfast hchosen.1
    exact fastMatchCopy_carried placed hdst hfits hlength hchosen.2

end Match

/-! ## The list of what was decoded -/

/-- The writes of the match at `op` leave the input from `ip'` on alone.  All copies
stay within 14 bytes of the end of the match, except for the fast loop's
`wildCopy32`, which serves long matches at offsets of at least 16.  What it writes on
top of the input, the match continued, must be what the input holds anyway. -/
def Env.SourceClear (e : Env) (source : Mem) (n : Nat) (buf : List UInt8) (fast : Bool) (op : Int)
    (offset length : Nat) (ip' : Int) : Prop :=
  e.Separate ∨ (op + length + 14 ≤ ip' ∧ (fast = true → 16 ≤ offset → 19 ≤ length →
    op + length < e.oend - 64 → ∀ a, ip' ≤ a → a < wildEnd32 op (op + length) →
      contents (e.dst - n)
        (Lz4.copyMatch buf offset (wildEnd32 op (op + length) - op).toNat) a = source a))

variable {how : LiteralCopy} {next : Next} {lit ip' : Int}

section Rel

variable {e : Env} {source : Mem} {n : Nat} {buf : List UInt8} {h : Heap} {fast : Bool}
  {ip op lit slack : Int} {offset length : Nat}

/-- How the copy of a match of known length may end. -/
def MatchStep (e : Env) (source : Mem) (n : Nat) (buf : List UInt8) (fast : Bool) (ip op : Int)
    (offset length : Nat) : Next → Prop
  | .ret result _ => result < 0 ∧ (op - offset < e.dst - n ∨ e.oend - 5 < op + length)
  | .loop fast' h ip' op' => ip' = ip ∧ op' = op + length ∧ (fast' = true → fast = true) ∧
      e.dst - n ≤ op - offset ∧ Rel e source n (Lz4.copyMatch buf offset length) h.mem ip op'

theorem outputError_neg {r : Int} (hsrc : e.src ≤ ip) (hr : r = -(ip - e.src) - 1) : r < 0 := by
  omega

theorem Env.SourceClear.limit (clear : e.SourceClear source n buf fast op offset length ip)
    {limit : Int} (hsrc : e.src ≤ ip) (hoend : limit ≤ e.oend) (hlimit : limit ≤ op + length + 14) :
    e.iend ≤ e.dst ∨ ∀ a, ip ≤ a → a < limit → m' a = source a := by
  rcases clear with (hbelow | habove) | ⟨hgap, -⟩
  · exact Or.inl hbelow
  · exact Or.inr fun a hlow hhigh => by omega
  · exact Or.inr fun a hlow hhigh => by omega

/-- The test of the offset is exact. -/
theorem checkOffset_iff (serves : e.Serves n) (hdst : e.dst ≤ op) (hoffset : offset < 65536) :
    (e.checkOffset ∧ op - offset + e.dictSize < e.lowPrefix) ↔ op - offset < e.dst - n := by
  have hreach := serves.reach
  have hlp := serves.lowPrefix_le
  unfold Env.checkOffset
  omega

/-- A match that is not sent to the dictionary lies in the prefix. -/
theorem lowPrefix_le_match (serves : e.Serves n) (hdst : e.dst ≤ op) (hoffset : offset < 65536)
    (hreach : e.dst - n ≤ op - offset)
    (hext : ¬ (e.dict = .usingExtDict ∧ op - offset < e.lowPrefix)) :
    e.lowPrefix ≤ op - offset := by
  have hserves := serves.reach
  by_cases hdict : e.dict = .usingExtDict
  · simp only [hdict, true_and] at hext
    omega
  · have := serves.dictSize_eq hdict
    omega

theorem MatchWrites.rel {limit : Int} (serves : e.Serves n) (clear : e.HistoryClear n slack)
    (hslack : 14 ≤ slack ∧ (fast = true → 31 ≤ slack)) (rel : Rel e source n buf h.mem ip op)
    (hsrc : e.src ≤ ip) (hoffset : offset < 65536) (hreach : e.dst - n ≤ op - offset)
    (hoend : op + length ≤ e.oend) (hclear : e.SourceClear source n buf fast op offset length ip)
    (writes : MatchWrites e fast h.mem m' op offset length limit) :
    Rel e source n (Lz4.copyMatch buf offset length) m' ip (op + length) := by
  obtain ⟨done, hlimit, hnear | ⟨hfast, hwide, hlong, hroom, rfl, hmore⟩⟩ := writes
  · exact rel.copyMatch serves clear done hoffset hreach (Int.le_refl ip) hlimit hoend (by omega)
      (hclear.limit hsrc hlimit hnear)
  · have hend := wildEnd32_le op (op + length)
    have hwide' := hslack.2 hfast
    refine rel.copyMatch serves clear done hoffset hreach (Int.le_refl ip) hlimit hoend (by omega) ?_
    rcases hclear with (hbelow | habove) | ⟨hgap, hwild⟩
    · exact Or.inl hbelow
    · exact Or.inr fun a hlow hhigh => by omega
    · -- the strip that reaches the input is the match continued
      refine Or.inr fun a hlow hhigh => ?_
      rw [← hwild hfast hwide hlong hroom a hlow hhigh]
      exact hmore.contents_of_mem serves rel hoffset hreach (by omega) (by omega)

theorem MatchCarried.matchStep {short : Bool} (serves : e.Serves n) (clear : e.HistoryClear n slack)
    (hslack : 14 ≤ slack ∧ (fast = true → 31 ≤ slack)) (rel : Rel e source n buf h.mem ip op)
    (hsrc : e.src ≤ ip) (hoffset : offset < 65536)
    (hclear : e.SourceClear source n buf fast op offset length ip)
    (carried : MatchCarried e fast h.mem ip op offset length next
      (sequenceVerdict e short op offset length)) :
    MatchStep e source n buf fast ip op offset length next := by
  have hcheck := checkOffset_iff serves rel.le_pos hoffset
  rcases hverdict : sequenceVerdict e short op offset length with _ | ⟨k, stops⟩
  · rw [hverdict] at carried
    obtain ⟨h', rfl⟩ := carried
    exact ⟨outputError_neg hsrc rfl, (sequenceVerdict_none hverdict).imp hcheck.mp And.right⟩
  · have granted := sequenceVerdict_some serves.toPlaced rel.le_pos hoffset hverdict
    obtain ⟨hgood, hlength, hstops⟩ := granted
    simp only [serves.full, Bool.false_eq_true, false_and, or_false, imp_false,
      Bool.not_eq_true] at hlength hstops
    subst hlength hstops
    rw [hverdict] at carried
    obtain ⟨hoend, fast', h', rfl, hfast, written⟩ := carried
    rw [hcheck, Int.not_lt] at hgood
    unfold MatchWritten at written
    rw [if_neg fun hself => absurd hself.2.1 (by simp [serves.full])] at written
    obtain ⟨limit, writes⟩ := written
    exact ⟨rfl, rfl, hfast, hgood,
      writes.rel serves clear hslack rel hsrc hoffset hgood hoend hclear⟩

/-- How the rest of a sequence may end, from its match length on. -/
def MatchEnd (e : Env) (source : Mem) (n : Nat) (buf : List UInt8) (fast : Bool) (ip op : Int)
    (offset field : Nat) : Next → Prop
  | .ret result _ => result < 0 ∧ ∀ length ip', matchRun e source field ip = some (length, ip') →
      op - offset < e.dst - n ∨ e.oend - 5 < op + length
  | .loop fast' h ip' op' => ∃ length, matchRun e source field ip = some (length, ip') ∧
      op' = op + length ∧ (fast' = true → fast = true) ∧ e.dst - n ≤ op - offset ∧
      Rel e source n (Lz4.copyMatch buf offset length) h.mem ip' op'

theorem MatchStep.matchEnd (hstep : MatchStep e source n buf fast ip' op offset length next)
    (hrun : matchRun e source field ip = some (length, ip')) :
    MatchEnd e source n buf fast ip op offset field next := by
  cases next with
  | ret r h =>
    refine ⟨hstep.1, ?_⟩
    intro length' ip'' hrun'
    rw [hrun] at hrun'
    simp only [Option.some.injEq, Prod.mk.injEq] at hrun'
    rw [← hrun'.1]
    exact hstep.2
  | loop fast' h ip'' op' =>
    obtain ⟨hip, hop, hfast, hreach, rel⟩ := hstep
    subst hip
    exact ⟨length, hrun, hop, hfast, hreach, rel⟩

/-- Literals that are copied from a separate buffer, or far enough behind. -/
theorem LiteralCopy.copied (h : Heap)
    (hgap : e.Separate ∨ (op + 31 ≤ lit ∧ (15 ≤ length → op + 32 ≤ lit))) (hsrc : e.src ≤ lit)
    (hdst : e.dst ≤ op) (hfits : how.Fits e op lit length) :
    ∃ limit, LiteralsCopied h.mem (how.run h op lit length).mem op lit length limit ∧ limit ≤
      e.oend ∧ limit ≤ op + length + 31 ∧ (how ≠ .wild32 → limit ≤ op + length + 16) ∧
      (e.iend ≤ e.dst ∨ limit ≤ lit + length) := by
  cases how with
  | stripe =>
    obtain ⟨hlength, -, hoend⟩ := hfits
    exact ⟨op + 16, literalsCopied_memcpy h op lit hlength, hoend, by omega, fun _ => by omega,
      by rcases hgap with (hsep | hsep) | hsep <;> omega⟩
  | wild8 =>
    obtain ⟨hinput, hoend⟩ := hfits
    exact ⟨op + length + 8, literalsCopied_wildCopy8 h op lit length
      (by rcases hgap with (hsep | hsep) | hsep <;> omega), by omega, by omega,
      fun _ => by omega, by rcases hgap with (hsep | hsep) | hsep <;> omega⟩
  | wild32 =>
    obtain ⟨hlong, hinput, hoend⟩ := hfits
    have := wildEnd32_le op (op + length)
    exact ⟨wildEnd32 op (op + length), literalsCopied_wildCopy32 h op lit length
      (by rcases hgap with (hsep | hsep) | hsep <;> omega), by omega, by omega,
      fun hne => absurd rfl hne, by rcases hgap with (hsep | hsep) | hsep <;> omega⟩
  | exact =>
    have hoend : op + length ≤ e.oend := hfits
    exact ⟨op + length, literalsCopied_memcpy h op lit (Nat.le_refl length), hoend, by omega,
      fun _ => by omega, by rcases hgap with (hsep | hsep) | hsep <;> omega⟩

theorem Rel.literalCopy (serves : e.Serves n) (clear : e.HistoryClear n slack)
    (hslack : 16 ≤ slack ∧ (how = .wild32 → 31 ≤ slack))
    (hgap : e.Separate ∨ (op + 31 ≤ lit ∧ (15 ≤ length → op + 32 ≤ lit)))
    (rel : Rel e source n buf h.mem lit op) (hsrc : e.src ≤ lit) (hfits : how.Fits e op lit length)
    (hiend : lit + length ≤ e.iend) (hoend : op + length ≤ e.oend) :
    Rel e source n (buf ++ source.bytes lit length) (how.run h op lit length).mem (lit + length)
      (op + length) := by
  obtain ⟨limit, copied, hlimit, hwide, hnear, hsource⟩ :=
    LiteralCopy.copied h hgap hsrc rel.le_pos hfits
  refine rel.literals serves clear copied (Int.le_refl lit) hiend hlimit hoend ?_ hsource
  by_cases heq : how = .wild32
  · have := hslack.2 heq
    omega
  · have := hnear heq
    omega

/-! ## Whole passes -/

/-- How a pass may end once the literals, `length` bytes at `lit`, are known. -/
def LiteralEnd (e : Env) (source : Mem) (n : Nat) (buf : List UInt8) (fast : Bool) (token : Nat)
    (lit op : Int) (length : Nat) : Next → Prop
  | .ret result h =>
    (lit + length = e.iend ∧ op + length ≤ e.oend ∧ result = op + length - e.dst ∧
      Rel e source n (buf ++ source.bytes lit length) h.mem e.iend (op + length)) ∨
    (result < 0 ∧ ¬ (lit + length = e.iend ∧ op + length ≤ e.oend) ∧
      (lit + length ≤ e.iend - 8 → op + length ≤ e.oend - 12 →
        ∀ matchLength ip',
          matchRun e source (token % 16) (lit + length + 2) = some (matchLength, ip') →
          op + length - readLE16 source (lit + length) < e.dst - n ∨
            e.oend - 5 < op + length + matchLength))
  | .loop fast' h ip' op' => lit + length + 2 < e.iend ∧
      MatchEnd e source n (buf ++ source.bytes lit length) fast (lit + length + 2) (op + length)
        (readLE16 source (lit + length)) (token % 16) (.loop fast' h ip' op')

/-- The literals are in place: what remains is the match. -/
theorem MatchEnd.literalEnd {token : Nat}
    (hend : MatchEnd e source n (buf ++ source.bytes lit length) fast (lit + length + 2)
      (op + length) (readLE16 source (lit + length)) (token % 16) next)
    (hmore : lit + length + 2 < e.iend) :
    LiteralEnd e source n buf fast token lit op length next := by
  cases next with
  | ret r h => exact Or.inr ⟨hend.1, by omega, fun _ _ => hend.2⟩
  | loop fast' h ip' op' => exact ⟨hmore, hend⟩

/-- How a pass at `ip` may end. -/
def PassEnd (e : Env) (source : Mem) (n : Nat) (buf : List UInt8) (fast : Bool) (ip op : Int)
    (next : Next) : Prop :=
  (literalRun e source ip = none ∧ ∃ r h, next = .ret r h ∧ r < 0) ∨
    ∃ length lit, literalRun e source ip = some (length, lit) ∧
      LiteralEnd e source n buf fast (source ip).toNat lit op length next

/-- The input that the match of the sequence at `ip` has to spare. -/
def Env.PassClear (e : Env) (source : Mem) (n : Nat) (buf : List UInt8) (fast : Bool)
    (ip op : Int) : Prop :=
  ∀ length lit offset matchLength ip', Parsed e source ip length lit offset matchLength ip' →
    e.SourceClear source n (buf ++ source.bytes lit length) fast (op + length) offset matchLength
      ip'

theorem Env.PassClear.sourceClear (pass : e.PassClear source n buf fast ip op)
    (hrun : literalRun e source ip = some (length, lit)) (hmore : lit + length + 2 < e.iend)
    {matchLength : Nat}
    (hmatch : matchRun e source ((source ip).toNat % 16) (lit + length + 2) =
      some (matchLength, ip')) :
    e.SourceClear source n (buf ++ source.bytes lit length) fast (op + length)
      (readLE16 source (lit + length)) matchLength ip' :=
  pass _ _ _ _ _ ⟨hrun, hmore, rfl, hmatch⟩

/-- The pass of either loop. -/
theorem step_spec (serves : e.Serves n) (clear : e.HistoryClear n (if fast then 31 else 16))
    {m₀ : Mem} (at_ : At e m₀ fast h ip op) (rel : Rel e source n buf h.mem ip op)
    (hlit : e.Separate ∨ op + 30 ≤ ip) (hclear : e.PassClear source n buf fast ip op) :
    PassEnd e source n buf fast ip op (step e fast h ip op) := by
  have hsrc := at_.src_le
  have hslack : (16 : Int) ≤ (if fast then 31 else 16) ∧
      (fast = true → (31 : Int) ≤ (if fast then 31 else 16)) := by
    cases fast <;> simp
  have hgap {length : Nat} {lit : Int} (hrun : literalRun e source ip = some (length, lit)) :
      e.Separate ∨ (op + 31 ≤ lit ∧ (15 ≤ length → op + 32 ≤ lit)) := by
    have hle := literalRun_le hrun
    exact hlit.imp_right fun hgap => ⟨by omega, by omega⟩
  obtain ⟨pass, hfits, hstep⟩ := exists_literalPass source at_.lt_iend at_.le_oend at_.fast_le
  rw [hstep h rel.input]
  cases pass with
  | fail ip' =>
    obtain ⟨hnone, hlow, -⟩ := hfits
    exact Or.inl ⟨literalRun_of_none hnone, _, _, rfl, outputError_neg (by omega) rfl⟩
  | refuse lit =>
    obtain ⟨length, hrun, near, -, hbad⟩ := hfits
    have hle := literalRun_le hrun
    have hnear := near.near
    exact Or.inr ⟨length, lit, hrun, Or.inr ⟨outputError_neg (by omega) rfl, by omega, by omega⟩⟩
  | stop lit length =>
    obtain ⟨full, hrun, -, stops, hwhole⟩ := hfits
    obtain ⟨rfl, hiend⟩ := hwhole serves.full
    have hle := literalRun_le hrun
    have hlength := stops.length_eq
    have hoend := at_.le_oend
    have hexact : LiteralCopy.exact.Fits e op lit length := show op + length ≤ e.oend by omega
    refine Or.inr ⟨length, lit, hrun, Or.inl ⟨hiend, hexact, rfl, ?_⟩⟩
    rw [← hiend]
    refine Rel.literalCopy serves clear ⟨hslack.1, LiteralCopy.noConfusion⟩ (hgap hrun) ?_
      (by omega) hexact (by omega) hexact
    rw [loadTo_mem]
    exact rel.advance (by omega)
  | go lit length how entry =>
    obtain ⟨hrun, goes⟩ := hfits
    have hle := literalRun_le hrun
    have hmore := goes.more
    have hroom := goes.room
    have rel₀ : Rel e source n buf (loadTo (h.load .input ip 1) (ip + 1) lit).mem lit op := by
      rw [loadTo_mem]
      exact rel.advance (by omega)
    have rel₁ := rel₀.literalCopy serves clear ⟨hslack.1, fun heq => hslack.2 (goes.wide heq)⟩
      (hgap hrun) (by omega) goes.fits (by omega) (by omega)
    obtain ⟨rest, hrest, hchosen, hgo⟩ := exists_matchPass source (source ip).toNat entry hmore
      (fun heq => (goes.shortcut heq).2) fun heq => (goes.fast heq).2
    refine Or.inr ⟨length, lit, hrun, MatchEnd.literalEnd ?_ hmore⟩
    dsimp only [LiteralPass.run]
    rw [hgo _ rel₁.input]
    cases rest with
    | fail ip' =>
      obtain ⟨hnone, hlow⟩ := hrest
      refine ⟨outputError_neg (by omega) rfl, fun matchLength ip'' hmatch => ?_⟩
      rw [hnone] at hmatch
      exact absurd hmatch (by simp)
    | copy how' matchLength ip' =>
      obtain ⟨hmatch, hfits⟩ := hrest
      obtain ⟨hfour, hlow, -⟩ := matchRun_le hmatch
      have rel₂ : Rel e source n (buf ++ source.bytes lit length)
          (loadTo ((how.run (loadTo (h.load .input ip 1) (ip + 1) lit) op lit length).load
            .input (lit + length) 2) (lit + length + 2) ip').mem ip' (op + length) := by
        rw [loadTo_mem]
        exact rel₁.advance (by omega)
      exact (MatchCarried.matchStep serves clear ⟨by omega, hslack.2⟩ rel₂ (by omega)
        (readLE16_lt _ _) (hclear.sourceClear hrun hmore hmatch)
        (MatchCopy.carried serves.toPlaced rel₁.le_pos (by omega) (readLE16_lt _ _) hfour hfits
          hchosen fun heq => (goes.fast heq).1)).matchEnd hmatch

end Rel

/-! ## Separate buffers -/

/-- A whole pass: what `LiteralPass` can be, with the match that follows. -/
inductive Pass
  | fail (ip' : Int)
  | refuse (lit : Int)
  | stop (lit : Int) (length : Nat)
  | sequence (lit : Int) (length : Nat) (how : LiteralCopy) (entry : Entry) (offset : Nat)
      (rest : MatchPass)

def Pass.run (pass : Pass) (e : Env) (h : Heap) (ip op : Int) : Next :=
  match pass with
  | .fail ip' =>
    outputError e ((h.load .input ip 1).load .input (ip + 1) (ip' - (ip + 1)).toNat) ip'
  | .refuse lit => outputError e (loadTo (h.load .input ip 1) (ip + 1) lit) lit
  | .stop lit length =>
    .ret (op + length - e.dst)
      ((loadTo (h.load .input ip 1) (ip + 1) lit).memcpy .input op lit length)
  | .sequence lit length how _ offset rest =>
    rest.run e ((how.run (loadTo (h.load .input ip 1) (ip + 1) lit) op lit length).load .input
      (lit + length) 2) (lit + length + 2) (op + length) offset

def Pass.Fits (pass : Pass) (e : Env) (source : Mem) (fast : Bool) (ip op : Int) : Prop :=
  match pass with
  | .fail ip' => LiteralPass.Fits (.fail ip') e source fast ip op
  | .refuse lit => LiteralPass.Fits (.refuse lit) e source fast ip op
  | .stop lit length => LiteralPass.Fits (.stop lit length) e source fast ip op
  | .sequence lit length how entry offset rest =>
    LiteralPass.Fits (.go lit length how entry) e source fast ip op ∧
      offset = readLE16 source (lit + length) ∧
      rest.Fits e source ((source ip).toNat % 16) (lit + length + 2) (op + length) offset ∧
      rest.Chosen e source entry ((source ip).toNat % 16) (lit + length + 2) (op + length) offset

/-- The input of a heap is that of `source`. -/
def SameInput (e : Env) (source : Mem) (h : Heap) : Prop :=
  ∀ a, e.src ≤ a → a < e.iend → h.mem a = source a

variable {fast : Bool} {h : Heap}

section Separate

variable {e : Env} {source : Mem} {ip op : Int}

/-- Literals are written to the output only. -/
theorem LiteralCopy.frame {length : Nat} (hfits : how.Fits e op lit length) {a : Int}
    (ha : a < op ∨ e.oend ≤ a) : (how.run h op lit length).mem a = h.mem a := by
  cases how with
  | stripe =>
    obtain ⟨-, -, hoend⟩ := hfits
    exact Mem.copy_outside (by omega)
  | wild8 =>
    obtain ⟨-, hoend⟩ := hfits
    exact wildCopy8_frame _ _ _ _ _ _ (by omega)
  | wild32 =>
    obtain ⟨-, -, hoend⟩ := hfits
    have := wildEnd32_le op (op + length)
    exact wildCopy32_frame _ _ _ _ _ _ (by omega)
  | exact =>
    have hoend : op + length ≤ e.oend := hfits
    exact Mem.copy_outside (by omega)

theorem At.same (separate : e.Separate) (at_ : At e m fast h ip op) : SameInput e m h := fun a hlow
    hhigh =>
  frame_of_logged at_.logged (by rcases separate with hsep | hsep <;> omega)

/-- The input decides what a pass does. -/
theorem exists_pass (source : Mem) (separate : e.Separate) (hsrc : e.src ≤ ip) (hiend : ip < e.iend)
    (hdst : e.dst ≤ op) (hoend : op ≤ e.oend) (hfast : fast = true → op ≤ e.oend - 64) :
    ∃ pass : Pass, pass.Fits e source fast ip op ∧ ∀ h, SameInput e source h → step e fast h ip op =
      pass.run e h ip op := by
  obtain ⟨pass, hfits, hstep⟩ := exists_literalPass source hiend hoend hfast
  have hsame {h : Heap} (same : SameInput e source h) : SameFrom e source ip h :=
    fun a hlow => same a (by omega)
  cases pass with
  | fail ip' => exact ⟨.fail ip', hfits, fun h same => hstep h (hsame same)⟩
  | refuse lit => exact ⟨.refuse lit, hfits, fun h same => hstep h (hsame same)⟩
  | stop lit length => exact ⟨.stop lit length, hfits, fun h same => hstep h (hsame same)⟩
  | go lit length how entry =>
    obtain ⟨hrun, goes⟩ := hfits
    have hle := literalRun_le hrun
    obtain ⟨rest, hrest, hchosen, hgo⟩ := exists_matchPass source (source ip).toNat entry
      goes.more (fun heq => (goes.shortcut heq).2) fun heq => (goes.fast heq).2
    refine ⟨.sequence lit length how entry _ rest, ⟨⟨hrun, goes⟩, rfl, hrest, hchosen⟩,
      fun h same => ?_⟩
    rw [hstep h (hsame same)]
    refine hgo _ fun a hlow hhigh => ?_
    -- the literals do not touch the input
    rw [LiteralCopy.frame goes.fits (by rcases separate with hsep | hsep <;> omega), loadTo_mem]
    exact same a (by omega) hhigh

end Separate

end Lz4.Decoder
