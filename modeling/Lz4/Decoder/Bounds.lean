import Lz4.Decoder.Pass

/-!
# Every access of the decoder stays in its buffers

The copy helpers write up to 8, 16, 18 or 32 bytes at a time and overshoot.
What keeps them inside the output is a set of margins tested elsewhere: the
fast loop is only entered 64 bytes before the end, literals are copied in words
only 12 (output) and 8 (input) bytes before the ends, and a match that gets
closer than 12 bytes to the end finishes byte by byte.

## Strategy

`At` is the invariant at the top of both loops, `Next.Safe` says that a pass
ends in it (further into the input) or returns, in either case with all
accesses in bounds.  There is one lemma for each way to copy literals and matches;
each states the margin it is chosen with.  The input position grows in every pass, so
the fuel of `decompressGeneric` suffices and the call returns.
-/

namespace Lz4.Decoder

open FlatMemory

/-- What the callers of `LZ4_decompress_generic` guarantee about its arguments:
the prefix precedes the output, there is no dictionary unless one is announced,
and `withPrefix64k` comes with its 64 KB. -/
structure Env.Placed (e : Env) : Prop where
  lowPrefix_le : e.lowPrefix ≤ e.dst
  dst_le : e.dst ≤ e.oend
  dictSize_eq : e.dict ≠ .usingExtDict → e.dictSize = 0
  prefix64k : e.dict = .withPrefix64k → e.lowPrefix = e.dst - 65536

/-- The first byte of the prefix that may be read.  `withPrefix64k` is also used
for prefixes of 65535 bytes, which is as far as an offset reaches. -/
def Env.historyLow (e : Env) : Int :=
  if e.dict = .withPrefix64k then e.dst - 65535 else e.lowPrefix

/-- The bytes each port may touch. -/
def InBounds (e : Env) (a : Access) : Prop :=
  match a.port with
  | .input => e.src ≤ a.lo ∧ a.lo + a.len ≤ e.iend
  | .window => (e.historyLow ≤ a.lo ∧ a.lo + a.len ≤ e.oend) ∨
      (e.dict = .usingExtDict ∧ e.dictEnd - e.dictSize ≤ a.lo ∧ a.lo + a.len ≤ e.dictEnd)
  | .output => e.dst ≤ a.lo ∧ a.lo + a.len ≤ e.oend

variable {e : Env} {a : Int} {n : Nat}

theorem inBounds_input (hlow : e.src ≤ a) (hhigh : a + n ≤ e.iend) :
    InBounds e ⟨.input, a, n⟩ := ⟨hlow, hhigh⟩

theorem inBounds_output (hlow : e.dst ≤ a) (hhigh : a + n ≤ e.oend) : InBounds e ⟨.output, a, n⟩ :=
    ⟨hlow, hhigh⟩

theorem inBounds_window (hlow : e.historyLow ≤ a) (hhigh : a + n ≤ e.oend) :
    InBounds e ⟨.window, a, n⟩ := Or.inl ⟨hlow, hhigh⟩

theorem inBounds_dictionary (hdict : e.dict = .usingExtDict) (hlow : e.dictEnd - e.dictSize ≤ a)
    (hhigh : a + n ≤ e.dictEnd) : InBounds e ⟨.window, a, n⟩ := Or.inr ⟨hdict, hlow, hhigh⟩

theorem inBounds_downward (e : Env) : Downward (InBounds e) := by
  intro port lo lo' len len' hlow hhigh hin
  cases port with
  | input =>
    simp only [InBounds] at hin ⊢
    omega
  | window =>
    simp only [InBounds] at hin ⊢
    rcases hin with ⟨h1, h2⟩ | ⟨hdict, h1, h2⟩
    · exact Or.inl ⟨by omega, by omega⟩
    · exact Or.inr ⟨hdict, by omega, by omega⟩
  | output =>
    simp only [InBounds] at hin ⊢
    omega

/-! ## The invariant of the two loops -/

/-- The state at the top of a loop: input is left, the output position is in the
buffer, and 64 bytes before its end in the fast loop. -/
structure At (e : Env) (m₀ : Mem) (fast : Bool) (h : Heap) (ip op : Int) : Prop where
  logged : h.Logged (InBounds e) m₀
  src_le : e.src ≤ ip
  lt_iend : ip < e.iend
  dst_le : e.dst ≤ op
  le_oend : op ≤ e.oend
  fast_le : fast = true → op ≤ e.oend - 64

/-- A pass that was entered at `ip₀` ends safely. -/
def Next.Safe (e : Env) (m₀ : Mem) (ip₀ : Int) : Next → Prop :=
  Next.Ends (At e m₀) (fun _ h => h.Logged (InBounds e) m₀) ip₀

/-! ## Matches -/

section Match

variable {e : Env} {m₀ : Mem} {h : Heap} {ip₀ ip op : Int} {offset length : Nat}

/-- An offset that passed the test of both loops, or could not fail it, stays in
the history. -/
theorem match_reaches (placed : e.Placed) (hdst : e.dst ≤ op) (hoffset : offset < 65536)
    (hcheck : ¬ (e.checkOffset ∧ op - offset + e.dictSize < e.lowPrefix)) :
    e.lowPrefix - e.dictSize ≤ op - offset := by
  have := placed.lowPrefix_le
  unfold Env.checkOffset at hcheck
  omega

/-- A match that does not start in an external dictionary starts in the prefix
or in the output. -/
theorem historyLow_le (placed : e.Placed) (hdst : e.dst ≤ op) (hoffset : offset < 65536)
    (hreach : e.lowPrefix - e.dictSize ≤ op - offset)
    (hext : ¬ (e.dict = .usingExtDict ∧ op - offset < e.lowPrefix)) :
    e.historyLow ≤ op - offset := by
  unfold Env.historyLow
  split
  · omega
  · by_cases hdict : e.dict = .usingExtDict
    · simp only [hdict, true_and] at hext
      omega
    · have := placed.dictSize_eq hdict
      omega

/-- The shortcuts of both loops skip the test of the offset when it cannot fail. -/
theorem historyLow_le_of_shortcut (hdst : e.dst ≤ op) (hoffset : offset < 65536)
    (hshort : e.dict = .withPrefix64k ∨ op - offset ≥ e.lowPrefix) :
    e.historyLow ≤ op - offset := by
  unfold Env.historyLow
  split
  · omega
  · rename_i hdict
    rcases hshort with h64k | hlow
    · exact absurd h64k hdict
    · exact hlow

theorem extDictMatch_safe (fast : Bool) (hlog : h.Logged (InBounds e) m₀)
    (hip : ip₀ < ip) (hsrc : e.src ≤ ip) (hiend : ip < e.iend) (hdst : e.dst ≤ op)
    (hoend : op ≤ e.oend) (hfast : fast = true → op + length < e.oend - 64)
    (hdict : e.dict = .usingExtDict) (hmatch : op - offset < e.lowPrefix)
    (hreach : e.lowPrefix - e.dictSize ≤ op - offset) :
    (extDictMatch e fast h ip op offset length).Safe e m₀ ip₀ := by
  have hlow : e.historyLow = e.lowPrefix := by simp [Env.historyLow, hdict]
  unfold extDictMatch
  dsimp only
  split
  · exact hlog
  · rename_i hfits
    -- the length after clipping to the end of the output
    set n := (if op + (length : Int) > e.oend - 5 then min length (e.oend - op).toNat else length)
      with hn
    have hnle : n ≤ length ∧ op + n ≤ e.oend := by
      rw [hn]
      split <;> omega
    have hdown := inBounds_downward e
    have hcopied : ∀ k : Nat, k ≤ (e.lowPrefix - (op - offset)).toNat → k ≤ n →
        (h.memcpy .window op (e.dictEnd - (e.lowPrefix - (op - offset))) k).Logged
          (InBounds e) m₀ := by
      intro k hk hkn
      exact Heap.logged_memcpy (inBounds_output (by omega) (by omega)) (inBounds_dictionary hdict (by omega) (by omega)) hlog
    split
    · rename_i hinside
      refine ⟨⟨hcopied n hinside (Nat.le_refl n), hsrc, hiend, by omega, by omega, ?_⟩, hip⟩
      intro hf
      have := hfast hf
      omega
    · have hsize : ((e.lowPrefix - (op - offset)).toNat : Int) = e.lowPrefix - (op - offset) := by
        omega
      refine ⟨⟨?_, hsrc, hiend, by omega, by omega, ?_⟩, hip⟩
      · have hread : InBounds e
            ⟨.window, e.lowPrefix, n - (e.lowPrefix - (op - offset)).toNat⟩ :=
          inBounds_window (by omega) (by omega)
        have hwrite : InBounds e ⟨.output, op + (e.lowPrefix - (op - offset)).toNat,
            n - (e.lowPrefix - (op - offset)).toNat⟩ :=
          inBounds_output (by omega) (by omega)
        have hfirst := hcopied (e.lowPrefix - (op - offset)).toNat (Nat.le_refl _) (by omega)
        rw [← hsize] at hfirst
        split
        · exact byteCopy_logged hdown hfirst hread hwrite
        · exact Heap.logged_memcpy hwrite hread hfirst
      · intro hf
        have := hfast hf
        omega

/-- Inside the current block, with the 8 bytes that `copyFirst8` writes in any case. -/
theorem safePrefixCopy_logged (hlog : h.Logged (InBounds e) m₀) (hdst : e.dst ≤ op)
    (hlength : 4 ≤ length) (hend : op + length ≤ e.oend - 5)
    (hlow : e.historyLow ≤ op - offset) :
    (safePrefixCopy e h op offset length).Logged (InBounds e) m₀ := by
  have hdown := inBounds_downward e
  obtain ⟨_, _, _, _, hfar⟩ := copyFirst8_snd h op offset
  have hnear := le_copyFirst8_snd h op offset
  have hfirst : (copyFirst8 h op (op - offset) offset).1.Logged (InBounds e) m₀ :=
    copyFirst8_logged hdown hlog (inBounds_window hlow (by omega))
      (inBounds_output hdst (by omega))
  unfold safePrefixCopy
  dsimp only
  set h₁ := (copyFirst8 h op (op - offset) offset).1
  set mtch := (copyFirst8 h op (op - offset) offset).2
  split
  · split
    · refine byteCopy_logged hdown ?_ (inBounds_window (by omega) (by omega))
        (inBounds_output (by omega) (by omega))
      exact wildCopy8_logged (n := (e.oend - (op + 8)).toNat) hdown (by omega) hfirst
        (inBounds_window (by omega) (by omega)) (inBounds_output (by omega) (by omega))
    · exact byteCopy_logged hdown hfirst (inBounds_window (by omega) (by omega))
        (inBounds_output (by omega) (by omega))
  · have hsecond : (h₁.memcpy .window (op + 8) mtch 8).Logged (InBounds e) m₀ := by
      exact Heap.logged_memcpy (inBounds_output (by omega) (by omega)) (inBounds_window (by omega) (by omega)) hfirst
    split
    · exact wildCopy8_logged (n := (e.oend - (op + 16)).toNat) hdown (by omega) hsecond
        (inBounds_window (by omega) (by omega)) (inBounds_output (by omega) (by omega))
    · exact hsecond

/-- Without partial decoding the label is reached at least 12 bytes before the end
of the output. -/
theorem safeMatchCopy_safe (placed : e.Placed) (hlog : h.Logged (InBounds e) m₀) (hip : ip₀ < ip)
    (hsrc : e.src ≤ ip) (hiend : ip < e.iend) (hdst : e.dst ≤ op) (hoend : op ≤ e.oend)
    (hfull : e.partialDecoding = false → op ≤ e.oend - 12) (hoffset : offset < 65536)
    (hlength : 4 ≤ length) : (safeMatchCopy e h ip op offset length).Safe e m₀ ip₀ := by
  have hdown := inBounds_downward e
  unfold safeMatchCopy
  dsimp only
  split
  · exact hlog
  · rename_i hcheck
    have hreach := match_reaches placed hdst hoffset hcheck
    split
    · rename_i hext
      exact extDictMatch_safe false hlog hip hsrc hiend hdst hoend (by simp) hext.1 hext.2
        hreach
    · rename_i hext
      have hlow := historyLow_le placed hdst hoffset hreach hext
      split
      · -- partial decoding, close to the end of the output
        have hread : InBounds e ⟨.window, op - offset, min length (e.oend - op).toNat⟩ :=
          inBounds_window hlow (by omega)
        have hwrite : InBounds e ⟨.output, op, min length (e.oend - op).toNat⟩ :=
          inBounds_output hdst (by omega)
        have hcopied : (if op - offset + (min length (e.oend - op).toNat : Nat) > op then
            byteCopy .window h op (op - offset) (min length (e.oend - op).toNat)
            else h.memcpy .window op (op - offset) (min length (e.oend - op).toNat)).Logged
              (InBounds e) m₀ := by
          split
          · exact byteCopy_logged hdown hlog hread hwrite
          · exact Heap.logged_memcpy hwrite hread hlog
        split
        · exact hcopied
        · exact ⟨⟨hcopied, hsrc, hiend, by omega, by omega, by simp⟩, hip⟩
      · rename_i hnear
        have hroom : op + 8 ≤ e.oend := by
          cases hpart : e.partialDecoding with
          | false =>
            have := hfull hpart
            omega
          | true =>
            simp only [hpart, true_and] at hnear
            omega
        split
        · exact copyFirst8_logged hdown hlog (inBounds_window hlow (by omega))
            (inBounds_output hdst hroom)
        · refine ⟨⟨safePrefixCopy_logged hlog hdst hlength (by omega) hlow, hsrc, hiend, by omega,
            by omega, by simp⟩, hip⟩

/-- The three moves of both shortcuts. -/
theorem eighteen_logged (hlog : h.Logged (InBounds e) m₀) (hdst : e.dst ≤ op)
    (hoend : op + 18 ≤ e.oend) (hlow : e.historyLow ≤ op - offset) :
    (((h.memcpy .window op (op - offset) 8).memcpy .window (op + 8) (op - offset + 8) 8).memcpy
      .window (op + 16) (op - offset + 16) 2).Logged (InBounds e) m₀ := by
  refine Heap.logged_memcpy (inBounds_output ?_ ?_) (inBounds_window ?_ ?_)
    (Heap.logged_memcpy (inBounds_output ?_ ?_) (inBounds_window ?_ ?_)
      (Heap.logged_memcpy (inBounds_output ?_ ?_) (inBounds_window ?_ ?_) hlog))
  all_goals omega

theorem fastMatchCopy_safe (placed : e.Placed) (hlog : h.Logged (InBounds e) m₀) (hip : ip₀ < ip)
    (hsrc : e.src ≤ ip) (hiend : ip < e.iend) (hdst : e.dst ≤ op)
    (hoend : op + length < e.oend - 64) (hoffset : offset < 65536) :
    (fastMatchCopy e h ip op offset length).Safe e m₀ ip₀ := by
  have hdown := inBounds_downward e
  unfold fastMatchCopy
  dsimp only
  split
  · exact hlog
  · rename_i hcheck
    have hreach := match_reaches placed hdst hoffset hcheck
    split
    · rename_i hext
      exact extDictMatch_safe true hlog hip hsrc hiend hdst (by omega) (fun _ => hoend)
        hext.1 hext.2 hreach
    · rename_i hext
      have hlow := historyLow_le placed hdst hoffset hreach hext
      refine ⟨⟨?_, hsrc, hiend, by omega, by omega, fun _ => by omega⟩, hip⟩
      have hend := wildEnd32_le op (op + length)
      split
      · exact memcpyUsingOffset_logged (n := length + 16) hdown (by omega) hlog
          (inBounds_window hlow (by omega)) (inBounds_output hdst (by omega))
      · exact wildCopy32_logged (n := length + 32) hdown (by omega) hlog
          (inBounds_window hlow (by omega)) (inBounds_output hdst (by omega))

theorem MatchCopy.safe {how : MatchCopy} (placed : e.Placed) (hlog : h.Logged (InBounds e) m₀)
    (hip : ip₀ < ip) (hsrc : e.src ≤ ip) (hiend : ip < e.iend) (hdst : e.dst ≤ op)
    (hoend : op ≤ e.oend) (hfull : e.partialDecoding = false → op ≤ e.oend - 12)
    (hoffset : offset < 65536) (hlength : 4 ≤ length) (hfits : how.Fits e op offset length) :
    (how.run e h ip op offset length).Safe e m₀ ip₀ := by
  cases how with
  | eighteen fast =>
    obtain ⟨-, hsize, hroom, hplace, hfast⟩ := hfits
    refine ⟨⟨eighteen_logged hlog hdst hroom (historyLow_le_of_shortcut hdst hoffset hplace), hsrc,
      hiend, by omega, by omega, fun hf => ?_⟩, hip⟩
    have := hfast hf
    omega
  | safeCopy => exact safeMatchCopy_safe placed hlog hip hsrc hiend hdst hoend hfull hoffset hlength
  | fastCopy => exact fastMatchCopy_safe placed hlog hip hsrc hiend hdst hfits hoffset

end Match

/-! ## Literals and the two loops -/

variable {fast : Bool}

section Loops

variable {e : Env} {m₀ : Mem} {h : Heap} {ip op : Int}

theorem loadTo_logged (hlog : h.Logged (InBounds e) m₀) (hsrc : e.src ≤ ip) {ip' : Int}
    (hiend : ip' ≤ e.iend) : (loadTo h ip ip').Logged (InBounds e) m₀ := by
  unfold loadTo
  split
  · exact Heap.logged_load (inBounds_input hsrc (by omega)) hlog
  · exact hlog

theorem LiteralCopy.logged {how : LiteralCopy} {lit : Int} {length : Nat}
    (hlog : h.Logged (InBounds e) m₀) (hsrc : e.src ≤ lit) (hiend : lit + length ≤ e.iend)
    (hdst : e.dst ≤ op) (hfits : how.Fits e op lit length) :
    (how.run h op lit length).Logged (InBounds e) m₀ := by
  have hdown := inBounds_downward e
  cases how with
  | stripe =>
    obtain ⟨-, hinput, houtput⟩ := hfits
    exact Heap.logged_memcpy (inBounds_output hdst houtput) (inBounds_input hsrc hinput) hlog
  | wild8 =>
    obtain ⟨hinput, houtput⟩ := hfits
    exact wildCopy8_logged (n := length + 8) hdown (by omega) hlog
      (inBounds_input hsrc (by omega)) (inBounds_output hdst (by omega))
  | wild32 =>
    obtain ⟨-, hinput, houtput⟩ := hfits
    have hend := wildEnd32_le op (op + length)
    exact wildCopy32_logged (n := length + 32) hdown (by omega) hlog
      (inBounds_input hsrc (by omega)) (inBounds_output hdst (by omega))
  | exact => exact Heap.logged_memcpy (inBounds_output hdst hfits) (inBounds_input hsrc hiend) hlog

theorem step_safe (placed : e.Placed) (at_ : At e m₀ fast h ip op) :
    (step e fast h ip op).Safe e m₀ ip := by
  obtain ⟨hlog, hsrc, hiend, hdst, hoend, hfast⟩ := at_
  obtain ⟨pass, hfits, hstep⟩ := exists_literalPass h.mem hiend hoend hfast
  have htoken : (h.load .input ip 1).Logged (InBounds e) m₀ :=
    Heap.logged_load (inBounds_input hsrc (by omega)) hlog
  rw [hstep h fun _ _ _ => rfl]
  cases pass with
  | fail ip' =>
    obtain ⟨-, hlow, hhigh⟩ := hfits
    exact Heap.logged_load (inBounds_input (by omega) (by omega)) htoken
  | refuse lit =>
    obtain ⟨length, hrun, -⟩ := hfits
    have hle := literalRun_le hrun
    exact loadTo_logged htoken (by omega) (by omega)
  | stop lit length =>
    obtain ⟨full, hrun, -, stops, -⟩ := hfits
    have hle := literalRun_le hrun
    have hlength := stops.length_eq
    exact Heap.logged_memcpy (inBounds_output hdst (by omega))
      (inBounds_input (by omega) (by omega)) (loadTo_logged htoken (by omega) (by omega))
  | go lit length how entry =>
    obtain ⟨hrun, goes⟩ := hfits
    have hle := literalRun_le hrun
    have hmore := goes.more
    have hroom := goes.room
    have hliterals := LiteralCopy.logged (loadTo_logged htoken (show e.src ≤ ip + 1 by omega)
      (show lit ≤ e.iend by omega)) (by omega) (by omega) hdst goes.fits
    dsimp only [LiteralPass.run]
    generalize how.run _ op lit length = h₁ at *
    obtain ⟨rest, hrest, hchosen, hgo⟩ := exists_matchPass h₁.mem (h.mem ip).toNat entry hmore
      (fun heq => (goes.shortcut heq).2) fun heq => (goes.fast heq).2
    rw [hgo h₁ fun _ _ _ => rfl]
    have hoffset : (h₁.load .input (lit + length) 2).Logged (InBounds e) m₀ :=
      Heap.logged_load (inBounds_input (by omega) (by omega)) hliterals
    cases rest with
    | fail ip' =>
      obtain ⟨-, hhigh⟩ := hchosen
      exact Heap.logged_load (inBounds_input (by omega) (by omega)) hoffset
    | copy how' length' ip' =>
      obtain ⟨hmatch, hfits⟩ := hrest
      obtain ⟨hfour, hlow, hlong, hshort⟩ := matchRun_le hmatch
      have hhigh : ip' < e.iend := by omega
      exact MatchCopy.safe placed (loadTo_logged hoffset (by omega) (by omega)) (by omega)
        (by omega) hhigh (by omega) (by omega) (fun hfull => (goes.full hfull).1)
        (readLE16_lt _ _) hfour hfits

end Loops

/-! ## Whole calls -/

/-- From the top of a loop the decoder returns, with all accesses in bounds. -/
theorem run_safe (placed : e.Placed) {h : Heap} {ip op : Int} (at_ : At e m₀ fast h ip op)
    {fuel : Nat} (hfuel : e.iend - ip ≤ fuel) :
    ∃ r h', run e fuel (.loop fast h ip op) = some (r, h') ∧ h'.Logged (InBounds e) m₀ :=
  run_ends (fun at_ => at_.lt_iend) (fun at_ => step_safe placed at_) at_ hfuel

/-- The state in which a call with room for output and with input enters its loops. -/
theorem at_start {m : Mem} {src dst : Int} {srcSize : Nat} {outputSize : Int}
    {partialDecoding : Bool} {dict : DictDirective} {lowPrefix dictStart : Int} {dictSize : Nat}
    {fastDecLoop : Bool}
    (he : e = callEnv src dst srcSize outputSize partialDecoding dict lowPrefix dictStart dictSize)
    (hout : 0 ≤ outputSize) (hin : 0 < srcSize) :
    At e m (entersFastLoop fastDecLoop e) ⟨m, []⟩ src dst := by
  subst he
  refine ⟨⟨by simp, fun _ _ => rfl⟩, Int.le_refl src, ?_, Int.le_refl dst, ?_, ?_⟩
  · show src < src + srcSize
    omega
  · show dst ≤ dst + outputSize
    omega
  · intro hfast
    simp only [entersFastLoop, callEnv, Bool.and_eq_true, Bool.not_eq_true'] at hfast
    have hlarge := of_decide_eq_false hfast.2
    show dst ≤ dst + outputSize - 64
    omega

end Lz4.Decoder

namespace Lz4

open FlatMemory Decoder

/-- Whatever the input, `LZ4_decompress_generic` returns, and its accesses and writes
stay in bounds. -/
theorem decompressGeneric_logged (fastDecLoop : Bool) (m : Mem) (src dst : Int) (srcSize : Nat)
    (outputSize : Int) (partialDecoding : Bool) (dict : DictDirective) (lowPrefix dictStart : Int)
    (dictSize : Nat) (hlowPrefix : lowPrefix ≤ dst)
    (hnodict : dict ≠ .usingExtDict → dictSize = 0)
    (hprefix64k : dict = .withPrefix64k → lowPrefix = dst - 65536) :
    ∃ r h', decompressGeneric fastDecLoop ⟨m, []⟩ src dst srcSize outputSize partialDecoding dict
        lowPrefix dictStart dictSize = some (r, h') ∧
      h'.Logged (InBounds (callEnv src dst srcSize outputSize partialDecoding dict lowPrefix
        dictStart dictSize)) m := by
  set e := callEnv src dst srcSize outputSize partialDecoding dict lowPrefix dictStart dictSize
    with he
  have hiend : e.iend = src + srcSize := rfl
  have hoend : e.oend = dst + outputSize := rfl
  have hdst : e.dst = dst := rfl
  have hsrc : e.src = src := rfl
  have hstart : Heap.Logged (InBounds e) m ⟨m, []⟩ := ⟨by simp, fun _ _ => rfl⟩
  unfold decompressGeneric
  split
  · exact ⟨_, _, rfl, hstart⟩
  split
  · split
    · exact ⟨_, _, rfl, hstart⟩
    · split
      · refine ⟨_, _, rfl, Heap.logged_load ?_ hstart⟩
        exact inBounds_input (by omega) (by omega)
      · exact ⟨_, _, rfl, hstart⟩
  split
  · exact ⟨_, _, rfl, hstart⟩
  have placed : e.Placed := ⟨hlowPrefix, by omega, hnodict, hprefix64k⟩
  have start : At e m (entersFastLoop fastDecLoop e) ⟨m, []⟩ src dst :=
    at_start he (by omega) (by omega)
  exact run_safe placed start (show e.iend - src ≤ (srcSize : Int) by omega)

/-- The memory around the output buffer is left alone. -/
theorem frame_of_logged {m : Mem} {e : Env} {h' : Heap} (hlog : h'.Logged (InBounds e) m) {a : Int}
    (ha : a < e.dst ∨ e.oend ≤ a) : h'.mem a = m a := by
  refine hlog.2 a fun lo len hin => ?_
  obtain ⟨hlow, hhigh⟩ : e.dst ≤ lo ∧ lo + len ≤ e.oend := hin
  omega

end Lz4
