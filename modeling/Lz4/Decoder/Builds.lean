import Lz4.Decoder.Passes

/-!
# The two builds of the decoder

`LZ4_decompress_generic` is built with or without its fast loop.  The loops have different
thresholds and different ways to copy, but both do one sequence in a pass, and what a pass does
is decided by the input: `event` and `sequenceVerdict` are this decision, for full and for partial
decoding and for any input.  Every pass of either loop carries it out (`At.carried`), so that the
builds go through the same positions and return the same.

They also write the same bytes, with one exception.  In partial decoding a match that ends in the
last 12 bytes of the output is copied byte by byte, and with offset 0 this leaves the bytes as
they are (`SelfCopied`).  They may then hold what earlier copies have written behind their end,
and in that the loops differ.
-/

namespace Lz4.Decoder

open FlatMemory

/-! ## What the input asks for -/

/-- What becomes of literals: the input is refused, they end the call, or a match follows. -/
inductive LiteralVerdict
  | refuse
  | stop (length : Nat)
  | go
  deriving DecidableEq

def literalVerdict (e : Env) (field : Nat) (lit op : Int) (length : Nat) : LiteralVerdict :=
  if field ≠ 15 ∧ lit < e.iend - 16 ∧ op ≤ e.oend - 32 then .go
  else if op + length ≤ e.oend - 12 ∧ lit + length ≤ e.iend - 8 then .go
  else if e.partialDecoding then
    let length := min (min length (e.iend - lit).toNat) (e.oend - op).toNat
    if op + length = e.oend ∨ e.iend - 2 ≤ lit + length then .stop length else .go
  else if lit + length ≠ e.iend ∨ op + length > e.oend then .refuse
  else .stop length

/-- What a pass has to do.  A sequence is `short` if the safe loop takes its shortcut, which
serves a match without asking where it ends. -/
inductive Event
  | error (position : Int)
  | finish (lit : Int) (length : Nat)
  | sequence (lit : Int) (length offset matchLength : Nat) (next : Int) (short : Bool)
  deriving DecidableEq

/-- The safe loop takes its shortcut, for the literals and as far as the lengths go also for the
match. -/
def isShort (e : Env) (token : Nat) (lit op : Int) : Bool :=
  decide ((token / 16 ≠ 15 ∧ lit < e.iend - 16 ∧ op ≤ e.oend - 32) ∧ token % 16 ≠ 15)

def sequenceEvent (e : Env) (source : Mem) (token : Nat) (lit op : Int) (length : Nat) : Event :=
  match matchLength e source (token % 16) (lit + length + 2) with
  | (none, ip') => .error ip'
  | (some matchLength, ip') =>
    .sequence lit length (readLE16 source (lit + length)) matchLength ip'
      (isShort e token lit op)

def literalEvent (e : Env) (source : Mem) (token : Nat) (lit op : Int) (length : Nat) : Event :=
  match literalVerdict e (token / 16) lit op length with
  | .refuse => .error lit
  | .stop length => .finish lit length
  | .go => sequenceEvent e source token lit op length

def event (e : Env) (source : Mem) (ip op : Int) : Event :=
  match literalLength e source ip with
  | (none, ip') => .error ip'
  | (some length, lit) => literalEvent e source (source ip).toNat lit op length

/-! ## Passes -/

variable {length token : Nat} {fast : Bool} {how : LiteralCopy} {lit ip' : Int} {entry : Entry}

section Pass

variable {e : Env} {source : Mem} {h : Heap} {ip op : Int}

/-- Literals were copied; the copy may have gone on behind them, but not behind the output. -/
def LiteralsWritten (e : Env) (m m' : Mem) (op lit : Int) (length : Nat) : Prop :=
  ∃ limit, limit ≤ e.oend ∧ LiteralsCopied m m' op lit length limit

/-- A pass has carried out an event. -/
def Carried (e : Env) (m : Mem) (op : Int) (next : Next) : Event → Prop
  | .error position => ∃ h', next = outputError e h' position
  | .finish lit length => op + length ≤ e.oend ∧ ∃ h', next = .ret (op + length - e.dst) h' ∧
      LiteralsWritten e m h'.mem op lit length
  | .sequence lit length offset matchLength ip' short => op + length ≤ e.oend ∧
      lit + length + 2 < e.iend ∧ 4 ≤ matchLength ∧ ∃ h' : Heap, LiteralsWritten e m h'.mem op lit length ∧
        MatchCarried e true h'.mem ip' (op + length) offset matchLength next
          (sequenceVerdict e short (op + length) offset matchLength)

theorem literalVerdict_near (near : Near e token lit op length) :
    literalVerdict e (token / 16) lit op length =
      if e.partialDecoding then
        let length := min (min length (e.iend - lit).toNat) (e.oend - op).toNat
        if op + length = e.oend ∨ e.iend - 2 ≤ lit + length then .stop length else .go
      else if lit + length ≠ e.iend ∨ op + length > e.oend then .refuse
      else .stop length := by
  obtain ⟨hlong, hnear⟩ := near
  unfold Shortcut at hlong
  unfold literalVerdict
  rw [if_neg hlong, if_neg (by omega)]

/-- Literals that are followed by a match, in whichever loop. -/
theorem Goes.literalVerdict_eq (goes : Goes e fast token lit op length how entry) :
    literalVerdict e (token / 16) lit op length = .go := by
  have hmore := goes.more
  have hroom := goes.room
  unfold literalVerdict
  by_cases hshort : token / 16 ≠ 15 ∧ lit < e.iend - 16 ∧ op ≤ e.oend - 32
  · exact if_pos hshort
  rw [if_neg hshort]
  by_cases hfar : op + (length : Int) ≤ e.oend - 12 ∧ lit + (length : Int) ≤ e.iend - 8
  · exact if_pos hfar
  have hearly : e.partialDecoding = true := by
    by_contra hfull
    obtain ⟨hend, hne⟩ := goes.full (by simpa using hfull)
    have hfits := goes.fits
    cases how with
    | stripe => exact hshort (goes.stripe rfl)
    | wild8 => exact hfar ⟨hend, hfits.1⟩
    | wild32 => exact hfar ⟨hend, by have := hfits.2.1; omega⟩
    | exact => exact hne rfl
  rw [if_neg hfar, if_pos hearly]
  rw [if_neg (by omega)]

theorem matchLength_of_run {field : Nat} (hrun : matchRun e source field ip = some (length, ip')) :
    matchLength e source field ip = (some length, ip') := by
  unfold matchRun at hrun
  unfold matchLength
  split at hrun
  · split at hrun
    · simp at hrun
    · simp_all
  · simp_all

/-- The copy that a pass chooses for a match serves it as the shortcut of the safe loop would. -/
theorem sequenceVerdict_chosen (placed : e.Placed) {offset k : Nat} {copy : MatchCopy}
    (hdst : e.dst ≤ op) (hoffset : offset < 65536)
    (goes : Goes e fast token lit op length how entry)
    (hrun : matchRun e source (token % 16) (lit + length + 2) = some (k, ip'))
    (hfits : copy.Fits e (op + length) offset k)
    (hchosen : copy.Chosen e entry (token % 16) (op + length) offset k) :
    sequenceVerdict e (isShort e token lit op) (op + length) offset k =
      sequenceVerdict e copy.short (op + length) offset k := by
  obtain ⟨hfour, -, hlong, hplain⟩ := matchRun_le hrun
  have hfar (hfield : token % 16 ≠ 15) (served : Served e (op + length) offset)
      (hfast : entry = .fast) :
      some (k, false) = matchVerdict e (op + length) offset k := by
    have hroom := (goes.fast hfast).2
    exact (matchVerdict_inside (served.lowPrefix_le placed (by omega) hoffset) (by omega)).symm
  unfold sequenceVerdict
  by_cases hboth : isShort e token lit op = true ∧ Served e (op + length) offset
  · obtain ⟨hshort, hfield⟩ := of_decide_eq_true hboth.1
    rw [if_pos hboth]
    cases copy with
    | eighteen fast' =>
      cases fast' with
      | false => exact (if_pos ⟨rfl, hboth.2⟩).symm
      | true => exact (hfar hfield hboth.2 hchosen).trans (if_neg (by simp [MatchCopy.short])).symm
    | safeCopy =>
      refine Eq.trans ?_ (if_neg (by simp [MatchCopy.short])).symm
      cases entry with
      | offset => exact absurd hshort (goes.offset rfl)
      | shortcut => exact absurd hboth.2 (hchosen.1 rfl hfield)
      | fast => exact hfar hfield hboth.2 rfl
    | fastCopy =>
      exact (hfar hfield hboth.2 hchosen.1).trans (if_neg (by simp [MatchCopy.short])).symm
  · rw [if_neg hboth]
    refine (if_neg fun hall => hboth ⟨?_, hall.2⟩).symm
    cases copy with
    | eighteen fast' =>
      obtain rfl : fast' = false := by simpa [MatchCopy.short] using hall.1
      obtain ⟨-, hsize, -⟩ := hfits
      exact decide_eq_true ⟨(goes.shortcut hchosen).1, fun hfield => by
        omega⟩
    | safeCopy => exact absurd hall.1 (by simp [MatchCopy.short])
    | fastCopy => exact absurd hall.1 (by simp [MatchCopy.short])

/-- A pass of either loop carries out what the input asks for. -/
theorem At.carried {m : Mem} (placed : e.Placed) (separate : e.Separate) (at_ : At e m fast h ip op)
    :
    Carried e h.mem op (step e fast h ip op) (event e m ip op) := by
  have hsame := at_.same separate
  obtain ⟨-, hsrc, hiend, hdst, hoend, hfast⟩ := at_
  obtain ⟨pass, hfits, hstep⟩ := exists_pass m separate hsrc hiend hdst hoend hfast
  rw [hstep h hsame]
  unfold event
  cases pass with
  | fail ip' =>
    rw [hfits.1]
    exact ⟨_, rfl⟩
  | refuse lit =>
    obtain ⟨length, hrun, near, hfull, hbad⟩ := hfits
    rw [literalLength_of_run hrun]
    dsimp only [literalEvent]
    rw [literalVerdict_near near, if_neg (by simp [hfull]), if_pos hbad]
    exact ⟨_, rfl⟩
  | stop lit length =>
    obtain ⟨full, hrun, near, ⟨hlength, hends⟩, hwhole⟩ := hfits
    have hverdict : literalVerdict e ((m ip).toNat / 16) lit op full = .stop length := by
      rw [literalVerdict_near near]
      cases hearly : e.partialDecoding with
      | true =>
        rw [if_pos rfl, ← hlength]
        exact if_pos hends
      | false =>
        obtain ⟨rfl, hlast⟩ := hwhole hearly
        rw [if_neg Bool.false_ne_true, if_neg (by omega)]
    rw [literalLength_of_run hrun]
    dsimp only [literalEvent]
    rw [hverdict]
    refine ⟨by omega, _, rfl, op + length, by omega, ?_⟩
    have copied := literalsCopied_memcpy (loadTo (h.load .input ip 1) (ip + 1) lit) op lit
      (Nat.le_refl length)
    rwa [loadTo_mem] at copied
  | sequence lit length how entry offset rest =>
    obtain ⟨⟨hrun, goes⟩, hoffset, hrest, hchosen⟩ := hfits
    have hle := literalRun_le hrun
    have hroom := goes.room
    have hlt : offset < 65536 := hoffset ▸ readLE16_lt m (lit + length)
    rw [literalLength_of_run hrun]
    dsimp only [literalEvent]
    rw [goes.literalVerdict_eq]
    dsimp only [sequenceEvent]
    cases rest with
    | fail ip' =>
      rw [hchosen.1]
      exact ⟨_, rfl⟩
    | copy copy k ip' =>
      obtain ⟨hmatch, hfits⟩ := hrest
      obtain ⟨limit, copied, hlimit, -⟩ := LiteralCopy.copied
        (loadTo (h.load .input ip 1) (ip + 1) lit) (Or.inl separate) (by omega) hdst goes.fits
      rw [loadTo_mem] at copied
      rw [matchLength_of_run hmatch, ← hoffset]
      refine ⟨by omega, goes.more, (matchRun_le hmatch).1,
        loadTo ((how.run (loadTo (h.load .input ip 1) (ip + 1) lit) op lit length).load .input
          (lit + length) 2) (lit + length + 2) ip', ⟨limit, hlimit, ?_⟩, ?_⟩
      · rw [loadTo_mem]
        exact copied
      · rw [sequenceVerdict_chosen placed hdst hlt goes hmatch hfits hchosen]
        exact MatchCopy.carried placed (by omega) (by omega) hlt (matchRun_le hmatch).1 hfits
          hchosen fun _ => rfl

end Pass

/-! ## Two runs -/

/-- Two memories agree below `hi` and behind the output. -/
def Agree (e : Env) (hi : Int) (m m' : Mem) : Prop :=
  ∀ a, a < hi ∨ e.oend ≤ a → m a = m' a

variable {stops : Bool} {a : Int}

section Agree

variable {e : Env} {m m' m₁ m₁' : Mem} {op lit : Int} {offset length n : Nat}

theorem Agree.literals (separate : e.Separate) (agree : Agree e op m m')
    (hsrc : e.src ≤ lit) (hiend : lit + length ≤ e.iend) (hdst : e.dst ≤ op)
    (written : LiteralsWritten e m m₁ op lit length)
    (written' : LiteralsWritten e m' m₁' op lit length) : Agree e (op + length) m₁ m₁' := by
  obtain ⟨limit, hlimit, copied⟩ := written
  obtain ⟨limit', hlimit', copied'⟩ := written'
  intro a ha
  by_cases hnew : op ≤ a ∧ a < op + length
  · rw [copied.copied a hnew.1 hnew.2, copied'.copied a hnew.1 hnew.2]
    exact agree _ (by rcases separate with hsep | hsep <;> omega)
  · rw [copied.frame a (by omega), copied'.frame a (by omega)]
    exact agree a (by omega)

theorem MatchWritten.frame (written : MatchWritten e true m m₁ op offset length n) (ha : a < op) :
    m₁ a = m a := by
  unfold MatchWritten at written
  split at written
  · rw [written]
  · obtain ⟨limit, done, -⟩ := written
    exact done.frame a (Or.inl ha)

theorem LiteralsWritten.frame (written : LiteralsWritten e m m₁ op lit length) (ha : a < op) :
    m₁ a = m a := by
  obtain ⟨limit, -, copied⟩ := written
  exact copied.frame a (Or.inl ha)

/-- A match that is not refused can reach no further than the dictionary. -/
theorem Granted.reach (granted : Granted e op offset length n stops) (placed : e.Placed)
    (hdst : e.dst ≤ op) (hoffset : offset < 65536) : e.lowPrefix - (op - offset) ≤ e.dictSize :=
  reach_of_check (Int.le_trans placed.lowPrefix_le hdst) hoffset granted.check

theorem Granted.le (granted : Granted e op offset length n stops) : n ≤ length := by
  rcases granted.length_eq with rfl | ⟨-, rfl⟩
  · exact Nat.le_refl n
  · exact Nat.min_le_left _ _

end Agree

/-- The positions a decoding passes through, in input and output. -/
inductive Reached (e : Env) (source : Mem) : Int → Int → Prop
  | start : Reached e source e.src e.dst
  | next {ip op lit ip' : Int} {length offset matchLength n : Nat} {short : Bool} :
      Reached e source ip op →
      event e source ip op = .sequence lit length offset matchLength ip' short →
      sequenceVerdict e short (op + length) offset matchLength = some (n, false) →
      Reached e source ip' (op + length + n)

/-- The byte at `a` belongs to a match that is copied to itself. -/
def SelfCopied (e : Env) (source : Mem) (a : Int) : Prop :=
  ∃ ip op lit ip' length offset matchLength short, Reached e source ip op ∧
    event e source ip op = .sequence lit length offset matchLength ip' short ∧
    SelfCopy e (op + length) offset matchLength ∧ op + length ≤ a ∧
    a < min (op + length + matchLength) e.oend

section Runs

variable {e : Env} {m : Mem} {fast fast' : Bool} {h h' hf hf' : Heap} {ip op r r' : Int} {fuel : Nat}

theorem literalLength_lt (m : Mem) (hiend : ip < e.iend) :
    ip < (literalLength e m ip).2 ∧ (literalLength e m ip).2 ≤ e.iend := by
  rcases literalRun_cases m hiend with ⟨-, hrun⟩ | ⟨-, ip', hnone, hlow, hhigh, -⟩ |
    ⟨-, addl, lit, hlow, hhigh, hrun, -⟩
  · rw [literalLength_of_run hrun]
    exact ⟨Int.lt_succ ip, hiend⟩
  · rw [hnone]
    exact ⟨hlow, hhigh⟩
  · rw [literalLength_of_run hrun]
    exact ⟨by omega, by omega⟩

theorem matchLength_le (m : Mem) (field : Nat) (ip : Int) : ip ≤ (matchLength e m field ip).2 := by
  have hsnd := readVariableLength_snd m ip (e.iend - 5 + 1) false
  unfold matchLength
  split
  · split
    · rename_i hread
      rw [hread] at hsnd
      exact hsnd.1
    · rename_i hread
      rw [hread] at hsnd
      exact hsnd.1
  · exact Int.le_refl ip

/-- An event concerns the input from `ip` on. -/
def Event.Ahead (e : Env) (ip : Int) : Event → Prop
  | .error position => ip < position
  | .finish lit length => ip < lit ∧ lit + length ≤ e.iend
  | .sequence lit length offset _ ip' _ => ip < lit ∧ lit + length + 2 ≤ ip' ∧ offset < 65536

theorem event_ahead (m : Mem) (op : Int) (hiend : ip < e.iend) :
    (event e m ip op).Ahead e ip := by
  obtain ⟨hlow, hhigh⟩ := literalLength_lt m hiend
  unfold event
  rcases hlength : literalLength e m ip with ⟨_ | length, lit⟩
  · rw [hlength] at hlow
    exact hlow
  · rw [hlength] at hlow hhigh
    dsimp only at hlow hhigh ⊢
    unfold literalEvent
    cases hverdict : literalVerdict e ((m ip).toNat / 16) lit op length with
    | refuse => exact hlow
    | stop k =>
      refine ⟨hlow, ?_⟩
      unfold literalVerdict at hverdict
      split at hverdict
      · simp at hverdict
      · split at hverdict
        · simp at hverdict
        · split at hverdict
          · dsimp only at hverdict
            split at hverdict
            · simp only [LiteralVerdict.stop.injEq] at hverdict
              omega
            · simp at hverdict
          · split at hverdict
            · simp at hverdict
            · simp only [LiteralVerdict.stop.injEq] at hverdict
              omega
    | go =>
      have hle := matchLength_le (e := e) m ((m ip).toNat % 16) (lit + length + 2)
      unfold sequenceEvent
      rcases hread : matchLength e m ((m ip).toNat % 16) (lit + length + 2) with ⟨_ | k, ip'⟩
      · rw [hread] at hle
        show ip < ip'
        omega
      · rw [hread] at hle
        exact ⟨hlow, hle, readLE16_lt _ _⟩

theorem run_outputError (hsrc : e.src ≤ ip)
    (hrun : run e fuel (outputError e h ip) = some (r, hf)) : r = -(ip - e.src) - 1 ∧ r < 0 := by
  simp only [outputError, run, Option.some.injEq, Prod.mk.injEq] at hrun
  omega

theorem run_ret (hrun : run e fuel (.ret r h) = some (r', hf)) : r' = r ∧ hf = h := by
  simp only [run, Option.some.injEq, Prod.mk.injEq] at hrun
  exact ⟨hrun.1.symm, hrun.2.symm⟩

/-- What is below the output position stays as it is, if the call succeeds. -/
theorem run_kept (placed : e.Placed) (separate : e.Separate) (at_ : At e m fast h ip op)
    (hrun : run e fuel (.loop fast h ip op) = some (r, hf)) (hr : 0 ≤ r) :
    op ≤ e.dst + r ∧ ∀ a, a < op → hf.mem a = h.mem a := by
  induction fuel generalizing fast h ip op with
  | zero => exact absurd hrun (by simp [run])
  | succ fuel ih =>
    have hsafe := step_safe placed at_
    have hcarried := at_.carried placed separate
    have hahead := event_ahead m op at_.lt_iend
    have hsrc := at_.src_le
    rw [run] at hrun
    cases hevent : event e m ip op with
    | error position =>
      rw [hevent] at hcarried hahead
      obtain ⟨h', hnext⟩ := hcarried
      rw [hnext] at hrun
      have hposition : ip < position := hahead
      have := (run_outputError (by omega) hrun).2
      omega
    | finish lit length =>
      rw [hevent] at hcarried
      obtain ⟨hoend, h', hnext, written⟩ := hcarried
      rw [hnext] at hrun
      obtain ⟨rfl, rfl⟩ := run_ret hrun
      exact ⟨by omega, fun a ha => written.frame ha⟩
    | sequence lit length offset matchLength ip' short =>
      rw [hevent] at hcarried hahead
      obtain ⟨hlit, hip', -⟩ := hahead
      obtain ⟨hoend, hmore, hfour, h₁, written, hmatch⟩ := hcarried
      rcases hverdict : sequenceVerdict e short (op + length) offset matchLength with
        _ | ⟨n, _ | _⟩
      · rw [hverdict] at hmatch
        obtain ⟨h₂, hnext⟩ := hmatch
        rw [hnext] at hrun
        have := (run_outputError (by omega) hrun).2
        omega
      · rw [hverdict] at hmatch
        obtain ⟨hn, fast₂, h₂, hnext, -, written₂⟩ := hmatch
        rw [hnext] at hrun hsafe
        obtain ⟨hle, hkept⟩ := ih hsafe.1 hrun
        refine ⟨by omega, fun a ha => ?_⟩
        rw [hkept a (by omega), written₂.frame (by omega), written.frame ha]
      · rw [hverdict] at hmatch
        obtain ⟨hn, h₂, hnext, written₂⟩ := hmatch
        rw [hnext] at hrun
        obtain ⟨rfl, rfl⟩ := run_ret hrun
        refine ⟨by omega, fun a ha => ?_⟩
        rw [written₂.frame (by omega), written.frame ha]

end Runs

end Lz4.Decoder

namespace Lz4

open FlatMemory Decoder

variable {outputSize src : Int} {e : Env} {srcSize : Nat}

theorem Decoder.SelfCopied.dst_le {m : Mem} {a : Int} (ha : SelfCopied e m a) : e.dst ≤ a := by
  obtain ⟨ip, op, lit, ip', length, offset, matchLength, short, reached, -, -, hlow, -⟩ := ha
  have hop : e.dst ≤ op := by
    induction reached with
    | start => exact Int.le_refl _
    | next _ _ _ ih => omega
  omega

theorem Decoder.SelfCopied.early {m : Mem} {a : Int} (ha : SelfCopied e m a) :
    e.partialDecoding = true := by
  obtain ⟨ip, op, lit, ip', length, offset, matchLength, short, -, -, hself, -⟩ := ha
  exact hself.2.1

end Lz4
