import Lz4.Encoder.Match

/-!
# What the hash table knows

Each slot contains a position of the input that was passed already, or what it contained
before the call (`Entries`).  Together with `Admissible`, the condition on what the table
contained before, every match that the compressor accepts is genuine (`tryMatch_genuine`).

The tests of the search are made in 32-bit arithmetic.  An index never wraps around during
a call, but the index of a candidate in an attached dictionary may.
-/

namespace Lz4.Encoder

open FlatMemory

/-- What `putOnHash` writes for a position. -/
def Env.entry (e : Env) (p : Int) : Nat :=
  match e.tableType with
  | .byPtr => p.toNat
  | .byU16 => e.index p % 2 ^ 16
  | _ => e.index p

/-- What has to be known about a table from earlier calls, and about the one of an attached
dictionary.  An entry that is in range belongs to the history within reach, and in another
buffer there are four bytes to compare with. -/
structure Env.Admissible (e : Env) (table : Table) : Prop where
  /-- indices do not wrap around -/
  indices : e.startIndex + e.inputSize < 2 ^ 32
  offset_lt : e.dictOffset < 2 ^ 32
  pointers : e.tableType = .byPtr → e.dictDirective = .noDict ∧ 65535 < e.source ∧
    ∀ h, table h + 65535 < e.source
  short : e.tableType = .byU16 → e.dictDirective = .noDict ∧ e.startIndex + e.inputSize ≤ 65546
  old : e.tableType ≠ .byPtr → ∀ h, table h ≤ e.startIndex
  within : e.tableType ≠ .byPtr → e.dictDirective ≠ .usingDictCtx → ∀ h,
    table h < e.startIndex → e.startIndex ≤ table h + 65535 →
    (e.dictSmall = true → e.startIndex ≤ table h + e.dictSize) →
    e.startIndex ≤ table h + e.depth ∧ (e.maybeExtMem = true → table h + 4 ≤ e.startIndex)
  small : e.dictSmall = true → e.dictDirective ≠ .usingDictCtx ∧ e.dictSize ≤ e.startIndex
  attached : e.dictDirective = .usingDictCtx → ∀ h,
    e.dictOffset ≤ e.startIndex + e.dictTable h + 65535 ∧
    (e.dictOffset ≤ e.dictTable h + 65535 →
      e.dictOffset ≤ e.dictTable h + e.dictSize ∧ e.dictTable h + 4 ≤ e.dictOffset)
  /-- a dictionary in another buffer -/
  external : e.maybeExtMem = true → e.dictionary ≠ e.source
  null : e.dictionary = 0 → e.dictSize = 0

/-- Every slot is as before, or contains a position in front of `ip`. -/
def Entries (e : Env) (table₀ table : Table) (ip : Int) : Prop :=
  ∀ h, table h = table₀ h ∨
    ∃ p, e.source ≤ p ∧ p < ip ∧ p < e.mflimitPlusOne ∧ table h = e.entry p

section

variable {e : Env} {table₀ table : Table} {ip p : Int} {h : Nat}

theorem Env.Admissible.dictEnd_eq (admissible : e.Admissible table₀) :
    e.dictEnd = e.dictionary + e.dictSize := by
  have := admissible.null
  unfold Env.dictEnd
  split
  · omega
  · rfl

theorem entries_refl (e : Env) (table : Table) (ip : Int) : Entries e table table ip :=
  fun _ => Or.inl rfl

theorem Entries.mono (entries : Entries e table₀ table ip) {ip' : Int} (hip : ip ≤ ip') :
    Entries e table₀ table ip' := fun h => by
  rcases entries h with hold | ⟨p, hlow, hhigh, hlimit, hp⟩
  · exact Or.inl hold
  · exact Or.inr ⟨p, hlow, by omega, hlimit, hp⟩

theorem Entries.put (entries : Entries e table₀ table ip) (h : Nat) (hp : e.source ≤ p)
    (hlimit : p < e.mflimitPlusOne) {ip' : Int} (hip : ip ≤ ip') (hpip : p < ip') :
    Entries e table₀ (putOnHash e table h p) ip' := by
  intro h'
  by_cases heq : h' = h
  · refine Or.inr ⟨p, hp, hpip, hlimit, ?_⟩
    rw [heq]
    exact Function.update_self _ _ _
  · have hother : putOnHash e table h p h' = table h' := Function.update_of_ne heq _ _
    rw [hother]
    exact entries.mono hip h'

theorem Env.index_eq (hindices : e.startIndex + e.inputSize < 2 ^ 32) (hlow : e.source ≤ p)
    (hhigh : p ≤ e.iend) : (e.index p : Int) = e.startIndex + (p - e.source) := by
  have hiend : e.iend = e.source + e.inputSize := rfl
  unfold Env.index Env.base
  omega

/-- An index in the table: a position of the input, or one from before it. -/
theorem Entries.cases (entries : Entries e table₀ table ip) (admissible : e.Admissible table₀)
    (htype : e.tableType ≠ .byPtr) (hip : e.source < ip) (h : Nat) :
    (∃ p, e.source ≤ p ∧ p < ip ∧ (table h : Int) = e.startIndex + (p - e.source)) ∨
      table h = table₀ h ∧ table h < e.startIndex := by
  have hold := admissible.old htype h
  rcases entries h with heq | ⟨p, hlow, hhigh, hlimit, heq⟩
  · by_cases hlt : table h < e.startIndex
    · exact Or.inr ⟨heq, hlt⟩
    · exact Or.inl ⟨e.source, Int.le_refl _, hip, by omega⟩
  · refine Or.inl ⟨p, hlow, hhigh, ?_⟩
    have hiend : e.iend = e.source + e.inputSize := rfl
    have hmflimit : e.mflimitPlusOne = e.iend - 12 + 1 := rfl
    have hindex := Env.index_eq admissible.indices hlow (show p ≤ e.iend by omega)
    rw [heq]
    unfold Env.entry
    split
    · contradiction
    · rename_i hshort
      have := (admissible.short hshort).2
      omega
    · exact hindex

/-! ## Candidates -/

/-- The candidate stands at a distance that can be written. -/
def Candidate.Reachable (e : Env) (ip : Int) (c : Candidate) : Prop :=
  ∃ dist : Nat, 1 ≤ dist ∧ dist ≤ 65535 ∧ Located e ip c.matchPtr c.lowLimit dist 4 ∧
    (e.maybeExtMem = true → (c.current + 2 ^ 32 - c.matchIndex) % 2 ^ 32 = dist)

theorem inRange_index {c : Candidate} (htype : e.tableType ≠ .byPtr)
    (hrange : inRange e ip c = true) :
    (e.dictSmall = true → e.prefixIdxLimit ≤ c.matchIndex) ∧
      (e.tableType = .byU16 ∨ c.current ≤ (c.matchIndex + 65535) % 2 ^ 32) := by
  unfold inRange at hrange
  rw [if_neg htype] at hrange
  simp only [Bool.and_eq_true, Bool.or_eq_true, decide_eq_true_eq, Bool.not_eq_true',
    Bool.and_eq_false_iff, decide_eq_false_iff_not] at hrange
  refine ⟨fun hsmall => ?_, hrange.2⟩
  rcases hrange.1 with hfalse | hle
  · exact absurd hsmall (by simp [hfalse])
  · omega

section

variable (admissible : e.Admissible table₀)

include admissible

/-- A pointer in the table.  Pointers from before the call are too far away. -/
theorem reachable_of_pointer (entries : Entries e table₀ table ip) (htype : e.tableType = .byPtr)
    (hip : e.source < ip) (hrange : inRange e ip (candidate e table h ip) = true) :
    (candidate e table h ip).Reachable e ip := by
  obtain ⟨hnone, hsource, hfar⟩ := admissible.pointers htype
  have hext : e.maybeExtMem = false := by simp [Env.maybeExtMem, hnone]
  have hc : candidate e table h ip = ⟨table h, e.lowLimit, table h, e.index ip⟩ := by
    simp [candidate, htype]
  rw [hc] at hrange ⊢
  simp only [inRange, htype, if_true, decide_eq_true_eq] at hrange
  have hlimit : e.lowLimit = e.source := by
    simp [Env.lowLimit, hnone]
  rcases entries h with hold | ⟨p, hlow, hhigh, -, hp⟩
  · have := hfar h
    omega
  · have hp : (table h : Int) = p := by
      rw [hp]
      simp only [Env.entry, htype]
      omega
    refine ⟨(ip - p).toNat, by omega, by omega, .inside (by simp [hext]) ?_ ?_ ?_ ?_, by simp [hext]⟩
    · simp [hext, hlimit, Env.depth, hnone]
    · dsimp only
      omega
    · dsimp only
      omega
    · omega

/-- An index of a position of the input. -/
theorem reachable_of_input (htype : e.tableType ≠ .byPtr) (hip : e.source < ip)
    (hlimit : ip < e.mflimitPlusOne) (hlow : e.source ≤ p) (hhigh : p < ip)
    (hp : (table h : Int) = e.startIndex + (p - e.source))
    (hrange : inRange e ip (candidate e table h ip) = true) :
    (candidate e table h ip).Reachable e ip := by
  have hiend : e.iend = e.source + e.inputSize := rfl
  have hmflimit : e.mflimitPlusOne = e.iend - 12 + 1 := rfl
  have hptr : e.base + table h = p := by
    unfold Env.base
    omega
  have hc : candidate e table h ip =
      ⟨p, e.source - if e.maybeExtMem then 0 else (e.depth : Int), table h, e.index ip⟩ := by
    unfold candidate
    rw [if_neg htype, if_neg (by omega), if_neg (by omega), hptr]
    cases hdir : e.dictDirective with
    | noDict => simp [Env.maybeExtMem, Env.lowLimit, Env.depth, hdir]
    | withPrefix64k => simp [Env.maybeExtMem, Env.lowLimit, Env.depth, hdir]
    | usingExtDict => simp [Env.maybeExtMem, hdir]
    | usingDictCtx => simp [Env.maybeExtMem, hdir]
  rw [hc] at hrange ⊢
  obtain ⟨-, hnear⟩ := inRange_index htype hrange
  have hindex := Env.index_eq admissible.indices (Int.le_of_lt hip) (show ip ≤ e.iend by omega)
  have hdist : (ip - p).toNat ≤ 65535 := by
    rcases hnear with hshort | hnear
    · have := (admissible.short hshort).2
      omega
    · dsimp only at hnear
      omega
  refine ⟨(ip - p).toNat, by omega, hdist, .inside ?_ rfl ?_ ?_ ?_, fun _ => ?_⟩
  · rintro ⟨hext, heq⟩
    refine admissible.external hext ?_
    rw [← heq]
    simp [hext]
  · dsimp only
    omega
  · dsimp only
    split
    · omega
    · omega
  · omega
  · dsimp only
    omega

/-- An index from before the call, for a history in front of the input or in another
buffer. -/
theorem reachable_of_history (htype : e.tableType ≠ .byPtr) (hdir : e.dictDirective ≠ .usingDictCtx)
    (hip : e.source < ip) (hlimit : ip < e.mflimitPlusOne) (heq : table h = table₀ h)
    (hold : table h < e.startIndex) (hrange : inRange e ip (candidate e table h ip) = true) :
    (candidate e table h ip).Reachable e ip := by
  have hiend : e.iend = e.source + e.inputSize := rfl
  have hmflimit : e.mflimitPlusOne = e.iend - 12 + 1 := rfl
  have hindices := admissible.indices
  have hindex := Env.index_eq hindices (Int.le_of_lt hip) (show ip ≤ e.iend by omega)
  have hc : candidate e table h ip = ⟨(if e.maybeExtMem then e.dictBase else e.base) + table h,
      if e.maybeExtMem then e.dictionary else e.lowLimit, table h, e.index ip⟩ := by
    unfold candidate
    rw [if_neg htype]
    cases hdir' : e.dictDirective with
    | noDict => simp [Env.maybeExtMem, hdir']
    | withPrefix64k => simp [Env.maybeExtMem, hdir']
    | usingExtDict => simp [Env.maybeExtMem, hdir', hold]
    | usingDictCtx => exact absurd hdir' hdir
  rw [hc] at hrange ⊢
  obtain ⟨hsmall, hnear⟩ := inRange_index htype hrange
  dsimp only at hsmall hnear
  have hdist : (ip - e.source) + e.startIndex - table h ≤ 65535 := by
    rcases hnear with hshort | hnear
    · have := (admissible.short hshort).2
      omega
    · omega
  obtain ⟨hreach, hfour⟩ := admissible.within htype hdir h (by omega) (by omega) fun hs => by
    have := hsmall hs
    unfold Env.prefixIdxLimit at *
    omega
  refine ⟨((ip - e.source) + e.startIndex - table h).toNat, by omega, by omega, ?_,
    fun _ => by dsimp only; omega⟩
  by_cases hext : e.maybeExtMem = true
  · have hfour := hfour hext
    have hdepth := Env.depth_of_extMem hext
    have hbase : e.dictBase = e.dictEnd - e.startIndex := by
      have := admissible.null
      unfold Env.dictBase Env.dictEnd
      rw [if_neg (by omega), if_neg hdir, if_neg (by omega)]
    simp only [hext, if_true]
    refine .outside hext rfl ?_ ?_ ?_
    · omega
    · unfold Env.reach
      omega
    · omega
  · have hdirect : e.maybeExtMem = false := by simpa using hext
    have hlow : e.lowLimit = e.source - e.depth := by
      unfold Env.lowLimit Env.depth
      cases hdir' : e.dictDirective with
      | noDict => simp
      | withPrefix64k => simp
      | usingExtDict => simp [Env.maybeExtMem, hdir'] at hdirect
      | usingDictCtx => exact absurd hdir' hdir
    simp only [hdirect, Bool.false_eq_true, if_false]
    refine .inside (by simp [hdirect]) (by simp [hdirect, hlow]) ?_ ?_ ?_
    · unfold Env.base
      omega
    · unfold Env.base
      omega
    · unfold Env.reach
      omega

/-- An index from the table of an attached dictionary. -/
theorem reachable_of_attached (htype : e.tableType ≠ .byPtr)
    (hdir : e.dictDirective = .usingDictCtx) (hip : e.source < ip) (hlimit : ip < e.mflimitPlusOne)
    (hold : table h < e.startIndex) (hrange : inRange e ip (candidate e table h ip) = true) :
    (candidate e table h ip).Reachable e ip := by
  have hmflimit : e.mflimitPlusOne = e.iend - 12 + 1 := rfl
  have hindices := admissible.indices
  have hindex := Env.index_eq hindices (Int.le_of_lt hip) (show ip ≤ e.iend by omega)
  have hext : e.maybeExtMem = true := by simp [Env.maybeExtMem, hdir]
  have hc : candidate e table h ip = ⟨e.dictBase + e.dictTable h, e.dictionary,
      (e.dictTable h + e.dictDelta) % 2 ^ 32, e.index ip⟩ := by
    simp [candidate, htype, hdir, hold]
  rw [hc] at hrange ⊢
  obtain ⟨-, hnear⟩ := inRange_index htype hrange
  obtain ⟨hlower, hdict⟩ := admissible.attached hdir h
  have hoffset := admissible.offset_lt
  have hdelta : e.dictDelta = (e.startIndex + 2 ^ 32 - e.dictOffset) % 2 ^ 32 := by
    simp [Env.dictDelta, hdir]
  have hdepth := Env.depth_of_extMem hext
  have hnotshort : e.tableType ≠ .byU16 := fun hshort => by
    simp [(admissible.short hshort).1] at hdir
  have hnear := hnear.resolve_left hnotshort
  dsimp only at hnear
  have hbase : e.dictBase = e.dictEnd - e.dictOffset := by
    have := admissible.null
    unfold Env.dictBase Env.dictEnd
    rw [if_neg (by omega), if_pos hdir, if_neg (by omega)]
  refine ⟨((ip - e.source) + e.dictOffset - e.dictTable h).toNat, by omega, by omega,
    .outside hext rfl ?_ ?_ ?_, fun _ => by dsimp only; omega⟩
  · dsimp only
    omega
  · unfold Env.reach
    omega
  · omega

/-- A candidate that passes the tests is within reach. -/
theorem candidate_reachable (entries : Entries e table₀ table ip) (hip : e.source < ip)
    (hlimit : ip < e.mflimitPlusOne) (hrange : inRange e ip (candidate e table h ip) = true) :
    (candidate e table h ip).Reachable e ip := by
  by_cases htype : e.tableType = .byPtr
  · exact reachable_of_pointer admissible entries htype hip hrange
  · rcases entries.cases admissible htype hip h with ⟨p, hlow, hhigh, hp⟩ | ⟨heq, hold⟩
    · exact reachable_of_input admissible htype hip hlimit hlow hhigh hp hrange
    · by_cases hdir : e.dictDirective = .usingDictCtx
      · exact reachable_of_attached admissible htype hdir hip hlimit hold hrange
      · exact reachable_of_history admissible htype hdir hip hlimit heq hold hrange

end

/-- A match that is accepted repeats the text. -/
theorem tryMatch_genuine {text : List UInt8} {k : Nat} {m : Mem} {found : Found}
    (hshows : Shows e text k m) (admissible : e.Admissible table₀)
    (entries : Entries e table₀ table ip) (hip : e.source < ip) (hlimit : ip < e.mflimitPlusOne)
    (hfound : tryMatch e m table h ip = some found) : ∃ dist, Genuine e text k found dist 4 := by
  have hmflimit : e.mflimitPlusOne = e.iend - 12 + 1 := rfl
  have hmatchlimit : e.matchlimit = e.iend - 5 := rfl
  unfold tryMatch at hfound
  dsimp only at hfound
  split at hfound
  · rename_i hpass
    obtain ⟨hrange, hword⟩ := Bool.and_eq_true_iff.mp hpass
    obtain rfl := Option.some.inj hfound
    obtain ⟨dist, hpos, hdist, located, hoffset⟩ :=
      candidate_reachable admissible entries hip hlimit hrange
    have hbytes := readLE_eq_iff.mp (of_decide_eq_true hword)
    refine ⟨dist, located, ?_, hdist, ?_, Int.le_of_lt hip, Nat.le_refl 4, by dsimp only; omega⟩
    · exact located.repeats hshows hpos (Int.le_of_lt hip) (by omega)
        fun i hi => (hbytes i hi).symm
    · unfold Found.written
      split
      · rename_i hext
        dsimp only
        rw [hoffset hext]
        omega
      · rename_i hext
        cases located with
        | inside _ _ hptr _ _ =>
          dsimp only
          omega
        | outside hext' => exact absurd hext' hext
  · exact absurd hfound (by simp)

end

end Lz4.Encoder
