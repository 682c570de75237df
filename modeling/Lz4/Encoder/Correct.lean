import Lz4.Encoder.Table

/-!
# What the compressor writes

The output so far is a list of sequences that describe the text up to `anchor`
(`Parsed`).  This is kept by every step of the main loop, and the last literals make a
block out of it (`Compressed`): one that respects the format, including the conditions at
its end, and that stands for the part of the input that was used.

When the output is filled, a match may have to be cut, and the table then contains
positions ahead of the next search.  This does no harm, since at most six bytes are left,
and no further match is written (`Exhausted`).
-/

namespace Lz4.Encoder

open FlatMemory Machine

/-- The sequences `seqs` were written, from `dest` to `op`, and describe the text up to
`anchor`.  Their last match leaves enough input, and enough room when the output is
filled, for the last literals. -/
structure Parsed (e : Env) (text : List UInt8) (k : Nat) (m : Mem) (anchor op : Int)
    (seqs : List Sequence) : Prop where
  factors : Factors text k seqs (e.pos k anchor)
  holds : m.Holds e.dest (encodeSequences seqs)
  op_eq : op = e.dest + (encodeSequences seqs).length
  last : ∀ s, seqs.getLast? = some s →
    anchor ≤ e.matchlimit ∧ anchor + 12 ≤ e.iend + s.matchLength ∧
      (e.outputDirective = .fillOutput → op + 6 ≤ e.olimit ∧ op + 13 ≤ e.olimit + s.matchLength)

/-- There is no room for another match. -/
def Exhausted (e : Env) (op : Int) : Prop :=
  e.outputDirective = .fillOutput ∧ e.olimit ≤ op + 6

/-- The result is the size of a block for the input up to `o.ip`, which is all of it unless
the output is filled. -/
structure Compressed (e : Env) (text : List UInt8) (k : Nat) (o : Outcome) (b : Block) :
    Prop where
  holds : o.heap.mem.Holds e.dest b.encode
  result : o.result = b.encode.length
  conforming : b.Conforming (text.take k)
  decode : b.decode (text.take k) = (text.drop k).take (o.ip - e.source).toNat
  ip_ge : e.source ≤ o.ip
  ip_le : o.ip ≤ e.iend
  all : e.outputDirective ≠ .fillOutput → o.ip = e.iend

/-- What a call returns: nothing, or a block.  Its table contains positions of the input. -/
structure Yields (e : Env) (text : List UInt8) (k : Nat) (table₀ : Table) (o : Outcome) :
    Prop where
  block : o.result = 0 ∨ ∃ b, Compressed e text k o b
  entries : e.outputDirective = .fillOutput ∨ Entries e table₀ o.table e.iend

/-- The text at the two places of the main loop. -/
def Content (e : Env) (text : List UInt8) (k : Nat) (table₀ : Table) : Next → Prop
  | .search h table anchor ip op _ =>
    (∃ seqs, Parsed e text k h.mem anchor op seqs) ∧
      (Exhausted e op ∨ Entries e table₀ table ip)
  | .nextMatch h table anchor op token found _ =>
    (∃ seqs, Parsed e text k h.mem anchor token seqs) ∧
      (Exhausted e token ∨
        OpenToken h.mem token op
            ((text.drop (e.pos k anchor)).take (found.ip - anchor).toNat) ∧
          ∃ dist len, Genuine e text k found dist len ∧
            Entries e table₀ table (found.ip + len))

section

variable {e : Env} {text : List UInt8} {k : Nat} {table₀ table : Table} {cap : Int}
  {m m' m₀ : Mem} {h : Heap} {anchor ip op token : Int} {seqs : List Sequence}

theorem Parsed.congr (parsed : Parsed e text k m anchor op seqs)
    (heq : ∀ a, a < op → m' a = m a) : Parsed e text k m' anchor op seqs where
  factors := parsed.factors
  holds := parsed.holds.congr fun x _ hhigh => by
    have := parsed.op_eq
    exact (heq x (by omega)).symm
  op_eq := parsed.op_eq
  last := parsed.last

theorem parsed_nil (e : Env) (text : List UInt8) (k : Nat) (m : Mem) :
    Parsed e text k m e.source e.dest [] where
  factors := by
    have hpos : e.pos k e.source = k := by
      unfold Env.pos
      omega
    rw [hpos]
    exact .nil
  holds := Mem.holds_nil _ _
  op_eq := by simp
  last s hs := absurd hs (by simp)

/-! ## The last literals -/

/-- As many literals remain as the format asks for. -/
theorem Parsed.lastRun (parsed : Parsed e text k m anchor op seqs) {s : Sequence}
    (hlast : seqs.getLast? = some s) :
    5 ≤ lastRunLength e anchor op ∧ 12 ≤ s.matchLength + lastRunLength e anchor op := by
  obtain ⟨hfive, htwelve, hfill⟩ := parsed.last s hlast
  have hmatchlimit : e.matchlimit = e.iend - 5 := rfl
  unfold lastRunLength
  dsimp only
  split
  · rename_i hlong
    have := hfill hlong.1
    omega
  · omega

theorem lastRunLength_all (hdir : e.outputDirective ≠ .fillOutput) :
    lastRunLength e anchor op = (e.iend - anchor).toNat := by
  unfold lastRunLength
  rw [if_neg (by simp [hdir])]

theorem Parsed.compressed (hshows : Shows e text k h.mem) (apart : e.Apart cap)
    (hsource : e.source ≤ anchor) (hanchor : anchor ≤ e.iend) (hdest : e.dest ≤ op)
    (hroom : RoomForLast e cap anchor op) (parsed : Parsed e text k h.mem anchor op seqs) :
    (lastLiterals e h table anchor op).result = 0 ∨
      ∃ b, Compressed e text k (lastLiterals e h table anchor op) b := by
  unfold lastLiterals
  split
  · exact Or.inl rfl
  rename_i hfits
  right
  obtain ⟨hrun, hused⟩ := hroom hfits
  have hall : e.outputDirective ≠ .fillOutput → anchor + lastRunLength e anchor op = e.iend :=
    fun hdir => by
      rw [lastRunLength_all hdir]
      omega
  have hfactors := parsed.factors
  have hfive : seqs ≠ [] → 5 ≤ lastRunLength e anchor op := fun hne => by
    obtain ⟨s, hs⟩ := Option.isSome_iff_exists.mp (List.getLast?_isSome.mpr hne)
    exact (parsed.lastRun hs).1
  have htwelve (s : Sequence) (hs : seqs.getLast? = some s) :
      12 ≤ s.matchLength + lastRunLength e anchor op :=
    (parsed.lastRun hs).2
  have hiend : e.iend = e.source + e.inputSize := rfl
  have hlength := hshows.length_eq
  have hcopied := literalsCopied_memcpy (writeRun h op (op + 1) (lastRunLength e anchor op)).1
    (writeRun h op (op + 1) (lastRunLength e anchor op)).2 anchor
    (Nat.le_refl (lastRunLength e anchor op))
  have hsnd := writeRun_snd h op (lastRunLength e anchor op)
  have hcount := length_lengthBytes (lastRunLength e anchor op)
  have hinput := apart.input
  have hopen := openToken_of_copied hcopied (by omega)
  rw [hshows.bytes_eq hsource hused] at hopen
  have hpos : e.pos k anchor - k = (anchor - e.source).toNat := by
    unfold Env.pos
    omega
  have hend : e.pos k anchor + lastRunLength e anchor op ≤ text.length := by
    omega
  set run := lastRunLength e anchor op
  have hsize := Factors.length_literals hend
  refine ⟨⟨seqs, (text.drop (e.pos k anchor)).take run, 0⟩, ?_, ?_,
    hfactors.conforming (by omega) hend hfive htwelve, ?_, by dsimp only; omega,
    by dsimp only; omega, hall⟩
  · rw [Block.encode, Mem.holds_append]
    refine ⟨parsed.holds.congr fun x hlow hhigh => ?_, ?_⟩
    · have := parsed.op_eq
      rw [hcopied.frame x (by omega), writeRun_frame _ _ _ (by omega)]
    · rw [← parsed.op_eq]
      exact hopen.holds_last
  · have := parsed.op_eq
    rw [Block.encode, List.length_append, encodeLast, List.length_cons, List.length_append, hsize]
    push_cast
    omega
  · rw [hfactors.decode (by omega), hpos]
    congr 1
    dsimp only
    omega

/-- The last literals end a call, from wherever they are reached. -/
theorem lastLiterals_yields (hshows : Shows e text k h.mem) (apart : e.Apart cap)
    (capacity : e.Capacity cap) (hsource : e.source ≤ anchor) (hanchor : anchor ≤ e.iend)
    (hdest : e.dest ≤ op) (hfits : Fits e anchor op)
    (hparsed : ∃ seqs, Parsed e text k h.mem anchor op seqs)
    (hentries : e.outputDirective = .fillOutput ∨ Entries e table₀ table e.iend) :
    Yields e text k table₀ (lastLiterals e h table anchor op) where
  block := by
    obtain ⟨seqs, parsed⟩ := hparsed
    exact parsed.compressed hshows apart hsource hanchor hdest
      (lastRunLength_fits capacity hanchor hfits)
  entries := by
    unfold lastLiterals
    split
    · exact hentries
    · exact hentries

/-! ## One step -/

/-- What is needed of the input, the buffers and the table throughout a call. -/
structure Sound (e : Env) (text : List UInt8) (k : Nat) (table₀ : Table) (cap : Int) (m₀ : Mem) :
    Prop where
  showsText : Shows e text k m₀
  apart : e.Apart cap
  capacity : e.Capacity cap
  admissible : e.Admissible table₀

theorem entries_or_fill {ip' : Int} (hentries : Exhausted e op ∨ Entries e table₀ table ip)
    (hip : ip ≤ ip') : e.outputDirective = .fillOutput ∨ Entries e table₀ table ip' :=
  hentries.imp (fun hfull => hfull.1) (fun entries => entries.mono hip)

theorem afterMatch_content (sound : Sound e text k table₀ cap m₀) {filledIp : Int}
    (hlog : h.Logged (Within e.dest (e.dest + cap)) m₀) (hip : e.source + 4 ≤ ip)
    (hlimit : ip ≤ e.matchlimit) (hdest : e.dest ≤ op) (hfits : Fits e ip op)
    (hparsed : ∃ seqs, Parsed e text k h.mem ip op seqs)
    (hentries : Exhausted e op ∨ Entries e table₀ table ip) :
    (afterMatch e h table ip op filledIp).Satisfies (Content e text k table₀)
      (Yields e text k table₀) := by
  obtain ⟨hshows₀, apart, capacity, admissible⟩ := sound
  have hshows := hshows₀.frame apart hlog
  have hmatchlimit : e.matchlimit = e.iend - 5 := rfl
  unfold afterMatch
  split
  · exact lastLiterals_yields hshows apart capacity (by omega) (by omega) hdest hfits hparsed
      (entries_or_fill hentries (by omega))
  · have hentries := hentries.imp_right fun entries =>
      entries.put (hashPosition e h.mem (ip - 2)) (show e.source ≤ ip - 2 by omega) (by omega)
        (Int.le_refl ip) (by omega)
    dsimp only
    split
    · -- the next position matches at once
      rename_i found hfound
      have heq := tryMatch_ip hfound
      obtain ⟨seqs, parsed⟩ := hparsed
      refine ⟨⟨seqs, parsed.congr fun a ha => ?_⟩, hentries.imp_right fun entries => ?_⟩
      · refine Mem.store_outside ?_
        omega
      · refine ⟨?_, ?_⟩
        · rw [heq, Int.sub_self]
          exact openToken_nil _ _
        · obtain ⟨dist, genuine⟩ :=
            tryMatch_genuine hshows admissible entries (by omega) (by omega) hfound
          exact ⟨dist, 4, genuine, entries.put _ (by omega) (by omega) (by omega) (by omega)⟩
    · refine ⟨hparsed, hentries.imp_right fun entries => ?_⟩
      exact entries.put _ (by omega) (by omega) (by omega) (by omega)

/-- A sequence is written behind those that are there. -/
theorem Parsed.sequence {dist matchCode : Nat} {op' : Int}
    (parsed : Parsed e text k m anchor token seqs)
    (hholds : m'.Holds token (Sequence.encode
      ⟨(text.drop (e.pos k anchor)).take (ip - anchor).toNat, dist, matchCode + 4⟩))
    (hframe : ∀ a, a < token → m' a = m a)
    (hop : op' = token + (Sequence.encode
      ⟨(text.drop (e.pos k anchor)).take (ip - anchor).toNat, dist, matchCode + 4⟩).length)
    (hsource : e.source ≤ anchor) (hanchor : anchor ≤ ip) (hip : ip < e.mflimitPlusOne)
    (hend : ip + 4 + matchCode ≤ e.matchlimit) (hdist : dist ≤ 65535)
    (hrepeats : Repeats text (e.pos k ip) dist (4 + matchCode))
    (hroom : e.outputDirective = .fillOutput →
      op' + 6 ≤ e.olimit ∧ op' + 9 ≤ e.olimit + matchCode) :
    Parsed e text k m' (ip + 4 + matchCode) op'
      (seqs ++ [⟨(text.drop (e.pos k anchor)).take (ip - anchor).toNat, dist, matchCode + 4⟩]) := by
  have hmflimit : e.mflimitPlusOne = e.iend - 12 + 1 := rfl
  have hstart : e.pos k anchor + (ip - anchor).toNat = e.pos k ip := by
    unfold Env.pos
    omega
  have hstop : e.pos k (ip + 4 + matchCode) =
      e.pos k anchor + (ip - anchor).toNat + (matchCode + 4) := by
    unfold Env.pos
    omega
  have htoken := parsed.op_eq
  refine ⟨?_, ?_, ?_, fun s hs => ?_⟩
  · rw [hstop]
    refine parsed.factors.snoc _ dist _ (by omega) (by omega) ?_
    rw [hstart, Nat.add_comm matchCode 4]
    exact hrepeats
  · rw [encodeSequences_append, Mem.holds_append]
    refine ⟨parsed.holds.congr fun x hlow hhigh => (hframe x (by omega)).symm, ?_⟩
    rw [← htoken]
    simpa using hholds
  · rw [encodeSequences_append, List.length_append, encodeSequences_cons, encodeSequences_nil,
      List.append_nil, hop]
    omega
  · rw [List.getLast?_concat, Option.some.injEq] at hs
    subst hs
    refine ⟨hend, by dsimp only; omega, fun hfill => ?_⟩
    have := hroom hfill
    dsimp only
    omega

/-- A match is written behind its literals. -/
theorem Parsed.snoc {found : Found} {dist matchCode : Nat}
    (parsed : Parsed e text k h.mem anchor token seqs)
    (hopen : OpenToken h.mem token op
      ((text.drop (e.pos k anchor)).take (found.ip - anchor).toNat))
    (hsource : e.source ≤ anchor) (hanchor : anchor ≤ found.ip)
    (hip : found.ip < e.mflimitPlusOne) (hend : found.ip + 4 + matchCode ≤ e.matchlimit)
    (hdist : dist ≤ 65535) (hrepeats : Repeats text (e.pos k found.ip) dist (4 + matchCode))
    (hroom : e.outputDirective = .fillOutput →
      op + 8 + ((matchCode + 240) / 255 : Nat) ≤ e.olimit ∧ op + 11 ≤ e.olimit) :
    Parsed e text k
      (encodeMatchLength (h.store op (le16 dist)) token (op + 2) matchCode).1.mem
      (found.ip + 4 + matchCode)
      (encodeMatchLength (h.store op (le16 dist)) token (op + 2) matchCode).2
      (seqs ++ [⟨(text.drop (e.pos k anchor)).take (found.ip - anchor).toNat, dist,
        matchCode + 4⟩]) := by
  have hsnd := encodeMatchLength_snd (h.store op (le16 dist)) token (op + 2) matchCode
  have hcount := length_lengthBytes matchCode
  have hop := hopen.op_eq
  refine parsed.sequence (encodeMatch_holds matchCode dist hopen) (fun x hx => ?_) ?_ hsource hanchor
    hip hend hdist hrepeats fun hfill => ?_
  · rw [encodeMatchLength_frame _ _ (by omega) (by omega), Heap.store_mem,
      Mem.store_outside (by omega)]
  · rw [hsnd, hopen.length_sequence]
  · have := hroom hfill
    omega

theorem nextMatch_content (sound : Sound e text k table₀ cap m₀) (hsize : e.inputSize < 2 ^ 31)
    {found : Found} {filledIp : Int}
    (sized : Sized e cap m₀ (.nextMatch h table anchor op token found filledIp))
    (content : Content e text k table₀ (.nextMatch h table anchor op token found filledIp)) :
    (nextMatch e h table anchor op token found filledIp).Satisfies (Content e text k table₀)
      (Yields e text k table₀) := by
  have hlog₁ := offset_logged sound.capacity sized
  have hrest {matchCode : Nat} {table' : Table}
      (coded : Coded e h table op found matchCode table') := coded.sized sound.capacity sized
  have hshows₁ := sound.showsText.frame sound.apart hlog₁
  obtain ⟨hlog, hsource, hanchor, hip, hdest, hfits, hop, -⟩ := sized
  obtain ⟨⟨seqs, parsed⟩, hmatch⟩ := content
  have hshows := sound.showsText.frame sound.apart hlog
  have hmatchlimit : e.matchlimit = e.iend - 5 := rfl
  have hmflimit : e.mflimitPlusOne = e.iend - 12 + 1 := rfl
  have hentries : e.outputDirective = .fillOutput ∨ Entries e table₀ table e.iend := by
    rcases hmatch with hfull | ⟨-, dist, len, genuine, entries⟩
    · exact Or.inl hfull.1
    · have := genuine.end_le
      exact Or.inr (entries.mono (by omega))
  rcases nextMatch_cases h table anchor op token filledIp hsize (by omega)
    (show found.ip + 4 ≤ e.matchlimit by omega) with
    ⟨-, heq⟩ | ⟨-, ip', heq⟩ | ⟨matchCode, table', coded, heq⟩
  · rw [heq]
    exact lastLiterals_yields hshows sound.apart sound.capacity hsource (by omega) hdest hfits
      ⟨seqs, parsed⟩ hentries
  · rw [heq]
    exact ⟨Or.inl rfl, hentries⟩
  · rw [heq]
    rcases hmatch with hfull | ⟨hopen, dist, len, genuine, entries⟩
    · -- there is no room for a match, so none was written
      have := coded.filled hfull.1
      have := hfull.2
      omega
    · obtain ⟨hlog', hend, hfits', -⟩ := hrest coded
      have hsnd := encodeMatchLength_snd (h.store op (le16 (found.written e))) token (op + 2)
        matchCode
      obtain ⟨hrepeats, hlen⟩ := genuine.measureMatch hshows₁
      have hcode := coded.le_full
      have hsnoc := parsed.snoc hopen hsource hanchor hip hend genuine.dist_le
        (hrepeats.mono (by omega))
        (fun hfill => ⟨coded.room (by simp [hfill]), coded.filled hfill⟩)
      rw [← genuine.written] at hsnoc
      refine afterMatch_content sound hlog' (by omega) hend (by omega) hfits' ⟨_, hsnoc⟩ ?_
      rcases coded.full_or_cut with ⟨hall, htable⟩ | ⟨hfill, -, hcut⟩
      · rw [htable]
        exact Or.inr (entries.mono (by omega))
      · rw [length_lengthBytes] at hsnd
        exact Or.inl ⟨hfill, by omega⟩

/-- Every step keeps the text. -/
theorem step_content (accelerates : e.Accelerates) (sound : Sound e text k table₀ cap m₀)
    {next : Next} (sized : Sized e cap m₀ next) (content : Content e text k table₀ next)
    {x : Step Next Outcome} (hstep : step e next = some x) :
    x.Satisfies (Content e text k table₀) (Yields e text k table₀) := by
  cases next with
  | nextMatch h table anchor op token found filledIp =>
    obtain rfl := Option.some.inj hstep
    have := accelerates.1
    have := accelerates.2
    exact nextMatch_content sound (by omega) sized content
  | search h table anchor ip op forwardH =>
    obtain ⟨hlog, hsource, hanchor, hip, hdest, hfits⟩ := sized
    obtain ⟨⟨seqs, parsed⟩, hentries⟩ := content
    have hshows := sound.showsText.frame sound.apart hlog
    have hmflimit : e.mflimitPlusOne = e.iend - 12 + 1 := rfl
    obtain ⟨⟨found?, table'⟩, hsearch, hends⟩ := search_ends accelerates h.mem
      (Q := fun table ip => Exhausted e op ∨ Entries e table₀ table ip)
      (fun hQ hlow hlt hlimit => hQ.imp_right fun entries =>
        entries.put _ hlow hlimit (Int.le_of_lt hlt) hlt) table forwardH
      (show e.source < ip by omega) hip hentries
    have hlast {table : Table} {p : Int} (hp : p ≤ e.iend)
        (hentries : Exhausted e op ∨ Entries e table₀ table p) :
        Yields e text k table₀ (lastLiterals e h table anchor op) :=
      lastLiterals_yields hshows sound.apart sound.capacity hsource (by omega) hdest hfits
        ⟨seqs, parsed⟩ (entries_or_fill hentries hp)
    simp only [step, hsearch, Option.bind_eq_bind, Option.bind_some] at hstep
    cases found? with
    | none =>
      obtain ⟨p, -, hp, hQ⟩ := hends
      obtain rfl := Option.some.inj hstep
      exact hlast (by omega) hQ
    | some found =>
      obtain ⟨hlow, hhigh, before, hash, hbefore, hfound, rfl⟩ := hends
      obtain ⟨j, hcatch, hback, hlimit, heq⟩ := catchUp_spec h.mem
        (show anchor < found.ip by omega)
      have hafter : Exhausted e op ∨
          Entries e table₀ (putOnHash e before hash found.ip) (found.ip + 1) :=
        hbefore.imp_right fun entries =>
          entries.put _ (by omega) hhigh (by omega) (by omega)
      dsimp only at hstep
      rw [hcatch] at hstep
      cases hlits : encodeLiterals e h anchor (found.ip - j) op with
      | fail =>
        rw [hlits] at hstep
        obtain rfl := Option.some.inj hstep
        exact ⟨Or.inl rfl, entries_or_fill hafter (by omega)⟩
      | full =>
        rw [hlits] at hstep
        obtain rfl := Option.some.inj hstep
        exact hlast (by omega) hafter
      | written h' op' =>
        rw [hlits] at hstep
        obtain rfl := Option.some.inj hstep
        have hwithin := encodeLiterals_within sound.capacity hfits hback
          (by omega) hlits
        have hinput := sound.apart.input
        obtain ⟨hopen, hframe⟩ := encodeLiterals_open hlits (by omega)
        refine ⟨⟨seqs, parsed.congr hframe⟩, ?_⟩
        rcases hbefore with hfull | entries
        · exact Or.inl hfull
        · rw [hshows.bytes_eq hsource (by omega)] at hopen
          obtain ⟨dist, genuine⟩ := tryMatch_genuine hshows sound.admissible entries
            (by omega) hhigh hfound
          have hge : found.lowLimit ≤ found.matchPtr := genuine.located.lowLimit_le
            sound.admissible.dictEnd_eq
          refine Or.inr ⟨hopen, dist, 4 + j, ?_, ?_⟩
          · exact genuine.back hshows sound.admissible.dictEnd_eq (by omega) (hlimit hge) heq
          · exact entries.put _ (by omega) hhigh (by dsimp only; push_cast; omega)
              (by dsimp only; push_cast; omega)

/-- `LZ4_compress_generic_validated` returns, stays in the destination, and yields a block
for its input. -/
theorem compressGenericValidated_yields (accelerates : 13 ≤ e.inputSize → e.Accelerates)
    (sound : Sound e text k table cap m) :
    ∃ o, compressGenericValidated e ⟨m, []⟩ table = some o ∧ Returns e cap m o ∧
      Yields e text k table o := by
  have hiend : e.iend = e.source + e.inputSize := rfl
  have hmflimit : e.mflimitPlusOne = e.iend - 12 + 1 := rfl
  have hstart := parsed_nil e text k m
  unfold compressGenericValidated
  rw [if_neg sound.capacity.not_empty]
  split
  · exact ⟨_, rfl, lastLiterals_returns sound.capacity (by omega) (Int.le_refl _) (fits_start e)
        (logged_start e cap m),
      lastLiterals_yields sound.showsText sound.apart sound.capacity (Int.le_refl _) (by omega)
        (Int.le_refl _) (fits_start e) ⟨_, hstart⟩ (Or.inr (entries_refl _ _ _))⟩
  · rename_i hlong
    have accelerates := accelerates (by omega)
    refine iterate_ends (fun next => Sized e cap m next ∧ Content e text k table next) (variant e)
      (fun next hinv => ?_) ⟨sized_start m _ _ hlong, ⟨_, hstart⟩, ?_⟩ ?_
    · obtain ⟨x, hx, hends⟩ := step_sized accelerates sound.capacity hinv.1
      exact ⟨x, hx, hends.and (step_content accelerates sound hinv.1 hinv.2 hx)⟩
    · exact Or.inr ((entries_refl e table _).put _ (Int.le_refl _) (by omega) (Int.le_refl _)
        (by omega))
    · show 2 * (e.iend - e.source).toNat + 1 < _
      omega

end

end Lz4.Encoder
