import Lz4.Decoder.UsingDict

/-!
# Partial decoding

`LZ4_decompress_safe_partial` stops when it has written as many bytes as it was asked for, or
when the input ends.  The list of what has been decoded is the same as in a full decoding, cut
at the end of the output: a match that reaches beyond is copied up to there (`MatchCut`), and
the call then returns, or does so in the next pass.

`Partway` follows a block of which only a part may be in the input.  Every sequence that is
read is one of the block, so that what is written is always the beginning of its contents.
-/

namespace Lz4.Decoder

open FlatMemory

/-- The same call with partial decoding. -/
def Env.early (e : Env) : Env := { e with partialDecoding := true }

/-! ## Matches -/

variable {entry : Entry} {field : Nat}

section Match

variable {e : Env} {source : Mem} {n : Nat} {buf : List UInt8} {h : Heap} {ip op : Int}
  {offset length : Nat}

/-- A match was copied up to the end of the output.  If this is reached inside the current
block, the call returns. -/
def MatchCut (e : Env) (source : Mem) (n : Nat) (buf : List UInt8) (ip op : Int)
    (offset length : Nat) : Next → Prop
  | .ret r h => e.oend ≤ op + length ∧ r = e.oend - e.dst ∧
      Rel e source n (Lz4.copyMatch buf offset (e.oend - op).toNat) h.mem ip e.oend
  | .loop _ h ip' op' => ip' = ip ∧ op' = min (op + length) e.oend ∧
      Rel e source n (Lz4.copyMatch buf offset (op' - op).toNat) h.mem ip op'

theorem MatchDone.of_early {m m' : Mem} {limit : Int}
    (done : MatchDone e.early m m' op offset length limit) :
    MatchDone e m m' op offset length limit :=
  ⟨done.frame, done.zero, done.dictionary, done.back⟩

theorem MatchCopy.run_cut {how : MatchCopy} (hfits : how.Fits e.early op offset length)
    (hchosen : how.Chosen e.early entry field op offset length) (serves : e.Serves n)
    (clear : e.HistoryClear n 31) (separate : e.Separate) (rel : Rel e source n buf h.mem ip op)
    (hsrc : e.src ≤ ip) (hoend : op ≤ e.oend) (hpos : 0 < offset) (hoffset : offset < 65536)
    (hreach : e.dst - n ≤ op - offset) (hlength : 4 ≤ length) :
    MatchCut e source n buf ip op offset length (how.run e.early h ip op offset length) := by
  have placed : e.early.Placed :=
    ⟨serves.lowPrefix_le, serves.dst_le, serves.dictSize_eq, serves.prefix64k⟩
  have carried : MatchCarried e.early true h.mem ip op offset length
      (how.run e.early h ip op offset length) (sequenceVerdict e.early how.short op offset length) :=
    MatchCopy.carried placed rel.le_pos hoend hoffset hlength hfits hchosen fun _ => rfl
  have hrel {m' : Mem} {k : Nat} (hk : op + k ≤ e.oend)
      (written : MatchWritten e.early true h.mem m' op offset length k) :
      Rel e source n (Lz4.copyMatch buf offset (op + k - op : Int).toNat) m' ip (op + k) := by
    unfold MatchWritten at written
    rw [if_neg fun hself => absurd hself.1 (by omega)] at written
    obtain ⟨limit, done, hlimit, hnear⟩ := written
    have writes : MatchWrites e true h.mem m' op offset k limit := by
      refine ⟨done.of_early, hlimit, hnear.imp_right fun hstrip => ?_⟩
      obtain ⟨hf, hwide, hlong, hroom, hend, hmore⟩ := hstrip
      exact ⟨hf, hwide, hlong, hroom, hend, hmore.of_early⟩
    rw [show (op + k - op : Int).toNat = k by omega]
    exact writes.rel serves clear ⟨by omega, fun _ => by omega⟩ rel hsrc hoffset hreach hk
      (Or.inl separate)
  generalize how.run e.early h ip op offset length = next at carried ⊢
  rcases hverdict : sequenceVerdict e.early how.short op offset length with _ | ⟨k, stops⟩
  · rcases sequenceVerdict_none hverdict with hbad | ⟨hfull, -⟩
    · have := (checkOffset_iff serves rel.le_pos hoffset).mp hbad
      omega
    · exact Bool.noConfusion hfull
  · rw [hverdict] at carried
    have hcut : op + k ≤ e.oend → op + k = min (op + length) e.oend := by
      obtain ⟨-, rfl | ⟨-, rfl⟩, -⟩ := sequenceVerdict_some placed rel.le_pos hoffset hverdict
      · omega
      · simp only [Env.early]
        omega
    have hstops := (sequenceVerdict_some placed rel.le_pos hoffset hverdict).full
    cases stops with
    | false =>
      obtain ⟨hk, fast, h', rfl, -, written⟩ := carried
      exact ⟨rfl, hcut hk, hrel hk written⟩
    | true =>
      obtain ⟨hk, h', rfl, written⟩ := carried
      have hfull : op + k = e.oend := (hstops rfl).2
      have rel' := hrel hk written
      rw [hfull] at rel'
      exact ⟨by omega, by rw [hfull]; rfl, rel'⟩

end Match

/-! ## Literals -/

variable {k : Nat} {ip : Int}

section Literals

variable {e : Env} {source : Mem} {lit : Int} {length : Nat}

/-- Lengths are encoded in one way. -/
theorem literalRun_eq (hrun : literalRun e source ip = some (length, lit))
    (htoken : (source ip).toNat / 16 = lengthField k)
    (hholds : source.Holds (ip + 1) (lengthBytes k)) :
    length = k ∧ lit = ip + 1 + (lengthBytes k).length := by
  obtain ⟨hfield, -, hbytes⟩ := literalRun_sound hrun
  obtain ⟨-, hlit, -⟩ := literalRun_sound hrun
  -- with enough input behind, both lengths are read
  have hfirst := literalRun_complete (e := { e with iend := ip + 1 + (lengthBytes length).length +
    length + ((lengthBytes k).length + k) }) hfield hbytes (by dsimp only; omega)
  have hsecond := literalRun_complete (e := { e with iend := ip + 1 + (lengthBytes length).length +
    length + ((lengthBytes k).length + k) }) htoken hholds (by dsimp only; omega)
  rw [hfirst, Option.some.injEq, Prod.mk.injEq] at hsecond
  exact ⟨hsecond.1, by rw [hlit, hsecond.2]⟩

theorem matchRun_eq {ip' : Int} (hfield : field < 16)
    (hrun : matchRun e source field ip = some (length, ip')) (hk : 4 ≤ k)
    (htoken : field = lengthField (k - 4)) (hholds : source.Holds ip (lengthBytes (k - 4))) :
    length = k ∧ ip' = ip + (lengthBytes (k - 4)).length := by
  obtain ⟨hfour, hfield', hip', hbytes⟩ := matchRun_sound hfield hrun
  have hfirst := matchRun_complete (e := { e with iend := ip + (lengthBytes (length - 4)).length +
    (lengthBytes (k - 4)).length + 4 }) hfour hfield' hbytes (by dsimp only; omega)
  have hsecond := matchRun_complete (e := { e with iend := ip + (lengthBytes (length - 4)).length +
    (lengthBytes (k - 4)).length + 4 }) hk htoken hholds (by dsimp only; omega)
  rw [hfirst, Option.some.injEq, Prod.mk.injEq] at hsecond
  exact ⟨hsecond.1, by rw [hip', hsecond.2]⟩

end Literals

/-! ## Following a block -/

/-- From `ip` to `stop` the rest of a block stands in `source`, of which the input may be only
the first part; `full` is what came before it. -/
structure Partway (e : Env) (source : Mem) (last : List UInt8) (field : Nat)
    (final : List UInt8) (stop : Int) (rest : List Sequence) (full : List UInt8) (ip : Int) :
    Prop where
  holds : source.Holds ip (encodeSequences rest ++ encodeLast last field)
  stop_eq : ip + (encodeSequences rest ++ encodeLast last field).length = stop
  iend_le : e.iend ≤ stop
  field_lt : field < 16
  reaches : Reaches full.length rest
  offset_pos : ∀ s ∈ rest, 1 ≤ s.offset
  lastFive : rest ≠ [] → 5 ≤ last.length
  final_eq : rest.foldl Sequence.apply full ++ last = final

variable {fast : Bool} {lit : Int} {length : Nat} {b : Block}

section Block

variable {e : Env} {source m₀ : Mem} {n : Nat} {last final full : List UInt8} {field : Nat}
  {stop ip op : Int} {rest : List Sequence} {s : Sequence} {h : Heap}

theorem Partway.holds_sequence (partway : Partway e source last field final stop (s :: rest) full ip) :
    source.Holds ip s.encode ∧ ip + s.encode.length + 6 ≤ stop := by
  have hholds := partway.holds
  have hstop := partway.stop_eq
  have hfive := partway.lastFive (by simp)
  have hlast := length_encodeLast last field
  rw [encodeSequences_cons, List.append_assoc] at hholds hstop
  rw [Mem.holds_append] at hholds
  rw [List.length_append, List.length_append] at hstop
  exact ⟨hholds.1, by omega⟩

theorem Partway.tail (partway : Partway e source last field final stop (s :: rest) full ip) :
    Partway e source last field final stop rest (s.apply full) (ip + s.encode.length) := by
  obtain ⟨hholds, hstop, hiend, hfield, hreaches, hpos, hfive, hfinal⟩ := partway
  rw [encodeSequences_cons, List.append_assoc] at hholds hstop
  rw [Mem.holds_append] at hholds
  rw [List.length_append] at hstop
  refine ⟨hholds.2, by omega, hiend, hfield, ?_, fun s' hs' => hpos s' (by simp [hs']),
    fun _ => hfive (by simp), hfinal⟩
  rw [length_apply, ← Nat.add_assoc]
  exact hreaches.2.2.2

section

variable (partway : Partway e source last field final stop rest full ip)

include partway

theorem Partway.isPrefix : full <+: final := by
  rw [← partway.final_eq]
  exact (isPrefix_foldl_apply full rest).trans (List.prefix_append _ last)

/-- The literals at `ip`. -/
theorem Partway.literals (hrun : literalRun e source ip = some (length, lit)) :
    full ++ source.bytes lit length <+: final ∧
      (rest = [] → lit + length = stop ∧ full ++ source.bytes lit length = final) ∧
      (rest ≠ [] → lit + length + 8 ≤ stop) := by
  cases rest with
  | nil =>
    have hholds := partway.holds
    have hstop := partway.stop_eq
    rw [encodeSequences_nil, List.nil_append] at hholds hstop
    have hfield := partway.field_lt
    unfold encodeLast at hholds
    rw [Mem.holds_cons, Mem.holds_append] at hholds
    obtain ⟨htoken, hbytes, hliterals⟩ := hholds
    obtain ⟨rfl, rfl⟩ := literalRun_eq hrun (k := last.length) (by
      rw [htoken, UInt8.toNat_ofNat']
      unfold lengthField
      omega) hbytes
    have hsize := length_lengthBytes last.length
    rw [length_encodeLast] at hstop
    have hfinal : full ++ source.bytes (ip + 1 + (lengthBytes last.length).length) last.length =
        final := by
      rw [show source.bytes _ last.length = last from hliterals]
      exact partway.final_eq
    exact ⟨hfinal ▸ List.prefix_rfl, fun _ => ⟨by omega, hfinal⟩, fun hne => absurd rfl hne⟩
  | cons s rest =>
    obtain ⟨hholds, hend⟩ := partway.holds_sequence
    rw [holds_encode_iff] at hholds
    obtain ⟨htoken, hbytes, hliterals, -, -⟩ := hholds
    obtain ⟨rfl, rfl⟩ := literalRun_eq hrun (k := s.literals.length)
      (by rw [htoken]; exact (toNat_token _ _).1) hbytes
    have hsize := length_lengthBytes s.literals.length
    have hencode := length_encode s
    refine ⟨?_, fun hnil => absurd hnil (by simp), fun _ => by omega⟩
    rw [show source.bytes _ s.literals.length = s.literals from hliterals, ← partway.final_eq]
    have hfirst : full ++ s.literals <+: s.apply full := isPrefix_copyMatch _ _ _
    exact (hfirst.trans (isPrefix_foldl_apply _ rest)).trans (List.prefix_append _ last)

/-- With the whole block in the input, the length of the literals can be read. -/
theorem Partway.literalRun_ne_none (hiend : e.iend = stop) : literalRun e source ip ≠ none := by
  cases rest with
  | nil =>
    have hholds := partway.holds
    have hstop := partway.stop_eq
    rw [encodeSequences_nil, List.nil_append] at hholds hstop
    rw [(literalRun_of_holds_encodeLast partway.field_lt hholds (by omega)).1]
    simp
  | cons s rest =>
    obtain ⟨hholds, hend⟩ := partway.holds_sequence
    obtain ⟨parsed, -⟩ := parsed_of_holds hholds partway.reaches.1 partway.reaches.2.1
      (e := e) (by omega)
    rw [parsed.literals]
    simp

end

/-- A partial decoding between two passes: what has been decoded is cut at the end of the
output. -/
def PartialAt (e : Env) (source m₀ : Mem) (n : Nat) (last final : List UInt8) (field : Nat)
    (stop : Int) (fast : Bool) (h : Heap) (ip op : Int) : Prop :=
  At e.early m₀ fast h ip op ∧ ∃ rest full, Partway e source last field final stop rest full ip ∧
    Rel e source n (full.take (n + (e.oend - e.dst).toNat)) h.mem ip op

/-- A partial decoding returns a negative result, which it does not if all of the block is in
the input, or the beginning of the contents.  In the first case this is all of it, unless the
output is full. -/
def PartialEnd (e : Env) (source : Mem) (n : Nat) (final : List UInt8) (stop : Int) (r : Int)
    (h : Heap) : Prop :=
  (r < 0 ∧ e.iend ≠ stop) ∨
    ∃ out ip, Rel e source n out h.mem ip (e.dst + r) ∧ out <+: final ∧ e.dst + r ≤ e.oend ∧
      (e.iend = stop → e.dst + r = e.oend ∨ out = final)

theorem take_eq_of_lt (rel : Rel e source n (full.take (n + (e.oend - e.dst).toNat)) h.mem ip op)
    (hlt : op < e.oend) : full.take (n + (e.oend - e.dst).toNat) = full := by
  have hpos := rel.pos
  rw [List.length_take] at hpos
  exact List.take_of_length_le (by omega)

/-- The pass that copies the last literals. -/
theorem stop_partialEnd (serves : e.Serves n) (clear : e.HistoryClear n 31) (separate : e.Separate)
    (partway : Partway e source last field final stop rest full ip) (hsrc : e.src ≤ ip)
    {length' : Nat} (hlit : lit ≤ e.iend) (hrun : literalRun e source ip = some (length, lit))
    (stops : Stops e length lit op length') (hoend : op ≤ e.oend)
    (rel : Rel e source n (full.take (n + (e.oend - e.dst).toNat)) h.mem ip op) :
    PartialEnd e source n final stop (op + length' - e.dst) (h.memcpy .input op lit length') := by
  obtain ⟨hlength, hends⟩ := stops
  obtain ⟨hbegin, hnil, hcons⟩ := partway.literals hrun
  have hlow := (literalRun_le hrun).1
  have hexact : LiteralCopy.exact.Fits e op lit length' := by
    simp only [LiteralCopy.Fits]
    omega
  have rel' := (rel.advance (show ip ≤ lit by omega)).literalCopy serves clear
    ⟨by omega, fun _ => by omega⟩ (Or.inl separate) (by omega) hexact (by omega) (by omega)
  have hbytes : source.bytes lit length' <+: source.bytes lit length := by
    obtain ⟨k, rfl⟩ : ∃ k, length = length' + k := ⟨length - length', by omega⟩
    rw [Mem.bytes_add]
    exact List.prefix_append _ _
  refine Or.inr ⟨full.take (n + (e.oend - e.dst).toNat) ++ source.bytes lit length',
    lit + length', ?_, ?_, by omega, fun hall => ?_⟩
  · rw [show e.dst + (op + length' - e.dst) = op + length' by omega]
    exact rel'
  · by_cases hfull : op < e.oend
    · rw [take_eq_of_lt rel hfull]
      exact ((List.prefix_append_right_inj full).mpr hbytes).trans hbegin
    · -- nothing more is written
      obtain rfl : length' = 0 := by omega
      rw [Mem.bytes_zero, List.append_nil]
      exact ((List.take_prefix _ _).trans (List.prefix_append _ _)).trans hbegin
  · by_cases hfull : op + length' = e.oend
    · exact Or.inl (by omega)
    · right
      have hlast : rest = [] := by
        by_contra hne
        have := hcons hne
        omega
      obtain ⟨hstop, hfinal⟩ := hnil hlast
      obtain rfl : length' = length := by omega
      rw [take_eq_of_lt rel (by omega)]
      exact hfinal

/-- The match of a sequence, cut at the end of the output. -/
theorem copyMatch_cut (hn : n ≤ full.length) (_ : op ≤ e.oend)
    (hlits : op = e.dst - n + (full ++ s.literals).length)
    (hk : op + k = min (op + s.matchLength) e.oend) :
    Lz4.copyMatch (full ++ s.literals) s.offset k = (s.apply full).take (n + (e.oend -
      e.dst).toNat) := by
  rw [copyMatch_of_le _ _ (show k ≤ s.matchLength by omega)]
  show (s.apply full).take _ = _
  have hlength : (s.apply full).length = (full ++ s.literals).length + s.matchLength := by
    simp only [length_apply, List.length_append]
    omega
  have hlits' := @List.length_append _ full s.literals
  by_cases hall : k = s.matchLength
  · rw [List.take_of_length_le (by omega), List.take_of_length_le (by omega)]
  · congr 1
    omega

/-- What a pass leaves behind. -/
def PartialNext (e : Env) (source : Mem) (n : Nat) (last final : List UInt8) (field : Nat)
    (stop : Int) : Next → Prop
  | .ret r h => PartialEnd e source n final stop r h
  | .loop _ h ip op => ∃ rest full, Partway e source last field final stop rest full ip ∧
      Rel e source n (full.take (n + (e.oend - e.dst).toNat)) h.mem ip op

/-- The match of a sequence. -/
theorem match_partial (serves : e.Serves n) (clear : e.HistoryClear n 31) (separate : e.Separate)
    (partway : Partway e source last field final stop (s :: rest) full ip) (hsrc : e.src ≤ ip)
    {tail : MatchPass} {ip₁ : Int}
    (hip₁ : ip₁ = ip + 1 + (lengthBytes s.literals.length).length + s.literals.length + 2)
    (hfits : tail.Fits e.early source ((source ip).toNat % 16) ip₁ op s.offset)
    (hchosen : tail.Chosen e.early source entry ((source ip).toNat % 16) ip₁ op s.offset)
    (hoend : op ≤ e.oend) (hn : n ≤ full.length)
    (rel : Rel e source n (full ++ s.literals) h.mem ip₁ op) :
    PartialNext e source n last final field stop (tail.run e.early h ip₁ op s.offset) := by
  obtain ⟨hholds, hend⟩ := partway.holds_sequence
  have hreaches := partway.reaches
  have hsize := length_encode s
  have hlitSize := length_lengthBytes s.literals.length
  have hmatchSize := length_lengthBytes s.matchCode
  cases tail with
  | fail ip' =>
    obtain ⟨hfail, hip'⟩ := hfits
    have hsrc' : e.early.src = e.src := rfl
    refine Or.inl ⟨by omega, fun hall => ?_⟩
    obtain ⟨parsed, -⟩ := parsed_of_holds hholds hreaches.1 hreaches.2.1 (e := e) (by omega)
    have hsome := parsed.matchRun
    rw [← hip₁, show matchRun e source _ _ = none from hfail] at hsome
    exact absurd hsome (by simp)
  | copy how length ip' =>
    obtain ⟨hmatch, hfits⟩ := hfits
    rw [holds_encode_iff, ← hip₁] at hholds
    obtain ⟨htoken, -, -, -, hmatchBytes⟩ := hholds
    have hfield := (toNat_token s.literals.length s.matchCode).2
    rw [← htoken] at hfield
    obtain ⟨rfl, hip'⟩ := matchRun_eq (Nat.mod_lt _ (by decide)) hmatch hreaches.1 hfield
      hmatchBytes
    obtain rfl : ip' = ip + s.encode.length := by
      have hcode : s.matchLength - 4 = s.matchCode := rfl
      rw [hcode] at hip'
      omega
    have hpos := rel.pos
    have hreach : e.dst - n ≤ op - s.offset := by
      have := hreaches.2.2.1
      rw [List.length_append] at hpos
      omega
    have rel' : Rel e source n (full ++ s.literals)
        (loadTo h ip₁ (ip + s.encode.length)).mem (ip + s.encode.length) op := by
      rw [loadTo_mem]
      exact rel.advance (by omega)
    have hcut := MatchCopy.run_cut hfits hchosen serves clear separate rel' (by omega) hoend
      (partway.offset_pos s (by simp)) hreaches.2.1 hreach hreaches.1
    change PartialNext e source n last final field stop (how.run e.early
      (loadTo h ip₁ (ip + s.encode.length)) (ip + s.encode.length) op s.offset s.matchLength)
    generalize how.run e.early (loadTo h ip₁ (ip + s.encode.length)) (ip + s.encode.length) op
      s.offset s.matchLength = next at hcut
    cases next with
    | ret r h' =>
      obtain ⟨hfull, rfl, relEnd⟩ := hcut
      rw [copyMatch_cut hn hoend hpos (by omega)] at relEnd
      rw [← show e.dst + (e.oend - e.dst) = e.oend by omega] at relEnd
      exact Or.inr ⟨_, _, relEnd, (List.take_prefix _ _).trans partway.tail.isPrefix,
        by omega, fun _ => Or.inl (by omega)⟩
    | loop fast h' ip' op' =>
      obtain ⟨rfl, hop', relNext⟩ := hcut
      rw [copyMatch_cut hn hoend hpos (by omega)] at relNext
      exact ⟨rest, s.apply full, partway.tail, relNext⟩

/-- A pass that reads a sequence of the block. -/
theorem sequence_partial (serves : e.Serves n) (clear : e.HistoryClear n 31) (separate : e.Separate)
    (partway : Partway e source last field final stop rest full ip) (hsrc : e.src ≤ ip)
    {offset : Nat} {how : LiteralCopy} {tail : MatchPass}
    (hfits : (Pass.sequence lit length how entry offset tail).Fits e.early source fast ip op)
    (rel : Rel e source n (full.take (n + (e.oend - e.dst).toNat)) h.mem ip op) :
    PartialNext e source n last final field stop
      ((Pass.sequence lit length how entry offset tail).run e.early h ip op) := by
  obtain ⟨⟨hrun, goes⟩, hoffset, htail, hchosen⟩ := hfits
  have hmore : lit + length + 2 < e.iend := goes.more
  have hoend : op + length < e.oend := goes.room
  have hiend := partway.iend_le
  rw [take_eq_of_lt rel (by omega)] at rel
  cases rest with
  | nil =>
    -- behind the last literals there is no more input
    have := ((partway.literals hrun).2.1 rfl).1
    omega
  | cons s rest =>
    obtain ⟨hholds, -⟩ := partway.holds_sequence
    rw [holds_encode_iff] at hholds
    obtain ⟨htoken, hlitBytes, hliterals, hle16, -⟩ := hholds
    obtain ⟨rfl, rfl⟩ := literalRun_eq hrun
      (by rw [htoken]; exact (toNat_token s.literals.length s.matchCode).1) hlitBytes
    obtain rfl : offset = s.offset :=
      hoffset.trans (readLE16_of_holds partway.reaches.2.1 hle16)
    have hn : n ≤ full.length := by
      have := rel.pos
      have := rel.le_pos
      omega
    have rel₀ : Rel e source n full (loadTo (h.load .input ip 1) (ip + 1)
        (ip + 1 + (lengthBytes s.literals.length).length)).mem
        (ip + 1 + (lengthBytes s.literals.length).length) op := by
      rw [loadTo_mem]
      exact rel.advance (by omega)
    have rel₁ := rel₀.literalCopy serves clear ⟨by omega, fun _ => by omega⟩ (Or.inl separate)
      (by omega) goes.fits (by omega) (by omega)
    rw [show source.bytes _ s.literals.length = s.literals from hliterals] at rel₁
    exact match_partial serves clear separate partway hsrc rfl htail hchosen (by omega) hn
      (rel₁.advance (by omega))

/-- The input is not written to. -/
theorem sameInput_of_logged (separate : e.Separate) (hsame : SameInput e source ⟨m₀, []⟩)
    (hlog : h.Logged (InBounds e) m₀) : SameInput e source h := by
  intro a hlow hhigh
  rw [frame_of_logged hlog (by rcases separate with hsep | hsep <;> omega)]
  exact hsame a hlow hhigh

/-- A pass goes on with the block, or ends as a partial decoding may. -/
theorem step_partial (serves : e.Serves n) (clear : e.HistoryClear n 31) (separate : e.Separate)
    (hsame : SameInput e source ⟨m₀, []⟩)
    (at_ : PartialAt e source m₀ n last final field stop fast h ip op) :
    (step e.early fast h ip op).Ends (PartialAt e source m₀ n last final field stop)
      (PartialEnd e source n final stop) ip := by
  obtain ⟨at_, rest, full, partway, rel⟩ := at_
  have placed : e.early.Placed :=
    ⟨serves.lowPrefix_le, serves.dst_le, serves.dictSize_eq, serves.prefix64k⟩
  have hsafe := step_safe placed at_
  obtain ⟨hlog, hsrc, hiend, hdst, hoend, hfast⟩ := at_
  obtain ⟨pass, hfits, hpass⟩ := exists_pass source (e := e.early) separate hsrc hiend hdst
    hoend hfast
  rw [hpass h (sameInput_of_logged (e := e.early) separate hsame hlog)] at hsafe ⊢
  have hnext : PartialNext e source n last final field stop (pass.run e.early h ip op) := by
    cases pass with
    | fail ip' =>
      obtain ⟨hnone, hip', -⟩ := hfits
      exact Or.inl ⟨by omega, fun hall =>
        partway.literalRun_ne_none hall (literalRun_of_none hnone)⟩
    | refuse lit =>
      obtain ⟨whole, -, -, hfull, -⟩ := hfits
      exact Bool.noConfusion hfull
    | stop lit length =>
      obtain ⟨whole, hrun, -, stops, -⟩ := hfits
      have hlit : lit ≤ e.iend := by
        have hiend : ip < e.iend := hiend
        obtain ⟨-, hlong, hshort⟩ := literalRun_le (e := e) hrun
        omega
      refine stop_partialEnd serves clear separate partway hsrc hlit hrun
        ⟨stops.length_eq, stops.ends⟩ hoend ?_
      rw [loadTo_mem]
      exact rel
    | sequence lit length how entry offset tail =>
      exact sequence_partial serves clear separate partway hsrc hfits rel
  generalize pass.run e.early h ip op = next at hsafe hnext
  cases next with
  | ret r h' => exact hnext
  | loop fast' h' ip' op' => exact ⟨⟨hsafe.1, hnext⟩, hsafe.2⟩

theorem run_partial {hist : List UInt8} (serves : e.Serves hist.length)
    (clear : e.HistoryClear hist.length 31) (separate : e.Separate) (conforming : b.Conforming hist)
    (hholds : source.Holds e.src b.encode) (hiend : e.iend ≤ e.src + (b.encode.length : Int))
    (hsame : SameInput e source ⟨m₀, []⟩) (hhist : HistoryAt e m₀ hist)
    (start : At e.early m₀ fast ⟨m₀, []⟩ e.src e.dst) {fuel : Nat} (hfuel : e.iend - e.src ≤ fuel) :
    ∃ r h', run e.early fuel (.loop fast ⟨m₀, []⟩ e.src e.dst) = some (r, h') ∧
      PartialEnd e source hist.length (hist ++ b.decode hist) (e.src + b.encode.length) r h' := by
  have partway : Partway e source b.lastLiterals b.lastField (hist ++ b.decode hist)
      (e.src + b.encode.length) b.sequences hist e.src :=
    ⟨hholds, rfl, hiend, conforming.lastField_lt, conforming.reaches, conforming.offset_pos,
      conforming.lastFive, (append_decode hist b).symm⟩
  have rel : Rel e source hist.length hist m₀ e.src e.dst :=
    { hhist.rel with input := fun a hlow hhigh => hsame a hlow hhigh }
  refine run_ends (fun at_ => at_.1.lt_iend)
    (fun at_ => step_partial serves clear separate hsame at_) ⟨start, b.sequences, hist, partway, ?_⟩
    hfuel
  rw [List.take_of_length_le (by omega)]
  exact rel

end Block

/-! ## The call -/

section Call

variable {m : Mem} {src dst : Int} {srcSize : Nat} {outputSize : Int} {dict : DictDirective}
  {lowPrefix dictStart : Int} {dictSize : Nat} {hist : List UInt8}

/-- What a partial decoding returns for the first `srcSize` bytes of a block. -/
theorem decompressGeneric_partial (fastDecLoop : Bool) {e : Env}
    (he : e = callEnv src dst srcSize outputSize false dict lowPrefix dictStart dictSize)
    (hsrc : src ≠ 0) (hout : 0 ≤ outputSize) (hsize : srcSize ≤ b.encode.length)
    (serves : e.Serves hist.length) (clear : e.HistoryClear hist.length 31) (separate : e.Separate)
    (conforming : b.Conforming hist) (hhist : HistoryAt e m hist)
    (hholds : m.Holds src (b.encode.take srcSize)) :
    ∃ r h', decompressGeneric fastDecLoop ⟨m, []⟩ src dst srcSize outputSize true dict lowPrefix
      dictStart dictSize = some (r, h') ∧
      (srcSize = b.encode.length → r = min outputSize (b.decode hist).length) ∧
      (r < 0 ∨ (r ≤ outputSize ∧ h'.mem.bytes dst r.toNat <+: b.decode hist)) := by
  have hiend : e.iend = src + srcSize := by rw [he]; rfl
  have hoend : e.oend = dst + outputSize := by rw [he]; rfl
  have hesrc : e.src = src := by rw [he]; rfl
  have hedst : e.dst = dst := by rw [he]; rfl
  have hearly : callEnv src dst srcSize outputSize true dict lowPrefix dictStart dictSize =
      e.early := by rw [he]; rfl
  have hblock : 0 < b.encode.length := by
    rw [Block.encode, List.length_append, length_encodeLast]
    omega
  unfold decompressGeneric
  rw [if_neg (by omega)]
  rw [hearly]
  by_cases hzero : outputSize = 0
  · rw [if_pos hzero, if_pos rfl]
    exact ⟨0, _, rfl, fun _ => by omega, Or.inr ⟨by omega, List.nil_prefix⟩⟩
  rw [if_neg hzero]
  by_cases hempty : srcSize = 0
  · rw [if_pos hempty]
    exact ⟨-1, _, rfl, fun hall => by omega, Or.inl (by omega)⟩
  rw [if_neg hempty]
  -- the rest of the block is put behind the input
  have hsame : SameInput e (m.store src b.encode) ⟨m, []⟩ := by
    intro a hlow hhigh
    obtain ⟨i, rfl⟩ : ∃ i : Nat, a = src + i := ⟨(a - src).toNat, by omega⟩
    rw [Mem.store_inside (by omega)]
    have happly := hholds.apply (i := i) (by rw [List.length_take]; omega)
    show m (src + i) = _
    rw [happly, List.getD_eq_getElem?_getD, List.getD_eq_getElem?_getD, List.getElem?_take,
      if_pos (by omega)]
  have start : At e.early m (entersFastLoop fastDecLoop e.early) ⟨m, []⟩ e.src e.dst := by
    rw [hesrc, hedst]
    exact at_start hearly.symm hout (by omega)
  obtain ⟨r, h', hrun, hend⟩ := run_partial serves clear separate conforming
    (by rw [hesrc]; exact Mem.holds_store m src b.encode) (by omega) hsame hhist start
    (show e.iend - e.src ≤ (srcSize : Nat) by omega)
  rw [hesrc, hedst] at hrun
  refine ⟨r, h', hrun, ?_⟩
  obtain ⟨hneg, hpart⟩ | ⟨out, ip, rel, hbegin, hle, hall⟩ := hend
  · exact ⟨fun hall => absurd (by omega) hpart, Or.inl hneg⟩
  · have hpos := rel.pos
    have hbytes := rel.bytes_output
    rw [show e.dst + r - e.dst = r by omega, hedst] at hbytes
    have hlength := hbegin.length_le
    rw [List.length_append] at hlength
    refine ⟨fun hwhole => ?_, Or.inr ⟨by omega, ?_⟩⟩
    · rcases hall (by omega) with hfull | hfinal
      · omega
      · rw [hfinal, List.length_append] at hpos
        omega
    · rw [hbytes]
      obtain ⟨more, hmore⟩ := hbegin
      have hlow := rel.le_pos
      exact ⟨more, by rw [← List.drop_append_of_le_length (by omega), hmore, List.drop_left]⟩

end Call

end Lz4.Decoder

namespace Lz4

open FlatMemory Decoder

/-- All of a block decodes to as much of its contents as was asked for, and the first `k` bytes
of it to the beginning of the contents, or to an error. -/
theorem decompressSafePartialUsingDict_decodes (fastDecLoop : Bool) (m : Mem) (source dest : Int)
    (targetOutputSize dstCapacity : Nat) (dictStart : Int) (dictSize : Nat) (b : Block) (k : Nat)
    (htarget : targetOutputSize ≤ dstCapacity) (hk : k ≤ b.encode.length)
    (buffers : Buffers source dest k targetOutputSize dictStart dictSize)
    (conforming : b.Conforming (m.bytes dictStart dictSize))
    (hholds : m.Holds source (b.encode.take k)) :
    ∃ r h', decompressSafePartialUsingDict fastDecLoop ⟨m, []⟩ source dest k targetOutputSize
        dstCapacity dictStart dictSize = some (r, h') ∧
      (k = b.encode.length →
        r = min targetOutputSize (b.decode (m.bytes dictStart dictSize)).length ∧
        h'.mem.Holds dest ((b.decode (m.bytes dictStart dictSize)).take targetOutputSize)) ∧
      (r < 0 ∨ (r ≤ targetOutputSize ∧
        h'.mem.bytes dest r.toNat <+: b.decode (m.bytes dictStart dictSize))) := by
  obtain ⟨dict, lowPrefix, dictStart', dictSize', ⟨-, hcall, -⟩, serves, clear, hhist⟩ :=
    exists_callEnv (m := m) buffers
  rw [← Mem.length_bytes m dictStart dictSize] at serves clear
  obtain ⟨r, h', hrun, hwhole, hpart⟩ := decompressGeneric_partial fastDecLoop rfl
    buffers.source_ne (by omega) hk serves (clear 31) buffers.source_apart conforming hhist hholds
  refine ⟨r, h', ?_, fun hall => ⟨by rw [hwhole hall]; omega, ?_⟩, hpart⟩
  · rw [hcall, show min (targetOutputSize : Int) dstCapacity = targetOutputSize by omega, hrun]
  · obtain hneg | ⟨-, hbegin⟩ := hpart
    · omega
    · rw [List.prefix_iff_eq_take, Mem.length_bytes] at hbegin
      have hmin : r.toNat =
          min targetOutputSize (b.decode (m.bytes dictStart dictSize)).length := by omega
      rw [Mem.Holds, List.length_take, ← hmin, hbegin, hmin, List.take_eq_take_iff]
      omega

/-- Six bytes of a block that decodes to fourteen. -/
theorem decompressSafePartialUsingDict_decodes_match :
    let b : Block := ⟨[⟨[7], 3, 8⟩], [1, 2, 3, 4, 5], 0⟩
    let m : Mem := Mem.store (fun _ => 9) 1 b.encode
    ∃ r h', decompressSafePartialUsingDict true ⟨m, []⟩ 1 100 b.encode.length (6 : Nat) (20 : Nat)
        50 5 = some (r, h') ∧
      (b.encode.length = b.encode.length →
        r = (min 6 (b.decode (m.bytes 50 5)).length : Nat) ∧
        h'.mem.Holds 100 ((b.decode (m.bytes 50 5)).take 6)) ∧
      (r < 0 ∨ (r ≤ (6 : Nat) ∧ h'.mem.bytes 100 r.toNat <+: b.decode (m.bytes 50 5))) := by
  intro b m
  refine decompressSafePartialUsingDict_decodes true m 1 100 6 20 50 5 b b.encode.length
    (by decide) (Nat.le_refl _) ?_ ?_ ?_
  · constructor <;> decide
  · constructor <;> decide
  · rw [List.take_length]
    exact Mem.holds_store _ _ _

end Lz4
