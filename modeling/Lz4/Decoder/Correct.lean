import Lz4.Decoder.Parse

/-!
# The decoder against the block format

`run_sound` and `run_complete` lift the description of one pass to whole runs.
The first follows the input from its beginning: whatever has been consumed is the
encoding of sequences, and memory holds what they stand for.  The second follows a
given block from the part that is still to come: the rest of the encoding is in the
input, there is room for what it stands for, and no limit is hit early.

Completeness does not assume that input and output are separate.  When they
overlap, `Spares` has to say that no match destroys input ahead of it.
-/

namespace Lz4.Decoder

open FlatMemory

/-- The history `hist` is in memory where the call expects it, as far as an offset
can reach. -/
def HistoryAt (e : Env) (m : Mem) (hist : List UInt8) : Prop :=
  ∀ v, e.dst - hist.length ≤ v → e.dst - 65535 ≤ v → v < e.dst →
    m (e.phys v) = contents (e.dst - hist.length) hist v

variable {e : Env} {m : Mem}

theorem HistoryAt.rel {hist : List UInt8} (hhist : HistoryAt e m hist) :
    Rel e m hist.length hist m e.src e.dst where
  input _ _ _ := rfl
  pos := by omega
  le_pos := Int.le_refl _
  window v hlow hreach hhigh := hhist v hlow hreach hhigh
  output v hlow hhigh := by omega

variable {n : Nat}

theorem Env.HistoryClear.mono {slack slack' : Int} (clear : e.HistoryClear n slack)
    (hslack : slack' ≤ slack) : e.HistoryClear n slack' := by
  intro v op hlow hext hdst hoend hreach
  rcases clear v op hlow hext hdst hoend hreach with h | h | h
  · exact Or.inl h
  · exact Or.inr (Or.inl h)
  · exact Or.inr (Or.inr (by omega))

variable {fast : Bool}

/-- A call that starts in the safe loop stays there, so only calls that start in the
fast loop need its larger margin. -/
theorem Env.HistoryClear.of_fast {fast₀ : Bool}
    (clear : e.HistoryClear n (if fast₀ then 31 else 16)) (hfast : fast = true → fast₀ = true) :
    e.HistoryClear n (if fast then 31 else 16) := by
  refine clear.mono ?_
  cases fast with
  | false => cases fast₀ <;> simp
  | true => simp [hfast rfl]

variable {ip op lit ip₁ : Int} {buf : List UInt8} {length offset fuel matchLength : Nat} {h : Heap}

section Run

variable {e : Env} {source : Mem} {hist : List UInt8} {fast₀ : Bool}

/-! ## Soundness -/

/-- Consumed input and memory agree on the sequences decoded so far. -/
def SoundAt (e : Env) (source : Mem) (hist : List UInt8) (fast₀ fast : Bool) (h : Heap)
    (ip op : Int) : Prop :=
  At e source fast h ip op ∧ (fast = true → fast₀ = true) ∧
    ∃ sequences : List Sequence, Reaches hist.length sequences ∧
      source.Holds e.src (encodeSequences sequences) ∧
      ip = e.src + (encodeSequences sequences).length ∧
      Rel e source hist.length (sequences.foldl Sequence.apply hist) h.mem ip op

/-- What a nonnegative result means. -/
def SoundEnd (e : Env) (source : Mem) (hist : List UInt8) (r : Int) (h : Heap) : Prop :=
  0 ≤ r → ∃ b : Block, b.lastField < 16 ∧ Reaches hist.length b.sequences ∧
    source.Holds e.src b.encode ∧ e.iend = e.src + b.encode.length ∧
    r = (b.decode hist).length ∧ r ≤ e.oend - e.dst ∧
    h.mem.bytes e.dst (b.decode hist).length = b.decode hist

/-- The final literals complete the sequences to a block. -/
theorem soundEnd_last {sequences : List Sequence} (hreaches : Reaches hist.length sequences)
    (hholds : source.Holds e.src (encodeSequences sequences))
    (hip : ip = e.src + (encodeSequences sequences).length)
    (hliteral : literalRun e source ip = some (length, lit)) (hiend : lit + length = e.iend)
    (hoend : op + length ≤ e.oend)
    (rel : Rel e source hist.length (sequences.foldl Sequence.apply hist ++ source.bytes lit length)
      h.mem e.iend (op + length)) : SoundEnd e source hist (op + length - e.dst) h := by
  intro hnonneg
  obtain ⟨hlast, hsize⟩ := holds_encodeLast hliteral hiend
  have hpos := rel.pos
  have hcount := length_decode hist ⟨sequences, source.bytes lit length, (source ip).toNat % 16⟩
  rw [List.length_append, length_foldl_apply] at hpos
  dsimp only at hcount
  have hbytes := rel.bytes_output
  refine ⟨⟨sequences, source.bytes lit length, (source ip).toNat % 16⟩, Nat.mod_lt _ (by omega),
    hreaches, ?_, ?_, by omega, by omega, ?_⟩
  · rw [Block.encode, Mem.holds_append, ← hip]
    exact ⟨hholds, hlast⟩
  · rw [Block.encode, List.length_append]
    push_cast
    omega
  · have hlength : (Block.decode hist ⟨sequences, source.bytes lit length,
        (source ip).toNat % 16⟩).length = (op + length - e.dst).toNat := by omega
    rw [hlength]
    exact hbytes

theorem step_sound (serves : e.Serves hist.length)
    (clear : e.HistoryClear hist.length (if fast₀ then 31 else 16)) (separate : e.Separate)
    (hsound : SoundAt e source hist fast₀ fast h ip op) :
    (step e fast h ip op).Ends (SoundAt e source hist fast₀) (SoundEnd e source hist) ip := by
  obtain ⟨at_, hfast, sequences, hreaches, hholds, hip, rel⟩ := hsound
  have hsafe := step_safe serves.toPlaced at_
  have hpass := step_spec serves (clear.of_fast hfast) at_ rel (Or.inl separate)
    (fun _ _ _ _ _ _ => Or.inl separate)
  rcases hpass with ⟨-, r, h', hnext, hneg⟩ | ⟨length, lit, hliteral, hend⟩
  · rw [hnext]
    intro hnonneg
    omega
  cases hnext : step e fast h ip op with
  | ret r h' =>
    rw [hnext] at hend
    rcases hend with ⟨hiend, hoend, rfl, rel'⟩ | ⟨hneg, -⟩
    · exact soundEnd_last hreaches hholds hip hliteral hiend hoend rel'
    · intro hnonneg
      omega
  | loop fast' h' ip' op' =>
    rw [hnext] at hend hsafe
    obtain ⟨hmore, matchLength, hmatch, hop, hfast', hreach, rel'⟩ := hend
    obtain ⟨at', hlt⟩ := hsafe
    have parsed : Parsed e source ip length lit (readLE16 source (lit + length)) matchLength ip' :=
      ⟨hliteral, hmore, rfl, hmatch⟩
    obtain ⟨hfour, hoffset, hencode, hip'⟩ := parsed.holds_encode
    have hpos := rel.pos
    rw [length_foldl_apply] at hpos
    refine ⟨⟨at', fun hf => hfast (hfast' hf),
      sequences ++ [⟨source.bytes lit length, readLE16 source (lit + length), matchLength⟩],
      ?_, ?_, ?_, ?_⟩, hlt⟩
    · rw [reaches_append]
      refine ⟨hreaches, hfour, hoffset, ?_, trivial⟩
      simp only [Mem.length_bytes]
      omega
    · rw [encodeSequences_append, Mem.holds_append, ← hip, encodeSequences_cons,
        encodeSequences_nil, List.append_nil]
      exact ⟨hholds, hencode⟩
    · rw [encodeSequences_append, encodeSequences_cons, encodeSequences_nil, List.append_nil,
        List.length_append]
      omega
    · rw [List.foldl_append]
      exact rel'

/-- A run from the start of the input is sound. -/
theorem run_sound (serves : e.Serves hist.length)
    (clear : e.HistoryClear hist.length (if fast₀ then 31 else 16)) (separate : e.Separate)
    (at_ : At e m fast₀ ⟨m, []⟩ e.src e.dst) (hhist : HistoryAt e m hist)
    (hfuel : e.iend - e.src ≤ fuel) :
    ∃ r h', run e fuel (.loop fast₀ ⟨m, []⟩ e.src e.dst) = some (r, h') ∧ SoundEnd e m hist r
      h' := by
  refine run_ends (fun hsound => hsound.1.lt_iend)
    (fun hsound => step_sound serves clear separate hsound) ?_ hfuel
  exact ⟨at_, fun h => h, [], trivial, Mem.holds_nil _ _, by simp, hhist.rel⟩

/-! ## Completeness -/

/-- The rest of a block is still ahead: its encoding is in the input, and there is
room for what it stands for. -/
structure Ahead (e : Env) (source : Mem) (rest : List Sequence) (last : List UInt8) (field : Nat)
    (buf : List UInt8) (ip op : Int) : Prop where
  holds : source.Holds ip (encodeSequences rest ++ encodeLast last field)
  iend_eq : ip + (encodeSequences rest ++ encodeLast last field).length = e.iend
  field_lt : field < 16
  reaches : Reaches buf.length rest
  room : op + decodedLength rest + last.length ≤ e.oend
  lastFive : rest ≠ [] → 5 ≤ last.length
  lastMatch : ∀ s, rest.getLast? = some s → 12 ≤ s.matchLength + last.length

/-- When input and output share memory: the input stays 30 bytes ahead at every
sequence, and no match destroys what follows it. -/
def Spares (e : Env) (source : Mem) (n : Nat) (fast : Bool) :
    List Sequence → List UInt8 → Int → Int → Prop
  | [], _, ip, op => op + 30 ≤ ip
  | s :: rest, buf, ip, op => op + 30 ≤ ip ∧
      e.SourceClear source n (buf ++ s.literals) fast (op + s.literals.length) s.offset
        s.matchLength (ip + s.encode.length) ∧
      Spares e source n fast rest (s.apply buf) (ip + s.encode.length)
        (op + s.literals.length + s.matchLength)

theorem Spares.gap {rest : List Sequence} (spares : Spares e source n fast rest buf ip op) :
    op + 30 ≤ ip := by
  cases rest with
  | nil => exact spares
  | cons s rest => exact spares.1

theorem Env.SourceClear.of_fast (clear : e.SourceClear source n buf fast₀ op offset length ip)
    (hfast : fast = true → fast₀ = true) : e.SourceClear source n buf fast op offset length ip :=
  clear.imp_right fun ⟨hgap, hwild⟩ => ⟨hgap, fun hf => hwild (hfast hf)⟩

theorem Parsed.unique {lit' ip₂ : Int} {length' offset' : Nat} {matchLength' : Nat}
    (parsed : Parsed e source ip length lit offset matchLength ip₁)
    (parsed' : Parsed e source ip length' lit' offset' matchLength' ip₂) :
    length' = length ∧ lit' = lit ∧ offset' = offset ∧ matchLength' = matchLength ∧ ip₂ = ip₁ := by
  have hliteral := parsed'.literals
  rw [parsed.literals] at hliteral
  obtain ⟨rfl, rfl⟩ := hliteral
  have hmatch := parsed'.matchRun
  rw [parsed.matchRun] at hmatch
  obtain ⟨rfl, rfl⟩ := hmatch
  exact ⟨rfl, rfl, parsed'.offset_eq.trans parsed.offset_eq.symm, rfl, rfl⟩

/-- A pass that goes on has done the sequence that stands in the input. -/
theorem PassEnd.rel {fast' : Bool} {h' : Heap} {ip' op' : Int}
    (hend : PassEnd e source n buf fast ip op (.loop fast' h' ip' op'))
    (parsed : Parsed e source ip length lit offset matchLength ip₁) :
    ip' = ip₁ ∧ op' = op + length + matchLength ∧ (fast' = true → fast = true) ∧
      Rel e source n (Lz4.copyMatch (buf ++ source.bytes lit length) offset matchLength) h'.mem ip'
      op' := by
  rcases hend with ⟨-, r, h'', hnext, -⟩ | ⟨length', lit', hrun, hmore, matchLength', hmatch, hop,
    hfast, -, rel⟩
  · simp at hnext
  · obtain ⟨rfl, rfl, hoffset, rfl, rfl⟩ := parsed.unique ⟨hrun, hmore, rfl, hmatch⟩
    rw [hoffset] at rel
    exact ⟨rfl, hop, hfast, rel⟩

section Ahead

variable {s : Sequence} {rest : List Sequence} {last buf : List UInt8} {field : Nat} {ip op : Int}

section

variable (ahead : Ahead e source (s :: rest) last field buf ip op)

include ahead

/-- The margins that the end-of-block conditions leave behind a sequence. -/
theorem Ahead.limits :
    ip + s.encode.length + 6 ≤ e.iend ∧ op + s.literals.length + s.matchLength ≤ e.oend - 5 ∧
      op + s.literals.length ≤ e.oend - 12 := by
  have hfive := ahead.lastFive (by simp)
  have hlast := length_encodeLast last field
  have hiend := ahead.iend_eq
  have hroom := ahead.room
  have hfour := ahead.reaches.1
  rw [encodeSequences_cons, List.length_append, List.length_append] at hiend
  rw [decodedLength_cons] at hroom
  refine ⟨by omega, by omega, ?_⟩
  cases rest with
  | nil =>
    have := ahead.lastMatch s rfl
    omega
  | cons s' rest =>
    have hfour' := ahead.reaches.2.2.2.1
    rw [decodedLength_cons] at hroom
    omega

theorem Ahead.parsed :
    Parsed e source ip s.literals.length (ip + 1 + (lengthBytes s.literals.length).length) s.offset
      s.matchLength (ip + s.encode.length) ∧
      source.bytes (ip + 1 + (lengthBytes s.literals.length).length) s.literals.length =
      s.literals := by
  have hlimits := ahead.limits
  have hholds := ahead.holds
  rw [encodeSequences_cons, List.append_assoc, Mem.holds_append] at hholds
  exact parsed_of_holds hholds.1 ahead.reaches.1 ahead.reaches.2.1 (by omega)

theorem Ahead.tail :
    Ahead e source rest last field (s.apply buf) (ip + s.encode.length)
      (op + s.literals.length + s.matchLength) := by
  obtain ⟨hholds, hiend, hfield, hreaches, hroom, hfive, hmatch⟩ := ahead
  rw [encodeSequences_cons, List.append_assoc, Mem.holds_append] at hholds
  rw [encodeSequences_cons, List.append_assoc, List.length_append] at hiend
  rw [decodedLength_cons] at hroom
  refine ⟨hholds.2, by omega, hfield, ?_, by omega, fun _ => hfive (by simp), ?_⟩
  · rw [length_apply, ← Nat.add_assoc]
    exact hreaches.2.2.2
  · intro s' hs'
    refine hmatch s' ?_
    cases rest with
    | nil => simp at hs'
    | cons s'' rest => rw [List.getLast?_cons_cons, hs']

end

end Ahead

/-- The block is half decoded: what is ahead completes memory to `final`. -/
def CompleteAt (e : Env) (source : Mem) (n : Nat) (last final : List UInt8) (field : Nat)
    (fast₀ fast : Bool) (h : Heap) (ip op : Int) : Prop :=
  At e source fast h ip op ∧ (fast = true → fast₀ = true) ∧
    ∃ rest buf, Ahead e source rest last field buf ip op ∧ Rel e source n buf h.mem ip op ∧
      rest.foldl Sequence.apply buf ++ last = final ∧
      (e.Separate ∨ Spares e source n fast₀ rest buf ip op)

/-- The call returned the size of `final` without its history, and memory is related
to `final`. -/
def CompleteEnd (e : Env) (source : Mem) (n : Nat) (final : List UInt8) (r : Int) (h : Heap) :
    Prop :=
  r = final.length - n ∧ Rel e source n final h.mem e.iend (e.dst + r)

theorem step_complete {last final : List UInt8} {field : Nat} (serves : e.Serves n)
    (clear : e.HistoryClear n (if fast₀ then 31 else 16))
    (hcomplete : CompleteAt e source n last final field fast₀ fast h ip op) :
    (step e fast h ip op).Ends (CompleteAt e source n last final field fast₀)
      (CompleteEnd e source n final) ip := by
  obtain ⟨at_, hfast, rest, buf, ahead, rel, hfinal, hspares⟩ := hcomplete
  have hsafe := step_safe serves.toPlaced at_
  have hpos := rel.pos
  have hlit : e.Separate ∨ op + 30 ≤ ip := hspares.imp_right Spares.gap
  cases rest with
  | nil =>
    -- only the final literals are left
    obtain ⟨hholds, hiend, hfield, -, hroom, -, -⟩ := ahead
    rw [encodeSequences_nil, List.nil_append] at hholds hiend
    obtain ⟨hliteral, hbytes⟩ := literalRun_of_holds_encodeLast hfield hholds hiend
    rw [length_encodeLast] at hiend
    have hsize := length_lengthBytes last.length
    have hclear : e.PassClear source n buf fast ip op := by
      intro length lit offset matchLength ip' parsed
      have hmore := parsed.more
      have hrun := parsed.literals
      rw [hliteral] at hrun
      simp only [Option.some.injEq, Prod.mk.injEq] at hrun
      omega
    rcases step_spec serves (clear.of_fast hfast) at_ rel hlit hclear with
      ⟨hnone, -⟩ | ⟨length, lit, hrun, hend⟩
    · rw [hliteral] at hnone
      simp at hnone
    rw [hliteral] at hrun
    obtain ⟨rfl, rfl⟩ := hrun
    cases hnext : step e fast h ip op with
    | loop fast' h' ip' op' =>
      rw [hnext] at hend
      have := hend.1
      omega
    | ret r h' =>
      rw [hnext] at hend
      rcases hend with ⟨-, -, hr, rel'⟩ | ⟨-, hreject, -⟩
      · rw [hbytes, ← List.foldl_nil (f := Sequence.apply) (b := buf), hfinal] at rel'
        have hpos' := rel'.pos
        have hend : e.dst + r = op + last.length := by omega
        refine ⟨by omega, ?_⟩
        rw [hend]
        exact rel'
      · exact absurd ⟨by omega, by omega⟩ hreject
  | cons s rest =>
    obtain ⟨hiend, hoend, hoend'⟩ := ahead.limits
    obtain ⟨parsed, hbytes⟩ := ahead.parsed
    have hreaches := ahead.reaches
    have hsize := length_encode s
    have hlitsize := length_lengthBytes s.literals.length
    have hclear : e.PassClear source n buf fast ip op := by
      intro length lit offset matchLength ip' parsed'
      obtain ⟨rfl, rfl, rfl, rfl, rfl⟩ := parsed.unique parsed'
      rcases hspares with hsep | ⟨-, hsource, -⟩
      · exact Or.inl hsep
      · rw [hbytes]
        exact hsource.of_fast hfast
    have hpass := step_spec serves (clear.of_fast hfast) at_ rel hlit hclear
    cases hnext : step e fast h ip op with
    | ret r h' =>
      rw [hnext] at hpass
      rcases hpass with ⟨hnone, -⟩ | ⟨length, lit, hrun, hend⟩
      · rw [parsed.literals] at hnone
        simp at hnone
      rw [parsed.literals] at hrun
      obtain ⟨rfl, rfl⟩ := hrun
      rcases hend with ⟨hlast, -⟩ | ⟨-, -, hreject⟩
      · omega
      · have hbad := hreject (by omega) hoend' _ _ parsed.matchRun
        rw [← parsed.offset_eq] at hbad
        have := hreaches.2.2.1
        omega
    | loop fast' h' ip' op' =>
      rw [hnext] at hpass hsafe
      obtain ⟨rfl, rfl, hfast', rel'⟩ := hpass.rel parsed
      rw [hbytes] at rel'
      refine ⟨⟨hsafe.1, fun hf => hfast (hfast' hf), rest, s.apply buf, ahead.tail, rel',
        hfinal, ?_⟩, hsafe.2⟩
      exact hspares.imp_right fun hspares => hspares.2.2

/-- A run over a block that respects the format decodes it. -/
theorem run_complete {b : Block} (serves : e.Serves hist.length)
    (clear : e.HistoryClear hist.length (if fast₀ then 31 else 16)) (conforming : b.Conforming hist)
    (at_ : At e m fast₀ ⟨m, []⟩ e.src e.dst) (hhist : HistoryAt e m hist)
    (hholds : m.Holds e.src b.encode) (hiend : e.src + b.encode.length = e.iend)
    (hoend : e.dst + (b.decode hist).length ≤ e.oend)
    (hspares : e.Separate ∨ Spares e m hist.length fast₀ b.sequences hist e.src e.dst)
    (hfuel : e.iend - e.src ≤ fuel) :
    ∃ h', run e fuel (.loop fast₀ ⟨m, []⟩ e.src e.dst) = some (((b.decode hist).length : Int), h') ∧
      Rel e m hist.length (hist ++ b.decode hist) h'.mem e.iend (e.dst + (b.decode
      hist).length) := by
  have hlength := length_decode hist b
  have start : CompleteAt e m hist.length b.lastLiterals (hist ++ b.decode hist) b.lastField fast₀
      fast₀ ⟨m, []⟩ e.src e.dst := by
    refine ⟨at_, fun h => h, b.sequences, hist, ?_, hhist.rel, (append_decode hist b).symm,
      hspares⟩
    exact ⟨hholds, hiend, conforming.lastField_lt, conforming.reaches, by omega,
      conforming.lastFive, conforming.lastMatch⟩
  obtain ⟨r, h', hrun, hr, rel⟩ := run_ends (fun hcomplete => hcomplete.1.lt_iend)
    (fun hcomplete => step_complete serves clear hcomplete) start hfuel
  have hsize : r = (b.decode hist).length := by
    rw [List.length_append] at hr
    omega
  rw [hsize] at hrun rel
  exact ⟨h', hrun, rel⟩

/-- The relation at the end of a call, as far as its output goes. -/
theorem Rel.holds_output {source m' : Mem} {bytes : List UInt8}
    (rel : Rel e source hist.length (hist ++ bytes) m' ip (e.dst + bytes.length)) :
    m'.Holds e.dst bytes := by
  have hout := rel.bytes_output
  have hcount : (e.dst + (bytes.length : Int) - e.dst).toNat = bytes.length := by omega
  rw [hcount, List.drop_left] at hout
  exact hout

end Run

end Lz4.Decoder

namespace Lz4

open FlatMemory Decoder

/-! ## Calls -/

section Call

variable {fastDecLoop : Bool} {m : Mem} {src dst : Int} {srcSize : Nat} {outputSize : Int}
  {dict : DictDirective} {lowPrefix dictStart : Int} {dictSize : Nat} {hist : List UInt8}

/-- A conforming block that stands for nothing is the single byte `0`. -/
theorem Block.Conforming.encode_of_decode_nil {b : Block} (conforming : b.Conforming hist)
    (hnil : (b.decode hist).length = 0) : b.encode = [0] := by
  rw [length_decode] at hnil
  have hlast : b.lastLiterals = [] := List.length_eq_zero_iff.mp (by omega)
  have hseq : b.sequences = [] := by
    cases hcase : b.sequences with
    | nil => rfl
    | cons s rest =>
      have := conforming.lastFive (by simp [hcase])
      omega
  unfold Block.encode
  rw [hseq, hlast, conforming.empty hseq hlast]
  rfl

variable (fastDecLoop) in
theorem decompressGeneric_sound (hsrc : src ≠ 0) (hout : 0 ≤ outputSize)
    (serves : (callEnv src dst srcSize outputSize false dict lowPrefix dictStart dictSize).Serves
      hist.length)
    (clear : (callEnv src dst srcSize outputSize false dict lowPrefix dictStart
      dictSize).HistoryClear hist.length 31)
    (hsep : src + srcSize ≤ dst ∨ dst + outputSize ≤ src)
    (hhist : HistoryAt (callEnv src dst srcSize outputSize false dict lowPrefix dictStart dictSize)
      m hist) :
    ∃ r h', decompressGeneric fastDecLoop ⟨m, []⟩ src dst srcSize outputSize false dict lowPrefix
        dictStart dictSize = some (r, h') ∧
      (0 ≤ r → ∃ b : Block, b.lastField < 16 ∧ Reaches hist.length b.sequences ∧
        m.bytes src srcSize = b.encode ∧ r = (b.decode hist).length ∧ r ≤ outputSize ∧
        h'.mem.Holds dst (b.decode hist)) := by
  unfold decompressGeneric
  rw [if_neg (by omega)]
  dsimp only
  set e := callEnv src dst srcSize outputSize false dict lowPrefix dictStart dictSize with he
  have hiend : e.iend = src + srcSize := rfl
  split
  · rw [if_neg (by simp)]
    split
    · rename_i hone
      refine ⟨_, _, rfl, ?_⟩
      intro hr
      split at hr
      · -- the empty block
        rename_i hbyte
        refine ⟨⟨[], [], 0⟩, by decide, trivial, ?_, ?_, ?_, ?_⟩
        · subst hone
          simp only [Mem.bytes, hbyte]
          rfl
        · rw [if_pos hbyte]
          simp [Block.decode]
        · rw [if_pos hbyte]
          exact hout
        · simp [Block.decode]
      · omega
    · exact ⟨_, _, rfl, by omega⟩
  split
  · exact ⟨_, _, rfl, by omega⟩
  have start : At e m (entersFastLoop fastDecLoop e) ⟨m, []⟩ e.src e.dst :=
    at_start he (by omega) (by omega)
  have clear' : e.HistoryClear hist.length
      (if entersFastLoop fastDecLoop e = true then 31 else 16) :=
    clear.mono (by split <;> omega)
  obtain ⟨r, h', hrun, hsound⟩ := run_sound serves clear' hsep start hhist
    (show e.iend - e.src ≤ (srcSize : Int) by rw [hiend]; show src + srcSize - src ≤ _; omega)
  refine ⟨r, h', hrun, ?_⟩
  intro hr
  obtain ⟨b, hfield, hreaches, hholds, hsize, hlength, hle, hbytes⟩ := hsound hr
  refine ⟨b, hfield, hreaches, ?_, hlength, ?_, hbytes⟩
  · have hcount : srcSize = b.encode.length := by
      have : src + (srcSize : Int) = src + b.encode.length := hsize
      omega
    rw [hcount]
    exact hholds
  · have : r ≤ dst + outputSize - dst := hle
    omega

theorem decompressGeneric_complete {b : Block} {e : Env}
    (he : e = callEnv src dst b.encode.length outputSize false dict lowPrefix dictStart dictSize)
    (hsrc : src ≠ 0) (serves : e.Serves hist.length)
    (clear : e.HistoryClear hist.length (if entersFastLoop fastDecLoop e then 31 else 16))
    (conforming : b.Conforming hist) (hhist : HistoryAt e m hist) (hholds : m.Holds src b.encode)
    (hroom : (b.decode hist).length ≤ outputSize)
    (hspares : e.Separate ∨
      Spares e m hist.length (entersFastLoop fastDecLoop e) b.sequences hist src dst) :
    ∃ h', decompressGeneric fastDecLoop ⟨m, []⟩ src dst b.encode.length outputSize false dict
        lowPrefix dictStart dictSize = some (((b.decode hist).length : Int), h') ∧
      Rel e m hist.length (hist ++ b.decode hist) h'.mem e.iend
        (e.dst + (b.decode hist).length) := by
  have hiend : e.iend = src + b.encode.length := by rw [he]; rfl
  have hoend : e.oend = dst + outputSize := by rw [he]; rfl
  have hesrc : e.src = src := by rw [he]; rfl
  have hedst : e.dst = dst := by rw [he]; rfl
  have hsize : 0 < b.encode.length := by
    rw [Block.encode, List.length_append, length_encodeLast]
    omega
  unfold decompressGeneric
  rw [if_neg (by omega)]
  rw [← he]
  split
  · have hnil : (b.decode hist).length = 0 := by omega
    have hencode := conforming.encode_of_decode_nil hnil
    rw [hencode, Mem.holds_cons] at hholds
    refine ⟨(⟨m, []⟩ : Heap).load .input src 1, ?_, ?_⟩
    · rw [if_neg (by simp), hencode, List.length_singleton, if_pos rfl, if_pos hholds.1, hnil]
      rfl
    · rw [List.length_eq_zero_iff.mp hnil, List.append_nil, List.length_nil]
      have hstart : e.dst + ((0 : Nat) : Int) = e.dst := by omega
      rw [hstart]
      exact hhist.rel.advance (by omega)
  rw [if_neg (by omega)]
  have start : At e m (entersFastLoop fastDecLoop e) ⟨m, []⟩ src dst :=
    at_start he (by omega) hsize
  rw [← hesrc, ← hedst] at start hspares
  rw [← hesrc] at hholds
  have hfuel : e.iend - e.src ≤ b.encode.length := by omega
  obtain ⟨h', hrun, rel⟩ := run_complete serves clear conforming start hhist hholds
    (by omega) (by omega) hspares hfuel
  rw [hesrc, hedst] at hrun
  exact ⟨h', hrun, rel⟩

end Call

end Lz4
