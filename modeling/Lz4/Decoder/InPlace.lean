import Lz4.Decoder.Correct

/-!
# Decoding in place

Input and output may share a buffer of `LZ4_DECOMPRESS_INPLACE_BUFFER_SIZE` bytes, the
compressed block at its end.  The output then chases the input, and the question is
whether it ever overtakes it.

## The gap

At a sequence boundary let `c` and `d` be the compressed and the decoded size of what
is left.  A block can expand by at most `2 + d / 255` bytes, and since it does
not expand as a whole, what is left cannot expand by more than was saved before.
Together this leaves a gap of at least 30 bytes (`gap_of_ahead`), which covers every copy
of the decoder but one: a `wildCopy32` of a match writes up to 31 bytes too many.  It
does when the length of the match is `1` modulo 32, and if the gap is exactly 30 there,
its last byte falls on the next token.

`decompressSafe_inPlace_iff` says that this is the only way in which in-place decoding
goes wrong.
-/

namespace Lz4

open FlatMemory

/-- `LZ4_DECOMPRESS_INPLACE_MARGIN` -/
def decompressInplaceMargin (size : Nat) : Nat := (size >>> 8) + 32

/-- `LZ4_DECOMPRESS_INPLACE_BUFFER_SIZE` -/
def decompressInplaceBufferSize (decompressedSize : Nat) : Nat :=
  decompressedSize + decompressInplaceMargin decompressedSize

theorem decompressInplaceBufferSize_eq (n : Nat) :
    decompressInplaceBufferSize n = n + n / 256 + 32 := by
  unfold decompressInplaceBufferSize decompressInplaceMargin
  omega

namespace Decoder

/-! ## Expansion -/

variable {s : Sequence}

/-- A sequence expands by less than its literals' length bytes. -/
theorem length_encode_le (hfour : 4 ≤ s.matchLength) :
    s.encode.length ≤ s.literals.length + s.matchLength + s.literals.length / 255 := by
  have hsize := length_encode s
  unfold Sequence.matchCode at hsize
  omega

variable {n : Nat}

/-- What any end of a block can expand by. -/
theorem length_encode_rest_le {rest : List Sequence} (hreaches : Reaches n rest) (last : List UInt8)
    (field : Nat) :
    (encodeSequences rest ++ encodeLast last field).length ≤
      decodedLength rest + last.length + 2 + (decodedLength rest + last.length) / 255 := by
  induction rest generalizing n with
  | nil =>
    rw [encodeSequences_nil, List.nil_append, length_encodeLast, decodedLength_nil]
    omega
  | cons s rest ih =>
    have hrest := ih hreaches.2.2.2
    have hseq := length_encode_le hreaches.1
    rw [encodeSequences_cons, List.append_assoc, List.length_append, decodedLength_cons]
    omega

/-- The buffer layout of in-place decoding, for a block that decodes to `size` bytes. -/
structure InPlaceEnv (e : Env) (size : Nat) : Prop where
  oend_eq : e.oend = e.dst + size
  iend_eq : e.iend = e.dst + size + size / 256 + 32
  smaller : e.iend - e.src < size

variable {h : Heap}

section

variable {e : Env} {source : Mem} {size : Nat} {rest : List Sequence} {last buf : List UInt8}
  {field : Nat} {ip op : Int}

/-- The input stays 30 bytes ahead of the output. -/
theorem gap_of_ahead (inplace : InPlaceEnv e size)
    (ahead : Ahead e source rest last field buf ip op) (hsrc : e.src ≤ ip)
    (hroom : op + decodedLength rest + last.length = e.oend) : op + 30 ≤ ip := by
  have hexpand := length_encode_rest_le ahead.reaches last field
  have hiend := ahead.iend_eq
  obtain ⟨hoend, hiend', hsmaller⟩ := inplace
  omega

/-- The match of `s` overshoots by 31 bytes into a gap of 30. -/
def HitsToken (size : Nat) (s : Sequence) (post : List Sequence) (last : List UInt8)
    (field : Nat) : Prop :=
  16 ≤ s.offset ∧ 33 ≤ s.matchLength ∧ s.matchLength % 32 = 1 ∧
    64 < decodedLength post + last.length ∧
    (encodeSequences post ++ encodeLast last field).length =
      decodedLength post + last.length + size / 256 + 2

/-- The byte that then falls on the next token. -/
def overwritingByte (buf : List UInt8) (s : Sequence) : UInt8 :=
  (Lz4.copyMatch (buf ++ s.literals) s.offset (s.matchLength + 31)).getD
    (buf.length + s.literals.length + s.matchLength + 30) 0

/-- Whenever a match hits the next token, it writes what is there. -/
def TokensSpared (size : Nat) (sequences : List Sequence) (last : List UInt8) (field : Nat)
    (buf : List UInt8) : Prop :=
  ∀ pre s post, sequences = pre ++ s :: post → HitsToken size s post last field →
    overwritingByte (pre.foldl Sequence.apply buf) s =
      (encodeSequences post ++ encodeLast last field).headD 0

theorem TokensSpared.tail (spared : TokensSpared size (s :: rest) last field buf) :
    TokensSpared size rest last field (s.apply buf) := by
  intro pre s' post hsplit hhits
  exact spared (s :: pre) s' post (by rw [hsplit, List.cons_append]) hhits

theorem wildEnd32_add (d : Int) (hn : 1 ≤ n) :
    wildEnd32 d (d + n) = d + (32 * ((n - 1) / 32 + 1) : Nat) := by
  have harg : d + (n : Int) - d - 1 = ((n - 1 : Nat) : Int) := by omega
  have hdiv : ((n - 1 : Nat) : Int) / (32 : Nat) = ((n - 1) / 32 : Nat) := by
    rw [← Int.natCast_ediv]
  unfold wildEnd32 passes
  rw [harg, hdiv, Int.toNat_natCast]

/-- The first byte of the rest of a block. -/
theorem apply_of_ahead (ahead : Ahead e source rest last field buf ip op) :
    source ip = (encodeSequences rest ++ encodeLast last field).headD 0 := by
  have hholds := ahead.holds
  cases hrest : encodeSequences rest ++ encodeLast last field with
  | nil =>
    have := congrArg List.length hrest
    rw [List.length_append, length_encodeLast, List.length_nil] at this
    omega
  | cons byte bytes =>
    rw [hrest, Mem.holds_cons] at hholds
    exact hholds.1

/-- Sequences that spare the tokens are clear of the input. -/
theorem sourceClear_of_spared (inplace : InPlaceEnv e size) (fast : Bool)
    (ahead : Ahead e source (s :: rest) last field buf ip op) (hsrc : e.src ≤ ip)
    (hdst : e.dst ≤ op) (hpos : op = e.dst + buf.length)
    (hroom : op + decodedLength (s :: rest) + last.length = e.oend)
    (hspared : fast = true → HitsToken size s rest last field → overwritingByte buf s =
      (encodeSequences rest ++ encodeLast last field).headD 0) :
    e.SourceClear source 0 (buf ++ s.literals) fast (op + s.literals.length) s.offset s.matchLength
      (ip + s.encode.length) := by
  have htail := ahead.tail
  rw [decodedLength_cons] at hroom
  have hgap := gap_of_ahead inplace htail (by omega) (by omega)
  refine Or.inr ⟨by omega, ?_⟩
  intro hfast hoffset hlength hoend a hlow hhigh
  have hend := wildEnd32_add (op + s.literals.length) (show 1 ≤ s.matchLength by omega)
  rw [hend] at hhigh ⊢
  -- only the last byte of the last strip can reach the input, and only across a gap of 30
  have hmod : s.matchLength % 32 = 1 := by omega
  have hip : ip + s.encode.length = a := by omega
  have hhits : HitsToken size s rest last field := by
    have hiend := htail.iend_eq
    obtain ⟨hoend', hiend', -⟩ := inplace
    refine ⟨hoffset, by omega, hmod, by omega, ?_⟩
    omega
  have hbyte := hspared hfast hhits
  rw [← apply_of_ahead htail, hip] at hbyte
  rw [← hbyte]
  unfold contents overwritingByte
  have hcount : (op + s.literals.length + (32 * ((s.matchLength - 1) / 32 + 1) : Nat) -
      (op + s.literals.length)).toNat = s.matchLength + 31 := by omega
  rw [hcount]
  congr 1
  omega

theorem spares_of_spared (inplace : InPlaceEnv e size) (fast : Bool)
    (ahead : Ahead e source rest last field buf ip op) (hsrc : e.src ≤ ip) (hdst : e.dst ≤ op)
    (hpos : op = e.dst + buf.length) (hroom : op + decodedLength rest + last.length = e.oend)
    (hspared : fast = true → TokensSpared size rest last field buf) :
    Spares e source 0 fast rest buf ip op := by
  induction rest generalizing buf ip op with
  | nil => exact gap_of_ahead inplace ahead hsrc hroom
  | cons s rest ih =>
    have hgap := gap_of_ahead inplace ahead hsrc hroom
    refine ⟨hgap, ?_, ?_⟩
    · exact sourceClear_of_spared inplace fast ahead hsrc hdst hpos hroom
        fun hfast hhits => hspared hfast [] s rest rfl hhits
    · have hlength := length_apply buf s
      rw [decodedLength_cons] at hroom
      exact ih ahead.tail (by omega) (by omega) (by omega) (by omega)
        fun hfast => (hspared hfast).tail

/-! ## The pass that hits a token -/

/-- Far from the end of the output a match in the current block stays in the fast
loop, and long ones at a distance are copied by `wildCopy32`. -/
theorem fastMatch_eq (serves : e.Serves n) (hdict : e.dict ≠ .usingExtDict)
    (rel : Rel e source n buf h.mem ip op) (hiend : ip < e.iend - 2) {token length : Nat}
    {ip' : Int} (hmatch : matchRun e source (token % 16) (ip + 2) = some (length, ip'))
    (hreach : e.dst - n ≤ op - readLE16 source ip) (hoend : op + length < e.oend - 64) :
    ∃ h', fastMatch e h token ip op = .loop true h' ip' (op + length) ∧
      (16 ≤ readLE16 source ip → 19 ≤ length → ∃ h₂ : Heap, h₂.mem = h.mem ∧ h' =
      wildCopy32 .window h₂ op (op - readLE16 source ip) (op + length)) := by
  have hcheck := checkOffset_iff serves rel.le_pos (readLE16_lt source ip)
  obtain ⟨pass, hfits, hchosen, hrun⟩ := fastMatch_pass source token
    (show ip + 2 < e.iend by omega) (show op ≤ e.oend - 32 by omega)
  rw [hrun h rel.input]
  cases pass with
  | fail ip'' => exact absurd (hmatch.symm.trans hfits.1) (by simp)
  | copy how length' ip'' =>
    obtain ⟨hmatch', hfits⟩ := hfits
    rw [hmatch, Option.some.injEq, Prod.mk.injEq] at hmatch'
    obtain ⟨rfl, rfl⟩ := hmatch'
    cases how with
    | eighteen fast =>
      obtain rfl : fast = true := by
        cases fast with
        | false => exact Entry.noConfusion hchosen
        | true => rfl
      refine ⟨_, rfl, fun _ hlong => ?_⟩
      have := hfits.2.1
      omega
    | safeCopy =>
      have := hchosen.2 rfl
      omega
    | fastCopy =>
      dsimp only [MatchPass.run, MatchCopy.run, fastMatchCopy]
      rw [if_neg (by rw [hcheck]; omega), if_neg (by simp [hdict])]
      refine ⟨_, rfl, fun hwide _ => ?_⟩
      rw [if_neg (by omega)]
      exact ⟨_, loadTo_mem (h.load .input ip 2) _ _, rfl⟩

/-- A pass of the fast loop over a sequence that is far from both ends. -/
theorem fastStep_of_ahead (serves : e.Serves n) (clear : e.HistoryClear n 31)
    (hdict : e.dict ≠ .usingExtDict) (ahead : Ahead e source (s :: rest) last field buf ip op)
    (rel : Rel e source n buf h.mem ip op) (hsrc : e.src ≤ ip) (hgap : op + 30 ≤ ip)
    (hout : op + s.literals.length + s.matchLength < e.oend - 64)
    (hin : ip + s.encode.length + 32 ≤ e.iend) :
    ∃ h₁ h' : Heap,
      Rel e source n (buf ++ s.literals) h₁.mem (ip + s.encode.length) (op + s.literals.length) ∧
      step e true h ip op =
      .loop true h' (ip + s.encode.length) (op + s.literals.length + s.matchLength) ∧
      (16 ≤ s.offset → 19 ≤ s.matchLength → h' =
      wildCopy32 .window h₁ (op + s.literals.length) (op + s.literals.length - s.offset)
      (op + s.literals.length + s.matchLength)) := by
  obtain ⟨parsed, hbytes⟩ := ahead.parsed
  have hsize := length_encode s
  have hlitsize := length_lengthBytes s.literals.length
  have hpos := rel.pos
  have hreaches := ahead.reaches.2.2.1
  set lit := ip + 1 + ((lengthBytes s.literals.length).length : Int) with hlit
  obtain ⟨pass, hfits, hstep⟩ := @exists_literalPass e ip op source true (by omega)
    (by omega) fun _ => by omega
  rw [hstep h rel.input]
  cases pass with
  | fail ip' => exact absurd (parsed.literals.symm.trans (literalRun_of_none hfits.1)) (by simp)
  | refuse lit' =>
    obtain ⟨length, hrun, near, -⟩ := hfits
    rw [parsed.literals, Option.some.injEq, Prod.mk.injEq] at hrun
    have := near.near
    omega
  | stop lit' length' =>
    obtain ⟨length, hrun, near, -⟩ := hfits
    rw [parsed.literals, Option.some.injEq, Prod.mk.injEq] at hrun
    have := near.near
    omega
  | go lit' length how entry =>
    obtain ⟨hrun, goes⟩ := hfits
    rw [parsed.literals, Option.some.injEq, Prod.mk.injEq] at hrun
    obtain ⟨rfl, rfl⟩ := hrun
    obtain rfl := goes.strips rfl ⟨by omega, by omega⟩
    have rel₁ : Rel e source n buf (loadTo (h.load .input ip 1) (ip + 1) lit).mem lit op := by
      rw [loadTo_mem]
      exact rel.advance (by omega)
    have rel₂ := rel₁.literalCopy serves clear ⟨by omega, fun _ => by omega⟩
      (Or.inr ⟨by omega, by omega⟩) (by omega) goes.fits (by omega) (by omega)
    rw [hbytes] at rel₂
    obtain ⟨h', hmatch, hwild⟩ := fastMatch_eq serves hdict rel₂ (by omega) parsed.matchRun
      (by rw [← parsed.offset_eq]; omega) hout
    rw [← parsed.offset_eq] at hwild
    have hnext : lit + s.literals.length ≤ ip + s.encode.length := by omega
    by_cases hlong : 16 ≤ s.offset ∧ 19 ≤ s.matchLength
    · obtain ⟨h₂, hmem₂, hcopy⟩ := hwild hlong.1 hlong.2
      refine ⟨h₂, h', ?_, hmatch, fun _ _ => hcopy⟩
      rw [hmem₂]
      exact rel₂.advance hnext
    · exact ⟨_, h', rel₂.advance hnext, hmatch, fun _ _ => by omega⟩

/-- If no state of the run has damaged input, the tokens were spared. -/
theorem spared_of_kept (inplace : InPlaceEnv e size) (serves : e.Serves 0)
    (clear : e.HistoryClear 0 31) (hdict : e.dict ≠ .usingExtDict)
    (ahead : Ahead e source rest last field buf ip op) (rel : Rel e source 0 buf h.mem ip op)
    {m₀ : Mem} (at_ : At e m₀ true h ip op) (hroom : op + decodedLength rest + last.length = e.oend)
    (hkept : ∀ fast' h' ip' op', Visited e (.loop true h ip op) (.loop fast' h' ip' op') → ∀ a,
      ip' ≤ a → a < e.iend → h'.mem a = source a) : TokensSpared size rest last field buf := by
  induction rest generalizing h buf ip op with
  | nil =>
    intro pre s post hsplit
    simp at hsplit
  | cons s₀ rest₀ ih =>
    have hsrc := at_.src_le
    have hpos := rel.pos
    have hgap := gap_of_ahead inplace ahead hsrc hroom
    have htail := ahead.tail
    have hroom' := hroom
    rw [decodedLength_cons] at hroom'
    have hiend := htail.iend_eq
    have first : HitsToken size s₀ rest₀ last field → overwritingByte buf s₀ =
        (encodeSequences rest₀ ++ encodeLast last field).headD 0 := by
      intro hhits
      obtain ⟨hfar, hlong, hmod, hout, hcount⟩ := hhits
      obtain ⟨h₁, h', rel₁, hstep, hwild⟩ := fastStep_of_ahead serves clear hdict ahead rel hsrc
        hgap (by omega) (by omega)
      have visited : Visited e (.loop true h ip op) (step e true h ip op) := Visited.here.step
      rw [hstep] at visited
      obtain ⟨hoend, hiend', -⟩ := inplace
      have hbyte := hkept _ _ _ _ visited (ip + s₀.encode.length) (Int.le_refl _) (by omega)
      have hreach : e.dst - (0 : Nat) ≤ op + s₀.literals.length - s₀.offset := by
        have := ahead.reaches.2.2.1
        omega
      have hlow := lowPrefix_le_match serves rel₁.le_pos ahead.reaches.2.1 hreach
        (by simp [hdict])
      have hend := wildEnd32_add (op + s₀.literals.length) (show 1 ≤ s₀.matchLength by omega)
      have done := MatchDone.of_matchCopied (matchCopied_wildCopy32 h₁ (op + s₀.literals.length)
        (op + s₀.literals.length + s₀.matchLength) hfar (n := s₀.matchLength + 31)
        (by rw [hend]; omega)) hlow
      rw [← hwild hfar (by omega)] at done
      rw [done.contents_of_mem serves rel₁ ahead.reaches.2.1 hreach (by omega) (by omega),
        apply_of_ahead htail] at hbyte
      rw [← hbyte]
      unfold contents overwritingByte
      congr 1
      omega
    intro pre s post hsplit hhits
    cases pre with
    | nil =>
      obtain ⟨rfl, rfl⟩ := hsplit
      exact first hhits
    | cons p pre =>
      simp only [List.cons_append, List.cons.injEq] at hsplit
      obtain ⟨rfl, hsplit⟩ := hsplit
      -- a later token can only be hit from far away of both ends
      have hhits' := hhits
      obtain ⟨-, -, -, hout, hcount⟩ := hhits'
      have hlater : 64 < decodedLength rest₀ + last.length ∧
          32 ≤ (encodeSequences rest₀ ++ encodeLast last field).length := by
        rw [hsplit, decodedLength_append, decodedLength_cons, encodeSequences_append,
          encodeSequences_cons, List.append_assoc, List.length_append, List.append_assoc,
          List.length_append]
        omega
      obtain ⟨h₁, h', -, hstep, -⟩ := fastStep_of_ahead serves clear hdict ahead rel hsrc
        hgap (by omega) (by omega)
      obtain ⟨parsed, hbytes⟩ := ahead.parsed
      have hclear : e.PassClear source 0 buf true ip op := by
        intro length lit offset matchLength ip' parsed'
        obtain ⟨rfl, rfl, rfl, rfl, rfl⟩ := parsed.unique parsed'
        rw [hbytes]
        exact sourceClear_of_spared inplace true ahead hsrc at_.dst_le (by omega) hroom
          fun _ => first
      have hpass := @step_spec e source 0 buf h true ip op serves clear m₀ at_ rel (Or.inr hgap)
        hclear
      have hsafe := step_safe serves.toPlaced at_
      rw [hstep] at hpass hsafe
      obtain ⟨-, -, -, rel'⟩ := hpass.rel parsed
      rw [hbytes] at rel'
      have visited : Visited e (.loop true h ip op) (step e true h ip op) := Visited.here.step
      rw [hstep] at visited
      have hspared := ih htail rel' hsafe.1 (by omega)
        fun fast' h'' ip' op' hvisited => hkept fast' h'' ip' op' (visited.trans hvisited)
      exact hspared pre s post hsplit hhits

end

end Decoder

open Decoder

/-! ## Calls -/

/-- Where the compressed block starts in a buffer at `dst` of exactly the required size. -/
def inPlaceSource (dst : Int) (b : Block) : Int :=
  dst + decompressInplaceBufferSize (b.decode []).length - b.encode.length

/-- The pointers of the call that decodes `b` in place. -/
def inPlaceEnv (dst : Int) (b : Block) : Env :=
  callEnv (inPlaceSource dst b) dst b.encode.length (b.decode []).length false .noDict dst 0 0

/-- Decoding `b` in place works: the call returns the right size and bytes, and
whenever it starts on a sequence, the input from there on is still intact. -/
def DecodesInPlace (fastDecLoop : Bool) (m : Mem) (dst : Int) (b : Block) : Prop :=
  (∃ h', decompressSafe fastDecLoop ⟨m, []⟩ (inPlaceSource dst b) dst b.encode.length
      (b.decode []).length = some (((b.decode []).length : Int), h') ∧
    h'.mem.Holds dst (b.decode [])) ∧
  ∀ fast h ip op,
    Visited (inPlaceEnv dst b) (.loop (entersFastLoop fastDecLoop (inPlaceEnv dst b)) ⟨m, []⟩
      (inPlaceSource dst b) dst) (.loop fast h ip op) →
    ∀ a, ip ≤ a → a < (inPlaceEnv dst b).iend → h.mem a = m a

section

variable {fastDecLoop : Bool} {m : Mem} {dst : Int} {b : Block}

theorem inPlaceEnv_serves (dst : Int) (b : Block) : (inPlaceEnv dst b).Serves 0 := by
  refine ⟨⟨Int.le_refl _, ?_, fun _ => rfl, by simp [inPlaceEnv, callEnv]⟩, rfl, rfl⟩
  show dst ≤ dst + ((b.decode []).length : Int)
  omega

theorem inPlaceEnv_historyClear (dst : Int) (b : Block) (slack : Int) :
    (inPlaceEnv dst b).HistoryClear 0 slack := by
  intro v op hlow hext hdst hoend hreach
  have : dst - ((0 : Nat) : Int) ≤ v := hlow
  have : v < dst := hext
  omega

theorem inPlaceEnv_inPlace (hsmaller : b.encode.length < (b.decode []).length) :
    InPlaceEnv (inPlaceEnv dst b) (b.decode []).length := by
  have hsize := decompressInplaceBufferSize_eq (b.decode []).length
  refine ⟨rfl, ?_, ?_⟩
  · show inPlaceSource dst b + (b.encode.length : Int) = dst + _ + _ + 32
    unfold inPlaceSource
    omega
  · show inPlaceSource dst b + (b.encode.length : Int) - inPlaceSource dst b < _
    omega

theorem inPlaceEnv_historyAt (dst : Int) (b : Block) (m : Mem) :
    HistoryAt (inPlaceEnv dst b) m [] := by
  intro v hlow _ hhigh
  rw [List.length_nil] at hlow
  omega

/-- The whole block is ahead of the first pass. -/
theorem inPlaceEnv_ahead (conforming : b.Conforming [])
    (hholds : m.Holds (inPlaceSource dst b) b.encode) :
    Ahead (inPlaceEnv dst b) m b.sequences b.lastLiterals b.lastField [] (inPlaceSource dst b)
      dst := by
  have hlength := length_decode [] b
  refine ⟨hholds, rfl, conforming.lastField_lt, conforming.reaches, ?_, conforming.lastFive,
    conforming.lastMatch⟩
  show dst + _ + _ ≤ dst + ((b.decode []).length : Int)
  omega

/-- In-place decoding works exactly when no match writes a wrong byte on top of the
token behind it. -/
theorem decompressSafe_inPlace_iff (fastDecLoop : Bool) (m : Mem) (dst : Int) (b : Block)
    (hdst : 0 < dst) (conforming : b.Conforming [])
    (hsmaller : b.encode.length < (b.decode []).length)
    (hholds : m.Holds (inPlaceSource dst b) b.encode) :
    DecodesInPlace fastDecLoop m dst b ↔
      (fastDecLoop = true → TokensSpared (b.decode []).length b.sequences b.lastLiterals
        b.lastField []) := by
  have serves := inPlaceEnv_serves dst b
  have clear := inPlaceEnv_historyClear dst b
  have inplace := @inPlaceEnv_inPlace dst b hsmaller
  have ahead := inPlaceEnv_ahead conforming hholds
  have hhist := inPlaceEnv_historyAt dst b m
  have hlength := length_decode [] b
  have hroom : dst + (decodedLength b.sequences : Int) + b.lastLiterals.length =
      (inPlaceEnv dst b).oend := by
    show _ = dst + ((b.decode []).length : Int)
    omega
  have hsource : inPlaceSource dst b ≠ 0 := by
    have hsize := decompressInplaceBufferSize_eq (b.decode []).length
    unfold inPlaceSource
    omega
  have start : At (inPlaceEnv dst b) m (entersFastLoop fastDecLoop (inPlaceEnv dst b)) ⟨m, []⟩
      (inPlaceSource dst b) dst := by
    refine at_start rfl (by omega) ?_
    rw [Block.encode, List.length_append, length_encodeLast]
    omega
  constructor
  · rintro ⟨-, hkept⟩ hfast
    by_cases hlarge : 64 ≤ (b.decode []).length
    · have henters : entersFastLoop fastDecLoop (inPlaceEnv dst b) = true := by
        have hroom' : ¬ (dst + ((b.decode []).length : Int) - dst < 64) := by omega
        simp only [entersFastLoop, hfast, Bool.true_and, Bool.not_eq_true']
        exact decide_eq_false hroom'
      rw [henters] at hkept start
      exact spared_of_kept inplace serves (clear 31) (by simp [inPlaceEnv, callEnv]) ahead
        hhist.rel start hroom hkept
    · -- too small for the fast loop
      intro pre s post hsplit hhits
      have hcount := congrArg decodedLength hsplit
      rw [decodedLength_append, decodedLength_cons] at hcount
      have := hhits.2.2.2.1
      omega
  · intro hspared
    have hspares := spares_of_spared inplace (entersFastLoop fastDecLoop (inPlaceEnv dst b)) ahead
      start.src_le start.dst_le (show dst = dst + ((0 : Nat) : Int) by omega) hroom
      fun henters => hspared (by
        exact (Bool.and_eq_true_iff.mp henters).1)
    refine ⟨?_, ?_⟩
    · have serves' : (inPlaceEnv dst b).Serves ([] : List UInt8).length := serves
      obtain ⟨h', hrun, rel⟩ := decompressGeneric_complete (e := inPlaceEnv dst b) rfl hsource
        serves' (clear _) conforming hhist hholds (Int.le_refl _) (Or.inr hspares)
      exact ⟨h', hrun, rel.holds_output⟩
    · intro fast h ip op visited
      have complete : (Next.loop (entersFastLoop fastDecLoop (inPlaceEnv dst b)) ⟨m, []⟩
          (inPlaceSource dst b) dst).Ends
          (CompleteAt (inPlaceEnv dst b) m 0 b.lastLiterals
            (b.sequences.foldl Sequence.apply [] ++ b.lastLiterals) b.lastField
            (entersFastLoop fastDecLoop (inPlaceEnv dst b)))
          (CompleteEnd (inPlaceEnv dst b) m 0
            (b.sequences.foldl Sequence.apply [] ++ b.lastLiterals))
          (inPlaceSource dst b - 1) :=
        ⟨⟨start, fun h => h, b.sequences, [], ahead, hhist.rel, rfl, Or.inr hspares⟩, by omega⟩
      obtain ⟨_, ⟨-, -, rest, buf, -, rel, -, -⟩, -⟩ := visited.ends
        (fun hcomplete => step_complete serves (clear _) hcomplete) complete
      exact rel.input

end

/-- A run of one repeated literal, decoded in place. -/
theorem decompressSafe_inPlace_iff_run : let b : Block := ⟨[⟨[7], 1, 40⟩], [1, 2, 3, 4, 5], 0⟩
    DecodesInPlace true (Mem.store (fun _ => 0) (inPlaceSource 1000 b) b.encode) 1000 b := by
  intro b
  refine (decompressSafe_inPlace_iff true _ 1000 b (by decide) ?_ (by decide)
    (Mem.holds_store _ _ _)).mpr ?_
  · constructor <;> decide
  · intro _ pre s post hsplit hhits
    have hlarge := hhits.2.2.2.1
    have hcount : 41 = decodedLength (pre ++ s :: post) := congrArg decodedLength hsplit
    rw [decodedLength_append, decodedLength_cons] at hcount
    have hlast : b.lastLiterals.length = 5 := rfl
    omega

/-- 16 literals, a match of 33 bytes at offset 16 and 70 more literals: the last byte of
the second strip destroys the token of the final literals, and decoding fails. -/
theorem decompressSafe_inPlace_fails :
    let b : Block := ⟨[⟨List.replicate 16 0, 16, 33⟩], List.replicate 70 0, 0⟩
    let m : Mem := Mem.store (fun _ => 0) (inPlaceSource 1000 b) b.encode
    b.Conforming [] ∧ b.encode.length < (b.decode []).length ∧
      m.Holds (inPlaceSource 1000 b) b.encode ∧
      (decompressSafe true ⟨m, []⟩ (inPlaceSource 1000 b) 1000 b.encode.length
        (b.decode []).length).map Prod.fst = some (-25) := by
  intro b m
  refine ⟨?_, by decide, Mem.holds_store _ _ _, by decide +kernel⟩
  constructor <;> decide

end Lz4
