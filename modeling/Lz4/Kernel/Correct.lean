import Lz4.Encoder.Fast
import Lz4.Kernel.Decompress

/-!
# What the kernel's decoder delivers

`Decodes` says what an input stands for, in terms of its turns: literals and matches are appended
to a list, every offset is proper and every match ends in the output.  A pass follows it
(`Decoding.step`), so the run delivers the content (`decompressGeneric_of_decodes`).

A block that respects the format stands for its content (`decodes_of_conforming`): the limits
that the kernel tests do not get in its way.

What `Decoding` says of memory concerns the input and the output written so far.  It therefore
survives whatever is done to other addresses, which is what the kernels that decode many blocks
at once rely on.
-/

namespace Lz4.Kernel

open FlatMemory Decoder Machine

/-! ## Turns -/

variable {lit : Int} {s : Sequence} {field n : Nat}

section Turns

variable {c : Call} {source : Mem} {ip : Int} {opRel : Nat}

theorem lengthAt_of_holds {limit : Int} (hholds : source.Holds ip (lengthBytes n))
    (hlimit : ip + (lengthBytes n).length ≤ limit) (hn : n < 2 ^ 32) :
    lengthAt source ip limit (lengthField n) = some (n, ip + (lengthBytes n).length) := by
  unfold lengthAt lengthField
  by_cases hshort : n < 15
  · rw [if_neg (by omega), lengthBytes_of_lt hshort, Nat.min_eq_left (by omega)]
    simp
  · obtain ⟨k, rfl⟩ : ∃ k, n = 15 + k := ⟨n - 15, by omega⟩
    have hfield : min (15 + k) 15 = 15 := by omega
    rw [hfield, if_pos rfl, readLengthBytes_complete hholds (by omega)]
    dsimp only
    rw [Nat.mod_eq_of_lt hn]

theorem matchTurn_of_holds {token : Nat} (htoken : token % 16 = lengthField s.matchCode)
    (hlt : s.offset < 65536) (hoffset : source.Holds (lit + s.literals.length) (le16 s.offset))
    (hlength : source.Holds (lit + s.literals.length + 2) (lengthBytes s.matchCode))
    (hfour : 4 ≤ s.matchLength) (hreach : s.offset ≤ opRel + s.literals.length)
    (hsize : opRel + s.literals.length + s.matchLength < 2 ^ 32)
    (hiend : lit + s.literals.length + 2 + (lengthBytes s.matchCode).length ≤ c.iend - 5) :
    matchTurn c source lit s.literals.length token opRel =
      .sequence lit s.literals.length s.offset s.matchLength
      (lit + s.literals.length + 2 + (lengthBytes s.matchCode).length) := by
  have hcode : s.matchCode + 4 = s.matchLength := by
    unfold Sequence.matchCode
    omega
  unfold matchTurn
  rw [readLE16_of_holds hlt hoffset, Nat.mod_eq_of_lt (by omega), if_neg (by omega), htoken,
    lengthAt_of_holds hlength hiend (by omega)]
  dsimp only
  rw [hcode, Nat.mod_eq_of_lt (by omega)]

/-- In front of a sequence that is followed by a token and five literals, the turn is this
sequence. -/
theorem turn_of_holds (hholds : source.Holds ip s.encode) (hlt : s.offset < 65536)
    (hfour : 4 ≤ s.matchLength) (hreach : s.offset ≤ opRel + s.literals.length)
    (hroom : opRel + s.literals.length + 12 ≤ c.outputSize)
    (hsize : opRel + s.literals.length + s.matchLength < 2 ^ 32)
    (hiend : ip + s.encode.length + 6 ≤ c.iend) :
    turn c source ip opRel =
      .sequence (ip + 1 + (lengthBytes s.literals.length).length) s.literals.length s.offset
      s.matchLength (ip + s.encode.length) := by
  rw [holds_encode_iff] at hholds
  obtain ⟨htoken, hlitBytes, -, hle16, hmatchBytes⟩ := hholds
  obtain ⟨hfield, hfield'⟩ := toNat_token s.literals.length s.matchCode
  have hlit := length_lengthBytes s.literals.length
  have hmatch := length_lengthBytes s.matchCode
  have hencode := length_encode s
  have hnext : ip + s.encode.length = ip + 1 + (lengthBytes s.literals.length).length +
      s.literals.length + 2 + (lengthBytes s.matchCode).length := by omega
  rw [hnext]
  unfold turn
  dsimp only
  rw [htoken, hfield]
  split
  · rename_i fast
    have hshort : s.literals.length < 15 := by
      have hunsaturated := fast.1
      rw [hfield] at hunsaturated
      unfold lengthField at hunsaturated
      omega
    have hnone : lengthBytes s.literals.length = [] := lengthBytes_of_lt hshort
    have hself : lengthField s.literals.length = s.literals.length := by
      unfold lengthField
      omega
    rw [hnone, List.length_nil] at hle16 hmatchBytes ⊢
    rw [hself]
    have hzero : ip + 1 + ((0 : Nat) : Int) = ip + 1 := by omega
    rw [hzero] at hle16 hmatchBytes ⊢
    exact matchTurn_of_holds hfield' hlt hle16 hmatchBytes hfour hreach hsize (by omega)
  · rw [lengthAt_of_holds hlitBytes (by omega) (by omega)]
    dsimp only
    rw [if_neg (by omega)]
    exact matchTurn_of_holds hfield' hlt hle16 hmatchBytes hfour hreach hsize (by omega)

/-- In front of the last literals, the turn is these literals. -/
theorem turn_of_last {last : List UInt8} (hfield : field < 16)
    (hholds : source.Holds ip (encodeLast last field))
    (hiend : ip + (encodeLast last field).length = c.iend)
    (hroom : opRel + last.length ≤ c.outputSize) (hsize : last.length < 2 ^ 32) :
    turn c source ip opRel = .last (ip + 1 + (lengthBytes last.length).length) last.length := by
  have hlit := length_lengthBytes last.length
  rw [length_encodeLast] at hiend
  unfold encodeLast at hholds
  rw [Mem.holds_cons, Mem.holds_append] at hholds
  obtain ⟨htoken, hlitBytes, -⟩ := hholds
  have hhigh : (source ip).toNat / 16 = lengthField last.length := by
    rw [htoken, UInt8.toNat_ofNat']
    unfold lengthField
    omega
  have hslow : ¬ c.Fast (ip + 1) (source ip).toNat opRel := by
    -- so few literals cannot reach the end from there
    rintro ⟨hshort, hfar, -, -⟩
    rw [hhigh] at hshort
    unfold lengthField at hshort
    omega
  unfold turn
  rw [if_neg hslow, hhigh, lengthAt_of_holds hlitBytes (by omega) hsize]
  dsimp only
  rw [if_pos (by omega), if_pos ⟨by omega, hroom⟩]

end Turns

/-! ## Passes -/

theorem Call.serves (c : Call) (hout : 0 ≤ c.outputSize) : c.env.Serves 0 where
  lowPrefix_le := Int.le_refl _
  dst_le := by
    show c.dst ≤ c.dst + c.outputSize
    omega
  dictSize_eq _ := rfl
  prefix64k hdict := by simp [env] at hdict
  full := rfl
  reach := rfl

/-- There is no history that a write could hit. -/
theorem Call.historyClear (c : Call) (slack : Int) : c.env.HistoryClear 0 slack := by
  intro v op hlow hext
  have hstart : c.env.lowPrefix = c.env.dst := rfl
  omega

/-! ## What an input stands for -/

/-- With `buf` decoded already, the input from `ip` on decodes to `content`: every turn is a
sequence with a proper offset that ends in the output, up to the last literals. -/
inductive Decodes (c : Call) (source : Mem) (content : List UInt8) : Int → List UInt8 → Prop
  | last {ip lit : Int} {buf : List UInt8} {length : Nat}
      (hturn : turn c source ip buf.length = .last lit length)
      (hcontent : buf ++ source.bytes lit length = content) : Decodes c source content ip buf
  | sequence {ip lit next : Int} {buf : List UInt8} {length offset matchLength : Nat}
      (hturn : turn c source ip buf.length = .sequence lit length offset matchLength next)
      (hpos : 0 < offset) (hfits : buf.length + length + matchLength ≤ c.outputSize)
      (hrest : Decodes c source content next
        (Lz4.copyMatch (buf ++ source.bytes lit length) offset matchLength)) :
      Decodes c source content ip buf

/-- In the middle of an input that decodes to `content`. -/
structure Decoding (c : Call) (source : Mem) (content : List UInt8) (s : State) : Prop where
  intact : c.Intact source s.heap.mem
  src_le : c.src ≤ s.ip
  lt_iend : s.ip < c.iend
  ahead : ∃ buf, Rel c.env source 0 buf s.heap.mem s.ip (c.dst + s.opRel) ∧
    Decodes c source content s.ip buf

/-- What a pass makes of it: it is further on, or at the end.  Only the output has changed. -/
def Decoding.Next (c : Call) (source : Mem) (content : List UInt8) (s : State) :
    Step State (Nat × Heap) → Prop
  | .next s' => Decoding c source content s' ∧ s.ip < s'.ip ∧
      ∀ a, (a < c.dst ∨ c.oend ≤ a) → s'.heap.mem a = s.heap.mem a
  | .done r => r.1 = content.length ∧ r.2.mem.Holds c.dst content ∧ content.length ≤ c.outputSize ∧
      ∀ a, (a < c.dst ∨ c.oend ≤ a) → r.2.mem a = s.heap.mem a

variable {m : Mem} {length : Nat}

section Passes

variable {c : Call} {source : Mem} {content buf : List UInt8} {s : State}

theorem opRel_eq (rel : Rel c.env source 0 buf s.heap.mem s.ip (c.dst + s.opRel)) :
    s.opRel = buf.length := by
  have hpos : c.dst + (s.opRel : Int) = c.dst - ((0 : Nat) : Int) + buf.length := rel.pos
  omega

/-- The pass in front of a sequence appends it. -/
theorem Decoding.sequence (separate : c.Separate) (hsize : c.outputSize < 2 ^ 31)
    (decoding : Decoding c source content s)
    (rel : Rel c.env source 0 buf s.heap.mem s.ip (c.dst + s.opRel)) {next : Int}
    {offset matchLength : Nat}
    (hturn : turn c source s.ip buf.length = .sequence lit length offset matchLength next)
    (hpos : 0 < offset) (hfits : buf.length + length + matchLength ≤ c.outputSize)
    (hrest : Decodes c source content next
      (Lz4.copyMatch (buf ++ source.bytes lit length) offset matchLength)) :
    Decoding.Next c source content s (pass c s) := by
  obtain ⟨intact, hsrc, hlt, -⟩ := decoding
  have hbuf := opRel_eq rel
  rw [← hbuf] at hturn
  have hdoes := pass_turn separate hsize intact hsrc hlt
  rw [hturn] at hdoes
  obtain ⟨h₁, h₂, hpass, -, literals, matched⟩ := hdoes
  obtain ⟨hlit, hnext, hnext', hreach, hroom⟩ := turn_sequence hturn
  have hdst : c.env.dst = c.dst := rfl
  have hoend : c.env.oend = c.oend := rfl
  have hoend' : c.oend = c.dst + c.outputSize := rfl
  have hiend : c.env.iend = c.iend := rfl
  have hmod : (s.opRel + length) % 2 ^ 32 = s.opRel + length := Nat.mod_eq_of_lt (by omega)
  have hmod' : (s.opRel + length + matchLength) % 2 ^ 32 = s.opRel + length + matchLength :=
    Nat.mod_eq_of_lt (by omega)
  rw [hmod'] at hpass
  have hlimit : max (c.dst + s.opRel + length + matchLength) c.oend = c.oend := by omega
  -- the literals
  have hsep₁ : c.env.iend ≤ c.env.dst ∨ c.oend ≤ lit + length :=
    separate.imp_right fun h => by omega
  have rel₁ := rel.literals (c.serves (by omega)) (c.historyClear c.outputSize) literals
    (by omega) (by omega) (Int.le_refl _) (by omega) (by omega) hsep₁
  have hoffset : offset < 65536 := turn_offset_lt hturn
  -- the match
  have done : MatchDone c.env h₁.mem h₂.mem (c.dst + s.opRel + length) offset matchLength
      c.oend := by
    rw [← hlimit]
    refine MatchDone.of_matchCopied (matched.copied hpos) ?_
    show c.dst ≤ _
    omega
  have hsep₂ : c.env.iend ≤ c.env.dst ∨ ∀ a, next ≤ a → a < c.oend → h₂.mem a = source a :=
    separate.imp_right fun h a hlow hhigh => by omega
  have rel₂ : Rel c.env source 0
      (Lz4.copyMatch (buf ++ source.bytes lit length) offset matchLength) h₂.mem next
      (c.dst + s.opRel + length + matchLength) :=
    rel₁.copyMatch (c.serves (by omega)) (c.historyClear c.outputSize) done hoffset (by omega)
      (by omega) (Int.le_refl _) (by omega) (by omega) hsep₂
  have intact₁ : c.Intact source h₁.mem :=
    intact.frame separate (by omega) (Int.le_refl _) literals.frame
  rw [hpass]
  refine ⟨⟨matched.intact separate intact₁ (by omega) (by omega), ?_, hnext', _, ?_, hrest⟩, ?_, ?_⟩
  · show c.src ≤ next
    omega
  · have haddr : c.dst + ((s.opRel + length + matchLength : Nat) : Int) =
        c.dst + s.opRel + length + matchLength := by omega
    rw [haddr]
    exact rel₂
  · show s.ip < next
    omega
  · intro a ha
    rw [matched.frame a (by omega), literals.frame a (by omega)]

/-- The pass in front of the last literals ends the run. -/
theorem Decoding.last (separate : c.Separate) (hsize : c.outputSize < 2 ^ 31)
    (decoding : Decoding c source content s)
    (rel : Rel c.env source 0 buf s.heap.mem s.ip (c.dst + s.opRel))
    (hturn : turn c source s.ip buf.length = .last lit length)
    (hcontent : buf ++ source.bytes lit length = content) :
    Decoding.Next c source content s (pass c s) := by
  obtain ⟨intact, hsrc, hlt, -⟩ := decoding
  have hbuf := opRel_eq rel
  rw [← hbuf] at hturn
  have hdoes := pass_turn separate hsize intact hsrc hlt
  rw [hturn] at hdoes
  obtain ⟨h, hpass, -, literals⟩ := hdoes
  obtain ⟨hlit, hend, hroom⟩ := turn_last hturn
  have hdst : c.env.dst = c.dst := rfl
  have hoend : c.env.oend = c.dst + c.outputSize := rfl
  have hoend' : c.oend = c.dst + c.outputSize := rfl
  have hiend : c.env.iend = c.iend := rfl
  have hsep : c.env.iend ≤ c.env.dst ∨ c.dst + s.opRel + length ≤ lit + length :=
    separate.imp_right fun h => by omega
  have rel₁ := rel.literals (c.serves (by omega)) (c.historyClear 0) literals (by omega) (by omega)
    (by omega) (by omega) (by omega) hsep
  rw [hcontent] at rel₁
  have hlength : content.length = s.opRel + length := by
    rw [← hcontent, List.length_append, Mem.length_bytes, hbuf]
  rw [hpass]
  refine ⟨hlength.symm, ?_, by omega, fun a ha => literals.frame a (by omega)⟩
  have hout := rel₁.bytes_output
  have hcount : (c.dst + s.opRel + length - c.env.dst).toNat = content.length := by omega
  rw [hcount, List.drop_zero] at hout
  exact hout

theorem Decoding.step (separate : c.Separate) (hsize : c.outputSize < 2 ^ 31)
    (decoding : Decoding c source content s) : Decoding.Next c source content s (pass c s) := by
  obtain ⟨buf, rel, hdecodes⟩ := decoding.ahead
  cases hdecodes with
  | last hturn hcontent => exact decoding.last separate hsize rel hturn hcontent
  | sequence hturn hpos hfits hrest =>
    exact decoding.sequence separate hsize rel hturn hpos hfits hrest

/-- A run delivers the content. -/
theorem Decoding.run (separate : c.Separate) (hsize : c.outputSize < 2 ^ 31)
    (decoding : Decoding c source content s) (hn : (c.iend - s.ip).toNat < n) :
    ∃ r, iterate (fun s => some (pass c s)) n s = some r ∧ r.1 = content.length ∧
      r.2.mem.Holds c.dst content := by
  refine iterate_ends (fun s => Decoding c source content s) (fun s => (c.iend - s.ip).toNat) ?_
    decoding hn
  intro t ht
  have hnext := ht.step separate hsize
  refine ⟨_, rfl, ?_⟩
  cases hpass : pass c t with
  | next t' =>
    rw [hpass] at hnext
    obtain ⟨ht', hlt, -⟩ := hnext
    refine ⟨ht', ?_⟩
    have := ht.lt_iend
    dsimp only
    omega
  | done r =>
    rw [hpass] at hnext
    exact ⟨hnext.1, hnext.2.1⟩

/-- A call starts with nothing decoded. -/
theorem decoding_start (hsrc : 0 < c.srcSize) (hdecodes : Decodes c m content c.src []) :
    Decoding c m content ⟨⟨m, []⟩, c.src, 0⟩ := by
  have hdst : c.env.dst = c.dst := rfl
  refine ⟨fun _ _ _ => rfl, Int.le_refl _, ?_, [], ⟨fun _ _ _ => rfl, ?_, ?_, ?_, ?_⟩, hdecodes⟩
  · show c.src < c.src + c.srcSize
    omega
  · simp [hdst]
  · show c.dst ≤ c.dst + ((0 : Nat) : Int)
    omega
  · intro v hlow _ hhigh
    dsimp only at hhigh
    omega
  · intro v hlow hhigh
    dsimp only at hhigh
    omega

/-- `lz4_decompress_generic` delivers what its input stands for. -/
theorem decompressGeneric_of_decodes (hdecodes : Decodes c m content c.src [])
    (hsrc : 0 < c.srcSize) (hsize : c.outputSize < 2 ^ 31) (separate : c.Separate) :
    ∃ h, decompressGeneric ⟨m, []⟩ c = some (content.length, h) ∧ h.mem.Holds c.dst content := by
  have hiend : c.iend = c.src + c.srcSize := rfl
  obtain ⟨⟨word, h⟩, hrun, hword, hout⟩ := (decoding_start hsrc hdecodes).run separate hsize
    (show (c.iend - c.src).toNat < c.srcSize.toNat + 1 by omega)
  refine ⟨h, ?_, hout⟩
  dsimp only at hword
  unfold decompressGeneric
  rw [if_neg (by omega), hrun, hword]

end Passes

/-! ## Whole blocks -/

variable {c : Call}

/-- In the middle of a block that respects the format, the input stands for the rest of it. -/
theorem decodes_of_holds {source : Mem} {rest : List Sequence} {last : List UInt8} {ip : Int}
    {buf : List UInt8} (hsize : c.outputSize < 2 ^ 31) (block : UnsafeBlock rest last field)
    (hreaches : Reaches buf.length rest)
    (hholds : source.Holds ip (encodeSequences rest ++ encodeLast last field))
    (hstop : ip + (encodeSequences rest ++ encodeLast last field).length = c.iend)
    (hroom : buf.length + decodedLength rest + last.length ≤ c.outputSize) :
    Decodes c source (rest.foldl Sequence.apply buf ++ last) ip buf := by
  induction rest generalizing ip buf with
  | nil =>
    rw [encodeSequences_nil, List.nil_append] at hholds hstop
    refine .last (turn_of_last block.field_lt hholds hstop (by omega) (by omega)) ?_
    unfold encodeLast at hholds
    rw [Mem.holds_cons, Mem.holds_append] at hholds
    rw [show source.bytes (ip + 1 + (lengthBytes last.length).length) last.length = last from
      hholds.2.2]
    rfl
  | cons q rest ih =>
    obtain ⟨hfour, hoffset, hreach, hreaches⟩ := hreaches
    obtain ⟨hpos, -, -⟩ := block.matches_ok q (by simp)
    obtain ⟨hfive, htwelve⟩ := block.margins
    have hlast := block.lastFive (by simp)
    rw [encodeSequences_cons, List.append_assoc, Mem.holds_append] at hholds
    rw [encodeSequences_cons, List.append_assoc, List.length_append] at hstop
    rw [decodedLength_cons] at hroom
    have hrest := length_encodeLast last field
    have htail : ip + q.encode.length + 6 ≤ c.iend := by
      rw [List.length_append] at hstop
      omega
    have hbytes : source.bytes (ip + 1 + (lengthBytes q.literals.length).length)
        q.literals.length = q.literals := (holds_encode_iff.mp hholds.1).2.2.1
    refine .sequence (turn_of_holds hholds.1 hoffset hfour (by omega) (by omega) (by omega) htail)
      hpos (by omega) ?_
    rw [hbytes]
    refine ih block.tail ?_ hholds.2 (by omega) ?_
    · rw [length_apply, ← Nat.add_assoc]
      exact hreaches
    · rw [length_apply]
      omega

/-- A block that respects the format stands for its content. -/
theorem decodes_of_conforming {b : Block} (conforming : b.Conforming [])
    (hholds : m.Holds c.src b.encode) (hsrc : c.srcSize = b.encode.length)
    (hroom : (b.decode []).length ≤ c.outputSize) (hsize : c.outputSize < 2 ^ 31) :
    Decodes c m (b.decode []) c.src [] := by
  have hcontent : b.decode [] = b.sequences.foldl Sequence.apply [] ++ b.lastLiterals := by
    have := append_decode [] b
    rwa [List.nil_append] at this
  rw [length_decode] at hroom
  refine decodes_of_holds hsize conforming.unsafeBlock conforming.reaches hholds ?_ ?_
  · show c.src + (b.encode.length : Int) = c.src + c.srcSize
    omega
  · rw [List.length_nil]
    omega

/-- On every block that respects the format, the kernel's decoder and `LZ4_decompress_safe` give
the same size and the same bytes: the content of the block. -/
theorem decompressGeneric_decodes (b : Block) (conforming : b.Conforming []) (m : Mem)
    (src dst : Int) (outputSize : Nat) (fastDecLoop : Bool) (hsource : src ≠ 0)
    (hholds : m.Holds src b.encode) (hroom : (b.decode []).length ≤ outputSize)
    (hsize : outputSize < 2 ^ 31)
    (hapart : src + b.encode.length ≤ dst ∨ dst + outputSize ≤ src) :
    (∃ h, decompressGeneric ⟨m, []⟩ ⟨src, dst, b.encode.length, outputSize⟩ =
        some ((b.decode []).length, h) ∧ h.mem.Holds dst (b.decode [])) ∧
    ∃ h, decompressSafe fastDecLoop ⟨m, []⟩ src dst b.encode.length outputSize =
        some (((b.decode []).length : Int), h) ∧ h.mem.Holds dst (b.decode []) := by
  constructor
  · have hpos : 0 < b.encode.length := by
      rw [Block.encode, List.length_append, length_encodeLast]
      omega
    have hdecodes : Decodes ⟨src, dst, b.encode.length, outputSize⟩ m (b.decode []) src [] :=
      decodes_of_conforming conforming hholds rfl (by dsimp only; omega) (by dsimp only; omega)
    exact decompressGeneric_of_decodes hdecodes (by dsimp only; omega) (by dsimp only; omega) hapart
  · exact decompressSafe_decodes fastDecLoop conforming hholds hsource hapart hroom

/-- A block with an overlapping match. -/
theorem decompressGeneric_decodes_match :
    (∃ h, decompressGeneric
        ⟨Mem.store (fun _ => 0) 100 (Block.encode ⟨[⟨[7], 1, 7⟩], [1, 2, 3, 4, 5], 0⟩), []⟩
        ⟨100, 1000, 10, 13⟩ = some (13, h) ∧
      h.mem.Holds 1000 [7, 7, 7, 7, 7, 7, 7, 7, 1, 2, 3, 4, 5]) ∧
    ∃ h, decompressSafe true
        ⟨Mem.store (fun _ => 0) 100 (Block.encode ⟨[⟨[7], 1, 7⟩], [1, 2, 3, 4, 5], 0⟩), []⟩
        100 1000 10 13 = some (13, h) ∧
      h.mem.Holds 1000 [7, 7, 7, 7, 7, 7, 7, 7, 1, 2, 3, 4, 5] :=
  decompressGeneric_decodes ⟨[⟨[7], 1, 7⟩], [1, 2, 3, 4, 5], 0⟩
    ⟨by decide, by decide, by decide, by decide, by decide, by
      intro s hs
      simp only [List.getLast?_singleton, Option.some.injEq] at hs
      rw [← hs]
      decide⟩
    (Mem.store (fun _ => 0) 100 (Block.encode ⟨[⟨[7], 1, 7⟩], [1, 2, 3, 4, 5], 0⟩)) 100 1000 13 true
    (by decide) (Mem.holds_store _ _ _) (by decide) (by decide) (Or.inl (by decide))

/-- **The kernel decodes what the library has compressed**, in any output buffer that has room. -/
theorem compressFast_decompressGeneric (ptr32 : Bool) (m : Mem)
    (src dst srcSize dstCapacity acceleration : Int) (hsize : 0 ≤ srcSize)
    (hmax : srcSize ≤ maxInputSize)
    (hapart : src + srcSize ≤ dst ∨ dst + dstCapacity ≤ src) :
    ∃ c h, compressFast ptr32 ⟨m, []⟩ src dst srcSize dstCapacity acceleration = some (c, h) ∧
      (0 < c → ∀ (m' : Mem) (source dest outputSize : Int),
        m'.Holds source (h.mem.bytes dst c.toNat) → srcSize ≤ outputSize →
        outputSize < 2 ^ 31 → (source + c ≤ dest ∨ dest + outputSize ≤ source) →
        ∃ h', decompressGeneric ⟨m', []⟩ ⟨source, dest, c, outputSize⟩ =
            some (srcSize.toNat, h') ∧ h'.mem.Holds dest (m.bytes src srcSize.toNat)) := by
  obtain ⟨c, hc, hencodes⟩ := compressFastExtState_encodes ptr32 m acceleration hsize hmax hapart
  refine ⟨c.result, c.heap, by rw [compressFast, hc]; rfl, ?_⟩
  intro hpos m' source dest outputSize hholds hroom hlimit hdest
  obtain ⟨b, encodes⟩ := hencodes.resolve_left (by omega)
  have hdecode : b.decode [] = m.bytes src srcSize.toNat :=
    encodes.decode.trans (List.take_of_length_le (Nat.le_of_eq (Mem.length_bytes _ _ _)))
  have hbytes : c.heap.mem.bytes dst c.result.toNat = b.encode := by
    rw [encodes.result]
    exact encodes.holds
  have hlength : (b.decode []).length = srcSize.toNat := by rw [hdecode, Mem.length_bytes]
  rw [hbytes] at hholds
  rw [← hdecode, ← hlength]
  exact decompressGeneric_of_decodes (decodes_of_conforming encodes.conforming hholds
    encodes.result (by dsimp only; omega) hlimit) hpos hlimit hdest

/-- Twenty equal bytes. -/
theorem compressFast_decompressGeneric_twenty :
    ∃ c h, compressFast false ⟨fun _ => 7, []⟩ 1000 2000 20 30 1 = some (c, h) ∧
      (0 < c → ∀ (m' : Mem) (source dest outputSize : Int),
        m'.Holds source (h.mem.bytes 2000 c.toNat) → 20 ≤ outputSize → outputSize < 2 ^ 31 →
        (source + c ≤ dest ∨ dest + outputSize ≤ source) →
        ∃ h', decompressGeneric ⟨m', []⟩ ⟨source, dest, c, outputSize⟩ = some (20, h') ∧
          h'.mem.Holds dest (Mem.bytes (fun _ => 7) 1000 20)) :=
  compressFast_decompressGeneric false (fun _ => 7) 1000 2000 20 30 1 (by decide) (by decide)
    (by decide)

end Lz4.Kernel
