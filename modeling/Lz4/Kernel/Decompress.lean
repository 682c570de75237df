import Lz4.Kernel.Copy
import Lz4.Decoder.Unsafe

/-!
# `lz4_decompress_generic`

The decoder of the OpenCL kernels announces the logic of `LZ4_decompress_safe`, but has a loop
of its own.  Its registers have 32 bits, lengths accumulate modulo `2 ^ 32`, and the position in
the output is kept relative to `dst`.

## Reading and copying

What a pass reads does not depend on what it writes, as long as the literals do not hit the
input.  `turn` is the reading half: the literal run, the offset and the match length at a place
of the input, with all the tests of the source.  `pass_turn` says that a pass does what the turn
says, to memory and to the log.

The literals are tested against the end of the output, the match is not.  So a pass stays in the
output if and only if its match ends there (`Fits`).
-/

namespace Lz4.Kernel

open FlatMemory Decoder Machine

/-! ## The function -/

/-- The parameters; both sizes are `int`. -/
structure Call where
  src : Int
  dst : Int
  srcSize : Int
  outputSize : Int
  deriving Repr, DecidableEq

namespace Call

def iend (c : Call) : Int := c.src + c.srcSize

def oend (c : Call) : Int := c.dst + c.outputSize

end Call

/-- The variables of the loop; `opRel` is the output position `op_rel`. -/
structure State where
  heap : Heap
  ip : Int
  opRel : Nat

/-- What is stored in `*outputSizePtr` after `_output_error`. -/
def errorMark : Nat := 0xFFFFFFFF

/-- The loop that adds length bytes, each of which must stand before `limit`.  A field below 15
has none. -/
def readLength (h : Heap) (ip limit : Int) (length : Nat) : Option (Nat × Int) × Heap :=
  if length = 15 then
    match readLengthBytes h.mem (limit - ip).toNat ip length with
    | (some l, ip') => (some (l % 2 ^ 32, ip'), h.load .input ip (ip' - ip).toNat)
    | (none, _) => (none, h.load .input ip (limit - ip).toNat)
  else (some (length, ip), h)

/-- From the label `_copy_match` on. -/
def copyMatchLabel (c : Call) (h : Heap) (ip : Int) (opRel matchRel length : Nat) :
    Step State (Nat × Heap) :=
  match readLength h ip (c.iend - 5) length with
  | (none, h) => .done (errorMark, h)
  | (some (length, ip), h) =>
    let length := (length + 4) % 2 ^ 32
    let h := copyMatch h (c.dst + opRel) (c.dst + matchRel) length
    .next ⟨h, ip, (opRel + length) % 2 ^ 32⟩

/-- The literals of the fast path: 8 or 16 bytes are copied, whatever the length. -/
def fastLiterals (h : Heap) (op ip : Int) (length : Nat) : Heap :=
  if length ≤ 8 then h.memcpy .input op ip 8 else uaCopyN .input h op ip 16

/-- The fast path: fewer than 15 literals, far from both ends. -/
def fastPath (c : Call) (h : Heap) (ip : Int) (token opRel : Nat) : Step State (Nat × Heap) :=
  let length := token / 16
  let op := c.dst + opRel
  let h := fastLiterals h op ip length
  let opRel := (opRel + length) % 2 ^ 32
  let ip := ip + length
  let length := token % 16
  let offset := readLE16 h.mem ip
  let h := h.load .input ip 2
  let ip := ip + 2
  if offset > opRel then .done (errorMark, h)
  else
    let matchRel := opRel - offset
    let op := c.dst + opRel
    let mtch := c.dst + matchRel
    let mlenFast := length + 4
    if length ≠ 15 ∧ offset ≥ mlenFast then
      .next ⟨fastDirectMatchCopy18 h op mtch mlenFast, ip, (opRel + mlenFast) % 2 ^ 32⟩
    else if length ≠ 15 ∧ offset ≥ 8 then
      .next ⟨fastDirectMatchCopy18 h op mtch mlenFast, ip, (opRel + mlenFast) % 2 ^ 32⟩
    else copyMatchLabel c h ip opRel matchRel length

/-- Everything else. -/
def slowPath (c : Call) (h : Heap) (ip : Int) (token opRel : Nat) : Step State (Nat × Heap) :=
  match readLength h ip c.iend (token / 16) with
  | (none, h) => .done (errorMark, h)
  | (some (length, ip), h) =>
    let op := c.dst + opRel
    let cpy := op + length
    if cpy > c.oend - 12 ∨ ip + length > c.iend - (2 + 1 + 5) then
      if ip + length ≠ c.iend then .done (errorMark, h)
      else if cpy > c.oend then .done (errorMark, h)
      else .done ((opRel + length) % 2 ^ 32, uaCopyN .input h op ip length)
    else
      let h := litWildCopy8 h op ip cpy
      let ip := ip + length
      let opRel := (opRel + length) % 2 ^ 32
      let offset := readLE16 h.mem ip
      let h := h.load .input ip 2
      let ip := ip + 2
      if offset > opRel then .done (errorMark, h)
      else copyMatchLabel c h ip opRel (opRel - offset) (token % 16)

/-- The test for the fast path, after the token has been read. -/
def Call.Fast (c : Call) (ip : Int) (token opRel : Nat) : Prop :=
  token / 16 ≠ 15 ∧ ip < c.iend - 14 - 2 ∧ 32 ≤ c.outputSize ∧ (opRel : Int) ≤ c.outputSize - 32

instance (c : Call) (ip : Int) (token opRel : Nat) : Decidable (c.Fast ip token opRel) :=
  inferInstanceAs (Decidable (_ ∧ _ ∧ _ ∧ _))

/-- One pass of the loop. -/
def pass (c : Call) (s : State) : Step State (Nat × Heap) :=
  let token := (s.heap.mem s.ip).toNat
  let h := s.heap.load .input s.ip 1
  let ip := s.ip + 1
  if c.Fast ip token s.opRel then fastPath c h ip token s.opRel
  else slowPath c h ip token s.opRel

/-- `lz4_decompress_generic`: the word stored in `*outputSizePtr`, and memory. -/
def decompressGeneric (h : Heap) (c : Call) : Option (Nat × Heap) :=
  if c.srcSize = 0 then some (0, h)
  else iterate (fun s => some (pass c s)) (c.srcSize.toNat + 1) ⟨h, c.src, 0⟩

/-! ## What a pass reads -/

/-- What stands at a place of the input: nothing the decoder accepts, the last literals, or
literals and a match. -/
inductive Turn
  | error
  | last (lit : Int) (length : Nat)
  | sequence (lit : Int) (length offset matchLength : Nat) (next : Int)
  deriving Repr, DecidableEq

/-- A length and where it ends. -/
def lengthAt (m : Mem) (ip limit : Int) (length : Nat) : Option (Nat × Int) :=
  if length = 15 then
    match readLengthBytes m (limit - ip).toNat ip length with
    | (some l, ip') => some (l % 2 ^ 32, ip')
    | (none, _) => none
  else some (length, ip)

/-- The match behind the literals. -/
def matchTurn (c : Call) (m : Mem) (lit : Int) (length token opRel : Nat) : Turn :=
  let offset := readLE16 m (lit + length)
  if offset > (opRel + length) % 2 ^ 32 then .error
  else
    match lengthAt m (lit + length + 2) (c.iend - 5) (token % 16) with
    | none => .error
    | some (matchLength, next) => .sequence lit length offset ((matchLength + 4) % 2 ^ 32) next

def turn (c : Call) (m : Mem) (ip : Int) (opRel : Nat) : Turn :=
  let token := (m ip).toNat
  if c.Fast (ip + 1) token opRel then matchTurn c m (ip + 1) (token / 16) token opRel
  else
    match lengthAt m (ip + 1) c.iend (token / 16) with
    | none => .error
    | some (length, lit) =>
      if opRel + length > c.outputSize - 12 ∨ lit + length > c.iend - 8 then
        if lit + length = c.iend ∧ opRel + length ≤ c.outputSize then .last lit length
        else .error
      else matchTurn c m lit length token opRel

/-! ## Lengths -/

variable {length : Nat} {m : Mem} {limit ip : Int}

theorem lengthAt_bounds {next : Int} {l : Nat} (h : lengthAt m ip limit length = some (l, next)) :
    ip ≤ next ∧ (next = ip ∨ next ≤ limit) ∧ (length < 16 → l < 2 ^ 32) := by
  unfold lengthAt at h
  split at h
  · obtain ⟨hlow, -, hhigh⟩ := readLengthBytes_snd m (limit - ip).toNat ip length
    split at h
    · rename_i hread
      rw [hread] at hlow hhigh
      obtain ⟨rfl, rfl⟩ := h
      have := hhigh rfl
      refine ⟨by omega, Or.inr (by omega), fun _ => Nat.mod_lt _ (by omega)⟩
    · simp at h
  · simp only [Option.some.injEq, Prod.mk.injEq] at h
    exact ⟨by omega, Or.inl h.2.symm, by omega⟩

variable {m' : Mem}

theorem lengthAt_congr (h : ∀ a, ip ≤ a → a < limit → m a = m' a) :
    lengthAt m ip limit length = lengthAt m' ip limit length := by
  unfold lengthAt
  rw [readLengthBytes_congr fun a hlow hhigh => h a hlow (by omega)]

/-- The loop reads what stands there, and nothing at or behind its limit. -/
theorem readLength_spec (h : Heap) (ip limit : Int) (length : Nat) :
    ∃ h', readLength h ip limit length = (lengthAt h.mem ip limit length, h') ∧
      h'.mem = h.mem ∧ Grown h h' ∧
      ∀ P m₀, Downward P → P ⟨.input, ip, (limit - ip).toNat⟩ → h.Logged P m₀ →
        h'.Logged P m₀ := by
  unfold readLength lengthAt
  split
  · obtain ⟨-, -, hhigh⟩ := readLengthBytes_snd h.mem (limit - ip).toNat ip length
    split
    · rename_i ip' hread
      rw [hread] at hhigh
      have := hhigh rfl
      refine ⟨_, rfl, rfl, grown_load _ _ _ _, fun P m₀ hP hread hlog => ?_⟩
      exact Heap.logged_load (hP _ _ _ _ _ (Int.le_refl ip) (by omega) hread) hlog
    · exact ⟨_, rfl, rfl, grown_load _ _ _ _, fun P m₀ _ hread hlog =>
        Heap.logged_load hread hlog⟩
  · exact ⟨h, rfl, rfl, List.suffix_rfl, fun _ _ _ _ hlog => hlog⟩

/-! ## What a pass does -/

namespace Call

/-- The call, seen as one of the generic decoder. -/
def env (c : Call) : Env where
  partialDecoding := false
  dict := .noDict
  src := c.src
  iend := c.iend
  dst := c.dst
  oend := c.oend
  lowPrefix := c.dst
  dictEnd := 0
  dictSize := 0

/-- Input and output are different buffers. -/
def Separate (c : Call) : Prop := c.iend ≤ c.dst ∨ c.oend ≤ c.src

/-- The input is still that of `source`. -/
def Intact (c : Call) (source m : Mem) : Prop := ∀ a, c.src ≤ a → a < c.iend → m a = source a

theorem historyLow_env (c : Call) : c.env.historyLow = c.dst := if_neg (by simp [env])

theorem Intact.frame {c : Call} {source : Mem} (intact : c.Intact source m) (separate : c.Separate)
    {lo hi : Int} (hlo : c.dst ≤ lo) (hhi : hi ≤ c.oend)
    (hframe : ∀ a, (a < lo ∨ hi ≤ a) → m' a = m a) : c.Intact source m' := by
  intro a hlow hhigh
  rw [hframe a (by rcases separate with h | h <;> omega), intact a hlow hhigh]

end Call

/-- From `h` to `h'` all accesses were in bounds, if they were before. -/
structure Tame (c : Call) (h h' : Heap) : Prop where
  grown : Grown h h'
  logged : ∀ m₀, h.Logged (InBounds c.env) m₀ → h'.Logged (InBounds c.env) m₀

theorem Tame.trans {c : Call} {h₁ h₂ h₃ : Heap} (first : Tame c h₁ h₂) (second : Tame c h₂ h₃) :
    Tame c h₁ h₃ :=
  ⟨first.grown.trans second.grown, fun m₀ hlog => second.logged m₀ (first.logged m₀ hlog)⟩

/-- A match of `n` bytes was copied to `op`; its end was not tested. -/
structure Matched (c : Call) (h h' : Heap) (op : Int) (offset n : Nat) : Prop where
  frame : ∀ a, (a < op ∨ max (op + n) c.oend ≤ a) → h'.mem a = h.mem a
  copied : 0 < offset → MatchCopied h.mem h'.mem op offset n (max (op + n) c.oend)
  grown : Grown h h'
  tame : op + n ≤ c.oend → Tame c h h'
  overruns : c.oend < op + n → ∃ a ∈ h'.log, a.port = .output ∧ c.oend < a.lo + a.len

/-- What the turn at the place of `s` means for the pass that starts there. -/
def Does (c : Call) (s : State) (x : Step State (Nat × Heap)) : Turn → Prop
  | .error => ∃ h, x = .done (errorMark, h) ∧ Tame c s.heap h
  | .last lit length => ∃ h, x = .done (s.opRel + length, h) ∧ Tame c s.heap h ∧
      LiteralsCopied s.heap.mem h.mem (c.dst + s.opRel) lit length (c.dst + s.opRel + length)
  | .sequence lit length offset matchLength next => ∃ h₁ h₂,
      x = .next ⟨h₂, next, (s.opRel + length + matchLength) % 2 ^ 32⟩ ∧ Tame c s.heap h₁ ∧
      LiteralsCopied s.heap.mem h₁.mem (c.dst + s.opRel) lit length c.oend ∧
      Matched c h₁ h₂ (c.dst + s.opRel + length) offset matchLength

variable {n : Nat}

section Pass

variable {c : Call} {source : Mem} {h : Heap} {ip : Int} {opRel offset : Nat}

theorem matched_copyMatch (h : Heap) (hsmall : offset < 2 ^ 32) (hoffset : offset ≤ opRel)
    (hop : c.dst + opRel ≤ c.oend) :
    Matched c h (copyMatch h (c.dst + opRel) (c.dst + (opRel - offset : Nat)) length)
      (c.dst + opRel) offset length := by
  have hpos : c.dst + ((opRel - offset : Nat) : Int) = c.dst + opRel - offset := by omega
  have hdst : c.env.dst = c.dst := rfl
  have hoend : c.env.oend = c.oend := rfl
  have hlow := c.historyLow_env
  rw [hpos]
  refine ⟨fun a ha => copyMatch_frame _ _ _ hsmall _ (by omega), fun h0 => ?_,
    grown_copyMatch _ _ _ hsmall, fun hfits => ⟨grown_copyMatch _ _ _ hsmall, fun m₀ hlog => ?_⟩,
    fun hover => ?_⟩
  · exact (matchCopied_copyMatch h _ length hsmall h0).weaken (Int.le_max_left _ _)
  · refine copyMatch_logged hsmall (inBounds_downward _) hlog (inBounds_window ?_ ?_)
      (inBounds_output ?_ ?_)
    all_goals omega
  · obtain ⟨a, ha, hport, hend⟩ := copyMatch_reaches h (c.dst + opRel) hsmall
      (show 0 < length by omega)
    exact ⟨a, ha, hport, by omega⟩

theorem matched_fastDirectMatchCopy18 (h : Heap) {mlenFast : Nat} (hoffset : offset ≤ opRel)
    (hmlen : mlenFast ≤ 18) (hfar : mlenFast ≤ offset ∨ 8 ≤ offset) (hpos : 0 < offset)
    (hop : c.dst + opRel + 18 ≤ c.oend) :
    Matched c h (fastDirectMatchCopy18 h (c.dst + opRel) (c.dst + (opRel - offset : Nat)) mlenFast)
      (c.dst + opRel) offset mlenFast := by
  have hmtch : c.dst + ((opRel - offset : Nat) : Int) = c.dst + opRel - offset := by omega
  have hdst : c.env.dst = c.dst := rfl
  have hoend : c.env.oend = c.oend := rfl
  have hlow := c.historyLow_env
  rw [hmtch]
  have copied := (matchCopied_fastDirectMatchCopy18 h (c.dst + opRel) hmlen hfar hpos).weaken
    (show c.dst + opRel + 18 ≤ max (c.dst + opRel + mlenFast) c.oend by omega)
  refine ⟨copied.frame, fun _ => copied, grown_fastDirectMatchCopy18 _ _ _ _,
    fun hfits => ⟨grown_fastDirectMatchCopy18 _ _ _ _, fun m₀ hlog => ?_⟩,
    fun hover => absurd hover (by omega)⟩
  refine fastDirectMatchCopy18_logged (inBounds_downward _) hlog (inBounds_window ?_ ?_)
    (inBounds_output ?_ ?_)
  all_goals omega

/-- From `_copy_match` on, the length decides. -/
theorem copyMatchLabel_spec (h : Heap) (field : Nat) (hsmall : offset < 2 ^ 32)
    (hoffset : offset ≤ opRel) (hop : c.dst + opRel ≤ c.oend) (hip : c.src ≤ ip) (hiend : ip ≤ c.iend) :
    ∃ h₁, h₁.mem = h.mem ∧ Tame c h h₁ ∧
      match lengthAt h.mem ip (c.iend - 5) field with
      | none => copyMatchLabel c h ip opRel (opRel - offset) field = .done (errorMark, h₁)
      | some (l, next) => ∃ h₂, copyMatchLabel c h ip opRel (opRel - offset) field =
            .next ⟨h₂, next, (opRel + (l + 4) % 2 ^ 32) % 2 ^ 32⟩ ∧
          Matched c h₁ h₂ (c.dst + opRel) offset ((l + 4) % 2 ^ 32) := by
  obtain ⟨h₁, hread, hmem, hgrown, hlogged⟩ := readLength_spec h ip (c.iend - 5) field
  have hsrc : c.env.src = c.src := rfl
  have hiend' : c.env.iend = c.iend := rfl
  refine ⟨h₁, hmem, ⟨hgrown, fun m₀ => hlogged _ m₀ (inBounds_downward _)
    (inBounds_input (by omega) (by omega))⟩, ?_⟩
  unfold copyMatchLabel
  rw [hread]
  split
  · rename_i hnone
    rw [hnone]
  · rename_i l next hsome
    rw [hsome]
    exact ⟨_, rfl, matched_copyMatch h₁ hsmall hoffset hop⟩

theorem readLE16_intact (intact : c.Intact source m) (hip : c.src ≤ ip) (hiend : ip + 2 ≤ c.iend) :
    readLE16 m ip = readLE16 source ip := by
  unfold readLE16
  rw [intact ip hip (by omega), intact (ip + 1) (by omega) (by omega)]

theorem tame_load (hip : c.src ≤ ip) (hiend : ip + n ≤ c.iend) : Tame c h (h.load .input ip n) :=
  ⟨grown_load _ _ _ _, fun _ hlog => Heap.logged_load (inBounds_input hip hiend) hlog⟩

variable {s : State} {h₁ : Heap} {lit : Int} {length token : Nat}

/-- The literals of a pass were copied to `h₁`, inside the output, and an offset can be read
behind them. -/
structure Literals (c : Call) (source : Mem) (s : State) (h₁ : Heap) (lit : Int) (length : Nat) :
    Prop where
  tame : Tame c s.heap h₁
  copied : LiteralsCopied s.heap.mem h₁.mem (c.dst + s.opRel) lit length c.oend
  intact : c.Intact source h₁.mem
  low : c.src ≤ lit
  high : lit + length + 2 ≤ c.iend
  room : c.dst + s.opRel + length ≤ c.oend

/-- The rest of a pass that goes on with `_copy_match`. -/
theorem Literals.copyMatchLabel (literals : Literals c source s h₁ lit length)
    (hsize : c.outputSize < 2 ^ 31) (token : Nat) :
    Does c s
      (if readLE16 h₁.mem (lit + length) > (s.opRel + length) % 2 ^ 32 then
        .done (errorMark, h₁.load .input (lit + length) 2)
      else Kernel.copyMatchLabel c (h₁.load .input (lit + length) 2) (lit + length + 2)
        ((s.opRel + length) % 2 ^ 32)
        ((s.opRel + length) % 2 ^ 32 - readLE16 h₁.mem (lit + length)) (token % 16))
      (matchTurn c source lit length token s.opRel) := by
  obtain ⟨tame, copied, intact, hlow, hhigh, hroom⟩ := literals
  have hoend : c.oend = c.dst + c.outputSize := rfl
  have hmod : (s.opRel + length) % 2 ^ 32 = s.opRel + length := Nat.mod_eq_of_lt (by omega)
  have hloaded : Tame c s.heap (h₁.load .input (lit + length) 2) :=
    tame.trans (tame_load (by omega) (by omega))
  unfold matchTurn
  dsimp only
  rw [hmod, readLE16_intact intact (by omega) hhigh]
  split
  · exact ⟨_, rfl, hloaded⟩
  · rename_i hreach
    obtain ⟨h₂, hmem, tame₂, hlabel⟩ := copyMatchLabel_spec
      (h₁.load .input (lit + length) 2) (token % 16)
      (Nat.lt_trans (readLE16_lt source (lit + length)) (by decide)) (Nat.le_of_not_lt hreach)
      (show c.dst + ((s.opRel + length : Nat) : Int) ≤ c.oend by omega)
      (show c.src ≤ lit + length + 2 by omega) (by omega)
    have hlength : lengthAt (h₁.load .input (lit + length) 2).mem (lit + length + 2) (c.iend - 5)
        (token % 16) = lengthAt source (lit + length + 2) (c.iend - 5) (token % 16) :=
      lengthAt_congr fun a ha ha' => intact a (by omega) (by omega)
    rw [hlength] at hlabel
    split at hlabel
    · exact ⟨_, hlabel, hloaded.trans tame₂⟩
    · obtain ⟨h₃, hnext, matched⟩ := hlabel
      have haddr : c.dst + ((s.opRel + length : Nat) : Int) = c.dst + s.opRel + length := by omega
      rw [haddr] at matched
      refine ⟨h₂, h₃, hnext, hloaded.trans tame₂, ?_, matched⟩
      rw [hmem]
      exact copied

/-- The rest of a pass that copies a short match directly. -/
theorem Literals.fastDirect (literals : Literals c source s h₁ lit length)
    (hsize : c.outputSize < 2 ^ 31) (hroom : c.dst + s.opRel + length + 18 ≤ c.oend)
    (hreach : ¬ readLE16 h₁.mem (lit + length) > (s.opRel + length) % 2 ^ 32)
    (hfield : token % 16 ≠ 15)
    (hoffset : readLE16 h₁.mem (lit + length) ≥ token % 16 + 4 ∨
      readLE16 h₁.mem (lit + length) ≥ 8) :
    Does c s
      (.next ⟨fastDirectMatchCopy18 (h₁.load .input (lit + length) 2)
          (c.dst + ((s.opRel + length) % 2 ^ 32 : Nat))
          (c.dst + ((s.opRel + length) % 2 ^ 32 - readLE16 h₁.mem (lit + length) : Nat))
          (token % 16 + 4), lit + length + 2,
        ((s.opRel + length) % 2 ^ 32 + (token % 16 + 4)) % 2 ^ 32⟩)
      (matchTurn c source lit length token s.opRel) := by
  obtain ⟨tame, copied, intact, hlow, hhigh, -⟩ := literals
  have hoend : c.oend = c.dst + c.outputSize := rfl
  have hmod : (s.opRel + length) % 2 ^ 32 = s.opRel + length := Nat.mod_eq_of_lt (by omega)
  have hmod' : (token % 16 + 4) % 2 ^ 32 = token % 16 + 4 := Nat.mod_eq_of_lt (by omega)
  have haddr : c.dst + ((s.opRel + length : Nat) : Int) = c.dst + s.opRel + length := by omega
  have hle16 := readLE16_intact intact (show c.src ≤ lit + length by omega) hhigh
  rw [hmod, hle16] at hreach ⊢
  rw [hle16] at hoffset
  unfold matchTurn lengthAt
  rw [hmod, if_neg hreach, if_neg hfield]
  dsimp only
  rw [hmod']
  have hload : Tame c h₁ (h₁.load .input (lit + length) 2) := tame_load (by omega) (by omega)
  refine ⟨_, _, rfl, tame.trans hload, copied, ?_⟩
  rw [← haddr] at hroom ⊢
  exact matched_fastDirectMatchCopy18 _ (Nat.le_of_not_lt hreach) (by omega) hoffset (by omega)
    hroom

theorem fastLiterals_literals (separate : c.Separate) (intact : c.Intact source s.heap.mem)
    (hip : c.src ≤ s.ip) (tame : Tame c s.heap h) (hmem : h.mem = s.heap.mem)
    (fast : c.Fast (s.ip + 1) token s.opRel) (htoken : token < 256) :
    Literals c source s (fastLiterals h (c.dst + s.opRel) (s.ip + 1) (token / 16)) (s.ip + 1)
      (token / 16) := by
  obtain ⟨hshort, hfar, hroom, hlimit⟩ := fast
  have hoend : c.oend = c.dst + c.outputSize := rfl
  have hdst : c.env.dst = c.dst := rfl
  have hoend' : c.env.oend = c.oend := rfl
  have hsrc : c.env.src = c.src := rfl
  have hiend : c.env.iend = c.iend := rfl
  have hcopied : LiteralsCopied s.heap.mem
      (fastLiterals h (c.dst + s.opRel) (s.ip + 1) (token / 16)).mem (c.dst + s.opRel) (s.ip + 1)
      (token / 16) (c.dst + s.opRel + 16) := by
    rw [← hmem]
    unfold fastLiterals
    split
    · rename_i hle
      have hcopy := literalsCopied_memcpy h (c.dst + s.opRel) (s.ip + 1) hle
      exact ⟨fun a ha => hcopy.frame a (by omega), hcopy.copied⟩
    · have hcopy := literalsCopied_uaCopyN .input h (c.dst + s.opRel) (s.ip + 1) 16
        (by rcases separate with hsep | hsep <;> omega)
      exact ⟨hcopy.frame, fun a hlow hhigh => hcopy.copied a hlow (by omega)⟩
  refine ⟨tame.trans ?_, ⟨fun a ha => hcopied.frame a (by omega), hcopied.copied⟩,
    intact.frame separate (by omega) (by omega) hcopied.frame, by omega, by omega, by omega⟩
  unfold fastLiterals
  split
  · exact ⟨grown_memcpy _ _ _ _ _, fun m₀ hlog => Heap.logged_memcpy
      (inBounds_output (by omega) (by omega)) (inBounds_input (by omega) (by omega)) hlog⟩
  · exact ⟨grown_uaCopyN _ _ _ _ _, fun m₀ hlog => uaCopyN_logged (inBounds_downward _) hlog
      (inBounds_input (by omega) (by omega)) (inBounds_output (by omega) (by omega))⟩

/-- A pass on the fast path. -/
theorem fastPath_does (separate : c.Separate) (hsize : c.outputSize < 2 ^ 31)
    (intact : c.Intact source s.heap.mem) (hip : c.src ≤ s.ip)
    (tame : Tame c s.heap h) (hmem : h.mem = s.heap.mem) (fast : c.Fast (s.ip + 1) token s.opRel)
    (htoken : token < 256) :
    Does c s (fastPath c h (s.ip + 1) token s.opRel)
      (matchTurn c source (s.ip + 1) (token / 16) token s.opRel) := by
  have literals := fastLiterals_literals separate intact hip tame hmem fast htoken
  have hlabel := literals.copyMatchLabel hsize token
  obtain ⟨hshort, -, hroom, hlimit⟩ := fast
  have hoend : c.oend = c.dst + c.outputSize := rfl
  have hspace : c.dst + s.opRel + (token / 16 : Nat) + 18 ≤ c.oend := by omega
  unfold fastPath
  dsimp only
  split
  · rename_i hbeyond
    rw [if_pos hbeyond] at hlabel
    exact hlabel
  rename_i hreach
  rw [if_neg hreach] at hlabel
  split
  · rename_i hdirect
    exact literals.fastDirect hsize hspace hreach hdirect.1 (Or.inl hdirect.2)
  split
  · rename_i hdirect
    exact literals.fastDirect hsize hspace hreach hdirect.1 (Or.inr hdirect.2)
  · exact hlabel

/-- Every other pass. -/
theorem slowPath_does (separate : c.Separate) (hsize : c.outputSize < 2 ^ 31)
    (intact : c.Intact source s.heap.mem) (hip : c.src ≤ s.ip) (hiend : s.ip < c.iend)
    (tame : Tame c s.heap h) (hmem : h.mem = s.heap.mem) :
    Does c s (slowPath c h (s.ip + 1) token s.opRel)
      (match lengthAt source (s.ip + 1) c.iend (token / 16) with
      | none => .error
      | some (length, lit) =>
        if s.opRel + length > c.outputSize - 12 ∨ lit + length > c.iend - 8 then
          if lit + length = c.iend ∧ s.opRel + length ≤ c.outputSize then .last lit length
          else .error
        else matchTurn c source lit length token s.opRel) := by
  have hoend : c.oend = c.dst + c.outputSize := rfl
  have hdst : c.env.dst = c.dst := rfl
  have hoend' : c.env.oend = c.oend := rfl
  have hsrc : c.env.src = c.src := rfl
  have hiend' : c.env.iend = c.iend := rfl
  obtain ⟨h₁, hread, hmem₁, hgrown, hlogged⟩ := readLength_spec h (s.ip + 1) c.iend (token / 16)
  have tame₁ : Tame c s.heap h₁ := tame.trans ⟨hgrown, fun m₀ => hlogged _ m₀
    (inBounds_downward _) (inBounds_input (by omega) (by omega))⟩
  have hlength : lengthAt h.mem (s.ip + 1) c.iend (token / 16) =
      lengthAt source (s.ip + 1) c.iend (token / 16) := by
    rw [hmem]
    exact lengthAt_congr fun a hlow hhigh => intact a (by omega) hhigh
  unfold slowPath
  rw [hread, hlength]
  rcases hsome : lengthAt source (s.ip + 1) c.iend (token / 16) with - | ⟨length, lit⟩
  · exact ⟨_, rfl, tame₁⟩
  dsimp only
  obtain ⟨hlow, hhigh, -⟩ := lengthAt_bounds hsome
  by_cases hlast : s.opRel + length > c.outputSize - 12 ∨ lit + length > c.iend - 8
  · rw [if_pos hlast, if_pos (by omega)]
    split
    · rw [if_neg (by omega)]
      exact ⟨_, rfl, tame₁⟩
    split
    · rw [if_neg (by omega)]
      exact ⟨_, rfl, tame₁⟩
    · rw [if_pos (by omega), Nat.mod_eq_of_lt (by omega)]
      refine ⟨_, rfl, tame₁.trans ⟨grown_uaCopyN _ _ _ _ _, fun m₀ hlog => ?_⟩, ?_⟩
      · exact uaCopyN_logged (inBounds_downward _) hlog
          (inBounds_input (by omega) (by omega)) (inBounds_output (by omega) (by omega))
      · rw [← hmem, ← hmem₁]
        exact literalsCopied_uaCopyN _ _ _ _ _ (by rcases separate with hsep | hsep <;> omega)
  · rw [if_neg hlast, if_neg (by omega)]
    have hcopied : LiteralsCopied s.heap.mem (litWildCopy8 h₁ (c.dst + s.opRel) lit
        (c.dst + s.opRel + length)).mem (c.dst + s.opRel) lit length
        (c.dst + s.opRel + length + 8) := by
      rw [← hmem, ← hmem₁]
      exact literalsCopied_litWildCopy8 _ _ _ _ (by rcases separate with hsep | hsep <;> omega)
    have literals : Literals c source s (litWildCopy8 h₁ (c.dst + s.opRel) lit
        (c.dst + s.opRel + length)) lit length := by
      refine ⟨tame₁.trans ⟨grown_litWildCopy8 _ _ _ _, fun m₀ hlog => ?_⟩,
        ⟨fun a ha => hcopied.frame a (by omega), hcopied.copied⟩,
        intact.frame separate (by omega) (by omega) hcopied.frame, by omega, by omega, by omega⟩
      exact litWildCopy8_logged (inBounds_downward _) hlog
        (inBounds_input (by omega) (by omega)) (inBounds_output (by omega) (by omega))
    exact literals.copyMatchLabel hsize token

/-- A pass does what the turn at its place says. -/
theorem pass_turn (separate : c.Separate) (hsize : c.outputSize < 2 ^ 31)
    (intact : c.Intact source s.heap.mem) (hip : c.src ≤ s.ip) (hiend : s.ip < c.iend) :
    Does c s (pass c s) (turn c source s.ip s.opRel) := by
  have htoken := (source s.ip).toNat_lt
  have tame : Tame c s.heap (s.heap.load .input s.ip 1) := tame_load hip (by omega)
  unfold pass turn
  dsimp only
  rw [intact s.ip hip hiend]
  split
  · rename_i hfast
    exact fastPath_does separate hsize intact hip tame rfl hfast htoken
  · exact slowPath_does separate hsize intact hip hiend tame rfl

end Pass

/-! ## Where a turn leads -/

variable {length' : Nat} {lit' : Int}

section Turn

variable {c : Call} {m : Mem} {ip lit next : Int} {opRel length offset matchLength token : Nat}

theorem matchTurn_ne_last : matchTurn c m lit length token opRel ≠ .last lit' length' := by
  unfold matchTurn
  dsimp only
  split
  · simp
  split <;> simp

theorem matchTurn_bounds
    (h : matchTurn c m lit length token opRel = .sequence lit' length' offset matchLength next) :
    lit' = lit ∧ length' = length ∧ offset ≤ (opRel + length) % 2 ^ 32 ∧ lit + length + 2 ≤ next ∧
      (next = lit + length + 2 ∨ next ≤ c.iend - 5) := by
  unfold matchTurn at h
  dsimp only at h
  split at h
  · simp at h
  · rename_i hreach
    split at h
    · simp at h
    · rename_i l next' hlength
      obtain ⟨rfl, rfl, rfl, -, rfl⟩ := h
      obtain ⟨hlow, hhigh, -⟩ := lengthAt_bounds hlength
      exact ⟨rfl, rfl, Nat.le_of_not_lt hreach, hlow, hhigh⟩

/-- A sequence lies in the input and its literals fit the output. -/
theorem turn_sequence (h : turn c m ip opRel = .sequence lit length offset matchLength next) :
    ip < lit ∧ lit + length + 2 ≤ next ∧ next < c.iend ∧ offset ≤ (opRel + length) % 2 ^ 32 ∧
      opRel + length ≤ c.outputSize - 12 := by
  have htoken := (m ip).toNat_lt
  unfold turn at h
  dsimp only at h
  split at h
  · rename_i fast
    obtain ⟨hshort, hfar, hroom, hlimit⟩ := fast
    obtain ⟨rfl, rfl, hoffset, hlow, hhigh⟩ := matchTurn_bounds h
    refine ⟨by omega, hlow, by omega, hoffset, by omega⟩
  · split at h
    · simp at h
    · rename_i l lit' hlength
      obtain ⟨hlow, -, -⟩ := lengthAt_bounds hlength
      split at h
      · split at h <;> simp at h
      · obtain ⟨rfl, rfl, hoffset, hlow', hhigh⟩ := matchTurn_bounds h
        exact ⟨by omega, hlow', by omega, hoffset, by omega⟩

theorem matchTurn_offset_lt
    (h : matchTurn c m lit length token opRel = .sequence lit' length' offset matchLength next) :
    offset < 65536 := by
  unfold matchTurn at h
  dsimp only at h
  split at h
  · simp at h
  · split at h
    · simp at h
    · simp only [Turn.sequence.injEq] at h
      rw [← h.2.2.1]
      exact readLE16_lt _ _

/-- Offsets have 16 bits. -/
theorem turn_offset_lt (h : turn c m ip opRel = .sequence lit length offset matchLength next) :
    offset < 65536 := by
  unfold turn at h
  dsimp only at h
  split at h
  · exact matchTurn_offset_lt h
  · split at h
    · simp at h
    · split at h
      · split at h <;> simp at h
      · exact matchTurn_offset_lt h

/-- The last literals end the input and fit the output. -/
theorem turn_last (h : turn c m ip opRel = .last lit length) :
    ip < lit ∧ lit + length = c.iend ∧ opRel + length ≤ c.outputSize := by
  unfold turn at h
  dsimp only at h
  split at h
  · exact absurd h matchTurn_ne_last
  · split at h
    · simp at h
    · rename_i l lit' hlength
      obtain ⟨hlow, -, -⟩ := lengthAt_bounds hlength
      split at h
      · split at h
        · rename_i hend
          obtain ⟨rfl, rfl⟩ := h
          exact ⟨by omega, hend.1, hend.2⟩
        · simp at h
      · exact absurd h matchTurn_ne_last

end Turn

/-! ## Runs -/

/-- Every match from `ip` on, with the output at `opRel`, ends in the output; `n` is the number
of sequences to look at. -/
def fits (c : Call) (m : Mem) : Nat → Int → Nat → Prop
  | 0, _, _ => True
  | n + 1, ip, opRel =>
    match turn c m ip opRel with
    | .sequence _ length _ matchLength next =>
      opRel + length + matchLength ≤ c.outputSize ∧
        fits c m n next (opRel + length + matchLength)
    | _ => True

instance decidableFits (c : Call) (m : Mem) : ∀ n ip opRel, Decidable (fits c m n ip opRel)
  | 0, _, _ => inferInstanceAs (Decidable True)
  | n + 1, ip, opRel => by
    unfold fits
    split
    · have := decidableFits c m n
      infer_instance
    · infer_instance

/-- Every match of the input ends in the output. -/
def Fits (c : Call) (m : Mem) : Prop := fits c m c.srcSize.toNat c.src 0

instance (c : Call) (m : Mem) : Decidable (Fits c m) := decidableFits _ _ _ _ _

/-- Reads of the input and writes of the output are in bounds, and the word stored is a size or
the error mark. -/
structure Safe (c : Call) (word : Nat) (h : Heap) : Prop where
  reads : ∀ a ∈ h.log, a.port = .input → c.src ≤ a.lo ∧ a.lo + a.len ≤ c.iend
  writes : ∀ a ∈ h.log, a.port = .output → c.dst ≤ a.lo ∧ a.lo + a.len ≤ c.oend
  word : word ≤ c.outputSize ∨ word = errorMark

variable {h : Heap}

theorem safe_of_logged {c : Call} {m₀ : Mem} {word : Nat} (hlog : h.Logged (InBounds c.env) m₀)
    (hword : word ≤ c.outputSize ∨ word = errorMark) : Safe c word h := by
  refine ⟨fun a ha hport => ?_, fun a ha hport => ?_, hword⟩
  · obtain ⟨port, lo, len⟩ := a
    subst hport
    exact hlog.1 _ ha
  · obtain ⟨port, lo, len⟩ := a
    subst hport
    exact hlog.1 _ ha

section Run

variable {c : Call} {source : Mem} {s : State}

/-- Whatever memory holds, the loop comes to its end and forgets no access. -/
theorem iterate_pass_grown (separate : c.Separate) (hsize : c.outputSize < 2 ^ 31)
    (hip : c.src ≤ s.ip) (hiend : s.ip < c.iend) (hn : (c.iend - s.ip).toNat < n) :
    ∃ r, iterate (fun s => some (pass c s)) n s = some r ∧ Grown s.heap r.2 := by
  refine iterate_ends (fun t : State => c.src ≤ t.ip ∧ t.ip < c.iend ∧ Grown s.heap t.heap)
    (fun t => (c.iend - t.ip).toNat) ?_ ⟨hip, hiend, Grown.refl _⟩ hn
  rintro t ⟨htip, htiend, hgrown⟩
  have intact : c.Intact t.heap.mem t.heap.mem := fun _ _ _ => rfl
  have hdoes := pass_turn separate hsize intact htip htiend
  refine ⟨_, rfl, ?_⟩
  cases hturn : turn c t.heap.mem t.ip t.opRel with
  | error =>
    rw [hturn] at hdoes
    obtain ⟨h, hpass, tame⟩ := hdoes
    rw [hpass]
    exact hgrown.trans tame.grown
  | last lit length =>
    rw [hturn] at hdoes
    obtain ⟨h, hpass, tame, -⟩ := hdoes
    rw [hpass]
    exact hgrown.trans tame.grown
  | sequence lit length offset matchLength next =>
    rw [hturn] at hdoes
    obtain ⟨h₁, h₂, hpass, tame, -, matched⟩ := hdoes
    obtain ⟨hlit, hnext, hnext', -, -⟩ := turn_sequence hturn
    rw [hpass]
    refine ⟨⟨?_, hnext', (hgrown.trans tame.grown).trans matched.grown⟩, ?_⟩
    · show c.src ≤ next
      omega
    · show (c.iend - next).toNat < (c.iend - t.ip).toNat
      omega

/-- A sequence that ends in the output leaves the input alone. -/
theorem Matched.intact {h' : Heap} {op : Int} {offset : Nat} (matched : Matched c h h' op offset n)
    (separate : c.Separate) (intact : c.Intact source h.mem) (hop : c.dst ≤ op)
    (hfits : op + n ≤ c.oend) : c.Intact source h'.mem :=
  intact.frame separate hop (Int.le_refl _) fun a ha => matched.frame a (by omega)

/-- The run from a place of the input is safe if and only if every match from there on ends in
the output. -/
theorem iterate_pass_iff (separate : c.Separate) (hsize : c.outputSize < 2 ^ 31) {k : Nat}
    (intact : c.Intact source s.heap.mem) (hip : c.src ≤ s.ip) (hiend : s.ip < c.iend)
    (hlog : s.heap.Logged (InBounds c.env) source) (hk : (c.iend - s.ip).toNat ≤ k) :
    ∃ r, iterate (fun s => some (pass c s)) (k + 1) s = some r ∧
      (Safe c r.1 r.2 ↔ fits c source k s.ip s.opRel) := by
  induction k generalizing s with
  | zero => omega
  | succ k ih =>
    have hdoes := pass_turn separate hsize intact hip hiend
    rw [iterate, fits]
    cases hturn : turn c source s.ip s.opRel with
    | error =>
      rw [hturn] at hdoes
      obtain ⟨h, hpass, tame⟩ := hdoes
      rw [hpass]
      exact ⟨_, rfl, fun _ => trivial, fun _ =>
        safe_of_logged (tame.logged _ hlog) (Or.inr rfl)⟩
    | last lit length =>
      rw [hturn] at hdoes
      obtain ⟨h, hpass, tame, -⟩ := hdoes
      obtain ⟨-, -, hroom⟩ := turn_last hturn
      rw [hpass]
      exact ⟨_, rfl, fun _ => trivial, fun _ =>
        safe_of_logged (tame.logged _ hlog) (Or.inl (by dsimp only; omega))⟩
    | sequence lit length offset matchLength next =>
      rw [hturn] at hdoes
      obtain ⟨h₁, h₂, hpass, tame, literals, matched⟩ := hdoes
      obtain ⟨hlit, hnext, hnext', -, hroom⟩ := turn_sequence hturn
      have hoend : c.oend = c.dst + c.outputSize := rfl
      have hsrc : c.src ≤ next := by omega
      rw [hpass]
      by_cases hfits : (s.opRel + length + matchLength : Int) ≤ c.outputSize
      · have hmod : (s.opRel + length + matchLength) % 2 ^ 32 =
            s.opRel + length + matchLength := Nat.mod_eq_of_lt (by omega)
        have intact₁ : c.Intact source h₁.mem :=
          intact.frame separate (by omega) (Int.le_refl _) literals.frame
        have hlog₂ := (matched.tame (by omega)).logged _ (tame.logged _ hlog)
        obtain ⟨r, hr, hiff⟩ := ih (s := ⟨h₂, next, _⟩)
          (matched.intact separate intact₁ (by omega) (by omega)) hsrc hnext' hlog₂
          (by dsimp only; omega)
        refine ⟨r, hr, ?_⟩
        rw [hiff, hmod]
        exact (and_iff_right hfits).symm
      · -- the end of the match is beyond the output, and the log keeps it
        obtain ⟨a, ha, hport, hbeyond⟩ := matched.overruns (by omega)
        obtain ⟨r, hr, hgrown⟩ := iterate_pass_grown (s := ⟨h₂, next, _⟩) separate hsize
          hsrc hnext' (n := k + 1) (by dsimp only; omega)
        refine ⟨r, hr, fun safe => ?_, fun h => absurd h.1 hfits⟩
        have := (safe.writes a (hgrown.subset ha) hport).2
        omega

end Run

/-- A call of `lz4_decompress_generic` on a non-empty input ends.  It reads the input and writes
the output in bounds, and stores a size or the error mark, if and only if every match of the
input ends in the output. -/
theorem decompressGeneric_safe_iff (c : Call) (m : Mem) (hsrc : 1 ≤ c.srcSize)
    (hsize : c.outputSize < 2 ^ 31) (separate : c.Separate) :
    ∃ word h, decompressGeneric ⟨m, []⟩ c = some (word, h) ∧ (Safe c word h ↔ Fits c m) := by
  have hiend : c.iend = c.src + c.srcSize := rfl
  have hlog : Heap.Logged (InBounds c.env) m ⟨m, []⟩ := ⟨by simp, fun _ _ => rfl⟩
  obtain ⟨⟨word, h⟩, hrun, hiff⟩ := iterate_pass_iff (s := ⟨⟨m, []⟩, c.src, 0⟩) separate hsize
    (fun _ _ _ => rfl) (Int.le_refl _) (by dsimp only; omega) hlog
    (show (c.iend - c.src).toNat ≤ c.srcSize.toNat by omega)
  refine ⟨word, h, ?_, hiff⟩
  unfold decompressGeneric
  rw [if_neg (by omega)]
  exact hrun

/-- One literal, seven bytes repeating it, five literals: they fill 13 bytes. -/
theorem decompressGeneric_safe_thirteen :
    let m := Mem.store (fun _ => 0) 100 [0x13, 7, 1, 0, 0x50, 1, 2, 3, 4, 5]
    ∃ word h, decompressGeneric ⟨m, []⟩ ⟨100, 1000, 10, 13⟩ = some (word, h) ∧
      Safe ⟨100, 1000, 10, 13⟩ word h := by
  intro m
  obtain ⟨word, h, hcall, hiff⟩ := decompressGeneric_safe_iff ⟨100, 1000, 10, 13⟩ m (by decide)
    (by decide) (Or.inl (by decide))
  exact ⟨word, h, hcall, hiff.mpr (by decide)⟩

/-- One literal and a match of 29 bytes: its first strip of 16 bytes is stored at position 1 of an
output of 13. -/
theorem decompressGeneric_overruns :
    ∃ word h, decompressGeneric
        ⟨Mem.store (fun _ => 0) 100 [0x1F, 7, 1, 0, 10, 0x50, 1, 2, 3, 4, 5], []⟩
        ⟨100, 1000, 11, 13⟩ = some (word, h) ∧
      ⟨.output, 1001, 16⟩ ∈ h.log ∧ ¬ Safe ⟨100, 1000, 11, 13⟩ word h := by
  refine ⟨_, _, rfl, by decide, fun safe => ?_⟩
  have := safe.writes ⟨.output, 1001, 16⟩ (by decide) rfl
  exact absurd this (by decide)

end Lz4.Kernel
