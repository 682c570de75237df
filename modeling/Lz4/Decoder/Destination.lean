import Lz4.Lib.Trace
import Lz4.Decoder.UsingDict

/-!
# What the destination held before

Two partial decodings that differ only in the initial contents of the destination go through
the same passes and make the same accesses (`Twins`).  Each of them writes the output in order,
and reads below the end of what it has written (`Filled`).

There is one exception.  Close to the end of the output a match is copied byte by byte; with
offset 0 every byte is copied to itself, so that the output keeps what the destination held
there.
-/

namespace Lz4.Decoder

open FlatMemory

/-! ## Two runs in step -/

variable {port : Port}

section Twins

variable {Known : Int → Prop} {e : Env} {h₁ h₂ : Heap} {ip op : Int} {offset length : Nat}

theorem paired_wildCopy8 (hport : port ≠ .output) (paired : Paired Known h₁ h₂) (d s e : Int) :
    Paired Known (wildCopy8 port h₁ d s e) (wildCopy8 port h₂ d s e) :=
  paired.stride fun _ _ _ _ paired => paired.memcpy hport

theorem paired_wildCopy32 (hport : port ≠ .output) (paired : Paired Known h₁ h₂) (d s e : Int) :
    Paired Known (wildCopy32 port h₁ d s e) (wildCopy32 port h₂ d s e) :=
  paired.stride fun _ _ _ _ paired => (paired.memcpy hport).memcpy hport

theorem LiteralCopy.paired (how : LiteralCopy) (op : Int) (length : Nat)
    (paired : Paired Known h₁ h₂) (lit : Int) :
    Paired Known (how.run h₁ op lit length) (how.run h₂ op lit length) := by
  cases how with
  | stripe => exact paired.memcpy (by decide)
  | wild8 => exact paired_wildCopy8 (by decide) paired _ _ _
  | wild32 => exact paired_wildCopy32 (by decide) paired _ _ _
  | exact => exact paired.memcpy (by decide)

section

variable (paired : Paired Known h₁ h₂)

include paired

end

end Twins

/-! ## Writing in order -/

/-- The input, an external dictionary and everything below the output are known. -/
structure Env.Knows (e : Env) (Known : Int → Prop) : Prop where
  below : ∀ a, a < e.dst → Known a
  input : ∀ a, e.src ≤ a → a < e.iend → Known a
  dict : e.dict = .usingExtDict → ∀ a, e.dictEnd - e.dictSize ≤ a → a < e.dictEnd → Known a

/-- The output was written in order so far, unless the call failed. -/
def Orderly (Known : Int → Prop) (m : Mem) (e : Env) : Next → Prop
  | .loop _ h _ op => Filled Known m op op h
  | .ret r h => r < 0 ∨ Filled Known m (e.dst + r) (e.dst + r) h

variable {fast : Bool} {ip : Int}

section Filled

variable {Known : Int → Prop} {e : Env} {m : Mem} {h : Heap} {ip op hi d s : Int} {port : Port}
  {offset length : Nat}

theorem filled_loadTo (filled : Filled Known m op hi h) {ip' : Int}
    (hknown : ∀ x, ip ≤ x → x < ip' → Known x) : Filled Known m op hi (loadTo h ip ip') := by
  unfold loadTo
  split
  · exact filled.load (by decide) fun x hlow hhigh => Or.inr (hknown x hlow (by omega))
  · exact filled

theorem filled_wildCopy8 (hport : port ≠ .output) (filled : Filled Known m op hi h) {e : Int}
    (hop : op ≤ d) (hd : d ≤ hi)
    (hcovered : s + 8 ≤ d ∨ ∀ x, s ≤ x → x < s + max 8 (e - d + 7) → Known x) :
    Filled Known m op (max hi e) (wildCopy8 port h d s e) := by
  have hle := passes_le (k := 8) (by omega) d e
  have hge := le_passes (k := 8) (by omega) d e
  refine Filled.mono (filled.stride (c := 8) (fun _ _ _ _ filled => filled.memcpy_strip hport) hop hd
    ?_) (Int.le_refl _) (by omega)
  exact hcovered.imp_right fun hknown x hlow hhigh => hknown x hlow (by omega)

theorem filled_wildCopy32 (hport : port ≠ .output) (filled : Filled Known m op hi h) {e : Int}
    (hop : op ≤ d) (hd : d ≤ hi)
    (hcovered : s + 16 ≤ d ∨ ∀ x, s ≤ x → x < s + max 32 (e - d + 31) → Known x) :
    Filled Known m op (max hi e) (wildCopy32 port h d s e) := by
  have hle := passes_le (k := 32) (by omega) d e
  have hge := le_passes (k := 32) (by omega) d e
  refine Filled.mono (filled.stride (c := 16) (fun h hi d s filled hop hd hcovered => ?_) hop hd
    ?_) (Int.le_refl _) (by omega)
  · have first := filled.memcpy_strip (n := 16) hport hop hd
      (hcovered.imp_right fun hknown x hlow hhigh => hknown x hlow (by omega))
    have second := first.memcpy_strip (d := d + 16) (s := s + 16) (n := 16) hport (by omega)
      (by omega) (hcovered.imp (fun _ => by omega) fun hknown x hlow hhigh =>
        hknown x (by omega) (by omega))
    exact second.mono (Int.le_refl _) (by omega)
  · exact hcovered.imp_right fun hknown x hlow hhigh => hknown x hlow (by omega)

theorem LiteralCopy.filled {how : LiteralCopy} {lit : Int} (knows : e.Knows Known)
    (filled : Filled Known m op op h) (hsrc : e.src ≤ lit) (hiend : lit + length ≤ e.iend)
    (hfits : how.Fits e op lit length) :
    Filled Known m (op + length) (op + length) (how.run h op lit length) := by
  have hknown (x : Int) (hlow : lit ≤ x) (hhigh : x < e.iend) : Known x :=
    knows.input x (by omega) hhigh
  cases how with
  | stripe =>
    obtain ⟨hlength, hmore, -⟩ := hfits
    exact (filled.memcpy (d := op) (s := lit) (n := 16) (by decide) (Int.le_refl _) (Int.le_refl _)
      fun x hlow hhigh => Or.inr (hknown x hlow (by omega))).mono (by omega) (by omega)
  | wild8 =>
    obtain ⟨hmore, -⟩ := hfits
    exact (filled_wildCopy8 (s := lit) (by decide) filled (Int.le_refl _) (Int.le_refl _)
      (Or.inr fun x hlow hhigh => hknown x hlow (by omega))).mono (by omega) (by omega)
  | wild32 =>
    obtain ⟨hlong, hmore, -⟩ := hfits
    exact (filled_wildCopy32 (s := lit) (by decide) filled (Int.le_refl _) (Int.le_refl _)
      (Or.inr fun x hlow hhigh => hknown x hlow (by omega))).mono (by omega) (by omega)
  | exact =>
    exact (filled.memcpy (d := op) (s := lit) (n := length) (by decide) (Int.le_refl _)
      (Int.le_refl _) fun x hlow hhigh => Or.inr (hknown x hlow (by omega))).mono (by omega)
      (by omega)

/-- The corrections of `inc32table` do not lead beyond the match. -/
theorem inc32table_le {offset : Nat} (hlt : offset < 8) : inc32table.getD offset 0 ≤ offset := by
  interval_cases offset <;> decide

theorem filled_copyFirst8 (filled : Filled Known m op op h) (offset : Nat) :
    Filled Known m op (op + 8) (copyFirst8 h op (op - offset) offset).1 := by
  have hwindow : Port.window ≠ .output := by decide
  unfold copyFirst8
  split
  · rename_i hlt
    have hinc := inc32table_le hlt
    have cleared := filled.store (Int.le_refl _) (Int.le_refl _) [0, 0, 0, 0]
    rw [show max op (op + ([0, 0, 0, 0] : List UInt8).length) = op + 4 by
      simp only [List.length_cons, List.length_nil]; omega] at cleared
    have half := cleared.byteCopy_covered (d := op) (s := op - offset) (n := 4) hwindow
      (Int.le_refl _) (by omega) (by omega)
    have second := half.memcpy (d := op + 4) (s := op - offset + inc32table.getD offset 0) (n := 4)
      hwindow (by omega) (by omega) fun x _ hhigh => Or.inl (by omega)
    exact second.mono (Int.le_refl _) (by omega)
  · exact (filled.memcpy (d := op) (s := op - offset) (n := 8) (by decide) (Int.le_refl _)
      (Int.le_refl _) fun x _ hhigh => Or.inl (by omega)).mono (Int.le_refl _) (by omega)

theorem filled_safePrefixCopy (filled : Filled Known m op op h) (offset : Nat)
    (hlength : 4 ≤ length) :
    Filled Known m op (op + length) (safePrefixCopy e h op offset length) := by
  have hwindow : Port.window ≠ .output := by decide
  have first := filled_copyFirst8 filled offset
  obtain ⟨-, -, -, -, hbehind⟩ := copyFirst8_snd h op offset
  unfold safePrefixCopy
  dsimp only
  generalize (copyFirst8 h op (op - offset) offset).2 = mtch at hbehind
  split
  · split
    · have wild := filled_wildCopy8 (d := op + 8) (s := mtch) (e := e.oend - 7) hwindow first
        (by omega) (Int.le_refl _) (Or.inl (by omega))
      exact (wild.byteCopy (n := (op + length - (e.oend - 7)).toNat) hwindow (by omega) (by omega)
        (by omega)).mono (Int.le_refl _) (by omega)
    · exact (first.byteCopy (n := (op + length - (op + 8)).toNat) hwindow (by omega)
        (Int.le_refl _) (by omega)).mono (Int.le_refl _) (by omega)
  · have second := first.memcpy (d := op + 8) (s := mtch) (n := 8) hwindow (by omega)
      (Int.le_refl _) fun x _ hhigh => Or.inl (by omega)
    split
    · exact (filled_wildCopy8 (d := op + 8 + 8) (s := mtch + 8) (e := op + length) hwindow second
        (by omega) (by omega) (Or.inl (by omega))).mono (Int.le_refl _) (by omega)
    · exact second.mono (Int.le_refl _) (by omega)

/-- A match that starts in the external dictionary. -/
theorem extDictMatch_orderly (knows : e.Knows Known) (hdict : e.dict = .usingExtDict)
    (filled : Filled Known m op op h) (hsrc : e.src ≤ ip) (hdst : e.lowPrefix ≤ op)
    (hext : op - offset < e.lowPrefix) (hreach : e.lowPrefix - (op - offset) ≤ e.dictSize)
    (fast : Bool) : Orderly Known m e (extDictMatch e fast h ip op offset length) := by
  have hwindow : Port.window ≠ .output := by decide
  have hknown := knows.dict hdict
  unfold extDictMatch
  dsimp only
  split
  · exact Or.inl (by omega)
  · generalize (if op + (length : Int) > e.oend - 5 then min length (e.oend - op).toNat
      else length) = k
    split
    · exact (filled.memcpy (n := k) hwindow (Int.le_refl _) (Int.le_refl _)
        fun x hlow hhigh => Or.inr (hknown x (by omega) (by omega))).mono (by omega) (by omega)
    · have outer := filled.memcpy (d := op) (n := (e.lowPrefix - (op - offset)).toNat)
        (s := e.dictEnd - (e.lowPrefix - (op - offset)).toNat) hwindow (Int.le_refl _)
        (Int.le_refl _) fun x hlow hhigh => Or.inr (hknown x (by omega) (by omega))
      unfold Orderly
      dsimp only
      split
      · exact (outer.byteCopy (n := k - (e.lowPrefix - (op - offset)).toNat) hwindow (by omega)
          (by omega) (by omega)).mono (by omega) (by omega)
      · exact (outer.memcpy (n := k - (e.lowPrefix - (op - offset)).toNat) hwindow (by omega)
          (by omega) fun x hlow hhigh => Or.inl (by omega)).mono (by omega) (by omega)

/-- The byte-by-byte copy at the end of the output.  With offset 0 it may read bytes that were
not written. -/
theorem filled_nearEnd (filled : Filled Known m op op h) (offset k : Nat) :
    Filled Known m (op + k) (op + k)
      (if op - offset + (k : Int) > op then byteCopy .window h op (op - offset) k
        else h.memcpy .window op (op - offset) k) := by
  have hwindow : Port.window ≠ .output := by decide
  split
  · rcases Nat.eq_zero_or_pos offset with rfl | hpos
    · have self := filled.byteCopy_self (n := k) hwindow (Int.le_refl _)
      rw [show op - ((0 : Nat) : Int) = op by omega]
      exact self.mono (Int.le_refl _) (by omega)
    · exact (filled.byteCopy (n := k) hwindow (Int.le_refl _) (Int.le_refl _) (by omega)).mono
        (by omega) (by omega)
  · exact (filled.memcpy (n := k) hwindow (Int.le_refl _) (Int.le_refl _)
      fun x _ hhigh => Or.inl (by omega)).mono (by omega) (by omega)

theorem safeMatchCopy_orderly (knows : e.Knows Known) (filled : Filled Known m op op h)
    (hsrc : e.src ≤ ip) (hlow : e.lowPrefix ≤ op) (hoffset : offset < 65536)
    (hlength : 4 ≤ length) : Orderly Known m e (safeMatchCopy e h ip op offset length) := by
  unfold safeMatchCopy
  dsimp only
  split
  · exact Or.inl (by omega)
  rename_i hcheck
  split
  · rename_i hext
    exact extDictMatch_orderly knows hext.1 filled hsrc hlow hext.2
      (reach_of_check hlow hoffset hcheck) false
  split
  · have copied := filled_nearEnd filled offset (min length (e.oend - op).toNat)
    split
    · refine Or.inr ?_
      rw [show e.dst + (op + (min length (e.oend - op).toNat : Nat) - e.dst) =
        op + (min length (e.oend - op).toNat : Nat) by omega]
      exact copied
    · exact copied
  split
  · exact Or.inl (by omega)
  · exact (filled_safePrefixCopy filled offset hlength).mono (by omega) (Int.le_refl _)

theorem filled_storePattern (filled : Filled Known m op op h) {v : List UInt8}
    (hv : v.length = 8) (e : Int) : Filled Known m op e (storePattern h v op e) := by
  have hge := le_passes (k := 8) (by omega) op e
  refine Filled.mono (filled.stride (c := 0) (fun h hi d s filled hop hd _ => ?_) (Int.le_refl _)
    (Int.le_refl _) (Or.inl (by omega))) (Int.le_refl _) (by omega)
  have stored := filled.store hop hd v
  rwa [hv] at stored

theorem filled_memcpyUsingOffset (filled : Filled Known m op op h) (e : Int) (offset : Nat) :
    Filled Known m op e (memcpyUsingOffset h op (op - offset) e offset) := by
  have hwindow : Port.window ≠ .output := by decide
  have loaded (k : Nat) (hk : k ≤ offset) : Filled Known m op op (h.load .window (op - offset) k) :=
    filled.load hwindow fun x _ hhigh => Or.inl (by omega)
  unfold memcpyUsingOffset
  split
  · exact filled_storePattern (loaded 1 (Nat.le_refl _)) rfl e
  · exact filled_storePattern (loaded 2 (Nat.le_refl _)) rfl e
  · exact filled_storePattern (loaded 4 (Nat.le_refl _)) rfl e
  · obtain ⟨-, -, -, -, hbehind⟩ := copyFirst8_snd h op offset
    exact (filled_wildCopy8 (s := (copyFirst8 h op (op - offset) offset).2) hwindow
      (filled_copyFirst8 filled offset) (by omega) (Int.le_refl _) (Or.inl (by omega))).mono
      (Int.le_refl _) (by omega)

theorem fastMatchCopy_orderly (knows : e.Knows Known) (filled : Filled Known m op op h)
    (hsrc : e.src ≤ ip) (hlow : e.lowPrefix ≤ op) (hoffset : offset < 65536) :
    Orderly Known m e (fastMatchCopy e h ip op offset length) := by
  unfold fastMatchCopy
  dsimp only
  split
  · exact Or.inl (by omega)
  rename_i hcheck
  split
  · rename_i hext
    exact extDictMatch_orderly knows hext.1 filled hsrc hlow hext.2
      (reach_of_check hlow hoffset hcheck) true
  unfold Orderly
  dsimp only
  split
  · exact (filled_memcpyUsingOffset filled (op + length) offset).mono (by omega) (Int.le_refl _)
  · exact (filled_wildCopy32 (by decide) filled (Int.le_refl _) (Int.le_refl _)
      (Or.inl (by omega))).mono (by omega) (by omega)

theorem MatchCopy.orderly {how : MatchCopy} (placed : e.Placed) (knows : e.Knows Known)
    (filled : Filled Known m op op h) (hsrc : e.src ≤ ip) (hdst : e.dst ≤ op)
    (hoffset : offset < 65536) (hlength : 4 ≤ length) (hfits : how.Fits e op offset length) :
    Orderly Known m e (how.run e h ip op offset length) := by
  have hwindow : Port.window ≠ .output := by decide
  have hlow : e.lowPrefix ≤ op := Int.le_trans placed.lowPrefix_le hdst
  cases how with
  | eighteen fast =>
    obtain ⟨hfar, hshort, -⟩ := hfits
    have first := filled.memcpy (d := op) (s := op - offset) (n := 8) hwindow (Int.le_refl _)
      (Int.le_refl _) fun x _ hhigh => Or.inl (by omega)
    have second := first.memcpy (d := op + 8) (s := op - offset + 8) (n := 8) hwindow (by omega)
      (by omega) fun x _ hhigh => Or.inl (by omega)
    have third := second.memcpy (d := op + 16) (s := op - offset + 16) (n := 2) hwindow
      (by omega) (by omega) fun x _ hhigh => Or.inl (by omega)
    exact third.mono (by omega) (by omega)
  | safeCopy => exact safeMatchCopy_orderly knows filled hsrc hlow hoffset hlength
  | fastCopy => exact fastMatchCopy_orderly knows filled hsrc hlow hoffset

/-- Every pass keeps the order. -/
theorem Pass.orderly {source : Mem} {pass : Pass} (placed : e.Placed) (knows : e.Knows Known)
    (filled : Filled Known m op op h) (hsrc : e.src ≤ ip) (hiend : ip < e.iend) (hdst : e.dst ≤ op)
    (hoend : op ≤ e.oend) (hfits : pass.Fits e source fast ip op) :
    Orderly Known m e (pass.run e h ip op) := by
  have hinput : Port.input ≠ .output := by decide
  have started (lit : Int) (hlit : lit ≤ e.iend) :
      Filled Known m op op (loadTo (h.load .input ip 1) (ip + 1) lit) := by
    refine filled_loadTo (filled.load hinput fun x hlow hhigh => ?_) fun x hlow hhigh => ?_
    · exact Or.inr (knows.input x (by omega) (by omega))
    · exact knows.input x (by omega) (by omega)
  cases pass with
  | fail ip' =>
    obtain ⟨-, hip', -⟩ := hfits
    exact Or.inl (by omega)
  | refuse lit =>
    obtain ⟨full, hrun, -⟩ := hfits
    have hlit := (literalRun_le hrun).1
    exact Or.inl (by omega)
  | stop lit length =>
    obtain ⟨full, hrun, -, stops, -⟩ := hfits
    obtain ⟨hlit, hlong, hshort⟩ := literalRun_le hrun
    have hlength := stops.length_eq
    have hexact : LiteralCopy.exact.Fits e op lit length := by
      simp only [LiteralCopy.Fits]
      omega
    refine Or.inr ?_
    rw [show e.dst + (op + length - e.dst) = op + length by omega]
    exact LiteralCopy.filled knows (started lit (by omega)) (by omega) (by omega) hexact
  | sequence lit length how entry offset rest =>
    obtain ⟨⟨hrun, goes⟩, hoffset, hrest, -⟩ := hfits
    have hlit := (literalRun_le hrun).1
    have hmore := goes.more
    have copied := LiteralCopy.filled knows (started lit (by omega)) (by omega) (by omega)
      goes.fits
    have behind := copied.load (s := lit + length) (n := 2) hinput fun x hlow hhigh =>
      Or.inr (knows.input x (by omega) (by omega))
    cases rest with
    | fail ip' =>
      obtain ⟨-, hip'⟩ := hrest
      exact Or.inl (by omega)
    | copy how matchLength ip' =>
      obtain ⟨hmatch, hhow⟩ := hrest
      obtain ⟨hfour, hip', hlong, hshort⟩ := matchRun_le hmatch
      refine MatchCopy.orderly placed knows (filled_loadTo behind fun x hlow hhigh => ?_)
        (by omega) (by omega) (hoffset ▸ readLE16_lt _ _) hfour hhow
      exact knows.input x (by omega) (by omega)

end Filled

/-! ## The run -/

variable {fuel : Nat} {op : Int}

section Run

variable {Known : Int → Prop} {e : Env} {m m' : Mem}

end Run

/-! ## The calls -/

section Call

variable {Known : Int → Prop} {m m' : Mem} {src dst : Int} {srcSize : Nat} {outputSize : Int}
  {dict : DictDirective} {lowPrefix dictStart : Int} {dictSize : Nat}

end Call

end Lz4.Decoder

namespace Lz4

open FlatMemory Decoder

variable {dest : Int} {m : Mem}

end Lz4
