import Lz4.Decoder.UsingDict
import Lz4.Frame.Decompress
import Lz4.Lib.Region

/-!
# Where the history is

Linked blocks refer to the last 64 KB of what has been delivered.  The decompression context
keeps only a pointer and a size, and the bytes they describe may be the dictionary, an output
buffer of the caller, or the context's own buffer; `LZ4F_updateDict` moves them when they would
be lost.

`Recalls` says that the recent history ends where the pointer and the size say,
`Past` adds that it lies in a place that nobody is about to overwrite, and `Pending` is the same
for a block that has been decoded into the context's buffer and not yet delivered completely.
Each operation on the history takes one of these to itself for the longer history.
-/

namespace Lz4.Lz4f

open FlatMemory Decoder

/-! ## Recent history -/

theorem recent_append_left (old : List UInt8) {new : List UInt8} (h : 65536 ≤ new.length) :
    recent (old ++ new) = recent new := by
  unfold recent
  rw [List.length_append, show old.length + new.length - 65536 = old.length + (new.length - 65536) by
    omega, List.drop_length_add_append]

variable {history : List UInt8}

theorem recent_of_le (h : history.length ≤ 65536) : recent history = history := by
  unfold recent
  rw [Nat.sub_eq_zero_of_le h, List.drop_zero]

/-- Only the recent history matters for the recent history of a longer text. -/
theorem recent_append (history more : List UInt8) :
    recent (history ++ more) = recent (recent history ++ more) := by
  by_cases hlong : 65536 ≤ history.length
  · have hlength : (recent history).length = 65536 := by
      rw [length_recent, Nat.min_eq_right hlong]
    rw [← take_append_recent history, List.append_assoc, recent_append_left _ (by
      rw [List.length_append]; omega), take_append_recent]
  · rw [recent_of_le (by omega : history.length ≤ 65536)]

variable {more : List UInt8}

/-- The recent history behind at most 64 KB of new text. -/
theorem recent_append_of_le (history : List UInt8) (h : more.length ≤ 65536) :
    recent (history ++ more) =
      (recent history).drop ((recent history).length + more.length - 65536) ++ more := by
  rw [recent_append, recent, List.length_append, List.drop_append_of_le_length (by omega)]

variable {m : Mem}

theorem ends_recent_append {p : Int} (h : m.Ends p (recent history)) (hmore : m.Holds p more) :
    m.Ends (p + more.length) (recent (history ++ more)) := by
  rw [recent_append]
  exact Mem.Ends.drop (Mem.Ends.append h hmore) _

/-- The recent history ends at the end of a dictionary. -/
structure Recalls (m : Mem) (dict : Int) (dictSize : Nat) (history : List UInt8) : Prop where
  le : (recent history).length ≤ dictSize
  ends : m.Ends (dict + dictSize) (recent history)

/-! ## Decoding a block against a dictionary -/

variable {dictSize capacity : Nat}

/-- A block is decoded against any dictionary that ends with the recent history, and memory
around the output is left alone. -/
theorem decompressSafeUsingDict_recalls (fastDecLoop : Bool) {b : Block} {source dest : Int}
    {dictStart : Int} (conforming : b.Conforming history)
    (recalls : Recalls m dictStart dictSize history)
    (buffers : Buffers source dest b.encode.length capacity dictStart dictSize)
    (hholds : m.Holds source b.encode) (hroom : (b.decode history).length ≤ capacity) :
    ∃ h, decompressSafeUsingDict fastDecLoop ⟨m, []⟩ source dest b.encode.length capacity dictStart
      dictSize = some (((b.decode history).length : Int), h) ∧ h.mem.Holds dest (b.decode history) ∧
      ∀ a, a < dest ∨ dest + capacity ≤ a → h.mem a = m a := by
  obtain ⟨hle, hends⟩ := recalls
  obtain ⟨junk, hjunk⟩ : ∃ junk, m.bytes dictStart dictSize = junk ++ recent history := by
    refine ⟨m.bytes dictStart (dictSize - (recent history).length), ?_⟩
    have hsplit := Mem.bytes_add m dictStart (dictSize - (recent history).length)
      (recent history).length
    rw [Nat.sub_add_cancel hle] at hsplit
    have hstart : dictStart + ((dictSize - (recent history).length : Nat) : Int) =
        dictStart + dictSize - (recent history).length := by omega
    rw [hsplit, hstart]
    exact congrArg _ hends
  have hdecode : b.decode (m.bytes dictStart dictSize) = b.decode history := by
    rw [hjunk, decode_append_left junk conforming.recent.reaches, decode_recent conforming]
  have hconforming : b.Conforming (m.bytes dictStart dictSize) := by
    rw [hjunk]
    exact conforming.recent.append_left junk
  obtain ⟨h, hrun, hout⟩ := decompressSafeUsingDict_complete fastDecLoop m source dest capacity
    dictStart dictSize b buffers hconforming hholds (by rw [hdecode]; exact hroom)
  rw [hdecode] at hrun hout
  refine ⟨h, hrun, hout, fun a ha => ?_⟩
  obtain ⟨dict, lowPrefix, dictStart', dictSize', ⟨hcall, -⟩, serves, -, -⟩ :=
    exists_callEnv (m := m) buffers
  obtain ⟨r, h', hgeneric, hlog⟩ := decompressGeneric_logged fastDecLoop m source dest
    b.encode.length capacity false dict lowPrefix dictStart' dictSize'
    serves.1.lowPrefix_le serves.1.dictSize_eq serves.1.prefix64k
  rw [hcall, hgeneric] at hrun
  simp only [Option.some.injEq, Prod.mk.injEq] at hrun
  rw [← hrun.2]
  exact frame_of_logged hlog ha

/-! ## Places for the history -/

/-- The two blocks of the context. -/
structure Owned where
  tmpIn : Int
  tmpOut : Int
  size : Nat
  deriving Repr, DecidableEq

/-- The caller's bytes that hold still: those of `Kept` and the output between two addresses. -/
def Caller (Kept : Int → Prop) (start stop : Int) (a : Int) : Prop :=
  Kept a ∨ start ≤ a ∧ a < stop

/-- The recent history is in the context's buffer or among bytes that hold still. -/
structure Past (B : Owned) (Still : Int → Prop) (m : Mem) (dict : Int) (dictSize : Nat)
    (history : List UInt8) : Prop where
  recalls : Recalls m dict dictSize history
  place : dict = B.tmpOut ∧ dictSize ≤ B.size ∨ ∀ a, dict ≤ a → a < dict + dictSize → Still a

/-- A block with content `content`, of which `done` bytes have been delivered, stands at
`tmpOut` in the context's buffer, behind `preserve` bytes that hold the recent history of the
block or have room for it. -/
structure Pending (B : Owned) (Still : Int → Prop) (m : Mem) (dict : Int) (dictSize : Nat)
    (tmpOut : Int) (history content : List UInt8) (done : Nat) : Prop where
  exists_preserve : ∃ preserve : Nat, tmpOut = B.tmpOut + preserve ∧ preserve ≤ 2 * kb64 ∧
    (recent history).length ≤ preserve ∧ preserve + content.length ≤ B.size
  done_le : done ≤ content.length
  holds : m.Holds tmpOut content
  place : dict = B.tmpOut ∧ dict + dictSize = tmpOut + done ∧
      m.Ends (tmpOut + content.length) (recent (history ++ content)) ∨
    Recalls m dict dictSize (history ++ content.take done) ∧
      ∀ a, dict ≤ a → a < dict + dictSize → Still a

variable {dict : Int}

/-- An empty dictionary means that there is no history. -/
theorem Recalls.eq_nil (recalls : Recalls m dict 0 history) : history = [] := by
  have hle := recalls.le
  rw [length_recent] at hle
  apply List.eq_nil_of_length_eq_zero
  omega

/-- `LZ4F_updateDict` touches the pointer and the size of the dictionary only. -/
theorem updateDict_fields (d : Dctx) (m : Mem) (dstPtr : Int) (dstSize : Nat)
    (dstBufferStart : Int) (withinTmp : Bool) :
    ∃ dict dictSize, (updateDict d m dstPtr dstSize dstBufferStart withinTmp).1 =
      { d with dict := dict, dictSize := dictSize } := by
  unfold updateDict
  by_cases hempty : d.dictSize = 0
  · rw [if_pos hempty]
    rw [if_pos (by rw [hempty]; simp)]
    exact ⟨_, _, rfl⟩
  rw [if_neg hempty]
  by_cases h₁ : d.dict + d.dictSize = dstPtr
  · rw [if_pos h₁]
    exact ⟨_, _, rfl⟩
  rw [if_neg h₁]
  by_cases h₂ : kb64 ≤ (dstPtr - dstBufferStart).toNat + dstSize
  · rw [if_pos h₂]
    exact ⟨_, _, rfl⟩
  rw [if_neg h₂]
  by_cases h₃ : withinTmp ∧ d.dict = d.tmpOutBuffer
  · rw [if_pos h₃]
    exact ⟨_, _, rfl⟩
  rw [if_neg h₃]
  by_cases h₄ : withinTmp
  · rw [if_pos h₄]
    exact ⟨_, _, rfl⟩
  rw [if_neg h₄]
  by_cases h₅ : d.dict = d.tmpOutBuffer
  · rw [if_pos h₅]
    exact ⟨_, _, rfl⟩
  · rw [if_neg h₅]
    exact ⟨_, _, rfl⟩

/-- Text that follows a dictionary in memory. -/
theorem Recalls.append (recalls : Recalls m dict dictSize history)
    (hmore : m.Holds (dict + dictSize) more) :
    Recalls m dict (dictSize + more.length) (history ++ more) := by
  obtain ⟨hle, hends⟩ := recalls
  constructor
  · rw [length_recent] at hle ⊢
    rw [List.length_append]
    omega
  · have happend := ends_recent_append hends hmore
    rwa [Int.add_assoc, ← Int.natCast_add] at happend

variable {start : Int} {outs : List UInt8}

/-- The output buffer serves as a dictionary as soon as it holds 64 KB. -/
theorem recalls_output (houts : outs <:+ history) (hholds : m.Holds start outs)
    (hlong : kb64 ≤ outs.length) : Recalls m start outs.length history := by
  obtain ⟨old, rfl⟩ := houts
  have hrecent : recent (old ++ outs) = recent outs := recent_append_left old hlong
  constructor
  · rw [hrecent, length_recent]
    omega
  · rw [hrecent]
    exact Mem.Ends.drop hholds.ends _

variable {preserve : Nat} {buffer : Int}

/-- A dictionary copied to the front of a buffer, as far as it is needed, with text behind it. -/
theorem Recalls.join {m' : Mem} (recalls : Recalls m dict dictSize history)
    (hmore : more.length < kb64) (hpreserve : preserve = kb64 - more.length ∨ preserve = dictSize)
    (hdict : ∀ xs, xs.length ≤ preserve → m.Ends (dict + dictSize) xs →
      m'.Ends (buffer + preserve) xs) (htext : m'.Holds (buffer + preserve) more) :
    Recalls m' buffer (preserve + more.length) (history ++ more) := by
  have hrecent := recent_append_of_le history (Nat.le_of_lt hmore)
  have hsize := recalls.le
  have hold : ((recent history).drop ((recent history).length + more.length - 65536)).length ≤
      preserve := by
    unfold kb64 at hpreserve hmore
    rw [List.length_drop]
    omega
  constructor
  · rw [hrecent, List.length_append]
    omega
  · rw [hrecent, Int.natCast_add, ← Int.add_assoc]
    exact Mem.Ends.append (hdict _ hold (Mem.Ends.drop recalls.ends _)) htext

/-! ## Text written into the output -/

section Update

variable {B : Owned} {Kept : Int → Prop} {d : Dctx} {m : Mem} {history outs more : List UInt8}
  {start : Int}

/-- **Text that has been written behind the output of this call joins the history.** -/
theorem updateDict_copied (hbuffer : d.tmpOutBuffer = B.tmpOut) (hmax : d.maxBufferSize = B.size)
    (hsize : 3 * kb64 ≤ B.size)
    (past : Past B (Caller Kept start (start + outs.length)) m d.dict d.dictSize history)
    (houts : outs <:+ history) (hholds : m.Holds start (outs ++ more))
    (hapart : start + (outs ++ more).length ≤ B.tmpOut ∨ B.tmpOut + B.size < start)
    (hkept : ∀ a, Kept a → a < B.tmpOut ∨ B.tmpOut + B.size ≤ a) :
    let r := updateDict d m (start + outs.length) more.length start false
    Past B (Caller Kept start (start + (outs ++ more).length)) r.2 r.1.dict r.1.dictSize
        (history ++ more) ∧
      ∀ a, a < B.tmpOut ∨ B.tmpOut + B.size ≤ a → r.2 a = m a := by
  obtain ⟨recalls, hplace⟩ := past
  obtain ⟨-, hmore⟩ := Mem.holds_append.1 hholds
  have hlength : (outs ++ more).length = outs.length + more.length := List.length_append
  unfold updateDict
  by_cases hempty : d.dictSize = 0
  · -- no history: the text is all of it
    rw [if_pos hempty]
    dsimp only
    rw [if_pos (by rw [hempty]; simp)]
    rw [hempty] at recalls ⊢
    dsimp only
    obtain rfl := recalls.eq_nil
    refine ⟨⟨?_, Or.inr fun a hlow hhigh => Or.inr ?_⟩, fun a _ => rfl⟩
    · have hnone : Recalls m (start + outs.length) 0 [] := ⟨Nat.zero_le _, Mem.ends_nil _ _⟩
      exact hnone.append (by simpa using hmore)
    · omega
  rw [if_neg hempty]
  dsimp only
  by_cases hfollows : d.dict + d.dictSize = start + outs.length
  · -- the text follows the dictionary
    rw [if_pos hfollows]
    dsimp only
    refine ⟨⟨recalls.append (by rw [hfollows]; exact hmore), Or.inr fun a hlow hhigh => ?_⟩,
      fun a _ => rfl⟩
    rcases hplace with ⟨hdict, hdictSize⟩ | hstill
    · exfalso
      omega
    · by_cases hold : a < d.dict + d.dictSize
      · rcases hstill a hlow hold with hkept | hout
        · exact Or.inl hkept
        · exact Or.inr (by omega)
      · exact Or.inr (by omega)
  rw [if_neg hfollows]
  have hdistance : (start + (outs.length : Int) - start).toNat = outs.length := by omega
  rw [hdistance]
  by_cases hlong : kb64 ≤ outs.length + more.length
  · -- the output buffer is long enough
    rw [if_pos hlong]
    dsimp only
    have hsuffix : outs ++ more <:+ history ++ more := by
      obtain ⟨old, hold⟩ := houts
      exact ⟨old, by rw [← hold, List.append_assoc]⟩
    rw [← hlength] at hlong ⊢
    exact ⟨⟨recalls_output hsuffix hholds hlong, Or.inr fun a hlow hhigh => Or.inr ⟨hlow, hhigh⟩⟩,
      fun a _ => rfl⟩
  rw [if_neg hlong, if_neg (by simp), if_neg (by simp)]
  have hshort : more.length < kb64 := by omega
  have hcapacity : kb64 = 65536 := rfl
  by_cases htmp : d.dict = d.tmpOutBuffer
  · rw [if_pos htmp]
    rw [htmp, hbuffer] at recalls hplace
    have hdictSize : d.dictSize ≤ B.size := by
      rcases hplace with ⟨-, hle⟩ | hstill
      · exact hle
      · exfalso
        rcases hstill B.tmpOut (by omega) (by omega) with hold | hout
        · have := hkept _ hold
          omega
        · omega
    by_cases hfull : d.maxBufferSize < d.dictSize + more.length
    · -- tmp buffer not large enough
      simp only [if_pos hfull, htmp, hbuffer]
      have hfirst : (m.copy B.tmpOut (B.tmpOut + d.dictSize - (kb64 - more.length : Nat))
          (kb64 - more.length)).Holds (start + outs.length) more :=
        hmore.copy_apart (by omega)
      refine ⟨⟨recalls.join hshort (Or.inl rfl) (fun xs hxs hends => ?_) (hfirst.copy (Nat.le_refl _)),
        Or.inl ⟨rfl, by omega⟩⟩, fun a ha => ?_⟩
      · refine Mem.Ends.copy_apart (Mem.Ends.copy ?_ hxs) (Or.inl (Int.le_refl _))
        rwa [Int.sub_add_cancel]
      · rw [Mem.copy_outside (by omega), Mem.copy_outside (by omega)]
    · -- copy dst into tmp to complete dict
      simp only [if_neg hfull, htmp, hbuffer]
      refine ⟨⟨?_, Or.inl ⟨rfl, by omega⟩⟩, fun a ha => Mem.copy_outside (by omega)⟩
      have hsame : Recalls (m.copy (B.tmpOut + d.dictSize) (start + outs.length) more.length)
          B.tmpOut d.dictSize history :=
        ⟨recalls.le, recalls.ends.copy_apart (Or.inl (Int.le_refl _))⟩
      exact hsame.append (hmore.copy (Nat.le_refl _))
  · -- join dict & dest into tmp
    rw [if_neg htmp]
    simp only [hbuffer]
    obtain ⟨preserve, hpreserve⟩ : ∃ preserve, preserve = min (kb64 - more.length) d.dictSize :=
      ⟨_, rfl⟩
    rw [← hpreserve]
    have hfirst : (m.copy B.tmpOut (d.dict + d.dictSize - preserve) preserve).Holds
        (start + outs.length) more := hmore.copy_apart (by omega)
    refine ⟨⟨recalls.join hshort (by omega) (fun xs hxs hends => ?_) (hfirst.copy (Nat.le_refl _)),
      Or.inl ⟨rfl, by omega⟩⟩, fun a ha => ?_⟩
    · refine Mem.Ends.copy_apart (Mem.Ends.copy ?_ hxs) (Or.inl (Int.le_refl _))
      rwa [Int.sub_add_cancel]
    · rw [Mem.copy_outside (by omega), Mem.copy_outside (by omega)]

end Update

/-! ## A block that is delivered from the context's buffer -/

section Flush

variable {B : Owned} {Still Kept : Int → Prop} {m : Mem} {dict tmpOut : Int} {dictSize : Nat}
  {history content : List UInt8} {done : Nat}

/-- The part of the history that is still needed, copied in front of the block. -/
theorem Pending.moved (holds : m.Holds tmpOut content) {copySize : Nat}
    (htmpOut : tmpOut = B.tmpOut + preserve) (hpreserve : (recent history).length ≤ preserve)
    (hdone : done ≤ content.length)
    (recalls : Recalls m dict dictSize (history ++ content.take done))
    (hcopy : copySize = min (if kb64 < content.length then 0 else kb64 - content.length) preserve) :
    let m' := m.copy (B.tmpOut + preserve - copySize) (dict + dictSize - done - copySize) copySize
    m'.Holds tmpOut content ∧ m'.Ends (tmpOut + content.length) (recent (history ++ content)) := by
  intro m'
  have hsame : m'.Holds tmpOut content := holds.copy_apart (by omega)
  have hlength := length_recent history
  have hcapacity : kb64 = 65536 := rfl
  refine ⟨hsame, ?_⟩
  by_cases hlong : 65536 ≤ content.length
  · rw [recent_append_left history hlong]
    exact Mem.Ends.drop hsame.ends _
  · rw [if_neg (by omega)] at hcopy
    have htake : (content.take done).length = done := by
      rw [List.length_take]
      omega
    have hwhole := recent_append_of_le history (show content.length ≤ 65536 by omega)
    have hpart := recent_append_of_le history (show (content.take done).length ≤ 65536 by omega)
    have hends := recalls.ends
    rw [hpart, htake] at hends
    have hold := Mem.Ends.drop (Mem.Ends.left hends)
      ((recent history).length + content.length - 65536 -
        ((recent history).length + done - 65536))
    rw [htake, List.drop_drop, show (recent history).length + done - 65536 +
      ((recent history).length + content.length - 65536 -
        ((recent history).length + done - 65536)) =
      (recent history).length + content.length - 65536 by omega] at hold
    rw [hwhole]
    refine Mem.Ends.append ?_ hsame
    rw [htmpOut]
    have hmove : m'.Ends (B.tmpOut + preserve - copySize + copySize)
        ((recent history).drop ((recent history).length + content.length - 65536)) := by
      refine Mem.Ends.copy ?_ (by rw [List.length_drop]; omega)
      rwa [Int.sub_add_cancel]
    rwa [Int.sub_add_cancel] at hmove

/-- **A part of the block that has been written behind the output of this call is delivered.** -/
theorem updateDict_flushed {d : Dctx} (hbuffer : d.tmpOutBuffer = B.tmpOut)
    (hsize : 3 * kb64 ≤ B.size) (hstart : d.tmpOutStart = done)
    (hcontent : d.tmpOutSize = content.length)
    (pending : Pending B (Caller Kept start (start + outs.length)) m d.dict d.dictSize d.tmpOut
      history content done) (houts : outs <:+ history ++ content.take done)
    (htake : content.take (done + more.length) = content.take done ++ more)
    (hdone : done + more.length ≤ content.length) (hholds : m.Holds start (outs ++ more))
    (hapart : start + (outs ++ more).length ≤ B.tmpOut ∨ B.tmpOut + B.size < start)
    (hkept : ∀ a, Kept a → a < B.tmpOut ∨ B.tmpOut + B.size ≤ a) :
    let r := updateDict d m (start + outs.length) more.length start true
    Pending B (Caller Kept start (start + (outs ++ more).length)) r.2 r.1.dict r.1.dictSize d.tmpOut
        history content (done + more.length) ∧
      ∀ a, a < B.tmpOut ∨ B.tmpOut + B.size ≤ a → r.2 a = m a := by
  obtain ⟨⟨preserve, htmpOut, hpreserve, hrecent, hfits⟩, hle, hblock, hplace⟩ := pending
  obtain ⟨-, hmore⟩ := Mem.holds_append.1 hholds
  have hlength : (outs ++ more).length = outs.length + more.length := List.length_append
  have hcapacity : kb64 = 65536 := rfl
  unfold updateDict
  by_cases hempty : d.dictSize = 0
  · -- no history: the text is all of it
    rw [if_pos hempty]
    dsimp only
    rw [if_pos (by rw [hempty]; simp)]
    have hnil : history ++ content.take done = [] := by
      rcases hplace with ⟨hdict, hend, -⟩ | ⟨recalls, -⟩
      · have hnone : history = [] := by
          rw [length_recent] at hrecent
          apply List.eq_nil_of_length_eq_zero
          omega
        rw [hnone, show done = 0 by omega, List.take_zero, List.append_nil]
      · rw [hempty] at recalls
        exact recalls.eq_nil
    rw [hempty]
    dsimp only
    refine ⟨⟨⟨preserve, htmpOut, hpreserve, hrecent, hfits⟩, hdone, hblock,
      Or.inr ⟨?_, fun a hlow hhigh => Or.inr (by omega)⟩⟩, fun a _ => rfl⟩
    have hnone : Recalls m (start + outs.length) 0 [] := ⟨Nat.zero_le _, Mem.ends_nil _ _⟩
    rw [htake, ← List.append_assoc, hnil]
    exact hnone.append (by simpa using hmore)
  rw [if_neg hempty]
  dsimp only
  by_cases hfollows : d.dict + d.dictSize = start + outs.length
  · -- the text follows the dictionary
    rw [if_pos hfollows]
    rcases hplace with ⟨hdict, hend, -⟩ | ⟨recalls, hstill⟩
    · exfalso
      omega
    · refine ⟨⟨⟨preserve, htmpOut, hpreserve, hrecent, hfits⟩, hdone, hblock,
        Or.inr ⟨?_, fun a hlow hhigh => ?_⟩⟩, fun a _ => rfl⟩
      · rw [htake, ← List.append_assoc]
        exact recalls.append (by rw [hfollows]; exact hmore)
      · dsimp only at hlow hhigh
        by_cases hold : a < d.dict + d.dictSize
        · rcases hstill a hlow hold with hkeep | hout
          · exact Or.inl hkeep
          · exact Or.inr (by omega)
        · exact Or.inr (by omega)
  rw [if_neg hfollows]
  have hdistance : (start + (outs.length : Int) - start).toNat = outs.length := by omega
  rw [hdistance]
  by_cases hlong : kb64 ≤ outs.length + more.length
  · -- the output buffer is long enough
    rw [if_pos hlong]
    have hsuffix : outs ++ more <:+ history ++ content.take (done + more.length) := by
      obtain ⟨old, hold⟩ := houts
      refine ⟨old, ?_⟩
      rw [htake, ← List.append_assoc, ← List.append_assoc, hold]
    rw [← hlength] at hlong ⊢
    exact ⟨⟨⟨preserve, htmpOut, hpreserve, hrecent, hfits⟩, hdone, hblock,
      Or.inr ⟨recalls_output hsuffix hholds hlong, fun a hlow hhigh => Or.inr ⟨hlow, hhigh⟩⟩⟩,
      fun a _ => rfl⟩
  rw [if_neg hlong]
  by_cases htmp : d.dict = d.tmpOutBuffer
  · -- the dictionary is extended over the block
    rw [if_pos ⟨rfl, htmp⟩]
    rcases hplace with ⟨hdict, hend, hends⟩ | ⟨-, hstill⟩
    · refine ⟨⟨⟨preserve, htmpOut, hpreserve, hrecent, hfits⟩, hdone, hblock,
        Or.inl ⟨hdict, ?_, hends⟩⟩, fun a _ => rfl⟩
      dsimp only
      omega
    · exfalso
      rcases hstill d.dict (by omega) (by omega) with hold | hout
      · have := hkept _ hold
        omega
      · omega
  · -- the dictionary is moved in front of the block
    rw [if_neg fun hboth => htmp hboth.2, if_pos rfl]
    rcases hplace with ⟨hdict, -, -⟩ | ⟨recalls, -⟩
    · exact absurd (hdict.trans hbuffer.symm) htmp
    · have hpre : (d.tmpOut - B.tmpOut).toNat = preserve := by omega
      obtain ⟨copySize, hcopy⟩ : ∃ copySize, copySize = d.copySize preserve := ⟨_, rfl⟩
      have hcopy' : copySize =
          min (if kb64 < content.length then 0 else kb64 - content.length) preserve := by
        rw [hcopy, Dctx.copySize, hcontent]
      simp only [hbuffer, hpre, ← hcopy, hstart]
      obtain ⟨hsame, hends⟩ := Pending.moved hblock htmpOut hrecent hle recalls hcopy'
      refine ⟨⟨⟨preserve, htmpOut, hpreserve, hrecent, hfits⟩, hdone, hsame,
        Or.inl ⟨rfl, by omega, hends⟩⟩, fun a ha => Mem.copy_outside (by omega)⟩

end Flush

/-! ## The end of a call -/

section Preserve

variable {B : Owned} {Still Kept : Int → Prop} {c : DecompressCall} {d : Dctx} {m : Mem}
  {history content : List UInt8} {done : Nat}

/-- The end of a call touches the place of the history only. -/
theorem preserveHistory_fields (c : DecompressCall) (d : Dctx) (m : Mem) :
    ∃ dict dictSize tmpOut, (preserveHistory c d m).1 =
      { d with dict := dict, dictSize := dictSize, tmpOut := tmpOut } := by
  unfold preserveHistory
  split
  · split
    · exact ⟨_, _, _, rfl⟩
    · exact ⟨_, _, _, rfl⟩
  · exact ⟨_, _, _, rfl⟩

/-- A dictionary that stays where it is: the caller has promised to keep it, or it is in the
context's buffer, or it is empty. -/
theorem preserved_place (hsize : 0 < B.size) (hbuffer : d.tmpOutBuffer = B.tmpOut)
    (hstill : ∀ a, Still a → 0 < a ∧ (a < B.tmpOut ∨ B.tmpOut + B.size ≤ a))
    (hkeep : c.stableDst = true → ∀ a, Still a → Kept a)
    (hstay : ¬ (d.dict ≠ d.tmpOutBuffer ∧ d.dict ≠ 0 ∧ ¬ c.stableDst))
    (hplace : ∀ a, d.dict ≤ a → a < d.dict + d.dictSize → Still a) :
    ∀ a, d.dict ≤ a → a < d.dict + d.dictSize → Kept a := by
  intro a hlow hhigh
  have hfirst := hstill _ (hplace d.dict (by omega) (by omega))
  by_cases hstable : c.stableDst = true
  · exact hkeep hstable a (hplace a hlow hhigh)
  · exfalso
    refine hstay ⟨?_, ?_, hstable⟩
    · omega
    · omega

/-- The history survives the end of a call between blocks. -/
theorem preserveHistory_past (hsize : kb64 ≤ B.size) (hbuffer : d.tmpOutBuffer = B.tmpOut)
    (hmode : d.frameInfo.blockMode = 0) (hstage : d.dStage ≠ .flushOut)
    (hlow : Stage.init.index ≤ d.dStage.index) (hhigh : d.dStage.index < Stage.getSuffix.index)
    (hstill : ∀ a, Still a → 0 < a ∧ (a < B.tmpOut ∨ B.tmpOut + B.size ≤ a))
    (hkeep : c.stableDst = true → ∀ a, Still a → Kept a)
    (past : Past B Still m d.dict d.dictSize history) : let r := preserveHistory c d m
    Past B Kept r.2 r.1.dict r.1.dictSize history ∧
      ∀ a, a < B.tmpOut ∨ B.tmpOut + B.size ≤ a → r.2 a = m a := by
  obtain ⟨recalls, hplace⟩ := past
  have hcapacity : kb64 = 65536 := rfl
  have hlength := length_recent history
  unfold preserveHistory
  by_cases hmove : d.dict ≠ d.tmpOutBuffer ∧ d.dict ≠ 0 ∧ ¬ c.stableDst
  · obtain ⟨hdict, hnull, hstable⟩ := hmove
    rw [if_pos ⟨hmode, hdict, hnull, hstable, hlow, hhigh⟩, if_neg hstage]
    simp only [hbuffer]
    have hle := recalls.le
    refine ⟨⟨⟨?_, ?_⟩, Or.inl ⟨rfl, by omega⟩⟩, fun a ha => Mem.copy_outside (by omega)⟩
    · omega
    · refine Mem.Ends.copy ?_ (by omega)
      rw [Int.sub_add_cancel]
      exact recalls.ends
  · rw [if_neg fun hall => hmove ⟨hall.2.1, hall.2.2.1, hall.2.2.2.1⟩]
    refine ⟨⟨recalls, ?_⟩, fun a _ => rfl⟩
    rcases hplace with htmp | hcaller
    · exact Or.inl htmp
    · exact Or.inr (preserved_place (by omega) hbuffer hstill hkeep hmove hcaller)

/-- The history survives the end of a call in the middle of a delivery. -/
theorem preserveHistory_pending (hsize : kb64 ≤ B.size) (hbuffer : d.tmpOutBuffer = B.tmpOut)
    (hmode : d.frameInfo.blockMode = 0) (hstage : d.dStage = .flushOut)
    (hstart : d.tmpOutStart = done) (hcontent : d.tmpOutSize = content.length)
    (hstill : ∀ a, Still a → 0 < a ∧ (a < B.tmpOut ∨ B.tmpOut + B.size ≤ a))
    (hkeep : c.stableDst = true → ∀ a, Still a → Kept a)
    (pending : Pending B Still m d.dict d.dictSize d.tmpOut history content done) :
    let r := preserveHistory c d m
    Pending B Kept r.2 r.1.dict r.1.dictSize r.1.tmpOut history content done ∧
      ∀ a, a < B.tmpOut ∨ B.tmpOut + B.size ≤ a → r.2 a = m a := by
  obtain ⟨⟨preserve, htmpOut, hpreserve, hrecent, hfits⟩, hle, hblock, hplace⟩ := pending
  have hcapacity : kb64 = 65536 := rfl
  unfold preserveHistory
  by_cases hmove : d.dict ≠ d.tmpOutBuffer ∧ d.dict ≠ 0 ∧ ¬ c.stableDst
  · obtain ⟨hdict, hnull, hstable⟩ := hmove
    rw [if_pos ⟨hmode, hdict, hnull, hstable, by rw [hstage]; decide, by rw [hstage]; decide⟩,
      if_pos hstage]
    rcases hplace with ⟨htmp, -, -⟩ | ⟨recalls, -⟩
    · exact absurd (htmp.trans hbuffer.symm) hdict
    · have hpre : (d.tmpOut - B.tmpOut).toNat = preserve := by omega
      obtain ⟨copySize, hcopy⟩ : ∃ copySize, copySize = d.copySize preserve := ⟨_, rfl⟩
      have hcopy' : copySize =
          min (if kb64 < content.length then 0 else kb64 - content.length) preserve := by
        rw [hcopy, Dctx.copySize, hcontent]
      simp only [hbuffer, hpre, ← hcopy, hstart]
      obtain ⟨hsame, hends⟩ := Pending.moved hblock htmpOut hrecent hle recalls hcopy'
      refine ⟨⟨⟨preserve, htmpOut, hpreserve, hrecent, hfits⟩, hle, hsame,
        Or.inl ⟨rfl, by omega, hends⟩⟩, fun a ha => Mem.copy_outside (by omega)⟩
  · rw [if_neg fun hall => hmove ⟨hall.2.1, hall.2.2.1, hall.2.2.2.1⟩]
    refine ⟨⟨⟨preserve, htmpOut, hpreserve, hrecent, hfits⟩, hle, hblock, ?_⟩, fun a _ => rfl⟩
    rcases hplace with htmp | ⟨recalls, hcaller⟩
    · exact Or.inl htmp
    · exact Or.inr ⟨recalls, preserved_place (by omega) hbuffer hstill hkeep hmove hcaller⟩

end Preserve

/-! ## Room for a block -/

section Select

variable {B : Owned} {Still : Int → Prop} {d : Dctx} {m m' : Mem} {history content : List UInt8}

/-- The dictionary that is passed to the block decoder is the end of the context's one. -/
theorem blockDict_spec (d : Dctx) :
    d.blockDict.1 + d.blockDict.2 = d.dict + d.dictSize ∧ d.dict ≤ d.blockDict.1 ∧
      (d.blockDict.2 = kb64 ∧ kb64 ≤ d.dictSize ∨ d.blockDict.2 = d.dictSize) := by
  have hcapacity : kb64 = 65536 := rfl
  unfold Dctx.blockDict
  split
  · omega
  · omega

theorem Recalls.blockDict (recalls : Recalls m d.dict d.dictSize history) :
    Recalls m d.blockDict.1 d.blockDict.2 history := by
  obtain ⟨hend, -, hsize⟩ := blockDict_spec d
  have hlength := length_recent history
  have hcapacity : kb64 = 65536 := rfl
  obtain ⟨hle, hends⟩ := recalls
  constructor
  · omega
  · rw [hend]
    exact hends

/-- A dictionary that is copied to the front of the buffer. -/
theorem Recalls.copy {n : Nat} (recalls : Recalls m dict dictSize history)
    (hn : (recent history).length ≤ n) :
    Recalls (m.copy buffer (dict + dictSize - n) n) buffer n history := by
  refine ⟨hn, Mem.Ends.copy ?_ hn⟩
  rw [Int.sub_add_cancel]
  exact recalls.ends

theorem Recalls.congr (recalls : Recalls m dict dictSize history)
    (h : ∀ a, dict ≤ a → a < dict + dictSize → m a = m' a) : Recalls m' dict dictSize history := by
  have hle := recalls.le
  exact ⟨hle, recalls.ends.congr fun a hlow hhigh => h a (by omega) hhigh⟩

/-- The history behind which, or besides which, a block is going to be decoded at `tmpOut`. -/
structure Selected (B : Owned) (Still : Int → Prop) (m : Mem) (dict : Int) (dictSize : Nat)
    (tmpOut : Int) (history : List UInt8) : Prop where
  exists_preserve : ∃ preserve : Nat, tmpOut = B.tmpOut + preserve ∧ preserve ≤ 2 * kb64 ∧
    (recent history).length ≤ preserve
  recalls : Recalls m dict dictSize history
  place : dict = B.tmpOut ∧ dict + dictSize = tmpOut ∨
    ∀ a, dict ≤ a → a < dict + dictSize → Still a

/-- **The context finds a place for the next block.** -/
theorem selectTmpOut_past (hbuffer : d.tmpOutBuffer = B.tmpOut) (hsize : 3 * kb64 ≤ B.size)
    (hmode : d.frameInfo.blockMode = 0) (past : Past B Still m d.dict d.dictSize history) :
    let r := selectTmpOut d m
    Selected B Still r.2 r.1.dict r.1.dictSize r.1.tmpOut history ∧
      (∃ dictSize tmpOut, r.1 = { d with dictSize := dictSize, tmpOut := tmpOut }) ∧
      ∀ a, a < B.tmpOut ∨ B.tmpOut + B.size ≤ a → r.2 a = m a := by
  obtain ⟨recalls, hplace⟩ := past
  have hcapacity : kb64 = 65536 := rfl
  have hlength := length_recent history
  have hle := recalls.le
  unfold selectTmpOut
  rw [if_pos hmode]
  by_cases htmp : d.dict = d.tmpOutBuffer
  · rw [if_pos htmp]
    rw [htmp, hbuffer] at recalls hplace
    by_cases hlong : 2 * kb64 < d.dictSize
    · -- truncate dictionary to 64 KB if too big
      rw [if_pos hlong]
      simp only [htmp, hbuffer]
      refine ⟨⟨⟨kb64, rfl, by omega, by omega⟩, recalls.copy (by omega), Or.inl ⟨rfl, rfl⟩⟩,
        ⟨_, _, rfl⟩, fun a ha => Mem.copy_outside (by omega)⟩
    · rw [if_neg hlong]
      simp only [htmp, hbuffer]
      exact ⟨⟨⟨d.dictSize, rfl, by omega, hle⟩, recalls, Or.inl ⟨rfl, rfl⟩⟩, ⟨_, _, rfl⟩,
        fun _ _ => trivial⟩
  · -- dict not within tmpOut
    rw [if_neg htmp]
    rcases hplace with ⟨hdict, -⟩ | hcaller
    · exact absurd (hdict.trans hbuffer.symm) htmp
    · simp only [hbuffer]
      exact ⟨⟨⟨min d.dictSize kb64, rfl, by omega, by omega⟩, recalls, Or.inr hcaller⟩,
        ⟨_, _, rfl⟩, fun _ _ => trivial⟩

/-- A block that has just been decoded is pending. -/
theorem Selected.pending {tmpOut : Int} (selected : Selected B Still m dict dictSize tmpOut history)
    (hstill : ∀ a, Still a → a < B.tmpOut ∨ B.tmpOut + B.size ≤ a)
    (hfits : 2 * kb64 + capacity ≤ B.size) (hcontent : content.length ≤ capacity)
    (hholds : m'.Holds tmpOut content)
    (hframe : ∀ a, a < tmpOut ∨ tmpOut + capacity ≤ a → m' a = m a) :
    Pending B Still m' dict dictSize tmpOut history content 0 := by
  obtain ⟨⟨preserve, htmpOut, hpreserve, hrecent⟩, recalls, hplace⟩ := selected
  refine ⟨⟨preserve, htmpOut, hpreserve, hrecent, by omega⟩, Nat.zero_le _, hholds, ?_⟩
  rcases hplace with ⟨hdict, hend⟩ | hcaller
  · refine Or.inl ⟨hdict, by simpa using hend, ends_recent_append ?_ hholds⟩
    have hends := recalls.ends
    rw [hend] at hends
    exact hends.congr fun a hlow hhigh => (hframe a (Or.inl hhigh)).symm
  · refine Or.inr ⟨?_, hcaller⟩
    rw [List.take_zero, List.append_nil]
    refine recalls.congr fun a hlow hhigh => (hframe a ?_).symm
    have := hstill a (hcaller a hlow hhigh)
    omega

end Select

end Lz4.Lz4f
