import Lz4.Frame.Header

/-!
# Loading a dictionary

`LZ4IO_createDict` reads a file of unknown size into a circular buffer of 64 KB and keeps its end.
A byte of the file with index `j` goes to the slot `j % 65536`, whatever portions `fread` returns,
so the slots hold the last 64 KB (`Circular.Recent`).
-/

namespace Lz4.Programs

open Lz4f

/-- `LZ4_MAX_DICT_SIZE`, which is also `circularBufSize` -/
def maxDictSize : Nat := 65536

/-- The variables of the loop. -/
structure Circular where
  circularBuf : List UInt8
  dictEnd : Nat := 0
  dictLen : Nat := 0

namespace Circular

/-- A pass of the loop, in which `fread` returns `portion`. -/
def read (s : Circular) (portion : List UInt8) : Circular where
  circularBuf := overwrite s.circularBuf s.dictEnd portion
  dictEnd := (s.dictEnd + portion.length) % maxDictSize
  dictLen := s.dictLen + portion.length

/-- What `fread` may return, pass by pass: something, and at most what it is asked for. -/
def Allows (s : Circular) : List (List UInt8) → Prop
  | [] => True
  | portion :: portions =>
    portion ≠ [] ∧ portion.length ≤ maxDictSize - s.dictEnd ∧ (s.read portion).Allows portions

end Circular

/-- What is left to read behind the seek, which sets the position to 64 KB before the end of the
file or fails. -/
def dictSource (content : List UInt8) (seeked : Bool) : List UInt8 :=
  if seeked then content.drop (content.length - maxDictSize) else content

/-- `LZ4IO_createDict`, with a buffer that holds `junk` at first: `dictSize` and `dictBuf`.  The
loop ends when `fread` returns nothing. -/
def createDict (junk : List UInt8) (portions : List (List UInt8)) : Nat × List UInt8 :=
  let s := portions.foldl Circular.read { circularBuf := junk }
  let dictLen := if s.dictLen > maxDictSize then maxDictSize else s.dictLen
  let dictStart := (maxDictSize + s.dictEnd - dictLen) % maxDictSize
  (dictLen,
    if dictStart = 0 then s.circularBuf
    else s.circularBuf.drop dictStart ++
      s.circularBuf.take (dictLen - (maxDictSize - dictStart)))

/-- After `done` has been read, the slots hold the last 64 KB of it. -/
structure Circular.Recent (s : Circular) (done : List UInt8) : Prop where
  length_eq : s.circularBuf.length = maxDictSize
  dictEnd_eq : s.dictEnd = done.length % maxDictSize
  dictLen_eq : s.dictLen = done.length
  slot : ∀ j, done.length ≤ j + maxDictSize → j < done.length →
    s.circularBuf[j % maxDictSize]? = done[j]?

variable {s : Circular} {done portion : List UInt8} {portions : List (List UInt8)}

theorem getElem?_overwrite {array bytes : List UInt8} {i : Nat} (hi : i ≤ array.length) (k : Nat) :
    (overwrite array i bytes)[k]? =
      if k < i then array[k]? else if k < i + bytes.length then bytes[k - i]? else array[k]? := by
  have hlength : (array.take i).length = i := by
    rw [List.length_take]
    omega
  rw [overwrite, List.append_assoc, List.getElem?_append, hlength]
  split
  · rw [List.getElem?_take_of_lt (by assumption)]
  rw [List.getElem?_append, List.getElem?_drop]
  split
  · rw [if_pos (by omega)]
  · rw [if_neg (by omega)]
    congr 1
    omega

theorem Circular.Recent.read (recent : s.Recent done)
    (hfits : portion.length ≤ maxDictSize - s.dictEnd) :
    (s.read portion).Recent (done ++ portion) := by
  obtain ⟨hlength, hend, hlen, hslot⟩ := recent
  unfold maxDictSize at hfits hlength hend hslot
  refine ⟨?_, ?_, ?_, fun j hrecent hj => ?_⟩
  · simp only [Circular.read, overwrite, List.length_append, List.length_take, List.length_drop,
      maxDictSize]
    omega
  · simp only [Circular.read, maxDictSize, List.length_append]
    omega
  · simp only [Circular.read, List.length_append, hlen]
  · rw [List.length_append, maxDictSize] at hrecent
    rw [List.length_append] at hj
    rw [Circular.read, maxDictSize, getElem?_overwrite (by omega), List.getElem?_append]
    -- a slot of the portion is not one of the last 64 KB before it
    by_cases hold : j < done.length
    · rw [if_pos hold, ← hslot j (by omega) hold]
      split
      · rfl
      · rw [if_neg (by omega)]
    · rw [if_neg hold, if_neg (by omega), if_pos (by omega)]
      congr 1
      omega

theorem Circular.Recent.foldl (recent : s.Recent done) (hallows : s.Allows portions) :
    (portions.foldl Circular.read s).Recent (done ++ portions.flatten) := by
  induction portions generalizing s done with
  | nil =>
    rw [List.flatten_nil, List.append_nil]
    exact recent
  | cons portion portions ih =>
    obtain ⟨-, hfits, hrest⟩ := hallows
    rw [List.flatten_cons, ← List.append_assoc]
    exact ih (recent.read hfits) hrest

/-- What is made of the slots in the end. -/
theorem createDict_recent {junk : List UInt8} (hjunk : junk.length = maxDictSize)
    (hallows : Circular.Allows { circularBuf := junk } portions) :
    (createDict junk portions).1 = min portions.flatten.length maxDictSize ∧
      (createDict junk portions).2.take (createDict junk portions).1 =
        portions.flatten.drop (portions.flatten.length - maxDictSize) := by
  have hstart : Circular.Recent { circularBuf := junk } [] :=
    ⟨hjunk, rfl, rfl, fun j _ hj => absurd hj (Nat.not_lt_zero j)⟩
  have hrecent := hstart.foldl hallows
  rw [List.nil_append] at hrecent
  unfold createDict
  dsimp only
  generalize portions.foldl Circular.read { circularBuf := junk } = s at hrecent ⊢
  generalize portions.flatten = done at hrecent ⊢
  obtain ⟨hlength, hend, hlen, hslot⟩ := hrecent
  have hmin : (if s.dictLen > maxDictSize then maxDictSize else s.dictLen) =
      min done.length maxDictSize := by
    split <;> omega
  rw [hmin, hend]
  refine ⟨rfl, List.ext_getElem? fun i => ?_⟩
  unfold maxDictSize at *
  rw [List.getElem?_take, List.getElem?_drop]
  split
  · rw [← hslot (done.length - 65536 + i) (by omega) (by omega)]
    split
    · congr 1
      omega
    · rw [List.getElem?_append, List.length_drop, hlength, List.getElem?_drop,
        List.getElem?_take_of_lt (by omega)]
      split
      · congr 1
        omega
      · congr 1
        omega
  · rw [List.getElem?_eq_none (by omega)]

/-- **The dictionary is the last 64 KB of the file, or all of it**, however it is read. -/
theorem createDict_eq (content junk : List UInt8) (seeked : Bool) (portions : List (List UInt8))
    (hjunk : junk.length = maxDictSize) (hseek : seeked = true → maxDictSize ≤ content.length)
    (hallows : Circular.Allows { circularBuf := junk } portions)
    (hall : portions.flatten = dictSource content seeked) :
    (createDict junk portions).1 = min content.length maxDictSize ∧
      (createDict junk portions).2.take (createDict junk portions).1 =
        content.drop (content.length - min content.length maxDictSize) := by
  obtain ⟨hsize, hbytes⟩ := createDict_recent hjunk hallows
  rw [hsize] at hbytes
  have hdrop : content.length - min content.length maxDictSize = content.length - maxDictSize := by
    omega
  rw [hsize, hbytes, hall, hdrop, dictSource]
  split
  · rename_i hseeked
    rw [List.length_drop, List.drop_drop]
    exact ⟨by omega, congrArg (fun k => content.drop k) (by omega)⟩
  · exact ⟨rfl, rfl⟩

theorem createDict_eq_three :
    (createDict (List.replicate maxDictSize 0) [[1], [2, 3]]).1 = 3 :=
  (createDict_eq [1, 2, 3] _ false [[1], [2, 3]] List.length_replicate
    (fun h => absurd h Bool.false_ne_true)
    ⟨by decide, by decide, by decide, by decide, trivial⟩ rfl).1

end Lz4.Programs
