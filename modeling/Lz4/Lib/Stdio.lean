import Mathlib.Data.List.Basic

/-!
# Files used through `stdio`

An open file: its bytes, the position, and the end-of-file indicator.  The position may lie behind
the end, since a seek does not look at the size.  `File.rest` is what is left to read, and
`fread_append` the rule for a read of bytes that are known; `fwrite_past` is the rule for a write
behind the end, which fills what was skipped with zeros.
-/

namespace Stdio

/-- An open file. -/
structure File where
  data : List UInt8
  pos : Nat := 0
  eof : Bool := false
  deriving Repr, DecidableEq

namespace File

variable {f : File} {n : Nat} {bytes tail : List UInt8}

/-- The bytes behind the position. -/
def rest (f : File) : List UInt8 := f.data.drop f.pos

/-- `fread` of single bytes; a short read sets the end-of-file indicator. -/
def fread (f : File) (n : Nat) : List UInt8 × File :=
  let bytes := f.rest.take n
  (bytes, { f with pos := f.pos + bytes.length, eof := f.eof || decide (bytes.length < n) })

/-- `fseek` relative to the position, which clears the indicator. -/
def fseek (f : File) (offset : Int) : File :=
  { f with pos := (f.pos + offset).toNat, eof := false }

/-- `fwrite` of single bytes. -/
def fwrite (f : File) (bytes : List UInt8) : File :=
  if bytes = [] then f
  else
    { f with
      data := (f.data ++ List.replicate (f.pos - f.data.length) 0).take f.pos ++ bytes ++
        f.data.drop (f.pos + bytes.length)
      pos := f.pos + bytes.length }

/-- The file after `n` bytes that were there. -/
def skip (f : File) (n : Nat) : File := { f with pos := f.pos + n }

@[simp] theorem skip_skip (f : File) (n n' : Nat) : (f.skip n).skip n' = f.skip (n + n') := by
  simp [skip, Nat.add_assoc]

theorem rest_skip (f : File) (n : Nat) : (f.skip n).rest = f.rest.drop n := by
  simp [skip, rest, List.drop_drop]

theorem rest_fread (f : File) (n : Nat) : (f.fread n).2.rest = f.rest.drop n := by
  have hdrop : f.rest.drop (f.rest.take n).length = f.rest.drop n := by
    rw [List.length_take]
    obtain hle | hle := Nat.le_total n f.rest.length
    · rw [Nat.min_eq_left hle]
    · rw [Nat.min_eq_right hle, List.drop_length, List.drop_of_length_le hle]
  rw [← hdrop, rest, rest, List.drop_drop]
  rfl

theorem rest_fseek (f : File) (n : Nat) : (f.fseek n).rest = f.rest.drop n := by
  have hpos : ((f.pos : Int) + n).toNat = f.pos + n := by omega
  rw [fseek, hpos, rest, rest, List.drop_drop]

theorem fread_append (hrest : f.rest = bytes ++ tail) :
    f.fread bytes.length = (bytes, f.skip bytes.length) := by
  have htake : f.rest.take bytes.length = bytes := by rw [hrest, List.take_left]
  simp [fread, htake, skip]

theorem rest_skip_append (hrest : f.rest = bytes ++ tail) : (f.skip bytes.length).rest = tail := by
  rw [rest_skip, hrest, List.drop_left]

/-- A seek forward. -/
theorem fseek_skip (hopen : f.eof = false) (n : Nat) : f.fseek n = f.skip n := by
  have hpos : ((f.pos : Int) + n).toNat = f.pos + n := by omega
  rw [fseek, hpos, skip, ← hopen]

/-- A seek back over what was read. -/
theorem fseek_neg_skip (hopen : f.eof = false) (n : Nat) : (f.skip n).fseek (-n) = f := by
  have hpos : (((f.pos + n : Nat) : Int) + -(n : Int)).toNat = f.pos := by omega
  rw [fseek, skip]
  rw [hpos, ← hopen]

/-- At the end there is nothing to read. -/
theorem fread_end (hrest : f.rest = []) (hn : 0 < n) : f.fread n = ([], { f with eof := true }) := by
  simp [fread, hrest, hn]

/-- A write behind the end. -/
theorem fwrite_past (hpast : f.data.length ≤ f.pos) (hbytes : bytes ≠ []) :
    f.fwrite bytes =
      { f with
        data := f.data ++ List.replicate (f.pos - f.data.length) 0 ++ bytes
        pos := f.pos + bytes.length } := by
  have hlength : (f.data ++ List.replicate (f.pos - f.data.length) 0).length = f.pos := by
    rw [List.length_append, List.length_replicate]
    omega
  rw [fwrite, if_neg hbytes, List.take_of_length_le (Nat.le_of_eq hlength),
    List.drop_of_length_le (by omega), List.append_nil]

end File

end Stdio
