import Lz4.Frame.History

/-!
# The buffers of a call

What a call of the frame decompressor may assume about the memory it is given (`Layout`), and
what stays true of it in every pass of its loop (`Io`): the rest of the input stands at the
input pointer, the output of the call so far stands in the output buffer, and nothing else has
changed outside the blocks of the context.

The layout has one condition that is not a matter of course: the output buffer must not start
where the context's own buffer ends.  `LZ4F_updateDict` takes a dictionary that ends at the
output pointer for one that the output continues.
-/

namespace Lz4.Lz4f

open FlatMemory

/-- The buffers of a call and the blocks of the context do not overlap, and the output buffer
does not start at the very end of `tmpOutBuffer`. -/
structure Layout (c : DecompressCall) (B : Owned) (blockSize : Nat) (Kept : Int → Prop) :
    Prop where
  tmpIn_pos : 0 < B.tmpIn
  tmpOut_pos : 0 < B.tmpOut
  blocks_apart : B.tmpIn + (blockSize + 4 : Nat) ≤ B.tmpOut ∨ B.tmpOut + B.size ≤ B.tmpIn
  dst_nonneg : 0 ≤ c.dst
  dst_null : c.dst = 0 → c.dstSize = 0
  dst_tmpIn : c.dst + c.dstSize ≤ B.tmpIn ∨ B.tmpIn + (blockSize + 4 : Nat) ≤ c.dst
  dst_tmpOut : c.dst + c.dstSize ≤ B.tmpOut ∨ B.tmpOut + B.size < c.dst
  src_pos : c.srcSize = 0 ∨ 0 < c.src
  src_dst : c.srcSize = 0 ∨ c.src + c.srcSize ≤ c.dst ∨ c.dst + c.dstSize ≤ c.src
  src_tmpIn : c.srcSize = 0 ∨ c.src + c.srcSize ≤ B.tmpIn ∨
    B.tmpIn + (blockSize + 4 : Nat) ≤ c.src
  src_tmpOut : c.srcSize = 0 ∨ c.src + c.srcSize ≤ B.tmpOut ∨ B.tmpOut + B.size ≤ c.src
  kept_pos : ∀ a, Kept a → 0 < a
  kept_dst : ∀ a, Kept a → a < c.dst ∨ c.dst + c.dstSize ≤ a
  kept_tmpIn : ∀ a, Kept a → a < B.tmpIn ∨ B.tmpIn + (blockSize + 4 : Nat) ≤ a
  kept_tmpOut : ∀ a, Kept a → a < B.tmpOut ∨ B.tmpOut + B.size ≤ a

/-- Not an address of the context's two blocks. -/
structure Foreign (B : Owned) (blockSize : Nat) (a : Int) : Prop where
  tmpIn : a < B.tmpIn ∨ B.tmpIn + (blockSize + 4 : Nat) ≤ a
  tmpOut : a < B.tmpOut ∨ B.tmpOut + B.size ≤ a

/-- The state of input and output in a call: `stream` is what the input, `whole` at first, goes on
with, `avail` bytes of it are at hand, `outs` is the output of the call and `m₀` the memory it
started with. -/
structure Io (c : DecompressCall) (B : Owned) (blockSize : Nat) (m₀ : Mem)
    (whole stream : List UInt8) (avail room : Nat) (outs : List UInt8) (m : Mem)
    (srcPtr dstPtr : Int) : Prop where
  src : srcPtr + avail = c.src + c.srcSize
  avail_le : avail ≤ c.srcSize
  flow : stream = whole.drop (c.srcSize - avail)
  dst : dstPtr = c.dst + outs.length
  room : outs.length + room = c.dstSize
  supply : avail ≤ stream.length
  input : m.Holds srcPtr (stream.take avail)
  output : m.Holds c.dst outs
  still : ∀ a, Foreign B blockSize a → a < c.dst ∨ c.dst + c.dstSize ≤ a → m a = m₀ a

variable {more field : List UInt8} {n got : Nat}

section

variable {c : DecompressCall} {B : Owned} {blockSize : Nat} {Kept : Int → Prop} {m₀ m m' : Mem}
  {whole stream : List UInt8} {avail room : Nat} {outs : List UInt8} {srcPtr dstPtr : Int}

/-! ## Input -/

section

variable (io : Io c B blockSize m₀ whole stream avail room outs m srcPtr dstPtr)

include io

theorem Io.bytes (hn : n ≤ avail) : m.bytes srcPtr n = stream.take n := by
  have hsupply := io.supply
  have hheld := io.input.take n
  rw [List.take_take, Nat.min_eq_left hn, Mem.Holds, List.length_take,
    Nat.min_eq_left (by omega)] at hheld
  exact hheld

theorem Io.consume (hn : n ≤ avail) :
    Io c B blockSize m₀ whole (stream.drop n) (avail - n) room outs m (srcPtr + n) dstPtr := by
  obtain ⟨hsrc, havail, hflow, hdst, hroom, hsupply, hinput, houtput, hstill⟩ := io
  refine ⟨by omega, by omega, ?_, hdst, hroom, ?_, ?_, houtput, hstill⟩
  · rw [hflow, List.drop_drop]
    congr 1
    omega
  · rw [List.length_drop]
    omega
  · have hlength : (stream.take avail).length = avail := by
      rw [List.length_take, Nat.min_eq_left hsupply]
    have hrest := hinput.drop (show n ≤ (stream.take avail).length by omega)
    rwa [List.drop_take] at hrest

/-! ## The context's blocks -/

/-- Changes inside the context's blocks are not noticed. -/
theorem Io.congr (layout : Layout c B blockSize Kept) (h : ∀ a, Foreign B blockSize a → m' a = m a)
    :
    Io c B blockSize m₀ whole stream avail room outs m' srcPtr dstPtr := by
  obtain ⟨hsrc, havail, hflow, hdst, hroom, hsupply, hinput, houtput, hstill⟩ := io
  refine ⟨hsrc, havail, hflow, hdst, hroom, hsupply, ?_, ?_, fun a ha hout => ?_⟩
  · refine hinput.congr fun a hlow hhigh => (h a ?_).symm
    rw [List.length_take] at hhigh
    have htmpIn := layout.src_tmpIn
    have htmpOut := layout.src_tmpOut
    exact ⟨by omega, by omega⟩
  · refine houtput.congr fun a hlow hhigh => (h a ?_).symm
    have htmpIn := layout.dst_tmpIn
    have htmpOut := layout.dst_tmpOut
    exact ⟨by omega, by omega⟩
  · rw [h a ha, hstill a ha hout]

end

/-- A field that arrives in pieces: `got` bytes of `field` are known, and `n` more are appended
to them in `tmpIn`. -/
theorem Io.store {d : Dctx} (htmpIn : d.tmpIn = B.tmpIn) (hsize : d.tmpInSize = got)
    (io : Io c B blockSize m₀ whole (field.drop got ++ more) avail room outs m srcPtr dstPtr)
    (layout : Layout c B blockSize Kept) (held : m.Holds B.tmpIn (field.take got)) (hn : n ≤ avail)
    (hgot : got + n ≤ field.length) (hfits : got + n ≤ blockSize + 4) :
    ∃ m', Loop.storeInput ⟨d, m, srcPtr, dstPtr⟩ n =
      ⟨{ d with tmpInSize := got + n }, m', srcPtr + n, dstPtr⟩ ∧
      m'.Holds B.tmpIn (field.take (got + n)) ∧
      Io c B blockSize m₀ whole (field.drop (got + n) ++ more) (avail - n) room outs m' (srcPtr + n)
      dstPtr ∧ ∀ a, a < B.tmpIn ∨ B.tmpIn + (blockSize + 4 : Nat) ≤ a → m' a = m a := by
  have hframe : ∀ a, a < B.tmpIn ∨ B.tmpIn + (blockSize + 4 : Nat) ≤ a →
      (m.copy (B.tmpIn + got) srcPtr n) a = m a := fun a ha => Mem.copy_outside (by omega)
  have hfirst : (field.drop got ++ more).take n = (field.drop got).take n :=
    List.take_append_of_le_length (by rw [List.length_drop]; omega)
  have hrest : (field.drop got ++ more).drop n = field.drop (got + n) ++ more := by
    rw [List.drop_append_of_le_length (by rw [List.length_drop]; omega), List.drop_drop]
  have hlength : (field.take got).length = got := by
    rw [List.length_take]
    omega
  refine ⟨m.copy (B.tmpIn + got) srcPtr n, ?_, ?_, ?_, hframe⟩
  · rw [← htmpIn, ← hsize]
    rfl
  · rw [List.take_add]
    refine Mem.Holds.append (held.copy_apart (by omega)) ?_
    rw [hlength]
    have hnew : m.Holds srcPtr ((field.drop got).take n) := by
      rw [← hfirst, ← io.bytes hn]
      exact Mem.holds_bytes _ _ _
    exact hnew.copy (by rw [List.length_take]; omega)
  · have hconsumed := io.consume hn
    rw [hrest] at hconsumed
    exact hconsumed.congr layout fun a ha => hframe a ha.tmpIn

/-! ## Output -/

section

variable (io : Io c B blockSize m₀ whole stream avail room outs m srcPtr dstPtr)

include io

/-- Text written at the output pointer, together with changes in the context's blocks and in the
rest of the output buffer. -/
theorem Io.produce (layout : Layout c B blockSize Kept) (hmore : more.length ≤ room)
    (hheld : m'.Holds dstPtr more)
    (h : ∀ a, Foreign B blockSize a → a < dstPtr ∨ c.dst + c.dstSize ≤ a → m' a = m a) :
    Io c B blockSize m₀ whole stream avail (room - more.length) (outs ++ more) m' srcPtr
      (dstPtr + more.length) := by
  obtain ⟨hsrc, havail, hflow, hdst, hroom, hsupply, hinput, houtput, hstill⟩ := io
  refine ⟨hsrc, havail, hflow, ?_, ?_, hsupply, ?_, ?_, fun a ha hout => ?_⟩
  · rw [hdst, List.length_append]
    omega
  · rw [List.length_append]
    omega
  · refine hinput.congr fun a hlow hhigh => (h a ?_ ?_).symm
    · rw [List.length_take] at hhigh
      have htmpIn := layout.src_tmpIn
      have htmpOut := layout.src_tmpOut
      exact ⟨by omega, by omega⟩
    · rw [List.length_take] at hhigh
      have hapart := layout.src_dst
      omega
  · refine Mem.Holds.append (houtput.congr fun a hlow hhigh => (h a ?_ (by omega)).symm) ?_
    · have htmpIn := layout.dst_tmpIn
      have htmpOut := layout.dst_tmpOut
      exact ⟨by omega, by omega⟩
    · rw [← hdst]
      exact hheld
  · rw [h a ha (by omega), hstill a ha hout]

/-! ## Pointers -/

theorem Io.left (d : Dctx) (m' : Mem) : c.left ⟨d, m', srcPtr, dstPtr⟩ = avail := by
  have hsrc := io.src
  unfold DecompressCall.left DecompressCall.srcEnd
  dsimp only
  omega

theorem Io.dstEnd (layout : Layout c B blockSize Kept) : c.dstEnd = dstPtr + room := by
  have hdst := io.dst
  have hroom := io.room
  unfold DecompressCall.dstEnd
  by_cases hnull : c.dst = 0
  · have hsize := layout.dst_null hnull
    omega
  · omega

theorem Io.room_eq (layout : Layout c B blockSize Kept) (d : Dctx) (m' : Mem) :
    c.room ⟨d, m', srcPtr, dstPtr⟩ = room := by
  have hend := io.dstEnd layout
  unfold DecompressCall.room
  dsimp only
  omega

/-- Without an output buffer there is no room. -/
theorem Io.room_of_null (layout : Layout c B blockSize Kept) (hnull : dstPtr = 0) : room = 0 := by
  have hdst := io.dst
  have hroom := io.room
  have hnonneg := layout.dst_nonneg
  have hsize := layout.dst_null (by omega)
  omega

end

end

/-! ## The header array -/

variable {array : List UInt8}

theorem length_overwrite {bytes : List UInt8} {i : Nat} (h : i + bytes.length ≤ array.length) :
    (overwrite array i bytes).length = array.length := by
  unfold overwrite
  rw [List.length_append, List.length_append, List.length_take, List.length_drop]
  omega

/-- A field that arrives in pieces in the array of the context. -/
theorem take_overwrite (held : array.take got = field.take got) (harray : got ≤ array.length)
    (hgot : got + n ≤ field.length) :
    (overwrite array got ((field.drop got ++ more).take n)).take (got + n) = field.take (got +
      n) := by
  have hfirst : (field.drop got ++ more).take n = (field.drop got).take n :=
    List.take_append_of_le_length (by rw [List.length_drop]; omega)
  have hlength : (array.take got ++ (field.drop got).take n).length = got + n := by
    rw [List.length_append, List.length_take, List.length_take, List.length_drop]
    omega
  rw [overwrite, hfirst, List.take_left' hlength, held, ← List.take_add]

end Lz4.Lz4f
