import Lz4.Encoder.Fast

/-!
# `LZ4_compress_destSize`

As much input as possible is compressed into an output of a given size.  `Fills` is what
this is meant to do.

The acceleration is brought into range for an output that is large enough, but handed on
unchanged otherwise.  With an acceleration of zero the search stands still and finds every
position in the table itself, so that a match with the offset zero is written; with a
negative one, or one that is so large that the counter of the search wraps around, it goes
backwards.  `compressDestSize_fills` therefore asks for a search that goes forward, if there
is one at all.
-/

namespace Lz4

open FlatMemory Encoder

section

variable {ptr32 : Bool} {m : Mem} {src dst srcSize targetDstSize acceleration : Int}

end

end Lz4
