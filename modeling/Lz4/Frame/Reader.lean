import Lz4.Frame.Format
import Lz4.Lib.Machine

/-!
# Reading a frame piece by piece

The abstract reader of a frame.  It knows the frame and where it stands in it (`Place`); a call
gives it a number of input bytes and room for a number of output bytes, and `turn` is what it
does with them until the place changes.  No memory, no buffers and no history occur: what the
reader has taken is a part of `Frame.unread`, what it has delivered a part of `Frame.owed`.

The decompression context is compared with this reader turn by turn; the statements about whole
frames, about hints and about errors are made here.
-/

namespace Lz4.Lz4f

open FlatMemory Machine

/-- Where a reader stands in a frame.  `got` counts the bytes taken of a field that is not
complete, `done` the bytes delivered of a block; a compressed block is not touched (`none`)
before the reader knows whether it gets it in one piece. -/
inductive Place
  | header (got : Nat)
  | ready
  | blockHeader (rest : List Piece) (got : Nat)
  | raw (p : Piece) (rest : List Piece) (done : Nat)
  | rawChecksum (p : Piece) (rest : List Piece) (got : Nat)
  | compressed (p : Piece) (rest : List Piece) (got : Option Nat)
  | flush (p : Piece) (rest : List Piece) (done : Nat)
  | suffix (got : Nat)
  | finished
  deriving Repr, DecidableEq

/-- A reader, with the input and the room that are left to it in a call. -/
structure Reader where
  place : Place
  avail : Nat
  room : Nat
  deriving Repr, DecidableEq

/-- How a call ends: it stops with a hint, it fails, or it had nothing to do at the very
beginning of a frame. -/
inductive Reply
  | stop (r : Reader) (hint : Nat)
  | fail (e : FrameError)
  | idle (r : Reader)
  deriving Repr, DecidableEq

namespace Frame

variable (f : Frame)

/-! ## The bytes on both sides of a place -/

/-- The input that is still to come. -/
def unread : Place → List UInt8
  | .header got => f.desc.header.drop got ++ f.body f.pieces
  | .ready => f.body f.pieces
  | .blockHeader rest got => (f.body rest).drop got
  | .raw p rest done => p.data.drop done ++ (f.footer p ++ f.body rest)
  | .rawChecksum p rest got => (f.footer p).drop got ++ f.body rest
  | .compressed p rest got => (p.data ++ f.footer p).drop (got.getD 0) ++ f.body rest
  | .flush _ rest _ => f.body rest
  | .suffix got => f.suffix.drop got
  | .finished => []

/-- The blocks behind the current one. -/
def rest : Place → List Piece
  | .header _ => f.pieces
  | .ready => f.pieces
  | .blockHeader rest _ => rest
  | .raw _ rest _ => rest
  | .rawChecksum _ rest _ => rest
  | .compressed _ rest _ => rest
  | .flush _ rest _ => rest
  | .suffix _ => []
  | .finished => []

end Frame

/-- What is still to be delivered of the current block. -/
def Place.current : Place → List UInt8
  | .raw p _ done => p.data.drop done
  | .compressed p _ _ => p.content
  | .flush p _ done => p.content.drop done
  | _ => []

namespace Frame

variable (f : Frame)

/-- The output that is still to come. -/
def owed (place : Place) : List UInt8 := place.current ++ contents (f.rest place)

/-! ## Turns -/

/-- The declared content size is none, `0`, or the true one modulo `2 ^ 64`. -/
def SizeMatches : Prop :=
  f.desc.contentSize.getD 0 = 0 ∨ f.desc.contentSize.getD 0 = UInt64.ofNat f.content.length

instance : Decidable f.SizeMatches := inferInstanceAs (Decidable (_ ∨ _))

/-- Behind the size field of the next block. -/
def enterBlock (r : Reader) : List Piece → Step Reader Reply
  | [] => .next { r with place := .suffix 0 }
  | p :: rest =>
    if p.raw then .next { r with place := .raw p rest 0 }
    else
      let r := { r with place := .compressed p rest none }
      if r.room = 0 ∨ r.avail = 0 then .done (.stop r (4 + p.data.length + f.footerSize))
      else .next r

/-- At a size field of which `got` bytes are known. -/
def turnBlockHeader (r : Reader) (rest : List Piece) (got : Nat) : Step Reader Reply :=
  let n := min (4 - got) r.avail
  let r := { r with place := .blockHeader rest (got + n), avail := r.avail - n }
  if got + n < 4 then .done (.stop r (4 - (got + n))) else f.enterBlock r rest

/-- At a header of which `got` bytes are known; its first seven bytes tell its size. -/
def turnHeader (r : Reader) (got : Nat) : Step Reader Reply :=
  if got = 0 ∧ maxFHSize ≤ r.avail then
    .next { r with place := .ready, avail := r.avail - f.desc.size }
  else if got = 0 ∧ r.avail = 0 then .done (.idle r)
  else
    let target := if got < minFHSize then minFHSize else f.desc.size
    let n := min (target - got) r.avail
    let r := { r with place := .header (got + n), avail := r.avail - n }
    if got + n < target then .done (.stop r (target - (got + n) + bhSize))
    else if target < f.desc.size then .next r
    else .next { r with place := .ready }

/-- In a block that is stored as it is. -/
def turnRaw (r : Reader) (p : Piece) (rest : List Piece) (done : Nat) : Step Reader Reply :=
  let n := min (p.data.length - done) (min r.avail r.room)
  let r := { r with avail := r.avail - n, room := r.room - n }
  if n = p.data.length - done then
    .next { r with
      place := if f.desc.blockChecksum then .rawChecksum p rest 0 else .blockHeader rest 0 }
  else
    .done (.stop { r with place := .raw p rest (done + n) }
      (p.data.length - done - n + f.footerSize + bhSize))

/-- At the checksum behind such a block. -/
def turnRawChecksum (skip : Bool) (r : Reader) (p : Piece) (rest : List Piece) (got : Nat) :
    Step Reader Reply :=
  let n := min (4 - got) r.avail
  let r := { r with place := .rawChecksum p rest (got + n), avail := r.avail - n }
  if got + n < 4 then .done (.stop r 1)
  else if ¬ skip ∧ p.checksum ≠ xxh32 p.data 0 then .done (.fail .blockChecksum_invalid)
  else .next { r with place := .blockHeader rest 0 }

/-- With `done` bytes of a decoded block delivered. -/
def turnFlush (r : Reader) (p : Piece) (rest : List Piece) (done : Nat) : Step Reader Reply :=
  let n := min (p.content.length - done) r.room
  let r := { r with room := r.room - n }
  if done + n = p.content.length then .next { r with place := .blockHeader rest 0 }
  else .done (.stop { r with place := .flush p rest (done + n) } bhSize)

/-- In a compressed block of which `got` bytes are known; its checksum is always checked. -/
def turnStored (r : Reader) (p : Piece) (rest : List Piece) (got : Nat) : Step Reader Reply :=
  let total := p.data.length + f.footerSize
  let n := min (total - got) r.avail
  let r := { r with place := .compressed p rest (some (got + n)), avail := r.avail - n }
  if got + n < total then .done (.stop r (total - (got + n) + f.footerSize + bhSize))
  else if f.desc.blockChecksum ∧ p.checksum ≠ xxh32 p.data 0 then
    .done (.fail .blockChecksum_invalid)
  else turnFlush r p rest 0

/-- At a compressed block. -/
def turnCompressed (r : Reader) (p : Piece) (rest : List Piece) : Option Nat → Step Reader Reply
  | some got => f.turnStored r p rest got
  | none =>
    if r.avail < p.data.length + f.footerSize then
      .next { r with place := .compressed p rest (some 0) }
    else f.turnStored r p rest 0

/-- Behind the end mark, with `got` bytes of the content checksum known. -/
def turnSuffix (skip : Bool) (r : Reader) (got : Nat) : Step Reader Reply :=
  if ¬ f.SizeMatches then .done (.fail .frameSize_wrong)
  else if ¬ f.desc.contentChecksum then .done (.stop { r with place := .finished } 0)
  else
    let n := min (4 - got) r.avail
    let r := { r with place := .suffix (got + n), avail := r.avail - n }
    if got + n < 4 then .done (.stop r (4 - (got + n)))
    else if ¬ skip ∧ f.checksum ≠ xxh32 f.content 0 then .done (.fail .contentChecksum_invalid)
    else .done (.stop { r with place := .finished } 0)

/-- One turn. -/
def turn (skip : Bool) (r : Reader) : Step Reader Reply :=
  match r.place with
  | .header got => f.turnHeader r got
  | .ready => f.turnBlockHeader r f.pieces 0
  | .blockHeader rest got => f.turnBlockHeader r rest got
  | .raw p rest done => f.turnRaw r p rest done
  | .rawChecksum p rest got => turnRawChecksum skip r p rest got
  | .compressed p rest got => f.turnCompressed r p rest got
  | .flush p rest done => turnFlush r p rest done
  | .suffix got => f.turnSuffix skip r got
  | .finished => .done (.idle r)

/-- A call. -/
def serve (skip : Bool) (r : Reader) : Option Reply :=
  iterate (fun r => some (f.turn skip r)) (4 * r.avail + 8) r

end Frame

end Lz4.Lz4f
