import CactKernel.Http.Copied
import CactKernel.Http.Reading

/-! # When an answer is the whole body

An answer without an error and without the flag for a cut body promises the entire entity.
The loop also ends without an error when the peer closes early, the length is taken modulo
`2 ^ 32`, and the chunks are copied from the wrong place, so that the promise is kept for
some responses only. -/

set_option autoImplicit false

namespace CactKernel.Http

open Lib List Option Nat

/-! ## The promise -/

def Answer.body (a : Answer) : List UInt8 := (a.out.drop a.bodyOff).take a.bodyLen

def payload (chunks : List (List UInt8 × List UInt8)) : List UInt8 := chunks.flatMap Prod.fst

/-- What the loop can look at. -/
def seen (stream : List UInt8) : List UInt8 := stream.take maxResponseBytes

/-- With `room` bytes behind the header: a body with a length arrives whole, or reaches the
limit, or does not fit; a chunked body begins with its last chunk. -/
def Frame.Kept (f : Frame) (stream : List UInt8) (room : Nat) : Prop :=
  match f.contentLen with
  | some length =>
    f.hdrEnd + length ≤ stream.length ∨ maxResponseBytes ≤ stream.length ∨
      room < min (length % 2 ^ 32) (stream.length - f.hdrEnd)
  | none => f.chunked = true → chunksOf (stream.drop f.hdrEnd) = ([], true)

/-- The headers are not accepted, or do not fit, or the body is kept. -/
def Sound (stream : List UInt8) (room : Nat) : Prop :=
  ∀ f i, HeadAt (seen stream) f i → f.hdrEnd ≤ room → f.Kept stream (room - f.hdrEnd)

/-! ## The answer -/

/-- What is written behind the header. -/
def RawResp.fill (rr : RawResp) (room : List UInt8) : Option (List UInt8 × Nat × Bool) :=
  let body := rr.raw.drop rr.hdrEnd
  if rr.chunked then decodeChunked body room
  else
    let limit := match rr.contentLen with
      | some length => min (length % 2 ^ 32) body.length
      | none => body.length
    let n := min limit room.length
    (Slice.copy room 0 (body.take n)).map fun room => (room, n, decide (n < limit))

variable {out : List UInt8} {source : List (List UInt8)}

variable {cut : Bool}

variable {length : Nat}

section Head

variable {stream : List UInt8} {f : Frame} {i : Nat}

theorem HeadAt.unique {g : Frame} {j : Nat} (head : HeadAt stream f i) (other : HeadAt stream g j) :
    f = g := by
  cases head.found.symm.trans other.found
  rw [head.frame, other.frame]

end Head

section Ways

variable {source : List (List UInt8)} {out : List UInt8} {f : Frame} {i : Nat}
  {raw : List UInt8}

variable (head : HeadAt (seen source.flatten) f i) (part : raw <+: seen source.flatten)
include head part

end Ways

section Whole

variable {source : List (List UInt8)} {out : List UInt8} {f : Frame} {i : Nat}
  (head : HeadAt (seen source.flatten) f i)
  (run : readRawResponse source =
    some (.ok ⟨seen source.flatten, f.hdrEnd, f.status, f.chunked, f.contentLen⟩
      (decide (maxResponseBytes ≤ source.flatten.length))))
include head run

end Whole

end CactKernel.Http
