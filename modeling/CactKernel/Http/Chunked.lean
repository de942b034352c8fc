import CactKernel.Lib.Slice

/-! # Chunked bodies

`http.rs`: the sizes of the chunks, the scanner that finds the end of a chunked body, and
the decoder that writes the body into the caller's buffer. A slice outside of its bounds
is a panic and has no answer; `usize` has 32 bits. -/

set_option autoImplicit false

namespace CactKernel.Http

open Lib

def cr : UInt8 := 13
def lf : UInt8 := 10
def semicolon : UInt8 := 59

def crlf : List UInt8 := [cr, lf]

/-- The bytes of a text of ASCII characters. -/
def ascii (text : String) : List UInt8 := text.toList.map fun c => UInt8.ofNat c.toNat

def maxHeaderBytes : Nat := 64 * 1024
def maxResponseBytes : Nat := 1024 * 1024
def maxChunkBytes : Nat := maxResponseBytes

/-- A slice has at most `isize::MAX` bytes. -/
def isizeMax : Nat := 2 ^ 31 - 1

def checkedMul (a b : Nat) : Option Nat := if a * b < 2 ^ 32 then some (a * b) else none

/-! ## Lines -/

def findLf (buf : List UInt8) (start : Nat) : Option (Option Nat) :=
  Slice.position buf start fun b => b = lf

/-- `line.strip_suffix(b"\r").unwrap_or(line)`. -/
def stripCr (line : List UInt8) : List UInt8 :=
  if line.getLast? = some cr then line.dropLast else line

def hexDigit (c : UInt8) : Option Nat :=
  if 48 ≤ c ∧ c ≤ 57 then some (c.toNat - 48)
  else if 97 ≤ c ∧ c ≤ 102 then some (c.toNat - 97 + 10)
  else if 65 ≤ c ∧ c ≤ 70 then some (c.toNat - 65 + 10)
  else none

def parseHex (b : List UInt8) : Option Nat :=
  if b = [] ∨ 8 < b.length then none
  else
    b.foldlM (fun v c => do
      let d ← hexDigit c
      checkedAdd (← checkedMul v 16) d) 0

def chunkSize (line : List UInt8) : Option Nat :=
  parseHex ((stripCr line).takeWhile fun b => b ≠ semicolon)

/-- The end of the data of a chunk and of the line break after it. -/
def chunkEnds (dataStart size : Nat) : Option (Nat × Nat) := do
  let chunkEnd ← checkedAdd dataStart size
  let dataEnd ← checkedAdd chunkEnd 2
  some (chunkEnd, dataEnd)

/-! ## The scanner -/

inductive ChunkStatus
  | complete
  | incomplete
  | error
deriving DecidableEq

structure ChunkScanner where
  off : Nat
  trailers : Bool
deriving DecidableEq

/-- `chunked_scan`; every round moves on by a byte at least. -/
def scanFrom (body : List UInt8) : Nat → ChunkScanner → Option (ChunkStatus × ChunkScanner)
  | 0, _ => none
  | fuel + 1, scanner =>
    if scanner.trailers then
      (findLf body scanner.off).bind fun
        | none => some (.incomplete, scanner)
        | some te =>
          if te = scanner.off ∨ te = scanner.off + 1 ∧ body[scanner.off]? = some cr then
            some (.complete, scanner)
          else scanFrom body fuel { scanner with off := te + 1 }
    else
      (findLf body scanner.off).bind fun
        | none => some (.incomplete, scanner)
        | some lineEnd =>
          (Slice.range body scanner.off lineEnd).bind fun line =>
            match chunkSize line with
            | none => some (.error, scanner)
            | some size =>
              if maxChunkBytes < size then some (.error, scanner)
              else if size = 0 then scanFrom body fuel ⟨lineEnd + 1, true⟩
              else
                match chunkEnds (lineEnd + 1) size with
                | none => some (.error, scanner)
                | some (chunkEnd, dataEnd) =>
                  if body.length < dataEnd then some (.incomplete, scanner)
                  else
                    (Slice.range body chunkEnd (chunkEnd + 2)).bind fun ending =>
                      if ending ≠ crlf then some (.error, scanner)
                      else scanFrom body fuel { scanner with off := dataEnd }

def chunkedScan (body : List UInt8) (scanner : ChunkScanner) :
    Option (ChunkStatus × ChunkScanner) :=
  scanFrom body (body.length + 1) scanner

/-! ## The decoder -/

/-- The loop of `decode_chunked`: the buffer, the bytes written and whether it was cut. -/
def decodeFrom (body : List UInt8) :
    Nat → Nat → Nat → List UInt8 → Option (List UInt8 × Nat × Bool)
  | 0, _, _, _ => none
  | fuel + 1, i, w, out =>
    (findLf body i).bind fun
      | none => some (out, w, false)
      | some lineEnd =>
        (Slice.range body i lineEnd).bind fun line =>
          match chunkSize line with
          | none => some (out, w, false)
          | some size =>
            if size = 0 then some (out, w, false)
            else if maxChunkBytes < size then some (out, w, false)
            else
              match chunkEnds (lineEnd + 1) size with
              | none => some (out, w, false)
              | some (chunkEnd, dataEnd) =>
                if body.length < dataEnd then some (out, w, false)
                else
                  (Slice.range body chunkEnd (chunkEnd + 2)).bind fun ending =>
                    if ending ≠ crlf then some (out, w, false)
                    else
                      match checkedAdd w size with
                      | none => some (out, w, false)
                      | some wEnd =>
                        if out.length < wEnd then
                          let n := min (out.length - w) (body.length - chunkEnd)
                          -- the bytes are taken from the end of the chunk on
                          (Slice.range body chunkEnd (chunkEnd + n)).bind fun src =>
                            (Slice.copy out w src).map fun out => (out, out.length, true)
                        else
                          (Slice.range body chunkEnd (chunkEnd + size)).bind fun src =>
                            (Slice.copy out w src).bind fun out =>
                              decodeFrom body fuel dataEnd wEnd out

def decodeChunked (body out : List UInt8) : Option (List UInt8 × Nat × Bool) :=
  decodeFrom body (body.length + 1) 0 0 out

end CactKernel.Http
