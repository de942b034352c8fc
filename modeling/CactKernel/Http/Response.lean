import CactKernel.Http.Chunked

/-! # Reading a response

`http.rs`: the status line, the headers that frame the body, the loop that reads a response
until its body is complete or the peer has closed, and the assembly of the answer for the
caller. The source is what the connection delivers: each pull takes bytes from the first
piece that is left, and after the last piece the peer has closed. -/

set_option autoImplicit false

namespace CactKernel.Http

open Lib

/-! ## Headers -/

def isWs (b : UInt8) : Bool := b = 32 || b = 9 || b = 13 || b = 10

def trimWs (b : List UInt8) : List UInt8 := ((b.dropWhile isWs).reverse.dropWhile isWs).reverse

def headerEnd : List UInt8 := [cr, lf, cr, lf]

/-- `buf.windows(4).position(|w| w == b"\r\n\r\n")`. -/
def findHeaderEnd : List UInt8 → Option Nat
  | [] => none
  | b :: rest =>
    if headerEnd.isPrefixOf (b :: rest) then some 0 else (findHeaderEnd rest).map (· + 1)

def lower (b : UInt8) : UInt8 := if 65 ≤ b ∧ b ≤ 90 then b + 32 else b

def eqIgnoreAsciiCase (a b : List UInt8) : Bool := a.map lower = b.map lower

def containsIgnoreAsciiCase : List UInt8 → List UInt8 → Bool
  | [], needle => needle.isEmpty
  | h :: hay, needle =>
    (needle.map lower).isPrefixOf ((h :: hay).map lower) || containsIgnoreAsciiCase hay needle

def isDigit (c : UInt8) : Bool := 48 ≤ c && c ≤ 57

/-- The checks are those of `u64`. -/
def parseDecimal (b : List UInt8) : Option Nat :=
  if b = [] then none
  else
    b.foldlM (fun v c =>
      if isDigit c then
        let v := v * 10
        if v < 2 ^ 64 ∧ v + (c.toNat - 48) < 2 ^ 64 then some (v + (c.toNat - 48)) else none
      else none) 0

/-- `header.split(|&b| b == b'\n')`. -/
def splitLines (header : List UInt8) : List (List UInt8) := header.splitOn lf

/-- Zero stands for a line that is no status line. -/
def parseStatusLine (header : List UInt8) : Nat :=
  let firstLine := stripCr ((splitLines header).headD header)
  match firstLine.dropWhile fun b => b ≠ 32 with
  | [] => 0
  | _ :: rest =>
    let digits := rest.take 3
    if digits.all isDigit then digits.foldl (fun code b => code * 10 + (b.toNat - 48)) 0 else 0

def contentLength : List UInt8 := ascii "content-length"
def transferEncoding : List UInt8 := ascii "transfer-encoding"
def chunkedWord : List UInt8 := ascii "chunked"

/-- A line of the header sets the length, or says that the body is chunked. -/
def parseHeaderLine (found : Option Nat × Bool) (line : List UInt8) : Option Nat × Bool :=
  let line := stripCr line
  match line.findIdx? fun b => b = 58 with
  | none => found
  | some colon =>
    let name := line.take colon
    let value := trimWs (line.drop (colon + 1))
    if eqIgnoreAsciiCase name contentLength then
      match parseDecimal value with
      | some v => (some v, found.2)
      | none => found
    else if eqIgnoreAsciiCase name transferEncoding then
      if containsIgnoreAsciiCase value chunkedWord then (found.1, true) else found
    else found

def parseHeaders (header : List UInt8) : Option Nat × Bool :=
  let found := (splitLines header).foldl parseHeaderLine (none, false)
  if found.2 then (none, true) else found

/-! ## The loop -/

/-- The next bytes, at most `want`; none once the peer has closed. -/
def pull (want : Nat) : List (List UInt8) → List UInt8 × List (List UInt8)
  | [] => ([], [])
  | piece :: rest =>
    if piece.length ≤ want then (piece, rest) else (piece.take want, piece.drop want :: rest)

structure RawResp where
  raw : List UInt8
  hdrEnd : Nat
  status : Nat
  chunked : Bool
  contentLen : Option Nat
deriving DecidableEq

/-- The variables of the loop. -/
structure Reading where
  raw : List UInt8
  hdrEnd : Option Nat
  status : Nat
  chunked : Bool
  contentLen : Option Nat
  scanner : ChunkScanner

def Reading.start : Reading := ⟨[], none, 0, false, none, ⟨0, false⟩⟩

/-- The answer of `read_raw_response`, with the flag that it may have set. -/
inductive Verdict
  | error (truncated : Bool)
  | ok (resp : RawResp) (truncated : Bool)
deriving DecidableEq

def finish (r : Reading) (truncated : Bool) : Verdict :=
  match r.hdrEnd with
  | none => .error truncated
  | some he => .ok ⟨r.raw, he, r.status, r.chunked, r.contentLen⟩ truncated

/-- The search for the end of the headers in what `n` new bytes can have completed. -/
def readHeader (r : Reading) (old n : Nat) : Option Reading :=
  match r.hdrEnd with
  | some _ => some r
  | none =>
    let scanFrom := min (r.raw.length - (n + 3)) old
    match findHeaderEnd (r.raw.drop scanFrom) with
    | none => some r
    | some rel =>
      let i := scanFrom + rel
      let status := parseStatusLine (r.raw.take i)
      let found := parseHeaders (r.raw.take i)
      if status = 0 then none
      else if maxHeaderBytes < i + 4 then none
      else
        some { r with
          hdrEnd := some (i + 4), status := status, chunked := found.2, contentLen := found.1 }

/-- Whether the body is complete; the outer `none` is a panic. -/
def readBody (r : Reading) : Option (ChunkStatus × Reading) :=
  match r.hdrEnd with
  | none => some (.incomplete, r)
  | some he =>
    match r.contentLen with
    | some cl =>
      some (if he + min cl maxResponseBytes ≤ r.raw.length then .complete else .incomplete, r)
    | none =>
      if r.chunked then
        (chunkedScan (r.raw.drop he) r.scanner).map fun (status, scanner) =>
          (status, { r with scanner := scanner })
      else some (.incomplete, r)

def readLoop : Nat → List (List UInt8) → Reading → Option Verdict
  | 0, _, _ => none
  | fuel + 1, source, r =>
    if maxResponseBytes ≤ r.raw.length then some (finish r true)
    else
      let want := min (maxResponseBytes - r.raw.length) 4096
      let (data, source) := pull want source
      match readHeader { r with raw := r.raw ++ data } r.raw.length data.length with
      | none => some (.error false)
      | some r =>
        (readBody r).bind fun
          | (.complete, r) => some (finish r false)
          | (.error, _) => some (.error false)
          | (.incomplete, r) =>
            if data.length = 0 then some (finish r false) else readLoop fuel source r

/-- Every round but the last takes a byte. -/
def readRawResponse (source : List (List UInt8)) : Option Verdict :=
  readLoop (source.flatten.length + 2) source .start

/-! ## The answer -/

/-- The fields of `HttpResp` that the reading sets, and the caller's buffer. -/
structure Answer where
  code : Int
  status : Nat
  bodyOff : Nat
  bodyLen : Nat
  total : Nat
  truncated : Bool
  chunked : Bool
  out : List UInt8
deriving DecidableEq

end CactKernel.Http
