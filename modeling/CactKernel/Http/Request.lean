import CactKernel.Http.Response
import Mathlib.Data.List.TakeWhile
import Mathlib.Data.Nat.Digits.Defs

/-! # Building a request

`http.rs`: a URL is split into host, port and path, and the request is written from these.
The message is read back by the grammar of HTTP/1.1: a request line of three tokens with
single spaces, header fields, and a body of the length that is given. -/

set_option autoImplicit false

namespace CactKernel.Http

open List Option Nat Bool

/-! ## The URL -/

def space : UInt8 := 32
def slash : UInt8 := 47
def colon : UInt8 := 58
def question : UInt8 := 63
def atSign : UInt8 := 64
def hash : UInt8 := 35

structure HttpUrl where
  tls : Bool
  host : List UInt8
  port : Nat
  path : List UInt8
deriving DecidableEq

def parsePort (port : List UInt8) : Option Nat :=
  if port = [] ∨ 5 < port.length then none
  else
    port.foldlM (fun v b =>
      if isDigit b then
        let v := v * 10 + (b.toNat - 48)
        if 65535 < v then none else some v
      else none) 0

/-- Whether TLS is used, and what follows the scheme. -/
def stripScheme (input : List UInt8) : Bool × List UInt8 :=
  if (ascii "https://").isPrefixOf input then (true, input.drop 8)
  else if (ascii "http://").isPrefixOf input then (false, input.drop 7)
  else (false, input)

/-- The bytes before the first `/` or `?`. -/
def inAuthority (b : UInt8) : Bool := b ≠ slash && b ≠ question

/-- The bytes after the first `@`, or all. -/
def afterUserInfo (authority : List UInt8) : List UInt8 :=
  match authority.dropWhile fun b => b ≠ atSign with
  | [] => authority
  | _ :: rest => rest

/-- The bytes before and after the last colon. -/
def splitPort (authority : List UInt8) : List UInt8 × Option (List UInt8) :=
  match authority.reverse.dropWhile fun b => b ≠ colon with
  | [] => (authority, none)
  | _ :: host =>
    (host.reverse, some (authority.reverse.takeWhile fun b => b ≠ colon).reverse)

/-- From the first `/` or `?` on, with a `/` before a query. -/
def pathOf (rest : List UInt8) : List UInt8 :=
  let path := match rest.dropWhile inAuthority with
    | [] => [slash]
    | tail => tail
  if path.head? = some question then slash :: path else path

def control (b : UInt8) : Bool := b < 0x20 || b = 0x7f

def parseUrl (input : List UInt8) : Option HttpUrl :=
  let input := trimWs input
  if input = [] then none
  else
    let (tls, rest) := stripScheme input
    let (host, text) := splitPort (afterUserInfo (rest.takeWhile inAuthority))
    let port := match text with
      | some text => parsePort text
      | none => some (if tls then 443 else 80)
    port.bind fun port =>
      if host = [] ∨ 253 < host.length then none
      else if host.any control then none
      else
        let path := pathOf rest
        if path = [] ∨ 8192 < path.length then none
        else if path.any control then none
        else
          let path := path.takeWhile fun b => b ≠ hash
          some ⟨tls, host, port, if path = [] then [slash] else path⟩

/-! ## The message -/

def methodBytes (method : Int) : Option (List UInt8) :=
  if method = 1 then some (ascii "GET")
  else if method = 2 then some (ascii "POST")
  else if method = 3 then some (ascii "PUT")
  else if method = 4 then some (ascii "DELETE")
  else if method = 5 then some (ascii "HEAD")
  else none

/-- The digits come out of the loop from the lowest on. -/
def appendDecimal (v : Nat) (out : List UInt8) : List UInt8 :=
  if v = 0 then out ++ [48]
  else out ++ ((Nat.digits 10 v).map fun d => UInt8.ofNat (48 + d)).reverse

def buildRequest (method : Int) (host path : List UInt8) (extra body : Option (List UInt8)) :
    Option (List UInt8) :=
  (methodBytes method).map fun m =>
    let req := m ++ [space] ++ path ++ ascii " HTTP/1.1" ++ crlf
    let req := req ++ ascii "Host: " ++ host ++ crlf
    let req := req ++ ascii "User-Agent: CactKernel/2.0 (i686)" ++ crlf
    let req := req ++ ascii "Accept: */*" ++ crlf
    let req := req ++ ascii "Connection: close" ++ crlf
    let req := match body with
      | some b => appendDecimal b.length (req ++ ascii "Content-Length: ") ++ crlf
      | none => req
    let req := match extra with
      | some e =>
        let e := (e.reverse.dropWhile fun b => b = cr || b = lf).reverse
        if e = [] then req else req ++ e ++ crlf
      | none => req
    req ++ crlf ++ body.getD []

/-! ## The grammar -/

structure Request where
  method : List UInt8
  target : List UInt8
  version : List UInt8
  fields : List (List UInt8 × List UInt8)
  body : List UInt8

/-- The lines up to the empty one, and what follows it. -/
def headerLines : List UInt8 → List UInt8 → Option (List (List UInt8) × List UInt8)
  | _, [] => none
  | line, b :: rest =>
    match rest with
    | [] => none
    | c :: more =>
      if b = cr ∧ c = lf then
        if line = [] then some ([], more)
        else (headerLines [] more).map fun r => (line :: r.1, r.2)
      else headerLines (line ++ [b]) (c :: more)

def tokens (line : List UInt8) : Option (List UInt8 × List UInt8 × List UInt8) :=
  match line.dropWhile fun b => b ≠ space with
  | [] => none
  | _ :: rest =>
    match rest.dropWhile fun b => b ≠ space with
    | [] => none
    | _ :: version =>
      let method := line.takeWhile fun b => b ≠ space
      let target := rest.takeWhile fun b => b ≠ space
      if method = [] ∨ target = [] ∨ version = [] ∨ space ∈ version then none
      else some (method, target, version)

def field (line : List UInt8) : Option (List UInt8 × List UInt8) :=
  match line.dropWhile fun b => b ≠ colon with
  | [] => none
  | _ :: value =>
    let name := line.takeWhile fun b => b ≠ colon
    if name = [] then none else some (name, trimWs value)

def named (name : List UInt8) (fields : List (List UInt8 × List UInt8)) : List (List UInt8) :=
  (fields.filter fun f => eqIgnoreAsciiCase f.1 name).map Prod.snd

def decimalValue (digits : List UInt8) : Nat :=
  digits.foldl (fun v c => v * 10 + (c.toNat - 48)) 0

def bodyOf (fields : List (List UInt8 × List UInt8)) (rest : List UInt8) : Option (List UInt8) :=
  match named contentLength fields with
  | [] => if rest = [] then some [] else none
  | [n] => if n ≠ [] ∧ n.all isDigit ∧ decimalValue n = rest.length then some rest else none
  | _ => none

def parseRequest (msg : List UInt8) : Option Request :=
  (headerLines [] msg).bind fun r =>
    match r.1 with
    | [] => none
    | line :: fieldLines =>
      (tokens line).bind fun t =>
        (fieldLines.mapM field).bind fun fields =>
          (bodyOf fields r.2).map fun body => ⟨t.1, t.2.1, t.2.2, fields, body⟩

/-! ## The host of a URL -/

/-- The URL after its scheme. -/
def hierarchy (input : List UInt8) : List UInt8 := (stripScheme (trimWs input)).2

/-- A colon and digits at the end, or several of these. -/
def portTail (host : List UInt8) : List UInt8 :=
  (host.reverse.takeWhile fun b => isDigit b || b = colon).reverse

def withoutPort (host : List UInt8) : List UInt8 :=
  (host.reverse.dropWhile fun b => isDigit b || b = colon).reverse ++
    (portTail host).takeWhile fun b => b ≠ colon

/-- The authority ends at `/`, `?` or `#`, the user-info at the last `@`, and neither the
port nor a space belongs to the host. -/
def urlHost (input : List UInt8) : List UInt8 :=
  let authority := (hierarchy input).takeWhile fun b => inAuthority b && b ≠ hash
  withoutPort ((authority.reverse.takeWhile fun b => b ≠ atSign).reverse.filter fun b => b ≠ space)

/-- The message of an accepted URL is the request that was asked for. -/
def ParsesBack (input name : List UInt8) (path msg : List UInt8) (body : Option (List UInt8)) :
    Prop :=
  ∃ r, parseRequest msg = some r ∧ r.method = name ∧ r.target = path ∧
    r.version = ascii "HTTP/1.1" ∧ named (ascii "host") r.fields = [urlHost input] ∧
    r.body = body.getD []

/-! ## When the message is read back -/

/-- What the splitter takes for the authority, and for the path. -/
def authorityOf (input : List UInt8) : List UInt8 := (hierarchy input).takeWhile inAuthority

def targetOf (input : List UInt8) : List UInt8 :=
  ((hierarchy input).dropWhile inAuthority).takeWhile fun b => b ≠ hash

/-- The bytes that the splitter takes for the host, without spaces around them. -/
def hostPart (input : List UInt8) : List UInt8 :=
  trimWs (splitPort (afterUserInfo (authorityOf input))).1

/-- No space in what becomes the path; and in what stands before it no fragment, no second
`@`, no second port and no space, or a fragment that starts in the user-info of a URL with
the same host before it. -/
def Plain (input : List UInt8) : Prop :=
  space ∉ targetOf input ∧
    (hash ∉ authorityOf input ∧ atSign ∉ afterUserInfo (authorityOf input) ∧
        space ∉ hostPart input ∧ colon ∉ portTail (hostPart input) ∨
      hash ∈ authorityOf input ∧ hash ∉ afterUserInfo (authorityOf input) ∧
        hostPart input = urlHost input)

instance (input : List UInt8) : Decidable (Plain input) := by
  unfold Plain
  infer_instance

/-! ## Reading the lines -/

theorem headerLines_line {line : List UInt8} (no_cr : cr ∉ line) :
    ∀ {start : List UInt8} (rest : List UInt8), start ++ line ≠ [] →
      headerLines start (line ++ (crlf ++ rest)) =
        (headerLines [] rest).map fun r => ((start ++ line) :: r.1, r.2) := by
  induction line with
  | nil =>
    intro start rest nonempty
    rw [append_nil] at nonempty ⊢
    change headerLines start (cr :: lf :: rest) = _
    rw [headerLines, if_pos ⟨rfl, rfl⟩, if_neg nonempty]
  | cons b line ih =>
    intro start rest nonempty
    have other : b ≠ cr := fun same => no_cr (same ▸ mem_cons_self)
    have later := @ih (fun member => no_cr (mem_cons_of_mem b member)) (start ++ [b]) rest
      (by simp)
    rw [append_assoc] at later
    obtain ⟨c, more, split⟩ : ∃ c more, line ++ (crlf ++ rest) = c :: more := by
      cases line with
      | nil => exact ⟨cr, lf :: rest, rfl⟩
      | cons c line => exact ⟨c, line ++ (crlf ++ rest), rfl⟩
    rw [cons_append, split, headerLines, if_neg fun both => other both.1, ← split, later]
    rfl

theorem headerLines_end (rest : List UInt8) : headerLines [] (crlf ++ rest) = some ([], rest) := by
  change headerLines [] (cr :: lf :: rest) = _
  rw [headerLines, if_pos ⟨rfl, rfl⟩, if_pos rfl]

section Words

variable {p : UInt8 → Bool} {word rest : List UInt8} {b : UInt8}

theorem takeWhile_word (inside : ∀ x ∈ word, p x = true) (stop : p b = false) :
    (word ++ b :: rest).takeWhile p = word := by
  rw [takeWhile_append_of_pos inside, takeWhile_cons, stop]
  exact append_nil _

theorem dropWhile_word (inside : ∀ x ∈ word, p x = true) (stop : p b = false) :
    (word ++ b :: rest).dropWhile p = b :: rest := by
  rw [dropWhile_append_of_pos inside, dropWhile_cons, stop]
  rfl

theorem takeWhile_stop (stop : p b = false) (word : List UInt8) :
    (word ++ b :: rest).takeWhile p = word.takeWhile p := by
  induction word with
  | nil => rw [nil_append, takeWhile_cons, stop]; rfl
  | cons x word ih => rw [cons_append, takeWhile_cons, takeWhile_cons, ih]

end Words

variable {word path host : List UInt8}

theorem ne_of_not_mem {x : UInt8} (missing : x ∉ word) : ∀ y ∈ word, (decide (y ≠ x)) = true := by
  intro y member
  rw [decide_eq_true_eq]
  rintro rfl
  exact missing member

variable {name input l : List UInt8} {method : Int} {b : UInt8}

theorem tokens_iff {version : List UInt8} (one : space ∉ name) (three : space ∉ version)
    (nonempty : name ≠ [] ∧ path ≠ [] ∧ version ≠ []) :
    tokens (name ++ [space] ++ path ++ (space :: version)) = some (name, path, version) ↔
      space ∉ path := by
  have line : name ++ [space] ++ path ++ (space :: version) =
      name ++ space :: (path ++ space :: version) := by simp
  rw [line, tokens, dropWhile_word (ne_of_not_mem one) (by decide),
    takeWhile_word (ne_of_not_mem one) (by decide)]
  dsimp only
  constructor
  · intro read inside
    split at read
    · cases read
    split at read
    · cases read
    have target := congrArg (fun t => t.2.1) (some.inj read)
    dsimp only at target
    rw [← target] at inside
    have none := mem_takeWhile_imp inside
    exact absurd none (by decide)
  · intro two
    rw [dropWhile_word (ne_of_not_mem two) (by decide),
      takeWhile_word (ne_of_not_mem two) (by decide)]
    dsimp only
    rw [if_neg]
    rintro (bad | bad | bad | bad)
    · exact nonempty.1 bad
    · exact nonempty.2.1 bad
    · exact nonempty.2.2 bad
    · exact three bad

theorem field_line {value : List UInt8} (plain : colon ∉ name) (nonempty : name ≠ []) :
    field (name ++ colon :: value) = some (name, trimWs value) := by
  rw [field, dropWhile_word (ne_of_not_mem plain) (by decide),
    takeWhile_word (ne_of_not_mem plain) (by decide)]
  exact if_neg nonempty

/-! ## The length of the body -/

theorem digit_byte : ∀ d < 10,
    (UInt8.ofNat (48 + d)).toNat = 48 + d ∧ isDigit (UInt8.ofNat (48 + d)) = true := by decide

theorem decimalValue_digits (digits : List Nat) (small : ∀ d ∈ digits, d < 10) :
    decimalValue (digits.map fun d => UInt8.ofNat (48 + d)).reverse = Nat.ofDigits 10 digits := by
  induction digits with
  | nil => rfl
  | cons d digits ih =>
    have here := small d mem_cons_self
    have value := (digit_byte d here).1
    have later := ih fun x member => small x (mem_cons_of_mem d member)
    rw [decimalValue] at later ⊢
    rw [map_cons, reverse_cons, foldl_append, later, foldl_cons,
      foldl_nil, value, ofDigits_cons]
    omega

theorem appendDecimal_spec (v : Nat) (out : List UInt8) : ∃ digits, digits ≠ [] ∧
    digits.all isDigit = true ∧ decimalValue digits = v ∧ appendDecimal v out = out ++ digits := by
  rw [appendDecimal]
  split
  · rename_i zero
    subst zero
    exact ⟨[48], by decide, by decide, by decide, rfl⟩
  rename_i positive
  have small : ∀ d ∈ digits 10 v, d < 10 := fun d member =>
    digits_lt_base (by decide) member
  refine ⟨_, ?_, ?_, ?_, rfl⟩
  · rw [ne_eq, reverse_eq_nil_iff, map_eq_nil_iff]
    exact digits_ne_nil_iff_ne_zero.mpr positive
  · rw [List.all_reverse, List.all_map, List.all_eq_true]
    intro d member
    exact (digit_byte d (small d member)).2
  · rw [decimalValue_digits _ small, ofDigits_digits]

/-! ## The message of a request -/

theorem headerLines_flatMap (body : List UInt8) (lines : List (List UInt8))
    (fine : ∀ line ∈ lines, line ≠ [] ∧ cr ∉ line) :
    headerLines [] (lines.flatMap (fun line => line ++ crlf) ++ (crlf ++ body)) =
      some (lines, body) := by
  induction lines with
  | nil => exact headerLines_end body
  | cons line lines ih =>
    obtain ⟨nonempty, no_cr⟩ := fine line mem_cons_self
    have later := ih fun l member => fine l (mem_cons_of_mem line member)
    rw [flatMap_cons, append_assoc, append_assoc, @headerLines_line line no_cr [] _
      nonempty, later]
    rfl

theorem trimWs_of_plain (plain : ∀ b ∈ word, isWs b = false) : trimWs word = word := by
  have first : ∀ l : List UInt8, (∀ b ∈ l, isWs b = false) → l.dropWhile isWs = l := by
    intro l fine
    cases l with
    | nil => rfl
    | cons b l => rw [dropWhile_cons, fine b mem_cons_self]; rfl
  rw [trimWs, first word plain, first word.reverse fun b member =>
    plain b (mem_reverse.mp member), reverse_reverse]

theorem trimWs_space (word : List UInt8) : trimWs (space :: word) = trimWs word := rfl

theorem appendDecimal_append (v : Nat) (out : List UInt8) :
    appendDecimal v out = out ++ appendDecimal v [] := by
  rw [appendDecimal, appendDecimal]
  split <;> rfl

/-- The fields that stand in every request. -/
def fixedLines (host : List UInt8) : List (List UInt8) :=
  [ascii "Host: " ++ host, ascii "User-Agent: CactKernel/2.0 (i686)", ascii "Accept: */*",
    ascii "Connection: close"]

def lengthLine (body : Option (List UInt8)) : List (List UInt8) :=
  match body with
  | some b => [ascii "Content-Length: " ++ appendDecimal b.length []]
  | none => []

def requestLine (name path : List UInt8) : List UInt8 :=
  name ++ [space] ++ path ++ (space :: ascii "HTTP/1.1")

theorem buildRequest_lines (supported : methodBytes method = some name) (host path : List UInt8)
    (body : Option (List UInt8)) :
    buildRequest method host path none body =
      some ((requestLine name path :: (fixedLines host ++ lengthLine body)).flatMap
        (fun line => line ++ crlf) ++ (crlf ++ body.getD [])) := by
  have version : ascii " HTTP/1.1" = space :: ascii "HTTP/1.1" := by decide
  rw [buildRequest, supported, map_some, version]
  cases body with
  | none => simp [requestLine, fixedLines, lengthLine]
  | some b =>
    dsimp only
    rw [appendDecimal_append]
    simp [requestLine, fixedLines, lengthLine]

theorem methodBytes_word (supported : methodBytes method = some name) :
    name ≠ [] ∧ space ∉ name ∧ cr ∉ name := by
  rw [methodBytes] at supported
  repeat' split at supported
  all_goals cases supported
  all_goals decide

theorem fields_eq (host : List UInt8) (body : Option (List UInt8)) : ∃ fields,
    (fixedLines host ++ lengthLine body).mapM field = some fields ∧
      named (ascii "host") fields = [trimWs host] ∧
      bodyOf fields (body.getD []) = some (body.getD []) := by
  have first : field (ascii "Host: " ++ host) = some (ascii "Host", trimWs host) :=
    @field_line (ascii "Host") (space :: host) (by decide) (by decide)
  have agent : field (ascii "User-Agent: CactKernel/2.0 (i686)") =
      some (ascii "User-Agent", ascii "CactKernel/2.0 (i686)") := by decide
  have accept : field (ascii "Accept: */*") = some (ascii "Accept", ascii "*/*") := by decide
  have connection : field (ascii "Connection: close") =
      some (ascii "Connection", ascii "close") := by decide
  cases body with
  | none =>
    refine ⟨[(ascii "Host", trimWs host), (ascii "User-Agent", ascii "CactKernel/2.0 (i686)"),
      (ascii "Accept", ascii "*/*"), (ascii "Connection", ascii "close")], ?_, rfl, rfl⟩
    simp [fixedLines, lengthLine, first, agent, accept, connection]
  | some b =>
    obtain ⟨digits, nonempty, all, value, text⟩ := appendDecimal_spec b.length []
    have plain : ∀ x ∈ digits, isWs x = false := by
      intro x member
      have digit := all_eq_true.mp all x member
      simp only [isDigit, isWs] at digit ⊢
      grind
    have length : field (ascii "Content-Length: " ++ digits) =
        some (ascii "Content-Length", digits) := by
      have read := @field_line (ascii "Content-Length") (space :: digits) (by decide) (by decide)
      rw [trimWs_space, trimWs_of_plain plain] at read
      exact read
    refine ⟨[(ascii "Host", trimWs host), (ascii "User-Agent", ascii "CactKernel/2.0 (i686)"),
      (ascii "Accept", ascii "*/*"), (ascii "Connection", ascii "close"),
      (ascii "Content-Length", digits)], ?_, rfl, ?_⟩
    · simp [fixedLines, lengthLine, first, agent, accept, connection, text, length]
    · change (if digits ≠ [] ∧ digits.all isDigit ∧ decimalValue digits = b.length then some b
        else none) = some b
      rw [if_pos ⟨nonempty, all, value⟩]

theorem parsesBack_iff {msg : List UInt8} {body : Option (List UInt8)}
    (supported : methodBytes method = some name)
    (built : buildRequest method host path none body = some msg) (nonempty : path ≠ [])
    (host_cr : cr ∉ host) (path_cr : cr ∉ path) :
    ParsesBack input name path msg body ↔ space ∉ path ∧ trimWs host = urlHost input := by
  obtain ⟨some_name, no_space, name_cr⟩ := methodBytes_word supported
  obtain ⟨fields, read, hosts, length⟩ := fields_eq host body
  have lines_fine : ∀ line ∈ requestLine name path :: (fixedLines host ++ lengthLine body),
      line ≠ [] ∧ cr ∉ line := by
    obtain ⟨digits, _, all, _, text⟩ := appendDecimal_spec (body.getD []).length []
    have digits_cr : cr ∉ digits := fun member =>
      absurd (all_eq_true.mp all cr member) (by decide)
    cases body with
    | none => simp +decide [requestLine, fixedLines, lengthLine, name_cr, path_cr, host_cr]
    | some b =>
      rw [getD_some] at text
      simp +decide [requestLine, fixedLines, lengthLine, name_cr, path_cr, host_cr, text, digits_cr]
  have parsed : parseRequest msg = (tokens (requestLine name path)).map fun t =>
      ⟨t.1, t.2.1, t.2.2, fields, body.getD []⟩ := by
    rw [buildRequest_lines supported] at built
    rw [← some.inj built, parseRequest, headerLines_flatMap _ _ lines_fine,
      bind_some]
    dsimp only
    rw [read]
    simp only [bind_some, length, map_some]
    exact (map_eq_bind ..).symm
  have three : space ∉ ascii "HTTP/1.1" := by decide
  rw [← tokens_iff no_space three ⟨some_name, nonempty, by decide⟩]
  constructor
  · rintro ⟨r, result, method_eq, target_eq, version_eq, host_eq, _⟩
    rw [parsed] at result
    obtain ⟨⟨m, t, v⟩, line, rfl⟩ := map_eq_some_iff.mp result
    dsimp only at method_eq target_eq version_eq host_eq
    rw [hosts, cons.injEq] at host_eq
    rw [method_eq, target_eq, version_eq] at line
    exact ⟨line, host_eq.1⟩
  · rintro ⟨line, same⟩
    rw [requestLine, line] at parsed
    exact ⟨_, parsed, rfl, rfl, rfl, by rw [hosts, same], rfl⟩

/-! ## What is accepted -/

theorem parsePort_digits {text : List UInt8} {v : Nat} (accepted : parsePort text = some v) :
    ∀ b ∈ text, isDigit b = true := by
  have all : ∀ (text : List UInt8) {v w : Nat}, text.foldlM (fun v b =>
      if isDigit b then
        let v := v * 10 + (b.toNat - 48)
        if 65535 < v then none else some v
      else none) v = some w → ∀ b ∈ text, isDigit b = true := by
    intro text
    induction text with
    | nil =>
      intro v w _ b member
      cases member
    | cons x text ih =>
      intro v w run b member
      rw [foldlM_cons] at run
      obtain ⟨next, step, rest⟩ := bind_eq_some_iff.mp run
      split at step
      · rename_i digit
        rcases mem_cons.mp member with rfl | later
        · exact digit
        · exact ih rest b later
      · cases step
  rw [parsePort] at accepted
  split at accepted
  · cases accepted
  · exact all text accepted

theorem dropWhile_head {p : UInt8 → Bool} {rest : List UInt8} {x : UInt8}
    (found : l.dropWhile p = x :: rest) : p x = false := by
  have first := head?_dropWhile_not p l
  rw [found] at first
  simpa using first

theorem dropWhile_ne (x : UInt8) (l : List UInt8) :
    (l.dropWhile (fun b => b ≠ x) = [] ∧ x ∉ l) ∨ ∃ rest,
      l.dropWhile (fun b => b ≠ x) = x :: rest ∧
      l = l.takeWhile (fun b => b ≠ x) ++ x :: rest := by
  have whole := takeWhile_append_dropWhile (p := fun b => decide (b ≠ x)) (l := l)
  cases found : l.dropWhile fun b => b ≠ x with
  | nil => exact .inl ⟨rfl, fun member => by simpa using dropWhile_eq_nil_iff.mp found x member⟩
  | cons y rest =>
    have stop : y = x := by simpa using dropWhile_head found
    rw [found, stop] at whole
    exact .inr ⟨rest, by rw [stop], whole.symm⟩

theorem splitPort_spec (b : List UInt8) :
    (splitPort b = (b, none) ∧ colon ∉ b) ∨
    ∃ host text, splitPort b = (host, some text) ∧ b = host ++ colon :: text := by
  rw [splitPort]
  rcases dropWhile_ne colon b.reverse with ⟨found, missing⟩ | ⟨rest, found, whole⟩
  · rw [found]
    exact .inl ⟨rfl, fun member => missing (mem_reverse.mpr member)⟩
  · rw [found]
    refine .inr ⟨_, _, rfl, ?_⟩
    have back := congrArg reverse whole
    simp only [reverse_append, reverse_cons, reverse_reverse] at back
    rw [append_assoc] at back
    exact back

structure Accepted (input : List UInt8) (u : HttpUrl) : Prop where
  host : u.host = (splitPort (afterUserInfo (authorityOf input))).1
  port : ∀ text, (splitPort (afterUserInfo (authorityOf input))).2 = some text →
    ∀ b ∈ text, isDigit b = true
  hostPlain : ∀ b ∈ u.host, control b = false
  pathSome : u.path ≠ []
  pathPlain : ∀ b ∈ u.path, control b = false
  pathSpace : space ∈ u.path ↔ space ∈ targetOf input

theorem any_control (fine : ¬ l.any control = true) : ∀ b ∈ l, control b = false := by
  intro b member
  rw [not_eq_true, List.any_eq_false] at fine
  exact eq_false_iff.mpr (fine b member)

theorem pathOf_spec (rest : List UInt8) :
    (pathOf rest).takeWhile (fun b => b ≠ hash) ≠ [] ∧
    (space ∈ (pathOf rest).takeWhile (fun b => b ≠ hash) ↔
      space ∈ (rest.dropWhile inAuthority).takeWhile fun b => b ≠ hash) := by
  have keeps : ∀ (b : UInt8) (l : List UInt8), b ≠ hash →
      (b :: l).takeWhile (fun b => decide (b ≠ hash)) = b :: l.takeWhile fun b => b ≠ hash := by
    intro b l other
    rw [takeWhile_cons, decide_eq_true other]
    rfl
  rw [pathOf]
  cases tail : rest.dropWhile inAuthority with
  | nil => decide
  | cons b tail =>
    have stop := dropWhile_head tail
    dsimp only
    split
    · rw [keeps slash _ (by decide)]
      simp [show space ≠ slash by decide]
    rename_i plain
    have first : b = slash := by
      rw [head?_cons, some.injEq] at plain
      by_contra other
      simp [inAuthority, other, plain] at stop
    rw [first, keeps slash _ (by decide)]
    exact ⟨cons_ne_nil _ _, Iff.rfl⟩

theorem accepted_of_parseUrl {u : HttpUrl} (accepted : parseUrl input = some u) :
    Accepted input u := by
  obtain ⟨some_path, path_space⟩ := pathOf_spec (stripScheme (trimWs input)).2
  rw [parseUrl] at accepted
  dsimp only at accepted
  split at accepted
  · cases accepted
  obtain ⟨port, portEq, accepted⟩ := bind_eq_some_iff.mp accepted
  split at accepted
  · cases accepted
  split at accepted
  · cases accepted
  rename_i hostPlain
  split at accepted
  · cases accepted
  split at accepted
  · cases accepted
  rename_i pathPlain
  cases accepted
  refine ⟨rfl, ?_, any_control hostPlain, some_path, ?_, path_space⟩
  · intro text textEq
    change (match (splitPort (afterUserInfo (authorityOf input))).2 with
      | some text => parsePort text
      | none => _) = _ at portEq
    rw [textEq] at portEq
    exact parsePort_digits portEq
  · intro b member
    exact any_control pathPlain b (takeWhile_subset _ member)

/-! ## The host -/

theorem control_space (plain : control b = false) (white : isWs b = true) : b = space := by
  simp only [control, isWs, space] at plain white ⊢
  grind

theorem trimWs_parts {c : List UInt8} (plain : ∀ b ∈ c, control b = false) :
    ∃ a z, c = a ++ (trimWs c ++ z) ∧ ∀ b ∈ a ++ z, b = space := by
  have front := takeWhile_append_dropWhile (p := isWs) (l := c)
  have back := takeWhile_append_dropWhile (p := isWs) (l := (c.dropWhile isWs).reverse)
  refine ⟨c.takeWhile isWs, ((c.dropWhile isWs).reverse.takeWhile isWs).reverse, ?_, ?_⟩
  · have turned := congrArg reverse back
    rw [reverse_append, reverse_reverse] at turned
    rw [trimWs, turned, front]
  · intro b member
    rcases mem_append.mp member with first | last
    · exact control_space (plain b (takeWhile_subset _ first)) (mem_takeWhile_imp first)
    rw [mem_reverse] at last
    have inside := mem_reverse.mp (takeWhile_subset _ last)
    exact control_space (plain b (dropWhile_subset _ inside)) (mem_takeWhile_imp last)

theorem withoutPort_port (host : List UInt8) {digits : List UInt8}
    (all : ∀ b ∈ digits, isDigit b = true) :
    withoutPort (host ++ colon :: digits) = withoutPort host := by
  have turned :
      (host ++ colon :: digits).reverse = (digits.reverse ++ [colon]) ++ host.reverse := by
    simp
  have inside : ∀ b ∈ digits.reverse ++ [colon], (isDigit b || decide (b = colon)) = true := by
    intro b member
    rcases mem_append.mp member with digit | last
    · rw [all b (mem_reverse.mp digit)]
      rfl
    · rw [mem_singleton.mp last]
      decide
  rw [withoutPort, withoutPort, portTail, portTail, turned, dropWhile_append_of_pos inside,
    takeWhile_append_of_pos inside]
  congr 1
  rw [reverse_append, reverse_append, reverse_reverse]
  exact takeWhile_stop (by decide) _

theorem withoutPort_eq_iff (host : List UInt8) :
    host = withoutPort host ↔ colon ∉ portTail host := by
  have parts : (host.reverse.dropWhile fun b => isDigit b || b = colon).reverse ++ portTail host =
      host := by
    rw [portTail, ← reverse_append, takeWhile_append_dropWhile, reverse_reverse]
  rw [withoutPort]
  constructor
  · intro same member
    have cut := append_cancel_left (parts.trans same)
    rw [cut] at member
    exact absurd (mem_takeWhile_imp member) (by decide)
  · intro plain
    rw [takeWhile_eq_self_iff.mpr (ne_of_not_mem plain), parts]

theorem mem_withoutPort (member : b ∈ withoutPort host) : b ∈ host := by
  rcases mem_append.mp member with first | last
  · exact mem_reverse.mp (dropWhile_subset _ (mem_reverse.mp first))
  · exact mem_reverse.mp
      (takeWhile_subset _ (mem_reverse.mp (takeWhile_subset _ last)))

theorem mem_urlHost (member : b ∈ urlHost input) : b ≠ space ∧ b ≠ atSign ∧ b ≠ hash := by
  obtain ⟨inside, no_space⟩ := mem_filter.mp (mem_withoutPort member)
  rw [mem_reverse] at inside
  have no_at := mem_takeWhile_imp inside
  have no_hash := mem_takeWhile_imp (mem_reverse.mp (takeWhile_subset _ inside))
  rw [and_eq_true] at no_hash
  exact ⟨of_decide_eq_true no_space, of_decide_eq_true no_at, of_decide_eq_true no_hash.2⟩

theorem afterUserInfo_spec (a : List UInt8) :
    (afterUserInfo a = a ∧ atSign ∉ a) ∨ ∃ user, a = user ++ atSign :: afterUserInfo a := by
  rw [afterUserInfo]
  rcases dropWhile_ne atSign a with ⟨found, missing⟩ | ⟨rest, found, whole⟩
  · rw [found]
    exact .inl ⟨rfl, missing⟩
  · rw [found]
    exact .inr ⟨_, whole⟩

/-- With one `@` at most the user-info ends where the splitter takes its end. -/
theorem afterLast_eq {a : List UInt8} (one : atSign ∉ afterUserInfo a) :
    (a.reverse.takeWhile fun b => b ≠ atSign).reverse = afterUserInfo a := by
  have plain : ∀ b ∈ (afterUserInfo a).reverse, decide (b ≠ atSign) = true :=
    ne_of_not_mem fun member => one (mem_reverse.mp member)
  rcases afterUserInfo_spec a with ⟨same, _⟩ | ⟨user, split⟩
  · rw [same] at plain ⊢
    rw [takeWhile_eq_self_iff.mpr plain, reverse_reverse]
  have turned : a.reverse = (afterUserInfo a).reverse ++ atSign :: user.reverse := by
    conv => lhs; rw [split]
    simp
  rw [turned, takeWhile_word plain (by decide), reverse_reverse]

section Host

variable {input : List UInt8} {u : HttpUrl}

section

variable (accepted : Accepted input u)

include accepted

theorem Accepted.parts : ∃ tail,
    afterUserInfo (authorityOf input) = u.host ++ tail ∧
      (tail = [] ∧ colon ∉ u.host ∨
        ∃ digits, tail = colon :: digits ∧ ∀ b ∈ digits, isDigit b = true) := by
  have port := accepted.port
  rw [accepted.host]
  rcases splitPort_spec (afterUserInfo (authorityOf input)) with ⟨same, plain⟩ |
    ⟨host, text, same, split⟩
  · rw [same]
    exact ⟨[], (append_nil _).symm, .inl ⟨rfl, plain⟩⟩
  · rw [same] at port ⊢
    exact ⟨colon :: text, split, .inr ⟨text, rfl, port text rfl⟩⟩

theorem Accepted.hostPart : hostPart input = trimWs u.host := by
  rw [accepted.host]
  rfl

theorem Accepted.mem_hostPart {b : UInt8}
    (member : b ∈ afterUserInfo (authorityOf input)) (other : b ≠ colon ∧ b ≠ space)
    (no_digit : isDigit b = false) : b ∈ Http.hostPart input := by
  obtain ⟨tail, split, ends⟩ := accepted.parts
  obtain ⟨a, z, whole, spaces⟩ := trimWs_parts accepted.hostPlain
  have inside : b ∈ u.host := by
    rw [split] at member
    rcases mem_append.mp member with here | later
    · exact here
    rcases ends with ⟨rfl, _⟩ | ⟨digits, rfl, all⟩
    · cases later
    rcases mem_cons.mp later with same | digit
    · exact absurd same other.1
    · rw [all b digit] at no_digit
      cases no_digit
  rw [accepted.hostPart]
  rw [whole] at inside
  rcases mem_append.mp inside with first | rest
  · exact absurd (spaces b (mem_append_left _ first)) other.2
  rcases mem_append.mp rest with here | last
  · exact here
  · exact absurd (spaces b (mem_append_right _ last)) other.2

/-- An authority without a fragment and a second `@`: its host is what is left without
spaces and ports. -/
theorem Accepted.urlHost_eq (no_hash : hash ∉ authorityOf input)
    (one : atSign ∉ afterUserInfo (authorityOf input)) (plain : space ∉ Http.hostPart input) :
    urlHost input = withoutPort (Http.hostPart input) := by
  obtain ⟨tail, split, ends⟩ := accepted.parts
  obtain ⟨a, z, whole, spaces⟩ := trimWs_parts accepted.hostPlain
  rw [← accepted.hostPart] at whole
  have authority : (hierarchy input).takeWhile (fun b => inAuthority b && b ≠ hash) =
      authorityOf input := by
    have inner := takeWhile_eq_self_iff.mpr (ne_of_not_mem no_hash)
    rw [authorityOf, takeWhile_takeWhile] at inner
    rw [authorityOf, ← inner]
    congr 1
    simp [Bool.and_comm]
  have none : ∀ l : List UInt8, (∀ b ∈ l, b = space) →
      l.filter (fun b => decide (b ≠ space)) = [] := by
    intro l all
    rw [filter_eq_nil_iff]
    intro b member
    rw [all b member]
    decide
  have host : u.host.filter (fun b => decide (b ≠ space)) = Http.hostPart input := by
    rw [whole, filter_append, filter_append,
      none a fun b member => spaces b (mem_append_left _ member),
      none z fun b member => spaces b (mem_append_right _ member),
      filter_eq_self.mpr (ne_of_not_mem plain)]
    simp
  rw [urlHost, authority, afterLast_eq one, split, filter_append, host]
  rcases ends with ⟨rfl, _⟩ | ⟨digits, rfl, all⟩
  · rw [filter_nil, append_nil]
  have kept : (colon :: digits).filter (fun b => decide (b ≠ space)) = colon :: digits := by
    rw [filter_eq_self]
    intro b member
    rw [decide_eq_true_eq]
    rintro rfl
    rcases mem_cons.mp member with same | digit
    · exact absurd same (by decide)
    · exact absurd (all space digit) (by decide)
  rw [kept, withoutPort_port _ all]

/-- The host that is sent is the host of the URL. -/
theorem Accepted.host_iff :
    Http.hostPart input = urlHost input ↔
      (hash ∉ authorityOf input ∧ atSign ∉ afterUserInfo (authorityOf input) ∧
          space ∉ Http.hostPart input ∧ colon ∉ portTail (Http.hostPart input) ∨
        hash ∈ authorityOf input ∧ hash ∉ afterUserInfo (authorityOf input) ∧
          Http.hostPart input = urlHost input) := by
  constructor
  · intro same
    have clean : ∀ b ∈ Http.hostPart input, b ≠ space ∧ b ≠ atSign ∧ b ≠ hash := by
      intro b member
      rw [same] at member
      exact mem_urlHost member
    have no_at : atSign ∉ afterUserInfo (authorityOf input) := fun member =>
      (clean _ (accepted.mem_hostPart member (by decide) (by decide))).2.1 rfl
    have no_hash : hash ∉ afterUserInfo (authorityOf input) := fun member =>
      (clean _ (accepted.mem_hostPart member (by decide) (by decide))).2.2 rfl
    by_cases fragment : hash ∈ authorityOf input
    · exact .inr ⟨fragment, no_hash, same⟩
    have no_space : space ∉ Http.hostPart input := fun member => (clean _ member).1 rfl
    refine .inl ⟨fragment, no_at, no_space, ?_⟩
    rw [← withoutPort_eq_iff, ← accepted.urlHost_eq fragment no_at no_space]
    exact same
  · rintro (⟨fragment, no_at, no_space, no_port⟩ | ⟨_, _, same⟩)
    · rw [accepted.urlHost_eq fragment no_at no_space]
      exact (withoutPort_eq_iff _).mpr no_port
    · exact same

end

end Host

theorem not_mem_cr (plain : ∀ b ∈ l, control b = false) : cr ∉ l :=
  fun member => absurd (plain cr member) (by decide)

/-- The message of an accepted URL is read back as it was meant for the plain ones only. -/
theorem request_integrity {input name msg : List UInt8} {u : HttpUrl} {m : Int}
    {body : Option (List UInt8)} (accepted : parseUrl input = some u)
    (supported : methodBytes m = some name)
    (built : buildRequest m u.host u.path none body = some msg) :
    ParsesBack input name u.path msg body ↔ Plain input := by
  have spec := accepted_of_parseUrl accepted
  rw [parsesBack_iff supported built spec.pathSome (not_mem_cr spec.hostPlain)
    (not_mem_cr spec.pathPlain), spec.pathSpace, ← spec.hostPart, spec.host_iff, Plain]

/-- What `GET` sends to the host `h`. -/
def getMessage (path : List UInt8) : List UInt8 :=
  ascii "GET " ++ path ++ ascii " HTTP/1.1\r\nHost: h\r\nUser-Agent: CactKernel/2.0 (i686)\r\n" ++
    ascii "Accept: */*\r\nConnection: close\r\n\r\n"

theorem request_integrity_get :
    ParsesBack (ascii "http://u@h:80/a?b#c") (ascii "GET") (ascii "/a?b")
      (getMessage (ascii "/a?b"))
      none :=
  (request_integrity (u := ⟨false, ascii "h", 80, ascii "/a?b"⟩) (m := 1) (by decide) rfl
    (by decide)).mpr (by decide)

/-- A space in the path: four tokens in the request line. -/
theorem space_in_path :
    parseUrl (ascii "http://h/a b") = some ⟨false, ascii "h", 80, ascii "/a b"⟩ ∧
    buildRequest 1 (ascii "h") (ascii "/a b") none none = some (getMessage (ascii "/a b")) ∧
    ¬ ParsesBack (ascii "http://h/a b") (ascii "GET") (ascii "/a b") (getMessage (ascii "/a b"))
      none := by
  have built : buildRequest 1 (ascii "h") (ascii "/a b") none none =
      some (getMessage (ascii "/a b")) := by decide
  refine ⟨by decide, built, fun back => ?_⟩
  have both := (parsesBack_iff rfl built (by decide) (by decide) (by decide)).mp back
  exact both.1 (by decide)

end CactKernel.Http
