import CactKernel.Http.Framing

/-! # Reading does not depend on the cuts

The reading loop is a scanner for the header and the body that is resumed after every pull.
It settles on what the first `MAX_RESPONSE_BYTES` bytes of the stream say, however the
stream is cut into pulls. -/

set_option autoImplicit false

namespace CactKernel.Http

open Lib List Option Nat

/-! ## The scanner of a response -/

/-- What the header says. -/
structure Frame where
  hdrEnd : Nat
  status : Nat
  chunked : Bool
  contentLen : Option Nat

inductive Phase
  | header
  | body (f : Frame) (sc : ChunkScanner)

/-- The frame from a header of `i` bytes. -/
def frameOf (b : List UInt8) (i : Nat) : Frame :=
  ⟨i + 4, parseStatusLine (b.take i), (parseHeaders (b.take i)).2, (parseHeaders (b.take i)).1⟩

/-- The end of a body that is complete. -/
def bodyStep (b : List UInt8) (f : Frame) (sc : ChunkScanner) :
    Outcome Phase (Option (Frame × Nat)) :=
  if b.length < f.hdrEnd then .wait
  else
    match f.contentLen with
    | some cl =>
      if f.hdrEnd + min cl maxResponseBytes ≤ b.length then
        .stop (some (f, f.hdrEnd + min cl maxResponseBytes))
      else .wait
    | none =>
      if f.chunked then
        match chunkStep (b.drop f.hdrEnd) sc with
        | .wait => .wait
        | .next sc => .next (.body f sc)
        | .stop e => .stop (e.map fun e => (f, f.hdrEnd + e))
      else .wait

/-- A result is the frame and the end of the body, or none for an error. -/
def responseStep (b : List UInt8) : Phase → Outcome Phase (Option (Frame × Nat))
  | .header =>
    match findHeaderEnd b with
    | none => .wait
    | some i =>
      if (frameOf b i).status = 0 ∨ maxHeaderBytes < i + 4 then .stop none
      else .next (.body (frameOf b i) ⟨0, false⟩)
  | .body f sc => bodyStep b f sc

variable {b : List UInt8} {f : Frame} {e : Nat} {o : Phase ⊕ Option (Frame × Nat)}

theorem frameOf_append {i : Nat} (inside : i ≤ b.length) (c : List UInt8) :
    frameOf (b ++ c) i = frameOf b i := by
  rw [frameOf, frameOf, take_append_of_le_length inside]

section BodyStep

variable {b : List UInt8} {f : Frame} {sc : ChunkScanner}

theorem bodyStep_length {cl : Nat} (inside : f.hdrEnd ≤ b.length)
    (length : f.contentLen = some cl) :
    bodyStep b f sc = if f.hdrEnd + min cl maxResponseBytes ≤ b.length then
      .stop (some (f, f.hdrEnd + min cl maxResponseBytes)) else .wait := by
  rw [bodyStep, if_neg (Nat.not_lt.mpr inside), length]

theorem bodyStep_chunked (inside : f.hdrEnd ≤ b.length) (length : f.contentLen = none)
    (chunked : f.chunked = true) :
    bodyStep b f sc = match chunkStep (b.drop f.hdrEnd) sc with
      | .wait => .wait
      | .next sc => .next (.body f sc)
      | .stop e => .stop (e.map fun e => (f, f.hdrEnd + e)) := by
  rw [bodyStep, if_neg (Nat.not_lt.mpr inside), length]
  rw [if_pos chunked]

theorem bodyStep_plain (inside : f.hdrEnd ≤ b.length) (length : f.contentLen = none)
    (plain : f.chunked = false) : bodyStep b f sc = .wait := by
  rw [bodyStep, if_neg (Nat.not_lt.mpr inside), length]
  rw [plain]
  rfl

theorem bodyStep_stable (goes : bodyStep b f sc ≠ .wait) (c : List UInt8) :
    bodyStep (b ++ c) f sc = bodyStep b f sc := by
  have inside : f.hdrEnd ≤ b.length := by
    by_contra outside
    rw [bodyStep, if_pos (by omega)] at goes
    exact goes rfl
  have longer : f.hdrEnd ≤ (b ++ c).length := by
    rw [length_append]
    omega
  cases length : f.contentLen with
  | some cl =>
    rw [bodyStep_length inside length] at goes
    have there : f.hdrEnd + min cl maxResponseBytes ≤ b.length := by
      by_contra short
      rw [if_neg short] at goes
      exact goes rfl
    rw [bodyStep_length longer length, bodyStep_length inside length, if_pos there,
      if_pos (by rw [length_append]; omega)]
  | none =>
    cases chunked : f.chunked with
    | false => rw [bodyStep_plain longer length chunked, bodyStep_plain inside length chunked]
    | true =>
      rw [bodyStep_chunked inside length chunked] at goes
      have moves : chunkStep (b.drop f.hdrEnd) sc ≠ .wait := by
        intro waits
        rw [waits] at goes
        exact goes rfl
      rw [bodyStep_chunked longer length chunked, bodyStep_chunked inside length chunked,
        drop_append_of_le_length inside, chunkStep_stable moves]

end BodyStep

theorem responseStep_stable {s : Phase} (goes : responseStep b s ≠ .wait) (c : List UInt8) :
    responseStep (b ++ c) s = responseStep b s := by
  cases s with
  | header =>
    rw [responseStep] at goes
    rw [responseStep, responseStep]
    cases found : findHeaderEnd b with
    | none =>
      rw [found] at goes
      exact absurd rfl goes
    | some i =>
      obtain ⟨still, inside⟩ := (findHeaderEnd_append c).mp found
      rw [still]
      dsimp only
      rw [frameOf_append (by omega)]
  | body f sc => exact bodyStep_stable goes c

def response : Resume UInt8 Phase (Option (Frame × Nat)) := ⟨responseStep, responseStep_stable⟩

variable {sc : ChunkScanner} {raw body p : List UInt8}

theorem settles_chunks (inside : f.hdrEnd ≤ b.length) (no_length : f.contentLen = none)
    (chunked : f.chunked = true) {e : ChunkScanner ⊕ Option Nat}
    (settles : chunkResume.Settles (b.drop f.hdrEnd) sc e) :
    response.Settles b (.body f sc) (e.map (Phase.body f) fun r =>
      r.map fun e => (f, f.hdrEnd + e)) := by
  have step : ∀ sc, responseStep b (.body f sc) = _ :=
    fun _ => bodyStep_chunked inside no_length chunked
  induction settles with
  | @wait sc waits =>
    refine .wait ?_
    change responseStep b (.body f sc) = _
    change chunkStep _ _ = _ at waits
    rw [step, waits]
  | @stop sc r stops =>
    refine .stop ?_
    change responseStep b (.body f sc) = _
    change chunkStep _ _ = _ at stops
    rw [step, stops]
  | @next sc sc' e goes _ ih =>
    refine .next ?_ ih
    change responseStep b (.body f sc) = _
    change chunkStep _ _ = _ at goes
    rw [step, goes]

/-! ## The loop -/

def Reading.frame (r : Reading) (he : Nat) : Frame := ⟨he, r.status, r.chunked, r.contentLen⟩

def Reading.phase (r : Reading) : Phase :=
  match r.hdrEnd with
  | none => .header
  | some he => .body (r.frame he) r.scanner

/-- The end of the headers and the scanner are inside of what has arrived. -/
def Reading.Inside (r : Reading) : Prop :=
  ∀ he ∈ r.hdrEnd, he ≤ r.raw.length ∧ r.scanner.off ≤ (r.raw.drop he).length

/-- The headers are not complete unless they were found. -/
def Reading.Searched (r : Reading) : Prop :=
  r.hdrEnd = none → findHeaderEnd r.raw = none ∧ r.scanner = ⟨0, false⟩

/-- What a round of the loop finds out. -/
inductive Found (s : Phase) : ChunkStatus × Reading → Prop
  | complete {r : Reading} {he e : Nat} (header : r.hdrEnd = some he)
      (settles : response.Settles r.raw s (.inr (some (r.frame he, e)))) : Found s (.complete, r)
  | error {r : Reading} (settles : response.Settles r.raw s (.inr none)) : Found s (.error, r)
  | incomplete {r : Reading} (settles : response.Settles r.raw s (.inl r.phase))
      (inside : r.Inside) (searched : r.Searched) : Found s (.incomplete, r)

variable {r : Reading}

theorem readBody_spec (inside : r.Inside) (searched : r.Searched) :
    ∃ found, readBody r = some found ∧ Found r.phase found ∧ found.2.raw = r.raw := by
  obtain ⟨raw, hdrEnd, status, chunked, contentLen, scanner⟩ := r
  cases hdrEnd with
  | none =>
    refine ⟨_, rfl, .incomplete (.wait ?_) inside searched, rfl⟩
    have none : findHeaderEnd raw = none := (searched rfl).1
    change responseStep raw .header = _
    rw [responseStep, none]
  | some he =>
    obtain ⟨within, off⟩ : he ≤ raw.length ∧ scanner.off ≤ (raw.drop he).length :=
      inside he rfl
    have step : ∀ {o}, bodyStep raw ⟨he, status, chunked, contentLen⟩ scanner = o →
        responseStep raw (.body ⟨he, status, chunked, contentLen⟩ scanner) = o := id
    cases contentLen with
    | some cl =>
      refine ⟨_, rfl, ?_, rfl⟩
      have here := step (bodyStep_length within rfl)
      split
      · rename_i there
        rw [if_pos there] at here
        exact .complete rfl (.stop here)
      · rename_i short
        rw [if_neg short] at here
        exact .incomplete (.wait here) inside nofun
    | none =>
      cases chunked with
      | false =>
        exact ⟨_, rfl, .incomplete (.wait (step (bodyStep_plain within rfl rfl))) inside nofun, rfl⟩
      | true =>
        obtain ⟨⟨status', sc⟩, run, scanned⟩ := chunkedScan_spec off
        refine ⟨(status', ⟨raw, some he, status, true, none, sc⟩), ?_, ?_, rfl⟩
        · rw [readBody]
          dsimp only
          rw [if_pos rfl, run]
          rfl
        · have lift : ∀ {e}, chunkResume.Settles (raw.drop he) scanner e →
              response.Settles raw (.body ⟨he, status, true, none⟩ scanner) _ :=
            fun settles => settles_chunks (f := ⟨he, status, true, none⟩) within rfl rfl settles
          cases scanned with
          | complete settles => exact .complete rfl (lift settles)
          | error settles => exact .error (lift settles)
          | incomplete settles off' =>
            refine .incomplete (lift settles) ?_ nofun
            intro he' same
            cases same
            exact ⟨within, off'⟩

theorem findHeaderEnd_new (none : findHeaderEnd raw = none) (data : List UInt8) :
    (findHeaderEnd
      ((raw ++ data).drop (min ((raw ++ data).length - (data.length + 3)) raw.length))).map
      (min ((raw ++ data).length - (data.length + 3)) raw.length + ·) =
        findHeaderEnd (raw ++ data) := by
  have start : min ((raw ++ data).length - (data.length + 3)) raw.length = raw.length - 3 := by
    rw [length_append]
    omega
  rw [start]
  exact (findHeaderEnd_drop data _ none (by omega)).symm

theorem readHeader_spec (inside : r.Inside) (searched : r.Searched) (data : List UInt8) :
    (readHeader { r with raw := r.raw ++ data } r.raw.length data.length = none ∧
      response.Settles (r.raw ++ data) r.phase (.inr none)) ∨
    ∃ r', readHeader { r with raw := r.raw ++ data } r.raw.length data.length = some r' ∧
      r'.raw = r.raw ++ data ∧ r'.Inside ∧ r'.Searched ∧
      ∀ e, response.Settles (r.raw ++ data) r'.phase e →
        response.Settles (r.raw ++ data) r.phase e := by
  obtain ⟨raw, hdrEnd, status, chunked, contentLen, scanner⟩ := r
  cases hdrEnd with
  | some he =>
    right
    refine ⟨_, rfl, rfl, ?_, nofun, fun e settles => settles⟩
    intro he' same
    obtain ⟨within, off⟩ : he' ≤ raw.length ∧ scanner.off ≤ (raw.drop he').length :=
      inside he' same
    rw [length_drop] at off
    change he' ≤ (raw ++ data).length ∧ scanner.off ≤ ((raw ++ data).drop he').length
    rw [length_drop, length_append]
    omega
  | none =>
    obtain ⟨missing, start⟩ : findHeaderEnd raw = none ∧ scanner = ⟨0, false⟩ := searched rfl
    subst start
    have whole := findHeaderEnd_new missing data
    rw [readHeader]
    dsimp only
    cases found : findHeaderEnd ((raw ++ data).drop
        (min ((raw ++ data).length - (data.length + 3)) raw.length)) with
    | none =>
      rw [found] at whole
      exact .inr ⟨_, rfl, rfl, nofun, fun _ => ⟨whole.symm, rfl⟩, fun e settles => settles⟩
    | some rel =>
      rw [found, map_some] at whole
      dsimp only
      generalize min ((raw ++ data).length - (data.length + 3)) raw.length + rel = i at whole ⊢
      have here := findHeaderEnd_le whole.symm
      have step : responseStep (raw ++ data) .header =
          if (frameOf (raw ++ data) i).status = 0 ∨ maxHeaderBytes < i + 4 then .stop none
          else .next (.body (frameOf (raw ++ data) i) ⟨0, false⟩) := by
        rw [responseStep, ← whole]
      split
      · rename_i zero
        rw [if_pos (.inl zero)] at step
        exact .inl ⟨rfl, .stop step⟩
      rename_i status
      split
      · rename_i long
        rw [if_pos (.inr long)] at step
        exact .inl ⟨rfl, .stop step⟩
      rename_i short
      have fine : ¬ ((frameOf (raw ++ data) i).status = 0 ∨ maxHeaderBytes < i + 4) :=
        fun either => either.elim status short
      rw [if_neg fine] at step
      refine .inr ⟨_, rfl, rfl, ?_, nofun, fun e settles => .next step settles⟩
      intro he same
      cases same
      exact ⟨here, zero_le _⟩

variable {source : List (List UInt8)}

theorem pull_spec (want : Nat) (positive : 0 < want)
    (pieces : ∀ piece ∈ source, piece ≠ []) :
    source.flatten = (pull want source).1 ++ (pull want source).2.flatten ∧
    (pull want source).1.length ≤ want ∧ (∀ piece ∈ (pull want source).2, piece ≠ []) ∧
    ((pull want source).1 = [] → source = []) := by
  cases source with
  | nil => exact ⟨rfl, zero_le _, nofun, fun _ => rfl⟩
  | cons piece rest =>
    have nonempty : piece ≠ [] := pieces piece mem_cons_self
    have later : ∀ p ∈ rest, p ≠ [] := fun p member => pieces p (mem_cons_of_mem _ member)
    rw [pull]
    split
    · rename_i short
      exact ⟨rfl, short, later, fun empty => absurd empty nonempty⟩
    rename_i long
    refine ⟨?_, ?_, ?_, ?_⟩
    · simp only [flatten_cons]
      rw [← append_assoc, take_append_drop]
    · exact length_take_le _ _
    · intro p member
      rcases mem_cons.mp member with first | other
      · rw [first]
        intro empty
        rw [drop_eq_nil_iff] at empty
        exact long empty
      · exact later p other
    · intro empty
      have length := congrArg length empty
      rw [length_take, length_nil] at length
      omega

/-- The verdict that the first bytes of the stream ask for; `full` says that they are all that
is ever read. -/
inductive Settled (p : List UInt8) (full : Bool) : Verdict → Prop
  | error (settles : response.Settles p .header (.inr none)) : Settled p full (.error false)
  | complete {raw : List UInt8} {f : Frame} {e : Nat} (part : raw <+: p)
      (settles : response.Settles raw .header (.inr (some (f, e)))) :
      Settled p full (.ok ⟨raw, f.hdrEnd, f.status, f.chunked, f.contentLen⟩ false)
  | noHeader (settles : response.Settles p .header (.inl .header)) :
      Settled p full (.error full)
  | unfinished {f : Frame} {sc : ChunkScanner}
      (settles : response.Settles p .header (.inl (.body f sc))) :
      Settled p full (.ok ⟨p, f.hdrEnd, f.status, f.chunked, f.contentLen⟩ full)

/-- The loop so far: the scanner has been resumed from the start, and waits. -/
structure Reading.Law (r : Reading) : Prop where
  inside : r.Inside
  searched : r.Searched
  short : r.raw.length ≤ maxResponseBytes
  resumed : response.Settles r.raw .header (.inl r.phase)

theorem finish_settled {full : Bool} (law : r.Law) : Settled r.raw full (finish r full) := by
  have settles := law.resumed
  rw [finish]
  rw [Reading.phase] at settles
  cases header : r.hdrEnd with
  | none =>
    rw [header] at settles
    exact .noHeader settles
  | some he =>
    rw [header] at settles
    exact .unfinished settles

theorem Reading.Law.start : Reading.start.Law :=
  ⟨nofun, fun _ => ⟨rfl, rfl⟩, zero_le _, .wait rfl⟩

/-- What a round of the loop does with the bytes that it pulls. -/
inductive Round (fuel : Nat) (rest : List (List UInt8)) (data raw : List UInt8) :
    Option Verdict → Prop
  | error (settles : response.Settles raw .header (.inr none)) :
      Round fuel rest data raw (some (.error false))
  | complete {f : Frame} {e : Nat} (settles : response.Settles raw .header (.inr (some (f, e)))) :
      Round fuel rest data raw
        (some (.ok ⟨raw, f.hdrEnd, f.status, f.chunked, f.contentLen⟩ false))
  | closed {r : Reading} (law : r.Law) (same : r.raw = raw) (none : data = []) :
      Round fuel rest data raw (some (finish r false))
  | next {r : Reading} (law : r.Law) (same : r.raw = raw) (some : data ≠ []) :
      Round fuel rest data raw (readLoop fuel rest r)

theorem readLoop_round (fuel : Nat) (law : r.Law)
    (space : ¬ maxResponseBytes ≤ r.raw.length) {data : List UInt8} {rest : List (List UInt8)}
    (pulled : pull (min (maxResponseBytes - r.raw.length) 4096) source = (data, rest))
    (arrived : (r.raw ++ data).length ≤ maxResponseBytes) :
    Round fuel rest data (r.raw ++ data) (readLoop (fuel + 1) source r) := by
  have from_start : ∀ {e}, response.Settles (r.raw ++ data) r.phase e →
      response.Settles (r.raw ++ data) .header e := fun settles => law.resumed.resumed settles
  rw [readLoop, if_neg space]
  dsimp only
  rw [pulled]
  rcases readHeader_spec law.inside law.searched data with ⟨failed, settles⟩ |
    ⟨r', run, raw', inside', searched', back⟩
  · rw [failed]
    exact .error (from_start settles)
  obtain ⟨found, body, about, same⟩ := readBody_spec inside' searched'
  rw [run]
  dsimp only
  rw [body, bind_some]
  rw [raw'] at same
  cases about with
  | @complete r₁ he e header settles =>
    rw [same] at settles
    change Round _ _ _ _ (some (finish r₁ false))
    rw [finish, header]
    rw [same]
    exact Round.complete (f := r₁.frame he) (from_start (back _ settles))
  | error settles =>
    dsimp only at same
    rw [same] at settles
    exact .error (from_start (back _ settles))
  | @incomplete r₁ settles inside₁ searched₁ =>
    dsimp only at same ⊢
    rw [same] at settles
    have law₁ : r₁.Law :=
      ⟨inside₁, searched₁, same ▸ arrived, by rw [same]; exact from_start (back _ settles)⟩
    split
    · rename_i empty
      exact .closed law₁ same (length_eq_zero_iff.mp empty)
    · rename_i filled
      exact .next law₁ same fun empty => filled (length_eq_zero_iff.mpr empty)

theorem Reading.Law.full (law : r.Law) (filled : maxResponseBytes ≤ r.raw.length)
    (later : List UInt8) : (r.raw ++ later).take maxResponseBytes = r.raw := by
  rw [show maxResponseBytes = r.raw.length by have := law.short; omega, take_left]

/-- A round of the loop and the bytes that it pulls. -/
structure Pulled (fuel : Nat) (source : List (List UInt8)) (r : Reading) (data : List UInt8)
    (rest : List (List UInt8)) : Prop where
  pulled : pull (min (maxResponseBytes - r.raw.length) 4096) source = (data, rest)
  later : ∀ piece ∈ rest, piece ≠ []
  whole : r.raw ++ source.flatten = (r.raw ++ data) ++ rest.flatten
  part : r.raw ++ data <+: (r.raw ++ source.flatten).take maxResponseBytes
  ends : data = [] → source = [] ∧
    (r.raw ++ source.flatten).take maxResponseBytes = r.raw ++ data
  fewer : data ≠ [] → rest.flatten.length + 1 < fuel
  round : Round fuel rest data (r.raw ++ data) (readLoop (fuel + 1) source r)

theorem readLoop_pulled {fuel : Nat} (law : r.Law)
    (pieces : ∀ piece ∈ source, piece ≠ []) (enough : source.flatten.length + 1 < fuel + 1)
    (space : ¬ maxResponseBytes ≤ r.raw.length) : ∃ data rest, Pulled fuel source r data rest := by
  obtain ⟨split, length, later, ends⟩ := pull_spec
    (min (maxResponseBytes - r.raw.length) 4096) (by omega) pieces
  generalize pulled : pull (min (maxResponseBytes - r.raw.length) 4096) source = taken
    at split length later ends
  obtain ⟨data, rest⟩ := taken
  dsimp only at split length later ends
  have arrived : (r.raw ++ data).length ≤ maxResponseBytes := by
    rw [length_append]
    omega
  have whole : r.raw ++ source.flatten = (r.raw ++ data) ++ rest.flatten := by
    rw [split, append_assoc]
  refine ⟨data, rest, pulled, later, whole, ?_, ?_, ?_,
    readLoop_round fuel law space pulled arrived⟩
  · rw [whole, prefix_take_iff]
    exact ⟨prefix_append _ _, arrived⟩
  · intro none
    rw [ends none, none, flatten_nil, append_nil]
    exact ⟨rfl, take_of_length_le law.short⟩
  · intro some
    have positive := length_pos_iff.mpr some
    rw [split, length_append] at enough
    omega

theorem readLoop_spec (fuel : Nat) {source : List (List UInt8)} {r : Reading} (law : r.Law)
    (pieces : ∀ piece ∈ source, piece ≠ []) (enough : source.flatten.length + 1 < fuel) :
    ∃ v, readLoop fuel source r = some v ∧
      Settled ((r.raw ++ source.flatten).take maxResponseBytes)
        (maxResponseBytes ≤ (r.raw ++ source.flatten).length) v := by
  induction fuel generalizing source r with
  | zero => omega
  | succ fuel ih =>
    by_cases filled : maxResponseBytes ≤ r.raw.length
    · have all : maxResponseBytes ≤ (r.raw ++ source.flatten).length := by
        rw [length_append]
        omega
      rw [readLoop, if_pos filled, law.full filled, decide_eq_true all]
      exact ⟨_, rfl, finish_settled law⟩
    · obtain ⟨data, rest, -, later, whole, part, ends, fewer, round⟩ :=
        readLoop_pulled law pieces enough filled
      generalize readLoop (fuel + 1) source r = answer at round ⊢
      cases round with
      | error settles =>
        obtain ⟨missing, missing_eq⟩ := part
        refine ⟨_, rfl, .error ?_⟩
        rw [← missing_eq]
        exact settles.stopped missing
      | complete settles => exact ⟨_, rfl, .complete part settles⟩
      | @closed r₁ law₁ same none =>
        obtain ⟨closed, last⟩ := ends none
        have below : ¬ maxResponseBytes ≤ (r.raw ++ source.flatten).length := by
          rw [closed, flatten_nil, append_nil]
          exact filled
        refine ⟨_, rfl, ?_⟩
        rw [last, ← same, decide_eq_false below]
        exact finish_settled law₁
      | @next r₁ law₁ same some =>
        obtain ⟨v, run, settled⟩ := ih law₁ later (fewer some)
        refine ⟨v, run, ?_⟩
        rw [whole, ← same]
        exact settled

theorem readRawResponse_spec (pieces : ∀ piece ∈ source, piece ≠ []) :
    ∃ v, readRawResponse source = some v ∧
      Settled (source.flatten.take maxResponseBytes)
        (maxResponseBytes ≤ source.flatten.length) v := by
  obtain ⟨v, run, settled⟩ := readLoop_spec (source.flatten.length + 2) Reading.Law.start pieces
    (by omega)
  exact ⟨v, run, settled⟩

/-! ## The entity -/

def chunkedEndFrom (body : List UInt8) : Nat → ChunkScanner → Option Nat
  | 0, _ => none
  | fuel + 1, sc =>
    match chunkStep body sc with
    | .wait => none
    | .next sc => chunkedEndFrom body fuel sc
    | .stop e => e

def chunkedEnd (body : List UInt8) : Option Nat :=
  chunkedEndFrom body (body.length + 1) ⟨0, false⟩

/-- The bytes of the body as they were sent, without what follows it. -/
def RawResp.entity (rr : RawResp) : List UInt8 :=
  let body := rr.raw.drop rr.hdrEnd
  match rr.contentLen with
  | some cl => body.take cl
  | none => if rr.chunked then body.take ((chunkedEnd body).getD body.length) else body

theorem chunkedEndFrom_eq (fuel : Nat) (enough : body.length - sc.off < fuel)
    (settles : chunkResume.Settles body sc (.inr (some e))) :
    chunkedEndFrom body fuel sc = some e ∧ e ≤ body.length := by
  induction fuel generalizing sc with
  | zero => omega
  | succ fuel ih =>
    rw [chunkedEndFrom]
    cases settles with
    | stop stops =>
      change chunkStep body sc = _ at stops
      rw [stops]
      exact ⟨rfl, (chunkStep_stop stops).2⟩
    | @next _ sc' _ goes rest =>
      change chunkStep body sc = _ at goes
      obtain ⟨moved, inside⟩ := chunkStep_next goes
      rw [goes]
      exact ih (by omega) rest

theorem chunkedEnd_eq (settles : chunkResume.Settles body ⟨0, false⟩ (.inr (some e))) :
    chunkedEnd body = some e ∧ e ≤ body.length :=
  chunkedEndFrom_eq (body.length + 1) (by dsimp only; omega) settles

theorem settles_body (inside : f.hdrEnd ≤ b.length) (off : sc.off ≤ (b.drop f.hdrEnd).length)
    (settles : response.Settles b (.body f sc) o) :
    (∃ cl, f.contentLen = some cl ∧ o = if f.hdrEnd + min cl maxResponseBytes ≤ b.length then
        .inr (some (f, f.hdrEnd + min cl maxResponseBytes)) else .inl (.body f sc)) ∨
    (f.contentLen = none ∧ f.chunked = false ∧ o = .inl (.body f sc)) ∨
    (f.contentLen = none ∧ f.chunked = true ∧ ∃ e,
      chunkResume.Settles (b.drop f.hdrEnd) sc e ∧
        o = e.map (Phase.body f) fun r => r.map fun e => (f, f.hdrEnd + e)) := by
  cases length : f.contentLen with
  | some cl =>
    refine .inl ⟨cl, rfl, settles.unique ?_⟩
    have step : responseStep b (.body f sc) = _ := bodyStep_length inside length
    split
    · rename_i there
      rw [if_pos there] at step
      exact .stop step
    · rename_i short
      rw [if_neg short] at step
      exact .wait step
  | none =>
    cases chunked : f.chunked with
    | false =>
      exact .inr (.inl ⟨rfl, rfl,
        settles.unique (.wait (bodyStep_plain inside length chunked))⟩)
    | true =>
      refine .inr (.inr ⟨rfl, rfl, ?_⟩)
      obtain ⟨_, _, scanned⟩ := chunkedScan_spec off
      have lift : ∀ {e}, chunkResume.Settles (b.drop f.hdrEnd) sc e → _ :=
        fun settles => settles_chunks inside length chunked settles
      cases scanned with
      | complete found | error found
      | incomplete found _ => exact ⟨_, found, settles.unique (lift found)⟩

theorem settles_header (settles : response.Settles b .header o) :
    (findHeaderEnd b = none ∧ o = .inl .header) ∨
    ∃ i, findHeaderEnd b = some i ∧ i + 4 ≤ b.length ∧
      (((frameOf b i).status = 0 ∨ maxHeaderBytes < i + 4) ∧ o = .inr none ∨
        ¬ ((frameOf b i).status = 0 ∨ maxHeaderBytes < i + 4) ∧
          response.Settles b (.body (frameOf b i) ⟨0, false⟩) o) := by
  have step : responseStep b .header = _ := responseStep.eq_1 b
  cases found : findHeaderEnd b with
  | none =>
    rw [found] at step
    exact .inl ⟨rfl, settles.unique (.wait step)⟩
  | some i =>
    rw [found] at step
    refine .inr ⟨i, rfl, findHeaderEnd_le found, ?_⟩
    dsimp only at step
    by_cases bad : (frameOf b i).status = 0 ∨ maxHeaderBytes < i + 4
    · rw [if_pos bad] at step
      exact .inl ⟨bad, settles.unique (.stop step)⟩
    rw [if_neg bad] at step
    refine .inr ⟨bad, ?_⟩
    cases settles with
    | wait waits =>
      change responseStep b .header = _ at waits
      rw [step] at waits
      cases waits
    | stop stops =>
      change responseStep b .header = _ at stops
      rw [step] at stops
      cases stops
    | next goes rest =>
      change responseStep b .header = _ at goes
      rw [step] at goes
      cases goes
      exact rest

/-- A header that is accepted. -/
structure HeadAt (b : List UInt8) (f : Frame) (i : Nat) : Prop where
  found : findHeaderEnd b = some i
  frame : f = frameOf b i
  fine : ¬ (f.status = 0 ∨ maxHeaderBytes < f.hdrEnd)

theorem HeadAt.inside {i : Nat} (head : HeadAt b f i) : 4 ≤ f.hdrEnd ∧ f.hdrEnd ≤ b.length := by
  rw [head.frame]
  exact ⟨le_add_left 4 i, findHeaderEnd_le head.found⟩

/-- What can come of a stream. -/
inductive Read (b : List UInt8) : Phase ⊕ Option (Frame × Nat) → Prop
  | noHeader (none : findHeaderEnd b = none) : Read b (.inl .header)
  | badHeader {i : Nat} (found : findHeaderEnd b = some i)
      (bad : (frameOf b i).status = 0 ∨ maxHeaderBytes < i + 4) : Read b (.inr none)
  | whole {f : Frame} {i length : Nat} (head : HeadAt b f i)
      (lengthEq : f.contentLen = some length)
      (there : f.hdrEnd + min length maxResponseBytes ≤ b.length) :
      Read b (.inr (some (f, f.hdrEnd + min length maxResponseBytes)))
  | short {f : Frame} {i length : Nat} (head : HeadAt b f i)
      (lengthEq : f.contentLen = some length)
      (missing : ¬ f.hdrEnd + min length maxResponseBytes ≤ b.length) :
      Read b (.inl (.body f ⟨0, false⟩))
  | close {f : Frame} {i : Nat} (head : HeadAt b f i) (no_length : f.contentLen = none)
      (plain : f.chunked = false) : Read b (.inl (.body f ⟨0, false⟩))
  | chunks {f : Frame} {i e : Nat} (head : HeadAt b f i) (no_length : f.contentLen = none)
      (chunked : f.chunked = true)
      (settles : chunkResume.Settles (b.drop f.hdrEnd) ⟨0, false⟩ (.inr (some e))) :
      Read b (.inr (some (f, f.hdrEnd + e)))
  | badChunks {f : Frame} {i : Nat} (head : HeadAt b f i) (no_length : f.contentLen = none)
      (chunked : f.chunked = true)
      (settles : chunkResume.Settles (b.drop f.hdrEnd) ⟨0, false⟩ (.inr none)) :
      Read b (.inr none)
  | unfinished {f : Frame} {i : Nat} {sc : ChunkScanner} (head : HeadAt b f i)
      (no_length : f.contentLen = none) (chunked : f.chunked = true)
      (settles : chunkResume.Settles (b.drop f.hdrEnd) ⟨0, false⟩ (.inl sc)) :
      Read b (.inl (.body f sc))

theorem read_of_settles (settles : response.Settles b .header o) : Read b o := by
  rcases settles_header settles with ⟨none, rfl⟩ | ⟨i, found, inside, ⟨bad, rfl⟩ | ⟨fine, body⟩⟩
  · exact .noHeader none
  · exact .badHeader found bad
  have head : HeadAt b (frameOf b i) i := ⟨found, rfl, fine⟩
  rcases settles_body inside (zero_le _) body with ⟨length, lengthEq, rfl⟩ |
    ⟨no_length, plain, rfl⟩ | ⟨no_length, chunked, e, chunks, rfl⟩
  · split
    · rename_i there
      exact .whole head lengthEq there
    · rename_i missing
      exact .short head lengthEq missing
  · exact .close head no_length plain
  · match e with
    | .inl sc => exact .unfinished head no_length chunked chunks
    | .inr none => exact .badChunks head no_length chunked chunks
    | .inr (some n) => exact .chunks head no_length chunked chunks

theorem entity_complete (part : raw <+: p) (short : p.length ≤ maxResponseBytes)
    (settles : response.Settles raw .header (.inr (some (f, e)))) :
    RawResp.entity ⟨raw, f.hdrEnd, f.status, f.chunked, f.contentLen⟩ =
      (p.drop f.hdrEnd).take (e - f.hdrEnd) := by
  obtain ⟨rest, rfl⟩ := part
  rw [length_append] at short
  cases read_of_settles settles with
  | @whole _ _ cl head length there =>
    have four := head.inside.1
    have small : min cl maxResponseBytes = cl := by omega
    rw [RawResp.entity, length]
    rw [Nat.add_sub_cancel_left, small, drop_append_of_le_length (by omega),
      take_append_of_le_length]
    rw [length_drop]
    omega
  | chunks head no_length chunked chunks =>
    obtain ⟨found, inside⟩ := chunkedEnd_eq chunks
    rw [RawResp.entity, no_length]
    rw [if_pos chunked, found, getD_some, Nat.add_sub_cancel_left,
      drop_append_of_le_length head.inside.2, take_append_of_le_length inside]

/-- The same answer, and the same entity if there is one. -/
def Verdict.Agrees : Verdict → Verdict → Prop
  | .error t, .error t' => t = t'
  | .ok r t, .ok r' t' => r.status = r'.status ∧ r.hdrEnd = r'.hdrEnd ∧ r.chunked = r'.chunked ∧
      r.contentLen = r'.contentLen ∧ t = t' ∧ r.entity = r'.entity
  | _, _ => False

theorem Settled.agrees {full : Bool} {v w : Verdict} (short : p.length ≤ maxResponseBytes)
    (first : Settled p full v) (second : Settled p full w) : v.Agrees w := by
  cases first with
  | error settles =>
    cases second with
    | error _ => exact rfl
    | complete part other =>
      obtain ⟨rest, rfl⟩ := part
      cases settles.unique (other.stopped rest)
    | noHeader other | unfinished other => cases settles.unique other
  | complete part settles =>
    obtain ⟨rest, whole⟩ := part
    have stopped := settles.stopped rest
    rw [whole] at stopped
    cases second with
    | error other | noHeader other | unfinished other => cases stopped.unique other
    | complete part' settles' =>
      obtain ⟨rest', whole'⟩ := part'
      have stopped' := settles'.stopped rest'
      rw [whole'] at stopped'
      cases stopped.unique stopped'
      refine ⟨rfl, rfl, rfl, rfl, rfl, ?_⟩
      rw [entity_complete ⟨rest, whole⟩ short settles,
        entity_complete ⟨rest', whole'⟩ short settles']
  | noHeader settles =>
    cases second with
    | error other | unfinished other => cases settles.unique other
    | complete part other =>
      obtain ⟨rest, rfl⟩ := part
      cases settles.unique (other.stopped rest)
    | noHeader _ => exact rfl
  | unfinished settles =>
    cases second with
    | error other | noHeader other => cases settles.unique other
    | complete part other =>
      obtain ⟨rest, rfl⟩ := part
      cases settles.unique (other.stopped rest)
    | unfinished other =>
      cases settles.unique other
      exact ⟨rfl, rfl, rfl, rfl, rfl, rfl⟩

/-- A stream that is followed by a close is read the same, however it is cut into pulls. -/
theorem framing_independent (a b : List (List UInt8)) (pieces : ∀ piece ∈ a, piece ≠ [])
    (pieces' : ∀ piece ∈ b, piece ≠ []) (same : a.flatten = b.flatten) :
    ∃ v w, readRawResponse a = some v ∧ readRawResponse b = some w ∧ v.Agrees w := by
  obtain ⟨v, run, settled⟩ := readRawResponse_spec pieces
  obtain ⟨w, run', settled'⟩ := readRawResponse_spec pieces'
  rw [← same] at settled'
  exact ⟨v, w, run, run', settled.agrees (length_take_le _ _) settled'⟩

/-- `HTTP/1.1 200 OK`, a length of two, the body and one byte more. -/
def shortResponse : List UInt8 := ascii "HTTP/1.1 200 OK\r\nContent-Length: 2\r\n\r\nhi!"

theorem framing_independent_short :
    ∃ v w, readRawResponse [shortResponse] = some v ∧
      readRawResponse [shortResponse.take 5, shortResponse.drop 5] = some w ∧ v.Agrees w :=
  framing_independent _ _ (by decide) (by decide) (by decide)

end CactKernel.Http
