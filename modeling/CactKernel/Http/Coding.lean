import CactKernel.Http.Copied

/-! # The chunked coding

A body cut into chunks and written out: every chunk after a line with its size, and after
the last chunk a line with the size zero and the trailers. The decoder finds every chunk
where the coding has put it, but copies the bytes that follow the chunk. -/

set_option autoImplicit false

namespace CactKernel.Http

open Lib List Option

/-! ## Size lines -/

def hexValue (digits : List UInt8) : Nat :=
  digits.foldl (fun v c => v * 16 + (hexDigit c).getD 0) 0

/-- A size of up to eight digits in either case, and an extension. -/
structure SizeLine where
  digits : List UInt8
  ext : Option (List UInt8)
  hex : ∀ d ∈ digits, (hexDigit d).isSome = true
  nonempty : digits ≠ []
  short : digits.length ≤ 8
  extLine : ∀ e ∈ ext, lf ∉ e

namespace SizeLine

def value (line : SizeLine) : Nat := hexValue line.digits

/-- The line without its end. -/
def text (line : SizeLine) : List UInt8 :=
  line.digits ++ line.ext.elim [] fun e => semicolon :: e

def bytes (line : SizeLine) : List UInt8 := line.text ++ crlf

end SizeLine

theorem hexDigit_lt {c : UInt8} {d : Nat} (digit : hexDigit c = some d) : d < 16 := by
  grind [hexDigit, UInt8.le_iff_toNat_le]

theorem hexDigit_lf : hexDigit lf = none := by decide

theorem hexDigit_semicolon : hexDigit semicolon = none := by decide

theorem foldlM_hex (digits : List UInt8) {v n : Nat} (small : v < 16 ^ n)
    (short : n + digits.length ≤ 8) (hex : ∀ d ∈ digits, (hexDigit d).isSome = true) :
    digits.foldlM (fun v c => do
      let d ← hexDigit c
      checkedAdd (← checkedMul v 16) d) v =
        some (digits.foldl (fun v c => v * 16 + (hexDigit c).getD 0) v) := by
  induction digits generalizing v n with
  | nil => rfl
  | cons c digits ih =>
    obtain ⟨d, digit⟩ := isSome_iff_exists.mp (hex c mem_cons_self)
    have below := hexDigit_lt digit
    rw [length_cons] at short
    have next : v * 16 + d < 16 ^ (n + 1) := by
      rw [Nat.pow_succ]
      omega
    have bound : 16 ^ (n + 1) ≤ 2 ^ 32 := by
      calc 16 ^ (n + 1) ≤ 16 ^ 8 := Nat.pow_le_pow_right (by decide) (by omega)
        _ = 2 ^ 32 := by decide
    have mul : checkedMul v 16 = some (v * 16) := by
      rw [checkedMul, if_pos]
      omega
    have add : checkedAdd (v * 16) d = some (v * 16 + d) := by
      rw [checkedAdd, if_pos]
      omega
    rw [foldlM_cons, foldl_cons, digit]
    simp only [bind_eq_bind, bind_some, mul, add, getD_some]
    exact ih next (by omega) fun x member => hex x (mem_cons_of_mem c member)

theorem parseHex_digits {digits : List UInt8} (hex : ∀ d ∈ digits, (hexDigit d).isSome = true)
    (nonempty : digits ≠ []) (short : digits.length ≤ 8) :
    parseHex digits = some (hexValue digits) := by
  have plain : ¬ (digits = [] ∨ 8 < digits.length) := by
    rintro (empty | long)
    · exact nonempty empty
    · omega
  rw [parseHex, if_neg plain]
  exact foldlM_hex digits (n := 0) (by decide) (by omega) hex

theorem stripCr_append (line : List UInt8) : stripCr (line ++ [cr]) = line := by
  rw [stripCr, getLast?_append, dropLast_concat]
  rfl

namespace SizeLine

variable (line : SizeLine)

theorem digit_ne {b : UInt8} (not_hex : hexDigit b = none) : b ∉ line.digits := by
  intro member
  have hex := line.hex b member
  rw [not_hex] at hex
  cases hex

theorem lf_not_mem : lf ∉ line.text := by
  rw [text, mem_append]
  rintro (digit | other)
  · exact line.digit_ne hexDigit_lf digit
  · cases ext : line.ext with
    | none =>
      rw [ext] at other
      cases other
    | some e =>
      rw [ext] at other
      rcases mem_cons.mp other with same | inside
      · exact absurd same (by decide)
      · exact line.extLine e ext inside

theorem chunkSize_text : chunkSize (line.text ++ [cr]) = some line.value := by
  have plain : ∀ b ∈ line.digits, decide (b ≠ semicolon) = true := by
    intro b member
    rw [decide_eq_true_eq]
    rintro rfl
    exact line.digit_ne hexDigit_semicolon member
  have cut : (line.text.takeWhile fun b => b ≠ semicolon) = line.digits := by
    rw [text, takeWhile_append_of_pos plain]
    cases line.ext with
    | none | some e => exact append_nil _
  rw [chunkSize, stripCr_append, cut]
  exact parseHex_digits line.hex line.nonempty line.short

end SizeLine

/-! ## Chunks -/

structure Chunk where
  line : SizeLine
  data : List UInt8
  size : line.value = data.length
  nonempty : data ≠ []
  small : data.length ≤ maxChunkBytes

def Chunk.bytes (c : Chunk) : List UInt8 := c.line.bytes ++ (c.data ++ crlf)

structure Coding where
  chunks : List Chunk
  last : SizeLine
  zero : last.value = 0
  trailers : List (List UInt8)
  trailerLines : ∀ t ∈ trailers, lf ∉ t

namespace Coding

/-- What stands after the chunks. -/
def ending (c : Coding) : List UInt8 :=
  c.last.bytes ++ (c.trailers.flatMap (fun t => t ++ crlf) ++ crlf)

def bytes (c : Coding) : List UInt8 := c.chunks.flatMap Chunk.bytes ++ c.ending

/-- The byte string that was cut into chunks. -/
def payload (c : Coding) : List UInt8 := c.chunks.flatMap Chunk.data

end Coding

/-- The chunks, each with what stands behind it. -/
def coded (ending : List UInt8) : List Chunk → List (List UInt8 × List UInt8)
  | [] => []
  | c :: chunks => (c.data, crlf ++ (chunks.flatMap Chunk.bytes ++ ending)) :: coded ending chunks

theorem SizeLine.bytes_append (line : SizeLine) (rest : List UInt8) :
    line.bytes ++ rest = (line.text ++ [cr]) ++ lf :: rest := by
  rw [bytes, crlf, append_assoc, append_assoc]
  rfl

theorem SizeLine.length_cr (line : SizeLine) : (line.text ++ [cr]).length = line.text.length + 1 :=
  length_append

theorem findIdx?_line (line : SizeLine) (rest : List UInt8) :
    (line.bytes ++ rest).findIdx? (fun b => b = lf) = some (line.text.length + 1) := by
  rw [line.bytes_append, Slice.findIdx?_append_cons, line.length_cr]
  · intro b member
    rw [decide_eq_false_iff_not]
    rintro rfl
    rcases mem_append.mp member with inside | last
    · exact line.lf_not_mem inside
    · exact absurd (mem_singleton.mp last) (by decide)
  · decide

theorem chunkSize_line (line : SizeLine) (rest : List UInt8) :
    chunkSize ((line.bytes ++ rest).take (line.text.length + 1)) = some line.value := by
  rw [line.bytes_append, take_left' line.length_cr]
  exact line.chunkSize_text

theorem Chunk.parts (c : Chunk) (rest : List UInt8) :
    (c.bytes ++ rest).drop (c.line.text.length + 1 + 1) = c.data ++ (crlf ++ rest) := by
  rw [bytes, append_assoc, append_assoc]
  apply drop_left'
  rw [SizeLine.bytes, length_append]
  rfl

theorem Chunk.behind (c : Chunk) (rest : List UInt8) :
    (c.bytes ++ rest).drop (c.line.text.length + 1 + 1 + c.data.length) = crlf ++ rest := by
  rw [← drop_drop, c.parts, drop_left]

theorem Chunk.first (c : Chunk) (rest : List UInt8) :
    First (c.bytes ++ rest) (c.line.text.length + 1) c.data.length := by
  have whole : c.bytes ++ rest = c.line.bytes ++ (c.data ++ (crlf ++ rest)) := by
    rw [bytes]
    simp
  constructor
  · rw [whole]
    exact findIdx?_line c.line _
  · rw [whole, chunkSize_line, c.size]
  · exact fun zero => c.nonempty (length_eq_zero_iff.mp zero)
  · exact Nat.not_lt.mpr c.small
  · rw [whole, SizeLine.bytes]
    simp only [length_append, crlf, length_cons, length_nil]
    omega
  · rw [c.behind]
    rfl

theorem chunksOf_coded {line : SizeLine} (zero : line.value = 0) (rest : List UInt8)
    (chunks : List Chunk) : chunksOf (chunks.flatMap Chunk.bytes ++ (line.bytes ++ rest)) =
      (coded (line.bytes ++ rest) chunks, true) := by
  induction chunks with
  | nil =>
    rw [flatMap_nil, nil_append, coded]
    apply chunksOf_last (findIdx?_line line rest)
    rw [chunkSize_line, zero]
  | cons c chunks ih =>
    have end_eq : (c.bytes ++ (chunks.flatMap Chunk.bytes ++ (line.bytes ++ rest))).drop
        (c.line.text.length + 1 + 1 + c.data.length + 2) =
          chunks.flatMap Chunk.bytes ++ (line.bytes ++ rest) := by
      rw [← drop_drop, c.behind]
      rfl
    rw [flatMap_cons, append_assoc, chunksOf_first (c.first _), end_eq, ih, c.behind,
      c.parts, take_left]
    rfl

/-! ## When the decoder is right -/

/-- The bytes after each chunk repeat the chunk as far as there is room for it. -/
def Echoes (ending : List UInt8) : List Chunk → Nat → Prop
  | [], _ => True
  | c :: chunks, room =>
    room = 0 ∨
      (crlf ++ (chunks.flatMap Chunk.bytes ++ ending)).take (min c.data.length room) =
          c.data.take room ∧
        Echoes ending chunks (room - c.data.length)

theorem echoes_zero (ending : List UInt8) (chunks : List Chunk) : Echoes ending chunks 0 := by
  cases chunks with
  | nil => trivial
  | cons c chunks => exact .inl rfl

/-- The copy gives what stands after `written` in the coding. -/
def Decodes (chunks : List (List UInt8 × List UInt8)) (written payload : List UInt8) (room : Nat) :
    Prop :=
  ∀ r : List UInt8, r.length = room → copyAll chunks written.length (written ++ r) =
    some (written ++ (payload.take room ++ r.drop payload.length),
      written.length + min payload.length room, decide (room < payload.length))

theorem cut_iff {after data : List UInt8} {room : Nat} (short : room < data.length) :
    (∀ r : List UInt8, r.length = room →
      after.take (min room after.length) ++ r.drop (min room after.length) = data.take room) ↔
    room = 0 ∨ after.take room = data.take room := by
  constructor
  · intro all
    have zeros := all (replicate room 0) length_replicate
    have ones := all (replicate room 1) length_replicate
    have same := append_cancel_left (zeros.trans ones.symm)
    rw [drop_replicate, drop_replicate, replicate_inj] at same
    have full : room ≤ after.length := by
      rcases same.2 with none | equal
      · omega
      · exact absurd equal (by decide)
    right
    rw [Nat.min_eq_left full] at zeros
    rw [← zeros, drop_replicate, Nat.sub_self]
    exact (append_nil _).symm
  · rintro (none | equal) r length
    · subst none
      rw [Nat.zero_min, take_zero, drop_zero, take_zero, nil_append]
      exact length_eq_zero_iff.mp length
    · have full : room ≤ after.length := by
        have lengths := congrArg List.length equal
        rw [length_take, length_take] at lengths
        omega
      rw [Nat.min_eq_left full, equal, drop_eq_nil_of_le (by omega)]
      exact append_nil _

section Steps

variable {data after written payload : List UInt8} {chunks : List (List UInt8 × List UInt8)}
  {room : Nat}

theorem copyAll_cut_eq {r : List UInt8} (length : r.length = room) (short : room < data.length) :
    copyAll ((data, after) :: chunks) written.length (written ++ r) =
      some (written ++ (after.take (min room after.length) ++ r.drop (min room after.length)),
        written.length + room, true) := by
  have total : (written ++ r).length = written.length + room := by rw [length_append, length]
  have space : (written ++ r).length - written.length = room := by omega
  have cut : (after.take (min room after.length)).length =
      (r.take (min room after.length)).length := by
    rw [length_take, length_take]
    omega
  have copied := Slice.copy_append (a := written) (r.drop (min room after.length)) cut
  rw [take_append_drop] at copied
  rw [copyAll, if_pos (by omega), space, copied, map_some, Slice.length_copy copied, total]

theorem copyAll_next_eq {r : List UInt8} (length : r.length = room) (long : data.length ≤ room)
    (there : data.length ≤ after.length) :
    copyAll ((data, after) :: chunks) written.length (written ++ r) =
      copyAll chunks (written ++ after.take data.length).length
        ((written ++ after.take data.length) ++ r.drop data.length) := by
  have total : (written ++ r).length = written.length + room := by rw [length_append, length]
  have taken : (after.take data.length).length = data.length := length_take_of_le there
  have cut : (after.take data.length).length = (r.take data.length).length := by
    rw [taken, length_take]
    omega
  have copied := Slice.copy_append (a := written) (r.drop data.length) cut
  rw [take_append_drop] at copied
  rw [copyAll, if_neg (by omega), if_pos there, copied, bind_some, length_append,
    taken, append_assoc]

theorem decodes_cut (short : room < data.length) :
    Decodes ((data, after) :: chunks) written (data ++ payload) room ↔
      room = 0 ∨ after.take room = data.take room := by
  have long : room < (data ++ payload).length := by
    rw [length_append]
    omega
  rw [← cut_iff short]
  refine forall₂_congr fun r length => ?_
  have none : r.drop (data ++ payload).length = [] := drop_eq_nil_of_le (by omega)
  rw [copyAll_cut_eq length short, decide_eq_true long, Nat.min_eq_right (Nat.le_of_lt long), none,
    append_nil, take_append_of_le_length (Nat.le_of_lt short), some.injEq,
    Prod.mk.injEq]
  constructor
  · intro equal
    exact append_cancel_left equal.1
  · intro equal
    exact ⟨by rw [equal], rfl⟩

theorem expected_append (written data payload r : List UInt8) (long : data.length ≤ room) :
    (written ++ ((data ++ payload).take room ++ r.drop (data ++ payload).length),
      written.length + min (data ++ payload).length room,
      decide (room < (data ++ payload).length)) =
    ((written ++ data) ++ (payload.take (room - data.length) ++
        (r.drop data.length).drop payload.length),
      (written ++ data).length + min payload.length (room - data.length),
      decide (room - data.length < payload.length)) := by
  have full : data.take room = data := take_of_length_le long
  rw [take_append, full, length_append, length_append, drop_drop,
    Prod.mk.injEq, Prod.mk.injEq]
  refine ⟨?_, ?_, ?_⟩
  · simp
  · omega
  · rw [decide_eq_decide]
    omega

theorem decodes_whole (long : data.length ≤ room) :
    Decodes ((data, after) :: chunks) written (data ++ payload) room ↔
      after.take data.length = data ∧
        Decodes chunks (written ++ data) payload (room - data.length) := by
  by_cases there : data.length ≤ after.length
  · constructor
    · intro decodes
      have same : after.take data.length = data := by
        have run := decodes (replicate room 0) length_replicate
        rw [copyAll_next_eq length_replicate long there, expected_append _ _ _ _ long] at run
        have inside : (written ++ after.take data.length).length ≤
            ((written ++ after.take data.length) ++
              (replicate room 0).drop data.length).length := by
          simp only [length_append]
          exact Nat.le_add_right _ _
        have kept := take_copyAll inside run
        have taken : (written ++ after.take data.length).length = (written ++ data).length := by
          rw [length_append, length_append, length_take_of_le there]
        rw [take_left] at kept
        rw [taken, take_left] at kept
        exact (append_cancel_left kept).symm
      refine ⟨same, ?_⟩
      intro r length
      have filled : (replicate data.length 0 ++ r).length = room := by
        rw [length_append, length_replicate]
        omega
      have run := decodes _ filled
      rw [copyAll_next_eq filled long there, expected_append _ _ _ _ long,
        drop_left' length_replicate, same] at run
      exact run
    · rintro ⟨same, decodes⟩ r length
      have run := decodes (r.drop data.length) (by rw [length_drop]; omega)
      rw [copyAll_next_eq length long there, same, expected_append _ _ _ _ long]
      exact run
  · -- the bytes run out, and the slice is outside of the body
    have differ : after.take data.length ≠ data := by
      intro same
      have lengths := congrArg length same
      rw [length_take] at lengths
      omega
    refine ⟨?_, fun both => absurd both.1 differ⟩
    intro decodes
    have run := decodes (replicate room 0) length_replicate
    rw [copyAll, if_neg (by rw [length_append, length_replicate]; omega),
      if_neg there] at run
    cases run

end Steps

theorem decodes_iff (ending : List UInt8) (chunks : List Chunk) {written : List UInt8}
    {room : Nat} :
    Decodes (coded ending chunks) written (chunks.flatMap Chunk.data) room ↔
      Echoes ending chunks room := by
  induction chunks generalizing written room with
  | nil =>
    refine ⟨fun _ => trivial, ?_⟩
    intro _ r _
    rw [coded, copyAll, flatMap_nil]
    simp
  | cons c chunks ih =>
    rw [flatMap_cons, coded, Echoes]
    by_cases short : room < c.data.length
    · rw [decodes_cut short, Nat.min_eq_right (Nat.le_of_lt short),
        Nat.sub_eq_zero_of_le (Nat.le_of_lt short)]
      have last := echoes_zero ending chunks
      exact ⟨fun either => either.imp_right fun equal => ⟨equal, last⟩,
        fun either => either.imp_right And.left⟩
    · have long : c.data.length ≤ room := Nat.le_of_not_lt short
      have positive : room ≠ 0 := by
        have nonempty := length_pos_iff.mpr c.nonempty
        omega
      rw [decodes_whole long, Nat.min_eq_left long, take_of_length_le long, ih]
      constructor
      · exact .inr
      · exact fun either => either.resolve_left positive

namespace Coding

variable (c : Coding)

/-- The decoder writes what was coded as far as it fits, and says whether it was cut. -/
def Decoded (room : Nat) : Prop :=
  ∀ out : List UInt8, out.length = room → decodeChunked c.bytes out =
    some (c.payload.take room ++ out.drop c.payload.length, min c.payload.length room,
      decide (room < c.payload.length))

/-- `decode_chunked` is right for the codings that repeat each chunk after it. -/
theorem decode_chunked_iff (room : Nat) (fits : c.bytes.length ≤ isizeMax) :
    c.Decoded room ↔ Echoes c.ending c.chunks room := by
  have chunks : (chunksOf c.bytes).1 = coded c.ending c.chunks := by
    rw [bytes, ending, chunksOf_coded c.zero]
  rw [← @decodes_iff c.ending c.chunks [] room]
  refine forall₂_congr fun r _ => ?_
  rw [decodeChunked_eq fits, chunks, length_nil, Nat.zero_add]
  rfl

/-- Three bytes in one chunk. -/
def abc : Coding where
  chunks := [⟨⟨[51], none, by decide +kernel, by decide, by decide, nofun⟩, [97, 98, 99], by decide,
    by decide, by decide⟩]
  last := ⟨[48], none, by decide +kernel, by decide, by decide, nofun⟩
  zero := by decide
  trailers := []
  trailerLines := nofun

/-- One byte, a carriage return, in one chunk. -/
def carriage : Coding where
  chunks := [⟨⟨[49], none, by decide +kernel, by decide, by decide, nofun⟩, [cr], by decide,
    by decide, by decide⟩]
  last := ⟨[48], none, by decide +kernel, by decide, by decide, nofun⟩
  zero := by decide
  trailers := []
  trailerLines := nofun

theorem decode_chunked_iff_carriage : carriage.Decoded 4 :=
  (decode_chunked_iff carriage 4 (by decide)).mpr (.inr ⟨by decide, trivial⟩)

/-- The buffer gets the three bytes after the chunk. -/
theorem abc_not_decoded : decodeChunked abc.bytes [0, 0, 0] = some ([13, 10, 48], 3, false) ∧
    ¬ abc.Decoded 3 := by
  have run : decodeChunked abc.bytes [0, 0, 0] = some ([13, 10, 48], 3, false) := by decide
  refine ⟨run, ?_⟩
  intro decoded
  have right := decoded [0, 0, 0] rfl
  rw [run] at right
  exact absurd right (by decide)

end Coding

end CactKernel.Http
