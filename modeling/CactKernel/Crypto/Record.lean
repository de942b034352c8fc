import CactKernel.Lib.Slice

/-! # TLS 1.3 records

`aead.rs`: the provider's encryption and decryption of a record, for any AEAD of the shape of
AES-GCM, against the record that RFC 8446 prescribes. The code authenticates the sequence
number in front of the header, takes the window of a payload in chunks for a range of chunks,
and leaves out the first byte of the ciphertext when it decrypts. No AEAD is given: the
standard asks for its record and for the round trip whatever the cipher is. -/

set_option autoImplicit false

namespace CactKernel.Crypto

open Lib List Option

def gcmTagLen : Nat := 16
def maxFragmentLen : Nat := 16384

/-- Ciphertexts of the length of the plaintext, with a tag of 16 bytes beside them. -/
structure Aead where
  lock : List UInt8 → List UInt8 → List UInt8 → List UInt8 → List UInt8 × List UInt8
  unlock : List UInt8 → List UInt8 → List UInt8 → List UInt8 → List UInt8 → Option (List UInt8)
  length : ∀ key nonce aad plain, (lock key nonce aad plain).1.length = plain.length
  tagLength : ∀ key nonce aad plain, (lock key nonce aad plain).2.length = gcmTagLen
  opens : ∀ key nonce aad plain,
    unlock key nonce aad (lock key nonce aad plain).1 (lock key nonce aad plain).2 = some plain
  openLength : ∀ key nonce aad cipher tag plain,
    unlock key nonce aad cipher tag = some plain → plain.length = cipher.length

/-- `u64::to_be_bytes`. -/
def be64 (v : UInt64) : List UInt8 :=
  [(v >>> 56).toUInt8, (v >>> 48).toUInt8, (v >>> 40).toUInt8, (v >>> 32).toUInt8,
    (v >>> 24).toUInt8, (v >>> 16).toUInt8, (v >>> 8).toUInt8, v.toUInt8]

/-- `(n as u16).to_be_bytes()`. -/
def be16 (n : Nat) : List UInt8 := [UInt8.ofNat (n / 256), UInt8.ofNat n]

def tls13Nonce (iv : List UInt8) (seq : UInt64) : List UInt8 :=
  (be64 seq).reverse.zipIdx.foldl
    (fun nonce (b, i) => nonce.set (11 - i) (nonce.getD (11 - i) 0 ^^^ b)) iv

def tls13Aad (len : Nat) (seq : UInt64) : List UInt8 := be64 seq ++ [0x17, 0x03, 0x03] ++ be16 len

/-- `Aes128GcmImpl` and `Aes256GcmImpl`, with keys of 16 and 32 bytes. -/
structure GcmImpl (keyLen : Nat) where
  key : List UInt8
  iv : List UInt8
  keyLength : key.length = keyLen
  ivLength : iv.length = 12

inductive ContentType
  | changeCipherSpec | alert | handshake | applicationData | heartbeat

def ContentType.byte : ContentType → UInt8
  | .changeCipherSpec => 20
  | .alert => 21
  | .handshake => 22
  | .applicationData => 23
  | .heartbeat => 24

inductive OutboundChunks
  | single (s : List UInt8)
  | multiple (chunks : List (List UInt8)) (start stop : Nat)

namespace OutboundChunks

def len : OutboundChunks → Nat
  | single s => s.length
  | multiple _ start stop => stop - start

/-- One chunk of `copy_to_vec`: the size up to its end, and the bytes so far. -/
def copyChunk (start stop : Nat) (acc : Nat × List UInt8) (chunk : List UInt8) :
    Nat × List UInt8 :=
  let size := acc.1 + chunk.length
  if size ≤ start ∨ stop ≤ acc.1 then (size, acc.2)
  else
    let last := if stop - acc.1 < chunk.length then stop - acc.1 else chunk.length
    (size, acc.2 ++ (chunk.take last).drop (start - acc.1))

/-- `copy_to_vec`: the bytes that the payload stands for. -/
def bytes : OutboundChunks → List UInt8
  | single s => s
  | multiple chunks start stop => (chunks.foldl (copyChunk start stop) (0, [])).2

/-- What `encrypt` takes: `chunks[start..end]`; a range that is outside panics. -/
def picked : OutboundChunks → Option (List UInt8)
  | single s => some s
  | multiple chunks start stop => (Slice.range chunks start stop).map List.flatten

end OutboundChunks

structure Record where
  typ : UInt8
  version : Nat
  payload : List UInt8

section Code

variable {keyLen : Nat} (aead : Aead) (self : GcmImpl keyLen)

def encryptedPayloadLen (n : Nat) : Nat := n + 1 + gcmTagLen

def encrypt (typ : ContentType) (payload : OutboundChunks) (seq : UInt64) : Option Record :=
  let aad := tls13Aad (encryptedPayloadLen payload.len) seq
  payload.picked.map fun p =>
    let r := aead.lock self.key (tls13Nonce self.iv seq) aad (p ++ [typ.byte])
    ⟨23, 0x0303, r.1 ++ r.2⟩

/-- `into_tls13_unpadded_message`: zeros are taken off the end, then the type. -/
def unpad (p : List UInt8) : Option (UInt8 × List UInt8) :=
  if maxFragmentLen + 1 < p.length then none
  else
    match p.reverse.dropWhile fun b => b = 0 with
    | [] => none
    | typ :: rest => if maxFragmentLen < rest.length then none else some (typ, rest.reverse)

/-- An error has no result. -/
def decrypt (payload : List UInt8) (seq : UInt64) : Option (UInt8 × List UInt8) :=
  if payload.length < 1 + gcmTagLen then none
  else
    let aad := tls13Aad payload.length seq
    let bodyLen := payload.length - 1 - gcmTagLen
    let tag := payload.drop (payload.length - gcmTagLen)
    (aead.unlock self.key (tls13Nonce self.iv seq) aad ((payload.drop 1).take bodyLen) tag).bind
      fun q => unpad (payload.take 1 ++ q)

/-! ## The standard -/

/-- The sequence number, filled up with zeros in front, xor the IV. -/
def rfcNonce (iv : List UInt8) (seq : UInt64) : List UInt8 :=
  List.zipWith (· ^^^ ·) iv ([0, 0, 0, 0] ++ be64 seq)

/-- The five bytes in front of `n` bytes of payload. -/
def rfcHeader (n : Nat) : List UInt8 := [0x17, 0x03, 0x03] ++ be16 n

/-- The record of the payload and its type under the nonce and the header of the standard. -/
def rfcRecord (typ : ContentType) (plain : List UInt8) (seq : UInt64) : Record :=
  let r := aead.lock self.key (rfcNonce self.iv seq) (rfcHeader (plain.length + 1 + gcmTagLen))
    (plain ++ [typ.byte])
  ⟨23, 0x0303, r.1 ++ r.2⟩

variable (typ : ContentType) (payload : OutboundChunks) (seq : UInt64)

/-- `encrypt` makes the record of the standard. -/
def Prescribed : Prop :=
  encrypt aead self typ payload seq = some (rfcRecord aead self typ payload.bytes seq)

/-- `decrypt` returns what `encrypt` was given. -/
def ReadBack : Prop :=
  ∃ r, encrypt aead self typ payload seq = some r ∧
    decrypt aead self r.payload seq = some (typ.byte, payload.bytes)

end Code

theorem tls13Nonce_eq {iv : List UInt8} (length : iv.length = 12) (seq : UInt64) :
    tls13Nonce iv seq = rfcNonce iv seq := by
  match iv, length with
  | [a, b, c, d, e, f, g, h, i, j, k, l], _ => simp [tls13Nonce, rfcNonce, be64]

/-! ## An AEAD that tells the two apart -/

/-- The length of the plaintext and the additional data, cut to the size of a tag. -/
def plainTag (aad plain : List UInt8) : List UInt8 :=
  (UInt8.ofNat plain.length :: aad ++ replicate gcmTagLen 0).take gcmTagLen

/-- The bytes themselves, with `plainTag` beside them. -/
def plainAead : Aead where
  lock _ _ aad plain := (plain, plainTag aad plain)
  unlock _ _ aad cipher tag := if tag = plainTag aad cipher then some cipher else none
  length _ _ _ _ := rfl
  tagLength _ _ aad _ := by
    rw [plainTag, length_take_of_le]
    rw [length_append, length_replicate]
    exact Nat.le_add_left _ _
  opens _ _ _ _ := if_pos rfl
  openLength _ _ aad cipher tag plain opened := by
    split at opened
    · rw [← Option.some.inj opened]
    · cases opened

theorem length_plainTag (aad plain : List UInt8) : (plainTag aad plain).length = gcmTagLen :=
  plainAead.tagLength [] [] aad plain

-- byte 9 is the record type behind the sequence number, and nothing behind the five bytes
theorem plainTag_aad_ne (n k : Nat) (seq : UInt64) (p plain : List UInt8) :
    plainTag (tls13Aad n seq) p ≠ plainTag (rfcHeader k) plain := by
  intro same
  have byte := congrArg (fun tag => tag[9]?) same
  simp [plainTag, tls13Aad, rfcHeader, be64, be16, gcmTagLen] at byte

theorem plainTag_length_ne (aad bad cipher : List UInt8) (b : UInt8) :
    plainTag aad (b :: cipher) ≠ plainTag bad cipher := by
  intro same
  have byte := congrArg (fun tag => tag[0]?) same
  simp [plainTag, gcmTagLen] at byte

variable {keyLen : Nat} (self : GcmImpl keyLen) (typ : ContentType) (payload : OutboundChunks)
  (seq : UInt64)

theorem not_prescribed : ¬ Prescribed plainAead self typ payload seq := by
  intro same
  obtain ⟨p, -, built⟩ := map_eq_some_iff.mp same
  have joined : (p ++ [typ.byte]) ++ plainTag _ _ = (payload.bytes ++ [typ.byte]) ++ plainTag _ _ :=
    congrArg Record.payload built
  have tags := (append_inj' joined (by rw [length_plainTag, length_plainTag])).2
  exact plainTag_aad_ne _ _ _ _ _ tags

/-- The ciphertext that is opened is one byte short of the one that was sealed. -/
theorem decrypt_plain (aad : List UInt8) {plain : List UInt8} (some_byte : plain ≠ []) :
    decrypt plainAead self (plain ++ plainTag aad plain) seq = none := by
  obtain ⟨b, rest, rfl⟩ := exists_cons_of_ne_nil some_byte
  have total : (b :: rest ++ plainTag aad (b :: rest)).length = rest.length + 1 + gcmTagLen := by
    rw [length_append, length_plainTag]
    rfl
  have tag : (b :: rest ++ plainTag aad (b :: rest)).drop
      (rest.length + 1 + gcmTagLen - gcmTagLen) = plainTag aad (b :: rest) :=
    drop_left' (by simp)
  have body : ((b :: rest ++ plainTag aad (b :: rest)).drop 1).take
      (rest.length + 1 + gcmTagLen - 1 - gcmTagLen) = rest := take_left' (by omega)
  rw [decrypt, if_neg (by omega)]
  dsimp only
  rw [total, tag, body]
  dsimp only [plainAead]
  rw [if_neg (plainTag_length_ne _ _ _ _), Option.bind_none]

theorem not_readBack : ¬ ReadBack plainAead self typ payload seq := by
  rintro ⟨r, made, read⟩
  obtain ⟨p, -, rfl⟩ := map_eq_some_iff.mp made
  have closed := decrypt_plain self seq (tls13Aad (encryptedPayloadLen payload.len) seq)
    (append_ne_nil_of_right_ne_nil p (cons_ne_nil typ.byte []))
  cases closed.symm.trans read

/-- The nonce is the one of the standard. But for no key, IV, type, payload and sequence number
does `encrypt` make the record of the standard with every AEAD, or `decrypt` return what
`encrypt` was given with every AEAD. -/
theorem record_never_protected :
    tls13Nonce self.iv seq = rfcNonce self.iv seq ∧
      ¬ (∀ aead, Prescribed aead self typ payload seq) ∧
      ¬ (∀ aead, ReadBack aead self typ payload seq) :=
  ⟨tls13Nonce_eq self.ivLength seq, fun all => not_prescribed self typ payload seq (all _),
    fun all => not_readBack self typ payload seq (all _)⟩

def zeroImpl : GcmImpl 16 := ⟨replicate 16 0, replicate 12 0, rfl, rfl⟩

/-- An alert: the tag is made from 13 bytes of additional data in place of 5, and the record is
not opened. The window from byte 1 to byte 2 of three chunks is taken for chunk 1, and the one
from byte 1 to byte 4 is outside the list. -/
theorem alert_not_protected :
    (encrypt plainAead zeroImpl .alert (.single [1, 40]) 7).map (·.payload) =
        some [1, 40, 21, 3, 0, 0, 0, 0, 0, 0, 0, 7, 23, 3, 3, 0, 19, 0, 0] ∧
      (rfcRecord plainAead zeroImpl .alert [1, 40] 7).payload =
        [1, 40, 21, 3, 23, 3, 3, 0, 19, 0, 0, 0, 0, 0, 0, 0, 0, 0, 0] ∧
      (encrypt plainAead zeroImpl .alert (.single [1, 40]) 7).bind
        (fun r => decrypt plainAead zeroImpl r.payload 7) = none ∧
      (OutboundChunks.multiple [[1, 2], [3, 4], [5]] 1 2).bytes = [2] ∧
      (OutboundChunks.multiple [[1, 2], [3, 4], [5]] 1 2).picked = some [3, 4] ∧
      (encrypt plainAead zeroImpl .alert (.multiple [[1, 2], [3, 4], [5]] 1 4) 7).isNone := by
  decide

end CactKernel.Crypto
