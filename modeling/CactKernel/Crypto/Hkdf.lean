import Mathlib.Tactic.Ring

/-! # The key schedule of TLS 1.3

`hkdf.rs`: the provider's HKDF, which is that of RFC 5869, against the one that rustls builds on
an HMAC. The expansions are the same; the key extracted from "zero" input is not: the provider
takes no bytes where rustls takes as many zero bytes as the hash has. -/

set_option autoImplicit false

namespace CactKernel.Crypto

open List

/-- An HMAC over a hash of `len` bytes. -/
structure Hmac (len : Nat) where
  sign : List UInt8 → List UInt8 → List UInt8
  length : ∀ key message, (sign key message).length = len

/-- Where an expander has its key from. -/
inductive Expander
  | extractFromZeroIkm (salt : Option (List UInt8))
  | extractFromSecret (salt : Option (List UInt8)) (secret : List UInt8)
  | expanderForOkm (okm : List UInt8)

inductive Operation
  | expandSlice (expander : Expander) (info : List (List UInt8)) (length : Nat)
  | expandBlock (expander : Expander) (info : List (List UInt8))
  | hmacSign (key message : List UInt8)

inductive Answer
  | panic
  | outputLengthError
  | bytes (bytes : List UInt8)
deriving DecidableEq

section

variable {len : Nat} (h : Hmac len)

/-! ## RFC 5869 -/

def extract (salt : Option (List UInt8)) (ikm : List UInt8) : List UInt8 :=
  h.sign (salt.getD (replicate len 0)) ikm

/-- `T(n)`. -/
def block (prk info : List UInt8) : Nat → List UInt8
  | 0 => []
  | n + 1 => h.sign prk (block prk info n ++ info ++ [UInt8.ofNat (n + 1)])

def expand (prk info : List UInt8) (length : Nat) : Option (List UInt8) :=
  if 255 * len < length then none
  else some (((range' 1 ((length + len - 1) / len)).flatMap (block h prk info)).take length)

/-! ## The provider -/

namespace Provider

/-- `from_prk` refuses a short key, and `expect` ends the program. -/
def key : Expander → Option (List UInt8)
  | .extractFromZeroIkm salt => some (extract h salt [])
  | .extractFromSecret salt secret => some (extract h salt secret)
  | .expanderForOkm okm => if okm.length < len then none else some okm

def run : Operation → Answer
  | .expandSlice expander info length => match key h expander with
    | none => .panic
    | some prk => match expand h prk info.flatten length with
      | none => .outputLengthError
      | some output => .bytes output
  | .expandBlock expander info => match key h expander with
    | none => .panic
    | some prk => .bytes ((expand h prk info.flatten len).getD (replicate len 0))
  | .hmacSign key message => .bytes (h.sign key message)

end Provider

def cactHkdfSha256 (h : Hmac 32) : Operation → Answer := Provider.run h

def cactHkdfSha384 (h : Hmac 48) : Operation → Answer := Provider.run h

/-! ## rustls -/

namespace HkdfUsingHmac

def extractPrkFromSecret (salt : Option (List UInt8)) (secret : List UInt8) : List UInt8 :=
  let salt := match salt with
    | some salt => salt
    | none => replicate len 0
  h.sign salt secret

/-- The loop over the chunks of the output: the number of chunks that are left, the index of the
chunk, the last term and the bytes that are left. -/
def fill (key : List UInt8) (info : List (List UInt8)) :
    Nat → Nat → List UInt8 → Nat → List UInt8
  | 0, _, _, _ => []
  | k + 1, n, term, left =>
    let term := h.sign key (term ++ info.flatten ++ [UInt8.ofNat (n + 1)])
    term.take (min len left) ++ fill key info k (n + 1) term (left - len)

def expandUnchecked (key : List UInt8) (info : List (List UInt8)) (length : Nat) : List UInt8 :=
  fill h key info ((length + len - 1) / len) 0 [] length

def key : Expander → List UInt8
  | .extractFromZeroIkm salt => extractPrkFromSecret h salt (replicate len 0)
  | .extractFromSecret salt secret => extractPrkFromSecret h salt secret
  | .expanderForOkm okm => okm

def run : Operation → Answer
  | .expandSlice expander info length =>
    if 255 * len < length then .outputLengthError
    else .bytes (expandUnchecked h (key h expander) info length)
  | .expandBlock expander info => .bytes (expandUnchecked h (key h expander) info len)
  | .hmacSign key message => .bytes (h.sign key message)

end HkdfUsingHmac

/-! ## Agreement -/

theorem fill_eq (key : List UInt8) (info : List (List UInt8)) (k n left : Nat) :
    HkdfUsingHmac.fill h key info k n (block h key info.flatten n) left =
      ((range' (n + 1) k).flatMap (block h key info.flatten)).take left := by
  induction k generalizing n left with
  | zero => simp [HkdfUsingHmac.fill]
  | succ k ih =>
    have length : (block h key info.flatten (n + 1)).length = len := h.length ..
    have term : h.sign key (block h key info.flatten n ++ info.flatten ++ [UInt8.ofNat (n + 1)]) =
      block h key info.flatten (n + 1) := rfl
    rw [HkdfUsingHmac.fill, term, ih, range'_succ, flatMap_cons, take_append, length]
    congr 1
    simp [length, Nat.min_comm]

theorem rustls_slice (e : Expander) (info : List (List UInt8)) (length : Nat) :
    HkdfUsingHmac.run h (.expandSlice e info length) =
      match expand h (HkdfUsingHmac.key h e) info.flatten length with
      | none => .outputLengthError
      | some output => .bytes output := by
  rw [HkdfUsingHmac.run, expand, HkdfUsingHmac.expandUnchecked]
  split
  · rfl
  · exact congrArg Answer.bytes (fill_eq h _ info _ 0 length)

theorem block_is_slice (e : Expander) (info : List (List UInt8)) :
    Provider.run h (.expandBlock e info) = Provider.run h (.expandSlice e info len) ∧
      HkdfUsingHmac.run h (.expandBlock e info) =
        HkdfUsingHmac.run h (.expandSlice e info len) := by
  have room : ¬ 255 * len < len := by omega
  constructor
  · simp only [Provider.run, expand, if_neg room]
    rfl
  · simp only [HkdfUsingHmac.run, if_neg room]

theorem secret_key (salt : Option (List UInt8)) (secret : List UInt8) :
    HkdfUsingHmac.extractPrkFromSecret h salt secret = extract h salt secret := by
  cases salt with
  | none | some salt => rfl

end

/-- An expansion from "zero" input gives no bytes, and an output key is not too short. -/
def Agrees (len : Nat) : Operation → Prop
  | .expandSlice (.extractFromZeroIkm _) _ length => length = 0 ∨ 255 * len < length
  | .expandBlock (.extractFromZeroIkm _) _ => False
  | .expandSlice (.expanderForOkm okm) _ _ | .expandBlock (.expanderForOkm okm) _ =>
    len ≤ okm.length
  | _ => True

/-- An HMAC that tells the two inputs apart and then gives its key. -/
def telling (len : Nat) : Hmac len where
  sign key message :=
    if message = [] then replicate len 0
    else if message = replicate len 0 then replicate len 1
    else if key.length = len then key else replicate len 0
  length key message := by
    repeat' split
    all_goals simp [*]

theorem telling_first {len length : Nat} (positive : 0 < len) (asked : 0 < length) (b : UInt8)
    (info : List UInt8) : (((range' 1 ((length + len - 1) / len)).flatMap
      (block (telling len) (replicate len b) info)).take length).head? = some b := by
  obtain ⟨k, chunks⟩ : ∃ k, (length + len - 1) / len = k + 1 :=
    Nat.exists_eq_add_one.mpr (Nat.div_pos (by omega) positive)
  have other : info ++ [1] ≠ replicate len 0 := by
    intro same
    have member : (1 : UInt8) ∈ replicate len 0 := same ▸ by simp
    exact absurd (eq_of_mem_replicate member) (by decide)
  have first : block (telling len) (replicate len b) info 1 = replicate len b := by
    simp [block, telling, other]
  rw [chunks, range'_succ, flatMap_cons, first, head?_take, if_neg (Nat.ne_of_gt asked),
    head?_append, head?_replicate, if_neg (Nat.ne_of_gt positive)]
  rfl

theorem slice_iff {len : Nat} (positive : 0 < len) (e : Expander) (info : List (List UInt8))
    (length : Nat) : (∀ h : Hmac len, Provider.run h (.expandSlice e info length) =
      HkdfUsingHmac.run h (.expandSlice e info length)) ↔
        Agrees len (.expandSlice e info length) := by
  simp only [rustls_slice]
  cases e with
  | extractFromZeroIkm salt =>
    constructor
    · intro same
      rw [Agrees]
      by_contra neither
      obtain ⟨asked, room⟩ := not_or.mp neither
      have keys : extract (telling len) salt [] = replicate len 0 := by
        simp [extract, telling]
      have keys' : extract (telling len) salt (replicate len 0) = replicate len 1 := by
        simp [extract, telling]
      have equal := same (telling len)
      simp only [Provider.run, Provider.key, HkdfUsingHmac.key, secret_key, keys, keys', expand,
        if_neg room, Answer.bytes.injEq] at equal
      have heads := congrArg head? equal
      rw [telling_first positive (Nat.pos_of_ne_zero asked),
        telling_first positive (Nat.pos_of_ne_zero asked)] at heads
      exact absurd heads (by decide)
    · rintro (rfl | long) h
      · simp [Provider.run, Provider.key, expand]
      · simp [Provider.run, Provider.key, expand, long]
  | extractFromSecret salt secret =>
    simp [Agrees, Provider.run, Provider.key, HkdfUsingHmac.key, secret_key]
  | expanderForOkm okm =>
    by_cases short : okm.length < len
    · refine iff_of_false (fun same => ?_) (Nat.not_le.mpr short)
      have equal := same (telling len)
      simp only [Provider.run, Provider.key, if_pos short] at equal
      split at equal
      · cases equal
      · cases equal
    · simp [Agrees, Provider.run, Provider.key, HkdfUsingHmac.key, short, Nat.not_lt.mp short]

theorem run_iff {len : Nat} (positive : 0 < len) (op : Operation) :
    (∀ h : Hmac len, Provider.run h op = HkdfUsingHmac.run h op) ↔ Agrees len op := by
  cases op with
  | expandSlice e info length => exact slice_iff positive e info length
  | expandBlock e info =>
    have whole := slice_iff positive e info len
    simp only [← (block_is_slice _ e info).1, ← (block_is_slice _ e info).2] at whole
    rw [whole]
    cases e with
    | extractFromZeroIkm salt =>
      rw [Agrees, Agrees, iff_false]
      omega
    | extractFromSecret salt secret | expanderForOkm okm => exact Iff.rfl
  | hmacSign key message => exact ⟨fun _ => trivial, fun _ _ => rfl⟩

/-- The provider's objects give the bytes that rustls gives, whatever the HMAC is, for exactly the
operations that do not expand a key extracted from "zero" input. -/
theorem key_schedule_agrees (op : Operation) :
    ((∀ h : Hmac 32, cactHkdfSha256 h op = HkdfUsingHmac.run h op) ↔ Agrees 32 op) ∧
    ((∀ h : Hmac 48, cactHkdfSha384 h op = HkdfUsingHmac.run h op) ↔ Agrees 48 op) :=
  ⟨run_iff (by decide) op, run_iff (by decide) op⟩

/-- The early secret without a key that was agreed on before. -/
theorem early_secret_differs : ¬ ∀ (h : Hmac 32) (salt : Option (List UInt8))
    (info : List (List UInt8)), cactHkdfSha256 h (.expandBlock (.extractFromZeroIkm salt) info) =
      HkdfUsingHmac.run h (.expandBlock (.extractFromZeroIkm salt) info) := fun same =>
  (@run_iff 32 (by decide) (.expandBlock (.extractFromZeroIkm none) [])).mp
    fun h => same h none []

end CactKernel.Crypto
