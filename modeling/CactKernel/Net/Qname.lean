import Mathlib.Tactic.Ring

/-! # The name in a DNS query

`encode_qname` and `skip_name` of `dns_resolve.rs`. A host is its bytes: a dot is one byte of
UTF-8, so `split('.')` cuts the bytes where it cuts the text. -/

set_option autoImplicit false

namespace CactKernel.Net

open List

def skipName (pkt : List UInt8) (i : Nat) : Option Nat :=
  if inside : i < pkt.length then
    let l := pkt[i].toNat
    if l = 0 then some (i + 1)
    else if l &&& 0xc0 = 0xc0 then some (i + 2)
    else if l > 63 then none
    -- the two `checked_add`
    else if i + 1 + l < 2 ^ 32 then skipName pkt (i + 1 + l)
    else none
  else none
termination_by pkt.length - i

/-- The loop of `encode_qname` over the labels, with the buffer as the return leaves it. -/
def encodeLabels : List (List UInt8) → List UInt8 → Nat → List UInt8 × Option Nat
  | [], out, w => (out, some w)
  | b :: labels, out, w =>
    if b.isEmpty then encodeLabels labels out w
    else if b.length > 63 then (out, none)
    else if w + 1 + b.length > out.length then (out, none)
    else
      let out := out.set w (.ofNat b.length)
      let w := w + 1
      encodeLabels labels (out.take w ++ b ++ out.drop (w + b.length)) (w + b.length)

def encodeQname (out host : List UInt8) : List UInt8 × Option Nat :=
  if host.isEmpty ∨ host.length > 253 then (out, none)
  else
    match encodeLabels (host.splitOn 46) out 0 with
    | (out, none) => (out, none)
    | (out, some w) => if w ≥ out.length then (out, none) else (out.set w 0, some (w + 1))

/-- An uncompressed name of RFC 1035 and its labels: a length from 1 to 63 before each of them,
and a zero at the end. -/
inductive Name : List UInt8 → List (List UInt8) → Prop
  | root : Name [0] []
  | label {b name : List UInt8} {labels : List (List UInt8)} (some : b ≠ [])
      (short : b.length ≤ 63) (later : Name name labels) :
      Name (.ofNat b.length :: (b ++ name)) (b :: labels)

theorem Name.skipName {name : List UInt8} {labels : List (List UInt8)} (valid : Name name labels)
    (rest : List UInt8) : ∀ front : List UInt8, front.length + name.length < 2 ^ 32 →
      skipName (front ++ (name ++ rest)) front.length = some (front.length + name.length) := by
  induction valid with
  | root =>
    intro front bounded
    rw [Net.skipName, dif_pos (by simp)]
    simp
  | @label b name labels nonempty short later ih =>
    intro front bounded
    have positive : 0 < b.length := length_pos_iff.mpr nonempty
    have low : b.length &&& 0xc0 ≤ b.length := Nat.and_le_left
    have byte : (UInt8.ofNat b.length).toNat = b.length :=
      UInt8.toNat_ofNat_of_lt' (Nat.lt_of_le_of_lt short (by decide))
    simp only [length_cons, length_append] at bounded ⊢
    have next := ih (front ++ .ofNat b.length :: b) (by simp; omega)
    rw [Net.skipName, dif_pos (by simp)]
    simp only [cons_append, getElem_append_right (Nat.le_refl _), Nat.sub_self, getElem_cons_zero,
      byte]
    rw [if_neg (by omega), if_neg (by omega), if_neg (by omega), if_pos (by omega)]
    simp only [append_assoc, cons_append, length_append, length_cons] at next ⊢
    rw [show front.length + 1 + b.length = front.length + (b.length + 1) by omega, next,
      Option.some.injEq]
    omega

/-- The loop puts a text behind what is there, and the text in front of a name is the name with
the labels in front. -/
theorem encodeLabels_text {labels : List (List UInt8)} {out : List UInt8} {n : Nat} :
    ∀ {front back : List UInt8},
      encodeLabels labels (front ++ back) front.length = (out, some n) →
      ∃ text : List UInt8, out = front ++ (text ++ back.drop text.length) ∧
        n = front.length + text.length ∧ text.length ≤ back.length ∧
        text.length ≤ (labels.map fun b => b.length + 1).sum ∧
        ∀ name after, Name name after → Name (text ++ name) (labels.filter (· ≠ []) ++ after) := by
  induction labels with
  | nil =>
    intro front back run
    cases run
    exact ⟨[], by simp⟩
  | cons b labels ih =>
    intro front back run
    rw [encodeLabels] at run
    split at run
    · rename_i empty
      obtain rfl := List.isEmpty_iff.mp empty
      obtain ⟨text, written, stop, room, total, valid⟩ := ih run
      refine ⟨text, written, stop, room, ?_, by simpa using valid⟩
      rw [map_cons, sum_cons]
      omega
    rename_i nonempty
    rw [List.isEmpty_iff] at nonempty
    split at run
    · cases run
    split at run
    · cases run
    rename_i short fits
    simp only [length_append, Nat.not_lt] at fits short
    obtain ⟨old, back, rfl⟩ : ∃ x xs, back = x :: xs := by
      apply exists_cons_of_length_pos
      omega
    rw [length_cons] at fits
    have placed : ((front ++ old :: back).set front.length (.ofNat b.length)).take
          (front.length + 1) ++ b ++ ((front ++ old :: back).set front.length
            (.ofNat b.length)).drop (front.length + 1 + b.length) =
        (front ++ .ofNat b.length :: b) ++ back.drop b.length := by
      simp [take_append, take_of_length_le, Nat.add_assoc, Nat.add_comm 1]
    have moved : front.length + 1 + b.length = (front ++ .ofNat b.length :: b).length := by
      simp
      omega
    simp only at run
    rw [placed, moved] at run
    obtain ⟨text, written, stop, room, total, valid⟩ := ih run
    refine ⟨.ofNat b.length :: (b ++ text), ?_, ?_, ?_, ?_, ?_⟩
    · rw [written]
      simp
    · rw [stop]
      simp
      omega
    · simp only [length_drop, length_cons, length_append] at room ⊢
      omega
    · simp only [map_cons, sum_cons, length_cons, length_append]
      omega
    · intro name after later
      rw [filter_cons_of_pos (by simpa using nonempty), cons_append, cons_append, append_assoc]
      exact .label nonempty short (valid name after later)

theorem sum_splitOn (host : List UInt8) (dot : UInt8) :
    ((host.splitOn dot).map fun b => b.length + 1).sum = host.length + 1 := by
  induction host with
  | nil => simp
  | cons x host ih =>
    rw [splitOn, splitOnP_cons_eq_if_modifyHead]
    split
    · simp [splitOn] at ih ⊢
      omega
    · rw [← splitOn]
      cases parts : host.splitOn dot with
      | nil => simp [parts] at ih
      | cons b rest =>
        simp [parts] at ih ⊢
        omega

theorem encode_qname_inverts {out out' host : List UInt8} {n : Nat}
    (accepted : encodeQname out host = (out', some n)) :
    ∃ name, out' = name ++ out.drop n ∧ name.length = n ∧ n ≤ out.length ∧ n ≤ 255 ∧
      Name name ((host.splitOn 46).filter (· ≠ [])) ∧
      ∀ rest, skipName (name ++ rest) 0 = some n := by
  rw [encodeQname] at accepted
  split at accepted
  · cases accepted
  rename_i short
  split at accepted
  · cases accepted
  rename_i filled w run
  split at accepted
  · cases accepted
  rename_i room
  obtain ⟨text, written, stop, -, total, valid⟩ := @encodeLabels_text _ _ _ [] _ run
  cases accepted
  rw [sum_splitOn] at total
  simp only [nil_append, length_nil, Nat.zero_add] at written stop
  subst written stop
  have named := valid [0] [] .root
  rw [append_nil] at named
  simp only [length_append, length_drop] at room
  refine ⟨text ++ [0], ?_, by simp, by omega, by omega, named, ?_⟩
  · rw [set_append_right _ _ (Nat.le_refl _), Nat.sub_self, drop_eq_getElem_cons (by omega),
      set_cons_zero, append_assoc]
    rfl
  · intro rest
    have skipped := named.skipName rest [] (by simp; omega)
    simpa using skipped

theorem encode_qname_inverts_host :
    encodeQname [9, 9, 9, 9, 9, 9, 9, 9] [97, 46, 46, 98, 99] =
      ([1, 97, 2, 98, 99, 0, 9, 9], some 6) ∧
    ∃ name, name.length = 6 ∧ Name name [[97], [98, 99]] := by
  have accepted : encodeQname [9, 9, 9, 9, 9, 9, 9, 9] [97, 46, 46, 98, 99] =
      ([1, 97, 2, 98, 99, 0, 9, 9], some 6) := by decide
  obtain ⟨name, -, length, -, -, valid, -⟩ := encode_qname_inverts accepted
  exact ⟨accepted, name, length, valid⟩

end CactKernel.Net
