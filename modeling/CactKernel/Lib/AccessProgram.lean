import Mathlib.Tactic.Ring

/-! # Programs that access an object through its address

A program is the tree of its accesses to 32-bit words at offsets from one
object; a read branches over every value that the memory could give. So the
offsets a program `Touches` are those of all its executions, whatever other
threads of control store in between. `stop` ends an execution that does not
return.

`exec` runs a program on a byte memory by itself; `exec_frame` says that the
bytes outside a program's range stay. -/

set_option autoImplicit false

namespace Lib

inductive Program (α : Type) : Type
  | done (a : α)
  | stop
  | read (off : Nat) (k : Nat → Program α)
  | write (off value : Nat) (k : Program α)
  | compareExchange (off expected new : Nat) (k : Bool → Program α)
  | fetchAdd (off value : Nat) (k : Program α)

namespace Program

variable {α β : Type}

def bind : Program α → (α → Program β) → Program β
  | done a, f => f a
  | stop, _ => stop
  | read off k, f => read off fun v => (k v).bind f
  | write off v k, f => write off v (k.bind f)
  | compareExchange off e n k, f => compareExchange off e n fun b => (k b).bind f
  | fetchAdd off v k, f => fetchAdd off v (k.bind f)

inductive Touches : Program α → Nat → Prop
  | read (off : Nat) (k : Nat → Program α) : Touches (.read off k) off
  | write (off v : Nat) (k : Program α) : Touches (.write off v k) off
  | compareExchange (off e n : Nat) (k : Bool → Program α) :
      Touches (.compareExchange off e n k) off
  | fetchAdd (off v : Nat) (k : Program α) : Touches (.fetchAdd off v k) off
  | afterRead {off other : Nat} {k : Nat → Program α} (v : Nat) (later : Touches (k v) other) :
      Touches (.read off k) other
  | afterWrite {off v other : Nat} {k : Program α} (later : Touches k other) :
      Touches (.write off v k) other
  | afterExchange {off e n other : Nat} {k : Bool → Program α} (b : Bool)
      (later : Touches (k b) other) : Touches (.compareExchange off e n k) other
  | afterAdd {off v other : Nat} {k : Program α} (later : Touches k other) :
      Touches (.fetchAdd off v k) other

/-- Every access lies in the first `size` bytes. -/
def Within (size : Nat) : Program α → Prop
  | done _ => True
  | stop => True
  | read off k => off + 4 ≤ size ∧ ∀ v, (k v).Within size
  | write off _ k => off + 4 ≤ size ∧ k.Within size
  | compareExchange off _ _ k => off + 4 ≤ size ∧ ∀ b, (k b).Within size
  | fetchAdd off _ k => off + 4 ≤ size ∧ k.Within size

variable {size : Nat}

theorem within_iff : ∀ {p : Program α},
    p.Within size ↔ ∀ off, p.Touches off → off + 4 ≤ size := by
  intro p
  constructor
  · intro within off touches
    induction touches with
    | read off k | write off v k | compareExchange off e n k | fetchAdd off v k => exact within.1
    | afterRead v _ ih => exact ih (within.2 v)
    | afterWrite _ ih | afterAdd _ ih => exact ih within.2
    | afterExchange b _ ih => exact ih (within.2 b)
  · intro bounded
    induction p with
    | done a | stop => trivial
    | read off k ih =>
      refine ⟨bounded off (.read off k), fun v => ih v fun other touches => ?_⟩
      exact bounded other (.afterRead v touches)
    | write off v k ih =>
      refine ⟨bounded off (.write off v k), ih fun other touches => ?_⟩
      exact bounded other (.afterWrite touches)
    | compareExchange off e n k ih =>
      refine ⟨bounded off (.compareExchange off e n k), fun b => ih b fun other touches => ?_⟩
      exact bounded other (.afterExchange b touches)
    | fetchAdd off v k ih =>
      refine ⟨bounded off (.fetchAdd off v k), ih fun other touches => ?_⟩
      exact bounded other (.afterAdd touches)

theorem Within.bind {f : α → Program β} (rest : ∀ a, (f a).Within size) :
    ∀ {p : Program α}, p.Within size → (p.bind f).Within size := by
  intro p
  induction p with
  | done a => intro _; exact rest a
  | stop => intro _; trivial
  | read off k ih => intro within; exact ⟨within.1, fun v => ih v (within.2 v)⟩
  | write off v k ih | fetchAdd off v k ih => intro within; exact ⟨within.1, ih within.2⟩
  | compareExchange off e n k ih => intro within; exact ⟨within.1, fun b => ih b (within.2 b)⟩

/-! ## Execution on a byte memory -/

abbrev Memory := Nat → UInt8

def load32 (mem : Memory) (a : Nat) : Nat :=
  (mem a).toNat + 256 * (mem (a + 1)).toNat + 65536 * (mem (a + 2)).toNat +
    16777216 * (mem (a + 3)).toNat

def store32 (mem : Memory) (a value : Nat) : Memory := fun b =>
  if b = a then UInt8.ofNat value
  else if b = a + 1 then UInt8.ofNat (value / 256)
  else if b = a + 2 then UInt8.ofNat (value / 65536)
  else if b = a + 3 then UInt8.ofNat (value / 16777216)
  else mem b

variable {mem : Memory} {a value b : Nat}

theorem store32_outside (outside : b < a ∨ a + 4 ≤ b) :
    store32 mem a value b = mem b := by
  unfold store32
  rw [if_neg (by omega), if_neg (by omega), if_neg (by omega), if_neg (by omega)]

theorem load32_store32_outside (apart : b + 4 ≤ a ∨ a + 4 ≤ b) :
    load32 (store32 mem a value) b = load32 mem b := by
  unfold load32
  rw [store32_outside (by omega), store32_outside (by omega), store32_outside (by omega),
    store32_outside (by omega)]

theorem load32_store32 (word : value < 2 ^ 32) :
    load32 (store32 mem a value) a = value := by
  simp only [load32, store32, if_true, UInt8.toNat_ofNat']
  rw [if_neg (by omega), if_neg (by omega), if_neg (by omega), if_neg (by omega), if_neg (by omega),
    if_neg (by omega)]
  simp only [UInt8.toNat_ofNat']
  omega

def exec (base : Nat) : Program α → Memory → Option (α × Memory)
  | done a, mem => some (a, mem)
  | stop, _ => none
  | read off k, mem => (k (load32 mem (base + off))).exec base mem
  | write off v k, mem => k.exec base (store32 mem (base + off) v)
  | compareExchange off e n k, mem =>
    if load32 mem (base + off) = e then (k true).exec base (store32 mem (base + off) n)
    else (k false).exec base mem
  | fetchAdd off v k, mem =>
    k.exec base (store32 mem (base + off) ((load32 mem (base + off) + v) % 2 ^ 32))

theorem exec_frame {base : Nat} (outside : b < base ∨ base + size ≤ b) {p : Program α}
    {mem mem' : Memory} {a : α} (within : p.Within size) (run : p.exec base mem = some (a, mem')) :
    mem' b = mem b := by
  induction p generalizing mem mem' a with
  | done a =>
    cases run
    rfl
  | stop => exact absurd run (by simp [exec])
  | read off k ih => exact ih _ (within.2 _) run
  | write off v k ih | fetchAdd off v k ih =>
    rw [ih within.2 run]
    exact store32_outside (by have := within.1; omega)
  | compareExchange off e n k ih =>
    simp only [exec] at run
    split at run
    · rw [ih true (within.2 true) run]
      exact store32_outside (by have := within.1; omega)
    · exact ih false (within.2 false) run

end Program

end Lib
