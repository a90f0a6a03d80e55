import PulseScript.Binary64.Rounding

/-!
Arithmetic and comparison. Two finite operands are counted in units of a common
power of two, the operation is carried out on integers, and the result is rounded
once; the special values follow the usual rules of the format.
-/
namespace PulseScript
namespace Binary64

/-- A finite number counted in units of `2 ^ unit`, for a `unit` up to its exponent. -/
def count (negative : Bool) (significand : Nat) (exponent unit : Int) : Int :=
  let magnitude : Int := significand * Nat.pow 2 (exponent - unit).toNat
  if negative then -magnitude else magnitude

/-- The sum. Opposite infinities have none; a zero sum is negative only if both
operands are. -/
def add : Binary64 → Binary64 → Binary64
  | .nan, _ => .nan
  | _, .nan => .nan
  | .infinite s, .infinite t => if s = t then .infinite s else .nan
  | .infinite s, _ => .infinite s
  | _, .infinite t => .infinite t
  | .finite s m e _, .finite t n f _ =>
    let unit := min e f
    ofDyadic (s && t) (count s m e unit + count t n f unit) unit

def sub (x y : Binary64) : Binary64 := add x (neg y)

/-- The product. Zero times infinity has none. -/
def mul : Binary64 → Binary64 → Binary64
  | .nan, _ => .nan
  | _, .nan => .nan
  | .infinite s, .infinite t => .infinite (s ^^ t)
  | .infinite s, .finite t n _ _ => if n = 0 then .nan else .infinite (s ^^ t)
  | .finite s m _ _, .infinite t => if m = 0 then .nan else .infinite (s ^^ t)
  | .finite s m e _, .finite t n f _ =>
    ofDyadic (s ^^ t) (count s m e e * count t n f f) (e + f)

/-- The quotient. Zero by zero and infinity by infinity have none, and any other
division by zero is infinite. -/
def div : Binary64 → Binary64 → Binary64
  | .nan, _ => .nan
  | _, .nan => .nan
  | .infinite _, .infinite _ => .nan
  | .infinite s, .finite t _ _ _ => .infinite (s ^^ t)
  | .finite s _ _ _, .infinite t => zero (s ^^ t)
  | .finite s m e _, .finite t n f _ =>
    if n = 0 then (if m = 0 then .nan else .infinite (s ^^ t))
    else if f ≤ e then nearest (s ^^ t) (m * Nat.pow 2 (e - f).toNat) n
    else nearest (s ^^ t) m (n * Nat.pow 2 (f - e).toNat)

instance : Add Binary64 := ⟨add⟩
instance : Sub Binary64 := ⟨sub⟩
instance : Mul Binary64 := ⟨mul⟩
instance : Div Binary64 := ⟨div⟩

/-- The remainder of the division that truncates; it is exact and has the sign of
the dividend. -/
def remainder : Binary64 → Binary64 → Binary64
  | .finite s m e h, .infinite _ => .finite s m e h
  | .finite s m e _, .finite _ n f _ =>
    if n = 0 then .nan
    else
      let unit := min e f
      ofDyadic s (Int.tmod (count s m e unit) (count false n f unit)) unit
  | _, _ => .nan

/-- The largest whole number that is not above. -/
def floor : Binary64 → Binary64
  | .finite s m e h =>
    if 0 ≤ e then .finite s m e h
    else ofDyadic s ((count s m e e).fdiv (Nat.pow 2 (-e).toNat)) 0
  | x => x

/-- The whole part, toward zero. -/
def truncate : Binary64 → Binary64
  | .finite s m e h =>
    if 0 ≤ e then .finite s m e h
    else ofDyadic s ((count s m e e).tdiv (Nat.pow 2 (-e).toNat)) 0
  | x => x

/-- Numeric equality: a NaN equals nothing, and the zeros are equal. -/
def beq : Binary64 → Binary64 → Bool
  | .infinite s, .infinite t => s == t
  | .finite s m e _, .finite t n f _ => m == n && e == f && (s == t || m == 0)
  | _, _ => false

instance : BEq Binary64 := ⟨beq⟩

def isZero (x : Binary64) : Bool := x == zero false

/-- Strictly below; never true of a NaN. -/
def lt : Binary64 → Binary64 → Bool
  | .infinite s, .infinite t => s && !t
  | .infinite s, .finite .. => s
  | .finite .., .infinite t => !t
  | .finite s m e _, .finite t n f _ =>
    let unit := min e f
    count s m e unit < count t n f unit
  | _, _ => false

/-- The remainder in the range from zero up to a positive modulus. A negative remainder
is raised by the modulus, and this sum is rounded. -/
def modulo (x y : Binary64) : Binary64 :=
  let r := remainder x y
  if lt r (zero false) then r + abs y else r

/-- Below or equal; never true of a NaN. -/
def le (x y : Binary64) : Bool := lt x y || x == y

/-- The whole part as a machine word: what lies outside the range goes to its
nearer end, and a NaN to zero. -/
def toWord : Binary64 → UInt64
  | .nan => 0
  | .infinite s => if s then 0 else UInt64.ofNat (UInt64.size - 1)
  | .finite s m e _ =>
    let whole : Int :=
      if 0 ≤ e then count s m e 0 else (count s m e e).tdiv (Nat.pow 2 (-e).toNat)
    UInt64.ofNat (min whole.toNat (UInt64.size - 1))

end Binary64
end PulseScript
