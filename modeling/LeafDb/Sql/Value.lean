import LeafDb.Pager

/-!
# SQL values and their Python operations

A cell or an intermediate result is `None`, a `bool`, an `int`, a `float` or a `str`. A finite float is its
sign and its rational magnitude; comparisons are exact, as Python's are also between `int` and `float`, and
arithmetic on floats rounds the exact result to the nearest double.
-/

namespace LeafDb

/-! ### Floats -/

/-- A double. The sign of a zero is kept. -/
inductive PyFloat
  | nan
  | inf (neg : Bool)
  | fin (neg : Bool) (mag : ℚ≥0)
deriving DecidableEq

/-- `q` rounded to 53 bits, ties to even; `none` beyond the largest double. -/
def roundMag (q : ℚ) : Option ℚ :=
  if q = 0 then some 0
  else
    let ulp : ℚ := 2 ^ (max (Int.log 2 q) (-1022) - 52)
    let m := q / ulp
    let n := if m - ⌊m⌋ < 1 / 2 ∨ (m - ⌊m⌋ = 1 / 2 ∧ ⌊m⌋ % 2 = 0) then ⌊m⌋ else ⌊m⌋ + 1
    if n * ulp < 2 ^ 1024 then some (n * ulp) else none

namespace PyFloat

/-- The double nearest to `q`; `zeroNeg` is the sign of an exact zero. -/
def ofRat (zeroNeg : Bool) (q : ℚ) : PyFloat :=
  let neg := if q = 0 then zeroNeg else decide (q < 0)
  match roundMag |q| with
  | some m => fin neg m.toNNRat
  | none => inf neg

def isNeg : PyFloat → Bool
  | nan => false
  | inf neg => neg
  | fin neg _ => neg

def neg : PyFloat → PyFloat
  | nan => nan
  | inf n => inf !n
  | fin n m => fin (!n) m

/-- The value of a finite float. -/
def signed (n : Bool) (m : ℚ≥0) : ℚ := if n then -m else m

def add : PyFloat → PyFloat → PyFloat
  | nan, _ => nan
  | _, nan => nan
  | inf n, inf n' => if n = n' then inf n else nan
  | inf n, fin _ _ => inf n
  | fin _ _, inf n => inf n
  | fin n m, fin n' m' => ofRat (n && n') (signed n m + signed n' m')

def sub (a b : PyFloat) : PyFloat := add a b.neg

def mul (a b : PyFloat) : PyFloat :=
  let n := xor a.isNeg b.isNeg
  match a, b with
  | nan, _ => nan
  | _, nan => nan
  | inf _, inf _ => inf n
  | inf _, fin _ m => if m = 0 then nan else inf n
  | fin _ m, inf _ => if m = 0 then nan else inf n
  | fin s m, fin s' m' => ofRat n (signed s m * signed s' m')

/-- Division by a float that is not zero. -/
def div (a b : PyFloat) : PyFloat :=
  let n := xor a.isNeg b.isNeg
  match a, b with
  | nan, _ => nan
  | _, nan => nan
  | inf _, inf _ => nan
  | inf _, fin _ _ => inf n
  | fin _ _, inf _ => fin n 0
  | fin s m, fin s' m' => ofRat n (signed s m / signed s' m')

end PyFloat

/-! ### Values -/

inductive Value
  | none
  | bool (b : Bool)
  | int (i : Int)
  | float (f : PyFloat)
  | str (s : String)
deriving DecidableEq

/-- The exact value of a number, as far as comparisons see it. -/
inductive Ext
  | nan
  | inf (neg : Bool)
  | fin (q : ℚ)
deriving DecidableEq

namespace Ext

def eq : Ext → Ext → Bool
  | nan, _ => false
  | _, nan => false
  | a, b => decide (a = b)

def lt : Ext → Ext → Bool
  | nan, _ => false
  | _, nan => false
  | inf n, inf n' => n && !n'
  | inf n, fin _ => n
  | fin _, inf n => !n
  | fin a, fin b => decide (a < b)

end Ext

namespace Value

/-- The number a value is; `True` and `False` are 1 and 0. -/
def ext : Value → Option Ext
  | bool b => some (.fin (if b then 1 else 0))
  | int i => some (.fin i)
  | float .nan => some .nan
  | float (.inf n) => some (.inf n)
  | float (.fin n m) => some (.fin (PyFloat.signed n m))
  | none => .none
  | str _ => .none

def isStr : Value → Bool
  | str _ => true
  | _ => false

def isInt : Value → Bool
  | int _ => true
  | bool _ => true
  | _ => false

/-- `bool(v)`. -/
def truthy : Value → Bool
  | none => false
  | bool b => b
  | int i => decide (i ≠ 0)
  | float (.fin _ m) => decide (m ≠ 0)
  | float _ => true
  | str s => decide (s ≠ "")

/-- `l == r`. -/
def pyEq (l r : Value) : Bool :=
  match l, r with
  | none, none => true
  | str a, str b => decide (a = b)
  | _, _ =>
    match l.ext, r.ext with
    | some a, some b => a.eq b
    | _, _ => false

/-- `l < r` between two strings or two numbers. -/
def pyLt (l r : Value) : Bool :=
  match l, r with
  | str a, str b => decide (a < b)
  | _, _ =>
    match l.ext, r.ext with
    | some a, some b => a.lt b
    | _, _ => false

/-- `l <= r` between two strings or two numbers. -/
def pyLe (l r : Value) : Bool :=
  match l, r with
  | str a, str b => decide (a ≤ b)
  | _, _ => pyLt l r || pyEq l r

/-- `_eq`. -/
def eq (l r : Value) : Bool := if l.isStr ≠ r.isStr then false else l.pyEq r

/-- `_order_cmp`. -/
def orderCmp (l r : Value) : Except PyError Int :=
  if l.isStr ≠ r.isStr then .error .executionError
  else if l.pyLt r then .ok (-1)
  else if r.pyLt l then .ok 1
  else .ok 0

/-- An `int` or a `float`, not a `bool`. -/
def isNumber : Value → Bool
  | int _ => true
  | float _ => true
  | _ => false

/-- `float(i)`; `OverflowError` beyond the doubles. -/
def intToFloat (i : Int) : Except PyError PyFloat :=
  match PyFloat.ofRat false i with
  | .inf _ => .error .overflowError
  | f => .ok f

def toFloat : Value → Except PyError PyFloat
  | int i => intToFloat i
  | float f => .ok f
  | _ => .error .typeError

/-- `l / r` for integers: the rounded exact quotient. -/
def intTrueDiv (l r : Int) : Except PyError PyFloat :=
  match PyFloat.ofRat false ((l : ℚ) / r) with
  | .inf _ => .error .overflowError
  | f => .ok f

/-- `int(q)`. -/
def truncFloat : PyFloat → Except PyError Int
  | .nan => .error .valueError
  | .inf _ => .error .overflowError
  | .fin n m => .ok (if n then -⌊(m : ℚ)⌋ else ⌊(m : ℚ)⌋)

/-- `q.is_integer()`. -/
def isIntegral : PyFloat → Bool
  | .fin _ m => decide (m.den = 1)
  | _ => false

/-- One of `+`, `-`, `*` on two numbers: exact on integers, else in floats. -/
def arith (onInt : Int → Int → Int) (onFloat : PyFloat → PyFloat → PyFloat) (l r : Value) :
    Except PyError Value :=
  match l, r with
  | int a, int b => .ok (int (onInt a b))
  | _, _ => do return float (onFloat (← l.toFloat) (← r.toFloat))

/-- The `/` of `arith_fn`: `None` on a zero divisor, truncated between integers. -/
def divide (l r : Value) : Except PyError Value :=
  if r.truthy = false then .ok none
  else
    match l, r with
    | int a, int b => do return int (← truncFloat (← intTrueDiv a b))
    | _, _ => do return float ((← l.toFloat).div (← r.toFloat))

/-- `-v`. -/
def negate : Value → Value
  | int i => int (-i)
  | float f => float f.neg
  | v => v

end Value

end LeafDb
