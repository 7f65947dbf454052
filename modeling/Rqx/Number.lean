import Mathlib.Data.Rat.Defs

/-! Floating point numbers read as exact rationals, with the infinities and NaN: what is
computed with them, and how they are read from a text. -/

inductive Number
  | negInf
  | fin (q : ℚ)
  | posInf
  | nan
  deriving DecidableEq

namespace Number

/-- `<`; no comparison with NaN holds. -/
def lt : Number → Number → Bool
  | .nan,_ => false
  | _,.nan => false
  | .fin p,.fin q => p < q
  | .negInf,b => b ≠ .negInf
  | a,.posInf => a ≠ .posInf
  | _,_ => false

/-- The larger number; NaN gives way to the other operand. -/
def max (a b : Number) : Number :=
  if a = .nan then b else if b = .nan then a else if a.lt b then b else a

/-- The smaller number; NaN gives way to the other operand. -/
def min (a b : Number) : Number :=
  if a = .nan then b else if b = .nan then a else if b.lt a then b else a

def add : Number → Number → Number
  | .fin p,.fin q => .fin (p+q)
  | .nan,_ => .nan
  | _,.nan => .nan
  | .fin _,b => b
  | a,.fin _ => a
  | a,b => if a = b then a else .nan

/-- The sign, 0 for zero and for NaN. -/
def sign : Number → ℤ
  | .negInf => -1
  | .fin q => if q < 0 then -1 else if 0 < q then 1 else 0
  | .posInf => 1
  | .nan => 0

/-- Zero times an infinity is NaN. -/
def mul : Number → Number → Number
  | .fin p,.fin q => .fin (p*q)
  | a,b =>
    if a.sign*b.sign < 0 then .negInf
    else if 0 < a.sign*b.sign then .posInf
    else .nan

/-- `2_f32.powi`; the exponents of `f32` end at 127. -/
def twoPowi (n : ℕ) : Number := if n < 128 then .fin (2^n) else .posInf

/-! ## Reading -/

def digits (text : List Char) : ℕ := text.foldl (fun n c => 10*n+(c.toNat-48)) 0

/-- A sign, if there is one, and what follows it. -/
def splitSign : List Char → Bool × List Char
  | '-' :: text => (true,text)
  | '+' :: text => (false,text)
  | text => (false,text)

/-- The exponent behind an `e`; no text is the exponent 0. -/
def parseExponent : List Char → Option ℤ
  | [] => some 0
  | e::text =>
    let (negative,text) := splitSign text
    if e.toLower = 'e' ∧ text ≠ [] ∧ text.all Char.isDigit then
      some (if negative then -digits text else digits text)
    else none

def scale (q : ℚ) (exponent : ℤ) : ℚ :=
  if 0 ≤ exponent then q*10^exponent.toNat else q/10^(-exponent).toNat

/-- Digits with at most one point among them, and an exponent. -/
def parseDecimal (text : List Char) : Option ℚ :=
  let whole := text.takeWhile Char.isDigit
  let (fraction,rest) := match text.dropWhile Char.isDigit with
    | '.' :: rest => (rest.takeWhile Char.isDigit,rest.dropWhile Char.isDigit)
    | rest => ([],rest)
  if whole = [] ∧ fraction = [] then none
  else (parseExponent rest).map fun exponent =>
    scale (digits (whole++fraction)) (exponent-fraction.length)

/-- `str::parse::<f32>`. -/
def parse (text : String) : Option Number :=
  let (negative,text) := splitSign text.toList
  let name := String.ofList (text.map Char.toLower)
  if name = "inf" ∨ name = "infinity" then some (if negative then .negInf else .posInf)
  else if name = "nan" then some .nan
  else (parseDecimal text).map fun q => .fin (if negative then -q else q)

example : parse "-1.5e1" = some (.fin (-15)) := by decide +kernel

end Number
