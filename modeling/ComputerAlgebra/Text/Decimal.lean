import ComputerAlgebra.Integer.Rounding
import ComputerAlgebra.Text.Character

/-!
Reading of exact numbers: integers, quotients `p/q` and decimals with an optional exponent.
Digits may be grouped by single underscores, and blanks may surround the number.
-/

namespace ComputerAlgebra.Text

/-- The digits of a run with its underscores dropped. Each underscore has to stand between two
digits. -/
def digitRun? : List Char → Option (List Nat)
  | [] => some []
  | [c] => (digitValue? c).map fun d => [d]
  | c :: '_' :: d :: rest =>
    match digitValue? c, digitRun? (d :: rest) with
    | some v, some vs => some (v :: vs)
    | _, _ => none
  | c :: rest =>
    match digitValue? c, digitRun? rest with
    | some v, some vs => some (v :: vs)
    | _, _ => none

def digitsValue (ds : List Nat) : Nat := ds.foldl (fun n d => 10 * n + d) 0

def spanDigits (cs : List Char) : List Char × List Char :=
  cs.span fun c => c = '_' || (digitValue? c).isSome

def takeSign : List Char → Bool × List Char
  | '-' :: rest => (true, rest)
  | '+' :: rest => (false, rest)
  | cs => (false, cs)

def readInteger? (cs : List Char) : Option Int :=
  let (negative, rest) := takeSign (strip cs)
  match digitRun? rest with
  | some (d :: ds) =>
    let n : Int := digitsValue (d :: ds)
    some (if negative then -n else n)
  | _ => none

/-- A written decimal, `digits * 10^exponent` with a sign, so that zero can be negative. -/
structure WrittenDecimal where
  negative : Bool
  digits : Nat
  exponent : Int
deriving DecidableEq

/-- A written quotient. The sign is kept apart, so that zero can be negative; the denominator may
be zero. -/
structure WrittenQuotient where
  negative : Bool
  numerator : Nat
  denominator : Nat
deriving DecidableEq

namespace WrittenDecimal

def readExponent? : List Char → Option Int
  | [] => some 0
  | c :: rest =>
    if c = 'e' ∨ c = 'E' then
      let (negative, digits) := takeSign rest
      match digitRun? digits with
      | some (d :: ds) =>
        let n : Int := digitsValue (d :: ds)
        some (if negative then -n else n)
      | _ => none
    else none

def ofDigits (negative : Bool) (whole fraction : List Nat) (exponent : Int) : WrittenDecimal :=
  ⟨negative, digitsValue (whole ++ fraction), exponent - fraction.length⟩

def readUnsigned? (negative : Bool) (cs : List Char) : Option WrittenDecimal := do
  let (before, rest) := spanDigits cs
  let whole ← digitRun? before
  match rest with
  | '.' :: rest =>
    let (after, rest) := spanDigits rest
    let fraction ← digitRun? after
    if whole.isEmpty && fraction.isEmpty then none
    else return ofDigits negative whole fraction (← readExponent? rest)
  | _ =>
    if whole.isEmpty then none
    else return ofDigits negative whole [] (← readExponent? rest)

/-- A decimal with an optional sign; blanks may surround it. -/
def read? (s : String) : Option WrittenDecimal :=
  let (negative, cs) := takeSign (strip s.toList)
  readUnsigned? negative cs

end WrittenDecimal

namespace WrittenQuotient

def ofDecimal (d : WrittenDecimal) : WrittenQuotient :=
  ⟨d.negative, d.digits * tenTo d.exponent.toNat, tenTo (-d.exponent).toNat⟩

/-- A decimal, or a quotient of two whole numbers without blanks around the bar. -/
def read? (s : String) : Option WrittenQuotient := do
  let (negative, cs) := takeSign (strip s.toList)
  let (before, rest) := spanDigits cs
  match rest with
  | '/' :: after =>
    let p ← digitRun? before
    let q ← digitRun? after
    if p.isEmpty || q.isEmpty then none
    else return ⟨negative, digitsValue p, digitsValue q⟩
  | _ => (WrittenDecimal.readUnsigned? negative cs).map ofDecimal

def toInt (q : WrittenQuotient) : Int := if q.negative then -q.numerator else q.numerator

def toRat (q : WrittenQuotient) : Rat := mkRat q.toInt q.denominator

end WrittenQuotient
end ComputerAlgebra.Text
