import ComputerAlgebra.Domain
import ComputerAlgebra.Fraction.Closest
import ComputerAlgebra.Literal

/-!
Settings of the algebra system. A `Config` is a record of settings that passed its checks; it is
handed to every operation that depends on one of them. Settings are kept as they were given, since
they are shown that way; what they mean for the operations is read off them by the functions at the
end. The checks are few: a setting that they let pass may still be of no use, and is refused by the
operation that needs it.
-/

namespace ComputerAlgebra

structure Settings where
  /-- Decimal digits of inexact numbers. -/
  precision : Literal := .int 100
  /-- Distance below which a computed number is an integer, or its imaginary part zero. -/
  zeroTolerance : Literal := .fraction (mkRat 1 (tenTo 16))
  equalityTolerance : Literal := .fraction (mkRat 1 (tenTo 6))
  /-- The largest partial quotient when a fraction is recovered. -/
  maxRationalPart : Literal := .int (tenTo 8)
  /-- Reciprocals taken when a fraction is recovered. -/
  rationalSearchDepth : Literal := .int 15
  maxExpansionTerms : Literal := .int 2000
  simplifyLevel : Literal := .int 2
  maxTreeDepth : Literal := .int 10000
  codomain : Domain := .complex

namespace Settings

def isBelow (n : Int) (setting : Literal) : Except Fault Bool :=
  match setting.below? n with
  | some below => .ok below
  | none => .error (.notOrdered "<" setting.typeName "int")

def check (s : Settings) : Except Fault Unit := do
  if ← isBelow 15 s.precision then throw (.precisionTooLow s.precision.plainText)
  if ← isBelow 0 s.zeroTolerance then throw .negativeTolerance
  if ← isBelow 0 s.equalityTolerance then throw .negativeTolerance
  if ← isBelow 1 s.maxTreeDepth then throw .depthNotPositive

def fault? (s : Settings) : Option Fault :=
  match s.check with
  | .ok () => none
  | .error f => some f

/-- A tolerance as it is kept: doubles become the closest fraction with a denominator up to
`10^30`. -/
def exactTolerance : Literal → Except Fault Literal
  | .double x =>
    match x.toRat? with
    | some q => .ok (.fraction (Fraction.closest (tenTo 30) q))
    | none => .error (if x = .nan then .noFraction else .overflow)
  | l => .ok l

def exactTolerances (s : Settings) : Except Fault Settings := do
  let zero ← exactTolerance s.zeroTolerance
  return { s with zeroTolerance := zero, equalityTolerance := ← exactTolerance s.equalityTolerance }

def set (s : Settings) (name : String) (value : Literal) : Except Fault Settings :=
  match name with
  | "precision" => .ok { s with precision := value }
  | "zero_tolerance" => .ok { s with zeroTolerance := value }
  | "equality_tolerance" => .ok { s with equalityTolerance := value }
  | "max_rational_part" => .ok { s with maxRationalPart := value }
  | "rational_search_depth" => .ok { s with rationalSearchDepth := value }
  | "max_expansion_terms" => .ok { s with maxExpansionTerms := value }
  | "simplify_level" => .ok { s with simplifyLevel := value }
  | "max_tree_depth" => .ok { s with maxTreeDepth := value }
  | "codomain" =>
    match value with
    | .text d =>
      match Domain.ofName? d with
      | some d => .ok { s with codomain := d }
      | none => .error (.unknownDomain d)
    | _ => .error (.unknownDomain value.render)
  | _ => .error (.unknownSetting name)

end Settings

/-- A bound on counts of terms. The pairs of terms of two polynomials are held against its
square. -/
structure TermBound where
  count : Rat
  square : Rat

namespace TermBound

def exact (q : Rat) : TermBound := ⟨q, q * q⟩

def ofFloat (x : Dyadic) : TermBound := ⟨x.toRat, (BigFloat.roundDyadic 53 (x * x)).toRat⟩

end TermBound

structure Config extends Settings where
  sound : toSettings.fault? = none := by decide

namespace Config

def ofSettings (s : Settings) : Except Fault Config :=
  match h : s.fault? with
  | some fault => .error fault
  | none => .ok { toSettings := s, sound := h }

def default : Config := { toSettings := {}, sound := by decide +kernel }

instance : Inhabited Config := ⟨default⟩

def lowPrecision : Config where
  precision := .int 30
  rationalSearchDepth := .int 10
  maxExpansionTerms := .int 200
  simplifyLevel := .int 1
  sound := by decide +kernel

def highPrecision : Config where
  precision := .int 300
  zeroTolerance := .fraction (mkRat 1 (tenTo 40))
  equalityTolerance := .fraction (mkRat 1 (tenTo 12))
  maxExpansionTerms := .int 10000
  simplifyLevel := .int 4
  sound := by decide +kernel

def preset? : String → Option Config
  | "low_precision" => some lowPrecision
  | "medium_precision" => some default
  | "high_precision" => some highPrecision
  | _ => none

def evolve (c : Config) (changes : List (String × Literal)) : Except Fault Config := do
  let changed ← changes.foldlM (fun s (name, value) => s.set name value) c.toSettings
  ofSettings (← changed.exactTolerances)

/-! The texts of settings -/

def fractionText (q : Rat) : String :=
  if q.den = 1 then toString q.num else s!"{q.num}/{q.den}"

def entryText : Literal → String
  | .fraction q => s!"{q.num}/{q.den}"
  | l => l.plainText

def entries (c : Config) : List (String × String) := [
  ("precision", entryText c.precision),
  ("zero_tolerance", entryText c.zeroTolerance),
  ("equality_tolerance", entryText c.equalityTolerance),
  ("max_rational_part", entryText c.maxRationalPart),
  ("rational_search_depth", entryText c.rationalSearchDepth),
  ("max_expansion_terms", entryText c.maxExpansionTerms),
  ("simplify_level", entryText c.simplifyLevel),
  ("max_tree_depth", entryText c.maxTreeDepth),
  ("codomain", c.codomain.name)]

def render (c : Config) : String :=
  let precision := c.precision.plainText
  let tolerance := c.zeroTolerance.plainText
  let level := c.simplifyLevel.plainText
  s!"Config(precision={precision}, zero_tolerance={tolerance}, simplify_level={level}, " ++
    s!"codomain=Domain.{c.codomain.name.map Char.toUpper})"

/-! The meaning of settings -/

def digits (c : Config) : Nat :=
  match c.precision, c.precision.float? with
  | .fraction q, _ => (q.num / q.den).toNat
  | _, some (.finite x) => (BigFloat.floorDyadic x).toNat
  | _, _ => 0

/-- Binary digits that hold a count of decimal digits: one decimal digit more than asked for,
rounded to whole bits. -/
def bitsOf (digits : Nat) : Nat :=
  (nearestEven ((digits + 1 : Nat) * 33219280948873626) (tenTo 16)).toNat

def bits (c : Config) : Nat := bitsOf c.digits

/-- An infinite or undefined precision passes the checks, but nothing can be computed with it. -/
def precisionFault? (c : Config) : Option Fault :=
  match c.precision with
  | .double (.infinity _) => some .overflow
  | .double .nan | .float .nan | .float (.infinity _) => some .noFraction
  | _ => none

/-- Digits of an inexact number in the long form of a result; none when they are no whole
number. -/
def shownDigits? (c : Config) : Option Nat :=
  match c.precision.int?, c.precision.below? 40 with
  | some n, _ => some (max 5 (min 30 (n - 10))).toNat
  | none, some false => some 30
  | none, _ => if c.precision.equalsInt 15 then some 5 else none

def zeroBound (c : Config) : Except Fault Rat :=
  match c.zeroTolerance, c.zeroTolerance.int? with
  | .fraction q, _ => .ok q
  | _, some n => .ok n
  | _, none => .error .numberRequired

def equalityBound (c : Config) : Except Fault Rat :=
  match c.equalityTolerance, c.equalityTolerance.int? with
  | .fraction q, _ => .ok q
  | _, some n => .ok n
  | _, none => .error .unsupported

def partBound (c : Config) : Except Fault BigFloat :=
  match c.maxRationalPart, c.maxRationalPart.float? with
  | _, some x => .ok x
  | .complexDouble _ _, _ | .complexFloat _ _, _ => .error .unsupported
  | l, none => .error (.notOrdered "<=" "mpf" l.typeName)

def searchDepth (c : Config) : Except Fault Int :=
  match c.rationalSearchDepth, c.rationalSearchDepth.int? with
  | _, some n => .ok n
  | .none, _ => .error (.notCombined "+" (Literal.typeName .none) "int")
  | .text s, _ => .error (.notJoined (Literal.typeName (.text s)))
  | .list items, _ => .error (.notJoined (Literal.typeName (.list items)))
  | l, none => .error (.notCount l.typeName)

/-- The largest count of terms of an expanded polynomial; none when there is no bound. Nothing is
within a bound of minus infinity. -/
def expansionBound (c : Config) : Except Fault (Option TermBound) :=
  match c.maxExpansionTerms, c.maxExpansionTerms.int?, c.maxExpansionTerms.float? with
  | .fraction q, _, _ => .ok (some (.exact q))
  | _, some n, _ => .ok (some (.exact n))
  | _, _, some (.finite x) => .ok (some (.ofFloat x))
  | _, _, some (.infinity true) => .ok (some (.exact (-1)))
  | _, _, some _ => .ok Option.none
  | .none, _, _ =>
    .error (.notCombined "*" (Literal.typeName .none) (Literal.typeName .none))
  | .text s, _, _ => .error (.notRepeated (Literal.typeName (.text s)))
  | .list items, _, _ => .error (.notRepeated (Literal.typeName (.list items)))
  | l, _, Option.none => .error (.notOrdered ">" "int" l.typeName)

def isTooDeep (c : Config) (depth : Nat) : Bool := c.maxTreeDepth.below? depth = some true

end Config
end ComputerAlgebra
