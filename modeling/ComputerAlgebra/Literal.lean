import ComputerAlgebra.BigFloat.Text
import ComputerAlgebra.Binary64.Text
import ComputerAlgebra.Text.Quoted

/-!
Values as a user writes them, before they become expressions: numbers of several widths, text,
truth values, and lists, which no expression is made of. Faults name the sort of a literal and
show its text.
-/

namespace ComputerAlgebra

inductive Literal where
  | none
  | bool (b : Bool)
  | int (n : Int)
  | double (x : Binary64)
  | fraction (q : Rat)
  | complexDouble (re im : Binary64)
  | text (s : String)
  | float (x : BigFloat)
  | complexFloat (re im : BigFloat)
  | list (items : List Literal)

namespace Literal

def typeName : Literal → String
  | .none => "NoneType"
  | .bool _ => "bool"
  | .int _ => "int"
  | .double _ => "float"
  | .fraction _ => "Fraction"
  | .complexDouble _ _ => "complex"
  | .text _ => "str"
  | .float _ => "mpf"
  | .complexFloat _ _ => "mpc"
  | .list _ => "list"

def componentText (x : Binary64) : String :=
  let body := x.render.toList
  let kept := body.length - 2
  String.ofList (if body.drop kept = ['.', '0'] then body.take kept else body)

def complexText (re im : Binary64) : String :=
  if re = Binary64.zero false then s!"{componentText im}j"
  else
    let tail := componentText im
    let sign := if tail.startsWith "-" then "" else "+"
    s!"({componentText re}{sign}{tail}j)"

/-- Digits that show a float of 53 bits so that it reads back; floats with more are not shown in
full. -/
def floatDigits : Nat := 17

def floatText (digits : Nat) : BigFloat → String
  | .finite x => BigFloat.render digits x
  | .infinity negative => if negative then "-inf" else "+inf"
  | .nan => "nan"

def render : Literal → String
  | .none => "None"
  | .bool b => if b then "True" else "False"
  | .int n => toString n
  | .double x => x.render
  | .fraction q => s!"Fraction({q.num}, {q.den})"
  | .complexDouble re im => complexText re im
  | .text s => Text.quoted s
  | .float x => s!"mpf('{floatText floatDigits x}')"
  | .complexFloat re im =>
    s!"mpc(real='{floatText floatDigits re}', imag='{floatText floatDigits im}')"
  | .list items => "[" ++ ", ".intercalate (renderAll items) ++ "]"
where
  renderAll : List Literal → List String
    | [] => []
    | item :: rest => render item :: renderAll rest

def plainText : Literal → String
  | .text s => s
  | .fraction q => if q.den = 1 then toString q.num else s!"{q.num}/{q.den}"
  | .float x => floatText 15 x
  | .complexFloat re im =>
    let sign := if im.negative then "-" else "+"
    s!"({floatText 15 re} {sign} {floatText 15 im.abs}j)"
  | l => l.render

def int? : Literal → Option Int
  | .int n => some n
  | .bool b => some (if b then 1 else 0)
  | _ => Option.none

def isNumeric : Literal → Bool
  | .none | .text _ | .list _ => false
  | _ => true

def float? : Literal → Option BigFloat
  | .double x => some x.toBigFloat
  | .float x => some x
  | l => l.int?.map fun n => .finite n

/-- Whether a literal is less than an integer; none when the two have no order. NaN is not less. -/
def below? (n : Int) (l : Literal) : Option Bool :=
  match l.int?, l with
  | some m, _ => some (m < n)
  | _, .fraction q => some (q < n)
  | _, l => l.float?.map fun x => x.order (.finite n) = .lt

def equalsInt (n : Int) : Literal → Bool
  | .int m => m = n
  | .bool b => (if b then 1 else 0) = n
  | .double x => x.toRat? = some (n : Rat)
  | .fraction q => q = n
  | .complexDouble re im => re.toRat? = some (n : Rat) && im.isZero
  | .float x => x = .finite n
  | .complexFloat re im => re = .finite n && im.isZero
  | .none | .text _ | .list _ => false

end Literal
end ComputerAlgebra
