import ComputerAlgebra.Proofs.Rational.Value
import ComputerAlgebra.Proofs.Text.Scanning

/-!
Reading arithmetic back from its text. The reader goes through the text once and keeps, of everything it
has read, only what it will do with the value of the operand that comes next. Sums and products are read
from the left, powers from the right; a minus sign before an operand belongs to the product. There is one
way of reading for each binding strength, and the looser ones include the tighter ones.
-/

namespace ComputerAlgebra

/-- What variables and powers stand for; the other operations are those of the fractions. -/
structure Interpretation where
  var : String → Rat
  power : Rat → Rat → Option Rat

/-- What becomes of the value of the next operand: of the power that it ends, of the product that the
power ends, and of the sum that the product ends. -/
structure Frame where
  sum : Option Rat → Option Rat
  product : Option Rat → Option Rat
  power : Option Rat → Option Rat

namespace Frame

def fresh : Frame := ⟨id, id, id⟩

def close (f : Frame) (v : Option Rat) : Option Rat := f.sum (f.product (f.power v))

end Frame

/-- The reader waits for an operand or has just read one; outside the innermost parentheses there are
the frames of those around them. -/
inductive Reader where
  | wanting (f : Frame) (outer : List Frame)
  | having (f : Frame) (outer : List Frame) (v : Option Rat)

namespace Interpretation
variable (I : Interpretation)

def operate : BinaryOp → Rat → Rat → Option Rat
  | .sum, x, y => some (x + y)
  | .minus, x, y => some (x - y)
  | .mul, x, y => some (x * y)
  | .div, x, y => Expr.quotient? x y
  | .pow, x, y => I.power x y
  | _, _, _ => none

def apply (op : BinaryOp) (u v : Option Rat) : Option Rat :=
  u.bind fun x => v.bind fun y => I.operate op x y

def opposite (v : Option Rat) : Option Rat := I.apply .mul (some (-1)) v

def root (v : Option Rat) : Option Rat := I.apply .pow v (some (1 / 2))

def value : Expr → Option Rat
  | .num z => z.rational?
  | .var x => some (I.var x)
  | .binary op a b => I.apply op (value a) (value b)
  | _ => none

def wordValue (w : List Char) : Rat :=
  if Token.isNumeral w then Token.fraction w else I.var (String.ofList w)

/-- Parentheses right after a word are those of a root, since no other function is written so. -/
def step : Reader → Token → Option Reader
  | .wanting f outer, .word w => some (.having f outer (some (I.wordValue w)))
  | .wanting f outer, .minus =>
    some (.wanting { f with product := fun v => f.product (I.opposite v) } outer)
  | .wanting f outer, .opening => some (.wanting .fresh (f :: outer))
  | .having f outer _, .opening =>
    some (.wanting .fresh ({ f with power := fun v => f.power (I.root v) } :: outer))
  | .having f (g :: outer) v, .closing => some (.having g outer (f.close v))
  | .having f outer v, .minus => some (.wanting ⟨I.apply .minus (f.close v), id, id⟩ outer)
  | .having f outer v, .word ['+'] => some (.wanting ⟨I.apply .sum (f.close v), id, id⟩ outer)
  | .having f outer v, .word ['*'] =>
    some (.wanting ⟨f.sum, I.apply .mul (f.product (f.power v)), id⟩ outer)
  | .having f outer v, .word ['/'] =>
    some (.wanting ⟨f.sum, I.apply .div (f.product (f.power v)), id⟩ outer)
  | .having f outer v, .word ['^'] =>
    some (.wanting { f with power := fun w => f.power (I.apply .pow v w) } outer)
  | _, _ => none

def run (r : Reader) (tokens : List Token) : Option Reader := tokens.foldlM I.step r

def read? (text : String) : Option (Option Rat) :=
  match I.run (.wanting .fresh []) (Token.scan text.toList) with
  | some (.having f [] v) => some (f.close v)
  | _ => none

theorem run_cons {r r' : Reader} {token : Token} (tokens : List Token) (goes : I.step r token = some r') :
    I.run r (token :: tokens) = I.run r' tokens := by
  simp [run, goes]

theorem run_append {r r' : Reader} {first : List Token} (rest : List Token)
    (goes : I.run r first = some r') : I.run r (first ++ rest) = I.run r' rest := by
  simp only [run] at goes ⊢
  rw [List.foldlM_append, goes]
  rfl

/-! Sums and products may be read from the left -/

structure Additive (s : Option Rat → Option Rat) : Prop where
  sum : ∀ u v, s (I.apply .sum u v) = I.apply .sum (s u) v
  minus : ∀ u v, s (I.apply .minus u v) = I.apply .minus (s u) v

structure Multiplicative (p : Option Rat → Option Rat) : Prop where
  mul : ∀ u v, p (I.apply .mul u v) = I.apply .mul (p u) v
  div : ∀ u v, p (I.apply .div u v) = I.apply .div (p u) v

theorem additive_id : I.Additive id := ⟨fun _ _ => rfl, fun _ _ => rfl⟩

theorem multiplicative_id : I.Multiplicative id := ⟨fun _ _ => rfl, fun _ _ => rfl⟩

theorem additive_sum (a : Option Rat) : I.Additive (I.apply .sum a) where
  sum u v := by cases a <;> cases u <;> cases v <;> simp [apply, operate, add_assoc]
  minus u v := by cases a <;> cases u <;> cases v <;> simp [apply, operate, add_sub_assoc]

theorem multiplicative_mul (a : Option Rat) : I.Multiplicative (I.apply .mul a) where
  mul u v := by cases a <;> cases u <;> cases v <;> simp [apply, operate, mul_assoc]
  div u v := by
    cases a <;> cases u <;> rcases v with _ | y <;> simp only [apply, operate, Option.bind_none, Option.bind_some]
    by_cases zero : y = 0 <;> simp [Expr.quotient?, zero, mul_div_assoc]

/-! Ways of reading -/

inductive Level where
  | sum | product | power | atom

namespace Level

def priority : Level → Priority
  | .sum => .sum
  | .product => .product
  | .power => .power
  | .atom => .leaf

def tighter : Level → Level
  | .sum => .product
  | .product => .power
  | .power | .atom => .atom

end Level

/-- After the pieces the reader has an operand, and what it will make of it is what it would have made
of the value. A tighter way of reading changes less of what the reader keeps. -/
def Reads (tokens : List Token) (v : Option Rat) : Level → Prop
  | .sum => ∀ s outer, I.Additive s →
    ∃ f w, I.run (.wanting ⟨s, id, id⟩ outer) tokens = some (.having f outer w) ∧ f.close w = s v
  | .product => ∀ s p outer, I.Multiplicative p →
    ∃ q r w, I.run (.wanting ⟨s, p, id⟩ outer) tokens = some (.having ⟨s, q, r⟩ outer w) ∧
      q (r w) = p v
  | .power => ∀ s p r outer,
    ∃ t w, I.run (.wanting ⟨s, p, r⟩ outer) tokens = some (.having ⟨s, p, t⟩ outer w) ∧ t w = r v
  | .atom => ∀ f outer, I.run (.wanting f outer) tokens = some (.having f outer v)

variable {I} {first second : List Token} {u v : Option Rat}

namespace Reads

theorem power_of_atom (given : I.Reads first v .atom) : I.Reads first v .power :=
  fun s p r outer => ⟨r, v, given ⟨s, p, r⟩ outer, rfl⟩

theorem product_of_power (given : I.Reads first v .power) : I.Reads first v .product := by
  intro s p outer _
  obtain ⟨t, w, goes, value⟩ := given s p id outer
  exact ⟨p, t, w, goes, congrArg p value⟩

theorem sum_of_product (given : I.Reads first v .product) : I.Reads first v .sum := by
  intro s outer _
  obtain ⟨q, r, w, goes, value⟩ := given s id outer I.multiplicative_id
  exact ⟨⟨s, q, r⟩, w, goes, congrArg s value⟩

/-- What can be read as a tight operand can be read as a loose one. -/
theorem loosen {l m : Level} (given : I.Reads first v l)
    (looser : m.priority.toNat ≤ l.priority.toNat) : I.Reads first v m := by
  cases l with
  | sum =>
    cases m with
    | sum => exact given
    | product | power | atom => exact absurd looser (by decide)
  | product =>
    cases m with
    | sum => exact given.sum_of_product
    | product => exact given
    | power | atom => exact absurd looser (by decide)
  | power =>
    cases m with
    | sum => exact given.product_of_power.sum_of_product
    | product => exact given.product_of_power
    | power => exact given
    | atom => exact absurd looser (by decide)
  | atom =>
    cases m with
    | sum => exact given.power_of_atom.product_of_power.sum_of_product
    | product => exact given.power_of_atom.product_of_power
    | power => exact given.power_of_atom
    | atom => exact given

theorem word (w : List Char) : I.Reads [.word w] (some (I.wordValue w)) .atom :=
  fun f outer => I.run_cons [] (by rw [step]) |>.trans rfl

theorem fraction {q : Rat} (nonneg : 0 ≤ q) :
    I.Reads (Token.scan (Config.fractionText q).toList) (some q) .atom := by
  have value : I.wordValue (Config.fractionText q).toList = q := by
    rw [wordValue, Token.isNumeral_fractionText nonneg, if_pos rfl, Token.fraction_fractionText nonneg]
  have read : I.Reads [.word (Config.fractionText q).toList] _ .atom := word _
  rwa [value, ← Token.scan_fractionText nonneg] at read

theorem parentheses (given : I.Reads first v .sum) :
    I.Reads (.opening :: first ++ [.closing]) v .atom := by
  intro f outer
  obtain ⟨g, w, goes, value⟩ := given id (f :: outer) I.additive_id
  rw [List.cons_append, I.run_cons _ (by rw [step])]
  rw [show Frame.fresh = ⟨id, id, id⟩ from rfl, I.run_append _ goes, I.run_cons _ (by rw [step]), value]
  rfl

theorem root (name : List Char) (given : I.Reads first v .sum) :
    I.Reads (.word name :: .opening :: first ++ [.closing]) (I.root v) .power := by
  intro s p r outer
  obtain ⟨g, w, goes, value⟩ :=
    given id (⟨s, p, fun v => r (I.root v)⟩ :: outer) I.additive_id
  refine ⟨fun v => r (I.root v), v, ?_, rfl⟩
  rw [List.cons_append, I.run_cons _ (by rw [step]), List.cons_append, I.run_cons _ (by rw [step])]
  rw [show Frame.fresh = ⟨id, id, id⟩ from rfl, I.run_append _ goes, I.run_cons _ (by rw [step]), value]
  rfl

theorem opposite (given : I.Reads first v .power) :
    I.Reads (.minus :: first) (I.opposite v) .product := by
  intro s p outer _
  obtain ⟨t, w, goes, value⟩ := given s (fun v => p (I.opposite v)) id outer
  refine ⟨fun v => p (I.opposite v), t, w, ?_, by rw [value]; rfl⟩
  rw [I.run_cons _ (by rw [step]), goes]

theorem pow (base : I.Reads first u .atom) (exponent : I.Reads second v .power) :
    I.Reads (first ++ .word ['^'] :: second) (I.apply .pow u v) .power := by
  intro s p r outer
  obtain ⟨t, w, goes, value⟩ := exponent s p (fun w => r (I.apply .pow u w)) outer
  refine ⟨t, w, ?_, value⟩
  rw [I.run_append _ (base ⟨s, p, r⟩ outer), I.run_cons _ (by rw [step]), goes]

theorem mul (left : I.Reads first u .product) (right : I.Reads second v .product) :
    I.Reads (first ++ .word ['*'] :: second) (I.apply .mul u v) .product := by
  intro s p outer multiplicative
  obtain ⟨q, r, w, goes, value⟩ := left s p outer multiplicative
  obtain ⟨q', r', w', goes', value'⟩ :=
    right s (I.apply .mul (q (r w))) outer (I.multiplicative_mul _)
  refine ⟨q', r', w', ?_, by rw [value', value, multiplicative.mul]⟩
  rw [I.run_append _ goes, I.run_cons _ (by rw [step]), goes']

theorem div (left : I.Reads first u .product) (right : I.Reads second v .power) :
    I.Reads (first ++ .word ['/'] :: second) (I.apply .div u v) .product := by
  intro s p outer multiplicative
  obtain ⟨q, r, w, goes, value⟩ := left s p outer multiplicative
  obtain ⟨t, w', goes', value'⟩ := right s (I.apply .div (q (r w))) id outer
  refine ⟨I.apply .div (q (r w)), t, w', ?_, by rw [value', value, multiplicative.div]; rfl⟩
  rw [I.run_append _ goes, I.run_cons _ (by rw [step]), goes']

theorem sum (left : I.Reads first u .sum) (right : I.Reads second v .sum) :
    I.Reads (first ++ .word ['+'] :: second) (I.apply .sum u v) .sum := by
  intro s outer additive
  obtain ⟨f, w, goes, value⟩ := left s outer additive
  obtain ⟨g, w', goes', value'⟩ := right (I.apply .sum (f.close w)) outer (I.additive_sum _)
  refine ⟨g, w', ?_, by rw [value', value, additive.sum]⟩
  rw [I.run_append _ goes, I.run_cons _ (by rw [step]), goes']

theorem minus (left : I.Reads first u .sum) (right : I.Reads second v .product) :
    I.Reads (first ++ .minus :: second) (I.apply .minus u v) .sum := by
  intro s outer additive
  obtain ⟨f, w, goes, value⟩ := left s outer additive
  obtain ⟨q, r, w', goes', value'⟩ :=
    right (I.apply .minus (f.close w)) id outer I.multiplicative_id
  refine ⟨⟨I.apply .minus (f.close w), q, r⟩, w', ?_, ?_⟩
  · rw [I.run_append _ goes, I.run_cons _ (by rw [step]), goes']
  · calc
      I.apply .minus (f.close w) (q (r w')) = I.apply .minus (s u) v := by rw [value', value]; rfl
      _ = s (I.apply .minus u v) := (additive.minus u v).symm

end Reads

/-- A text that is read as a sum has the value of the sum. -/
theorem read?_eq {text : String} (given : I.Reads (Token.scan text.toList) v .sum) :
    I.read? text = some v := by
  obtain ⟨f, w, goes, value⟩ := given id [] I.additive_id
  rw [read?, show Frame.fresh = ⟨id, id, id⟩ from rfl, goes]
  exact congrArg some value

end Interpretation
end ComputerAlgebra
