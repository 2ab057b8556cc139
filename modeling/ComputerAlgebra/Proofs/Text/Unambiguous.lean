import ComputerAlgebra.Proofs.Expr.Measure
import ComputerAlgebra.Proofs.Text.Reading

/-!
The text of arithmetic determines its value. Expressions that differ may have one text, for instance sums
with other parentheses; but the text of each reads back as its value, so they have one value or none,
whatever variables and powers stand for.
-/

namespace ComputerAlgebra

open Interpretation (Level)

/-- Names that are taken neither for numbers nor for signs. Every name of letters, digits and underscores
is one, in whatever alphabet, that starts with a letter. -/
structure Identifier (x : String) : Prop where
  nonempty : x ≠ ""
  start : Token.isNumeral x.toList = false
  plain : ∀ c ∈ x.toList, c ∉ [' ', '(', ')', '+', '-', '*', '/', '^']

namespace Identifier

private theorem not_isDigit_of_isAlpha {c : Char} (letter : c.isAlpha = true) : c.isDigit = false := by
  delta Char.isAlpha Char.isUpper Char.isLower at letter
  simp only [Char.isDigit, Bool.or_eq_true, Bool.and_eq_true, Bool.and_eq_false_iff, decide_eq_true_eq,
    decide_eq_false_iff_not, UInt32.le_iff_toNat_le, ge_iff_le] at letter ⊢
  have below : 'A'.val.toNat = 65 ∧ 'a'.val.toNat = 97 ∧ '9'.val.toNat = 57 := ⟨rfl, rfl, rfl⟩
  omega

theorem of_latin {x : String} {c : Char} {rest : List Char} (spelled : x.toList = c :: rest)
    (letter : c.isAlpha = true) (all : ∀ d ∈ rest, d.isAlphanum = true ∨ d = '_') : Identifier x where
  nonempty := by
    rintro rfl
    cases spelled
  start := by simp [spelled, Token.isNumeral, not_isDigit_of_isAlpha letter]
  plain := by
    intro d member sign
    have other : d.isAlphanum = false ∧ d ≠ '_' := by
      simp only [List.mem_cons, List.not_mem_nil, or_false] at sign
      rcases sign with rfl | rfl | rfl | rfl | rfl | rfl | rfl | rfl <;> decide
    rw [spelled] at member
    rcases List.mem_cons.mp member with rfl | member
    · simp [Char.isAlphanum, letter] at other
    · rcases all d member with alphanumeric | underscore
      · simp [alphanumeric] at other
      · exact other.2 underscore

variable {x : String}

theorem scan (named : Identifier x) : Token.scan x.toList = [.word x.toList] := by
  refine Token.scan_word (by simpa using named.nonempty) fun c member => ?_
  have apart := named.plain c member
  simp only [List.mem_cons, not_or] at apart
  simp [Token.isWordChar, apart]

theorem wordValue (named : Identifier x) (I : Interpretation) : I.wordValue x.toList = I.var x := by
  rw [Interpretation.wordValue, named.start, if_neg Bool.false_ne_true, String.ofList_toList]

end Identifier

namespace Expr

inductive IsArithmetic : Expr → Prop
  | num (q : Rat) : IsArithmetic (.num (.ofRat q))
  | var {x : String} (named : Identifier x) : IsArithmetic (.var x)
  | sum {a b : Expr} (left : IsArithmetic a) (right : IsArithmetic b) :
    IsArithmetic (.binary .sum a b)
  | minus {a b : Expr} (left : IsArithmetic a) (right : IsArithmetic b) :
    IsArithmetic (.binary .minus a b)
  | mul {a b : Expr} (left : IsArithmetic a) (right : IsArithmetic b) :
    IsArithmetic (.binary .mul a b)
  | div {a b : Expr} (left : IsArithmetic a) (right : IsArithmetic b) :
    IsArithmetic (.binary .div a b)
  | pow {a b : Expr} (base : IsArithmetic a) (exponent : IsArithmetic b) :
    IsArithmetic (.binary .pow a b)

/-- The text is read as tightly as the expression binds, and gives its value. -/
structure ReadsBack (I : Interpretation) (e : Expr) (text : String) (l : Level) : Prop where
  binds : e.priority = l.priority
  reads : I.Reads (Token.scan text.toList) (I.value e) l

variable {I : Interpretation} {e a b : Expr} {text left right : String} {l m : Level}

namespace ReadsBack

theorem atSum (given : ReadsBack I e text l) : I.Reads (Token.scan text.toList) (I.value e) .sum :=
  given.reads.loosen (by cases l <;> decide)

theorem toList_parentheses (text : String) : (s!"({text})").toList = '(' :: (text.toList ++ [')']) := by
  simp
  rfl

theorem scan_parentheses (text : String) :
    Token.scan (s!"({text})").toList = .opening :: Token.scan text.toList ++ [.closing] := by
  rw [toList_parentheses, Token.scan_opening, Token.scan_append _ (by decide)]
  rfl

/-- To the left of an operator an operand is read at the level of the operator. -/
theorem wrap_left (given : ReadsBack I e text l) (m : Level) :
    I.Reads (Token.scan (wrapText m.priority false e text).toList) (I.value e) m := by
  by_cases looser : e.priority.toNat < m.priority.toNat
  · rw [wrapText, if_pos (by simp [looser]), scan_parentheses]
    exact (Interpretation.Reads.parentheses given.atSum).loosen (by cases m <;> decide)
  · rw [wrapText, if_neg (by simpa using looser)]
    exact given.reads.loosen (by rw [← given.binds]; omega)

/-- To its right it is read at the next tighter level. -/
theorem wrap_right (given : ReadsBack I e text l) (m : Level) :
    I.Reads (Token.scan (wrapText m.priority true e text).toList) (I.value e) m.tighter := by
  by_cases looser : e.priority.toNat ≤ m.priority.toNat
  · rw [wrapText, if_pos (by simpa [← Nat.le_iff_lt_or_eq] using looser), scan_parentheses]
    exact (Interpretation.Reads.parentheses given.atSum).loosen (by cases m <;> decide)
  · rw [wrapText, if_neg (by simp; omega)]
    refine given.reads.loosen ?_
    rw [given.binds] at looser
    revert looser
    cases l <;> cases m <;> decide

theorem scan_infix (left right : String) (sign : List Char) :
    Token.scan (left.toList ++ ' ' :: (sign ++ ' ' :: right.toList)) =
      Token.scan left.toList ++ (Token.scan sign ++ Token.scan right.toList) := by
  rw [Token.scan_append _ (by simp [Token.isWordChar]), Token.scan_blank,
    Token.scan_append _ (by simp [Token.isWordChar]), Token.scan_blank]

theorem num (c : Config) (q : Rat) :
    ∃ l, ReadsBack I (.num (.ofRat q)) (renderNode c (.num (.ofRat q)) []) l := by
  have strength : (Expr.num (.ofRat q)).priority =
      if q < 0 then .sum else if q.den = 1 then .leaf else .product := by
    simp [priority, Number.priority, RealNumber.priority, Number.ofRat, RealNumber.isNegative]
  by_cases negative : q < 0
  · refine ⟨.sum, by rw [strength, if_pos negative]; rfl, ?_⟩
    have size : 0 ≤ -q := neg_nonneg.mpr negative.le
    have opposite : I.opposite (some (-q)) = some q := by
      simp [Interpretation.opposite, Interpretation.apply, Interpretation.operate]
    change I.Reads (Token.scan (Config.fractionText q).toList) (some q) .sum
    rw [Token.fractionText_of_neg negative, Token.scan_minus, ← opposite]
    exact (Interpretation.Reads.fraction size).power_of_atom.opposite.sum_of_product
  · have operand : I.Reads (Token.scan (Config.fractionText q).toList) (some q) .atom :=
      Interpretation.Reads.fraction (not_lt.mp negative)
    by_cases integer : q.den = 1
    · exact ⟨.atom, by rw [strength, if_neg negative, if_pos integer]; rfl, operand⟩
    · exact ⟨.product, by rw [strength, if_neg negative, if_neg integer]; rfl,
        operand.power_of_atom.product_of_power⟩

theorem var (c : Config) {x : String} (named : Identifier x) :
    ReadsBack I (.var x) (renderNode c (.var x) []) .atom where
  binds := rfl
  reads := by
    have read : I.Reads [.word x.toList] _ .atom := .word _
    rwa [named.wordValue, ← named.scan] at read

variable (first : ReadsBack I a left l) (second : ReadsBack I b right m) (c : Config)
include first second

theorem sum : ReadsBack I (.binary .sum a b) (renderNode c (.binary .sum a b) [left, right]) .sum where
  binds := rfl
  reads := by
    have spelled : (renderNode c (.binary .sum a b) [left, right]).toList =
        (wrapText .sum false a left).toList ++
          ' ' :: (['+'] ++ ' ' :: (wrapText .sum false b right).toList) := by
      simp [renderNode, BinaryOp.priority]
      rfl
    rw [spelled, scan_infix]
    exact (first.wrap_left .sum).sum (second.wrap_left .sum)

theorem minus :
    ReadsBack I (.binary .minus a b) (renderNode c (.binary .minus a b) [left, right]) .sum where
  binds := rfl
  reads := by
    have spelled : (renderNode c (.binary .minus a b) [left, right]).toList =
        (wrapText .sum false a left).toList ++
          ' ' :: (['-'] ++ ' ' :: (wrapText .sum true b right).toList) := by
      simp [renderNode, BinaryOp.priority, BinaryOp.symbol]
      rfl
    rw [spelled, scan_infix]
    exact (first.wrap_left .sum).minus (second.wrap_right .sum)

theorem mul :
    ReadsBack I (.binary .mul a b) (renderNode c (.binary .mul a b) [left, right]) .product where
  binds := rfl
  reads := by
    by_cases opposite : a.isMinusOne = true
    · have same : a = minusOne := of_decide_eq_true opposite
      have spelled : (renderNode c (.binary .mul a b) [left, right]).toList =
          '-' :: (wrapText .product true b right).toList := by
        simp [renderNode, BinaryOp.priority, opposite]
        rfl
      rw [spelled, Token.scan_minus]
      subst same
      exact (second.wrap_right .product).opposite
    · have spelled : (renderNode c (.binary .mul a b) [left, right]).toList =
          (wrapText .product false a left).toList ++
            ' ' :: (['*'] ++ ' ' :: (wrapText .product false b right).toList) := by
        simp [renderNode, BinaryOp.priority, opposite]
        rfl
      rw [spelled, scan_infix]
      exact (first.wrap_left .product).mul (second.wrap_left .product)

theorem div :
    ReadsBack I (.binary .div a b) (renderNode c (.binary .div a b) [left, right]) .product where
  binds := rfl
  reads := by
    have spelled : (renderNode c (.binary .div a b) [left, right]).toList =
        (wrapText .product false a left).toList ++
          ' ' :: (['/'] ++ ' ' :: (wrapText .product true b right).toList) := by
      simp [renderNode, BinaryOp.priority, BinaryOp.symbol]
      rfl
    rw [spelled, scan_infix]
    exact (first.wrap_left .product).div (second.wrap_right .product)

theorem pow :
    ReadsBack I (.binary .pow a b) (renderNode c (.binary .pow a b) [left, right]) .power where
  binds := rfl
  reads := by
    by_cases root : b = half
    · have spelled : (renderNode c (.binary .pow a b) [left, right]).toList =
          "sqrt".toList ++ (s!"({left})").toList := by
        simp [renderNode, root]
        rfl
      rw [spelled, Token.scan_append _ (by rw [toList_parentheses]; rfl), scan_parentheses]
      subst root
      exact Interpretation.Reads.root _ first.atSum
    · have spelled : (renderNode c (.binary .pow a b) [left, right]).toList =
          (wrapText .power true a left).toList ++
            ' ' :: (['^'] ++ ' ' :: (wrapText .power false b right).toList) := by
        simp [renderNode, BinaryOp.priority, root]
        rfl
      rw [spelled, scan_infix]
      exact (first.wrap_right .power).pow (second.wrap_left .power)

end ReadsBack

namespace IsArithmetic

theorem readsBack (I : Interpretation) (c : Config) (arithmetic : IsArithmetic e) :
    ∃ l, ReadsBack I e (e.render c) l := by
  induction arithmetic with
  | num q => exact ReadsBack.num c q
  | var named => exact ⟨_, ReadsBack.var c named⟩
  | sum _ _ left right =>
    obtain ⟨⟨_, first⟩, ⟨_, second⟩⟩ := And.intro left right
    exact ⟨_, first.sum second c⟩
  | minus _ _ left right =>
    obtain ⟨⟨_, first⟩, ⟨_, second⟩⟩ := And.intro left right
    exact ⟨_, first.minus second c⟩
  | mul _ _ left right =>
    obtain ⟨⟨_, first⟩, ⟨_, second⟩⟩ := And.intro left right
    exact ⟨_, first.mul second c⟩
  | div _ _ left right =>
    obtain ⟨⟨_, first⟩, ⟨_, second⟩⟩ := And.intro left right
    exact ⟨_, first.div second c⟩
  | pow _ _ left right =>
    obtain ⟨⟨_, first⟩, ⟨_, second⟩⟩ := And.intro left right
    exact ⟨_, first.pow second c⟩

/-- The text of an arithmetic expression reads back as its value. -/
theorem read?_render (arithmetic : IsArithmetic e) (I : Interpretation) (c : Config) :
    I.read? (e.render c) = some (I.value e) := by
  obtain ⟨_, back⟩ := arithmetic.readsBack I c
  exact Interpretation.read?_eq back.atSum

theorem comparesFloats (arithmetic : IsArithmetic e) : e.comparesFloats = false := by
  induction arithmetic with
  | num | var => rfl
  | sum _ _ left right | minus _ _ left right | mul _ _ left right | div _ _ left right
  | pow _ _ left right =>
    unfold Expr.comparesFloats at left right ⊢
    rw [nodes_eq]
    simp [children, left, right]

theorem text_eq (arithmetic : IsArithmetic e) (c : Config) (u : FloatUnit) :
    e.text c u = .ok (e.render c) u := by
  rw [text, arithmetic.comparesFloats]
  rfl

end IsArithmetic

/-- Arithmetic expressions have a text whatever the settings, and expressions with one text have one
value, or none, whatever the variables and the powers stand for. -/
theorem text_determines_value (first : IsArithmetic a) (second : IsArithmetic b) (c d : Config)
    (u v : FloatUnit) : ∃ s t, a.text c u = .ok s u ∧ b.text d v = .ok t v ∧
      (s = t → ∀ I : Interpretation, I.value a = I.value b) := by
  refine ⟨a.render c, b.render d, first.text_eq c u, second.text_eq d v, fun same I => ?_⟩
  have one : some (I.value a) = some (I.value b) := by
    rw [← first.read?_render I c, ← second.read?_render I d, same]
  exact Option.some.inj one

/-- The sum of minus two, written as an opposite, and a name, with a quotient by a root added. -/
def groupedLeft : Expr :=
  .binary .sum (.binary .sum (.binary .mul (.num (.ofRat (-1))) (.num (.ofRat 2))) (.var "x"))
    (.binary .div (.var "y_1") (.binary .pow (.num (.ofRat (3 / 2))) (.num (.ofRat (1 / 2)))))

/-- The number minus two with the sum of the name and the quotient added. -/
def groupedRight : Expr :=
  .binary .sum (.num (.ofRat (-2))) (.binary .sum (.var "x")
    (.binary .div (.var "y_1") (.binary .pow (.num (.ofRat (3 / 2))) (.num (.ofRat (1 / 2))))))

theorem grouped_text_determines_value :
    IsArithmetic groupedLeft ∧ IsArithmetic groupedRight ∧ groupedLeft ≠ groupedRight ∧
      groupedLeft.render .default = "-2 + x + y_1 / sqrt(3/2)" ∧
      ∀ I : Interpretation, I.value groupedLeft = I.value groupedRight := by
  have x : Identifier "x" := .of_latin rfl (by decide) (by simp)
  have y : Identifier "y_1" := .of_latin rfl (by decide) (by simp; decide)
  have quotient : IsArithmetic (.binary .div (.var "y_1")
      (.binary .pow (.num (.ofRat (3 / 2))) (.num (.ofRat (1 / 2))))) :=
    .div (.var y) (.pow (.num _) (.num _))
  have left : IsArithmetic groupedLeft := .sum (.sum (.mul (.num _) (.num _)) (.var x)) quotient
  have right : IsArithmetic groupedRight := .sum (.num _) (.sum (.var x) quotient)
  have leftText : groupedLeft.render .default = "-2 + x + y_1 / sqrt(3/2)" := by decide +kernel
  have rightText : groupedRight.render .default = "-2 + x + y_1 / sqrt(3/2)" := by decide +kernel
  refine ⟨left, right, by decide +kernel, leftText, ?_⟩
  obtain ⟨s, t, printed, printed', same⟩ :=
    text_determines_value left right .default .default ⟨15⟩ ⟨15⟩
  rw [left.text_eq, leftText] at printed
  rw [right.text_eq, rightText] at printed'
  cases printed
  cases printed'
  exact same rfl

end Expr
end ComputerAlgebra
