import ComputerAlgebra.Proofs.Expr.Order
import ComputerAlgebra.Proofs.Number.Key

/-!
What the key of an expression without floats tells. The key lists the nodes without the numbers of their
parts. Of most sorts of nodes the number is fixed; only applications and case distinctions have lists of
parts. Together with the lengths of these lists the key determines the expression, and the key alone does
so where there are no such lists.
-/

namespace ComputerAlgebra

namespace Head

def name : Head → String
  | .unary op => op.name
  | .binary op => op.name
  | .app => "Application"
  | .provided => "Provided"
  | .piecewise => "Piecewise"
  | .interval => "Interval"

private def all : List Head :=
  [.app, .provided, .piecewise, .interval] ++ UnaryOp.all.map .unary ++ BinaryOp.all.map .binary

private theorem mem_all (h : Head) : h ∈ all := by
  cases h with
  | unary op => simp [all, UnaryOp.mem_all]
  | binary op => simp [all, BinaryOp.mem_all]
  | app | provided | piecewise | interval => decide

private theorem all_names : ∀ h ∈ all, ∀ h' ∈ all, h.name = h'.name → h = h' := by
  decide +kernel

theorem name_injective {h h' : Head} (same : h.name = h'.name) : h = h' :=
  all_names h (mem_all h) h' (mem_all h') same

private theorem all_inner : ∀ h ∈ all,
    h.name ∉ ["Integer", "Rational", "Real", "Complex", "Variable", "Boolean", "Lambda"] := by
  decide +kernel

end Head

namespace Expr
variable {a b : Expr}

private theorem kindName_head {h : Head} (headed : a.head? = some h) : a.kindName = h.name := by
  cases a <;> cases headed <;> rfl

private theorem num_kindName (z : Number) :
    z.kindName ∈ ["Integer", "Rational", "Real", "Complex"] := by
  cases z with
  | complex => simp [Number.kindName]
  | real x =>
    cases x with
    | rational q =>
      simp only [Number.kindName, RealNumber.kindName]
      split <;> decide
    | float | infinity | nan => simp [Number.kindName, RealNumber.kindName]

private theorem kindName_other (other : a.head? = none) :
    a.kindName ∈ ["Integer", "Rational", "Real", "Complex", "Variable", "Boolean", "Lambda"] := by
  cases a with
  | num z =>
    exact List.mem_append_left ["Variable", "Boolean", "Lambda"] (num_kindName z)
  | var | bool | lam => simp [kindName]
  | _ => cases other

/-- Nodes of one sort have the same head, or are numbers, variables, truth values or functions. -/
private theorem same_sort (kind : a.kindName = b.kindName) :
    (∃ h, a.head? = some h ∧ b.head? = some h) ∨ (∃ z w, a = .num z ∧ b = .num w) ∨
      (∃ x y, a = .var x ∧ b = .var y) ∨ (∃ p q, a = .bool p ∧ b = .bool q) ∨
      ∃ p body q body', a = .lam p body ∧ b = .lam q body' := by
  have apart {a b : Expr} {h : Head} (kind : a.kindName = b.kindName) (headed : a.head? = some h) :
      b.head? ≠ none := by
    intro other
    rw [kindName_head headed] at kind
    exact Head.all_inner h (Head.mem_all h) (kind ▸ kindName_other other)
  have number {z : Number} {s : String} (kind : z.kindName = s) :
      s ∈ ["Integer", "Rational", "Real", "Complex"] := kind ▸ num_kindName z
  cases first : a.head? with
  | some h =>
    cases second : b.head? with
    | none => exact absurd second (apart kind first)
    | some h' =>
      rw [kindName_head first, kindName_head second] at kind
      exact .inl ⟨h, rfl, by rw [Head.name_injective kind]⟩
  | none =>
    have second : b.head? = none := by
      by_contra headed
      obtain ⟨h, headed⟩ := Option.ne_none_iff_exists'.mp headed
      exact apart kind.symm headed first
    -- The names of numbers are not those of the three other sorts.
    cases a <;> cases first <;> cases b <;> cases second <;> simp only [kindName] at kind <;> first
      | (simp; done)
      | exact absurd kind (by decide)
      | exact absurd (number kind) (by decide)
      | exact absurd (number kind.symm) (by decide)

def hasList : Expr → Bool
  | .app _ _ | .piecewise _ => true
  | _ => false

def listSizes (e : Expr) : List Nat := (e.nodes.filter hasList).map (·.children.length)

theorem canonicalKey_eq (u : FloatUnit) (e : Expr) :
    e.canonicalKey u = (e.kindName, e.leafText u) :: e.children.flatMap (canonicalKey u) := by
  rw [canonicalKey, nodes_eq, List.map_cons, List.map_flatMap]
  rfl

theorem listSizes_eq (e : Expr) :
    e.listSizes = (if e.hasList then [e.children.length] else []) ++ e.children.flatMap listSizes := by
  rw [listSizes, nodes_eq, List.filter_cons, List.filter_flatMap]
  split <;> simp only [List.map_cons, List.map_flatMap, List.cons_append, List.nil_append] <;> rfl

private theorem length_of_kind (kind : a.kindName = b.kindName) (fixed : a.hasList = false) :
    a.children.length = b.children.length := by
  rcases same_sort kind with
    ⟨h, left, right⟩ | ⟨z, w, rfl, rfl⟩ | ⟨x, y, rfl, rfl⟩ | ⟨p, q, rfl, rfl⟩ | ⟨p, f, q, g, rfl, rfl⟩
  case inl => cases a <;> cases left <;> cases b <;> cases right <;> first | rfl | cases fixed
  all_goals rfl

private theorem hasList_of_kind (kind : a.kindName = b.kindName) : a.hasList = b.hasList := by
  rcases same_sort kind with
    ⟨h, left, right⟩ | ⟨z, w, rfl, rfl⟩ | ⟨x, y, rfl, rfl⟩ | ⟨p, q, rfl, rfl⟩ | ⟨p, f, q, g, rfl, rfl⟩
  case inl => cases a <;> cases left <;> cases b <;> cases right <;> rfl
  all_goals rfl

private theorem FloatFree.parts (free : FloatFree a) : ∀ part ∈ a.children, FloatFree part := by
  by_cases number : ∃ z, a = .num z
  · obtain ⟨z, rfl⟩ := number
    simp [children]
  · exact (floatFree_parts (not_exists.mp number)).mp free

private theorem flatMap_pair_injective : ∀ {cases cases' : List (Expr × Expr)},
    (cases.flatMap fun (e, p) => [e, p]) = cases'.flatMap (fun (e, p) => [e, p]) → cases = cases'
  | [], [], _ => rfl
  | [], _ :: _, same | _ :: _, [], same => by cases same
  | (e, p) :: cases, (e', p') :: cases', same => by
    simp only [List.flatMap_cons, List.cons_append, List.nil_append, List.cons.injEq] at same
    rw [same.1, same.2.1, flatMap_pair_injective same.2.2]

/-- A node with parts is its head and its parts. -/
theorem eq_of_head {h : Head} (left : a.head? = some h) (right : b.head? = some h)
    (parts : a.children = b.children) : a = b := by
  cases a <;> cases left <;> cases b <;> cases right
  case piecewise.refl.piecewise.refl => rw [flatMap_pair_injective parts]
  all_goals cases parts; rfl

/-- A node without floats is what its sort, its text and its parts say. -/
private theorem eq_of_parts (left : FloatFree a) (right : FloatFree b) {u : FloatUnit}
    (kind : a.kindName = b.kindName) (text : a.leafText u = b.leafText u)
    (parts : a.children = b.children) : a = b := by
  rcases same_sort kind with
    ⟨h, headed, headed'⟩ | ⟨z, w, rfl, rfl⟩ | ⟨x, y, rfl, rfl⟩ | ⟨p, q, rfl, rfl⟩ | ⟨p, f, q, g, rfl, rfl⟩
  · exact eq_of_head headed headed' parts
  · rw [Number.keyText_injective (floatFree_num.mp left) (floatFree_num.mp right) u kind text]
  · rw [show x = y from text]
  · cases p <;> cases q <;> first | rfl | simp [leafText] at text
  · cases parts
    rfl

/-- Where a list of parts ends is settled by the lengths; so texts that go on after the key of an
expression are split in one way only. -/
private theorem keys_apart (u : FloatUnit) {a : Expr} : ∀ {b}, FloatFree a → FloatFree b →
    ∀ {keys keys' sizes sizes'}, a.canonicalKey u ++ keys = b.canonicalKey u ++ keys' →
      a.listSizes ++ sizes = b.listSizes ++ sizes' → a = b ∧ keys = keys' ∧ sizes = sizes' := by
  induction a using children_induction with
  | node a ih =>
    have forest : ∀ {es fs : List Expr}, (∀ e ∈ es, e ∈ a.children) → (∀ e ∈ es, FloatFree e) →
        (∀ f ∈ fs, FloatFree f) → es.length = fs.length → ∀ {keys keys' sizes sizes'},
        es.flatMap (canonicalKey u) ++ keys = fs.flatMap (canonicalKey u) ++ keys' →
        es.flatMap listSizes ++ sizes = fs.flatMap listSizes ++ sizes' →
        es = fs ∧ keys = keys' ∧ sizes = sizes' := by
      intro es
      induction es with
      | nil =>
        intro fs inside left right length keys keys' sizes sizes' shown counted
        obtain rfl := List.length_eq_zero_iff.mp length.symm
        exact ⟨rfl, shown, counted⟩
      | cons e es rest =>
        intro fs inside left right length keys keys' sizes sizes' shown counted
        obtain ⟨f, fs, rfl⟩ := List.exists_cons_of_length_eq_add_one length.symm
        rw [List.forall_mem_cons] at inside left right
        simp only [List.flatMap_cons, List.append_assoc] at shown counted
        obtain ⟨rfl, shown, counted⟩ := ih e inside.1 left.1 right.1 shown counted
        obtain ⟨rfl, ends⟩ := rest inside.2 left.2 right.2 (Nat.succ.inj length) shown counted
        exact ⟨rfl, ends⟩
    intro b left right keys keys' sizes sizes' shown counted
    rw [canonicalKey_eq, canonicalKey_eq u b, List.cons_append, List.cons_append, List.cons.injEq,
      Prod.mk.injEq] at shown
    obtain ⟨⟨kind, text⟩, shown⟩ := shown
    rw [listSizes_eq, listSizes_eq b, ← hasList_of_kind kind] at counted
    have counts : a.children.length = b.children.length ∧
        a.children.flatMap listSizes ++ sizes = b.children.flatMap listSizes ++ sizes' := by
      cases list : a.hasList with
      | false => exact ⟨length_of_kind kind list, by simpa [list] using counted⟩
      | true => simpa [list] using counted
    obtain ⟨parts, ends⟩ := forest (fun _ => id) left.parts right.parts counts.1 shown counts.2
    exact ⟨eq_of_parts left right kind text parts, ends⟩

theorem listSizes_eq_nil : a.listSizes = [] ↔ ∀ n ∈ a.nodes, ¬n.hasList = true := by
  rw [listSizes, List.map_eq_nil_iff, List.filter_eq_nil_iff]

theorem listSizes_eq_of_key {u : FloatUnit} (shown : a.canonicalKey u = b.canonicalKey u)
    (none : a.listSizes = []) : a.listSizes = b.listSizes := by
  rw [none, eq_comm, listSizes_eq_nil]
  intro n inside
  have entry : (n.kindName, n.leafText u) ∈ a.canonicalKey u := shown ▸ List.mem_map_of_mem inside
  obtain ⟨m, member, same⟩ := List.mem_map.mp entry
  rw [hasList_of_kind (Prod.mk.inj same).1.symm]
  exact listSizes_eq_nil.mp none m member

theorem eq_of_canonicalKey (left : FloatFree a) (right : FloatFree b) {u : FloatUnit}
    (shown : a.canonicalKey u = b.canonicalKey u) (counted : a.listSizes = b.listSizes) : a = b :=
  (keys_apart u left right (congrArg (· ++ []) shown) (congrArg (· ++ []) counted)).1

/-- Together with the lengths of the lists of parts, the key of an expression without floats tells which
expression it is; where there are no such lists, it does so alone. -/
theorem canonicalKey_eq_iff (left : FloatFree a) (right : FloatFree b) (u : FloatUnit) :
    (a.canonicalKey u = b.canonicalKey u ∧ a.listSizes = b.listSizes ↔ a = b) ∧
      (a.listSizes = [] → (a.canonicalKey u = b.canonicalKey u ↔ a = b)) := by
  refine ⟨⟨fun same => eq_of_canonicalKey left right same.1 same.2, ?_⟩, fun none => ⟨fun shown => ?_, ?_⟩⟩
  · rintro rfl
    exact ⟨rfl, rfl⟩
  · exact eq_of_canonicalKey left right shown (listSizes_eq_of_key shown none)
  · rintro rfl
    rfl

theorem canonicalKey_eq_iff_product :
    FloatFree (.binary .mul (.num (.complex (.rational (1 / 2)) 3)) (.var "x")) ∧
    FloatFree (.binary .mul (.num (.complex 1 (.rational (2 / 3)))) (.var "x")) ∧
    (Expr.binary .mul (.num (.complex (.rational (1 / 2)) 3)) (.var "x")).canonicalKey ⟨53⟩ ≠
      (Expr.binary .mul (.num (.complex 1 (.rational (2 / 3)))) (.var "x")).canonicalKey ⟨53⟩ :=
  have left : FloatFree (.binary .mul (.num (.complex (.rational (1 / 2)) 3)) (.var "x")) := by decide
  have right : FloatFree (.binary .mul (.num (.complex 1 (.rational (2 / 3)))) (.var "x")) := by decide
  ⟨left, right, fun same => absurd (((canonicalKey_eq_iff left right ⟨53⟩).2 rfl).mp same) (by decide +kernel)⟩

/-- Keys alone do not tell where the list of parts of an inner application ends: `f(g(x), y)` and
`f(g(x, y))` have one key. -/
theorem canonicalKey_shared :
    FloatFree (.app (.var "f") [.app (.var "g") [.var "x"], .var "y"]) ∧
    FloatFree (.app (.var "f") [.app (.var "g") [.var "x", .var "y"]]) ∧
    (Expr.app (.var "f") [.app (.var "g") [.var "x"], .var "y"]).canonicalKey ⟨53⟩ =
      (Expr.app (.var "f") [.app (.var "g") [.var "x", .var "y"]]).canonicalKey ⟨53⟩ ∧
    Expr.app (.var "f") [.app (.var "g") [.var "x"], .var "y"] ≠
      .app (.var "f") [.app (.var "g") [.var "x", .var "y"]] := by
  decide

end Expr
end ComputerAlgebra
