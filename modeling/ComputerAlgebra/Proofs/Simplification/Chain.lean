import ComputerAlgebra.Proofs.Expr.Key
import ComputerAlgebra.Proofs.Expr.Total
import ComputerAlgebra.Proofs.Polynomial.Writing
import ComputerAlgebra.Proofs.Simplification.Pass

/-!
Chains of sums and of products. Sorting puts the operands of a chain in order and joins them again, from left
to right; two chains are sorted alike exactly when they have the same operands, each as often, in whatever order
and grouping.
-/

namespace ComputerAlgebra.Expr

def links (op : BinaryOp) : Expr → List Expr
  | .binary op' a b => if op' = op then links op a ++ links op b else [.binary op' a b]
  | e => [e]

def chain (op : BinaryOp) (first : Expr) (rest : List Expr) : Expr := rest.foldl (.binary op) first

section Links
variable {op : BinaryOp}

theorem links_self (a b : Expr) : links op (.binary op a b) = links op a ++ links op b := by
  rw [links, if_pos rfl]

theorem links_other {e : Expr} (other : ∀ a b, e ≠ .binary op a b) : links op e = [e] := by
  unfold links
  split
  · next op' a b =>
    rw [if_neg]
    rintro rfl
    exact other a b rfl
  · rfl

theorem links_ne_nil (e : Expr) : links op e ≠ [] := by
  induction e using children_induction with
  | node e ih =>
    unfold links
    split
    · next a b =>
      split
      · exact List.append_ne_nil_of_left_ne_nil (ih a (by simp [children])) _
      · exact List.cons_ne_nil _ _
    · exact List.cons_ne_nil _ _

theorem links_irreducible {e t : Expr} (member : t ∈ links op e) (a b : Expr) : t ≠ .binary op a b := by
  induction e using children_induction with
  | node e ih =>
    unfold links at member
    split at member
    · next op' x y =>
      split at member
      · rcases List.mem_append.mp member with left | right
        · exact ih x (by simp [children]) left
        · exact ih y (by simp [children]) right
      · next other =>
        obtain rfl := List.mem_singleton.mp member
        rintro ⟨⟩
        exact other rfl
    · next other =>
      obtain rfl := List.mem_singleton.mp member
      rintro rfl
      exact other _ _ _ rfl

theorem links_chain (rest : List Expr) : ∀ first, (∀ t ∈ rest, ∀ a b, t ≠ .binary op a b) →
    links op (chain op first rest) = links op first ++ rest := by
  induction rest with
  | nil => intro first _; simp [chain]
  | cons t rest ih =>
    intro first irreducible
    rw [List.forall_mem_cons] at irreducible
    calc links op (chain op (.binary op first t) rest)
        = links op (.binary op first t) ++ rest := ih _ irreducible.2
      _ = links op first ++ t :: rest := by
        rw [links_self, links_other irreducible.1, List.append_assoc, List.singleton_append]

end Links

/-- What is sorted in a chain: no number, no float or list of parts inside, and in a sum no difference. -/
structure Sortable (op : BinaryOp) (t : Expr) : Prop where
  symbolic : t.isNumber = false
  exact : t.FloatFree
  plain : ∀ n ∈ t.nodes, n.hasList = false
  joined : op = .sum → ∀ a b, t ≠ .binary .minus a b

section Sorting
variable {op : BinaryOp} {ts us : List Expr} {u : FloatUnit}

/-- Keys tell apart what is sorted, so that its order in the chain does not matter. -/
theorem sortByKey_eq_of_perm (sortable : ∀ t ∈ ts, Sortable op t) (same : ts.Perm us) :
    sortByKey u id ts = sortByKey u id us := by
  have order : Std.TransCmp fun s t : List (String × String) × Expr => keyOrder s.1 t.1 := transCmp_comap _
  refine congrArg (List.map Prod.snd) (mergeSort_eq_of_perm _ (same.map _) ?_)
  intro s first t second alike
  obtain ⟨a, left, rfl⟩ := List.mem_map.mp first
  obtain ⟨b, right, rfl⟩ := List.mem_map.mp second
  have keys : a.canonicalKey u = b.canonicalKey u := eq_of_keyOrder alike
  have none : a.listSizes = [] :=
    listSizes_eq_nil.mpr fun n inside => by simp [(sortable a left).plain n inside]
  have equal : a = b :=
    eq_of_canonicalKey (sortable a left).exact (sortable b right).exact keys (listSizes_eq_of_key keys none)
  rw [equal]

/-- Terms that all are added are sorted as they are without their signs. -/
theorem sortByKey_signed (ts : List Expr) :
    sortByKey u (·.2) (ts.map (Prod.mk true)) = (sortByKey u id ts).map (Prod.mk true) := by
  have sorted := List.map_mergeSort (r := fun s t : List (String × String) × Expr => keyOrder s.1 t.1 != .gt)
    (s := fun s t : List (String × String) × Bool × Expr => keyOrder s.1 t.1 != .gt)
    (f := fun s => (s.1, true, s.2)) (l := ts.map fun t => (t.canonicalKey u, t)) fun _ _ _ _ => rfl
  simp only [sortByKey, List.map_map, Function.comp_def, id_eq] at sorted ⊢
  rw [← sorted, List.map_map]
  rfl

end Sorting

section Node
variable {c : Config} {op : BinaryOp} {a b : Expr} {u : FloatUnit}

theorem exactNumber?_symbolic {t : Expr} (symbolic : t.isNumber = false) : t.exactNumber? = none := by
  cases t with
  | num z => cases symbolic
  | _ => rfl

theorem splitCoefficient_symbolic (z : Number) (ts : List Expr) (symbolic : ∀ t ∈ ts, t.isNumber = false) :
    splitCoefficient c ts z = pure (z, ts) := by
  induction ts with
  | nil => rfl
  | cons t ts ih =>
    rw [List.forall_mem_cons] at symbolic
    rw [splitCoefficient, exactNumber?_symbolic symbolic.1]
    simp only [ih symbolic.2, pure_bind]

theorem splitConstant_symbolic (z : Number) (ts : List Expr) (symbolic : ∀ t ∈ ts, t.isNumber = false) :
    splitConstant c (ts.map (Prod.mk true)) z = pure (z, ts.map (Prod.mk true)) := by
  induction ts with
  | nil => rfl
  | cons t ts ih =>
    rw [List.forall_mem_cons] at symbolic
    rw [List.map_cons, splitConstant, exactNumber?_symbolic symbolic.1]
    simp only [ih symbolic.2, pure_bind]

theorem factorsOnto_eq (e : Expr) : ∀ rest, factorsOnto e rest = links .mul e ++ rest := by
  induction e using children_induction with
  | node e ih =>
    intro rest
    unfold factorsOnto
    split
    · next a b =>
      rw [ih b (by simp [children]), ih a (by simp [children]), links_self, List.append_assoc]
    · next other => rw [links_other other, List.singleton_append]

theorem signedTerms_eq (e : Expr) : ∀ rest, (∀ t ∈ links .sum e, ∀ a b, t ≠ .binary .minus a b) →
    signedTerms true e rest = (links .sum e).map (Prod.mk true) ++ rest := by
  induction e using children_induction with
  | node e ih =>
    intro rest joined
    unfold signedTerms
    split
    · next a b =>
      rw [links_self] at joined ⊢
      rw [List.forall_mem_append] at joined
      rw [ih b (by simp [children]) _ joined.2, ih a (by simp [children]) _ joined.1, List.map_append,
        List.append_assoc]
    · next a b => exact absurd rfl (joined (.binary .minus a b) (by simp [links]) a b)
    · next other _ => rw [links_other other, List.map_singleton, List.singleton_append]

/-- A chain is sorted to the chain of its operands in the order of their keys. -/
theorem sortNode_chain (kind : op = .mul ∨ op = .sum)
    (sortable : ∀ t ∈ links op (.binary op a b), Sortable op t) :
    ∃ first rest, sortByKey u id (links op (.binary op a b)) = first :: rest ∧
      sortNode c (.binary op a b) u = .ok (chain op first rest) u := by
  have sorting := sortByKey_perm u id (links op (.binary op a b))
  obtain ⟨first, rest, sorted⟩ : ∃ first rest, sortByKey u id (links op (.binary op a b)) = first :: rest :=
    List.exists_cons_of_ne_nil fun none =>
      links_ne_nil _ (List.nil_perm.mp (none ▸ sorting))
  have symbolic : ∀ t ∈ links op (.binary op a b), t.isNumber = false := fun t member =>
    (sortable t member).symbolic
  have read : (get : Computation FloatUnit) u = .ok u u := rfl
  refine ⟨first, rest, sorted, ?_⟩
  rcases kind with rfl | rfl
  · rw [sortNode, sortedProduct, factorsOnto_eq, List.append_nil, splitCoefficient_symbolic 1 _ symbolic,
      pure_bind]
    dsimp only
    rw [if_neg (by decide), Computation.bind_ok read, sorted]
    rfl
  · have joined : ∀ t ∈ links .sum (.binary .sum a b), ∀ x y, t ≠ .binary .minus x y := fun t member =>
      (sortable t member).joined rfl
    rw [sortNode, sortedSum, signedTerms_eq _ _ joined, List.append_nil, splitConstant_symbolic 0 _ symbolic,
      pure_bind]
    dsimp only
    have unsigned : Number.isNegative 0 = false := by decide
    have zero : Number.isZero 0 = true := by decide
    rw [Computation.bind_ok read, sortByKey_signed, sorted, List.map_cons, unsigned, if_neg (by simp), zero,
      if_neg (by simp)]
    simp only [ofSignedTerms, List.foldl_map]
    rfl

end Node

/-- Sorting is a normal form of products, and of sums without differences, up to grouping and order: where the
operands of two chains are no numbers, are exact, and have no lists of parts inside, the chains are sorted to the
same expression exactly when the operands of one are a permutation of those of the other. -/
theorem sort_eq_iff_perm (c : Config) {op : BinaryOp} (kind : op = .mul ∨ op = .sum) {a b a' b' : Expr}
    (sortable : ∀ t ∈ links op (.binary op a b) ++ links op (.binary op a' b'), Sortable op t)
    (u v : FloatUnit) :
    ∃ r s, sortNode c (.binary op a b) u = .ok r u ∧ sortNode c (.binary op a' b') v = .ok s v ∧
      (r = s ↔ (links op (.binary op a b)).Perm (links op (.binary op a' b'))) := by
  rw [List.forall_mem_append] at sortable
  obtain ⟨left, right⟩ := sortable
  obtain ⟨first, rest, sorted, result⟩ := sortNode_chain (c := c) (u := u) kind left
  obtain ⟨first', rest', sorted', result'⟩ := sortNode_chain (c := c) (u := v) kind right
  have order := sortByKey_perm u id (links op (.binary op a b))
  have order' := sortByKey_perm v id (links op (.binary op a' b'))
  rw [sorted] at order
  rw [sorted'] at order'
  refine ⟨_, _, result, result', fun same => ?_, fun same => ?_⟩
  · have parts {first : Expr} {rest : List Expr} {x y : Expr}
        (order : (first :: rest).Perm (links op (.binary op x y))) :
        links op (chain op first rest) = first :: rest := by
      have irreducible := fun t member => links_irreducible (order.mem_iff.mp member) (t := t)
      rw [List.forall_mem_cons] at irreducible
      rw [links_chain rest first irreducible.2, links_other irreducible.1, List.singleton_append]
    have lists := congrArg (links op) same
    rw [parts order, parts order'] at lists
    exact order.symm.trans (lists ▸ order')
  · have lists : first :: rest = first' :: rest' := by
      rw [← sorted, ← sorted', sortByKey_eq_of_perm left same]
      exact sortByKey_congr fun t member => (right t member).exact.key u v
    obtain ⟨rfl, rfl⟩ := List.cons.inj lists
    rfl

/-- `(x * y) * x` and `x * (x * y)` are sorted alike. -/
theorem sort_eq_iff_perm_product :
    (∀ t ∈ links .mul (.binary .mul (.binary .mul (.var "x") (.var "y")) (.var "x")) ++
      links .mul (.binary .mul (.var "x") (.binary .mul (.var "x") (.var "y"))), Sortable .mul t) ∧
    ∃ r s, sortNode .default (.binary .mul (.binary .mul (.var "x") (.var "y")) (.var "x")) ⟨53⟩ = .ok r ⟨53⟩ ∧
      sortNode .default (.binary .mul (.var "x") (.binary .mul (.var "x") (.var "y"))) ⟨15⟩ = .ok s ⟨15⟩ ∧
      (r = s ↔ [Expr.var "x", .var "y", .var "x"].Perm [.var "x", .var "x", .var "y"]) := by
  have sortable : ∀ t ∈ links .mul (.binary .mul (.binary .mul (.var "x") (.var "y")) (.var "x")) ++
      links .mul (.binary .mul (.var "x") (.binary .mul (.var "x") (.var "y"))), Sortable .mul t := by
    have name (s : String) : Sortable .mul (.var s) :=
      ⟨rfl, rfl, by simp [nodes_eq, children, hasList], fun _ => nofun⟩
    simp [links, name]
  exact ⟨sortable, sort_eq_iff_perm .default (.inl rfl) sortable ⟨53⟩ ⟨15⟩⟩

end ComputerAlgebra.Expr
