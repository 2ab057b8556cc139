import ComputerAlgebra.Proofs.Nameless.Basic
import Mathlib.Logic.Function.Basic

/-!
Nameless terms with other free names. Equality of nameless terms is decidable; giving the free names other
names goes along with substitution and with opening, and an injective change of names can be undone.
-/

namespace ComputerAlgebra
namespace Nameless

section Equality

mutual
def beq : Nameless → Nameless → Bool
  | .num z, .num w => z = w
  | .bool b, .bool b' => b = b'
  | .constant x, .constant y => x = y
  | .free x, .free y => x = y
  | .bound i, .bound j => i = j
  | .lam body, .lam body' => beq body body'
  | .node h parts, .node h' parts' => h = h' && beqList parts parts'
  | _, _ => false
def beqList : List Nameless → List Nameless → Bool
  | [], [] => true
  | t :: rest, t' :: rest' => beq t t' && beqList rest rest'
  | _, _ => false
end

mutual
theorem beq_refl : ∀ t : Nameless, beq t t = true
  | .num _ | .bool _ | .constant _ | .free _ | .bound _ => by simp [beq]
  | .lam body => by simp [beq, beq_refl body]
  | .node _ parts => by simp [beq, beqList_refl parts]
theorem beqList_refl : ∀ parts : List Nameless, beqList parts parts = true
  | [] => rfl
  | t :: rest => by simp [beqList, beq_refl t, beqList_refl rest]
end

mutual
theorem eq_of_beq : ∀ {t t' : Nameless}, beq t t' = true → t = t'
  | .num _, t', same | .bool _, t', same | .constant _, t', same | .free _, t', same
  | .bound _, t', same => by
    cases t' <;> simp_all [beq]
  | .lam body, t', same => by
    cases t' <;> simp only [beq, Bool.false_eq_true] at same
    rw [eq_of_beq same]
  | .node _ parts, t', same => by
    cases t' <;> simp only [beq, Bool.and_eq_true, decide_eq_true_eq, Bool.false_eq_true] at same
    rw [same.1, eq_of_beqList same.2]
theorem eq_of_beqList : ∀ {parts parts' : List Nameless}, beqList parts parts' = true → parts = parts'
  | [], parts', same => by cases parts' <;> simp_all [beqList]
  | t :: rest, parts', same => by
    cases parts' <;> simp only [beqList, Bool.and_eq_true, Bool.false_eq_true] at same
    rw [eq_of_beq same.1, eq_of_beqList same.2]
end

instance : DecidableEq Nameless := fun t t' =>
  decidable_of_iff (beq t t' = true) ⟨eq_of_beq, fun same => same ▸ beq_refl t⟩

end Equality

/-- What passes from the parts of a term to the term holds everywhere. -/
theorem parts_induction {P : Nameless → Prop} (num : ∀ z, P (.num z)) (bool : ∀ b, P (.bool b))
    (constant : ∀ x, P (.constant x)) (free : ∀ x, P (.free x)) (bound : ∀ i, P (.bound i))
    (lam : ∀ body, P body → P (.lam body))
    (node : ∀ h parts, (∀ part ∈ parts, P part) → P (.node h parts)) (t : Nameless) : P t :=
  @Nameless.rec P (fun parts => ∀ part ∈ parts, P part)
    num bool constant free bound lam node (by simp)
    (fun _ _ first rest => List.forall_mem_cons.mpr ⟨first, rest⟩) t

section Renaming
variable (σ : String → String)

mutual
def renamed : Nameless → Nameless
  | .free x => .free (σ x)
  | .lam body => .lam (renamed body)
  | .node h parts => .node h (renamedList parts)
  | t => t
def renamedList : List Nameless → List Nameless
  | [] => []
  | t :: rest => renamed t :: renamedList rest
end

theorem renamedList_eq_map (parts : List Nameless) : renamedList σ parts = parts.map (renamed σ) := by
  induction parts with
  | nil => rfl
  | cons t rest ih => rw [renamedList, ih, List.map_cons]

variable {σ} {τ : String → String}

theorem renamed_congr {t : Nameless} (same : ∀ y, HasFree y t → σ y = τ y) :
    renamed σ t = renamed τ t := by
  induction t using parts_induction with
  | num | bool | constant | bound => rfl
  | free x => rw [renamed, renamed, same x rfl]
  | lam body ih => rw [renamed, renamed, ih same]
  | node h parts ih =>
    rw [renamed, renamed, renamedList_eq_map, renamedList_eq_map]
    congr 1
    exact List.map_congr_left fun part member =>
      ih part member fun y free => same y (anyFree_iff.mpr ⟨part, member, free⟩)

theorem renamed_renamed (t : Nameless) : renamed τ (renamed σ t) = renamed (τ ∘ σ) t := by
  induction t using parts_induction with
  | num | bool | constant | bound | free => rfl
  | lam body ih => rw [renamed, renamed, renamed, ih]
  | node h parts ih =>
    simp only [renamed, renamedList_eq_map, List.map_map]
    congr 1
    exact List.map_congr_left ih

theorem renamed_id (t : Nameless) : renamed id t = t := by
  induction t using parts_induction with
  | num | bool | constant | bound | free => rfl
  | lam body ih => rw [renamed, ih]
  | node h parts ih =>
    rw [renamed, renamedList_eq_map, List.map_congr_left ih, List.map_id']

/-- Names that stay apart can be taken back. -/
theorem renamed_injective (apart : Function.Injective σ) : Function.Injective (renamed σ) := by
  have undone (t : Nameless) : renamed (Function.invFun σ) (renamed σ t) = t := by
    rw [renamed_renamed, Function.invFun_comp apart, renamed_id]
  intro s t same
  rw [← undone s, same, undone]

theorem hasFree_renamed {z : String} {t : Nameless} :
    HasFree z (renamed σ t) ↔ ∃ y, HasFree y t ∧ z = σ y := by
  induction t using parts_induction with
  | num | bool | constant | bound => simp [renamed, HasFree]
  | free x => simp [renamed, HasFree]
  | lam body ih => exact ih
  | node h parts ih =>
    simp only [renamed, HasFree, anyFree_iff, renamedList_eq_map, List.mem_map]
    constructor
    · rintro ⟨_, ⟨part, member, rfl⟩, free⟩
      obtain ⟨y, inside, same⟩ := (ih part member).mp free
      exact ⟨y, ⟨part, member, inside⟩, same⟩
    · rintro ⟨y, ⟨part, member, inside⟩, same⟩
      exact ⟨_, ⟨part, member, rfl⟩, (ih part member).mpr ⟨y, inside, same⟩⟩

theorem renamed_opened (value : Nameless) {t : Nameless} : ∀ k,
    renamed σ (opened value k t) = opened (renamed σ value) k (renamed σ t) := by
  induction t using parts_induction with
  | num | bool | constant | free => exact fun _ => rfl
  | bound i =>
    intro k
    by_cases same : i = k <;> simp [opened, renamed, same]
  | lam body ih =>
    intro k
    rw [opened, renamed, renamed, opened, ih]
  | node h parts ih =>
    intro k
    simp only [opened, renamed, openedList_eq_map, renamedList_eq_map, List.map_map]
    congr 1
    exact List.map_congr_left fun part member => ih part member k

/-- Substitution for a name that gets a new name of its own. -/
theorem renamed_subst {x z : String} {value t : Nameless}
    (fresh : ∀ y, HasFree y t → y ≠ x → σ y ≠ z) :
    renamed σ (subst x value t)
      = subst z (renamed σ value) (renamed (Function.update σ x z) t) := by
  induction t using parts_induction with
  | num | bool | constant | bound => rfl
  | free y =>
    by_cases same : y = x
    · subst same
      simp [subst, renamed]
    · simp [subst, renamed, same, fresh y rfl same]
  | lam body ih => rw [subst, renamed, renamed, subst, ih fresh]
  | node h parts ih =>
    simp only [subst, renamed, substList_eq_map, renamedList_eq_map, List.map_map]
    congr 1
    exact List.map_congr_left fun part member =>
      ih part member fun y free => fresh y (anyFree_iff.mpr ⟨part, member, free⟩)

end Renaming

section Closing
variable (z : String)

mutual
/-- Binds a free name by the function that is `k` functions further out. -/
def closed (k : Nat) : Nameless → Nameless
  | .free y => if y = z then .bound k else .free y
  | .lam body => .lam (closed (k + 1) body)
  | .node h parts => .node h (closedList k parts)
  | t => t
def closedList (k : Nat) : List Nameless → List Nameless
  | [] => []
  | t :: rest => closed k t :: closedList k rest
end

theorem closedList_eq_map (k : Nat) (parts : List Nameless) :
    closedList z k parts = parts.map (closed z k) := by
  induction parts with
  | nil => rfl
  | cons t rest ih => rw [closedList, ih, List.map_cons]

variable {z}

/-- Closing takes back what opening with a new name does. -/
theorem closed_opened {t : Nameless} : ∀ k, ¬HasFree z t → closed z k (opened (.free z) k t) = t := by
  induction t using parts_induction with
  | num | bool | constant => exact fun _ _ => rfl
  | free y =>
    intro k new
    exact if_neg (Ne.symm new)
  | bound i =>
    intro k new
    rw [opened]
    split
    · next same => rw [closed, if_pos rfl, same]
    · rfl
  | lam body ih =>
    intro k new
    rw [opened, closed, ih (k + 1) new]
  | node h parts ih =>
    intro k new
    rw [opened, closed, openedList_eq_map, closedList_eq_map, List.map_map]
    congr 1
    refine (List.map_congr_left fun part member => ?_).trans (List.map_id parts)
    exact ih part member k fun free => new (anyFree_iff.mpr ⟨part, member, free⟩)

end Closing

end Nameless
end ComputerAlgebra
