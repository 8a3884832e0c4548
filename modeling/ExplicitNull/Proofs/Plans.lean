import ExplicitNull.Plan

/-!
Plans of one file as maps. An entry is found again under its address and hides no other; a plan
made of a list that names each address with one type start holds just what is in the list.
-/
namespace ExplicitNull

theorem Address.compare_eq_eq {a b : Address} : a.compare b = .eq ↔ a = b := by
  obtain ⟨f, k⟩ := a
  obtain ⟨f', k'⟩ := b
  simp [Address.compare, Ordering.then_eq_eq]

namespace FilePlan

@[simp] theorem get?_nil (a : Address) : get? [] a = none := rfl

theorem get?_cons (a b : Address) (t : Nat) (plan : FilePlan) :
    get? ((b, t) :: plan) a = if a = b then some t else plan.get? a := by
  simp [get?, Assoc.get?, Address.compare_eq_eq]

theorem get?_insert (plan : FilePlan) (a b : Address) (t : Nat) :
    (plan.insert b t).get? a = if a = b then some t else plan.get? a := by
  induction plan with
  | nil => simp [insert, Assoc.alter, get?_cons]
  | cons entry plan ih =>
    obtain ⟨c, u⟩ := entry
    rcases h : b.compare c with _ | _ | _
    · simp [insert, Assoc.alter, h, get?_cons]
    · obtain rfl := Address.compare_eq_eq.1 h
      by_cases hab : a = b <;> simp [insert, Assoc.alter, h, get?_cons, hab]
    · have hbc : b ≠ c := by
        rintro rfl
        rw [Address.compare_eq_eq.2 rfl] at h
        simp at h
      have hinsert : insert ((c, u) :: plan) b t = (c, u) :: insert plan b t := by
        simp [insert, Assoc.alter, h]
      rw [hinsert, get?_cons, get?_cons, ih]
      by_cases hac : a = c <;> by_cases hab : a = b <;> simp_all

/-- No address stands with two type starts. -/
def Consistent (targets : List (Address × Nat)) : Prop :=
  ∀ a t u, (a, t) ∈ targets → (a, u) ∈ targets → t = u

theorem get?_foldl_insert {targets : List (Address × Nat)} (h : Consistent targets)
    (plan : FilePlan) (a : Address) (t : Nat) :
    (targets.foldl (fun plan (a, t) => insert plan a t) plan).get? a = some t ↔
      (a, t) ∈ targets ∨ (∀ u, (a, u) ∉ targets) ∧ plan.get? a = some t := by
  induction targets generalizing plan with
  | nil => simp
  | cons entry rest ih =>
    obtain ⟨b, u⟩ := entry
    have hrest : Consistent rest := fun a t u ht hu =>
      h a t u (List.mem_cons_of_mem _ ht) (List.mem_cons_of_mem _ hu)
    rw [List.foldl_cons, ih hrest, get?_insert]
    by_cases hab : a = b
    · subst hab
      have hsame : ∀ t, (a, t) ∈ rest → t = u := fun t ht =>
        h a t u (List.mem_cons_of_mem _ ht) (List.mem_cons_self ..)
      simp only [if_pos, List.mem_cons, Prod.mk.injEq, true_and]
      grind
    · simp [hab]

theorem get?_ofList {targets : List (Address × Nat)} (h : Consistent targets) (a : Address)
    (t : Nat) : (ofList targets).get? a = some t ↔ (a, t) ∈ targets := by
  rw [ofList, get?_foldl_insert h]
  simp

theorem get?_of_consistent {plan : FilePlan} (h : Consistent plan) (a : Address) (t : Nat) :
    plan.get? a = some t ↔ (a, t) ∈ plan := by
  induction plan with
  | nil => simp
  | cons entry rest ih =>
    obtain ⟨b, u⟩ := entry
    have hrest := ih fun a t u ht hu =>
      h a t u (List.mem_cons_of_mem _ ht) (List.mem_cons_of_mem _ hu)
    rw [get?_cons, List.mem_cons, Prod.mk.injEq]
    by_cases hab : a = b
    · subst hab
      have hsame : (a, t) ∈ rest → t = u := fun ht =>
        h a t u (List.mem_cons_of_mem _ ht) (List.mem_cons_self ..)
      simp only [if_pos, Option.some.injEq, true_and]
      exact ⟨fun heq => .inl heq.symm, fun hor => (hor.elim id hsame).symm⟩
    · simp [hab, hrest]

theorem get?_ofList_self {plan : FilePlan} (h : Consistent plan) (a : Address) :
    (ofList plan).get? a = plan.get? a :=
  Option.ext fun t => (get?_ofList h a t).trans (get?_of_consistent h a t).symm

def restrict (plan : FilePlan) (targets : List (Address × Nat)) : FilePlan :=
  ofList (targets.filter fun (a, t) => plan.get? a == some t)

theorem get?_restrict (plan : FilePlan) (targets : List (Address × Nat)) (a : Address) (t : Nat) :
    (plan.restrict targets).get? a = some t ↔ plan.get? a = some t ∧ (a, t) ∈ targets := by
  have hconsistent : Consistent (targets.filter fun (a, t) => plan.get? a == some t) := by
    intro a t u ht hu
    simp only [List.mem_filter, beq_iff_eq] at ht hu
    exact Option.some.inj (ht.2.symm.trans hu.2)
  rw [restrict, get?_ofList hconsistent, List.mem_filter]
  simp [and_comm]

end FilePlan

end ExplicitNull
