import Chef.SentLog

namespace Chef
open Foundations List Function Option
open ConditionNode
theorem Expr.rename_width (f : KArray → KArray) : (e : Expr) → (e.rename f).width = e.width
  | .constant _ _ | .read _ _ _ | .extract _ _ _ | .zext _ _ | .sext _ _ | .compare _ _ _ => rfl
  | .notOptimized src => src.rename_width f
  | .select _ t _ => t.rename_width f
  | .concat l r => by
    rw [Expr.rename, Expr.width, Expr.width, l.rename_width f, r.rename_width f]
  | .not e => e.rename_width f
  | .arithmetic _ l _ => l.rename_width f

mutual
theorem Expr.rename_wellTyped (f : KArray → KArray) :
    (e : Expr) → e.WellTyped → (e.rename f).WellTyped
  | .constant _ _, h => h
  | .notOptimized src, h => src.rename_wellTyped f h
  | .read _ head index, h =>
    ⟨head.rename_wellTyped f h.1, index.rename_wellTyped f h.2.1,
      (index.rename_width f).trans h.2.2⟩
  | .select c t g, h => by
    refine ⟨c.rename_wellTyped f h.1, t.rename_wellTyped f h.2.1, g.rename_wellTyped f h.2.2.1,
      (c.rename_width f).trans h.2.2.2.1, ?_⟩
    rw [t.rename_width f, g.rename_width f]
    exact h.2.2.2.2
  | .concat l r, h => ⟨l.rename_wellTyped f h.1, r.rename_wellTyped f h.2⟩
  | .extract e offset w, h | .zext e w, h | .sext e w, h => by
    refine ⟨e.rename_wellTyped f h.1, ?_⟩
    rw [e.rename_width f]
    exact h.2
  | .not e, h => e.rename_wellTyped f h
  | .arithmetic _ l r, h | .compare _ l r, h => by
    refine ⟨l.rename_wellTyped f h.1, r.rename_wellTyped f h.2.1, ?_⟩
    rw [l.rename_width f, r.rename_width f]
    exact h.2.2

theorem UpdateNode.rename_wellTyped (f : KArray → KArray) :
    (un : UpdateNode) → un.WellTyped → (un.rename f).WellTyped
  | .null, _ => trivial
  | .node index value next, h =>
    ⟨index.rename_wellTyped f h.1, (index.rename_width f).trans h.2.1,
      value.rename_wellTyped f h.2.2.1, (value.rename_width f).trans h.2.2.2.1,
      next.rename_wellTyped f h.2.2.2.2⟩

end

theorem getOrCreate_of_lookup (h : (conditions.get n).children.lookup e = some c) :
    getOrCreate (fun _ => true) conditions n e = (c, conditions) := by
  rw [getOrCreate, h]
  rfl

def CopyOf (nodes : Store ConditionNode) (g : Nat → Option Nat) (n n' : Nat) : Prop :=
  g n = some n' ∨ (nodes.get n).parent = none ∧ n' = 0

structure Copied (nodes : Store ConditionNode) (f : KArray → KArray) (g : Nat → Option Nat)
    (conditions : Store ConditionNode) : Prop where
  tree : ConditionTree conditions
  root_lt : 0 < conditions.size
  root : (conditions.get 0).parent = none
  copies : ∀ n n', g n = some n' → ∃ p p', (nodes.get n).parent = some p ∧
    CopyOf nodes g p p' ∧ (conditions.get n').parent = some p' ∧
    (conditions.get n').expr = some ((exprOf nodes n).rename f) ∧
    (conditions.get p').children.lookup ((exprOf nodes n).rename f) = some n'

section
variable {f : KArray → KArray} {g g' : Nat → Option Nat}

theorem CopyOf.mono (h : CopyOf nodes g n n') (hg : ∀ m m', g m = some m' → g' m = some m') :
    CopyOf nodes g' n n' := h.imp_left (hg n n')

variable (h : Copied nodes f g conditions)
include h
theorem Copied.unique (h1 : CopyOf nodes g n n') (h2 : CopyOf nodes g n n'') : n' = n'' := by
  have hr : ∀ m, g n = some m → (nodes.get n).parent ≠ none := by
    intro m hm hno
    obtain ⟨p, p', hp, -⟩ := h.copies n m hm
    rw [hno] at hp
    cases hp
  obtain h1 | ⟨hp1, rfl⟩ := h1
  · obtain h2 | ⟨hp2, -⟩ := h2
    · rw [h1] at h2
      exact some.inj h2
    · exact absurd hp2 (hr n' h1)
  · obtain h2 | ⟨-, rfl⟩ := h2
    · exact absurd hp1 (hr n'' h2)
    · rfl

theorem Copied.lt_size (hn : CopyOf nodes g n n') : n' < conditions.size := by
  obtain hn | ⟨-, rfl⟩ := hn
  · obtain ⟨p, p', -, -, hp, -⟩ := h.copies n n' hn
    exact lt_size_of_parent hp
  · exact h.root_lt

theorem Copied.getOrCreate (ht : ConditionTree nodes)
    (hp : (nodes.get n).parent = some p) (hcp : CopyOf nodes g p p')
    (hc : getOrCreate (fun _ => true) conditions p' ((exprOf nodes n).rename f) =
      (c, conditions')) :
    ∃ g', Copied nodes f g' conditions' ∧ (∀ m m', g m = some m' → g' m = some m') ∧
      (∀ m m', g' m = some m' → g m = some m' ∨ m = n) ∧ g' n = some c := by
  have hlt := h.lt_size hcp
  have hty := ConstraintManager.exprOf_typed ht n
  obtain ⟨hte, hx, hr, he⟩ := ConstraintManager.getOrCreate_spec h.tree hlt
    ⟨(exprOf nodes n).rename_wellTyped f hty.1, ((exprOf nodes n).rename_width f).trans hty.2⟩
    hc
  have hks := getOrCreate_children hlt hc
  have hs : ∀ m', g n = some m' → m' = c := by
    intro m' hm'
    obtain ⟨q, q', hq, hco, -, -, hl⟩ := h.copies n m' hm'
    rw [hp] at hq
    obtain rfl := some.inj hq
    rw [h.unique hco hcp] at hl
    rw [getOrCreate_of_lookup hl] at hc
    exact congrArg Prod.fst hc
  have hmo : ∀ m m', g m = some m' → (update g n (some c)) m = some m' := by
    intro m m' hm
    by_cases hmn : m = n
    · rw [hmn, update_self, hs m' (hmn ▸ hm)]
    · rw [update_of_ne hmn]
      exact hm
  refine ⟨update g n (some c), ⟨hte, Nat.lt_of_lt_of_le h.root_lt hx.size_le, ?_, ?_⟩, hmo, ?_,
    update_self _ _ _⟩
  · rw [hx.parent h.root_lt]
    exact h.root
  · intro m m' hm
    by_cases hmn : m = n
    · rw [hmn, update_self] at hm
      obtain rfl := some.inj hm
      rw [hmn]
      refine ⟨p, p', hp, hcp.mono hmo, hr, he, ?_⟩
      rw [hks, if_pos ⟨rfl, rfl⟩]
    · rw [update_of_ne hmn] at hm
      obtain ⟨q, q', hq, hco, hparent', hep, hl⟩ := h.copies m m' hm
      have hm' := lt_size_of_parent hparent'
      refine ⟨q, q', hq, hco.mono hmo, ?_, ?_, ?_⟩
      · rw [hx.parent hm']
        exact hparent'
      · rw [hx.expr hm']
        exact hep
      rw [hks]
      split
      next heq =>
        rw [heq.1, heq.2] at hl
        rw [getOrCreate_of_lookup hl] at hc
        exact congrArg some (congrArg Prod.fst hc).symm
      · exact hl
  · intro m m' hm
    by_cases hmn : m = n
    · exact Or.inr hmn
    · rw [update_of_ne hmn] at hm
      exact Or.inl hm

theorem Copied.path (hr : (nodes.get t).parent = none) (hcp : CopyOf nodes g n n')
    (hpath : ConstraintManager.path nodes ⟨t, n⟩ = some l) :
    ConstraintManager.path conditions ⟨0, n'⟩ = some (l.map fun m => (g m).getD 0) ∧
      ∀ m ∈ l, ∃ m', g m = some m' ∧ exprOf conditions m' = (exprOf nodes m).rename f := by
  have hlp : ∀ k n n' l, pathFrom nodes t k n = some l → CopyOf nodes g n n' →
      ConstraintManager.path conditions ⟨0, n'⟩ = some (l.map fun m => (g m).getD 0) ∧
        ∀ m ∈ l, ∃ m', g m = some m' ∧ exprOf conditions m' = (exprOf nodes m).rename f := by
    intro k
    induction k with
    | zero =>
      rintro n n' l ⟨⟩
    | succ k ih =>
      intro n n' l hl hcp
      obtain ⟨rfl, rfl⟩ | ⟨p, l', hp, hl', rfl⟩ := pathFrom_cases hl
      · obtain rfl := h.unique hcp (Or.inr ⟨hr, rfl⟩)
        refine ⟨?_, forall_mem_nil _⟩
        rfl
      · have hn : g n = some n' := by
          refine hcp.resolve_right fun hno => ?_
          rw [hno.1] at hp
          cases hp
        obtain ⟨q, q', hq, hco, hpa, he, -⟩ := h.copies n n' hn
        rw [hp] at hq
        obtain rfl := some.inj hq
        obtain ⟨hpath', hes⟩ := ih p q' l' hl' hco
        have hne : n' ≠ 0 := by
          intro hz
          rw [hz, h.root] at hpa
          cases hpa
        refine ⟨?_, ?_⟩
        · rw [ConstraintManager.path_child h.tree hpa hne, hpath', map_some,
            map_append, map_cons, map_nil, hn, getD_some]
        · refine forall_mem_append.2 ⟨hes, forall_mem_singleton.2 ⟨n', hn, ?_⟩⟩
          rw [exprOf, he, getD_some]
  exact hlp _ n n' l hpath hcp

end

def Ancestors (nodes : Store ConditionNode) : List Nat → Nat → Prop
  | [], _ => True
  | n :: rest, p => (nodes.get n).parent = some (rest.head?.getD p) ∧ Ancestors nodes rest p

theorem ancestors_of_path (h : ConstraintManager.path nodes ⟨t, n⟩ = some l) :
    Ancestors nodes l.reverse t ∧ l.reverse.head?.getD t = n := by
  have hlp : ∀ k n l, pathFrom nodes t k n = some l →
      Ancestors nodes l.reverse t ∧ l.reverse.head?.getD t = n := by
    intro k
    induction k with
    | zero =>
      rintro n l ⟨⟩
    | succ k ih =>
      intro n l hl
      obtain ⟨rfl, rfl⟩ | ⟨p, l', hp, hl', rfl⟩ := pathFrom_cases hl
      · exact ⟨trivial, rfl⟩
      obtain ⟨hch, hhd⟩ := ih p l' hl'
      rw [reverse_append, reverse_singleton, singleton_append]
      refine ⟨⟨?_, hch⟩, rfl⟩
      rw [hhd]
      exact hp
  exact hlp _ n l h

theorem Ancestors.left (h : Ancestors nodes (l ++ l') t) : Ancestors nodes l (l'.head?.getD t) := by
  induction l with
  | nil => exact trivial
  | cons n l ih =>
    refine ⟨?_, ih h.2⟩
    cases l <;> exact h.1

end Chef
