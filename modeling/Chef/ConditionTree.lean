import Chef.Constraints
import Chef.Foundations.AssocList

namespace Chef
open Foundations List Option Chef.Expr Store
/-- Parents are older than children, and conditions boolean. -/
structure ConditionTree (nodes : Store ConditionNode) : Prop where
  parent_lt : (nodes.get n).parent = some p → p < n
  child : (e, c) ∈ (nodes.get n).children →
    (nodes.get c).parent = some n ∧ (nodes.get c).expr = some e
  typed : (nodes.get n).expr = some e → e.WellTyped ∧ e.width = 1

theorem ConditionTree.of_nodes (hpa : ∀ n < nodes.size, ∀ p ∈ (nodes.get n).parent, p < n)
    (hki : ∀ n < nodes.size, ∀ c ∈ (nodes.get n).children,
      (nodes.get c.2).parent = some n ∧ (nodes.get c.2).expr = some c.1)
    (hty : ∀ n < nodes.size, ∀ e ∈ (nodes.get n).expr, e.WellTyped ∧ e.width = 1) :
    ConditionTree nodes := by
  have hd (n : Nat) : n < nodes.size ∨ nodes.get n = default :=
    (Nat.lt_or_ge n nodes.size).imp_right nodes.get_of_le
  constructor
  · intro n p hp
    obtain hn | hn := hd n
    · exact hpa n hn p hp
    · rw [hn] at hp
      cases hp
  · intro n e c hc
    obtain hn | hn := hd n
    · exact hki n hn (e, c) hc
    · rw [hn] at hc
      cases hc
  · intro n e he
    obtain hn | hn := hd n
    · exact hty n hn e he
    · rw [hn] at he
      cases he

structure Extends (nodes nodes' : Store ConditionNode) : Prop where
  size_le : nodes.size ≤ nodes'.size
  parent : n < nodes.size → (nodes'.get n).parent = (nodes.get n).parent
  expr : n < nodes.size → (nodes'.get n).expr = (nodes.get n).expr

namespace Extends
theorem refl (nodes : Store ConditionNode) : Extends nodes nodes :=
  ⟨Nat.le_refl _, fun _ => rfl, fun _ => rfl⟩

theorem trans (h : Extends nodes nodes') (h' : Extends nodes' nodes'') : Extends nodes nodes'' where
  size_le := Nat.le_trans h.size_le h'.size_le
  parent hn := (h'.parent (Nat.lt_of_lt_of_le hn h.size_le)).trans (h.parent hn)
  expr hn := (h'.expr (Nat.lt_of_lt_of_le hn h.size_le)).trans (h.expr hn)

end Extends

namespace ConditionNode
variable {nodes nodes' : Store ConditionNode}
theorem lt_size_of_parent (h : (nodes.get n).parent = some p) : n < nodes.size := by
  apply Nat.lt_of_not_le
  intro hn
  rw [nodes.get_of_le hn] at h
  cases h

theorem pathFrom_fuel (ht : ConditionTree nodes) (hf : n < f) (hg : n < g) :
    pathFrom nodes root f n = pathFrom nodes root g n := by
  induction f generalizing n g with
  | zero => omega
  | succ f ih =>
    cases g with
    | zero => omega
    | succ g =>
      rw [pathFrom, pathFrom]
      cases hp : (nodes.get n).parent with
      | none => rfl
      | some p =>
        have hlt := ht.parent_lt hp
        simp only
        rw [ih (by omega) (show p < g by omega)]

theorem pathFrom_extends (hx : Extends nodes nodes') (ht : ConditionTree nodes)
    (hn : n < nodes.size) : pathFrom nodes' root f n = pathFrom nodes root f n := by
  induction f generalizing n with
  | zero => rfl
  | succ f ih =>
    rw [pathFrom, pathFrom, hx.parent hn]
    cases hp : (nodes.get n).parent with
    | none => rfl
    | some p =>
      have hlt := ht.parent_lt hp
      simp only [ih (Nat.lt_trans hlt hn)]

theorem pathFrom_cases (h : pathFrom nodes root (f + 1) n = some l) :
    n = root ∧ l = [] ∨ ∃ p l', (nodes.get n).parent = some p ∧
      pathFrom nodes root f p = some l' ∧ l = l' ++ [n] := by
  rw [pathFrom] at h
  split at h
  next hn => exact .inl ⟨hn, (some.inj h).symm⟩
  · cases hq : (nodes.get n).parent with
    | none =>
      rw [hq] at h
      cases h
    | some p =>
      rw [hq] at h
      obtain ⟨l', hl', rfl⟩ := map_eq_some_iff.1 h
      exact .inr ⟨p, l', rfl, hl', rfl⟩

theorem mem_pathFrom_le (ht : ConditionTree nodes) (hp : pathFrom nodes root f n = some l)
    (hm : m ∈ l) : m ≤ n := by
  induction f generalizing n l with
  | zero => cases hp
  | succ f ih =>
    obtain ⟨_, rfl⟩ | ⟨p, l', hq, hl', rfl⟩ := pathFrom_cases hp
    · cases hm
    have hlt := ht.parent_lt hq
    obtain hm | hm := mem_append.1 hm
    · have hle := ih hl' hm
      omega
    · exact Nat.le_of_eq (mem_singleton.1 hm)

theorem getOrCreate_children (hn : n < nodes.size)
    (h : getOrCreate alive nodes n e = (c, nodes')) (m : Nat) (x : Expr) :
    (nodes'.get m).children.lookup x =
      if m = n ∧ x = e then some c else (nodes.get m).children.lookup x := by
  have hcr : (((nodes.alloc ⟨some n, some e, []⟩).modify n fun node => { node with
      children := (e, nodes.size) :: node.children.filter fun c => c.1 ≠ e }).get m).children.lookup
        x = if m = n ∧ x = e then some nodes.size else (nodes.get m).children.lookup x := by
    rw [get_modify, size_alloc, get_alloc]
    by_cases hm : m = n
    · have hne : m ≠ nodes.size := by omega
      rw [if_pos ⟨hm.symm, by omega⟩, if_neg hne]
      rw [lookup_cons]
      by_cases hx : x = e
      · rw [hx, beq_self_eq_true, if_pos ⟨hm, rfl⟩]
      · rw [beq_false_of_ne hx, lookup_filter_ne, if_neg hx, if_neg fun heq => hx heq.2]
    · have hot : ¬(m = n ∧ x = e) := fun heq => hm heq.1
      rw [if_neg fun heq => hm heq.1.symm, if_neg hot]
      split
      next hs =>
        rw [hs, get_of_le _ (Nat.le_refl _)]
        rfl
      · rfl
  rw [getOrCreate] at h
  split at h
  next c' hl =>
    split at h
    · cases h
      split
      next heq => rw [heq.1, heq.2, hl]
      · rfl
    · cases h
      exact hcr
  · cases h
    exact hcr

end ConditionNode

namespace ConstraintManager
open ConditionNode
def Holds (nodes : Store ConditionNode) (l : List Nat) (ρ : Assignment) : Prop :=
  ∀ n ∈ l, (exprOf nodes n).eval ρ = 1

def Satisfied (nodes : Store ConditionNode) (cm : ConstraintManager) (ρ : Assignment) : Prop :=
  ∃ l, cm.path nodes = some l ∧ Holds nodes l ρ

variable {nodes nodes' : Store ConditionNode}
theorem holds_append : Holds nodes (l ++ l') ρ ↔ Holds nodes l ρ ∧ Holds nodes l' ρ :=
  forall_mem_append

theorem path_extends (hx : Extends nodes nodes') (ht : ConditionTree nodes)
    (hn : k < nodes.size) : path nodes' ⟨t, k⟩ = path nodes ⟨t, k⟩ :=
  pathFrom_extends hx ht hn

theorem path_child (ht : ConditionTree nodes) (hp : (nodes.get c).parent = some n)
    (hc : c ≠ t) : path nodes ⟨t, c⟩ = (path nodes ⟨t, n⟩).map fun l => l ++ [c] := by
  have hlt := ht.parent_lt hp
  rw [path, path, pathFrom, if_neg hc, hp]
  simp only
  rw [pathFrom_fuel ht hlt (Nat.lt_succ_self n)]

theorem holds_extends (hx : Extends nodes nodes') (hl : ∀ n ∈ l, n < nodes.size) :
    Holds nodes' l ρ ↔ Holds nodes l ρ := by
  have heq : ∀ n ∈ l, exprOf nodes' n = exprOf nodes n := by
    intro n hn
    rw [exprOf, hx.expr (hl n hn), exprOf]
  constructor
  · intro h n hn
    rw [← heq n hn]
    exact h n hn
  · intro h n hn
    rw [heq n hn]
    exact h n hn

section
variable (ht : ConditionTree nodes)
include ht
theorem getOrCreate_spec (hn : n < nodes.size)
    (he : e.WellTyped ∧ e.width = 1) (h : getOrCreate alive nodes n e = (c, nodes')) :
    ConditionTree nodes' ∧ Extends nodes nodes' ∧ (nodes'.get c).parent = some n ∧
      (nodes'.get c).expr = some e := by
  have hcr : ∀ ws, ws = (nodes.alloc ⟨some n, some e, []⟩).modify n (fun node =>
      { node with children := (e, nodes.size) :: node.children.filter fun c => c.1 ≠ e }) →
      ConditionTree ws ∧ Extends nodes ws ∧ (ws.get nodes.size).parent = some n ∧
        (ws.get nodes.size).expr = some e := by
    intro ws hws
    have hpa : ∀ m, (ws.get m).parent =
        if m = nodes.size then some n else (nodes.get m).parent := by
      intro m
      rw [hws]
      refine (get_modify_proj _ _ parent (by intro; rfl) _ _).trans ?_
      rw [get_alloc]
      split <;> rfl
    have hep : ∀ m, (ws.get m).expr =
        if m = nodes.size then some e else (nodes.get m).expr := by
      intro m
      rw [hws]
      refine (get_modify_proj _ _ expr (by intro; rfl) _ _).trans ?_
      rw [get_alloc]
      split <;> rfl
    have ho : ∀ m c e', (e', c) ∈ (nodes.get m).children → c ≠ nodes.size := by
      intro m c e' hc he
      have hlt := lt_size_of_parent (ht.child hc).1
      omega
    refine ⟨⟨?_, ?_, ?_⟩, ⟨?_, ?_, ?_⟩, ?_, ?_⟩
    · intro m p hp
      rw [hpa] at hp
      split at hp
      · cases hp
        omega
      · exact ht.parent_lt hp
    · intro m e' c hc
      have hcs : (e', c) ∈ (nodes.get m).children ∨ (m = n ∧ e' = e ∧ c = nodes.size) := by
        rw [hws, get_modify, get_alloc] at hc
        split at hc
        next hm =>
          obtain ⟨rfl, _⟩ := hm
          rw [if_neg (by omega)] at hc
          obtain heq | hmem := mem_cons.1 hc
          · cases heq
            exact .inr ⟨rfl, rfl, rfl⟩
          · exact .inl (mem_filter.1 hmem).1
        · split at hc
          · cases hc
          · exact .inl hc
      rw [hpa, hep]
      obtain hc | ⟨rfl, rfl, rfl⟩ := hcs
      · rw [if_neg (ho m c e' hc), if_neg (ho m c e' hc)]
        exact ht.child hc
      · exact ⟨if_pos rfl, if_pos rfl⟩
    · intro m e' hm
      rw [hep] at hm
      split at hm
      · cases hm
        exact he
      · exact ht.typed hm
    · rw [hws, size_modify, size_alloc]
      omega
    · intro m hm
      rw [hpa, if_neg (by omega)]
    · intro m hm
      rw [hep, if_neg (by omega)]
    · rw [hpa, if_pos rfl]
    · rw [hep, if_pos rfl]
  rw [getOrCreate] at h
  split at h
  next c' hc' =>
    split at h
    · cases h
      obtain ⟨hp, hx⟩ := ht.child (mem_of_lookup hc')
      exact ⟨ht, .refl _, hp, hx⟩
    · cases h
      exact hcr _ rfl
  · cases h
    exact hcr _ rfl

theorem exprOf_typed (n : Nat) : (exprOf nodes n).WellTyped ∧ (exprOf nodes n).width = 1 := by
  rw [exprOf]
  cases he : (nodes.get n).expr with
  | none => exact ⟨Nat.one_lt_two, rfl⟩
  | some e => exact ht.typed he

theorem path_shared (hp : path nodes ⟨t, k⟩ = some (l ++ m)) :
    path nodes ⟨t, l.getLast?.getD t⟩ = some l := by
  have hlp : ∀ f k m, k < f → pathFrom nodes t f k = some (l ++ m) →
      path nodes ⟨t, l.getLast?.getD t⟩ = some l := by
    intro f
    induction f with
    | zero =>
      rintro k m ⟨⟩
    | succ f ih =>
      intro k m hk h
      obtain ⟨rfl, hn⟩ | ⟨p, l', hq, hl', heq⟩ := pathFrom_cases h
      · rw [(append_eq_nil_iff.1 hn).1]
        exact if_pos rfl
      have hlt := ht.parent_lt hq
      obtain rfl | ⟨m', n, rfl⟩ := eq_nil_or_concat m
      · rw [append_nil] at heq h
        rw [heq, getLast?_concat, getD_some, path, pathFrom_fuel ht (Nat.lt_succ_self k) hk, h, heq]
      · rw [concat_eq_append, ← append_assoc] at heq
        obtain ⟨heq, _⟩ := append_inj' heq rfl
        exact ih p m' (by omega) (heq ▸ hl')
  exact hlp _ k m (Nat.lt_succ_self k) hp

end

theorem eval_bit {e : Expr} (ρ : Assignment) (ht : e.WellTyped) (hw : e.width = 1) :
    e.eval ρ = 0 ∨ e.eval ρ = 1 := by
  have hlt := eval_lt ρ e ht
  rw [hw] at hlt
  omega

theorem eval_and_iff (hl : l.WellTyped) (hr : r.WellTyped) (hlw : l.width = 1) (hrw : r.width = 1) :
    (arithmetic .and l r).eval ρ = 1 ↔ l.eval ρ = 1 ∧ r.eval ρ = 1 := by
  rw [eval, hlw]
  obtain hx | hx := eval_bit ρ hl hlw <;> obtain hy | hy := eval_bit ρ hr hrw <;>
    rw [hx, hy] <;> decide

theorem eval_or_iff (hl : l.WellTyped) (hr : r.WellTyped) (hlw : l.width = 1) (hrw : r.width = 1) :
    (arithmetic .or l r).eval ρ = 1 ↔ l.eval ρ = 1 ∨ r.eval ρ = 1 := by
  rw [eval, hlw]
  obtain hx | hx := eval_bit ρ hl hlw <;> obtain hy | hy := eval_bit ρ hr hrw <;>
    rw [hx, hy] <;> decide

structure Grown (nodes nodes' : Store ConditionNode) (t : Nat) (l : List Nat) (k : Nat)
    (holds : Assignment → Prop) : Prop where
  tree : ConditionTree nodes'
  grows : Extends nodes nodes'
  head_lt : k < nodes'.size
  path : ∃ new, path nodes' ⟨t, k⟩ = some (l ++ new) ∧ ∀ ρ, Holds nodes' new ρ ↔ holds ρ

theorem satisfied_iff (hp : ConstraintManager.path nodes cm = some l) :
    Satisfied nodes cm ρ ↔ Holds nodes l ρ := by
  constructor
  · rintro ⟨l', hl', hh⟩
    rw [hp] at hl'
    obtain rfl := some.inj hl'
    exact hh
  · intro hh
    exact ⟨l, hp, hh⟩

theorem Grown.satisfied (hg : Grown nodes nodes' t l k P) (hl : ∀ n ∈ l, n < nodes.size) :
    Satisfied nodes' ⟨t, k⟩ ρ ↔ Holds nodes l ρ ∧ P ρ := by
  obtain ⟨new, hn, hP⟩ := hg.path
  rw [satisfied_iff hn, holds_append, holds_extends hg.grows hl, hP]

section
variable (ht : ConditionTree nodes) (hk : k < nodes.size)
include ht hk
theorem Grown.same (hp : ConstraintManager.path nodes ⟨t, k⟩ = some l) (hh : ∀ ρ, holds ρ) :
    Grown nodes nodes t l k holds := by
  refine ⟨ht, .refl _, hk, [], by rw [hp, append_nil], fun ρ => ?_⟩
  exact ⟨fun _ => hh ρ, fun _ n hn => by cases hn⟩

variable (hr : (nodes.get t).parent = none) (htl : t < nodes.size)
  (hp : ConstraintManager.path nodes ⟨t, k⟩ = some l)
  (he : e.WellTyped ∧ e.width = 1) (h : getOrCreate alive nodes k e = (c, nodes'))
include hr htl hp he h
theorem getOrCreate_path : ConstraintManager.path nodes' ⟨t, c⟩ = some (l ++ [c]) := by
  obtain ⟨ht', hx, hpa, _⟩ := getOrCreate_spec ht hk he h
  have hc : c ≠ t := by
    intro hct
    rw [hct, hx.parent htl, hr] at hpa
    cases hpa
  rw [path_child ht' hpa hc, path_extends hx ht hk, hp, map_some]

theorem Grown.node : Grown nodes nodes' t l c fun ρ => e.eval ρ = 1 := by
  obtain ⟨ht', hx, hpa, hep⟩ := getOrCreate_spec ht hk he h
  refine ⟨ht', hx, lt_size_of_parent hpa, [c], getOrCreate_path ht hk hr htl hp he h, fun ρ => ?_⟩
  rw [Holds, forall_mem_singleton, exprOf, hep, getD_some]

end

theorem Grown.trans (hg : Grown nodes nodes' t l k P) (hp : ConstraintManager.path nodes' ⟨t, k⟩ =
    some m) (hg' : Grown nodes' nodes'' t m k' Q) : Grown nodes nodes'' t l k' fun ρ => P ρ ∧
    Q ρ := by
  obtain ⟨new, hnew, hP⟩ := hg.path
  obtain ⟨new', hnew', hQ⟩ := hg'.path
  rw [hnew] at hp
  obtain rfl := some.inj hp
  refine ⟨hg'.tree, hg.grows.trans hg'.grows, hg'.head_lt, new ++ new', ?_, fun ρ => ?_⟩
  · rw [hnew', append_assoc]
  have hlt : ∀ n ∈ new, n < nodes'.size := by
    intro n hn
    have hle := mem_pathFrom_le hg.tree hnew (mem_append_right l hn)
    exact Nat.lt_of_le_of_lt hle hg.head_lt
  rw [holds_append, holds_extends hg'.grows hlt, hP, hQ]

theorem addConstraint_spec (ht : ConditionTree nodes) (hk : k < nodes.size)
    (hro : (nodes.get t).parent = none) (htl : t < nodes.size)
    (hp : ConstraintManager.path nodes ⟨t, k⟩ = some l) (he : e.WellTyped ∧ e.width = 1)
    (h : addConstraint alive e k nodes = .ok (k', nodes')) :
    Grown nodes nodes' t l k' fun ρ => e.eval ρ = 1 := by
  fun_induction addConstraint alive e k nodes generalizing l k' nodes' with
  | case1 w v k nodes hv =>
    cases h
    apply Grown.same ht hk hp
    intro ρ
    exact hv.2
  | case2 w v k nodes hv => cases h
  | case3 left right k nodes ihl ihr =>
    obtain ⟨⟨hl, hr, hw⟩, hw'⟩ := he
    obtain ⟨⟨k1, nodes1⟩, h1, h2⟩ := bind_ok_iff.1 h
    have hg1 := ihl ht hk hro htl hp ⟨hl, hw'⟩ h1
    obtain ⟨new, hn, _⟩ := hg1.path
    have ht1 := Nat.lt_of_lt_of_le htl hg1.grows.size_le
    have hrt := (hg1.grows.parent htl).trans hro
    have hg2 := ihr _ hg1.tree hg1.head_lt hrt ht1 hn ⟨hr, hw.symm.trans hw'⟩ h2
    obtain ⟨ht2, hx2, hk2, path2, hp2, hi⟩ := hg1.trans hn hg2
    refine ⟨ht2, hx2, hk2, path2, hp2, fun ρ => ?_⟩
    rw [hi, eval_and_iff hl hr hw' (hw.symm.trans hw')]
  | case4 e k nodes hc ha => exact Grown.node ht hk hro htl hp he (Except.ok.inj h)

def accepts : Expr → Bool
  | .constant w v => w = 1 ∧ v % 2 ^ w = 1
  | .arithmetic .and left right => accepts left && accepts right
  | _ => true

theorem accepts_of_eval (ht : e.WellTyped) (hw : e.width = 1) (h : e.eval ρ = 1) :
    accepts e = true := by
  fun_induction accepts e with
  | case1 w v =>
    have hw' : w = 1 := hw
    rw [decide_eq_true_iff]
    exact ⟨hw', h⟩
  | case2 left right ihl ihr =>
    obtain ⟨hl, hr, hw'⟩ := ht
    have hrw := hw'.symm.trans hw
    obtain ⟨hl1, hr1⟩ := (eval_and_iff hl hr hw hrw).1 h
    rw [ihl hl hw hl1, ihr hr hrw hr1]
    rfl
  | case3 => rfl

theorem addConstraint_ok_iff : (∃ r, addConstraint alive e k nodes = .ok r) ↔ accepts e = true := by
  fun_induction addConstraint alive e k nodes with
  | case1 w v k nodes hv =>
    rw [accepts, decide_eq_true_iff]
    exact ⟨fun _ => hv, fun _ => ⟨_, rfl⟩⟩
  | case2 w v k nodes hv =>
    rw [accepts, decide_eq_true_iff]
    constructor
    · rintro ⟨r, hr⟩
      cases hr
    · exact fun h => absurd h hv
  | case3 left right k nodes ihl ihr =>
    rw [accepts, Bool.and_eq_true, ← ihl]
    constructor
    · rintro ⟨r, hr⟩
      obtain ⟨r1, h1, h2⟩ := bind_ok_iff.1 hr
      exact ⟨⟨r1, h1⟩, (ihr r1).1 ⟨r, h2⟩⟩
    · rintro ⟨⟨r1, h1⟩, hr⟩
      obtain ⟨r, h2⟩ := (ihr r1).2 hr
      exact ⟨r, bind_ok_iff.2 ⟨r1, h1, h2⟩⟩
  | case4 e k nodes hc ha =>
    have hacc : accepts e = true := by
      rw [accepts]
      · exact hc
      · exact ha
    exact ⟨fun _ => hacc, fun _ => ⟨_, rfl⟩⟩

end ConstraintManager
end Chef
