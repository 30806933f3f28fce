import Chef.ConditionTree

namespace Chef
open Foundations List
namespace ConstraintManager
open ConditionNode
/-- The managers alive and the constraints added to each; the nodes of a manager do not expire. -/
inductive Managed : Store ConditionNode → List (ConstraintManager × List Expr) → Prop
  | nil : Managed .empty []
  | create : Managed nodes ms → Managed (nodes.alloc default) ((⟨nodes.size, nodes.size⟩, []) :: ms)
  | copyOrRelease : Managed nodes ms → ms' ⊆ ms → Managed nodes ms'
  | addConstraint : Managed nodes ((cm, es) :: ms) →
    (∀ m ∈ (cm, es) :: ms, ∀ l, m.1.path nodes = some l → ∀ n ∈ l, alive n = true) →
    e.WellTyped ∧ e.width = 1 → addConstraint alive e cm.head nodes = .ok (k, nodes') →
    Managed nodes' ((⟨cm.root, k⟩, es ++ [e]) :: ms)

/-- The node's parent finds it. -/
def Registered (nodes : Store ConditionNode) (n : Nat) : Prop :=
  ∀ p, (nodes.get n).parent = some p → (nodes.get p).children.lookup (exprOf nodes n) = some n

def Kept (alive : Nat → Bool) (nodes : Store ConditionNode) (k : Nat) (S : Nat → Prop) : Prop :=
  ∀ n, S n → n < nodes.size ∧ Registered nodes n ∧ (alive n = true ∨ n ≤ k)

structure Inv (nodes : Store ConditionNode) (cm : ConstraintManager) (es : List Expr) : Prop where
  root : (nodes.get cm.root).parent = none
  root_lt : cm.root < nodes.size
  head_lt : cm.head < nodes.size
  path : ∃ l, cm.path nodes = some l ∧ (∀ n ∈ l, Registered nodes n) ∧
    ∀ ρ, Holds nodes l ρ ↔ ∀ e ∈ es, e.eval ρ = 1

theorem path_cases (ht : ConditionTree nodes) (h : path nodes ⟨t, k⟩ = some l) :
    k = t ∧ l = [] ∨ ∃ p l', (nodes.get k).parent = some p ∧ path nodes ⟨t, p⟩ = some l' ∧
      l = l' ++ [k] := by
  obtain h | ⟨p, l', hp, hl, rfl⟩ := pathFrom_cases h
  · exact .inl h
  · rw [pathFrom_fuel ht (ht.parent_lt hp) (Nat.lt_succ_self p)] at hl
    exact .inr ⟨p, l', hp, hl, rfl⟩

theorem head_eq (ht : ConditionTree nodes) (hp : path nodes ⟨t, k⟩ = some l)
    (hp' : path nodes ⟨t, k'⟩ = some l') (hl : ∀ n ∈ l, Registered nodes n)
    (hl' : ∀ n ∈ l', Registered nodes n) (h : l.map (exprOf nodes) = l'.map (exprOf nodes)) :
    k = k' := by
  induction k using Nat.strongRecOn generalizing k' l l' with
  | ind k ih =>
    obtain ⟨rfl, rfl⟩ | ⟨p, l0, hk, hp0, rfl⟩ := path_cases ht hp <;>
      obtain ⟨rfl, rfl⟩ | ⟨p', l0', hk', hp0', rfl⟩ := path_cases ht hp'
    · rfl
    · simp at h
    · simp at h
    · rw [map_append, map_append] at h
      obtain ⟨h0, he⟩ := append_inj' h rfl
      obtain rfl := ih p (ht.parent_lt hk) hp0 hp0' (fun n hn => hl n (mem_append_left _ hn))
        (fun n hn => hl' n (mem_append_left _ hn)) h0
      have hr := hl k mem_concat_self p hk
      rw [(cons.inj he).1, hl' k' mem_concat_self p hk'] at hr
      exact (Option.some.inj hr).symm

theorem Kept.getOrCreate (hS : Kept alive nodes k S) (ht : ConditionTree nodes)
    (hk : k < nodes.size) (he : e.WellTyped ∧ e.width = 1)
    (h : getOrCreate alive nodes k e = (c, nodes')) : Kept alive nodes' c fun n => S n ∨ n = c := by
  obtain ⟨ht', hx, hpa, hep⟩ := getOrCreate_spec ht hk he h
  have hch := getOrCreate_children hk h
  have hlt := ht'.parent_lt hpa
  have hce : exprOf nodes' c = e := by rw [exprOf, hep, Option.getD_some]
  rintro n (hn | rfl)
  · obtain ⟨hs, hr, hal⟩ := hS n hn
    refine ⟨Nat.lt_of_lt_of_le hs hx.size_le, fun p hp => ?_, hal.imp_right (by omega)⟩
    rw [hx.parent hs] at hp
    have hl := hr p hp
    have hne : exprOf nodes' n = exprOf nodes n := by rw [exprOf, hx.expr hs, exprOf]
    rw [hne, hch]
    split
    next heq =>
      obtain ⟨rfl, heq⟩ := heq
      have hle := ht.parent_lt hp
      rw [ConditionNode.getOrCreate, ← heq, hl] at h
      simp only [hal.resolve_right (by omega), if_true] at h
      rw [(Prod.mk.inj h).1]
    · exact hl
  · refine ⟨lt_size_of_parent hpa, fun p hp => ?_, .inr (Nat.le_refl _)⟩
    rw [hpa] at hp
    cases hp
    rw [hch, hce, if_pos ⟨rfl, rfl⟩]

theorem Kept.addConstraint (hS : Kept alive nodes k S) (ht : ConditionTree nodes)
    (hk : k < nodes.size) (hro : (nodes.get t).parent = none) (htl : t < nodes.size)
    (hp : ConstraintManager.path nodes ⟨t, k⟩ = some l) (he : e.WellTyped ∧ e.width = 1)
    (h : addConstraint alive e k nodes = .ok (k', nodes')) :
    ∃ new, ConstraintManager.path nodes' ⟨t, k'⟩ = some (l ++ new) ∧
      Kept alive nodes' k' fun n => S n ∨ n ∈ new := by
  fun_induction ConstraintManager.addConstraint alive e k nodes generalizing l k' nodes' S with
  | case1 w v k nodes hv =>
    cases h
    exact ⟨[], by rw [hp, append_nil], fun n hn => hS n (hn.resolve_right not_mem_nil)⟩
  | case2 w v k nodes hv => cases h
  | case3 left right k nodes ihl ihr =>
    obtain ⟨⟨hl, hr, hw⟩, hw'⟩ := he
    obtain ⟨⟨k1, nodes1⟩, h1, h2⟩ := bind_ok_iff.1 h
    have hg := addConstraint_spec ht hk hro htl hp ⟨hl, hw'⟩ h1
    obtain ⟨new, hp1, hS1⟩ := ihl hS ht hk hro htl hp ⟨hl, hw'⟩ h1
    obtain ⟨new', hp2, hS2⟩ := ihr _ hS1 hg.tree hg.head_lt ((hg.grows.parent htl).trans hro)
      (Nat.lt_of_lt_of_le htl hg.grows.size_le) hp1 ⟨hr, hw.symm.trans hw'⟩ h2
    refine ⟨new ++ new', by rw [hp2, append_assoc], fun n (hn : S n ∨ n ∈ new ++ new') => ?_⟩
    rw [mem_append, ← or_assoc] at hn
    exact hS2 n hn
  | case4 e k nodes hc ha =>
    have h := Except.ok.inj h
    exact ⟨[k'], getOrCreate_path ht hk hro htl hp he h,
      fun n hn => hS.getOrCreate ht hk he h n (hn.imp_right mem_singleton.1)⟩

theorem Inv.mono (hI : Inv nodes cm es) (ht : ConditionTree nodes) (hx : Extends nodes nodes')
    (hr : ∀ l, cm.path nodes = some l → ∀ n ∈ l, Registered nodes' n) : Inv nodes' cm es := by
  obtain ⟨l, hp, _, hes⟩ := hI.path
  refine ⟨(hx.parent hI.root_lt).trans hI.root, Nat.lt_of_lt_of_le hI.root_lt hx.size_le,
    Nat.lt_of_lt_of_le hI.head_lt hx.size_le, l, (path_extends hx ht hI.head_lt).trans hp,
    hr l hp, fun ρ => ?_⟩
  rw [holds_extends hx fun n hn => Nat.lt_of_le_of_lt (mem_pathFrom_le ht hp hn) hI.head_lt, hes]

theorem Managed.inv (h : Managed nodes ms) : ConditionTree nodes ∧ ∀ m ∈ ms, Inv nodes m.1 m.2 := by
  induction h with
  | nil => exact ⟨.of_nodes nofun nofun nofun, nofun⟩
  | @create nodes ms _ ih =>
    have hget (i : Nat) : (nodes.alloc default).get i = nodes.get i := nodes.proj_alloc id rfl i
    have hx : Extends nodes (nodes.alloc default) :=
      ⟨by simp, fun _ => by rw [hget], fun _ => by rw [hget]⟩
    refine ⟨⟨?_, ?_, ?_⟩, forall_mem_cons.2 ⟨⟨?_, by simp, by simp, [], if_pos rfl, nofun, ?_⟩,
      fun m hm => (ih.2 m hm).mono ih.1 hx ?_⟩⟩
    · simp only [hget]
      exact ih.1.parent_lt
    · simp only [hget]
      exact ih.1.child
    · simp only [hget]
      exact ih.1.typed
    · rw [hget, Store.get_of_le _ (Nat.le_refl _)]
      rfl
    · exact fun ρ => ⟨nofun, nofun⟩
    · intro l hl n hn
      obtain ⟨l', hl', hr, _⟩ := (ih.2 m hm).path
      cases hl.symm.trans hl'
      simpa only [Registered, exprOf, hget] using hr n hn
  | copyOrRelease _ hs ih => exact ⟨ih.1, fun m hm => ih.2 m (hs hm)⟩
  | @addConstraint nodes cm es ms alive e k nodes' _ ha he hd ih =>
    obtain ⟨ht, hms⟩ := ih
    have hlt : ∀ m ∈ (cm, es) :: ms, ∀ l, m.1.path nodes = some l → ∀ n ∈ l, n < nodes.size :=
      fun m hm l hl n hn => Nat.lt_of_le_of_lt (mem_pathFrom_le ht hl hn) (hms m hm).head_lt
    have hS : Kept alive nodes cm.head fun n =>
        ∃ m ∈ (cm, es) :: ms, ∃ l, m.1.path nodes = some l ∧ n ∈ l := by
      rintro n ⟨m, hm, l, hl, hn⟩
      obtain ⟨l', hl', hr, _⟩ := (hms m hm).path
      cases hl.symm.trans hl'
      exact ⟨hlt m hm l hl n hn, hr n hn, .inl (ha m hm l hl n hn)⟩
    have hcm := hms _ mem_cons_self
    obtain ⟨l, hp, _, hes⟩ := hcm.path
    have hg := addConstraint_spec ht hcm.head_lt hcm.root hcm.root_lt hp he hd
    obtain ⟨new, hp', hS'⟩ := hS.addConstraint ht hcm.head_lt hcm.root hcm.root_lt hp he hd
    refine ⟨hg.tree, forall_mem_cons.2 ⟨⟨(hg.grows.parent hcm.root_lt).trans hcm.root,
      Nat.lt_of_lt_of_le hcm.root_lt hg.grows.size_le, hg.head_lt, l ++ new, hp', fun n hn => ?_,
      fun ρ => ?_⟩, fun m hm => (hms m (mem_cons_of_mem _ hm)).mono ht hg.grows
        fun l hl n hn => (hS' n (.inl ⟨m, mem_cons_of_mem _ hm, l, hl, hn⟩)).2.1⟩⟩
    · exact (hS' n ((mem_append.1 hn).imp_left fun hn => ⟨_, mem_cons_self, l, hp, hn⟩)).2.1
    · rw [← satisfied_iff hp', hg.satisfied (hlt _ mem_cons_self l hp), hes, forall_mem_append,
        forall_mem_singleton]

/-- Managers with one root have one head exactly if they store the same constraints. -/
theorem managed_right (h : Managed nodes ms) :
    (∀ m ∈ ms, ∀ ρ, Satisfied nodes m.1 ρ ↔ ∀ e ∈ m.2, e.eval ρ = 1) ∧
    ∀ m ∈ ms, ∀ m' ∈ ms, m.1.root = m'.1.root → (m.1.head = m'.1.head ↔
      (m.1.path nodes).map (map (exprOf nodes)) = (m'.1.path nodes).map (map (exprOf nodes))) := by
  obtain ⟨ht, hms⟩ := h.inv
  constructor
  · intro m hm ρ
    obtain ⟨l, hp, _, hes⟩ := (hms m hm).path
    rw [satisfied_iff hp, hes]
  rintro ⟨⟨t, k⟩, es⟩ hm ⟨⟨t', k'⟩, es'⟩ hm' rfl
  obtain ⟨l, hp, hr, _⟩ := (hms _ hm).path
  obtain ⟨l', hp', hr', _⟩ := (hms _ hm').path
  constructor
  · rintro rfl
    rfl
  · intro h
    rw [hp, hp'] at h
    exact head_eq ht hp hp' hr hr' (Option.some.inj h)

theorem managed_right_two : ∃ nodes,
    (∀ ρ, Satisfied nodes ⟨0, 1⟩ ρ ↔ ∀ e ∈ [Expr.not (.constant 1 0)], e.eval ρ = 1) ∧
      (path nodes ⟨0, 1⟩).map (map (exprOf nodes)) ≠
        (path nodes ⟨0, 0⟩).map (map (exprOf nodes)) := by
  have h : Managed _ [(⟨0, 0⟩, []), (⟨0, 0⟩, [])] :=
    .copyOrRelease (.create .nil) fun m hm => by simpa [Store.size, Store.empty] using hm
  have h' := h.addConstraint (fun _ _ _ _ _ _ => rfl) (by decide)
    (rfl : addConstraint (fun _ => true) (.not (.constant 1 0)) 0 _ = .ok (1, _))
  obtain ⟨hs, hh⟩ := managed_right h'
  refine ⟨_, hs _ mem_cons_self, fun hp => ?_⟩
  exact absurd ((hh _ mem_cons_self _ (mem_cons_of_mem _ mem_cons_self) rfl).2 hp) Nat.one_ne_zero

end ConstraintManager
end Chef
