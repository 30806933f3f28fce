import Chef.IndependentCells

namespace Chef
open Foundations List Bool Store Or Validity
open IndependentElementSet
structure Collecting (own : List (Expr × IndependentElementSet)) (closure : IndependentElementSet)
    (worklist : List (Expr × IndependentElementSet)) (result : List Expr) : Prop where
  kept : ∀ c ∈ result, ∃ s, (c, s) ∈ own ∧ s.Within closure
  split : ∀ it ∈ own, it.1 ∈ result ∨ it ∈ worklist
  within : ∀ it ∈ worklist, it ∈ own

structure Swept (r : Sweep) (worklist : List (Expr × IndependentElementSet)) (r' : Sweep) :
    Prop where
  grows : r.eltsClosure.Within r'.eltsClosure
  done : r'.done = true → r.done = true ∧ r'.eltsClosure = r.eltsClosure ∧
    ∀ it ∈ r'.newWorklist, it ∈ r.newWorklist ∨ it.2.intersects r.eltsClosure = false
  length : r'.newWorklist.length ≤ r.newWorklist.length + worklist.length
  shrinks : r.done = true → r'.done = false →
    r'.newWorklist.length < r.newWorklist.length + worklist.length

section
variable {r : Sweep}
theorem Collecting.step (h : Collecting own r.eltsClosure (r.newWorklist ++ it :: rest) r.result) :
    Collecting own (r.step it).eltsClosure ((r.step it).newWorklist ++ rest)
      (r.step it).result := by
  rw [Sweep.step]
  split
  · obtain ⟨hgr, ha, -⟩ := add_spec r.eltsClosure it.2
    refine ⟨?_, ?_, ?_⟩
    · intro c hc
      obtain hc | hc := mem_append.1 hc
      · obtain ⟨s, hs, hw⟩ := h.kept c hc
        exact ⟨s, hs, hw.trans hgr⟩
      · rw [mem_singleton.1 hc]
        exact ⟨it.2, h.within it mem_append_cons_self, ha⟩
    · intro x hx
      obtain hx | hx := h.split x hx
      · exact inl (mem_append_left _ hx)
      obtain hx | hx := mem_append.1 hx
      · exact inr (mem_append_left _ hx)
      obtain rfl | hx := mem_cons.1 hx
      · exact inl mem_append_cons_self
      · exact inr (mem_append_right _ hx)
    · intro x hx
      apply h.within x
      obtain hx | hx := mem_append.1 hx
      · exact mem_append_left _ hx
      · exact mem_append_right _ (mem_cons_of_mem _ hx)
  · simp only [append_assoc, singleton_append]
    exact h

theorem swept_step (r : Sweep) (it : Expr × IndependentElementSet) : Swept r [it] (r.step it) := by
  rw [Sweep.step]
  split
  · obtain ⟨hgr, -, hs⟩ := add_spec r.eltsClosure it.2
    refine ⟨hgr, ?_, Nat.le_add_right _ _, fun _ _ => Nat.lt_succ_self _⟩
    intro hd
    rw [and_eq_true, not_eq_true'] at hd
    exact ⟨hd.1, hs hd.2, fun x hx => inl hx⟩
  next hds =>
    refine ⟨Within.refl _, ?_, ?_, ?_⟩
    · intro hd
      refine ⟨hd, rfl, ?_⟩
      intro x hx
      obtain hx | hx := mem_append.1 hx
      · exact inl hx
      · rw [mem_singleton.1 hx]
        exact inr (not_eq_true _ ▸ hds)
    · rw [length_append]
    · intro hd hdo
      rw [hd] at hdo
      cases hdo

theorem Swept.trans (h : Swept r l r') (h' : Swept r' l' r'') : Swept r (l ++ l') r'' := by
  have hl := h.length
  have hln := h'.length
  refine ⟨h.grows.trans h'.grows, ?_, ?_, ?_⟩
  · intro hd
    obtain ⟨hdo, hco, hnew'⟩ := h'.done hd
    obtain ⟨hd, hc, hnew⟩ := h.done hdo
    refine ⟨hd, hco.trans hc, ?_⟩
    intro it hit
    rw [hc] at hnew'
    obtain hit | hit := hnew' it hit
    · exact hnew it hit
    · exact inr hit
  · rw [length_append]
    omega
  · intro hd hdn
    rw [length_append]
    cases hdo : r'.done with
    | true =>
      have hlt := h'.shrinks hdo hdn
      omega
    | false =>
      have hlt := h.shrinks hd hdo
      omega

theorem foldl_step (worklist : List (Expr × IndependentElementSet)) (r : Sweep)
    (h : Collecting own r.eltsClosure (r.newWorklist ++ worklist) r.result) :
    Collecting own (worklist.foldl Sweep.step r).eltsClosure
      (worklist.foldl Sweep.step r).newWorklist (worklist.foldl Sweep.step r).result ∧
      Swept r worklist (worklist.foldl Sweep.step r) := by
  induction worklist generalizing r with
  | nil =>
    rw [append_nil] at h
    refine ⟨h, Within.refl _, fun hd => ⟨hd, rfl, fun _ hx => inl hx⟩, Nat.le_refl _, ?_⟩
    intro hd hdo
    rw [foldl_nil, hd] at hdo
    cases hdo
  | cons it worklist ih =>
    obtain ⟨hc, hs⟩ := ih (r.step it) h.step
    exact ⟨hc, (swept_step r it).trans hs⟩

/-- The loop ends, and the other constraints have no cell in the closure. -/
theorem closeConstraints_spec {closure : IndependentElementSet} (hfu : worklist.length < fuel)
    (h : Collecting own closure worklist result) :
    ∃ closure' result', closeConstraints fuel closure worklist result = some (closure', result') ∧
      closure.Within closure' ∧ ∃ rest, Collecting own closure' rest result' ∧
        ∀ it ∈ rest, it.2.intersects closure' = false := by
  induction fuel generalizing closure worklist result with
  | zero => exact absurd hfu (Nat.not_lt_zero _)
  | succ fuel ih =>
    rw [closeConstraints]
    obtain ⟨hc, hs⟩ := foldl_step worklist ⟨closure, true, result, []⟩ h
    split
    next hd =>
      obtain ⟨-, hl, hn⟩ := hs.done hd
      refine ⟨_, _, rfl, hs.grows, _, hc, ?_⟩
      intro it hit
      rw [hl]
      exact (hn it hit).resolve_left not_mem_nil
    next hd =>
      have hlt := hs.shrinks rfl (not_eq_true _ ▸ hd)
      simp only [length_nil, Nat.zero_add] at hlt
      obtain ⟨closure', result', heq, hgr, hr⟩ := ih (by omega) hc
      exact ⟨closure', result', heq, hs.grows.trans hgr, hr⟩

end

theorem mapM_ofExpr {constraints : List Expr} (h : ∀ c ∈ constraints, c.WellTyped) :
    ∃ worklist, constraints.mapM (fun c => (ofExpr c).map fun s => (c, s)) = some worklist ∧
      worklist.map Prod.fst = constraints ∧ ∀ it ∈ worklist, ofExpr it.1 = some it.2 := by
  induction constraints with
  | nil => exact ⟨[], rfl, rfl, forall_mem_nil _⟩
  | cons c constraints ih =>
    rw [forall_mem_cons] at h
    obtain ⟨s, hs, -⟩ := ofExpr_spec h.1
    obtain ⟨worklist, hm, hf, ha⟩ := ih h.2
    refine ⟨(c, s) :: worklist, ?_, ?_, forall_mem_cons.2 ⟨hs, ha⟩⟩
    · rw [mapM_cons, hs, hm]
      rfl
    · rw [map_cons, hf]

theorem getIndependentConstraints_spec (hcs : ∀ c ∈ constraints, c.WellTyped)
    (he : expr.WellTyped) :
    ∃ closure kept, getIndependentConstraints constraints expr = some (closure, kept) ∧
      (∀ c ∈ kept, c ∈ constraints) ∧
      ∀ ρ0 ρ1, (∀ c ∈ constraints, c.eval ρ0 = 1) → (∀ c ∈ kept, c.eval ρ1 = 1) →
        ∃ ρ, (∀ c ∈ constraints, c.eval ρ = 1) ∧ expr.eval ρ = expr.eval ρ1 := by
  obtain ⟨s, hs, hx⟩ := ofExpr_spec he
  obtain ⟨own, ho, hf, ha⟩ := mapM_ofExpr hcs
  have hm : ∀ it ∈ own, it.1 ∈ constraints := fun it hit => hf ▸ mem_map_of_mem hit
  have hv : ∀ it ∈ own, ∀ ρ ρ', SameCells it.2.Touches ρ ρ' → it.1.eval ρ = it.1.eval ρ' := by
    intro it hit
    obtain ⟨s', hs', hco⟩ := ofExpr_spec (hcs it.1 (hm it hit))
    rw [ha it hit] at hs'
    obtain rfl := Option.some.inj hs'
    exact hco
  have hst : Collecting own s own [] := ⟨forall_mem_nil _, fun _ hit => inr hit, fun _ hit => hit⟩
  obtain ⟨closure, kept, hclose, hwi, rest, hl, hd⟩ :=
    closeConstraints_spec (Nat.lt_succ_self own.length) hst
  refine ⟨closure, kept, ?_, ?_, ?_⟩
  · rw [getIndependentConstraints, hs, ho]
    exact hclose
  · intro c hc
    obtain ⟨s', hs', -⟩ := hl.kept c hc
    exact hm _ hs'
  intro ρ0 ρ1 h0 h1
  classical
  let ρ : Assignment := fun array i => if closure.Touches array i then ρ1 array i else ρ0 array i
  have hin : ∀ s' : IndependentElementSet, s'.Within closure → SameCells s'.Touches ρ ρ1 :=
    fun s' hs' array i hi => if_pos (hs' array i hi)
  refine ⟨ρ, ?_, hx ρ ρ1 (hin s hwi)⟩
  intro c hc
  rw [← hf] at hc
  obtain ⟨it, hit, rfl⟩ := mem_map.1 hc
  obtain hkp | hr := hl.split it hit
  · obtain ⟨s', hs', hw⟩ := hl.kept it.1 hkp
    rw [hv _ hs' ρ ρ1 (hin s' hw)]
    exact h1 it.1 hkp
  have hout : SameCells it.2.Touches ρ ρ0 := by
    intro array i hi
    apply if_neg
    intro hclo
    have hn := intersects_of_touches hi hclo
    rw [hd it hr] at hn
    cases hn
  rw [hv it hit ρ ρ0 hout]
  exact h0 it.1 (hm it hit)

namespace ConstraintManager
variable (ht : ConditionTree nodes)
include ht
theorem alloc_root : ConditionTree (nodes.alloc default) ∧ Extends nodes (nodes.alloc default) := by
  have hg : ∀ m, (nodes.alloc default).get m = nodes.get m := by
    intro m
    rw [get_alloc]
    split
    next hm => exact (get_of_le nodes (Nat.le_of_eq hm.symm)).symm
    · rfl
  refine ⟨⟨?_, ?_, ?_⟩, ⟨?_, ?_, ?_⟩⟩
  · intro n p hp
    exact ht.parent_lt (hg n ▸ hp)
  · intro n e c hc
    rw [hg c]
    exact ht.child (hg n ▸ hc)
  · intro n e hn
    exact ht.typed (hg n ▸ hn)
  · rw [size_alloc]
    exact Nat.le_succ _
  · exact fun {n} _ => by rw [hg n]
  · exact fun {n} _ => by rw [hg n]

theorem ofConstraints_spec (hcs : ∀ c ∈ cs, c.WellTyped ∧ c.width = 1) (hs : ∀ c ∈ cs, c.eval ρ0 =
    1) : ∃ cm nodes', ofConstraints alive nodes cs = .ok (cm, nodes') ∧ ∀ ρ, Satisfied nodes' cm ρ ↔
    ∀ c ∈ cs, c.eval ρ = 1 := by
  obtain ⟨ht', hx⟩ := alloc_root ht
  have hlt : nodes.size < (nodes.alloc default).size := by
    rw [size_alloc]
    exact Nat.lt_succ_self _
  have hro : ((nodes.alloc default).get nodes.size).parent = none := by
    rw [get_alloc_size]
    rfl
  have hp : path (nodes.alloc default) ⟨nodes.size, nodes.size⟩ = some [] := if_pos rfl
  have hlp : ∃ r, cs.foldlM (fun r c => addConstraint alive c r.1 r.2)
      (nodes.size, nodes.alloc default) = .ok r ∧
      Grown (nodes.alloc default) r.2 nodes.size [] r.1 fun ρ => ∀ c ∈ cs, c.eval ρ = 1 := by
    apply foldlM_total fun (done : List Expr) (r : Nat × Store ConditionNode) =>
      Grown (nodes.alloc default) r.2 nodes.size [] r.1 fun ρ => ∀ c ∈ done, c.eval ρ = 1
    · exact Grown.same ht' hlt hp fun ρ => forall_mem_nil _
    intro done c rest r hl hg
    have hm : c ∈ cs := hl ▸ mem_append_cons_self
    obtain ⟨hct, hcw⟩ := hcs c hm
    obtain ⟨r', hr'⟩ := addConstraint_ok_iff.2 (accepts_of_eval hct hcw (hs c hm))
    obtain ⟨new, hn, -⟩ := hg.path
    have ha := addConstraint_spec hg.tree hg.head_lt ((hg.grows.parent hlt).trans hro)
      (Nat.lt_of_lt_of_le hlt hg.grows.size_le) hn ⟨hct, hcw⟩ hr'
    obtain ⟨ht2, hx2, hk2, path2, hp2, hi⟩ := hg.trans hn ha
    refine ⟨r', hr', ht2, hx2, hk2, path2, hp2, ?_⟩
    intro ρ
    rw [hi, forall_mem_append, forall_mem_singleton]
  obtain ⟨r, hr, hg⟩ := hlp
  refine ⟨⟨nodes.size, r.1⟩, r.2, by rw [ofConstraints, hr]; rfl, ?_⟩
  intro ρ
  rw [hg.satisfied (forall_mem_nil _)]
  exact and_iff_right (forall_mem_nil _)

theorem constraints_spec (h : cm.constraints nodes = some cs) :
    (∀ c ∈ cs, c.WellTyped ∧ c.width = 1) ∧ ∀ ρ, Satisfied nodes cm ρ ↔ ∀ c ∈ cs, c.eval ρ = 1 := by
  obtain ⟨l, hl, rfl⟩ := Option.map_eq_some_iff.1 h
  refine ⟨?_, ?_⟩
  · intro c hc
    obtain ⟨n, -, rfl⟩ := mem_map.1 hc
    exact exprOf_typed ht n
  · intro ρ
    rw [satisfied_iff hl, forall_mem_map, Holds]
    exact forall_congr' fun n => by rw [mem_reverse]

end ConstraintManager

structure SameValues (T T' : Set Assignment) (e : Expr) : Prop where
  left : ∀ ρ ∈ T, ∃ ρ' ∈ T', e.eval ρ' = e.eval ρ
  right : ∀ ρ' ∈ T', ∃ ρ ∈ T, e.eval ρ = e.eval ρ'

namespace SameValues
variable (h : SameValues T T' e)
include h
theorem forall_iff (P : Nat → Prop) : (∀ ρ ∈ T, P (e.eval ρ)) ↔ ∀ ρ ∈ T', P (e.eval ρ) := by
  constructor
  · intro hT ρ hρ
    obtain ⟨ρ', hρ', heq⟩ := h.right ρ hρ
    exact heq ▸ hT ρ' hρ'
  · intro hT' ρ hρ
    obtain ⟨ρ', hρ', heq⟩ := h.left ρ hρ
    exact heq ▸ hT' ρ' hρ'

theorem exists_iff (P : Nat → Prop) : (∃ ρ ∈ T, P (e.eval ρ)) ↔ ∃ ρ ∈ T', P (e.eval ρ) := by
  constructor
  · rintro ⟨ρ, hρ, hP⟩
    obtain ⟨ρ', hρ', heq⟩ := h.left ρ hρ
    exact ⟨ρ', hρ', heq ▸ hP⟩
  · rintro ⟨ρ, hρ, hP⟩
    obtain ⟨ρ', hρ', heq⟩ := h.right ρ hρ
    exact ⟨ρ', hρ', heq ▸ hP⟩

theorem validity_iff (a : Validity) : Right T e a ↔ Right T' e a := by
  cases a with
  | isTrue => exact h.forall_iff fun v => v = 1
  | isFalse => exact h.forall_iff fun v => v ≠ 1
  | unknown => exact and_congr (h.exists_iff fun v => v = 1) (h.exists_iff fun v => v ≠ 1)

end SameValues

namespace IndependentSolver
/-- The kept constraints determine validity and values. -/
theorem independentQuery_determines (alive : Nat → Bool) (ht : ConditionTree nodes) {q : Query}
    (hcs : q.constraints.constraints nodes = some cs) (hsat : ∃ ρ, ρ ∈ q.models nodes)
    (he : q.expr.WellTyped) :
    ∃ closure kept q' nodes', getIndependentConstraints cs q.expr = some (closure, kept) ∧
      (∀ c ∈ kept, c ∈ cs) ∧ independentQuery alive nodes q = some (.ok (q', nodes')) ∧
      (∀ solver, computeValidity alive nodes solver q = some (.ok (solver nodes' q'))) ∧
      (∀ solver, computeTruth alive nodes solver q = some (.ok (solver nodes' q'))) ∧
      (∀ solver, computeValue alive nodes solver q = some (.ok (solver nodes' q'))) ∧
      q'.expr = q.expr ∧ q'.models nodes' = {ρ | ∀ c ∈ kept, c.eval ρ = 1} ∧
      (q.expr.ValidIn (q'.models nodes') ↔ q.expr.ValidIn (q.models nodes)) ∧
      (∀ a, Right (q'.models nodes') q.expr a ↔ Right (q.models nodes) q.expr a) ∧
      ∀ v, (∃ ρ ∈ q'.models nodes', q.expr.eval ρ = v) ↔
        ∃ ρ ∈ q.models nodes, q.expr.eval ρ = v := by
  obtain ⟨hty, hm⟩ := ConstraintManager.constraints_spec ht hcs
  obtain ⟨ρ0, hρ0⟩ := hsat
  have h0 := (hm ρ0).1 hρ0
  obtain ⟨closure, kept, hkp, hs, hx⟩ :=
    getIndependentConstraints_spec (fun c hc => (hty c hc).1) he
  obtain ⟨cm, nodes', hcm, hms'⟩ := ConstraintManager.ofConstraints_spec ht
    (fun c hc => hty c (hs c hc)) (fun c hc => h0 c (hs c hc))
  have hq : independentQuery alive nodes q = some (.ok (⟨cm, q.expr⟩, nodes')) := by
    rw [independentQuery, hcs, Option.bind_eq_bind, Option.bind_some, hkp, Option.map_some, hcm]
    rfl
  have hcomp : ∀ (β : Type) (solver : Store ConditionNode → Query → Option β),
      compute alive nodes solver q = some (.ok (solver nodes' ⟨cm, q.expr⟩)) := by
    intro β solver
    rw [compute, hq]
    rfl
  have hsm : SameValues (Query.models nodes' ⟨cm, q.expr⟩) (q.models nodes) q.expr := by
    refine ⟨?_, ?_⟩
    · intro ρ1 hρ1
      obtain ⟨ρ, hρ, heq⟩ := hx ρ0 ρ1 h0 ((hms' ρ1).1 hρ1)
      exact ⟨ρ, (hm ρ).2 hρ, heq⟩
    · intro ρ hρ
      exact ⟨ρ, (hms' ρ).2 fun c hc => (hm ρ).1 hρ c (hs c hc), rfl⟩
  refine ⟨closure, kept, ⟨cm, q.expr⟩, nodes', hkp, hs, hq, hcomp _, hcomp _, hcomp _, rfl, Set.ext
    hms', ?_, hsm.validity_iff, ?_⟩
  · exact hsm.forall_iff fun v => v = 1
  · intro v
    exact hsm.exists_iff fun v' => v' = v

def twoBytes : Store ConditionNode := ⟨[⟨none, none, []⟩,
    ⟨some 0, some (.compare .eq (.constant 8 5) (.read ⟨0, 2, []⟩ .null (.constant 32 0))), []⟩,
    ⟨some 1, some (.compare .eq (.constant 8 7) (.read ⟨0, 2, []⟩ .null (.constant 32 1))), []⟩]⟩

theorem twoBytes_tree : ConditionTree twoBytes := .of_nodes (by decide) (by decide) (by decide)

def firstByte : Query :=
  ⟨⟨0, 2⟩, .compare .ult (.read ⟨0, 2, []⟩ .null (.constant 32 0)) (.constant 8 6)⟩

theorem twoBytes_firstByte : ∃ closure kept q' nodes', getIndependentConstraints
        [.compare .eq (.constant 8 7) (.read ⟨0, 2, []⟩ .null (.constant 32 1)),
          .compare .eq (.constant 8 5) (.read ⟨0, 2, []⟩ .null (.constant 32 0))]
        firstByte.expr = some (closure, kept) ∧
      kept = [.compare .eq (.constant 8 5) (.read ⟨0, 2, []⟩ .null (.constant 32 0))] ∧
      independentQuery (fun _ => true) twoBytes firstByte = some (.ok (q', nodes')) ∧
      (firstByte.expr.ValidIn (q'.models nodes') ↔
        firstByte.expr.ValidIn (firstByte.models twoBytes)) := by
  obtain ⟨closure, kept, q', nodes', hkp, -, hq, -, -, -, -, -, hvd, -, -⟩ :=
    independentQuery_determines (fun _ => true) twoBytes_tree (q := firstByte) rfl
      ⟨fun _ i => if i = 0 then 5 else 7, [1, 2], rfl, by rw [ConstraintManager.Holds]; decide⟩
      (by decide)
  refine ⟨closure, kept, q', nodes', hkp, ?_, hq, hvd⟩
  have hs := congrArg (Option.map Prod.snd) hkp
  exact (Option.some.inj hs).symm

end IndependentSolver
end Chef
