import Chef.MemoryOperation

namespace Chef
open BitVec hiding and_assoc
open Foundations Chef.Expr List Option
section
variable {ρ : Assignment} {mo : MemoryObject} {address : Expr}
def MemoryObject.Contains (mo : MemoryObject) (a : Nat) : Prop :=
  mo.address ≤ a ∧ a < mo.address + mo.size

def MemoryObject.InBounds (mo : MemoryObject) (a bytes : Nat) : Prop :=
  mo.address ≤ a ∧ a + bytes ≤ mo.address + mo.size

instance (mo : MemoryObject) (a : Nat) : Decidable (mo.Contains a) :=
  inferInstanceAs (Decidable (_ ∧ _))

instance (mo : MemoryObject) (a bytes : Nat) : Decidable (mo.InBounds a bytes) :=
  inferInstanceAs (Decidable (_ ∧ _))

theorem constant_means (h : v < 2 ^ w) :
    (constant w v).MeansIn (Steady ρ) True D ρ (BitVec.ofNat w v) := by
  refine ⟨h, rfl, fun _ => ?_, fun _ => trivial⟩
  rw [eval, toNat_ofNat]

variable (ht : address.WellTyped)
include ht
variable (hs : address.Steady ρ)
include hs
section
variable (hw : address.width = w)
include hw
theorem address_means :
    address.MeansIn (Steady ρ) True True ρ (BitVec.ofNat w (address.eval ρ)) := by
  have hme := means_self (D := True) True ρ ht fun _ => hs
  rw [hw] at hme
  exact hme

section
variable (hlt : mo.address + mo.size < 2 ^ w)
include hlt
theorem MemoryObject.rangeCondition_means :
    (mo.rangeCondition w address).MeansIn (Steady ρ) True True ρ
      (ofBool (decide (mo.Contains (address.eval ρ)))) := by
  have haddress := address_means ht hs hw
  have hb : (mo.getBaseExpr w).MeansIn (Steady ρ) True True ρ
      (BitVec.ofNat w mo.address) := constant_means (by omega)
  have hz : (mo.getSizeExpr w).MeansIn (Steady ρ) True True ρ
      (BitVec.ofNat w mo.size) := constant_means (by omega)
  have ha := address.eval_lt ρ ht
  rw [hw] at ha
  apply (AndExpr.create_means (UleExpr.create_means hb haddress)
    (UltExpr.create_means haddress (AddExpr.create_means hb hz))).congr
  intro _
  rw [← ofNat_add, ule_eq_decide, ult_eq_decide]
  simp only [toNat_ofNat]
  rw [Nat.mod_eq_of_lt ha, Nat.mod_eq_of_lt hlt, Nat.mod_eq_of_lt (by omega),
    ofBool_and_ofBool, ← Bool.decide_and]
  rfl

theorem MemoryObject.rangeCondition_isCondition :
    (mo.rangeCondition w address).IsCondition ρ := (rangeCondition_means ht hs hw hlt).isCondition

theorem MemoryObject.rangeCondition_eval :
    (mo.rangeCondition w address).eval ρ = 1 ↔ mo.Contains (address.eval ρ) := by
  rw [(rangeCondition_means ht hs hw hlt).eval_eq trivial]
  by_cases h : mo.Contains (address.eval ρ) <;> simp [h]

end

theorem MemoryObject.getOffsetExpr_means (hlt : mo.address < 2 ^ w) :
    (mo.getOffsetExpr w address).MeansIn (Steady ρ)
    True True ρ (BitVec.ofNat w (address.eval ρ) - BitVec.ofNat w mo.address) :=
  SubExpr.create_means (address_means ht hs hw) (constant_means hlt)

end

theorem MemoryObject.getOffsetExpr_eval_eq
    (hs' : address.Steady ρ') (hw : address.width = w) (hlt : mo.address < 2 ^ w) :
    (mo.getOffsetExpr w address).eval ρ = (mo.getOffsetExpr w address).eval ρ' ↔
      address.eval ρ = address.eval ρ' := by
  have ha := address.eval_lt ρ ht
  have ha' := address.eval_lt ρ' ht
  rw [hw] at ha ha'
  rw [(getOffsetExpr_means ht hs hw hlt).eval_eq trivial,
    (getOffsetExpr_means ht hs' hw hlt).eval_eq trivial, toNat_inj, BitVec.sub_left_inj,
    ← toNat_inj, toNat_ofNat, toNat_ofNat, Nat.mod_eq_of_lt ha, Nat.mod_eq_of_lt ha']

end

theorem Expr.eval_of_isConstant {e : Expr} (h : e.isConstant = true) (ρ ρ' : Assignment) :
    e.eval ρ = e.eval ρ' := by
  cases e with
  | constant w v => rw [eval, eval]
  | _ => cases h

theorem resolveOne_mem (h : resolveOne objects a = some o) : o ∈ objects := by
  obtain ⟨hl, _⟩ := filter_eq_some_iff.1 h
  exact mem_of_mem_filter (mem_of_getLast? hl)

theorem resolveOne_le (h : resolveOne objects a = some o) : o.memoryObject.address ≤ a := by
  obtain ⟨hl, _⟩ := filter_eq_some_iff.1 h
  have hm := mem_of_getLast? hl
  exact of_decide_eq_true (mem_filter.1 hm).2

theorem resolveByteOffset_mem (h : resolveByteOffset objects base bits = some (o, b)) :
    o ∈ objects := by
  rw [resolveByteOffset.eq_def] at h
  split at h
  · split at h
    · obtain ⟨o', ho', heq⟩ := map_eq_some_iff.1 h
      cases heq
      exact resolveOne_mem (filter_eq_some_iff.1 ho').1
    · cases h
  · cases h

def MemoryOperation.SteadyIn (G : Set Assignment) : MemoryOperation → Prop
  | .load _ => True
  | .store value => value.SteadyIn G

def MemoryOperation.SameValue (ρ ρ' : Assignment) : MemoryOperation → Prop
  | .load _ => True
  | .store value => value.eval ρ = value.eval ρ'

theorem MemoryOperation.sameValue_refl (operation : MemoryOperation) (ρ : Assignment) :
    operation.SameValue ρ ρ := by
  cases operation with
  | load type => trivial
  | store value => rfl

namespace Executor
/-- The constraints keep the assignments that have a property. -/
structure Narrows (G : Set Assignment) (i : Nat) (x : Executor) (s : ForkingState)
    (x' : Executor) (s' : ForkingState) (P : Assignment → Prop) : Prop where
  state : x'.states[i]? = some s'
  concolics : s'.concolics = s.concolics
  clean : x'.IsClean → x.IsClean
  subset : s.constraints ⊆ s'.constraints
  right : x'.IsClean → (∀ ρ ∈ G, x.exprSimplifier.Sound ρ) → ∀ ρ ∈ G,
    x'.exprSimplifier.Sound ρ ∧ (HoldAt ρ s'.constraints ↔ HoldAt ρ s.constraints ∧ P ρ)

section
variable {A : APInt} {G : Set Assignment} {x x1 x' x'' : Executor}
  {e address : Expr} {objects : List BoundObject} {solver : Solver} {i : Nat}

theorem Narrows.trans (h : Narrows G i x s x' s' P) (h' : Narrows G i x' s' x'' s'' Q) :
    Narrows G i x s x'' s'' fun ρ => P ρ ∧ Q ρ where
  state := h'.state
  concolics := h'.concolics.trans h.concolics
  clean hcl := h.clean (h'.clean hcl)
  subset := List.Subset.trans h.subset h'.subset
  right hcl hx ρ hρ := by
    have hr := h.right (h'.clean hcl) hx
    obtain ⟨hd, hho⟩ := h'.right hcl (fun ρ hρ => (hr ρ hρ).1) ρ hρ
    rw [hho, (hr ρ hρ).2, and_assoc]
    exact ⟨hd, Iff.rfl⟩

theorem Narrows.congr (h : Narrows G i x s x' s' P) (hPQ : ∀ ρ ∈ G, (P ρ ↔ Q ρ)) :
    Narrows G i x s x' s' Q where
  state := h.state
  concolics := h.concolics
  clean := h.clean
  subset := h.subset
  right hcl hx ρ hρ := by
    rw [← hPQ ρ hρ]
    exact h.right hcl hx ρ hρ

theorem Narrows.same (hs : x.states[i]? = some s) (hss : x'.states = x.states) (hcl :
    x'.IsClean → x.IsClean) (hd : x'.IsClean → ∀ ρ ∈ G, x.exprSimplifier.Sound ρ →
    x'.exprSimplifier.Sound ρ) : Narrows G i x s x' s fun _ => True where
  state := by rw [hss, hs]
  concolics := rfl
  clean := hcl
  subset := .refl _
  right hcl hx ρ hρ := ⟨hd hcl ρ hρ (hx ρ hρ), (and_iff_left trivial).symm⟩

theorem resolveOneFast_spec (hA : A.Lawful) (hs : x.states[i]? = some s)
    (h : x.resolveOneFast A depth objects address type = .ok (found, x'))
    (haddress : address.SteadyIn G) :
    Narrows G i x s x' s (fun _ => True) ∧ ∀ o b, found = some (o, b) → o ∈ objects := by
  rw [resolveOneFast.eq_def] at h
  split at h
  · cases h
    refine ⟨.same hs rfl id fun _ _ _ => id, fun o b hf => ?_⟩
    obtain ⟨o', ho', heq⟩ := map_eq_some_iff.1 hf
    cases heq
    exact resolveOne_mem ho'
  · split at h
    next offset r exprSimplifier calls hm =>
      cases h
      refine ⟨.same hs rfl (fun hcl => (forall_mem_append.1 hcl).1)
        fun hcl ρ hρ hd => ?_, fun o b hf => resolveByteOffset_mem hf⟩
      exact (BitfieldSimplifier.simplify_right hA hm hd haddress.wellTyped.2.1
        (haddress.steady ρ hρ).2.1 (forall_mem_append.1 hcl).2).2
    · cases h
  · cases h
    exact ⟨.same hs rfl id fun _ _ _ => id, nofun⟩

theorem resolveOneFast_constant
    (h : x.resolveOneFast A depth objects (.constant w v) type = .ok (some (o, true), x')) :
    x' = x ∧ o ∈ objects ∧ o.memoryObject.InBounds v (getMinBytesForWidth type) := by
  rw [resolveOneFast] at h
  injection h with h
  obtain ⟨hf, hx'⟩ := Prod.ext_iff.1 h
  obtain ⟨o', ho', heq⟩ := map_eq_some_iff.1 hf
  obtain ⟨rfl, hbd⟩ := Prod.ext_iff.1 heq
  have hle := resolveOne_le ho'
  have hz := of_decide_eq_true hbd
  refine ⟨hx'.symm, resolveOne_mem ho', hle, ?_⟩
  simp only at hz ⊢
  omega

/-- The solver failed, so the other branch counts as infeasible. -/
def Unrecorded (enableSpeculativeForking : Bool) (s : ForkingState) (solver : Solver) : Prop :=
  enableSpeculativeForking = false ∧ s.forkDisabled = false ∧ solver.responds = false

theorem single_first (h : ((some i, f) : StatePair) = StatePair.single j taken) : taken = true := by
  cases taken with
  | true => rfl
  | false => cases h

theorem Narrows.added (hst : x'.states[i]? = some s') (hconcolics : s'.concolics =
    s.concolics) (hc1 : x1.IsClean → x.IsClean) (hc2 : x'.IsClean → x1.IsClean) (hb :
    s.constraints ⊆ s'.constraints) (hg : x1.IsClean → (∀ ρ ∈ G, x.exprSimplifier.Sound ρ) →
    ∀ ρ ∈ G, x1.exprSimplifier.Sound ρ ∧ c.IsCondition ρ ∧ (c.eval ρ = 1 ↔ P ρ)) (ha : ∀ ρ,
    x1.exprSimplifier.Sound ρ → c.IsCondition ρ → x'.IsClean →
    Added ρ c s.constraints s'.constraints ∧ x'.exprSimplifier.Sound ρ) :
    Narrows G i x s x' s' P where
  state := hst
  concolics := hconcolics
  clean hcl := hc1 (hc2 hcl)
  subset := hb
  right hcl hx ρ hρ := by
    obtain ⟨hd, hc, hP⟩ := hg (hc2 hcl) hx ρ hρ
    obtain ⟨had, hsu⟩ := ha ρ hd hc hcl
    rw [had.holds, hP]
    exact ⟨hsu, Iff.rfl⟩

theorem concolicFork_first (hA : A.Signed) (hsolver : solver.Sound) (hs : x.states[i]? = some s)
    (hcd : condition.SteadyIn G) (hw : condition.width = 1)
    (h : x.concolicFork A depth enableSpeculativeForking i condition solver limits =
      .ok ((some i, f), x')) : ∃ s', Narrows G i x s x' s' fun ρ =>
      Unrecorded enableSpeculativeForking s solver ∨ condition.eval ρ = 1 := by
  obtain ⟨c, x1, hsy, hca⟩ := concolicFork_cases h
  obtain ⟨hsts, hc1, hm⟩ := simplifyExpr_spec hA.toLawful hsy
  have hs1 : x1.states[i]? = some s := by rw [hsts, hs]
  have hi := (List.getElem?_eq_some_iff.1 hs1).1
  have hg (hcl : x1.IsClean) (ρ : Assignment) (hρ : ρ ∈ G) (hsd : x.exprSimplifier.Sound ρ) :
      x1.exprSimplifier.Sound ρ ∧ c.IsCondition ρ ∧ c.eval ρ = condition.eval ρ := by
    obtain ⟨hm, hsu⟩ := hm ρ hsd hcd.wellTyped (hcd.steady ρ hρ) hcl
    exact ⟨hsu, hm.isCondition hw, hm.eval_eq⟩
  obtain ⟨w, v, rfl, hp, rfl⟩ | ⟨s1, ρ0, hs1', _, _, hbr⟩ := hca
  · have hta := single_first hp
    refine ⟨s, hs1, rfl, hc1, .refl _, fun hcl hx ρ hρ => ?_⟩
    obtain ⟨hsd, _, hv⟩ := hg hcl ρ hρ (hx ρ hρ)
    rw [eval, of_decide_eq_true hta] at hv
    exact ⟨hsd, (and_iff_left (.inr hv.symm)).symm⟩
  · rw [hs1] at hs1'
    cases hs1'
    have hrc (hrc : ¬Unrecorded enableSpeculativeForking s solver)
        (hcl : x1.IsClean) (hx : ∀ ρ ∈ G, x.exprSimplifier.Sound ρ) (ρ : Assignment)
        (hρ : ρ ∈ G) : x1.exprSimplifier.Sound ρ ∧ c.IsCondition ρ ∧
          (c.eval ρ = 1 ↔ Unrecorded enableSpeculativeForking s solver ∨ condition.eval ρ = 1) := by
      obtain ⟨hsu, hc, hv⟩ := hg hcl ρ hρ (hx ρ hρ)
      rw [hv, or_iff_right hrc]
      exact ⟨hsu, hc, Iff.rfl⟩
    cases hbr with
    | disabled hd hk =>
      obtain ⟨hp, hc2, cs, hss, hb, ha⟩ := takeBranch_spec hA.toLawful hs1 hk
      have hta := single_first hp
      rw [hta] at ha
      refine ⟨{ s with constraints := cs }, .added ?_ rfl hc1 hc2 hb (hrc fun h => ?_) ha⟩
      · rw [hss, List.getElem?_set_self hi]
      · rw [h.2.1] at hd
        cases hd
    | both s1 hs1' han hf =>
      obtain ⟨hp, hc2, cs, hss, hb, ha⟩ := forkSpeculatively_spec hA.toLawful
        (getElem_setState hs1 s1) hf
      have hta : decide (c.evaluate A ρ0 = 1) = true := by
        by_contra hta
        rw [if_neg hta] at hp
        have hl : i = x1.states.length := by
          rw [setState, length_set] at hp
          exact some.inj (Prod.ext_iff.1 hp).1
        exact absurd hl (ne_of_lt hi)
      rw [hta] at ha
      have hn : s1.constraints = s.constraints ∧ s1.concolics = s.concolics := by
        obtain rfl | rfl := hs1' <;> exact ⟨rfl, rfl⟩
      rw [hn.1] at hb ha
      refine ⟨{ s1 with depth := s1.depth + 1, constraints := cs }, .added ?_ hn.2 hc1
        hc2 hb (hrc fun h => ?_) ha⟩
      · rw [hss, List.getElem?_append_left (by simpa [setState] using hi),
          List.getElem?_set_self (by simpa [setState] using hi)]
      · rw [h.1, h.2.2] at han
        exact han.elim Bool.false_ne_true Bool.false_ne_true
    | infeasible hd hsp hh hp hx' =>
      subst hx'
      have hta := single_first hp
      rw [hta] at hh
      refine ⟨{ s with speculativeCondition := none }, getElem_setState hs1 _, rfl, hc1, .refl
        _, fun hcl hx ρ hρ => ?_⟩
      obtain ⟨hsd, hc, hv⟩ := hg hcl ρ hρ (hx ρ hρ)
      refine ⟨hsd, (and_iff_left_of_imp fun hhd => ?_).symm⟩
      cases hr : solver.responds with
      | false => exact .inl ⟨hsp, hd, hr⟩
      | true =>
        rw [← hv]
        exact .inr ((infeasible_follows hsolver hr hh hc hhd).2 rfl)

theorem eqConstant_eval_iff (ht : e.WellTyped) (hs : e.Steady ρ) (hv : v < 2 ^ e.width) :
    (EqExpr.create e (.constant e.width v)).eval ρ = 1 ↔ e.eval ρ = v := by
  have hlt := e.eval_lt ρ ht
  rw [(eqConstant_means ht hs v hv).eval_eq trivial, toNat_ofBool]
  have heq : (BitVec.ofNat e.width (e.eval ρ) == BitVec.ofNat e.width v) = true ↔ e.eval ρ = v := by
    rw [beq_iff_eq, ← toNat_inj, toNat_ofNat, toNat_ofNat,
      Nat.mod_eq_of_lt hlt, Nat.mod_eq_of_lt hv]
  rw [← heq]
  cases BitVec.ofNat e.width (e.eval ρ) == BitVec.ofNat e.width v <;> decide

section
variable (hA : A.Signed) (hs : x.states[i]? = some s) (hconcolics : s.concolics = some ρ0)
  (hρ0 : ρ0 ∈ G) (he : e.SteadyIn G)
include hA hs hconcolics hρ0 he
theorem evaluateSimplified_narrows (h : x.evaluateSimplified A depth i e = .ok ((e', value), x')) :
    Narrows G i x s x' s (fun _ => True) ∧
      (x'.IsClean → (∀ ρ ∈ G, x.exprSimplifier.Sound ρ) → (∀ ρ ∈ G, Simplifies ρ e e') ∧
        (e'.isConstant = false → value = .constant e'.width (e.eval ρ0))) := by
  obtain ⟨hsy, hv⟩ := evaluateSimplified_cases h
  obtain ⟨hss, hcl, hm⟩ := simplifyExpr_spec hA.toLawful hsy
  refine ⟨.same hs hss hcl fun hcl ρ hρ hd =>
    (hm ρ hd he.wellTyped (he.steady ρ hρ) hcl).2, fun hcl hx => ?_⟩
  have hg (ρ : Assignment) (hρ : ρ ∈ G) : Simplifies ρ e e' :=
    (hm ρ (hx ρ hρ) he.wellTyped (he.steady ρ hρ) hcl).1
  refine ⟨hg, fun hn => ?_⟩
  obtain ⟨hc, rfl⟩ | ⟨hc, s1, ρ, hs1, hρ, rfl⟩ := hv
  · exact absurd hc (Bool.not_eq_true _ ▸ hn)
  rw [hss, hs] at hs1
  cases hs1
  rw [hconcolics] at hρ
  cases hρ
  rw [evaluate_eq_eval hA ρ0 _ (hg ρ0 hρ0).steady, (hg ρ0 hρ0).eval_eq]

theorem toConstant_narrows (h : x.toConstant A depth i e = .ok (value, x')) :
    ∃ s', Narrows G i x s x' s' fun ρ => e.eval ρ = e.eval ρ0 := by
  obtain ⟨e1, x1, hev, hca⟩ := toConstant_cases h
  obtain ⟨hsm, hr⟩ := evaluateSimplified_narrows hA hs hconcolics hρ0 he hev
  obtain ⟨hc, rfl⟩ | ⟨hc, ha⟩ := hca
  · refine ⟨s, hsm.state, rfl, hsm.clean, .refl _, fun hcl hx ρ hρ => ?_⟩
    obtain ⟨hm, _⟩ := hr hcl hx
    refine ⟨(hsm.right hcl hx ρ hρ).1, (and_iff_left ?_).symm⟩
    rw [← (hm ρ hρ).eval_eq, ← (hm ρ0 hρ0).eval_eq]
    exact eval_of_isConstant hc ρ ρ0
  · obtain ⟨s2, cs, hs2, hss, hb, hc2, ha⟩ := addConstraint_spec hA.toLawful ha
    rw [hsm.state] at hs2
    cases hs2
    refine ⟨{ s with constraints := cs }, .added ?_ rfl hsm.clean hc2 hb (fun hcl hx ρ hρ => ?_) ha⟩
    · rw [hss, List.getElem?_set_self (List.getElem?_eq_some_iff.1 hsm.state).1]
    obtain ⟨hm, hv⟩ := hr hcl hx
    have hlt := e1.eval_lt ρ0 (hm ρ0 hρ0).wellTyped
    rw [(hm ρ0 hρ0).eval_eq] at hlt
    have hi := eqConstant_eval_iff (hm ρ hρ).wellTyped (hm ρ hρ).steady hlt
    rw [hv hc, hi, (hm ρ hρ).eval_eq]
    exact ⟨(hsm.right hcl hx ρ hρ).1,
      (eqConstant_means (hm ρ hρ).wellTyped (hm ρ hρ).steady _ hlt).isCondition, Iff.rfl⟩

theorem toConstantSilent_narrows (h : x.toConstantSilent A depth i e = .ok (value, x')) :
    Narrows G i x s x' s fun _ => True := by
  obtain ⟨⟨⟨e', value'⟩, x2⟩, hv, h⟩ := map_ok_iff.1 h
  cases h
  exact (evaluateSimplified_narrows hA hs hconcolics hρ0 he hv).1

theorem concretizeFor_narrows (h : x.concretizeFor A depth i mo e = .ok (value, x')) :
    ∃ s', Narrows G i x s x' s' fun ρ => mo.isValueIgnored = false → e.eval ρ = e.eval ρ0 := by
  rw [concretizeFor] at h
  cases hi : mo.isValueIgnored with
  | true =>
    rw [if_pos hi] at h
    exact ⟨s, (toConstantSilent_narrows hA hs hconcolics hρ0 he h).congr fun _ _ => by simp⟩
  | false =>
    rw [if_neg (Bool.not_eq_true _ ▸ hi)] at h
    obtain ⟨s', hs'⟩ := toConstant_narrows hA hs hconcolics hρ0 he h
    exact ⟨s', hs'.congr fun _ _ => by simp⟩

end

def Pinned (mo : MemoryObject) : Prop := mo.isSharedConcrete = true ∧ mo.isValueIgnored = false

theorem access_narrows (hA : A.Signed) (hs : x.states[i]? = some s)
    (hconcolics : s.concolics = some ρ0) (hρ0 : ρ0 ∈ G) (ho : offset.SteadyIn G)
    (hop : operation.SteadyIn G)
    (h : x.access A depth i o operation offset = .ok (some found, x')) :
    found.object = o ∧ ∃ s', Narrows G i x s x' s' fun ρ => Pinned o.memoryObject →
      offset.eval ρ = offset.eval ρ0 ∧ operation.SameValue ρ ρ0 := by
  have hm : Narrows G i x s x s fun _ => True := .same hs rfl id fun _ _ _ => id
  cases operation with
  | load type =>
    rw [Executor.access] at h
    cases hh : o.memoryObject.isSharedConcrete && !offset.isConstant with
    | false =>
      rw [hh, if_neg Bool.false_ne_true] at h
      cases h
      refine ⟨rfl, s, hm.congr fun ρ _ => ⟨fun _ hp => ?_, fun _ => trivial⟩⟩
      rw [hp.1, Bool.true_and, Bool.not_eq_false'] at hh
      exact ⟨eval_of_isConstant hh ρ ρ0, trivial⟩
    | true =>
      rw [hh, if_pos rfl] at h
      obtain ⟨⟨offset', x1⟩, hc, h⟩ := bind_ok_iff.1 h
      cases h
      obtain ⟨s', hs'⟩ := concretizeFor_narrows hA hs hconcolics hρ0 ho hc
      refine ⟨rfl, s', hs'.congr fun ρ _ => ?_⟩
      rw [Bool.and_eq_true_iff] at hh
      simp [Pinned, hh.1, MemoryOperation.SameValue]
  | store value =>
    rw [Executor.access] at h
    cases hr : o.readOnly with
    | true =>
      rw [hr, if_pos rfl] at h
      cases h
    | false =>
      rw [hr, if_neg Bool.false_ne_true] at h
      cases hh : o.memoryObject.isSharedConcrete && !(offset.isConstant && value.isConstant) with
      | false =>
        rw [hh, if_neg Bool.false_ne_true] at h
        cases h
        refine ⟨rfl, s, hm.congr fun ρ _ => ⟨fun _ hp => ?_, fun _ => trivial⟩⟩
        rw [hp.1, Bool.true_and, Bool.not_eq_false', Bool.and_eq_true_iff] at hh
        exact ⟨eval_of_isConstant hh.1 ρ ρ0, eval_of_isConstant hh.2 ρ ρ0⟩
      | true =>
        rw [hh, if_pos rfl] at h
        obtain ⟨⟨offset', x1⟩, hc, h⟩ := bind_ok_iff.1 h
        obtain ⟨⟨value', x2⟩, hco, h⟩ := bind_ok_iff.1 h
        cases h
        obtain ⟨s1, hs1⟩ := concretizeFor_narrows hA hs hconcolics hρ0 ho hc
        obtain ⟨s', hs'⟩ := concretizeFor_narrows hA hs1.state (hs1.concolics.trans hconcolics) hρ0
          hop hco
        refine ⟨rfl, s', (hs1.trans hs').congr fun ρ _ => ?_⟩
        rw [Bool.and_eq_true_iff] at hh
        simp [Pinned, hh.1, MemoryOperation.SameValue, imp_and]

def MatchedFast (A : APInt) (depth : Nat) (x : Executor) (objects : List BoundObject)
    (address : Expr) (type : Nat) : Prop :=
  ∃ o x', x.resolveOneFast A depth objects address type = .ok (some (o, true), x')

def RangeRecorded (A : APInt) (depth : Nat) (enableSpeculativeForking : Bool) (x : Executor)
    (s : ForkingState) (objects : List BoundObject) (address : Expr) (type : Nat)
    (solver : Solver) : Prop :=
  ¬MatchedFast A depth x objects address type ∧ ¬Unrecorded enableSpeculativeForking s solver

variable (hA : A.Signed) (hsolver : solver.Sound) (hs : x.states[i]? = some s)
  (hconcolics : s.concolics = some ρ0) (hρ0 : ρ0 ∈ G) (haddress : address.SteadyIn G)
  (hw : address.width = pointerWidth)
  (hobjects : ∀ o ∈ objects, o.memoryObject.address + o.memoryObject.size < 2 ^ pointerWidth)
  (htype : 0 < type)
include hA hsolver hs hconcolics hρ0 haddress hw hobjects htype
theorem resolveConcretely_narrows
    (h : x.resolveConcretely A depth enableSpeculativeForking pointerWidth i objects address type
      solver limits = .ok (o, x')) : o ∈ objects ∧ o.memoryObject.Contains (address.eval ρ0) ∧
      ∃ s', Narrows G i x s x' s' fun ρ => Unrecorded enableSpeculativeForking s solver ∨
          o.memoryObject.Contains (address.eval ρ) := by
  obtain ⟨s1, hs1, h⟩ := bind_ok_iff.1 h
  replace hs1 := state_ok hs1
  rw [hs] at hs1
  cases hs1
  rw [hconcolics] at h
  obtain ⟨⟨found, x1⟩, hr, h⟩ := bind_ok_iff.1 h
  simp only at h
  split at h
  next o' =>
    obtain ⟨⟨⟨t, f⟩, x2⟩, hf, h⟩ := bind_ok_iff.1 h
    split at h
    next hfst =>
      cases h
      subst hfst
      obtain ⟨rfl, ho, hb⟩ := resolveOneFast_constant hr
      rw [evaluate_eq_eval hA ρ0 address (haddress.steady ρ0 hρ0)] at hb
      have hlt := hobjects o ho
      have hcd : (o.memoryObject.rangeCondition pointerWidth address).SteadyIn G :=
        ⟨(MemoryObject.rangeCondition_isCondition haddress.wellTyped (haddress.steady ρ0 hρ0) hw
          hlt).wellTyped, fun ρ hρ => (MemoryObject.rangeCondition_isCondition haddress.wellTyped
            (haddress.steady ρ hρ) hw hlt).steady⟩
      have hd := (MemoryObject.rangeCondition_isCondition haddress.wellTyped
        (haddress.steady ρ0 hρ0) hw hlt).width_eq
      obtain ⟨s', hs'⟩ := concolicFork_first hA hsolver hs hcd hd hf
      refine ⟨ho, ⟨hb.1, ?_⟩, s', hs'.congr fun ρ hρ => ?_⟩
      · have hbs : 0 < getMinBytesForWidth type := by
          rw [getMinBytesForWidth]
          omega
        have hn := hb.2
        omega
      · rw [MemoryObject.rangeCondition_eval haddress.wellTyped (haddress.steady ρ hρ) hw hlt]
    · cases h
  · cases h

theorem locate_narrows
    (h : x.locate A depth enableSpeculativeForking pointerWidth i objects address type solver
      limits = .ok (o, x')) : o ∈ objects ∧ ∃ s', (Narrows G i x s x' s' fun ρ =>
        RangeRecorded A depth enableSpeculativeForking x s objects address type solver →
          o.memoryObject.Contains (address.eval ρ)) ∧
      (RangeRecorded A depth enableSpeculativeForking x s objects address type solver →
        o.memoryObject.Contains (address.eval ρ0)) := by
  obtain ⟨⟨found, x1⟩, hr, h⟩ := bind_ok_iff.1 h
  obtain ⟨hfa, hf⟩ := resolveOneFast_spec hA.toLawful hs hr haddress
  simp only at h
  split at h
  next o' =>
    cases h
    have hm : ¬RangeRecorded A depth enableSpeculativeForking x s objects address type
        solver := fun hrc => hrc.1 ⟨_, _, hr⟩
    exact ⟨hf _ _ rfl, s, hfa.congr fun ρ _ => by simp [hm], fun hrc => absurd hrc hm⟩
  next hl =>
    obtain ⟨ho, hc, s', hs'⟩ := resolveConcretely_narrows hA hsolver hfa.state
      hconcolics hρ0 haddress hw hobjects htype h
    have hu : ¬MatchedFast A depth x objects address type := by
      rintro ⟨o', x'', hrs⟩
      rw [hr] at hrs
      cases hrs
      exact hl _ rfl
    refine ⟨ho, s', (hfa.trans hs').congr fun ρ _ => ?_, fun _ => hc⟩
    simp only [RangeRecorded, hu, not_false_eq_true, true_and]
    tauto

end

/-- Some assignment takes the access out of the object. -/
def Overruns (recorded : Prop) (s : ForkingState) (mo : MemoryObject) (address : Expr)
    (bytes : Nat) : Prop :=
  ∃ ρ, HoldAt ρ s.constraints ∧ (recorded → mo.Contains (address.eval ρ)) ∧
    (Pinned mo → ∀ ρ0 ∈ s.concolics, address.eval ρ = address.eval ρ0) ∧
    ¬mo.InBounds (address.eval ρ) bytes

/-- Accesses are proved to lie in the object unless they overrun it. -/
theorem executeMemoryOperation_inBounds_iff {operation : MemoryOperation} (hA : A.Signed)
    (hsolver : solver.Sound) (hs : x.states[i]? = some s) (hconcolics : s.concolics = some ρ0)
    (hinvariant : HoldAt ρ0 s.constraints)
    (hobjects : ∀ o ∈ objects, o.memoryObject.address + o.memoryObject.size < 2 ^ pointerWidth)
    (hw : address.width = pointerWidth) (htype : 0 < operation.width)
    (haddress : address.SteadyIn { ρ | HoldAt ρ s.constraints })
    (hoperation : operation.SteadyIn { ρ | HoldAt ρ s.constraints })
    (hsound : ∀ ρ, HoldAt ρ s.constraints → x.exprSimplifier.Sound ρ)
    (h : x.executeMemoryOperation A depth enableSpeculativeForking pointerWidth i objects operation
      address solver limits = .ok (some found, x')) (hclean : x'.IsClean) :
    (∀ ρ, x'.Admits ρ (some i) →
        found.object.memoryObject.InBounds (address.eval ρ) (getMinBytesForWidth operation.width)) ↔
      ¬Overruns
        (RangeRecorded A depth enableSpeculativeForking x s objects address operation.width solver)
        s found.object.memoryObject address (getMinBytesForWidth operation.width) := by
  obtain ⟨⟨o, x1⟩, hl, h⟩ := bind_ok_iff.1 h
  obtain ⟨ho, s1, hs1, hc⟩ :=
    locate_narrows hA hsolver hs hconcolics hinvariant haddress hw hobjects htype hl
  have hlt : o.memoryObject.address < 2 ^ pointerWidth := by
    have := hobjects o ho
    omega
  have hf : (o.memoryObject.getOffsetExpr pointerWidth address).SteadyIn
      { ρ | HoldAt ρ s.constraints } :=
    ⟨(MemoryObject.getOffsetExpr_means haddress.wellTyped (haddress.steady ρ0 hinvariant) hw
      hlt).wellTyped, fun ρ hρ => (MemoryObject.getOffsetExpr_means haddress.wellTyped
        (haddress.steady ρ hρ) hw hlt).defined trivial⟩
  obtain ⟨rfl, s', hs'⟩ := access_narrows hA hs1.state (hs1.concolics.trans hconcolics)
    hinvariant hf hoperation h
  have ha := hs1.trans hs'
  have hho := fun ρ hρ => (ha.right hclean hsound ρ hρ).2
  have hp (ρ : Assignment) (hρ : HoldAt ρ s.constraints) :
      (found.object.memoryObject.getOffsetExpr pointerWidth address).eval ρ =
        (found.object.memoryObject.getOffsetExpr pointerWidth address).eval ρ0 ↔
          address.eval ρ = address.eval ρ0 :=
    MemoryObject.getOffsetExpr_eval_eq haddress.wellTyped (haddress.steady ρ hρ)
      (haddress.steady ρ0 hinvariant) hw hlt
  simp only [admits_some ha.state]
  constructor
  · rintro hb ⟨ρ, hρ, hr, hx, hout⟩
    apply hout
    by_cases hpin : Pinned found.object.memoryObject
    · rw [hx hpin ρ0 hconcolics]
      apply hb ρ0
      rw [hho ρ0 hinvariant]
      exact ⟨hinvariant, hc, fun _ => ⟨rfl, operation.sameValue_refl ρ0⟩⟩
    · apply hb ρ
      rw [hho ρ hρ]
      exact ⟨hρ, hr, fun hpin' => absurd hpin' hpin⟩
  · intro hsafe ρ hhd
    have hρ : HoldAt ρ s.constraints := fun k hk => hhd k (ha.subset hk)
    rw [hho ρ hρ] at hhd
    by_contra hout
    apply hsafe
    refine ⟨ρ, hρ, hhd.2.1, fun hpin ρ' hρ' => ?_, hout⟩
    rw [hconcolics] at hρ'
    cases hρ'
    exact (hp ρ hρ).1 (hhd.2.2 hpin).1

open BitfieldSimplifier
def sampleObject (address size : Nat) : BoundObject :=
  ⟨⟨0, address, size, false, false, false⟩, false⟩

def byteAddress : Expr := .zext dataByte 64

def byteOffset : Expr := .arithmetic .add (.constant 64 0x1000) byteAddress

theorem byteAddress_inBounds :
    ∃ found x', fresh.executeMemoryOperation APInt.llvm 6 true 64 0 [sampleObject 0 16] (.load 8)
        byteAddress (.knowing true fun _ _ => 0) .none = .ok (some found, x') ∧
      ∀ ρ, x'.Admits ρ (some 0) →
        found.object.memoryObject.InBounds (byteAddress.eval ρ) (getMinBytesForWidth 8) := by
  have hr : (fresh.executeMemoryOperation APInt.llvm 6 true 64 0 [sampleObject 0 16] (.load 8)
      byteAddress (.knowing true fun _ _ => 0) .none).toOption.map
        (fun r => (r.1.isSome, decide r.2.IsClean)) = some (true, true) := by decide +kernel
  obtain ⟨⟨found, x'⟩, h, hx'⟩ := ok_of_toOption_map hr
  obtain ⟨hso, hcl⟩ := Prod.ext_iff.1 hx'
  obtain ⟨found, rfl⟩ := isSome_iff_exists.1 hso
  refine ⟨found, x', h, ?_⟩
  have hi : HoldAt (fun _ _ => 0) [] := nofun
  have hobjects : ∀ o ∈ [sampleObject 0 16],
      o.memoryObject.address + o.memoryObject.size < 2 ^ 64 := by simp [sampleObject]
  have htype : 0 < (MemoryOperation.load 8).width := Nat.zero_lt_succ 7
  have haddress (G : Set Assignment) : byteAddress.SteadyIn G :=
    ⟨by decide, fun ρ _ => dataByte_steady ρ⟩
  apply (executeMemoryOperation_inBounds_iff APInt.llvm_signed (Solver.knowing_sound _ _) rfl rfl
    hi hobjects rfl htype (haddress _) trivial (fun ρ _ => sound_init ρ) h
    (of_decide_eq_true hcl)).2
  rintro ⟨ρ, _, hn, _, ho⟩
  have hc := hn ⟨nofun, nofun⟩
  exact ho ⟨hc.1, hc.2⟩

theorem overrun_of_run (ρ : Assignment)
    (hr : (fresh.executeMemoryOperation APInt.llvm 6 true 64 0 objects operation address
      (.knowing true fun _ _ => 0) .none).toOption.map (fun r =>
        (r.1.map fun found => decide (found.object.memoryObject.InBounds (address.eval ρ) bytes),
          r.2.states[0]?.map fun s => decide (∀ k ∈ s.constraints, k.eval ρ = 1))) =
      some (some false, some true)) :
    ∃ found x', fresh.executeMemoryOperation APInt.llvm 6 true 64 0 objects operation address
        (.knowing true fun _ _ => 0) .none = .ok (some found, x') ∧ x'.Admits ρ (some 0) ∧
      ¬found.object.memoryObject.InBounds (address.eval ρ) bytes := by
  obtain ⟨⟨found, x'⟩, h, hx'⟩ := ok_of_toOption_map hr
  obtain ⟨hf, hst⟩ := Prod.ext_iff.1 hx'
  obtain ⟨found, rfl, ho⟩ := map_eq_some_iff.1 hf
  obtain ⟨s, hs, hhd⟩ := map_eq_some_iff.1 hst
  rw [decide_eq_true_eq] at hhd
  exact ⟨found, x', h, ⟨0, s, rfl, hs, hhd⟩, of_decide_eq_false ho⟩

/-- A byte is read outside of an object of 16 bytes. -/
theorem byteOffset_out_of_bounds :
    (∃ found x', fresh.executeMemoryOperation APInt.llvm 6 true 64 0 [sampleObject 0x1000 16]
        (.load 8) byteOffset (.knowing true fun _ _ => 0) .none = .ok (some found, x') ∧
      x'.Admits (fun _ _ => 200) (some 0) ∧
      ¬found.object.memoryObject.InBounds (byteOffset.eval fun _ _ => 200) 1) ∧
    ∃ found x', fresh.executeMemoryOperation APInt.llvm 6 true 64 0 [sampleObject 0 16]
        (.load 16) byteAddress (.knowing true fun _ _ => 0) .none = .ok (some found, x') ∧
      x'.Admits (fun _ _ => 15) (some 0) ∧
      ¬found.object.memoryObject.InBounds (byteAddress.eval fun _ _ => 15) 2 :=
  ⟨overrun_of_run _ (by decide +kernel), overrun_of_run _ (by decide +kernel)⟩

end Executor
end Chef
