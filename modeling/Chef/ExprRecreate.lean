import Chef.ExprArithmetic
import Chef.SteadyExpr

namespace Chef
open BitVec Chef.Expr UpdateNode APInt Inherits
section
variable {P : Expr → Prop} {V D : Prop} {ρ : Assignment} [InheritsStrictly ρ P] {c t f : Expr}
  {w : Nat} {x : BitVec 1} {y z : BitVec w}

theorem Expr.MeansIn.selectNode (hc : c.MeansIn P V D ρ x) (ht : t.MeansIn P V D ρ y)
    (hf : f.MeansIn P V D ρ z) : (select c t f).MeansIn P V D ρ (if x = 1#1 then y else z) := by
  have ho (hv : V) : c.eval ρ = 1 ↔ x = 1#1 := by
    rw [hc.eval_eq hv, ← toNat_inj]
    rfl
  refine ⟨⟨hc.wellTyped, ht.wellTyped, hf.wellTyped, hc.width_eq,
    ht.width_eq.trans hf.width_eq.symm⟩, ?_, fun hv => ?_, fun hd => ?_⟩
  · rw [width, ht.width_eq]
  · rw [eval]
    by_cases h : x = 1#1
    · rw [if_pos h, if_pos ((ho hv).2 h), ht.eval_eq hv]
    · rw [if_neg h, if_neg (mt (ho hv).1 h), hf.eval_eq hv]
  · exact (InheritsStrictly.select ρ).2 ⟨hc.defined hd, ht.defined hd, hf.defined hd⟩

theorem Expr.MeansIn.select_inv (h : (select c t f).MeansIn P V D ρ y) :
    ∃ (x : BitVec 1) (y1 y2 : BitVec w), c.MeansIn P V D ρ x ∧ t.MeansIn P V D ρ y1 ∧
      f.MeansIn P V D ρ y2 ∧ (V → y = if x = 1#1 then y1 else y2) := by
  obtain ⟨hc, ht, hf, hcw, htf⟩ := h.wellTyped
  have hw : t.width = w := by rw [← h.width_eq, width]
  subst hw
  have ho (hd : D) : P c ∧ P t ∧ P f := (InheritsStrictly.select ρ).1 (h.defined hd)
  have hc' := means_self V ρ hc fun hd => (ho hd).1
  have ht' := means_self V ρ ht fun hd => (ho hd).2.1
  have hf' := means_self V ρ hf fun hd => (ho hd).2.2
  rw [hcw] at hc'
  rw [← htf] at hf'
  exact ⟨_, _, _, hc', ht', hf', fun hv => h.unique (hc'.selectNode ht' hf') hv⟩

theorem if_or (x y z : BitVec 1) (hy : y = 1#1) : (x ||| z) = if x = 1#1 then y else z := by
  subst hy
  revert x z
  decide

theorem if_and_not (x y z : BitVec 1) (hy : y = 0#1) : ~~~x &&& z = if x = 1#1 then y else z := by
  subst hy
  revert x z
  decide

theorem if_or_not (x y z : BitVec 1) (hz : z = 1#1) : ~~~x ||| y = if x = 1#1 then y else z := by
  subst hz
  revert x y
  decide

theorem if_and (x y z : BitVec 1) (hz : z = 0#1) : x &&& y = if x = 1#1 then y else z := by
  subst hz
  revert x y
  decide

theorem SelectExpr.make_means (hc : c.MeansIn P V D ρ x) (ht : t.MeansIn P V D ρ y)
    (hf : f.MeansIn P V D ρ z) :
    (SelectExpr.make c t f).MeansIn P V D ρ (if x = 1#1 then y else z) := by
  rw [SelectExpr.make.eq_def]
  split
  next hw =>
    have hw := ht.width_eq.symm.trans hw
    subst hw
    split
    next u v =>
      obtain rfl : u = 1 := ht.width_eq
      split
      next ho =>
        apply (OrExpr.create_means hc hf).congr
        intro hv
        exact if_or x y z (ht.allOnes hv ho)
      next ho =>
        apply (AndExpr.create_means (createIsZero_bool hc) hf).congr
        intro hv
        exact if_and_not x y z (ht.zero hv (by omega))
    next u v _ =>
      obtain rfl : u = 1 := hf.width_eq
      split
      next ho =>
        apply (OrExpr.create_means (createIsZero_bool hc) ht).congr
        intro hv
        exact if_or_not x y z (hf.allOnes hv ho)
      next ho =>
        apply (AndExpr.create_means hc ht).congr
        intro hv
        exact if_and x y z (hf.zero hv (by omega))
    · exact hc.selectNode ht hf
  · exact hc.selectNode ht hf

theorem bool_and (x y : BitVec 1) : x &&& y = 1#1 ↔ x = 1#1 ∧ y = 1#1 := by
  revert x y
  decide

theorem bool_or (x y : BitVec 1) : x ||| y = 1#1 ↔ x = 1#1 ∨ y = 1#1 := by
  revert x y
  decide

theorem bool_not (x : BitVec 1) : ~~~x = 1#1 ↔ x ≠ 1#1 := by
  revert x
  decide

theorem SelectExpr.create_means {w : Nat} {c t f : Expr} {x : BitVec 1} {y z : BitVec w}
    (hc : c.MeansIn P V D ρ x) (ht : t.MeansIn P V D ρ y) (hf : f.MeansIn P V D ρ z) :
    (SelectExpr.create c t f).MeansIn P V D ρ (if x = 1#1 then y else z) := by
  rw [SelectExpr.create.eq_def]
  split
  next u v =>
    obtain rfl : u = 1 := hc.width_eq
    split
    next ho =>
      apply ht.congr
      intro hv
      exact (if_pos (hc.allOnes hv ho)).symm
    next ho =>
      apply hf.congr
      intro hv
      rw [if_neg (by rw [hc.zero hv (by omega)]; decide)]
  · split
    next htf =>
      subst htf
      apply ht.congr
      intro hv
      rw [ht.unique hf hv, ite_self]
    · split
      next c' t' f' _ =>
        obtain ⟨x', y', z', hc', ht', hf', hy⟩ := ht.select_inv
        split
        next hff =>
          subst hff
          apply (SelectExpr.create_means (AndExpr.create_means hc hc') ht' hf).congr
          intro hv
          rw [hy hv, hf'.unique hf hv]
          grind [bool_and x x']
        · split
          next _ hft =>
            subst hft
            apply (SelectExpr.create_means (AndExpr.create_means hc (NotExpr.create_means hc'))
              hf' hf).congr
            intro hv
            rw [hy hv, ht'.unique hf hv]
            grind [bool_and x (~~~x'), bool_not x']
          · exact hc.selectNode ht hf
      next c' t' f' _ _ =>
        obtain ⟨x', y', z', hc', ht', hf', hz⟩ := hf.select_inv
        split
        next htt =>
          subst htt
          apply (SelectExpr.create_means (OrExpr.create_means hc hc') ht hf').congr
          intro hv
          rw [hz hv, ht'.unique ht hv]
          grind [bool_or x x']
        · split
          next _ htf =>
            subst htf
            apply (SelectExpr.create_means (OrExpr.create_means hc (NotExpr.create_means hc'))
              ht ht').congr
            intro hv
            rw [hz hv, hf'.unique ht hv]
            grind [bool_or x (~~~x'), bool_not x']
          · exact hc.selectNode ht hf
      · exact SelectExpr.make_means hc ht hf
termination_by sizeOf t + sizeOf f

end

section
variable {P : Expr → Prop} {V D : Prop} {ρ : Assignment} [Inherits ρ P] {e index : Expr}
  {i : BitVec 32}

omit [Inherits ρ P] in
theorem UpdateNode.valueAt_value (h : e.WellTyped) (hw : e.width = 8) :
    (UInt8.ofNat (e.eval ρ)).toNat = e.eval ρ := by
  have hlt := eval_lt ρ e h
  rw [hw] at hlt
  rw [UInt8.toNat_ofNat', Nat.mod_eq_of_lt hlt]

theorem EqExpr.create_constant (hl : l.MeansIn P V D ρ x) (hr :
    r.MeansIn P V D ρ y) (hVD : V → D) (h : EqExpr.create l r = .constant u v) (hv : V) : v % 2 =
    1 ↔ x = y := by
  have heq := EqExpr.create_means hl hr fun _ => hVD
  rw [h] at heq
  obtain rfl : u = 1 := heq.width_eq
  have hval := congrArg BitVec.toNat (heq.constant_eq hv).2
  by_cases hxy : x = y
  · rw [beq_iff_eq.2 hxy] at hval
    exact ⟨fun _ => hxy, fun _ => hval⟩
  · rw [beq_eq_false_iff_ne.2 hxy] at hval
    exact ⟨fun ho => absurd (ho.symm.trans hval) Nat.one_ne_zero, fun h => absurd h hxy⟩

theorem ReadExpr.rollback_means (hi : index.MeansIn P V D ρ i) (hVD : V → D)
    (head : UpdateNode) (hhd : head.WellTyped) (hf : D → head.All P)
    (h : ReadExpr.rollback index head = some e) (root : KArray) :
    e.WellTyped ∧ e.width = 8 ∧ (D → P e) ∧
      (V → e.eval ρ = (head.valueAt ρ root i.toNat).toNat) := by
  fun_induction ReadExpr.rollback index head with
  | case1 => cases h
  | case2 j value next u v heq ho =>
    cases h
    obtain ⟨hj, hjw, hl, hvw, hn⟩ := hhd
    refine ⟨hl, hvw, fun hd => (hf hd).2.1, fun hv => ?_⟩
    have hj' := means_self V ρ hj fun hd => (hf hd).1
    rw [hjw] at hj'
    have hij := (EqExpr.create_constant hi hj' hVD heq hv).1 ho
    have hji : j.eval ρ = i.toNat := (hj'.eval_eq hv).trans (congrArg BitVec.toNat hij).symm
    rw [valueAt, if_pos hji, valueAt_value hl hvw]
  | case3 j value next u v heq ho ih =>
    obtain ⟨hj, hjw, hl, hvw, hn⟩ := hhd
    obtain ⟨he, hew, hed, hev⟩ := ih hn (fun hd => (hf hd).2.2) h
    refine ⟨he, hew, hed, fun hv => ?_⟩
    have hj' := means_self V ρ hj fun hd => (hf hd).1
    rw [hjw] at hj'
    have hij := mt (EqExpr.create_constant hi hj' hVD heq hv).2 ho
    have hji : ¬j.eval ρ = i.toNat := by
      rw [hj'.eval_eq hv, toNat_inj]
      exact fun h => hij h.symm
    rw [valueAt, if_neg hji, hev hv]
  | case4 => cases h

theorem ReadExpr.createAt_means (root : KArray) (hi : index.MeansIn P V D ρ i) (hVD : V → D)
    (hhd : head.WellTyped) (hf : D → P (.read root head index)) :
    ((ReadExpr.rollback index head).getD (.read root head index)).MeansIn P V D ρ
      (head.valueAt ρ root i.toNat).toBitVec := by
  cases h : ReadExpr.rollback index head with
  | none =>
    refine ⟨⟨hhd, hi.wellTyped, hi.width_eq⟩, rfl, fun hv => ?_, hf⟩
    rw [Option.getD_none, eval, hi.eval_eq hv, UInt8.toNat_toBitVec]
  | some value =>
    obtain ⟨he, hew, hed, hev⟩ := ReadExpr.rollback_means hi hVD head hhd
      (fun hd => updates ρ (hf hd)) h root
    refine ⟨he, hew, fun hv => ?_, hed⟩
    rw [Option.getD_some, hev hv, UInt8.toNat_toBitVec]

omit [Inherits ρ P] in
theorem ReadExpr.createPlain_means (root : KArray) (head : UpdateNode) (index : Expr)
    (hhd : head.WellTyped) (hi : index.WellTyped) (hw : index.width = 32) :
    ((ReadExpr.rollback index head).getD (.read root head index)).Means
      ((read root head index).Defined ρ) False ρ (head.valueAt ρ root (index.eval ρ)).toBitVec := by
  have hie := means_self (D := (read root head index).Defined ρ)
    ((read root head index).Defined ρ) ρ hi And.left
  rw [hw] at hie
  apply ((ReadExpr.createAt_means root hie id hhd id).weaken nofun).congr
  intro hd
  rw [← hie.eval_eq hd]

omit [Inherits ρ P] in
theorem ReadExpr.create_means (root : KArray) (head : UpdateNode) (index : Expr)
    (hhd : head.WellTyped) (hi : index.WellTyped) (hw : index.width = 32) :
    (ReadExpr.create root head index).Means ((read root head index).Defined ρ) False ρ
      (head.valueAt ρ root (index.eval ρ)).toBitVec := by
  fun_induction ReadExpr.create root head index with
  | case1 c t f hca iht ihf =>
    obtain ⟨hc, ht, hf, hcw, htf⟩ := hi
    have htw : t.width = 32 := by rw [← hw, width]
    have iht := iht ht htw
    have ihf := ihf hf (htf.symm.trans htw)
    have hc' := means_self (P := Steady ρ) (D := False) True ρ hc False.elim
    have ht' := means_self (P := Steady ρ) (D := False) True ρ iht.wellTyped False.elim
    have hf' := means_self (P := Steady ρ) (D := False) True ρ ihf.wellTyped False.elim
    rw [hcw] at hc'
    rw [iht.width_eq] at ht'
    rw [ihf.width_eq] at hf'
    have hs := SelectExpr.create_means hc' ht' hf'
    refine ⟨hs.wellTyped, hs.width_eq, fun hd => ?_, False.elim⟩
    have hn := hc'.selectNode ht' hf'
    rw [hs.eval_eq trivial, ← hn.eval_eq trivial, eval, eval]
    obtain ⟨⟨_, hbr⟩, hh, hin⟩ := hd
    rw [eval] at hin
    split_ifs at hbr hin ⊢
    · exact iht.eval_eq ⟨hbr, hh, hin⟩
    · exact ihf.eval_eq ⟨hbr, hh, hin⟩
  | case2 c t f _ | case3 index _ => exact ReadExpr.createPlain_means root head _ hhd hi hw

end

def Expr.OperandsTyped : Expr → Prop
  | .zext src _ => src.WellTyped
  | .sext src _ => src.WellTyped
  | e => e.WellTyped

/-- Zero is left when all bits are shifted out. -/
structure APInt.Lawful (A : APInt) : Prop where
  shifted : ∀ {w : Nat} (x y : BitVec w), y.toNat < w → A.ashr x y = x.sshiftRight' y
  overshifted : ∀ {w : Nat} (x y : BitVec w), w ≤ 64 → w ≤ y.toNat → A.ashr x y = 0#w

/-- A negative constant is shifted by at least its width. -/
def Expr.overshiftsNegative : Expr → Bool
  | .arithmetic .ashr (.constant u v) (.constant u' v') =>
    (BitVec.ofNat u v).msb && decide (u ≤ v' % 2 ^ u')
  | _ => false

theorem sshiftRight'_overshift (x y : BitVec w) (h : w ≤ y.toNat) :
    x.sshiftRight' y = if x.msb then allOnes w else 0#w := by
  apply eq_of_getLsbD_eq
  intro i hi
  have hi' : ¬y.toNat + i < w := by omega
  have hle : ¬w ≤ i := by omega
  rw [sshiftRight', getLsbD_sshiftRight]
  cases hm : x.msb with
  | true => simp [hi, hi', hle]
  | false => simp [hi', hle]

theorem APInt.Lawful.arithmetic_iff {A : APInt} (hA : A.Lawful) (kind : ArithmeticKind)
    (x y : BitVec w) (hw : w ≤ 64) :
    A.arithmetic kind x y = kind.apply x y ↔ ¬(kind = .ashr ∧ x.msb = true ∧ w ≤ y.toNat) := by
  by_cases hk : kind = .ashr
  · subst hk
    rw [arithmetic, ArithmeticKind.apply]
    by_cases hy : w ≤ y.toNat
    · rw [hA.overshifted x y hw hy, sshiftRight'_overshift x y hy]
      cases hm : x.msb with
      | false => simp
      | true =>
        have hp : 0 < w := by
          rw [Nat.pos_iff_ne_zero]
          rintro rfl
          cases hm
        have hne : ¬0#w = allOnes w := by
          intro h
          have hb := congrArg (getLsbD · 0) h
          simp [hp] at hb
        simp [hne, hy]
    · rw [hA.shifted x y (by omega)]
      simp [hy]
  · have ha : A.arithmetic kind x y = kind.apply x y := by
      rw [arithmetic.eq_def]
      split
      · exact absurd rfl hk
      · rfl
    simp [ha, hk]

variable {A : APInt} {e l r : Expr}
theorem recreate_arithmetic (hA : A.Lawful) (h : (arithmetic kind l r).WellTyped)
    (hw : l.width ≤ 64) (hsh : (arithmetic kind l r).overshiftsNegative = false) :
    ∃ x : BitVec l.width,
      (ArithmeticExpr.create A kind l r).Means ((arithmetic kind l r).Defined ρ) False ρ x ∧
        (arithmetic kind l r).eval ρ = x.toNat := by
  obtain ⟨hl, hr, hlr⟩ := h
  let V := (arithmetic kind l r).Defined ρ
  have hl' := means_self (D := V) V ρ hl And.left
  have hr' := means_self (D := V) V ρ hr fun hd => hd.2.1
  rw [← hlr] at hr'
  refine ⟨_, (ArithmeticExpr.create_means A kind hl' hr' ?_ (fun _ => id) ?_).weaken nofun,
    by rw [eval]⟩
  · intro hk hd hz
    apply hd.2.2 hk
    rw [hz, Nat.zero_mod]
  intro hlc hrc hd
  rw [hA.arithmetic_iff kind _ _ hw]
  rintro ⟨rfl, hm, hle⟩
  cases l with
  | constant u v =>
    cases r with
    | constant u' v' =>
      obtain rfl : u = u' := hlr
      rw [(hl'.constant_eq hd).2.symm] at hm
      rw [(hr'.constant_eq hd).2.symm, toNat_ofNat] at hle
      have hov : (BitVec.ofNat u v).msb && decide (u ≤ v' % 2 ^ u) := by
        rw [Bool.and_eq_true_iff, decide_eq_true_iff]
        exact ⟨hm, hle⟩
      exact absurd hov (Bool.not_eq_true _ ▸ hsh)
    | _ => cases hrc
  | _ => cases hlc

theorem recreate_compare (h : (compare kind l r).WellTyped) : ∃ x : BitVec 1,
      (CompareExpr.create kind l r).Means ((compare kind l r).Defined ρ) False ρ x ∧
        (compare kind l r).eval ρ = x.toNat := by
  obtain ⟨hl, hr, hlr⟩ := h
  let V := (compare kind l r).Defined ρ
  have hl' := means_self (D := V) V ρ hl And.left
  have hr' := means_self (D := V) V ρ hr And.right
  rw [← hlr] at hr'
  refine ⟨_, (CompareExpr.create_means kind hl' hr' fun _ => id).weaken nofun, ?_⟩
  rw [eval, toNat_ofBool]

def Expr.isStructural : Expr → Bool
  | .read _ _ _ => false
  | .select _ _ _ => false
  | .arithmetic _ _ _ => false
  | .compare _ _ _ => false
  | _ => true

theorem recreate_structural [Inherits ρ P] (A : APInt) (h : e.OperandsTyped)
    (hk : e.isStructural = true) (hP : D → P e) :
    ∃ x : BitVec e.width, (e.recreate A).MeansIn P True D ρ x ∧ e.eval ρ = x.toNat := by
  cases e with
  | constant w v | notOptimized src =>
    have hse := means_self True ρ h hP
    exact ⟨_, hse, hse.eval_eq trivial⟩
  | concat l r =>
    have hl := means_self True ρ h.1 fun hd => ((concat ρ).1 (hP hd)).1
    have hr := means_self True ρ h.2 fun hd => ((concat ρ).1 (hP hd)).2
    exact ⟨_, ConcatExpr.create_means hl hr, (hl.concat hr).eval_eq trivial⟩
  | extract e offset w =>
    have he := means_self True ρ h.1 fun hd => (extract ρ).1 (hP hd)
    exact ⟨_, ExtractExpr.create_means.bits offset w he h.2, (he.extract h.2).eval_eq trivial⟩
  | zext src w =>
    have hs := means_self (e := src) True ρ h fun hd => (zext ρ).1 (hP hd)
    have hv : (zext src w).eval ρ = ((BitVec.ofNat src.width (src.eval ρ)).setWidth w).toNat := by
      rw [eval, toNat_setWidth, ← hs.eval_eq trivial]
    exact ⟨_, ZExtExpr.create_means hs w, hv⟩
  | sext src w =>
    have hs := means_self (e := src) True ρ h fun hd => (sext ρ).1 (hP hd)
    have hv : (sext src w).eval ρ =
        ((BitVec.ofNat src.width (src.eval ρ)).signExtend w).toNat := by rw [eval]
    exact ⟨_, SExtExpr.create_means hs w, hv⟩
  | not e =>
    have he := means_self (e := e) True ρ h fun hd => (not ρ).1 (hP hd)
    exact ⟨_, NotExpr.create_means he, he.not.eval_eq trivial⟩
  | read _ _ _ | select _ _ _ | arithmetic _ _ _ | compare _ _ _ => cases hk

theorem recreate_select [InheritsStrictly ρ P]
    (h : (select c t f).WellTyped) (hP : D → P (.select c t f)) :
    ∃ x : BitVec t.width, (SelectExpr.create c t f).MeansIn P True D ρ x ∧
      (select c t f).eval ρ = x.toNat := by
  obtain ⟨x, y, z, hc, ht, hf, _⟩ := (means_self True ρ h hP).select_inv
  exact ⟨_, SelectExpr.create_means hc ht hf, (hc.selectNode ht hf).eval_eq trivial⟩

/-- Constructors return the value of their operator. -/
theorem recreate_means (hA : A.Lawful) (h : e.OperandsTyped) (hw : ∀ o ∈ e.operands, o.width ≤ 64)
    (hsh : e.overshiftsNegative = false) (ρ : Assignment) :
    ∃ x : BitVec e.width, (e.recreate A).Means (e.Defined ρ) False ρ x ∧ e.eval ρ = x.toNat := by
  cases hk : e.isStructural with
  | true =>
    obtain ⟨x, hx, he⟩ := recreate_structural (ρ := ρ) (D := False) (P := Defined ρ) A h hk nofun
    exact ⟨x, hx.imp fun _ => trivial, he⟩
  | false =>
    cases e with
    | read root head index =>
      obtain ⟨hhd, hi, hiw⟩ := h
      have he : (read root head index).eval ρ =
          (head.valueAt ρ root (index.eval ρ)).toBitVec.toNat := by rw [eval, UInt8.toNat_toBitVec]
      exact ⟨_, ReadExpr.create_means root head index hhd hi hiw, he⟩
    | select c t f =>
      obtain ⟨x, hx, he⟩ := recreate_select (ρ := ρ) (D := False) (P := Steady ρ) h nofun
      exact ⟨x, hx.forget.imp fun _ => trivial, he⟩
    | arithmetic kind l r => exact recreate_arithmetic hA h (hw l List.mem_cons_self) hsh
    | compare kind l r => exact recreate_compare h
    | _ => cases hk

theorem recreate_overshift (hA : A.Lawful) (hw : ∀ o ∈ e.operands, o.width ≤ 64)
    (h : e.OperandsTyped) (hsh : e.overshiftsNegative = true) (ρ : Assignment) :
    e.Defined ρ ∧ (e.recreate A).eval ρ ≠ e.eval ρ := by
  rw [overshiftsNegative.eq_def] at hsh
  split at hsh
  next u v u' v' =>
    obtain ⟨hm, hle⟩ := Bool.and_eq_true_iff.1 hsh
    obtain ⟨hv, hv', rfl⟩ : v < 2 ^ u ∧ v' < 2 ^ u' ∧ u = u' := h
    refine ⟨⟨trivial, trivial, nofun⟩, fun heq => ?_⟩
    have hA' := (hA.arithmetic_iff .ashr (BitVec.ofNat u v) (BitVec.ofNat u v')
      (hw (.constant u v) List.mem_cons_self)).1
    rw [recreate, ArithmeticExpr.create, AShrExpr.create, BinaryExpr.createWith, eval,
      width, eval, eval, ofBits, eval, Nat.mod_eq_of_lt (isLt _),
      toNat_inj, Nat.mod_eq_of_lt hv, Nat.mod_eq_of_lt hv'] at heq
    apply hA' heq
    refine ⟨rfl, hm, ?_⟩
    exact decide_eq_true_iff.1 hle
  · cases hsh

theorem recreate_eval_iff (hA : A.Lawful) (h : e.OperandsTyped)
    (hw : ∀ o ∈ e.operands, o.width ≤ 64) :
    (∀ ρ, e.Defined ρ → (e.recreate A).eval ρ = e.eval ρ) ↔ e.overshiftsNegative = false := by
  refine ⟨fun ha => ?_, fun hsh ρ hd => ?_⟩
  · rw [← Bool.not_eq_true]
    intro hsh
    obtain ⟨hd, hne⟩ := recreate_overshift hA hw h hsh fun _ _ => 0
    exact hne (ha _ hd)
  · obtain ⟨x, hm, hx⟩ := recreate_means hA h hw hsh ρ
    rw [hm.eval_eq hd, hx]

/-- The arithmetic right shift of the release in use. -/
def APInt.llvm : APInt where
  ashr {w} x y := if w ≤ 64 ∧ w ≤ y.toNat then 0#w else x.sshiftRight' y

theorem APInt.llvm_lawful : llvm.Lawful := by
  refine ⟨fun {w} x y hy => if_neg ?_, fun {w} x y hw hy => if_pos ⟨hw, hy⟩⟩
  rintro ⟨_, hle⟩
  omega

def shiftedByte (kind : ArithmeticKind) (amount : Nat) : Expr :=
  .arithmetic kind (.sext (.read ⟨0, 4, []⟩ .null (.constant 32 1)) 32) (.constant 32 amount)

theorem shiftedByte_typed : (shiftedByte .ashr 40).OperandsTyped :=
  (by decide : (shiftedByte .ashr 40).WellTyped)

theorem recreate_shiftedByte : (shiftedByte .ashr 40).OperandsTyped ∧
      ∀ ρ, (shiftedByte .ashr 40).Defined ρ →
        ((shiftedByte .ashr 40).recreate llvm).eval ρ = (shiftedByte .ashr 40).eval ρ := by
  refine ⟨shiftedByte_typed, (recreate_eval_iff llvm_lawful shiftedByte_typed ?_).2 rfl⟩
  decide

def negativeOvershift : Expr := .arithmetic .ashr (.constant 8 0x80) (.constant 8 8)

theorem recreate_negativeOvershift :
    negativeOvershift.OperandsTyped ∧ negativeOvershift.Defined (fun _ _ => 0) ∧
      (negativeOvershift.recreate llvm).eval (fun _ _ => 0) = 0 ∧
      negativeOvershift.eval (fun _ _ => 0) = 0xff := by
  have hmd : negativeOvershift.recreate llvm = .constant 8 0 := by decide
  refine ⟨(by decide : negativeOvershift.WellTyped), ⟨trivial, trivial, nofun⟩, ?_, ?_⟩
  · rw [hmd, eval, Nat.zero_mod]
  · rw [negativeOvershift, eval, width, eval, eval]
    decide

end Chef
