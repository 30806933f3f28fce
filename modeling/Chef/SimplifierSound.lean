import Chef.SimplifierBits
import Chef.Foundations.AssocList
import Chef.Foundations.Transition

namespace Chef
open Foundations List BitVec Bool Chef.Expr Prod
section
variable {ρ : Assignment} {A : APInt} {e : Expr} {left : List Expr}
structure OperandFor (ρ : Assignment) (kid left : Expr) : Prop where
  wellTyped : left.WellTyped
  width_eq : left.width = kid.width
  steady : left.Steady ρ
  selectFree : kid.selectFree = true → left.selectFree = true

def Expr.usesAll : Expr → Bool
  | .read _ _ _ => true
  | .notOptimized _ => true
  | .arithmetic kind _ _ => !kind.isTotal
  | _ => false

theorem withOperands_typed (h : e.WellTyped)
    (hleft : Forall₂ (fun kid l => l.WellTyped ∧ l.width = kid.width) e.operands left) :
    (e.withOperands left).WellTyped ∧ (e.withOperands left).width = e.width := by
  cases e with
  | constant w v => exact ⟨h, rfl⟩
  | select c t f =>
    obtain _ | ⟨hc, _ | ⟨ht, _ | ⟨hf, ⟨⟩⟩⟩⟩ := hleft
    refine ⟨⟨hc.1, ht.1, hf.1, hc.2.trans h.2.2.2.1, ?_⟩, ?_⟩
    · rw [ht.2, hf.2]
      exact h.2.2.2.2
    · rw [withOperands, width, width, ht.2]
  | concat l r =>
    obtain _ | ⟨hl, _ | ⟨hr, ⟨⟩⟩⟩ := hleft
    refine ⟨⟨hl.1, hr.1⟩, ?_⟩
    rw [withOperands, width, width, hl.2, hr.2]
  | arithmetic kind l r | compare kind l r =>
    obtain _ | ⟨hl, _ | ⟨hr, ⟨⟩⟩⟩ := hleft
    refine ⟨⟨hl.1, hr.1, ?_⟩, ?_⟩
    · rw [hl.2, hr.2]
      exact h.2.2
    · first
      | rfl
      | rw [withOperands, width, width, hl.2]
  | notOptimized src | not e =>
    obtain _ | ⟨hk, ⟨⟩⟩ := hleft
    refine ⟨hk.1, ?_⟩
    rw [withOperands, width, width, hk.2]
  | read root head index =>
    obtain _ | ⟨hk, ⟨⟩⟩ := hleft
    exact ⟨⟨h.1, hk.1, hk.2.trans h.2.2⟩, rfl⟩
  | extract e offset w | zext src w | sext src w =>
    obtain _ | ⟨hk, ⟨⟩⟩ := hleft
    exact ⟨⟨hk.1, hk.2 ▸ h.2⟩, rfl⟩

theorem withOperands_steady (hs : e.Steady ρ) (hleft : Forall₂ (OperandFor ρ) e.operands left)
    (hm : e.usesAll = true → Forall₂ (SameOperand ρ) e.operands left) :
    (e.withOperands left).Steady ρ := by
  cases e with
  | constant w v => exact hs
  | select c t f =>
    obtain _ | ⟨hc, _ | ⟨ht, _ | ⟨hf, ⟨⟩⟩⟩⟩ := hleft
    exact ⟨hc.steady, ht.steady, hf.steady⟩
  | concat l r | compare kind l r =>
    obtain _ | ⟨hl, _ | ⟨hr, ⟨⟩⟩⟩ := hleft
    exact ⟨hl.steady, hr.steady⟩
  | arithmetic kind l r =>
    obtain _ | ⟨hl, _ | ⟨hr, ⟨⟩⟩⟩ := hleft
    refine ⟨hl.steady, hr.steady, ?_⟩
    cases hta : kind.isTotal with
    | true => exact ArithmeticKind.folds_of_total hta _ _
    | false =>
      have hu : (arithmetic kind l r).usesAll = true := by rw [usesAll, hta, Bool.not_false]
      obtain _ | ⟨hl', _ | ⟨hr', ⟨⟩⟩⟩ := hm hu
      rw [hl'.eval_eq, hr'.eval_eq, hl.width_eq]
      exact hs.2.2
  | read root head index =>
    obtain _ | ⟨hk, ⟨⟩⟩ := hleft
    obtain _ | ⟨hk', ⟨⟩⟩ := hm rfl
    refine ⟨hk.steady, hs.2.1, fun hcst hn => ?_⟩
    obtain ⟨hfe, hin⟩ := hs.2.2 hcst hn
    rw [hk'.eval_eq]
    exact ⟨hk.selectFree hfe, hin⟩
  | _ =>
    obtain _ | ⟨hk, ⟨⟩⟩ := hleft
    exact hk.steady

theorem withOperands_selectFree (hf : e.selectFree = true)
    (hleft : Forall₂ (OperandFor ρ) e.operands left) : (e.withOperands left).selectFree = true := by
  cases e with
  | constant w v => exact hf
  | select c t f => cases hf
  | concat l r | arithmetic kind l r | compare kind l r =>
    obtain _ | ⟨hl, _ | ⟨hr, ⟨⟩⟩⟩ := hleft
    obtain ⟨hfl, hfr⟩ := and_eq_true_iff.1 hf
    exact and_eq_true_iff.2 ⟨hl.selectFree hfl, hr.selectFree hfr⟩
  | read root head index =>
    obtain _ | ⟨hk, ⟨⟩⟩ := hleft
    obtain ⟨hfh, hfi⟩ := and_eq_true_iff.1 hf
    exact and_eq_true_iff.2 ⟨hfh, hk.selectFree hfi⟩
  | _ =>
    obtain _ | ⟨hk, ⟨⟩⟩ := hleft
    exact hk.selectFree hf

theorem selects_of_selectFree (h : e.selectFree = true) : e.selects = false := by
  cases e with
  | select c t f => cases h
  | read root head index =>
    cases index with
    | select c t f =>
      rw [selectFree, selectFree, Bool.and_false] at h
      cases h
    | _ => rfl
  | _ => rfl

theorem operands_withOperands (hl : Forall₂ R e.operands left) :
    (e.withOperands left).operands = left := by
  cases e with
  | constant w v =>
    cases hl
    rfl
  | select c t f =>
    obtain _ | ⟨_, _ | ⟨_, _ | ⟨_, ⟨⟩⟩⟩⟩ := hl
    rfl
  | concat l r | arithmetic kind l r | compare kind l r =>
    obtain _ | ⟨_, _ | ⟨_, ⟨⟩⟩⟩ := hl
    rfl
  | _ =>
    obtain _ | ⟨_, ⟨⟩⟩ := hl
    rfl

theorem narrow_left (hl : Forall₂ (OperandFor ρ) kids left)
    (h : ∀ kid ∈ kids, kid.width ≤ 64) : ∀ o ∈ left, o.width ≤ 64 := by
  induction hl with
  | nil => exact nofun
  | cons hk _ ih =>
    rw [forall_mem_cons] at h ⊢
    exact ⟨hk.width_eq ▸ h.1, ih h.2⟩

theorem recreate_left (h : e.WellTyped) (hs : e.Steady ρ)
    (hfo : (e.withOperands left).Steady ρ → (e.withOperands left).FoldsBy A ρ)
    (hl : Forall₂ (OperandFor ρ) e.operands left)
    (hm : e.usesAll = true → Forall₂ (SameOperand ρ) e.operands left) :
    OperandFor ρ e ((e.withOperands left).recreate A) ∧
      ((e.withOperands left).recreate A).eval ρ = (e.withOperands left).eval ρ := by
  obtain ⟨hty, hw⟩ := withOperands_typed h (hl.imp fun _ _ h => ⟨h.wellTyped, h.width_eq⟩)
  have hstd := withOperands_steady hs hl hm
  have hstands := recreate_standsFor hty (hfo hstd) hstd hstd fun _ => inferInstance
  refine ⟨⟨hstands.wellTyped, hstands.width_eq.trans hw, hstands.inherits, fun hf => ?_⟩,
    hstands.eval_eq⟩
  have hfe := withOperands_selectFree hf hl
  have hstraight := recreate_standsFor (P := Straight ρ) hty (hfo hstd) hstd
    ⟨hstd, hfe⟩ fun hsel => by
      rw [selects_of_selectFree hfe] at hsel
      cases hsel
  exact hstraight.inherits.2

end

/-- It fits the masks, and ignores no bit unless it is remembered. -/
def BitsCall.IsClean (call : BitsCall) : Prop := call.expr.width ≤ 64 ∧
    (call.cached = true ∨ call.expr.operands.length ≤ 1 ∨
      call.ignoredBits &&& ~~~zeroMask call.expr.width = 0#64)

instance (call : BitsCall) : Decidable call.IsClean := inferInstanceAs (Decidable (_ ∧ (_ ∨ _ ∨ _)))

def BitsInfoCache.Sound (ρ : Assignment) (cache : BitsInfoCache) : Prop :=
  ∀ entry ∈ cache, entry.2.Holds (entry.1.eval ρ) ∧ entry.2.isCovered = false

structure Simplified.Right (ρ : Assignment) (e : Expr) (ignoredBits : BitVec 64)
    (r : Simplified) : Prop extends OperandFor ρ e r.expr where
  narrow : e.width ≤ 64
  agree : AgreeOutside ignoredBits (r.expr.eval ρ) (e.eval ρ)
  exact : r.expr.eval ρ = e.eval ρ ∨ r.expr.isConstant = true
  holds : r.bits.Holds (e.eval ρ)
  ignored : r.bits.ignoredBits = ignoredBits ∨ r.bits.isCovered = false
  cache : r.cache.Sound ρ

def VisitRight (ρ : Assignment) (visit : BitsInfoCache → Expr → BitVec 64 → Option Simplified) :
    Prop :=
  ∀ {cache e ignoredBits r}, visit cache e ignoredBits = some r → BitsInfoCache.Sound ρ cache →
    e.WellTyped → e.Steady ρ → (∀ call ∈ r.calls, call.IsClean) → r.Right ρ e ignoredBits

section
variable {ρ : Assignment} {cache : BitsInfoCache} {e : Expr} {bits : BitsInfo}
section
variable (h : cache.Sound ρ)
include h
theorem BitsInfoCache.Sound.erase (e : Expr) : (cache.erase e).Sound ρ :=
  fun _ hn => h _ (mem_of_mem_filter hn)

theorem BitsInfoCache.Sound.eraseAll (es : List Expr) :
    (es.foldl BitsInfoCache.erase cache).Sound ρ := by
  induction es generalizing cache with
  | nil => exact h
  | cons e es ih => exact ih (h.erase e)

theorem BitsInfoCache.Sound.insert (hho : bits.Holds (e.eval ρ))
    (hc : bits.isCovered = false) : (cache.insert e bits).Sound ρ := by
  rw [BitsInfoCache.insert]
  split
  · exact h
  · exact forall_mem_cons.2 ⟨⟨hho, hc⟩, h⟩

theorem BitsInfoCache.Sound.replaceWithConstant (e : Expr)
    (value : BitVec 64) : (replaceWithConstant cache e value).2.Sound ρ := by
  rw [Chef.replaceWithConstant]
  split
  · exact h
  · exact (h.eraseAll _).erase e

end

theorem BitsInfo.isCovered_iff (bits : BitsInfo) : bits.isCovered = true ↔
    ~~~(bits.knownOneBits ||| bits.knownZeroBits ||| bits.ignoredBits) = 0#64 := beq_iff_eq

theorem Expr.hasConstantValue_isConstant (h : e.hasConstantValue value = true) :
    e.isConstant = true := by
  cases e with
  | constant w v => rfl
  | _ => cases h

theorem replaceWithConstant_right (cache : BitsInfoCache) (h : e.WellTyped) (hw : e.width ≤ 64)
    (hs : e.Steady ρ) (hho : bits.HoldsUpTo (e.eval ρ)) (hc : bits.isCovered = true) :
    OperandFor ρ e (replaceWithConstant cache e bits.knownOneBits).1 ∧
      (replaceWithConstant cache e bits.knownOneBits).1.isConstant = true ∧
      AgreeOutside bits.ignoredBits
        ((replaceWithConstant cache e bits.knownOneBits).1.eval ρ) (e.eval ρ) := by
  rw [replaceWithConstant]
  split
  next hcst => exact ⟨⟨h, rfl, hs, id⟩, e.hasConstantValue_isConstant hcst, .refl _ _⟩
  · have hlt := e.eval_lt ρ h
    have hb (i : Nat) : (bits.knownOneBits &&& ~~~zeroMask e.width).toNat.testBit i =
        (bits.knownOneBits.getLsbD i && decide (i < e.width)) := by
      change getLsbD _ i = _
      rw [getLsbD_and, getLsbD_not, zeroMask_eq, getLsbD_highBits]
      grind
    have hv : (bits.knownOneBits &&& ~~~zeroMask e.width).toNat < 2 ^ e.width := by
      apply Nat.lt_pow_two_of_testBit
      intro i hi
      rw [hb i, decide_eq_false (Nat.not_lt.2 hi), Bool.and_false]
    refine ⟨⟨hv, rfl, trivial, fun _ => rfl⟩, rfl, ?_⟩
    rw [eval, Nat.mod_eq_of_lt hv]
    refine agreeOutside_ones (fun i hi => (hho i hi).1) (fun i hi => (hho i hi).2)
      (bits.isCovered_iff.1 hc) fun i _ hi => ?_
    rw [hb i]
    cases ho : bits.knownOneBits.getLsbD i with
    | false => rfl
    | true => exact decide_eq_true (lt_of_testBit hlt ((hho i hi).1 ho))

theorem BitsInfo.Holds.upTo (h : bits.Holds x) : bits.HoldsUpTo x := fun i _ => h i

end

variable {ρ : Assignment} {visit : BitsInfoCache → Expr → BitVec 64 → Option Simplified}
theorem Simplified.Right.found (h : Simplified.Right ρ kid 0#64 r) (hk : kid.WellTyped) :
    KidFound ρ kid (r.expr, r.bits) where
  wellTyped := h.wellTyped
  width_eq := h.width_eq
  narrow := h.narrow
  steady := h.steady
  selectFree := h.selectFree
  eval_eq := by
    have hlt := eval_lt ρ _ h.wellTyped
    rw [h.width_eq] at hlt
    exact h.agree.eq hlt (kid.eval_lt ρ hk) h.narrow fun _ _ => getLsbD_zero
  holds := h.holds
  ignored := h.ignored

section
variable (hvi : VisitRight ρ visit)
include hvi
theorem visitKids_right
    (h : visitKids visit cache kids = some (found, cache', calls)) (hca : cache.Sound ρ)
    (hty : ∀ kid ∈ kids, kid.WellTyped) (hs : ∀ kid ∈ kids, kid.Steady ρ)
    (hcl : ∀ call ∈ calls, call.IsClean) : Forall₂ (KidFound ρ) kids found ∧ cache'.Sound ρ := by
  induction kids generalizing cache found calls with
  | nil =>
    cases h
    exact ⟨.nil, hca⟩
  | cons kid kids ih =>
    rw [visitKids, bind_some_iff] at h
    obtain ⟨r, hr, h⟩ := h
    rw [bind_some_iff] at h
    obtain ⟨⟨rs, cache1, calls1⟩, hrs, h⟩ := h
    cases h
    rw [forall_mem_cons] at hty hs
    rw [forall_mem_append] at hcl
    have hrt := hvi hr hca hty.1 hs.1 hcl.1
    obtain ⟨hrest, hcc⟩ := ih hrs hrt.cache hty.2 hs.2 hcl.2
    exact ⟨.cons (hrt.found hty.1) hrest, hcc⟩

theorem reoptimizeKid_right
    (h : reoptimizeKid visit cache f bits = some (left, cache', calls)) (hca : cache.Sound ρ)
    (hfn : KidFound ρ kid f) (hbi : bits = f.2 ∨ bits.HoldsUpTo (f.1.eval ρ))
    (hcl : ∀ call ∈ calls, call.IsClean) : KidLeft ρ kid (f, bits) left ∧ cache'.Sound ρ := by
  have hnar : f.1.width ≤ 64 := hfn.width_eq ▸ hfn.narrow
  rw [reoptimizeKid] at h
  split at h
  next hc =>
    cases h
    have hho : bits.HoldsUpTo (f.1.eval ρ) := by
      obtain rfl | hbi := hbi
      · rw [hfn.eval_eq]
        exact hfn.holds.upTo
      · exact hbi
    obtain ⟨hl, hcst, ha⟩ := replaceWithConstant_right cache hfn.wellTyped hnar hfn.steady hho hc
    refine ⟨⟨hl.wellTyped, hl.width_eq.trans hfn.width_eq, hl.steady,
      fun hf => hl.selectFree (hfn.selectFree hf), hfn.eval_eq ▸ ha,
      .inr hcst, fun (hs : bits = f.2) => ?_⟩, hca.replaceWithConstant _ _⟩
    have hz : bits.ignoredBits = 0#64 := by
      obtain hz | hco := hfn.ignored
      · exact hs ▸ hz
      · rw [← hs, hc] at hco
        cases hco
    have hlt := eval_lt ρ _ hl.wellTyped
    rw [hl.width_eq] at hlt
    rw [← hfn.eval_eq]
    apply ha.eq hlt (eval_lt ρ _ hfn.wellTyped) hnar
    intro i _
    rw [hz, getLsbD_zero]
  · split at h
    next hn =>
      rw [bind_some_iff] at h
      obtain ⟨r, hr, h⟩ := h
      cases h
      have hrt := hvi hr hca hfn.wellTyped hfn.steady hcl
      refine ⟨⟨hrt.wellTyped, hrt.width_eq.trans hfn.width_eq, hrt.steady,
        fun hf => hrt.selectFree (hfn.selectFree hf), hfn.eval_eq ▸ hrt.agree,
        hfn.eval_eq ▸ hrt.exact, fun (hs : bits = f.2) => ?_⟩, hrt.cache⟩
      rw [hs, BitVec.and_not_self] at hn
      exact absurd rfl hn
    · cases h
      exact ⟨⟨hfn.wellTyped, hfn.width_eq, hfn.steady, hfn.selectFree,
        .of_eq hfn.eval_eq, .inl hfn.eval_eq, fun _ => hfn.eval_eq⟩, hca⟩

theorem reoptimizeKids_right
    (h : reoptimizeKids visit cache (found.zip bits) = some (left, cache', calls))
    (hca : cache.Sound ρ) (hn : Forall₂ (KidFound ρ) kids found)
    (hbi : Forall₂ (fun f now => now = f.2 ∨ now.HoldsUpTo (f.1.eval ρ)) found bits)
    (hcl : ∀ call ∈ calls, call.IsClean) : KidsLeft ρ kids found bits left ∧ cache'.Sound ρ := by
  induction hn generalizing cache bits left calls with
  | nil =>
    cases h
    exact ⟨.nil, hca⟩
  | cons hf _ ih =>
    cases hbi with
    | cons hb hbi =>
      rw [zip_cons_cons, reoptimizeKids, bind_some_iff] at h
      obtain ⟨⟨e, cache1, calls1⟩, hk, h⟩ := h
      rw [bind_some_iff] at h
      obtain ⟨⟨es, cache2, calls2⟩, hes, h⟩ := h
      cases h
      rw [forall_mem_append] at hcl
      obtain ⟨hl, hc1⟩ := reoptimizeKid_right hvi hk hca hf hb hcl.1
      obtain ⟨hr, hc2⟩ := ih hes hc1 hbi hcl.2
      exact ⟨.cons hl hr, hc2⟩

end

theorem KidsLeft.operands (hf : Forall₂ (KidFound ρ) kids found)
    (hl : found.length = bits.length) (h : KidsLeft ρ kids found bits left) :
    Forall₂ (OperandFor ρ) kids left := by
  induction hf generalizing bits left with
  | nil =>
    cases h
    exact .nil
  | cons _ _ ih =>
    cases bits with
    | nil => cases hl
    | cons b bits =>
      rw [KidsLeft, zip_cons_cons, zip_cons_cons] at h
      cases h with
      | cons hk hr =>
        exact .cons ⟨hk.wellTyped, hk.width_eq, hk.steady, hk.selectFree⟩ (ih (Nat.succ.inj hl) hr)

variable {e : Expr}
theorem Expr.operands_typed (h : e.WellTyped) : ∀ kid ∈ e.operands, kid.WellTyped := by
  cases e <;> simp_all [operands, WellTyped]

theorem Expr.operands_steady (h : e.Steady ρ) : ∀ kid ∈ e.operands, kid.Steady ρ := by
  cases e <;> simp_all [operands, Steady]

theorem considerKind_usesAll (ignoredBits : BitVec 64) (h : e.usesAll = true)
    (hf : Forall₂ (KidFound ρ) e.operands found) :
    (considerKind e ignoredBits found).2.2 = found.map snd := by
  cases e with
  | notOptimized src | read root head index =>
    obtain _ | ⟨_, ⟨⟩⟩ := hf
    rfl
  | arithmetic kind l r =>
    obtain _ | ⟨_, _ | ⟨_, ⟨⟩⟩⟩ := hf
    cases kind with
    | udiv => rfl
    | sdiv => rfl
    | urem => rfl
    | srem => rfl
    | ashr => rfl
    | _ => cases h
  | _ => cases h

theorem ExtractExpr.create_constant (u v offset w : Nat) :
    (ExtractExpr.create (.constant u v) offset w).isConstant = true := by
  rw [ExtractExpr.create, ExtractExpr.createFrom.eq_def]
  simp only
  split <;> rfl

theorem ZExtExpr.create_constant (u v w : Nat) :
    (ZExtExpr.create (.constant u v) w).isConstant = true := by
  rw [ZExtExpr.create]
  split
  · exact ExtractExpr.create_constant u v 0 w
  · rw [ZExtExpr.widen.eq_def]
    split <;> rfl

theorem SExtExpr.create_constant (u v w : Nat) :
    (SExtExpr.create (.constant u v) w).isConstant = true := by
  rw [SExtExpr.create.eq_def]
  split
  · rfl
  split
  · exact ExtractExpr.create_constant u v 0 w
  · rfl

theorem unary_exact (A : APInt) (hn : e.operands.length ≤ 1)
    (hf : Forall₂ (KidFound ρ) e.operands found)
    (hbi : found.length = bits.length) (hu : e.usesAll = true → bits = found.map snd)
    (hl : KidsLeft ρ e.operands found bits left) : Forall₂ (SameOperand ρ) e.operands left ∨
      ((e.withOperands left).recreate A).isConstant = true := by
  cases hs : e.usesAll with
  | true =>
    obtain rfl := hu hs
    exact .inl (hl.unchanged hf)
  | false =>
    have ho {kid : Expr} (hd : e.operands = [kid])
        (hfo : ∀ u v, ((e.withOperands [.constant u v]).recreate A).isConstant = true) :
        Forall₂ (SameOperand ρ) e.operands left ∨
          ((e.withOperands left).recreate A).isConstant = true := by
      rw [hd] at hf hl ⊢
      obtain _ | ⟨_, ⟨⟩⟩ := hf
      obtain ⟨b, rfl⟩ := length_eq_one_iff.1 hbi.symm
      obtain _ | ⟨hk, ⟨⟩⟩ := hl
      rename_i k
      obtain hv | hc := hk.exact
      · exact .inl (.cons ⟨hk.width_eq, hv⟩ .nil)
      cases k with
      | constant u v => exact .inr (hfo u v)
      | _ => cases hc
    cases e with
    | constant w v =>
      cases hf
      cases hl
      exact .inl .nil
    | extract e offset w => exact ho rfl fun u v => ExtractExpr.create_constant u v offset w
    | zext src w => exact ho rfl fun u v => ZExtExpr.create_constant u v w
    | sext src w => exact ho rfl fun u v => SExtExpr.create_constant u v w
    | not e => exact ho rfl fun _ _ => rfl
    | notOptimized src | read root head index => cases hs
    | select c t f => exact absurd hn (by decide : ¬3 ≤ 1)
    | concat l r | arithmetic kind l r | compare kind l r =>
      exact absurd hn (by decide : ¬2 ≤ 1)

structure Reoptimized (ρ : Assignment) (e : Expr) (rbits : BitsInfo) (e' : Expr)
    (cache : BitsInfoCache) : Prop extends OperandFor ρ e e' where
  agree : AgreeOutside rbits.ignoredBits (e'.eval ρ) (e.eval ρ)
  exact : e'.eval ρ = e.eval ρ ∨ e'.isConstant = true
  covered : e'.isConstant = true ∨ rbits.isCovered = false
  cache : cache.Sound ρ

theorem Expr.eval_of_clean (h : OperandFor ρ e e') (he : e.WellTyped)
    (hw : e.width ≤ 64) (ha : AgreeOutside ignoredBits (e'.eval ρ) (e.eval ρ))
    (hcl : ignoredBits &&& ~~~zeroMask e.width = 0#64) : e'.eval ρ = e.eval ρ := by
  have hlt := eval_lt ρ _ h.wellTyped
  rw [h.width_eq] at hlt
  apply ha.eq hlt (e.eval_lt ρ he) hw
  intro i hi
  have hb := congrArg (getLsbD · i) hcl
  simp only [getLsbD_and, getLsbD_not, zeroMask_eq, getLsbD_highBits, getLsbD_zero] at hb
  grind

theorem Expr.operands_constant (h : e.isConstant = true) : e.operands = [] := by
  cases e with
  | constant w v => rfl
  | _ => cases h

theorem narrow_found (hn : Forall₂ (KidFound ρ) kids found) : ∀ kid ∈ kids, kid.width ≤ 64 := by
  induction hn with
  | nil => exact nofun
  | cons hf _ ih => exact forall_mem_cons.2 ⟨hf.narrow, ih⟩

theorem reoptimize_right (hA : A.Lawful) (hvi : VisitRight ρ visit) (he : e.WellTyped)
    (hs : e.Steady ρ)
    (hw : e.width ≤ 64) (hca : cache.Sound ρ) (hf : Forall₂ (KidFound ρ) e.operands found)
    (hk : KindRight ρ e rbits.ignoredBits found (rbits.knownOneBits, rbits.knownZeroBits, bits))
    (hu : e.usesAll = true → bits = found.map snd)
    (hse : e.operands.length ≤ 1 ∨ rbits.ignoredBits &&& ~~~zeroMask e.width = 0#64)
    (h : reoptimize visit A cache e rbits (found.zip bits) = some (e', cache', calls))
    (hcl : ∀ call ∈ calls, call.IsClean) : Reoptimized ρ e rbits e' cache' := by
  rw [reoptimize] at h
  split at h
  next hco =>
    cases h
    obtain ⟨hl, hcst, ha⟩ := replaceWithConstant_right cache he hw hs
      (BitsInfo.Holds.upTo hk.holds) (and_eq_true_iff.1 hco).2
    exact ⟨hl, ha, .inr hcst, .inl hcst, hca.replaceWithConstant _ _⟩
  next hco =>
    rw [bind_some_iff] at h
    obtain ⟨⟨left, cache1, calls1⟩, hks, h⟩ := h
    cases h
    obtain ⟨hl, hcc⟩ := reoptimizeKids_right hvi hks hca hf hk.bits hcl
    have hn : found.length = bits.length := hk.bits.length_eq
    have ho := hl.operands hf hn
    have hm (hus : e.usesAll = true) : Forall₂ (SameOperand ρ) e.operands left := by
      obtain rfl := hu hus
      exact hl.unchanged hf
    have hnar : ∀ o ∈ (e.withOperands left).operands, o.width ≤ 64 := by
      rw [operands_withOperands ho]
      exact narrow_left ho (narrow_found hf)
    obtain ⟨hb, hev⟩ := recreate_left he hs (hA.foldsBy hnar) ho hm
    have ha := hk.agree (withOperands_typed he (ho.imp fun _ _ h => ⟨h.wellTyped, h.width_eq⟩)).1 hl
    have hv (e' : Expr) (hcst : e.isConstant = true → e' = e) :
        e'.isConstant = true ∨ rbits.isCovered = false := by
      cases hc : e.isConstant with
      | true =>
        rw [hcst hc]
        exact .inl hc
      | false =>
        rw [hc] at hco
        exact .inr (not_eq_true _ ▸ hco)
    rw [rebuild]
    split
    · exact ⟨⟨he, rfl, hs, id⟩, .refl _ _, .inl rfl, hv e fun _ => rfl, hcc⟩
    refine ⟨hb, hev ▸ ha, ?_, hv _ fun hc => ?_, hcc⟩
    · obtain hr | hcl := hse
      · obtain hm | hcst := unary_exact A hr hf hn hu hl
        · exact .inl (hev.trans (withOperands_eval hm))
        · exact .inr hcst
      · exact .inl (eval_of_clean hb he hw (hev ▸ ha) hcl)
    · cases e with
      | constant w v => rfl
      | _ => cases hc

/-- Clean runs keep the value of the bits that matter. -/
theorem doSimplifyBits_right (hA : A.Lawful) (depth : Nat) :
    VisitRight ρ (doSimplifyBits A depth) := by
  induction depth with
  | zero =>
    rintro _ _ _ _ ⟨⟩
  | succ depth ih =>
    intro cache e ignoredBits r h hca he hs hcl
    rw [doSimplifyBits.eq_def] at h
    simp only at h
    split at h
    next bits hl =>
      cases h
      obtain ⟨hho, hv⟩ := hca _ (mem_of_lookup hl)
      exact ⟨⟨he, rfl, hs, id⟩, (forall_mem_singleton.1 hcl).1, .refl _ _, .inl rfl, hho,
        .inr hv, hca⟩
    · rw [bind_some_iff] at h
      obtain ⟨⟨found, cache1, calls1⟩, hf, h⟩ := h
      split at h
      · rw [bind_some_iff] at h
        obtain ⟨⟨e', cache2, calls2⟩, he', h⟩ := h
        cases h
        rw [forall_mem_cons, forall_mem_append] at hcl
        obtain ⟨hse, hc1, hc2⟩ := hcl
        obtain ⟨hw, hse⟩ := hse
        obtain ⟨hf, hcc⟩ := visitKids_right ih hf hca (operands_typed he) (operands_steady hs) hc1
        have hk : KindRight ρ e ignoredBits found _ := considerKind_right he hw hf
        have hre := reoptimize_right hA ih he hs hw hcc hf hk
          (considerKind_usesAll ignoredBits · hf) (hse.resolve_left false_ne_true) he'
          hc2
        refine ⟨hre.toOperandFor, hw, hre.agree, hre.exact, hk.holds, .inl rfl, ?_⟩
        split
        next hks =>
          have hc : ¬e'.isConstant = true := by
            intro hc
            rw [operands_constant hc] at hks
            exact absurd hks (by decide)
          apply hre.cache.insert _ (hre.covered.resolve_left hc)
          rw [hre.exact.resolve_right hc]
          exact hk.holds
        · exact hre.cache
      · cases h

end Chef
