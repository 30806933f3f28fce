import Chef.ExprCreateSound

namespace Chef
open BitVec Chef.Expr
variable [Inherits ρ P] {e l r : Expr} {x y : BitVec w}

section
theorem XorExpr.createPartialR_means (hc : (constant u v).MeansIn P V D ρ x)
    (hr : r.MeansIn P V D ρ y) : (XorExpr.createPartialR u v r).MeansIn P V D ρ (x ^^^ y) := by
  obtain rfl : u = w := hc.width_eq
  rw [XorExpr.createPartialR]
  split
  next hz =>
    apply hr.congr
    intro hv
    rw [hc.zero hv hz, zero_xor]
  next hne =>
    split
    next hu =>
      subst hu
      have hf := means_constant P V D ρ 0#1
      apply (EqExpr.createPartialR_means hf hr fun h => absurd rfl h).congr
      intro hv
      rw [hc.allOnes hv (by omega), allOnes_xor]
      exact ofBool_zero_beq y
    · exact hc.arithmetic .xor hr nofun

variable (hl : l.MeansIn P V D ρ x) (hr : r.MeansIn P V D ρ y)
include hl hr
theorem XorExpr.make_means : (XorExpr.make l r).MeansIn P V D ρ (x ^^^ y) := by
  have hw := hl.width_eq
  subst hw
  rw [XorExpr.make]
  split
  next hlr =>
    subst hlr
    apply (ofBits_means P V D ρ 0#l.width).congr
    intro hv
    rw [hl.unique hr hv, BitVec.xor_self]
  · split
    next hn =>
      obtain ⟨hw, hxy⟩ := hl.isNegationOf hr hn
      apply (ofBits_means P V D ρ 1#1).cast hw.symm
      intro hv
      rw [hxy hv, (by grind : ~~~y ^^^ y = allOnes l.width), hw]
      rfl
    · exact hl.arithmetic .xor hr nofun

theorem XorExpr.create_means : (XorExpr.create l r).MeansIn P V D ρ (x ^^^ y) := by
  rw [XorExpr.create.eq_def]
  split
  next u v _ v' =>
    obtain rfl : u = w := hl.width_eq
    exact hl.folded (· ^^^ ·) hr
  · exact XorExpr.createPartialR_means hl hr
  · rw [BitVec.xor_comm]
    exact XorExpr.createPartialR_means hr hl
  · exact XorExpr.make_means hl hr

end

theorem add_eq_xor (hw : w = 1) (x y : BitVec w) : x + y = x ^^^ y := by
  subst hw
  revert x y
  decide

theorem sub_eq_xor (hw : w = 1) (x y : BitVec w) : x - y = x ^^^ y := by
  subst hw
  revert x y
  decide

theorem mul_eq_and (hw : w = 1) (x y : BitVec w) : x * y = x &&& y := by
  subst hw
  revert x y
  decide

theorem Expr.MeansIn.foldedBits (f : BitVec w → BitVec w → BitVec w)
    (hl : (ofBits s).MeansIn P V D ρ x) (hr : (Expr.constant u' v').MeansIn P V D ρ y) :
    (ofBits (f s (BitVec.ofNat w v'))).MeansIn P V D ρ (f x y) := by
  have hfo := Expr.MeansIn.folded f hl hr
  rw [ofNat_toNat, setWidth_eq] at hfo
  exact hfo

mutual
theorem AddExpr.createPartialR_means {u v w : Nat} {x y : BitVec w} {r : Expr}
    (hc : (constant u v).MeansIn P V D ρ x) (hr : r.MeansIn P V D ρ y) :
    (AddExpr.createPartialR u v r).MeansIn P V D ρ (x + y) := by
  obtain rfl : u = w := hc.width_eq
  rw [AddExpr.createPartialR.eq_def]
  split
  next hu =>
    rw [add_eq_xor hu]
    exact XorExpr.createPartialR_means hc hr
  · split
    next hze =>
      apply hr.congr
      intro hv
      rw [hc.zero hv hze, BitVec.zero_add]
    · split
      · obtain ⟨c, z, hc', hz, hy⟩ := hr.arithmetic_inv
        have hs := hc.folded (· + ·) hc'
        have heq (hv : V) : x + c + z = x + y := by
          rw [hy hv]
          exact BitVec.add_assoc x c z
        split
        · exact (hs.foldedBits (· + ·) hz).congr heq
        · exact (AddExpr.createPartialR_means hs hz).congr heq
      · obtain ⟨c, z, hc', hz, hy⟩ := hr.arithmetic_inv
        have hs := hc.folded (· + ·) hc'
        have heq (hv : V) : x + c - z = x + y := by
          rw [hy hv]
          exact (by grind : x + c - z = x + (c - z))
        split
        · exact (hs.foldedBits (· - ·) hz).congr heq
        · exact (SubExpr.createPartialR_means hs hz).congr heq
      · exact hc.arithmetic .add hr nofun
termination_by sizeOf r

theorem SubExpr.createPartialR_means {u v w : Nat} {x y : BitVec w} {r : Expr}
    (hc : (constant u v).MeansIn P V D ρ x) (hr : r.MeansIn P V D ρ y) :
    (SubExpr.createPartialR u v r).MeansIn P V D ρ (x - y) := by
  obtain rfl : u = w := hc.width_eq
  rw [SubExpr.createPartialR.eq_def]
  split
  next hu =>
    rw [sub_eq_xor hu]
    exact XorExpr.createPartialR_means hc hr
  · split
    · obtain ⟨c, z, hc', hz, hy⟩ := hr.arithmetic_inv
      have hd := hc.folded (· - ·) hc'
      have heq (hv : V) : x - c - z = x - y := by
        rw [hy hv]
        exact (by grind : x - c - z = x - (c + z))
      split
      · exact (hd.foldedBits (· - ·) hz).congr heq
      · exact (SubExpr.createPartialR_means hd hz).congr heq
    · obtain ⟨c, z, hc', hz, hy⟩ := hr.arithmetic_inv
      have hd := hc.folded (· - ·) hc'
      have heq (hv : V) : x - c + z = x - y := by
        rw [hy hv]
        exact (by grind : x - c + z = x - (c - z))
      split
      · exact (hd.foldedBits (· + ·) hz).congr heq
      · exact (AddExpr.createPartialR_means hd hz).congr heq
    · exact hc.arithmetic .sub hr nofun
termination_by sizeOf r

end

section
variable (hc : (constant u v).MeansIn P V D ρ x) (hr : r.MeansIn P V D ρ y)
include hc hr
theorem AddExpr.createConstant_means : (AddExpr.createConstant u v r).MeansIn P V D ρ (x + y) := by
  rw [AddExpr.createConstant.eq_def]
  split
  · obtain rfl : u = w := hc.width_eq
    exact hc.folded (· + ·) hr
  · exact AddExpr.createPartialR_means hc hr

theorem SubExpr.createConstant_means : (SubExpr.createConstant u v r).MeansIn P V D ρ (x - y) := by
  rw [SubExpr.createConstant.eq_def]
  split
  · obtain rfl : u = w := hc.width_eq
    exact hc.folded (· - ·) hr
  · exact SubExpr.createPartialR_means hc hr

end

theorem SubExpr.createPartial_means (hl : l.MeansIn P V D ρ x)
    (hc : (constant u v).MeansIn P V D ρ y) :
    (SubExpr.createPartial u v l).MeansIn P V D ρ (x - y) := by
  obtain rfl : u = w := hc.width_eq
  rw [SubExpr.createPartial.eq_def]
  split
  · exact hl.folded (· - ·) hc
  have hn := hc.constant (fun y => 0#u - y) fun _ => rfl
  apply (AddExpr.createPartialR_means hn hl).congr
  intro _
  exact (by grind : 0#u - y + x = x - y)

mutual
theorem AddExpr.create_means {w : Nat} {x y : BitVec w} {l r : Expr} (hl : l.MeansIn P V D ρ x)
    (hr : r.MeansIn P V D ρ y) : (AddExpr.create l r).MeansIn P V D ρ (x + y) := by
  rw [AddExpr.create.eq_def]
  split
  · exact AddExpr.createConstant_means hl hr
  · rw [BitVec.add_comm]
    exact AddExpr.createPartialR_means hr hl
  split
  next hw =>
    rw [add_eq_xor (hl.width_eq.symm.trans hw)]
    exact XorExpr.make_means hl hr
  · split
    · obtain ⟨c, a, hc, ha, hx⟩ := hl.arithmetic_inv
      apply (AddExpr.createConstant_means hc (AddExpr.create_means ha hr)).congr
      intro hv
      rw [hx hv]
      exact (by grind : c + (a + y) = c + a + y)
    · obtain ⟨c, a, hc, ha, hx⟩ := hl.arithmetic_inv
      apply (AddExpr.createConstant_means hc (SubExpr.create_means hr ha)).congr
      intro hv
      rw [hx hv]
      exact (by grind : c + (y - a) = c - a + y)
    · obtain ⟨c, b, hc, hb, hy⟩ := hr.arithmetic_inv
      apply (AddExpr.createConstant_means hc (AddExpr.create_means hl hb)).congr
      intro hv
      rw [hy hv]
      exact (by grind : c + (x + b) = x + (c + b))
    · obtain ⟨c, b, hc, hb, hy⟩ := hr.arithmetic_inv
      apply (AddExpr.createConstant_means hc (SubExpr.create_means hl hb)).congr
      intro hv
      rw [hy hv]
      exact (by grind : c + (x - b) = x + (c - b))
    · exact hl.arithmetic .add hr nofun
termination_by sizeOf l + sizeOf r

theorem SubExpr.create_means {w : Nat} {x y : BitVec w} {l r : Expr} (hl : l.MeansIn P V D ρ x)
    (hr : r.MeansIn P V D ρ y) : (SubExpr.create l r).MeansIn P V D ρ (x - y) := by
  rw [SubExpr.create.eq_def]
  split
  · exact SubExpr.createConstant_means hl hr
  · exact SubExpr.createPartial_means hl hr
  split
  next hw =>
    rw [sub_eq_xor (hl.width_eq.symm.trans hw)]
    exact XorExpr.make_means hl hr
  · split
    next hlr =>
      subst hlr
      have hw := hl.width_eq
      subst hw
      apply (ofBits_means P V D ρ 0#l.width).congr
      intro hv
      rw [hl.unique hr hv, BitVec.sub_self]
    · split
      · obtain ⟨c, a, hc, ha, hx⟩ := hl.arithmetic_inv
        apply (AddExpr.createConstant_means hc (SubExpr.create_means ha hr)).congr
        intro hv
        rw [hx hv]
        exact (by grind : c + (a - y) = c + a - y)
      · obtain ⟨c, a, hc, ha, hx⟩ := hl.arithmetic_inv
        apply (SubExpr.createConstant_means hc (AddExpr.create_means ha hr)).congr
        intro hv
        rw [hx hv]
        exact (by grind : c - (a + y) = c - a - y)
      · obtain ⟨c, b, hc, hb, hy⟩ := hr.arithmetic_inv
        apply (SubExpr.createPartial_means (SubExpr.create_means hl hb) hc).congr
        intro hv
        rw [hy hv]
        exact (by grind : x - b - c = x - (c + b))
      · obtain ⟨c, b, hc, hb, hy⟩ := hr.arithmetic_inv
        apply (SubExpr.createPartial_means (AddExpr.create_means hl hb) hc).congr
        intro hv
        rw [hy hv]
        exact (by grind : x + b - c = x - (c - b))
      · exact hl.arithmetic .sub hr nofun
termination_by sizeOf l + sizeOf r

end

theorem MulExpr.createPartialR_means (hc : (constant u v).MeansIn P V D ρ x)
    (hr : r.MeansIn P V D ρ y) : (MulExpr.createPartialR u v r).MeansIn P V D ρ (x * y) := by
  obtain rfl : u = w := hc.width_eq
  rw [MulExpr.createPartialR]
  split
  next hu =>
    subst hu
    rw [mul_eq_and rfl, BitVec.and_comm]
    exact AndExpr.createPartial_means hr hc
  · split
    next ho =>
      apply hr.congr
      intro hv
      have hx : x = 1#u := by
        rw [← (hc.constant_eq hv).2]
        apply eq_of_toNat_eq
        rw [toNat_ofNat, ho, toNat_ofNat]
        have hlt := Nat.mod_lt v (Nat.two_pow_pos u)
        rw [ho] at hlt
        exact (Nat.mod_eq_of_lt hlt).symm
      rw [hx, BitVec.one_mul]
    · split
      next hz =>
        apply hc.congr
        intro hv
        rw [hc.zero hv hz, zero_mul]
      · exact hc.arithmetic .mul hr nofun

theorem MulExpr.create_means (hl : l.MeansIn P V D ρ x) (hr : r.MeansIn P V D ρ y) :
    (MulExpr.create l r).MeansIn P V D ρ (x * y) := by
  rw [MulExpr.create.eq_def]
  split
  next u v _ v' =>
    obtain rfl : u = w := hl.width_eq
    exact hl.folded (· * ·) hr
  · exact MulExpr.createPartialR_means hl hr
  · rw [BitVec.mul_comm]
    exact MulExpr.createPartialR_means hr hl
  split
  next hw =>
    rw [mul_eq_and (hl.width_eq.symm.trans hw)]
    exact hl.arithmetic .and hr (by rintro ⟨⟩)
  · exact hl.arithmetic .mul hr (by rintro ⟨⟩)

theorem BinaryExpr.createWith_means {bool : Expr → Expr → Expr} (A : APInt)
    (kind : ArithmeticKind) (hl : l.MeansIn P V D ρ x) (hr : r.MeansIn P V D ρ y)
    (hn : kind.isTotal = false → D → P (.arithmetic kind l r))
    (hfo : l.isConstant = true → r.isConstant = true → V → A.arithmetic kind x y = kind.apply x y)
    (hbo : w = 1 → (bool l r).MeansIn P V D ρ (kind.apply x y)) :
    (BinaryExpr.createWith A kind bool l r).MeansIn P V D ρ (kind.apply x y) := by
  rw [BinaryExpr.createWith.eq_def]
  split
  next u v _ v' =>
    obtain rfl : u = w := hl.width_eq
    exact (hl.folded (A.arithmetic kind) hr).congr (hfo rfl rfl)
  · split
    next hw => exact hbo (hl.width_eq.symm.trans hw)
    · exact hl.arithmetic kind hr hn

section
variable {x y : BitVec 1}
theorem shift_eq_and (kind : ArithmeticKind) (hk : kind = .shl ∨ kind = .lshr) :
    x &&& ofBool (y == 0#1) = kind.apply x y := by
  obtain rfl | rfl := hk
  · revert x y
    decide
  · revert x y
    decide

variable (hy : y ≠ 0#1)
include hy
theorem bool_udiv : x = x / y := by
  revert x y
  decide

theorem bool_sdiv : x = x.sdiv y := by
  revert x y
  decide

theorem bool_urem : 0#1 = x % y := by
  revert x y
  decide

theorem bool_srem : 0#1 = x.srem y := by
  revert x y
  decide

end

theorem bool_ashr (x y : BitVec 1) : x = x.sshiftRight' y := by
  revert x y
  decide

theorem ArithmeticExpr.create_means (A : APInt) (kind : ArithmeticKind) (hl : l.MeansIn P V D ρ x)
    (hr : r.MeansIn P V D ρ y) (hd : kind.isDivision = true → V → r.eval ρ ≠ 0)
    (hn : kind.isTotal = false → D → P (.arithmetic kind l r))
    (hfo : l.isConstant = true → r.isConstant = true → V → A.arithmetic kind x y = kind.apply x y) :
    (ArithmeticExpr.create A kind l r).MeansIn P V D ρ (kind.apply x y) := by
  have hy : V → kind.isDivision = true → y ≠ 0#w := by
    intro hv hk hy
    apply hd hk hv
    rw [hr.eval_eq hv, hy, toNat_ofNat, Nat.zero_mod]
  have hsh (hki : kind = .shl ∨ kind = .lshr) (hw : w = 1) :
      (AndExpr.create l (createIsZero r)).MeansIn P V D ρ (kind.apply x y) := by
    subst hw
    apply (AndExpr.create_means hl (createIsZero_means hr fun h => absurd rfl h)).congr
    intro _
    exact shift_eq_and kind hki
  have hcr {f : Expr → Expr → Expr} (h : w = 1 → (f l r).MeansIn P V D ρ (kind.apply x y)) :=
    BinaryExpr.createWith_means A kind hl hr hn hfo h
  cases kind with
  | add => exact AddExpr.create_means hl hr
  | sub => exact SubExpr.create_means hl hr
  | mul => exact MulExpr.create_means hl hr
  | and => exact AndExpr.create_means hl hr
  | or => exact OrExpr.create_means hl hr
  | xor => exact XorExpr.create_means hl hr
  | shl => exact hcr (hsh (.inl rfl))
  | lshr => exact hcr (hsh (.inr rfl))
  | udiv =>
    apply hcr
    rintro rfl
    exact hl.congr fun hv => bool_udiv (hy hv rfl)
  | sdiv =>
    apply hcr
    rintro rfl
    exact hl.congr fun hv => bool_sdiv (hy hv rfl)
  | urem =>
    apply hcr
    rintro rfl
    exact (ofBits_means P V D ρ 0#1).congr fun hv => bool_urem (hy hv rfl)
  | srem =>
    apply hcr
    rintro rfl
    exact (ofBits_means P V D ρ 0#1).congr fun hv => bool_srem (hy hv rfl)
  | ashr =>
    apply hcr
    rintro rfl
    exact hl.congr fun _ => bool_ashr x y

theorem CmpExpr.createWith_means {bool : Expr → Expr → Expr} (kind : CmpKind)
    (hl : l.MeansIn P V D ρ x) (hr : r.MeansIn P V D ρ y)
    (hbo : w = 1 → (bool l r).MeansIn P V D ρ (ofBool (kind.apply x y))) :
    (CmpExpr.createWith kind bool l r).MeansIn P V D ρ (ofBool (kind.apply x y)) := by
  rw [CmpExpr.createWith.eq_def]
  split
  next u v _ v' =>
    obtain rfl : u = w := hl.width_eq
    exact hl.folded (fun x y => ofBool (kind.apply x y)) hr
  · split
    next hw => exact hbo (hl.width_eq.symm.trans hw)
    · exact hl.compare kind hr

theorem createIsZero_bool {x : BitVec 1} (h : e.MeansIn P V D ρ x) :
    (createIsZero e).MeansIn P V D ρ (~~~x) := by
  apply (createIsZero_means h fun h => absurd rfl h).congr
  intro _
  rw [Bool.beq_comm, ofBool_zero_beq]

theorem bool_ult (x y : BitVec 1) : ~~~x &&& y = ofBool (x.ult y) := by
  revert x y
  decide

theorem bool_ule (x y : BitVec 1) : ~~~x ||| y = ofBool (x.ule y) := by
  revert x y
  decide

theorem bool_slt (x y : BitVec 1) : x &&& ~~~y = ofBool (x.slt y) := by
  revert x y
  decide

theorem bool_sle (x y : BitVec 1) : x ||| ~~~y = ofBool (x.sle y) := by
  revert x y
  decide

section
variable (hl : l.MeansIn P V D ρ x) (hr : r.MeansIn P V D ρ y)
include hl hr
theorem UltExpr.create_means : (UltExpr.create l r).MeansIn P V D ρ (ofBool (x.ult y)) := by
  apply CmpExpr.createWith_means .ult hl hr
  rintro rfl
  apply (AndExpr.create_means (createIsZero_bool hl) hr).congr
  intro _
  exact bool_ult x y

theorem UleExpr.create_means : (UleExpr.create l r).MeansIn P V D ρ (ofBool (x.ule y)) := by
  apply CmpExpr.createWith_means .ule hl hr
  rintro rfl
  apply (OrExpr.create_means (createIsZero_bool hl) hr).congr
  intro _
  exact bool_ule x y

theorem SltExpr.create_means : (SltExpr.create l r).MeansIn P V D ρ (ofBool (x.slt y)) := by
  apply CmpExpr.createWith_means .slt hl hr
  rintro rfl
  apply (AndExpr.create_means hl (createIsZero_bool hr)).congr
  intro _
  exact bool_slt x y

theorem SleExpr.create_means : (SleExpr.create l r).MeansIn P V D ρ (ofBool (x.sle y)) := by
  apply CmpExpr.createWith_means .sle hl hr
  rintro rfl
  apply (OrExpr.create_means hl (createIsZero_bool hr)).congr
  intro _
  exact bool_sle x y

end

theorem not_ofBool (b : Bool) : ~~~ofBool b = ofBool !b := by
  cases b <;> rfl

theorem CompareExpr.create_means (kind : CmpKind) (hl : l.MeansIn P V D ρ x) (hr :
    r.MeansIn P V D ρ y) (hVD : w ≠ 1 → V → D) :
    (CompareExpr.create kind l r).MeansIn P V D ρ (ofBool (kind.apply x y)) := by
  cases kind with
  | eq => exact EqExpr.create_means hl hr hVD
  | ne =>
    have heq := EqExpr.create_means hl hr hVD
    have hf := means_constant P V D ρ 0#1
    apply (EqExpr.create_means hf heq fun h => absurd rfl h).congr
    intro _
    rw [ofBool_zero_beq, CmpKind.apply, bne]
    exact not_ofBool (x == y)
  | ult => exact UltExpr.create_means hl hr
  | ule => exact UleExpr.create_means hl hr
  | ugt => exact UltExpr.create_means hr hl
  | uge => exact UleExpr.create_means hr hl
  | slt => exact SltExpr.create_means hl hr
  | sle => exact SleExpr.create_means hl hr
  | sgt => exact SltExpr.create_means hr hl
  | sge => exact SleExpr.create_means hr hl

end Chef
