import Chef.Expr
import Mathlib.Data.Nat.Basic

namespace Chef
open BitVec Chef.Expr Nat
/-- The operators whose folding has a value for all operands. -/
def ArithmeticKind.isTotal (kind : ArithmeticKind) : Bool :=
  !kind.isDivision && decide (kind ≠ .ashr)

def UpdateNode.All (P : Expr → Prop) : UpdateNode → Prop
  | .null => True
  | .node index value next => P index ∧ P value ∧ next.All P

class Expr.Inherits (ρ : Assignment) (P : Expr → Prop) : Prop where
  constant (w v : Nat) : P (.constant w v)
  not : P (.not e) ↔ P e
  extract : P (.extract e offset w) ↔ P e
  zext : P (.zext e w) ↔ P e
  sext : P (.sext e w) ↔ P e
  concat : P (.concat l r) ↔ P l ∧ P r
  compare : P (.compare kind l r) ↔ P l ∧ P r
  arithmetic : P (.arithmetic kind l r) → P l ∧ P r
  total : kind.isTotal = true → P l → P r → P (.arithmetic kind l r)
  index : P (.read root head i) → P i
  updates : P (.read root head i) → head.All P
  inRange : P (.read root .null i) → root.isSymbolicArray = false → i.eval ρ < root.size

class Expr.InheritsStrictly (ρ : Assignment) (P : Expr → Prop) : Prop extends Inherits ρ P where
  select : P (.select c t f) ↔ P c ∧ P t ∧ P f
  cases : P (.read root head (.select c t f)) → P (.read root head t) ∧ P (.read root head f)

/-- It has the value of a bit vector when `V`, and the property when `D`. -/
structure Expr.MeansIn (P : Expr → Prop) (V D : Prop) (ρ : Assignment) (e : Expr)
    (x : BitVec w) : Prop where
  wellTyped : e.WellTyped
  width_eq : e.width = w
  eval_eq : V → e.eval ρ = x.toNat
  defined : D → P e

abbrev Expr.Means (V D : Prop) (ρ : Assignment) (e : Expr) (x : BitVec w) : Prop :=
  e.MeansIn (Defined ρ) V D ρ x

theorem UpdateNode.Defined.all (ρ : Assignment) :
    (head : UpdateNode) → head.Defined ρ → head.All (Expr.Defined ρ)
  | .null, _ => trivial
  | .node _ _ next, h => ⟨h.1, h.2.1, UpdateNode.Defined.all ρ next h.2.2⟩

instance (ρ : Assignment) : Inherits ρ (Defined ρ) where
  constant _ _ := trivial
  not := Iff.rfl
  extract := Iff.rfl
  zext := Iff.rfl
  sext := Iff.rfl
  concat := Iff.rfl
  compare := Iff.rfl
  arithmetic h := ⟨h.1, h.2.1⟩
  total {kind _ _} hkind hl hr := by
    refine ⟨hl, hr, fun hdiv => ?_⟩
    rw [ArithmeticKind.isTotal, hdiv] at hkind
    cases hkind
  index h := h.1
  updates h := UpdateNode.Defined.all ρ _ h.2.1
  inRange h _ := h.2.2

namespace Expr
section
variable {P : Expr → Prop} {w : Nat} {x y : BitVec w} {e : Expr}
theorem means_self (V : Prop) (ρ : Assignment) (ht : e.WellTyped) (hd : D → P e) :
    e.MeansIn P V D ρ (BitVec.ofNat e.width (e.eval ρ)) := by
  refine ⟨ht, rfl, fun _ => ?_, hd⟩
  rw [toNat_ofNat, mod_eq_of_lt (eval_lt ρ e ht)]

section
variable (h : e.MeansIn P V D ρ x)
include h
theorem MeansIn.congr (hxy : V → x = y) : e.MeansIn P V D ρ y :=
  ⟨h.wellTyped, h.width_eq, fun hv => hxy hv ▸ h.eval_eq hv, h.defined⟩

theorem MeansIn.weaken (hD : D' → D) : e.MeansIn P V D' ρ x :=
  ⟨h.wellTyped, h.width_eq, h.eval_eq, fun hd => h.defined (hD hd)⟩

theorem MeansIn.imp (hV : V' → V) : e.MeansIn P V' D ρ x :=
  ⟨h.wellTyped, h.width_eq, fun hv => h.eval_eq (hV hv), h.defined⟩

theorem MeansIn.forget : e.MeansIn Q V False ρ x := ⟨h.wellTyped, h.width_eq, h.eval_eq, nofun⟩

theorem MeansIn.ofNat_eval (hv : V) : BitVec.ofNat w (e.eval ρ) = x := by
  rw [h.eval_eq hv, ofNat_toNat, setWidth_eq]

theorem MeansIn.unique (h' : e.MeansIn P V D ρ y) (hv : V) : x = y :=
  (h.ofNat_eval hv).symm.trans (h'.ofNat_eval hv)

end

theorem means_constant (P : Expr → Prop) (V D : Prop) (ρ : Assignment) [Inherits ρ P]
    (x : BitVec w) : (constant w x.toNat).MeansIn P V D ρ x := by
  refine ⟨x.isLt, rfl, fun _ => ?_, fun _ => Inherits.constant ρ w x.toNat⟩
  rw [eval, mod_eq_of_lt x.isLt]

section
variable (h : (constant u v).MeansIn P V D ρ x) (hv : V)
include h hv
theorem MeansIn.constant_eq : u = w ∧ BitVec.ofNat w v = x := by
  obtain rfl : u = w := h.width_eq
  refine ⟨rfl, ?_⟩
  have hlt : v < 2 ^ u := h.wellTyped
  rw [← h.ofNat_eval hv, eval, mod_eq_of_lt hlt]

theorem MeansIn.zero (hz : v % 2 ^ u = 0) : x = 0#w := by
  obtain ⟨rfl, hx⟩ := h.constant_eq hv
  rw [← hx]
  apply eq_of_toNat_eq
  rw [toNat_ofNat, hz, toNat_ofNat, zero_mod]

theorem MeansIn.allOnes (hz : v % 2 ^ u = 2 ^ u - 1) : x = allOnes w := by
  obtain ⟨rfl, hx⟩ := h.constant_eq hv
  rw [← hx]
  apply eq_of_toNat_eq
  rw [toNat_ofNat, hz, toNat_allOnes]

end

theorem MeansIn.cast {x : BitVec u} (h : e.MeansIn P V D ρ x) (hw : u = w)
    (hxy : V → x.toNat = y.toNat) : e.MeansIn P V D ρ y :=
  ⟨h.wellTyped, h.width_eq.trans hw, fun hv => (h.eval_eq hv).trans (hxy hv), h.defined⟩

end

variable {P : Expr → Prop} [Inherits ρ P] {e l r : Expr}
theorem MeansIn.arithmetic (kind : ArithmeticKind) (hl : l.MeansIn P V D ρ x)
    (hr : r.MeansIn P V D ρ y) (hn : kind.isTotal = false → D → P (.arithmetic kind l r)) :
    (arithmetic kind l r).MeansIn P V D ρ (kind.apply x y) := by
  have hlw := hl.width_eq
  subst hlw
  refine ⟨⟨hl.wellTyped, hr.wellTyped, hr.width_eq.symm⟩, by rw [width], fun hv => ?_, fun hd => ?_⟩
  · rw [eval, hl.ofNat_eval hv, hr.ofNat_eval hv]
  cases hk : kind.isTotal with
  | false => exact hn hk hd
  | true => exact Inherits.total ρ hk (hl.defined hd) (hr.defined hd)

theorem MeansIn.arithmetic_inv {z : BitVec w} (h : (Expr.arithmetic kind l r).MeansIn P V D ρ z) :
    ∃ x y : BitVec w, l.MeansIn P V D ρ x ∧ r.MeansIn P V D ρ y ∧ (V → z = kind.apply x y) := by
  obtain ⟨hl, hr, hwidth⟩ := h.wellTyped
  have hw : l.width = w := h.width_eq
  subst hw
  have ho (hd : D) : P l ∧ P r := Inherits.arithmetic ρ (h.defined hd)
  refine ⟨_, BitVec.ofNat l.width (r.eval ρ), means_self V ρ hl fun hd => (ho hd).1, ?_,
    fun hv => ?_⟩
  · have hr' := means_self V ρ hr fun hd => (ho hd).2
    rw [← hwidth] at hr'
    exact hr'
  · rw [← h.ofNat_eval hv, eval, ofNat_toNat, setWidth_eq]

theorem MeansIn.compare (kind : CmpKind) (hl : l.MeansIn P V D ρ x) (hr : r.MeansIn P V D ρ y) :
    (compare kind l r).MeansIn P V D ρ (ofBool (kind.apply x y)) := by
  have hlw := hl.width_eq
  subst hlw
  refine ⟨⟨hl.wellTyped, hr.wellTyped, hr.width_eq.symm⟩, by rw [width], fun hv => ?_,
    fun hd => (Inherits.compare ρ).2 ⟨hl.defined hd, hr.defined hd⟩⟩
  rw [eval, hl.ofNat_eval hv, hr.ofNat_eval hv, toNat_ofBool]

theorem MeansIn.compare_inv (h : (Expr.compare kind l r).MeansIn P V D ρ z) :
    ∃ x y : BitVec l.width, l.MeansIn P V D ρ x ∧ r.MeansIn P V D ρ y ∧
      (V → z = ofBool (kind.apply x y)) := by
  obtain ⟨hl, hr, hw⟩ := h.wellTyped
  have ho (hd : D) : P l ∧ P r := (Inherits.compare ρ).1 (h.defined hd)
  refine ⟨_, BitVec.ofNat l.width (r.eval ρ), means_self V ρ hl fun hd => (ho hd).1, ?_,
    fun hv => ?_⟩
  · have hr' := means_self V ρ hr fun hd => (ho hd).2
    rw [← hw] at hr'
    exact hr'
  · apply toNat_inj.1
    rw [← h.eval_eq hv, eval, toNat_ofBool]

theorem MeansIn.not (h : e.MeansIn P V D ρ x) : (not e).MeansIn P V D ρ (~~~x) := by
  have hw := h.width_eq
  subst hw
  refine ⟨h.wellTyped, by rw [width], fun hv => ?_, fun hd => (Inherits.not ρ).2 (h.defined hd)⟩
  rw [eval, h.ofNat_eval hv]

variable {x : BitVec u}
theorem MeansIn.concat (hl : l.MeansIn P V D ρ x)
    (hr : r.MeansIn P V D ρ y) : (concat l r).MeansIn P V D ρ (x ++ y) := by
  refine ⟨⟨hl.wellTyped, hr.wellTyped⟩, ?_, fun hv => ?_,
    fun hd => (Inherits.concat ρ).2 ⟨hl.defined hd, hr.defined hd⟩⟩
  · rw [width, hl.width_eq, hr.width_eq]
  · rw [eval, hl.eval_eq hv, hr.eval_eq hv, hr.width_eq, toNat_append,
      ← Nat.shiftLeft_add_eq_or_of_lt y.isLt, Nat.shiftLeft_eq]

theorem MeansIn.concat_inv {z : BitVec w} (h : (Expr.concat l r).MeansIn P V D ρ z) :
    ∃ (x : BitVec l.width) (y : BitVec r.width), l.MeansIn P V D ρ x ∧ r.MeansIn P V D ρ y ∧
      l.width + r.width = w ∧ (V → z.toNat = (x ++ y).toNat) := by
  obtain ⟨hl, hr⟩ := h.wellTyped
  have ho (hd : D) : P l ∧ P r := (Inherits.concat ρ).1 (h.defined hd)
  have hx := means_self V ρ hl fun hd => (ho hd).1
  have hy := means_self V ρ hr fun hd => (ho hd).2
  have hw := h.width_eq
  refine ⟨_, _, hx, hy, hw, fun hv => ?_⟩
  rw [← h.eval_eq hv, (hx.concat hy).eval_eq hv]

variable (h : e.MeansIn P V D ρ x)
include h
theorem MeansIn.extract (hin : offset + w ≤ u) :
    (extract e offset w).MeansIn P V D ρ (x.extractLsb' offset w) := by
  refine ⟨⟨h.wellTyped, h.width_eq ▸ hin⟩, by rw [width], fun hv => ?_,
    fun hd => (Inherits.extract ρ).2 (h.defined hd)⟩
  rw [eval, h.eval_eq hv, extractLsb'_toNat, shiftRight_eq_div_pow]

theorem MeansIn.zext (hw : u ≤ w) : (zext e w).MeansIn P V D ρ (x.setWidth w) := by
  refine ⟨⟨h.wellTyped, h.width_eq ▸ hw⟩, by rw [width], fun hv => ?_,
    fun hd => (Inherits.zext ρ).2 (h.defined hd)⟩
  rw [eval, h.eval_eq hv, toNat_setWidth]

theorem MeansIn.sext (hw : u ≤ w) : (sext e w).MeansIn P V D ρ (x.signExtend w) := by
  have hu := h.width_eq
  subst hu
  refine ⟨⟨h.wellTyped, hw⟩, by rw [width], fun hv => ?_,
    fun hd => (Inherits.sext ρ).2 (h.defined hd)⟩
  rw [eval, h.ofNat_eval hv]

end Expr
end Chef
