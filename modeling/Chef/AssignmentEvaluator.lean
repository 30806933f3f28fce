import Chef.ExprEvaluate
import Chef.SimplifierSound

namespace Chef
open Bool Chef.Expr UpdateNode List
abbrev Bindings := List (KArray × List UInt8)

def Bindings.byteAt (a : Bindings) : Assignment := fun array i =>
  ((a.lookup array).bind fun bytes => bytes[i]?).getD 0

def Expr.isTrue : Expr → Bool
  | .constant w v => v % 2 ^ w == 1
  | _ => false

def Expr.visited (A : APInt) (e : Expr) (kids : List Expr) : Expr :=
  if e.operands.all isConstant then e.recreate A else e.rebuild A kids

mutual
/-- `Assignment::evaluate`: a divisor that is zero is left as it was. -/
def Expr.assign (A : APInt) (a : Bindings) : Expr → Expr
  | .constant w v => .constant w v
  | .notOptimized src => (notOptimized src).visited A [src.assign A a]
  | .read root head index =>
    match index.assign A a with
    | .constant w i => head.assignRead A a root (i % 2 ^ w)
    | index' => (read root head index).rebuild A [index']
  | .select c t f => (select c t f).visited A [c.assign A a, t.assign A a, f.assign A a]
  | .concat l r => (concat l r).visited A [l.assign A a, r.assign A a]
  | .extract e offset w => (extract e offset w).visited A [e.assign A a]
  | .zext src w => (zext src w).visited A [src.assign A a]
  | .sext src w => (sext src w).visited A [src.assign A a]
  | .not e => (not e).visited A [e.assign A a]
  | .arithmetic kind l r =>
    (arithmetic kind l r).visited A
      [l.assign A a, if kind.isDivision && (r.assign A a).isZero then r else r.assign A a]
  | .compare kind l r => (compare kind l r).visited A [l.assign A a, r.assign A a]

/-- `ExprEvaluator::evalRead`: an update at an unknown index may be the one. -/
def UpdateNode.assignRead (A : APInt) (a : Bindings) (root : KArray) (i : Nat) : UpdateNode → Expr
  | .null => .constant 8 (root.initialValue a.byteAt i).toNat
  | .node index value next =>
    match index.assign A a with
    | .constant w n => if n % 2 ^ w = i then value.assign A a else next.assignRead A a root i
    | _ => ReadExpr.create root (.node index value next) (.constant 32 i)

end

section
variable {A : APInt} {e e' : Expr}
structure EvaluatedTo (ρ : Assignment) (e e' : Expr) : Prop extends OperandFor ρ e e' where
  eval_eq : e'.eval ρ = e.eval ρ

theorem EvaluatedTo.refl (h : e.WellTyped) (hs : e.Steady ρ) : EvaluatedTo ρ e e :=
  ⟨⟨h, rfl, hs, id⟩, rfl⟩

theorem withOperands_operands (e : Expr) : e.withOperands e.operands = e := by
  cases e with
  | _ => rfl

theorem recreate_evaluatedTo (hA : A.Signed) (h : e.WellTyped) (hs : e.Steady ρ)
    (hks : Forall₂ (EvaluatedTo ρ) e.operands kids) :
    EvaluatedTo ρ e ((e.withOperands kids).recreate A) := by
  have ho := hks.imp fun _ _ hk => hk.toOperandFor
  have hm : Forall₂ (SameOperand ρ) e.operands kids :=
    hks.imp fun _ _ hk => ⟨hk.width_eq, hk.eval_eq⟩
  obtain ⟨hr, he⟩ := recreate_left h hs hA.foldsBy ho fun _ => hm
  exact ⟨hr, he.trans (withOperands_eval hm)⟩

theorem operands_evaluatedTo (h : e.WellTyped) (hs : e.Steady ρ) :
    Forall₂ (EvaluatedTo ρ) e.operands e.operands := by
  rw [forall₂_same]
  intro kid hk
  exact .refl (operands_typed h kid hk) (operands_steady hs kid hk)

section
variable (hA : A.Signed) (h : e.WellTyped) (hs : e.Steady ρ)
  (hks : Forall₂ (EvaluatedTo ρ) e.operands kids)
include hA h hs hks
theorem rebuild_evaluatedTo : EvaluatedTo ρ e (e.rebuild A kids) := by
  rw [rebuild]
  split
  · exact .refl h hs
  · exact recreate_evaluatedTo hA h hs hks

theorem visited_evaluatedTo : EvaluatedTo ρ e (e.visited A kids) := by
  rw [visited]
  split
  · have hse := recreate_evaluatedTo hA h hs (operands_evaluatedTo h hs)
    rw [withOperands_operands] at hse
    exact hse
  · exact rebuild_evaluatedTo hA h hs hks

end

theorem divisor_evaluatedTo (hs : (arithmetic kind l r).Steady ρ)
    (ht : (arithmetic kind l r).WellTyped) (hr : EvaluatedTo ρ r r') :
    EvaluatedTo ρ r (if kind.isDivision && r'.isZero then r else r') := by
  split
  · exact .refl ht.2.1 hs.2.1
  · exact hr

end

mutual
theorem Expr.assign_right (hA : A.Signed) (a : Bindings) :
    (e : Expr) → e.WellTyped → e.Steady a.byteAt → EvaluatedTo a.byteAt e (e.assign A a)
  | .constant w v, ht, hs => by
    exact .refl ht hs
  | .notOptimized src, ht, hs | .not src, ht, hs => by
    exact visited_evaluatedTo hA ht hs (.cons (src.assign_right hA a ht hs) .nil)
  | .read root head index, ht, hs => by
    have hd := index.assign_right hA a ht.2.1 hs.1
    rw [assign]
    split
    next w i hc =>
      rw [hc] at hd
      have hi : i % 2 ^ w = index.eval a.byteAt := hd.eval_eq
      have hlt := index.eval_lt a.byteAt ht.2.1
      rw [ht.2.2, ← hi] at hlt
      have hrd := head.assignRead_right hA a root _ hlt ht.1 hs.2.1
      refine ⟨⟨hrd.wellTyped, hrd.width_eq, hrd.steady, fun hf => ?_⟩, ?_⟩
      · exact hrd.selectFree (and_eq_true_iff.2 ⟨(and_eq_true_iff.1 hf).1, rfl⟩)
      · rw [hrd.eval_eq, eval, eval, eval, Nat.mod_eq_of_lt hlt, hi]
    · exact rebuild_evaluatedTo hA ht hs (.cons hd .nil)
  | .select c t f, ht, hs => by
    exact visited_evaluatedTo hA ht hs (.cons (c.assign_right hA a ht.1 hs.1)
      (.cons (t.assign_right hA a ht.2.1 hs.2.1)
        (.cons (f.assign_right hA a ht.2.2.1 hs.2.2) .nil)))
  | .concat l r, ht, hs => by
    exact visited_evaluatedTo hA ht hs
      (.cons (l.assign_right hA a ht.1 hs.1) (.cons (r.assign_right hA a ht.2 hs.2) .nil))
  | .extract src _ _, ht, hs | .zext src _, ht, hs | .sext src _, ht, hs => by
    exact visited_evaluatedTo hA ht hs (.cons (src.assign_right hA a ht.1 hs) .nil)
  | .arithmetic kind l r, ht, hs => by
    rw [assign]
    have hr := divisor_evaluatedTo hs ht (r.assign_right hA a ht.2.1 hs.2.1)
    exact visited_evaluatedTo hA ht hs (.cons (l.assign_right hA a ht.1 hs.1) (.cons hr .nil))
  | .compare kind l r, ht, hs => by
    rw [assign]
    exact visited_evaluatedTo hA ht hs
      (.cons (l.assign_right hA a ht.1 hs.1) (.cons (r.assign_right hA a ht.2.1 hs.2) .nil))

theorem UpdateNode.assignRead_right (hA : A.Signed) (a : Bindings) (root : KArray)
    (i : Nat) (hi : i < 2 ^ 32) : (un : UpdateNode) → un.WellTyped → un.Steady a.byteAt →
      EvaluatedTo a.byteAt (.read root un (.constant 32 i)) (un.assignRead A a root i)
  | .null, _, _ => by
    rw [assignRead]
    have hlt := (root.initialValue a.byteAt i).toNat_lt
    refine ⟨⟨hlt, rfl, trivial, fun _ => rfl⟩, ?_⟩
    rw [eval, eval, eval, valueAt, Nat.mod_eq_of_lt hi, Nat.mod_eq_of_lt hlt]
  | .node index value next, ht, hs => by
    have hd := index.assign_right hA a ht.1 hs.1
    have hv := value.assign_right hA a ht.2.2.1 hs.2.1
    rw [assignRead]
    split
    next w n hc =>
      rw [hc] at hd
      have hn : n % 2 ^ w = index.eval a.byteAt := hd.eval_eq
      split
      next hm =>
        refine ⟨⟨hv.wellTyped, hv.width_eq.trans ht.2.2.2.1, hv.steady, fun hf => ?_⟩, ?_⟩
        · rw [Expr.selectFree, UpdateNode.selectFree, and_eq_true_iff, and_eq_true_iff,
            and_eq_true_iff] at hf
          exact hv.selectFree hf.1.1.2
        · rw [hv.eval_eq, eval, eval, valueAt, Nat.mod_eq_of_lt hi, ← hn,
            if_pos hm, valueAt_value ht.2.2.1 ht.2.2.2.1]
      next hot =>
        have hx := next.assignRead_right hA a root i hi ht.2.2.2.2 hs.2.2
        refine ⟨⟨hx.wellTyped, hx.width_eq, hx.steady, fun hf => ?_⟩, ?_⟩
        · rw [Expr.selectFree, UpdateNode.selectFree, and_eq_true_iff, and_eq_true_iff,
            and_eq_true_iff] at hf
          exact hx.selectFree (and_eq_true_iff.2 ⟨hf.1.2, rfl⟩)
        · rw [hx.eval_eq, eval, eval, eval, eval, valueAt, Nat.mod_eq_of_lt hi, ← hn, if_neg hot]
    · have hty : (read root (.node index value next) (.constant 32 i)).WellTyped := ⟨ht, hi, rfl⟩
      have hstd : (read root (.node index value next) (.constant 32 i)).Steady a.byteAt :=
        ⟨trivial, hs, nofun⟩
      exact recreate_evaluatedTo hA hty hstd (operands_evaluatedTo hty hstd)

end
end Chef
