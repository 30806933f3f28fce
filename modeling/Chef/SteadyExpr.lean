import Chef.ExprMeaning

namespace Chef
open Bool Chef.Expr ArithmeticKind
mutual
def Expr.selectFree : Expr → Bool
  | .constant _ _ => true
  | .notOptimized src => src.selectFree
  | .read _ head index => head.selectFree && index.selectFree
  | .select _ _ _ => false
  | .concat l r => l.selectFree && r.selectFree
  | .extract e _ _ => e.selectFree
  | .zext src _ => src.selectFree
  | .sext src _ => src.selectFree
  | .not e => e.selectFree
  | .arithmetic _ l r => l.selectFree && r.selectFree
  | .compare _ l r => l.selectFree && r.selectFree

def UpdateNode.selectFree : UpdateNode → Bool
  | .null => true
  | .node index value next => index.selectFree && value.selectFree && next.selectFree

end

/-- No divisor is zero, and a shift leaves a bit of a negative number. -/
def ArithmeticKind.Folds (kind : ArithmeticKind) (x y : BitVec w) : Prop :=
  (kind.isDivision = true → y ≠ 0#w) ∧ (kind = .ashr → x.msb = true → y.toNat < w)

mutual
/-- No divisor is zero, and shifts and reads are in range. -/
def Expr.Steady (ρ : Assignment) : Expr → Prop
  | .constant _ _ => True
  | .notOptimized src => src.Steady ρ
  | .read root head index =>
    index.Steady ρ ∧ head.Steady ρ ∧ (root.isSymbolicArray = false → head = .null →
      index.selectFree = true ∧ index.eval ρ < root.size)
  | .select c t f => c.Steady ρ ∧ t.Steady ρ ∧ f.Steady ρ
  | .concat l r => l.Steady ρ ∧ r.Steady ρ
  | .extract e _ _ => e.Steady ρ
  | .zext src _ => src.Steady ρ
  | .sext src _ => src.Steady ρ
  | .not e => e.Steady ρ
  | .arithmetic kind l r =>
    l.Steady ρ ∧ r.Steady ρ ∧
      kind.Folds (BitVec.ofNat l.width (l.eval ρ)) (BitVec.ofNat l.width (r.eval ρ))
  | .compare _ l r => l.Steady ρ ∧ r.Steady ρ

def UpdateNode.Steady (ρ : Assignment) : UpdateNode → Prop
  | .null => True
  | .node index value next => index.Steady ρ ∧ value.Steady ρ ∧ next.Steady ρ

end

def Expr.Straight (ρ : Assignment) (e : Expr) : Prop := e.Steady ρ ∧ e.selectFree = true

theorem ArithmeticKind.folds_of_total {kind : ArithmeticKind} (h : kind.isTotal = true)
    (x y : BitVec w) : kind.Folds x y := by
  rw [isTotal, and_eq_true_iff, not_eq_true', decide_eq_true_iff] at h
  refine ⟨fun hd => ?_, fun hsh => absurd hsh h.2⟩
  rw [h.1] at hd
  cases hd

theorem UpdateNode.Steady.all (ρ : Assignment) :
    (head : UpdateNode) → head.Steady ρ → head.All (Expr.Steady ρ)
  | .null, _ => trivial
  | .node _ _ next, h => ⟨h.1, h.2.1, UpdateNode.Steady.all ρ next h.2.2⟩

theorem UpdateNode.Steady.all_straight (ρ : Assignment) :
    (head : UpdateNode) → head.Steady ρ → head.selectFree = true → head.All (Straight ρ)
  | .null, _, _ => trivial
  | .node _ _ next, h, hf => by
    rw [UpdateNode.selectFree, and_eq_true_iff, and_eq_true_iff] at hf
    exact ⟨⟨h.1, hf.1.1⟩, ⟨h.2.1, hf.1.2⟩, UpdateNode.Steady.all_straight ρ next h.2.2 hf.2⟩

instance (ρ : Assignment) : InheritsStrictly ρ (Steady ρ) where
  constant _ _ := trivial
  not := Iff.rfl
  extract := Iff.rfl
  zext := Iff.rfl
  sext := Iff.rfl
  concat := Iff.rfl
  compare := Iff.rfl
  arithmetic h := ⟨h.1, h.2.1⟩
  total hk hl hr := ⟨hl, hr, folds_of_total hk _ _⟩
  index h := h.1
  updates h := UpdateNode.Steady.all ρ _ h.2.1
  inRange h hcst := (h.2.2 hcst rfl).2
  select := Iff.rfl
  cases {root head c t f} h := by
    obtain ⟨⟨_, ht, hf⟩, hhd, hin⟩ := h
    have hany (hcst : root.isSymbolicArray = false) (hnull : head = .null) : False :=
      false_ne_true (hin hcst hnull).1
    exact ⟨⟨ht, hhd, fun hc hn => absurd (hany hc hn) id⟩,
      ⟨hf, hhd, fun hc hn => absurd (hany hc hn) id⟩⟩

theorem Expr.straight_and : (P ∧ Q) ∧ (a && b) = true ↔ (P ∧ a = true) ∧ Q ∧ b = true := by
  rw [and_eq_true_iff]
  exact ⟨fun h => ⟨⟨h.1.1, h.2.1⟩, h.1.2, h.2.2⟩, fun h => ⟨⟨h.1.1, h.2.1⟩, h.1.2, h.2.2⟩⟩

instance (ρ : Assignment) : Inherits ρ (Straight ρ) where
  constant _ _ := ⟨trivial, rfl⟩
  not := Iff.rfl
  extract := Iff.rfl
  zext := Iff.rfl
  sext := Iff.rfl
  concat := straight_and
  compare := straight_and
  arithmetic h := straight_and.1 ⟨⟨h.1.1, h.1.2.1⟩, h.2⟩
  total hk hl hr := ⟨⟨hl.1, hr.1, folds_of_total hk _ _⟩, (straight_and.2 ⟨hl, hr⟩).2⟩
  index h := ⟨h.1.1, (and_eq_true_iff.1 h.2).2⟩
  updates h := UpdateNode.Steady.all_straight ρ _ h.1.2.1 (and_eq_true_iff.1 h.2).1
  inRange h hcst := (h.1.2.2 hcst rfl).2

end Chef
