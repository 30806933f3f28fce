import Chef.Foundations.SmtTerms

namespace Foundations
def SmtTerm.consts : SmtTerm → List (String × SmtSort)
  | .boolVal _ => []
  | .bitVecVal _ _ => []
  | .const name σ => [(name, σ)]
  | .ite c t f => c.consts ++ (t.consts ++ f.consts)
  | .eq l r => l.consts ++ r.consts
  | .not t => t.consts
  | .connective _ l r => l.consts ++ r.consts
  | .bvnot t => t.consts
  | .bvop _ l r => l.consts ++ r.consts
  | .bvrel _ l r => l.consts ++ r.consts
  | .concat l r => l.consts ++ r.consts
  | .extract _ _ t => t.consts
  | .zeroExtend _ t => t.consts
  | .signExtend _ t => t.consts
  | .select a i => a.consts ++ i.consts
  | .store a i v => a.consts ++ (i.consts ++ v.consts)

def SmtModel.Agree (μ ν : SmtModel) (cs : List (String × SmtSort)) : Prop :=
  ∀ c ∈ cs, μ.value c.1 c.2 = ν.value c.1 c.2

section
variable {μ ν : SmtModel} (h : μ.Agree ν (cs ++ ds))
include h
theorem SmtModel.Agree.left : μ.Agree ν cs := fun c hc => h c (List.mem_append_left _ hc)

theorem SmtModel.Agree.right : μ.Agree ν ds := fun c hc => h c (List.mem_append_right _ hc)

end

theorem SmtTerm.eval_congr {t : SmtTerm} (h : μ.Agree ν t.consts) : t.eval μ = t.eval ν := by
  induction t with
  | boolVal b => rfl
  | bitVecVal w n => rfl
  | const name σ => exact congrArg some (h (name, σ) List.mem_cons_self)
  | ite c t f ihc iht ihf => rw [eval, eval, ihc h.left, iht h.right.left, ihf h.right.right]
  | eq l r ihl ihr | connective op l r ihl ihr | bvop op l r ihl ihr | bvrel rel l r ihl ihr
  | concat l r ihl ihr | select l r ihl ihr => rw [eval, eval, ihl h.left, ihr h.right]
  | not t ih | bvnot t ih | extract high low t ih | zeroExtend n t ih | signExtend n t ih =>
    rw [eval, eval, ih h]
  | store a i v iha ihi ihv => rw [eval, eval, iha h.left, ihi h.right.left, ihv h.right.right]

/-- Other values for constants of the right sort. -/
def SmtModel.override (μ : SmtModel) (new : String → SmtSort → Option SmtValue) : SmtModel where
  value name σ :=
    match new name σ with
    | some v => if v.sort = σ then v else μ.value name σ
    | none => μ.value name σ
  sorted name σ := by
    cases new name σ with
    | none => exact μ.sorted name σ
    | some v =>
      by_cases h : v.sort = σ
      · simp only [if_pos h]
        exact h
      · simp only [if_neg h]
        exact μ.sorted name σ

theorem SmtModel.override_some {μ : SmtModel} (h : new name σ = some v) (hv : v.sort = σ) :
    (μ.override new).value name σ = v := by simp only [override, h, if_pos hv]

theorem SmtModel.override_none {μ : SmtModel} (h : new name σ = none) :
    (μ.override new).value name σ = μ.value name σ := by simp only [override, h]

def SmtTerm.implies (l r : SmtTerm) : SmtTerm := .connective .or (.not l) r

theorem SmtTerm.eval_implies (hl : l.eval μ = some (.bool b))
    (hr : r.eval μ = some (.bool c)) : (implies l r).eval μ = some (.bool (!b || c)) :=
  eval_connective (eval_not hl) hr

def SmtModel.Satisfies (μ : SmtModel) (problem : List SmtTerm) : Prop :=
  ∀ t ∈ problem, t.eval μ = some (.bool true)

def Satisfiable (problem : List SmtTerm) : Prop := ∃ μ : SmtModel, μ.Satisfies problem

def SmtSort.default : SmtSort → SmtValue
  | .bool => .bool false
  | .bitVec w => .bits w 0
  | .array m n => .array m n fun _ => 0

instance : Inhabited SmtModel where
  default := {
    value := fun _ σ => σ.default
    sorted := by
      intro _ σ
      cases σ with
      | bool => rfl
      | bitVec w => rfl
      | array m n => rfl }

namespace SmtTerm
/-- It has a value of a sort under every interpretation. -/
def HasSort (t : SmtTerm) (σ : SmtSort) : Prop :=
  ∀ μ : SmtModel, ∃ v, t.eval μ = some v ∧ v.sort = σ

namespace HasSort
theorem bool (h : HasSort t .bool) (μ : SmtModel) : ∃ b, t.eval μ = some (.bool b) := by
  obtain ⟨v, hv, hso⟩ := h μ
  cases v with
  | bool b => exact ⟨b, hv⟩
  | bits w x => cases hso
  | array m n f => cases hso

theorem bits (h : HasSort t (.bitVec w)) (μ : SmtModel) : ∃ x, t.eval μ = some (.bits w x) := by
  obtain ⟨v, hv, hso⟩ := h μ
  cases v with
  | bool b => cases hso
  | bits w x =>
    cases hso
    exact ⟨x, hv⟩
  | array m n f => cases hso

theorem array (h : HasSort t (.array m n)) (μ : SmtModel) :
    ∃ f, t.eval μ = some (.array m n f) := by
  obtain ⟨v, hv, hso⟩ := h μ
  cases v with
  | bool b => cases hso
  | bits w x => cases hso
  | array m n f =>
    cases hso
    exact ⟨f, hv⟩

theorem sort_eq (h : HasSort t σ) : t.sort = some σ := by
  obtain ⟨v, hv, hso⟩ := h default
  rw [sort_of_eval hv, hso]

theorem isBool (h : HasSort t .bool) : t.isBool = true := by
  rw [SmtTerm.isBool, h.sort_eq]
  rfl

theorem not_isBool (h : HasSort t (.bitVec w)) : ¬t.isBool = true := by
  rw [SmtTerm.isBool, h.sort_eq]
  exact Bool.false_ne_true

theorem bvSize (h : HasSort t (.bitVec w)) : t.bvSize = w := by rw [SmtTerm.bvSize, h.sort_eq]

theorem const (name : String) (σ : SmtSort) : HasSort (.const name σ) σ :=
  fun μ => ⟨_, rfl, μ.sorted name σ⟩

theorem bitVecVal (w n : Nat) : HasSort (.bitVecVal w n) (.bitVec w) := fun _ => ⟨_, rfl, rfl⟩

theorem boolVal (b : Bool) : HasSort (.boolVal b) .bool := fun _ => ⟨_, rfl, rfl⟩

theorem ite (hc : HasSort c .bool) (ht : HasSort t σ) (hf : HasSort f σ) :
    HasSort (.ite c t f) σ := by
  intro μ
  obtain ⟨b, hb⟩ := hc.bool μ
  obtain ⟨x, hx, rfl⟩ := ht μ
  obtain ⟨y, hy, hso⟩ := hf μ
  refine ⟨_, eval_ite hb hx hy hso, ?_⟩
  cases b with
  | true => rfl
  | false => exact hso

theorem eq_bool (hl : HasSort l .bool) (hr : HasSort r .bool) : HasSort (.eq l r) .bool := by
  intro μ
  obtain ⟨b, hb⟩ := hl.bool μ
  obtain ⟨c, hc⟩ := hr.bool μ
  exact ⟨_, eval_eq_bool hb hc, rfl⟩

theorem eq_bits (hl : HasSort l (.bitVec w)) (hr : HasSort r (.bitVec w)) :
    HasSort (.eq l r) .bool := by
  intro μ
  obtain ⟨x, hx⟩ := hl.bits μ
  obtain ⟨y, hy⟩ := hr.bits μ
  exact ⟨_, eval_eq_bits hx hy, rfl⟩

theorem not (h : HasSort t .bool) : HasSort (.not t) .bool := by
  intro μ
  obtain ⟨b, hb⟩ := h.bool μ
  exact ⟨_, eval_not hb, rfl⟩

theorem bvnot (h : HasSort t (.bitVec w)) : HasSort (.bvnot t) (.bitVec w) := by
  intro μ
  obtain ⟨x, hx⟩ := h.bits μ
  exact ⟨_, eval_bvnot hx, rfl⟩

theorem bvrel (hl : HasSort l (.bitVec w)) (hr : HasSort r (.bitVec w)) :
    HasSort (.bvrel rel l r) .bool := by
  intro μ
  obtain ⟨x, hx⟩ := hl.bits μ
  obtain ⟨y, hy⟩ := hr.bits μ
  exact ⟨_, eval_bvrel hx hy, rfl⟩

theorem concat (hl : HasSort l (.bitVec w)) (hr : HasSort r (.bitVec v)) :
    HasSort (.concat l r) (.bitVec (w + v)) := by
  intro μ
  obtain ⟨x, hx⟩ := hl.bits μ
  obtain ⟨y, hy⟩ := hr.bits μ
  exact ⟨_, eval_concat hx hy, rfl⟩

section
variable (h : HasSort t (.bitVec w))
include h
theorem extract (hn : 0 < n) (hw : low + n ≤ w) :
    HasSort (.extract (low + n - 1) low t) (.bitVec n) := by
  intro μ
  obtain ⟨x, hx⟩ := h.bits μ
  have hla : low + n - 1 < w := by omega
  have hl : low + n = low + n - 1 + 1 := by omega
  exact ⟨_, eval_extract hx hla hl hn, rfl⟩

theorem zeroExtend (hm : w ≤ m) : HasSort (.zeroExtend (m - w) t) (.bitVec m) := by
  intro μ
  obtain ⟨x, hx⟩ := h.bits μ
  exact ⟨_, eval_zeroExtend hx hm, rfl⟩

theorem signExtend (hm : w ≤ m) : HasSort (.signExtend (m - w) t) (.bitVec m) := by
  intro μ
  obtain ⟨x, hx⟩ := h.bits μ
  exact ⟨_, eval_signExtend hx hm, rfl⟩

end

variable (ha : HasSort a (.array m n)) (hi : HasSort i (.bitVec m))
include ha hi
theorem select : HasSort (.select a i) (.bitVec n) := by
  intro μ
  obtain ⟨f, hf⟩ := ha.array μ
  obtain ⟨x, hx⟩ := hi.bits μ
  exact ⟨_, eval_select hf hx, rfl⟩

theorem store (hv : HasSort v (.bitVec n)) : HasSort (.store a i v) (.array m n) := by
  intro μ
  obtain ⟨f, hf⟩ := ha.array μ
  obtain ⟨x, hx⟩ := hi.bits μ
  obtain ⟨y, hy⟩ := hv.bits μ
  exact ⟨_, eval_store hf hx hy, rfl⟩

end HasSort
end SmtTerm
end Foundations
