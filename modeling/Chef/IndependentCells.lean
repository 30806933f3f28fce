import Chef.IndependentReads
import Chef.Foundations.Loops

namespace Chef
open Foundations Bool Chef.Expr Or DenseSet
open List hiding head
theorem DenseSet.add_notes : Notes (fun (r : Bool × List Nat) x =>
      if r.1 || !r.2.contains x then (true, r.2.insert x) else r)
      (fun s s' => ∀ x ∈ s, x ∈ s') (fun x s => x ∈ s) where
  refl _ _ hx := hx
  trans _ _ _ h h' x hx := h' x (h x hx)
  keeps x _ _ h hx := h x hx
  grows r x := by
    split
    · exact fun y hy => mem_insert_of_mem hy
    · exact fun _ hy => hy
  adds r x := by
    split
    · exact mem_insert_self
    next h =>
      have hm : r.1 = false ∧ x ∈ r.2 := by simpa using h
      exact hm.2
  unchanged r x h := by
    split at h
    · cases h
    next hc => exact if_neg hc

theorem DenseSet.intersects_of_mem (h : x ∈ s) (h' : x ∈ b) : intersects s b = true :=
  any_eq_true.2 ⟨x, h, contains_iff_mem.2 h'⟩

namespace IndependentElementSet
def Touches (s : IndependentElementSet) (array : KArray) (i : Nat) : Prop :=
  array ∈ s.wholeObjects ∨ ∃ dis, s.elements.lookup array = some dis ∧ i ∈ dis

def Within (s s' : IndependentElementSet) : Prop :=
  ∀ array i, s.Touches array i → s'.Touches array i

section
variable {s s' b : IndependentElementSet}
theorem Within.refl (s : IndependentElementSet) : s.Within s := fun _ _ h => h

theorem Within.trans (h : s.Within s') (h' : s'.Within s'') : s.Within s'' :=
  fun array i hs => h' array i (h array i hs)

theorem addWhole_within (s : IndependentElementSet) (array : KArray) :
    s.Within (s.addWhole array) := by
  intro a i h
  by_cases ha : a = array
  · exact inl (ha ▸ mem_insert_self)
  obtain h | ⟨dis, h, hi⟩ := h
  · exact inl (mem_insert_of_mem h)
  refine inr ⟨dis, ?_, hi⟩
  rw [addWhole, lookup_filter_ne, if_neg ha]
  exact h

theorem addWhole_touches (s : IndependentElementSet) (array : KArray) (i : Nat) :
    (s.addWhole array).Touches array i := inl mem_insert_self

section
variable (h : s.elements.lookup array = some dis)
include h
theorem setElements_lookup (a : KArray) : (s.setElements array dis').elements.lookup a =
      if a = array then some dis' else s.elements.lookup a := by
  rw [setElements]
  rw [lookup_map_at s.elements array a fun _ => dis', h]
  rfl

theorem setElements_within (hd : ∀ i ∈ dis, i ∈ dis') : s.Within (s.setElements array dis') := by
  intro a i hs
  obtain hs | ⟨dis0, hl, hi⟩ := hs
  · exact inl hs
  refine inr ?_
  rw [setElements_lookup h]
  split
  next ha =>
    rw [ha, h] at hl
    obtain rfl := Option.some.inj hl
    exact ⟨dis', rfl, hd i hi⟩
  · exact ⟨dis0, hl, hi⟩

theorem setElements_touches (hi : i ∈ dis') : (s.setElements array dis').Touches array i :=
  inr ⟨dis', by rw [setElements_lookup h, if_pos rfl], hi⟩

end

theorem append_within (s : IndependentElementSet) (e : KArray × List Nat) :
    s.Within { s with elements := s.elements ++ [e] } := by
  intro a i hs
  obtain hs | ⟨dis, hl, hi⟩ := hs
  · exact inl hs
  refine inr ⟨dis, ?_, hi⟩
  rw [lookup_append, hl]
  rfl

theorem append_touches (h : s.elements.lookup array = none) (hi : i ∈ dis) :
    ({ s with elements := s.elements ++ [(array, dis)] } : IndependentElementSet).Touches
      array i := by
  refine inr ⟨dis, ?_, hi⟩
  rw [lookup_append, h, lookup_cons_self]
  rfl

theorem intersects_of_touches (h : s.Touches array i) (h' : b.Touches array i) :
    s.intersects b = true := by
  rw [intersects, or_eq_true, any_eq_true, any_eq_true]
  obtain h | ⟨dis, hl, hi⟩ := h
  · refine inl ⟨array, h, ?_⟩
    obtain h' | ⟨dis', hl', -⟩ := h'
    · rw [contains_iff_mem.2 h', Bool.true_or]
    · rw [hl', Option.isSome_some, Bool.or_true]
  · refine inr ⟨(array, dis), mem_of_lookup hl, ?_⟩
    obtain h' | ⟨dis', hl', hi'⟩ := h'
    · rw [contains_iff_mem.2 h', Bool.true_or]
    · rw [hl', or_eq_true]
      exact inr (intersects_of_mem hi hi')

theorem includeWhole_notes : Notes includeWhole Within fun array s => ∀ i, s.Touches array i where
  refl := Within.refl
  trans _ _ _ := Within.trans
  keeps array _ _ h hs i := h array i (hs i)
  grows r array := by
    rw [includeWhole]
    split
    · exact addWhole_within _ _
    split
    · exact Within.refl _
    · intro a i h
      exact h.imp_left mem_insert_of_mem
  adds r array := by
    intro i
    rw [includeWhole]
    split
    · exact addWhole_touches _ _ _
    split
    next h => exact inl h
    · exact inl mem_insert_self
  unchanged r array h := by
    rw [includeWhole] at h ⊢
    split at h
    · cases h
    next hl =>
      split at h
      next hw => rw [if_neg hl, if_pos hw]
      · cases h

theorem includeElements_notes :
    Notes includeElements Within fun e s => ∀ i ∈ e.2, s.Touches e.1 i where
  refl := Within.refl
  trans _ _ _ := Within.trans
  keeps e _ _ h hs i hi := h e.1 i (hs i hi)
  grows r e := by
    rw [includeElements]
    split
    · exact Within.refl _
    split
    · exact append_within _ _
    next dis hl =>
      split
      · exact setElements_within hl (add_notes.foldl e.2 (false, dis)).1
      · exact Within.refl _
  adds r e := by
    intro i hi
    rw [includeElements]
    split
    next hw => exact inl hw
    · split
      next hl => exact append_touches hl hi
      next dis hl =>
        obtain ⟨-, ha, hsm⟩ := add_notes.foldl e.2 (false, dis)
        split
        · exact setElements_touches hl (ha i hi)
        next hf =>
          have heq := hsm (not_eq_true _ ▸ hf)
          have hm := ha i hi
          rw [heq] at hm
          exact inr ⟨dis, hl, hm⟩
  unchanged r e h := by
    rw [includeElements] at h ⊢
    split at h
    next hw => rw [if_pos hw]
    next hw =>
      rw [if_neg hw]
      split at h
      · cases h
      split at h
      · cases h
      next hf => rw [if_neg hf]

theorem add_spec (s b : IndependentElementSet) :
    s.Within (s.add b).2 ∧ b.Within (s.add b).2 ∧ ((s.add b).1 = false → (s.add b).2 = s) := by
  obtain ⟨hgr, hw, hs⟩ := includeWhole_notes.foldl b.wholeObjects (false, s)
  obtain ⟨hgo, he, hsame'⟩ :=
    includeElements_notes.foldl b.elements (b.wholeObjects.foldl includeWhole (false, s))
  refine ⟨hgr.trans hgo, ?_, ?_⟩
  · intro array i h
    obtain h | ⟨dis, hl, hi⟩ := h
    · exact hgo array i (hw array h i)
    · exact he (array, dis) (mem_of_lookup hl) i hi
  · intro hf
    have heq := hsame' hf
    rw [add] at hf ⊢
    rw [heq] at hf ⊢
    rw [hs hf]

end

def Covers (T : KArray → Nat → Prop) (re : ReadExpr) : Prop := re.root.isSymbolicArray = true →
    (∀ w v, re.index = .constant w v → T re.root (v % 2 ^ w % 2 ^ 32)) ∧
      (re.index.isConstant = false → ∀ i, T re.root i)

theorem Covers.mono {s s' : IndependentElementSet} (h : Covers s.Touches re) (hs : s.Within s') :
    Covers s'.Touches re := by
  intro hy
  obtain ⟨hc, hot⟩ := h hy
  exact ⟨fun w v hi => hs _ _ (hc w v hi), fun hi i => hs _ _ (hot hi i)⟩

theorem covers_of_all (h : ∀ i, T re.root i) : Covers T re :=
  fun _ => ⟨fun _ _ _ => h _, fun _ => h⟩

theorem covers_of_constant (hi : re.index = .constant w v) (h : T re.root (v % 2 ^ w % 2 ^ 32)) :
    Covers T re := by
  intro _
  refine ⟨?_, ?_⟩
  · intro w' v' hi'
    rw [hi] at hi'
    cases hi'
    exact h
  · intro hc
    rw [hi] at hc
    cases hc

theorem addRead_spec (s : IndependentElementSet) (re : ReadExpr) :
    s.Within (s.addRead re) ∧ Covers (s.addRead re).Touches re := by
  rw [addRead]
  split
  next h =>
    have hc : re.root.isSymbolicArray = false ∧ re.head = .null := by simpa using h
    refine ⟨Within.refl s, ?_⟩
    intro hs
    rw [hc.1] at hs
    cases hs
  · split
    next hw => exact ⟨Within.refl s, covers_of_all fun i => inl hw⟩
    · split
      next w v hd =>
        split
        next hl =>
          refine ⟨append_within _ _, covers_of_constant hd ?_⟩
          exact append_touches hl mem_cons_self
        next dis hl =>
          refine ⟨setElements_within hl fun i hi => mem_insert_of_mem hi, ?_⟩
          exact covers_of_constant hd (setElements_touches hl mem_insert_self)
      · exact ⟨addWhole_within _ _, covers_of_all fun i => addWhole_touches _ _ i⟩

theorem foldl_addRead (reads : List ReadExpr) (s : IndependentElementSet) :
    s.Within (reads.foldl addRead s) ∧ ∀ re ∈ reads, Covers (reads.foldl addRead s).Touches re := by
  induction reads generalizing s with
  | nil => exact ⟨Within.refl s, forall_mem_nil _⟩
  | cons re reads ih =>
    obtain ⟨hs, hc⟩ := s.addRead_spec re
    obtain ⟨hr, ha⟩ := ih (s.addRead re)
    exact ⟨hs.trans hr, forall_mem_cons.2 ⟨hc.mono hr, ha⟩⟩

end IndependentElementSet

open IndependentElementSet
/-- They only depend on each other and on some cells. -/
structure Determined (V : List Expr) (T : KArray → Nat → Prop) : Prop where
  closed : ∀ x ∈ V, ∀ k ∈ x.dependencies, k.isConstant = true ∨ k ∈ V
  covers : ∀ root head index, .read root head index ∈ V → Covers T ⟨root, head, index⟩

def SameCells (T : KArray → Nat → Prop) (ρ ρ' : Assignment) : Prop :=
  ∀ array i, T array i → ρ array i = ρ' array i

theorem Determined.initialValue (h : Determined V T) (hρ : SameCells T ρ ρ')
    (hr : .read root head index ∈ V) (ht : index.WellTyped) (hw : index.width = 32) :
    root.initialValue ρ (index.eval ρ) = root.initialValue ρ' (index.eval ρ) := by
  rw [KArray.initialValue, KArray.initialValue]
  split
  next hs =>
    obtain ⟨hc, hot⟩ := h.covers root head index hr hs
    apply hρ
    cases index with
    | constant w v =>
      have hlt := Nat.mod_lt v (Nat.two_pow_pos w)
      rw [show w = 32 from hw] at hlt ⊢
      have hl := hc 32 v (by rw [show w = 32 from hw])
      rwa [Nat.mod_eq_of_lt hlt] at hl
    | _ => exact hot rfl _
  · rfl

mutual
theorem Determined.eval (h : Determined V T) (hρ : SameCells T ρ ρ') : (e : Expr) → e.WellTyped →
    (e.isConstant = true ∨ e ∈ V) → e.eval ρ = e.eval ρ'
  | .constant w v, _, _ => by rw [Expr.eval, Expr.eval]
  | .notOptimized src, ht, he | .not src, ht, he => by
    have hk := h.closed _ (he.resolve_left false_ne_true)
    rw [Expr.eval, Expr.eval, h.eval hρ src ht (hk _ mem_cons_self)]
  | .read root head index, ht, he => by
    have hr := he.resolve_left false_ne_true
    have hk := h.closed _ hr
    have hd := h.eval hρ index ht.2.1 (hk _ mem_cons_self)
    have hi := h.initialValue hρ hr ht.2.1 ht.2.2
    rw [Expr.eval, Expr.eval, ← hd, h.valueAt hρ root hi head ht.1 fun k hm =>
      hk k (mem_cons_of_mem _ hm)]
  | .select c t f, ht, he => by
    have hk := h.closed _ (he.resolve_left false_ne_true)
    rw [Expr.eval, Expr.eval, h.eval hρ c ht.1 (hk _ (by simp [Expr.dependencies, Expr.operands])),
      h.eval hρ t ht.2.1 (hk _ (by simp [dependencies, operands])),
      h.eval hρ f ht.2.2.1 (hk _ (by simp [dependencies, operands]))]
  | .concat l r, ht, he => by
    have hk := h.closed _ (he.resolve_left false_ne_true)
    rw [Expr.eval, Expr.eval, h.eval hρ l ht.1 (hk _ mem_cons_self),
      h.eval hρ r ht.2 (hk _ (mem_cons_of_mem _ mem_cons_self))]
  | .extract src _ _, ht, he | .zext src w, ht, he | .sext src w, ht, he => by
    have hk := h.closed _ (he.resolve_left false_ne_true)
    rw [Expr.eval, Expr.eval, h.eval hρ src ht.1 (hk _ mem_cons_self)]
  | .arithmetic kind l r, ht, he | .compare kind l r, ht, he => by
    have hk := h.closed _ (he.resolve_left false_ne_true)
    rw [Expr.eval, Expr.eval, h.eval hρ l ht.1 (hk _ mem_cons_self),
      h.eval hρ r ht.2.1 (hk _ (mem_cons_of_mem _ mem_cons_self))]

theorem Determined.valueAt (h : Determined V T) (hρ : SameCells T ρ ρ') (root : KArray)
    (hi : root.initialValue ρ i = root.initialValue ρ' i) : (un : UpdateNode) → un.WellTyped →
    (∀ k ∈ un.exprs, k.isConstant = true ∨ k ∈ V) → un.valueAt ρ root i = un.valueAt ρ' root i
  | .null, _, _ => by
    exact hi
  | .node index value next, ht, hk => by
    have hr : ∀ k ∈ next.exprs, k.isConstant = true ∨ k ∈ V :=
      fun k hm => hk k (mem_cons_of_mem _ (mem_cons_of_mem _ hm))
    rw [UpdateNode.valueAt, UpdateNode.valueAt, h.eval hρ index ht.1 (hk _ mem_cons_self),
      h.eval hρ value ht.2.2.1 (hk _ (mem_cons_of_mem _ mem_cons_self)),
      h.valueAt hρ root hi next ht.2.2.2.2 hr]

end

theorem IndependentElementSet.ofExpr_spec (ht : e.WellTyped) :
    ∃ s, ofExpr e = some s ∧ ∀ ρ ρ', SameCells s.Touches ρ ρ' → e.eval ρ = e.eval ρ' := by
  obtain ⟨reads, V, hd, he, hV⟩ := findReads_spec e
  refine ⟨reads.foldl addRead ⟨[], []⟩, by rw [ofExpr, hd]; rfl, ?_⟩
  intro ρ ρ' hρ
  have hdet : Determined V (reads.foldl addRead ⟨[], []⟩).Touches := by
    refine ⟨fun x hx => (hV x hx).2, ?_⟩
    intro root head index hr
    exact (foldl_addRead reads ⟨[], []⟩).2 _ ((hV _ hr).1 root head index rfl)
  exact hdet.eval hρ e ht he

end Chef
