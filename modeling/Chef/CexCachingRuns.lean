import Chef.CexCachingSolver

namespace Chef
open Option hiding forall_mem_map or_assoc
open Foundations List Chef.Expr UpdateNode
section
variable {ρ ρ' : Assignment}
def AgreeOn (ρ ρ' : Assignment) (objects : List KArray) : Prop :=
  ∀ array ∈ objects, ∀ i, ρ array i = ρ' array i

theorem AgreeOn.left (h : AgreeOn ρ ρ' (objects ++ objects')) : AgreeOn ρ ρ' objects :=
  fun array ha => h array (mem_append_left _ ha)

theorem AgreeOn.right (h : AgreeOn ρ ρ' (objects ++ objects')) : AgreeOn ρ ρ' objects' :=
  fun array ha => h array (mem_append_right _ ha)

theorem KArray.initialValue_congr (root : KArray)
    (h : AgreeOn ρ ρ' (if root.isSymbolicArray then [root] else [])) (i : Nat) :
    root.initialValue ρ i = root.initialValue ρ' i := by
  rw [KArray.initialValue, KArray.initialValue]
  split_ifs at h ⊢
  · exact h root mem_cons_self i
  · rfl

mutual
theorem Expr.eval_congr : (e : Expr) → AgreeOn ρ ρ' e.symbolicObjects → e.eval ρ = e.eval ρ'
  | .constant _ _, _ => by rw [eval, eval]
  | .notOptimized src, h | .zext src _, h | .sext src _, h | .extract src _ _, h | .not src, h => by
    rw [eval, eval, src.eval_congr h]
  | .read root head index, h => by
    have hi := index.eval_congr h.right.right
    rw [eval, eval, hi, head.valueAt_congr root h.right.left _ h.left]
  | .select c t f, h => by
    rw [eval, eval, c.eval_congr h.left, t.eval_congr h.right.left, f.eval_congr h.right.right]
  | .concat l r, h | .arithmetic _ l r, h | .compare _ l r, h => by
    rw [eval, eval, l.eval_congr h.left, r.eval_congr h.right]

theorem UpdateNode.valueAt_congr (root : KArray)
    (hro : AgreeOn ρ ρ' (if root.isSymbolicArray then [root] else [])) (i : Nat) :
    (un : UpdateNode) → AgreeOn ρ ρ' un.symbolicObjects → un.valueAt ρ root i = un.valueAt ρ' root i
  | .null, _ => by
    rw [valueAt, valueAt, root.initialValue_congr hro]
  | .node index value next, h => by
    rw [valueAt, valueAt, index.eval_congr h.left,
      value.eval_congr h.right.left, next.valueAt_congr root hro i h.right.right]

end
end

def Assignment.InRange (ρ : Assignment) : Prop := ∀ array i, array.size ≤ i → ρ array i = 0

def Assignment.bytes (ρ : Assignment) (array : KArray) : List UInt8 :=
  (range array.size).map (ρ array)

def Bindings.Fits (a : Bindings) : Prop := ∀ binding ∈ a, binding.2.length = binding.1.size

open Bindings
section
variable {ρ : Assignment}
theorem Bindings.Fits.inRange {a : Bindings} (h : a.Fits) : Assignment.InRange a.byteAt := by
  intro array i hi
  rw [byteAt]
  cases hl : a.lookup array with
  | none => rfl
  | some bytes =>
    have hn := h _ (mem_of_lookup hl)
    rw [bind_some, List.getElem?_eq_none (hn ▸ hi)]
    rfl

theorem Bindings.Fits.bytes {a : Bindings} (h : a.Fits) (array : KArray) :
    (a.lookup array).getD (replicate array.size 0) = Assignment.bytes a.byteAt array := by
  cases hl : a.lookup array with
  | none =>
    refine (eq_replicate_iff.2 ⟨?_, ?_⟩).symm
    · rw [Assignment.bytes, length_map, length_range]
    rw [Assignment.bytes, forall_mem_map]
    intro i _
    rw [byteAt, hl]
    rfl
  | some bytes =>
    have hn : bytes.length = array.size := h _ (mem_of_lookup hl)
    apply ext_getElem
    · rw [getD_some, Assignment.bytes, length_map, length_range, hn]
    intro i hi _
    rw [getD_some] at hi
    simp only [getD_some, Assignment.bytes, getElem_map, getElem_range, byteAt, hl]
    rw [bind_some, List.getElem?_eq_getElem hi]
    rfl

theorem Bindings.lookup_zip {objects : List KArray} (f : KArray → List UInt8)
    (h : array ∈ objects) : (objects.zip (objects.map f)).lookup array = some (f array) := by
  induction objects with
  | nil => cases h
  | cons object objects ih =>
    rw [map_cons, zip_cons_cons, lookup_cons]
    by_cases heq : array = object
    · subst heq
      rw [beq_self_eq_true]
    · rw [beq_false_of_ne heq]
      exact ih (mem_of_ne_of_mem heq h)

theorem Bindings.fits_zip (ρ : Assignment) (objects : List KArray) :
    Fits (objects.zip (objects.map ρ.bytes)) := by
  intro binding hb
  rw [← map_prod_left_eq_zip] at hb
  obtain ⟨array, _, rfl⟩ := mem_map.1 hb
  rw [Assignment.bytes, length_map, length_range]

theorem Bindings.agreeOn_zip (hρ : ρ.InRange) (objects : List KArray) :
    AgreeOn (byteAt (objects.zip (objects.map ρ.bytes))) ρ objects := by
  intro array ha i
  rw [byteAt, lookup_zip _ ha, bind_some, Assignment.bytes, List.getElem?_map]
  by_cases hi : i < array.size
  · rw [List.getElem?_range hi]
    rfl
  · rw [List.getElem?_eq_none (by simpa using hi), hρ array i (not_lt.1 hi)]
    rfl

end

section
variable (nodes : Store ConditionNode)
/-- The assignments of the constraints, zero behind the end of arrays. -/
def Query.solutions (q : Query) : Set Assignment := {ρ | ρ.InRange ∧ ρ ∈ q.models nodes}

def Query.ValuesRight (q : Query) (objects : List KArray) : Option (List (List UInt8)) → Prop
  | none => q.expr.ValidIn (q.solutions nodes)
  | some values => ∃ ρ ∈ q.solutions nodes, q.expr.eval ρ ≠ 1 ∧ values = objects.map ρ.bytes

structure Query.Typed (q : Query) : Prop where
  path : (q.constraints.path nodes).isSome = true
  conditions : ∀ k ∈ q.conditions nodes, k.IsBool
  expr : q.expr.WellTyped

def CexSolverImpl.Sound (solver : CexSolverImpl) : Prop :=
  ∀ q objects answer, q.Typed nodes → q.expr.width = 1 →
    solver.computeInitialValues q objects = some answer → q.ValuesRight nodes objects answer

structure Query.Steady (q : Query) : Prop where
  conditions : ∀ k ∈ q.conditions nodes, ∀ ρ : Assignment, ρ.InRange → k.Steady ρ
  expr : ∀ ρ : Assignment, ρ.InRange → q.expr.Steady ρ

end

theorem Query.mem_models {q : Query} (h : (q.constraints.path nodes).isSome = true) :
    ρ ∈ q.models nodes ↔ HoldAt ρ (q.conditions nodes) := by
  obtain ⟨l, hl⟩ := isSome_iff_exists.1 h
  refine (ConstraintManager.satisfied_iff hl).trans ?_
  rw [HoldAt, Query.conditions, hl, getD_some]
  simp only [mem_reverse, forall_mem_map]
  exact Iff.rfl

namespace CexCachingSolver
def KeyRight (key : List Expr) : Option Bindings → Prop
  | none => ∀ ρ : Assignment, ρ.InRange → ¬HoldAt ρ key
  | some a => a.Fits ∧ HoldAt a.byteAt key

structure Inv (s : CexCachingSolver) : Prop where
  cache : s.cache.Stores a key → KeyRight key a
  table : ∀ a ∈ s.assignmentsTable, a.Fits

theorem mem_insertKey : e ∈ insertKey order k key ↔ e = k ∨ e ∈ key := by
  induction key with
  | nil => exact mem_cons
  | cons k' key ih =>
    rw [insertKey]
    split
    · exact mem_cons
    next heq =>
      rw [order.eq_of_compare _ _ heq, mem_cons]
      exact or_self_left.symm
    · rw [mem_cons, ih, mem_cons]
      exact or_left_comm

theorem mem_keyOf : e ∈ keyOf order es ↔ e ∈ es := by
  have hfo (key : List Expr) :
      e ∈ es.foldl (fun key e => insertKey order e key) key ↔ e ∈ key ∨ e ∈ es := by
    induction es generalizing key with
    | nil => simp
    | cons k es ih =>
      rw [foldl_cons, ih, mem_insertKey, mem_cons, or_assoc]
      exact or_left_comm
  rw [keyOf, hfo]
  simp

theorem holdAt_keyOf : HoldAt ρ (keyOf order es) ↔ HoldAt ρ es :=
  forall_congr' fun _ => imp_congr_left mem_keyOf

theorem holdAt_insertKey : HoldAt ρ (insertKey order k key) ↔ k.eval ρ = 1 ∧ HoldAt ρ key := by
  rw [HoldAt]
  simp only [mem_insertKey]
  exact forall_eq_or_imp

theorem holdAt_subset (h : HoldAt ρ key) (hs : key' ⊆ key) : HoldAt ρ key' :=
  fun k hk => h k (hs hk)

section
variable {e : Expr}
def SteadyKey (key : List Expr) : Prop :=
  ∀ k ∈ key, k.IsBool ∧ ∀ ρ : Assignment, ρ.InRange → k.Steady ρ

theorem eval_of_assign (hA : A.Signed) {a : Bindings} (ht : e.WellTyped) (hs : e.Steady a.byteAt)
    (h : e.assign A a = .constant w v) : v % 2 ^ w = e.eval a.byteAt := by
  have he := (e.assign_right hA a ht hs).eval_eq
  rw [h] at he
  exact he

theorem holdAt_of_satisfies (hA : A.Signed) {a : Bindings} (hft : a.Fits) (hy : SteadyKey key)
    (h : a.satisfies A key = true) : HoldAt a.byteAt key := by
  intro k hk
  obtain ⟨hbo, hs⟩ := hy k hk
  have ht := all_eq_true.1 h k hk
  rw [isTrue.eq_def] at ht
  split at ht
  next w v hc =>
    rw [← eval_of_assign hA hbo.wellTyped (hs _ hft.inRange) hc]
    exact beq_iff_eq.1 ht
  · cases ht

theorem searchForAssignment_right (hA : S.A.Signed) (hinv : Inv s) (hk : SteadyKey key)
    (h : searchForAssignment S key s = some a) : KeyRight key a := by
  have hu {key'} (h : s.cache.Stores none key') (hs : key' ⊆ key) : KeyRight key none :=
    fun ρ hρ ho => hinv.cache h ρ hρ (holdAt_subset ho hs)
  rcases or_eq_some_iff.1 h with h | ⟨_, h⟩
  · exact hinv.cache (SetTrie.stores_of_lookup S.order.eq_of_compare _ _ h)
  rcases or_eq_some_iff.1 h with h | ⟨_, h⟩
  · obtain ⟨key', ht, hs, hm⟩ := SetTrie.stores_of_findSuperset S.order.eq_of_compare _ _ h
    obtain ⟨b, rfl⟩ := isSome_iff_exists.1 hm
    obtain ⟨hft, ho⟩ := hinv.cache ht
    exact ⟨hft, holdAt_subset ho hs⟩
  · split at h
    · rcases or_eq_some_iff.1 h with h | ⟨_, h⟩
      · obtain ⟨key', ht, hs, hno⟩ := SetTrie.stores_of_findSubset S.order.eq_of_compare _ _ h
        obtain rfl := isNone_iff_eq_none.1 hno
        exact hu ht hs
      obtain ⟨b, hb, rfl⟩ := map_eq_some_iff.1 h
      have hft := hinv.table b (mem_of_find?_eq_some hb)
      have hp := List.find?_some hb
      exact ⟨hft, holdAt_of_satisfies hA hft hk hp⟩
    · obtain ⟨key', ht, hs, hp⟩ := SetTrie.stores_of_findSubset S.order.eq_of_compare _ _ h
      cases a with
      | none => exact hu ht hs
      | some b =>
        have hft := (hinv.cache ht).1
        exact ⟨hft, holdAt_of_satisfies hA hft hk hp⟩

end

structure Asked (nodes : Store ConditionNode) (q : Query) : Prop where
  typed : q.Typed nodes
  steady : q.Steady nodes

def CexRight (nodes : Store ConditionNode) (q : Query) : Option Bindings → Prop
  | none => q.expr.ValidIn (q.solutions nodes)
  | some a => a.Fits ∧ a.byteAt ∈ q.solutions nodes ∧ q.expr.eval a.byteAt ≠ 1

section
variable {S : Setup} {solver : CexSolverImpl}
/-- Conditions that exactly the counterexamples to a query satisfy. -/
structure IsKey (nodes : Store ConditionNode) (q : Query) (key : List Expr) : Prop where
  steady : SteadyKey key
  holdAt_iff : HoldAt ρ key ↔ ρ ∈ q.models nodes ∧ q.expr.eval ρ ≠ 1

theorem IsKey.cexRight (hk : IsKey nodes q key) (h : KeyRight key a) : CexRight nodes q a := by
  cases a with
  | none =>
    intro ρ hρ
    by_contra hne
    exact h ρ hρ.1 (hk.holdAt_iff.2 ⟨hρ.2, hne⟩)
  | some a =>
    obtain ⟨hm, hne⟩ := hk.holdAt_iff.1 h.2
    exact ⟨h.1, ⟨h.1.inRange, hm⟩, hne⟩

theorem Asked.isBool (hq : Asked nodes q) (hw : q.expr.width = 1) : q.expr.IsBool :=
  ⟨hq.typed.expr, hw⟩

theorem Asked.conditions_key (hq : Asked nodes q) (order : ExprOrder) :
    SteadyKey (keyOf order (q.conditions nodes)) := by
  intro k hk
  have hk := mem_keyOf.1 hk
  exact ⟨hq.typed.conditions k hk, hq.steady.conditions k hk⟩

theorem Asked.neg_steady (hq : Asked nodes q) (hw : q.expr.width = 1) :
    (createIsZero q.expr).IsBool ∧
      ∀ ρ : Assignment, ρ.InRange → (createIsZero q.expr).Steady ρ := by
  have hbo := hq.isBool hw
  refine ⟨hbo.createIsZero, fun ρ hρ => ?_⟩
  exact (createIsZero_isCondition ⟨hbo.wellTyped, hw, hq.steady.expr ρ hρ⟩).steady

theorem lookupAssignment_right (hA : S.A.Signed) (hinv : Inv s) (hq : Asked S.nodes q)
    (hw : q.expr.width = 1) (h : lookupAssignment S q s = (key, r)) :
    (∀ a, r = some a → CexRight S.nodes q a) ∧ (r = none → IsKey S.nodes q key) := by
  have hn := fun ρ => (hq.isBool hw).createIsZero_eval ρ
  have hconds {ρ} : HoldAt ρ (keyOf S.order (q.conditions S.nodes)) ↔ ρ ∈ q.models S.nodes :=
    holdAt_keyOf.trans (Query.mem_models hq.typed.path).symm
  have hf {key'} (hy : IsKey S.nodes q key') :
      ∀ a, searchForAssignment S key' s = some a → CexRight S.nodes q a :=
    fun a ha => hy.cexRight (searchForAssignment_right hA hinv hy.steady ha)
  rw [lookupAssignment] at h
  split at h
  next w v hc =>
    rw [hc] at hn
    split at h
    next hz =>
      cases h
      refine ⟨?_, by rintro ⟨⟩⟩
      rintro a ⟨⟩
      intro ρ _
      by_contra hne
      have ho := (hn ρ).2 hne
      rw [eval, hz] at ho
      cases ho
    next hz =>
      cases h
      have hy : IsKey S.nodes q (keyOf S.order (q.conditions S.nodes)) := by
        refine ⟨hq.conditions_key _, fun {ρ} => hconds.trans ?_⟩
        have hb := (hq.isBool hw).createIsZero.eval_cases ρ
        rw [hc, eval] at hb
        have hne := (hn ρ).1 (hb.resolve_left hz)
        exact (and_iff_left hne).symm
      exact ⟨hf hy, fun _ => hy⟩
  · cases h
    have hy : IsKey S.nodes q
        (insertKey S.order (createIsZero q.expr) (keyOf S.order (q.conditions S.nodes))) := by
      refine ⟨fun k hk => ?_, fun {ρ} => ?_⟩
      · rcases mem_insertKey.1 hk with rfl | hk
        · exact hq.neg_steady hw
        · exact hq.conditions_key _ k hk
      · rw [holdAt_insertKey, hn, hconds]
        exact and_comm
    exact ⟨hf hy, fun _ => hy⟩

theorem Inv.insert (hinv : Inv s) (h : KeyRight key a) (ht : ∀ a ∈
    assignments, a.Fits) : Inv ⟨s.cache.insert S.order.compare a key, assignments⟩ where
  cache hs := by
    rcases SetTrie.stores_insert S.order.eq_of_compare _ _ _ hs with ⟨rfl, rfl⟩ | hs
    · exact h
    · exact hinv.cache hs
  table := ht

theorem keyRight_of_values (hy : IsKey nodes q key)
    (h : q.ValuesRight nodes (findSymbolicObjects key) (some values)) :
    KeyRight key (some ((findSymbolicObjects key).zip values)) := by
  obtain ⟨ρ, ⟨hρ, hm⟩, hne, rfl⟩ := h
  refine ⟨fits_zip ρ _, fun k hk => ?_⟩
  have ha := agreeOn_zip hρ (findSymbolicObjects key)
  rw [k.eval_congr fun array hr => ha array ?_]
  · exact hy.holdAt_iff.2 ⟨hm, hne⟩ k hk
  · exact mem_eraseDups.2 (mem_flatMap.2 ⟨k, hk, hr⟩)

theorem keyRight_of_none (hk : IsKey nodes q key) (h : q.ValuesRight nodes objects none) :
    KeyRight key none := by
  intro ρ hρ ho
  obtain ⟨hm, hne⟩ := hk.holdAt_iff.1 ho
  exact hne (h ρ ⟨hρ, hm⟩)

theorem getAssignment_right (hA : S.A.Signed) (hsd : solver.Sound S.nodes) (hinv : Inv s)
    (hq : Asked S.nodes q) (hw : q.expr.width = 1) (h : getAssignment S solver q s = (r, s')) :
    Inv s' ∧ ∀ a, r = some a → CexRight S.nodes q a := by
  rw [getAssignment] at h
  split at h
  next key result hl =>
    cases h
    exact ⟨hinv, (lookupAssignment_right hA hinv hq hw hl).1⟩
  next key hl =>
    have hk := (lookupAssignment_right hA hinv hq hw hl).2 rfl
    simp only at h
    split at h
    · cases h
      exact ⟨hinv, nofun⟩
    next values hv =>
      cases h
      have hr := keyRight_of_values hk (hsd q _ _ hq.typed hw hv)
      have ht : ∀ a ∈ (if (findSymbolicObjects key).zip values ∈ s.assignmentsTable then
          s.assignmentsTable else s.assignmentsTable ++ [(findSymbolicObjects key).zip values]),
          a.Fits := by
        split
        · exact hinv.table
        · exact forall_mem_append.2 ⟨hinv.table, forall_mem_singleton.2 hr.1⟩
      refine ⟨hinv.insert hr ht, fun a ha => ?_⟩
      cases ha
      exact hk.cexRight hr
    next hv =>
      cases h
      have hr := keyRight_of_none hk (hsd q _ _ hq.typed hw hv)
      refine ⟨hinv.insert hr hinv.table, fun a ha => ?_⟩
      cases ha
      exact hk.cexRight hr

end

section
variable {S : Setup} {solver : CexSolverImpl}
theorem Asked.withFalse (hq : Asked nodes q) : Asked nodes q.withFalse :=
  ⟨⟨hq.typed.path, hq.typed.conditions, Nat.one_lt_two_pow_iff.2 Nat.one_ne_zero |>.le⟩,
    ⟨hq.steady.conditions, fun _ _ => trivial⟩⟩

theorem Asked.negateExpr (hq : Asked nodes q) (hw : q.expr.width = 1) :
    Asked nodes q.negateExpr ∧ q.negateExpr.expr.width = 1 := by
  obtain ⟨hbo, hs⟩ := hq.neg_steady hw
  exact ⟨⟨⟨hq.typed.path, hq.typed.conditions, hbo.wellTyped⟩, ⟨hq.steady.conditions, hs⟩⟩,
    hbo.width_eq⟩

variable (hA : S.A.Signed)
include hA
variable (hsd : solver.Sound S.nodes)
include hsd
variable (hinv : Inv s) (hq : Asked S.nodes q)
include hinv hq
theorem evaluateSome_right (h : evaluateSome S solver q s = .ok (r, s')) :
    Inv s' ∧ ∀ v, r = some v → ∃ ρ ∈ q.solutions S.nodes, q.expr.eval ρ = v := by
  rw [evaluateSome] at h
  split at h
  next hg =>
    cases h
    exact ⟨(getAssignment_right hA hsd hinv hq.withFalse rfl hg).1, nofun⟩
  · cases h
  next a s1 hg =>
    obtain ⟨hinv', hr⟩ := getAssignment_right hA hsd hinv hq.withFalse rfl hg
    obtain ⟨hft, hs, _⟩ := hr _ rfl
    split at h
    next w v hc =>
      cases h
      refine ⟨hinv', fun v' hv' => ⟨a.byteAt, hs, ?_⟩⟩
      cases hv'
      exact (eval_of_assign hA hq.typed.expr (hq.steady.expr _ hft.inRange) hc).symm
    · cases h

variable (hw : q.expr.width = 1)
include hw
theorem decideBy_right (h : decideBy S solver q known s = (r, s')) :
    Inv s' ∧ ∀ v, r = some v → (v = known ∧ q.expr.ValidIn (q.solutions S.nodes)) ∨
      (v = .unknown ∧ ∃ ρ ∈ q.solutions S.nodes, q.expr.eval ρ ≠ 1) := by
  rw [decideBy] at h
  split at h
  next hg =>
    cases h
    exact ⟨(getAssignment_right hA hsd hinv hq hw hg).1, nofun⟩
  next a s1 hg =>
    cases h
    obtain ⟨hinv', hr⟩ := getAssignment_right hA hsd hinv hq hw hg
    refine ⟨hinv', fun v hv => ?_⟩
    cases hv
    have hr := hr a rfl
    cases a with
    | none => exact .inl ⟨rfl, hr⟩
    | some a => exact .inr ⟨rfl, a.byteAt, hr.2⟩

theorem computeValidity_right (h : computeValidity S solver q s = .ok (r, s')) :
    Inv s' ∧ ∀ v, r = some v → v.Right (q.solutions S.nodes) q.expr := by
  obtain ⟨⟨known, s1⟩, hs, h⟩ := map_ok_iff.1 h
  obtain ⟨hi1, hr⟩ := evaluateSome_right hA hsd hinv hq hs
  cases known with
  | none =>
    cases h
    exact ⟨hi1, nofun⟩
  | some value =>
    obtain ⟨ρ, hρ, hl⟩ := hr value rfl
    simp only at h
    split at h
    next hoe =>
      obtain ⟨hinv', hc⟩ := decideBy_right hA hsd hi1 hq hw h
      refine ⟨hinv', fun v hv => ?_⟩
      rcases hc v hv with ⟨rfl, hvd⟩ | ⟨rfl, hot⟩
      · exact hvd
      · exact ⟨⟨ρ, hρ, hl.trans hoe⟩, hot⟩
    next hoe =>
      obtain ⟨hqn, hwn⟩ := hq.negateExpr hw
      have hn := fun ρ => (hq.isBool hw).createIsZero_eval ρ
      obtain ⟨hinv', hc⟩ := decideBy_right hA hsd hi1 hqn hwn h
      refine ⟨hinv', fun v hv => ?_⟩
      rcases hc v hv with ⟨rfl, hvd⟩ | ⟨rfl, ρ', hρ', hne⟩
      · exact fun ρ hρ => (hn ρ).1 (hvd ρ hρ)
      · have hone' : q.expr.eval ρ' = 1 := not_not.1 (mt (hn ρ').2 hne)
        exact ⟨⟨ρ', hρ', hone'⟩, ρ, hρ, hl ▸ hoe⟩

theorem computeTruth_right (h : computeTruth S solver q s = (r, s')) :
    Inv s' ∧ ∀ b, r = some b → (b = true ↔ q.expr.ValidIn (q.solutions S.nodes)) := by
  rw [computeTruth] at h
  split at h
  next hg =>
    cases h
    exact ⟨(getAssignment_right hA hsd hinv hq hw hg).1, nofun⟩
  next a s1 hg =>
    cases h
    obtain ⟨hinv', hr⟩ := getAssignment_right hA hsd hinv hq hw hg
    refine ⟨hinv', fun b hb => ?_⟩
    cases hb
    have hr := hr a rfl
    cases a with
    | none => exact iff_of_true rfl hr
    | some a => exact iff_of_false nofun fun hvd => hr.2.2 (hvd _ hr.2.1)

theorem computeInitialValues_right (h : computeInitialValues S solver q objects s = (r, s')) :
    Inv s' ∧ ∀ answer, r = some answer → q.ValuesRight S.nodes objects answer := by
  rw [computeInitialValues] at h
  split at h
  next hg =>
    cases h
    exact ⟨(getAssignment_right hA hsd hinv hq hw hg).1, nofun⟩
  next hg =>
    cases h
    obtain ⟨hinv', hr⟩ := getAssignment_right hA hsd hinv hq hw hg
    refine ⟨hinv', fun answer ha => ?_⟩
    cases ha
    exact hr none rfl
  next a s1 hg =>
    cases h
    obtain ⟨hinv', hr⟩ := getAssignment_right hA hsd hinv hq hw hg
    refine ⟨hinv', fun answer ha => ?_⟩
    cases ha
    obtain ⟨hft, hs, hne⟩ := hr (some a) rfl
    refine ⟨a.byteAt, hs, hne, map_congr_left fun array _ => ?_⟩
    exact hft.bytes array

end

inductive CallKind where
  | validity
  | truth
  | value
  | initialValues (objects : List KArray)

structure Call where
  solver : CexSolverImpl
  query : Query
  kind : CallKind

def Call.fits (call : Call) : Prop :=
  match call.kind with
  | .value => True
  | _ => call.query.expr.width = 1

structure Call.Fair (nodes : Store ConditionNode) (call : Call) : Prop where
  typed : call.query.Typed nodes
  fits : call.fits
  sound : call.solver.Sound nodes

def handle (S : Setup) (s : CexCachingSolver) (call : Call) : Except CexFault CexCachingSolver :=
  match call.kind with
  | .validity => (computeValidity S call.solver call.query s).map Prod.snd
  | .truth => .ok (computeTruth S call.solver call.query s).2
  | .value => (computeValue S call.solver call.query s).map Prod.snd
  | .initialValues objects => .ok (computeInitialValues S call.solver call.query objects s).2

def machine (S : Setup) : Machine CexCachingSolver Call where
  init s := s = ⟨.empty, []⟩
  step s call s' := handle S s call = .ok s'

theorem handle_inv (hA : S.A.Signed) (hinv : Inv s) (hc : call.Fair S.nodes)
    (hs : call.query.Steady S.nodes) (h : handle S s call = .ok s') : Inv s' := by
  obtain ⟨solver, q, kind⟩ := call
  have hq : Asked S.nodes q := ⟨hc.typed, hs⟩
  cases kind with
  | validity =>
    obtain ⟨⟨r, s1⟩, hr, rfl⟩ := map_ok_iff.1 h
    exact (computeValidity_right hA hc.sound hinv hq hc.fits hr).1
  | truth =>
    cases h
    exact (computeTruth_right hA hc.sound hinv hq hc.fits rfl).1
  | value =>
    obtain ⟨⟨r, s1⟩, hr, rfl⟩ := map_ok_iff.1 h
    exact (evaluateSome_right hA hc.sound hinv hq hr).1
  | initialValues objects =>
    cases h
    exact (computeInitialValues_right hA hc.sound hinv hq hc.fits rfl).1

theorem reachable_inv (hA : S.A.Signed) (h : (machine S).Reachable
      (fun _ call => call.Fair S.nodes ∧ call.query.Steady S.nodes) s) : Inv s := by
  apply h.invariant
  · intro s hs
    subst hs
    exact ⟨fun ht => absurd ht (SetTrie.not_stores_empty _ _), nofun⟩
  · intro s call s' hinv hc hstep
    exact handle_inv hA hinv hc.1 hc.2 hstep

def RightAnswer (S : Setup) (s : CexCachingSolver) (call : Call) : Prop :=
  match call.kind with
  | .validity => ∀ v s', computeValidity S call.solver call.query s = .ok (some v, s') →
    v.Right (call.query.solutions S.nodes) call.query.expr
  | .truth => ∀ b s', computeTruth S call.solver call.query s = (some b, s') →
    (b = true ↔ call.query.expr.ValidIn (call.query.solutions S.nodes))
  | .value => ∀ v s', computeValue S call.solver call.query s = .ok (some v, s') →
    ∃ ρ ∈ call.query.solutions S.nodes, call.query.expr.eval ρ = v
  | .initialValues objects => ∀ answer s',
    computeInitialValues S call.solver call.query objects s = (some answer, s') →
    call.query.ValuesRight S.nodes objects answer

/-- After any history of steady queries all answers are right. -/
theorem answers_of_steady (S : Setup) (hA : S.A.Signed)
    (h : (machine S).Reachable (fun _ call => call.Fair S.nodes ∧ call.query.Steady S.nodes) s)
    (hcall : call.Fair S.nodes) (hsteady : call.query.Steady S.nodes) : RightAnswer S s call := by
  have hinv := reachable_inv hA h
  obtain ⟨solver, q, kind⟩ := call
  have hq : Asked S.nodes q := ⟨hcall.typed, hsteady⟩
  cases kind with
  | validity =>
    intro v s' hr
    exact (computeValidity_right hA hcall.sound hinv hq hcall.fits hr).2 v rfl
  | truth =>
    intro b s' hr
    exact (computeTruth_right hA hcall.sound hinv hq hcall.fits hr).2 b rfl
  | value =>
    intro v s' hr
    exact (evaluateSome_right hA hcall.sound hinv hq hr).2 v rfl
  | initialValues objects =>
    intro answer s' hr
    exact (computeInitialValues_right hA hcall.sound hinv hq hcall.fits hr).2 answer rfl

def oneByte : KArray := ⟨0, 1, []⟩

def theByte : Expr := .read oneByte .null (.constant 32 0)

def byteSet : Assignment := fun array i => if array = oneByte ∧ i = 0 then 128 else 0

def byteConditions : Store ConditionNode :=
  ⟨[⟨none, none, []⟩, ⟨some 0, some (.compare .eq (.constant 8 128) theByte), []⟩]⟩

def byteQuery (e : Expr) : Query := ⟨⟨0, 1⟩, e⟩

def byteSetup : Setup where
  A := APInt.llvm
  order := ⟨fun a b => if a = b then .eq else .lt, fun a b h => by
    split at h
    · assumption
    · cases h⟩
  nodes := byteConditions
  cexCacheTryAll := false

def byteSolver : CexSolverImpl where
  computeInitialValues q objects :=
    if q.constraints = ⟨0, 1⟩ ∧ q.expr.eval byteSet ≠ 1 then some (some (objects.map byteSet.bytes))
    else none

theorem byteSet_inRange : byteSet.InRange := by
  intro array i hi
  rw [byteSet, if_neg]
  rintro ⟨rfl, rfl⟩
  exact absurd hi (by decide)

theorem theByte_eval (ρ : Assignment) : theByte.eval ρ = (ρ oneByte 0).toNat := by
  have hs : oneByte.isSymbolicArray = true := rfl
  rw [theByte, eval, valueAt, KArray.initialValue, if_pos hs, eval, Nat.zero_mod]

theorem mem_byteModels : ρ ∈ (byteQuery e).models byteConditions ↔ ρ oneByte 0 = 128 := by
  rw [Query.mem_models rfl]
  have hc : (byteQuery e).conditions byteConditions =
      [.compare .eq (.constant 8 128) theByte] := rfl
  rw [hc, holdAt_singleton]
  rw [eval, theByte_eval, eval]
  change (128#8 == BitVec.ofNat 8 (ρ oneByte 0).toNat).toNat = 1 ↔ _
  rw [Bool.toNat_eq_one, beq_iff_eq, eq_comm, ← BitVec.toNat_inj, BitVec.toNat_ofNat,
    Nat.mod_eq_of_lt (ρ oneByte 0).toNat_lt, ← UInt8.toNat_inj]
  exact Iff.rfl

theorem byteSolver_sound : byteSolver.Sound byteConditions := by
  intro q objects answer _ _ h
  obtain ⟨⟨hcm, hne⟩, ha⟩ := ite_none_right_eq_some.1 h
  cases ha
  obtain ⟨constraints, e⟩ := q
  cases hcm
  exact ⟨byteSet, ⟨byteSet_inRange, mem_byteModels.2 rfl⟩, hne, rfl⟩

theorem byteCondition_isBool : ∀ k ∈ [compare .eq (.constant 8 128) theByte], k.IsBool :=
  forall_mem_singleton.2 ⟨by decide, rfl⟩

theorem byteQuery_typed (he : e.WellTyped) : (byteQuery e).Typed byteConditions :=
  ⟨rfl, byteCondition_isBool, he⟩

def byteIsOne : Expr := .compare .eq (.constant 8 1) theByte

theorem byteIsOne_steady : (byteQuery byteIsOne).Steady byteConditions := by
  have hr (ρ : Assignment) : theByte.Steady ρ := ⟨trivial, trivial, nofun⟩
  exact ⟨forall_mem_singleton.2 fun ρ _ => ⟨trivial, hr ρ⟩, fun ρ _ => ⟨trivial, hr ρ⟩⟩

def afterTruth : CexCachingSolver :=
  (computeTruth byteSetup byteSolver (byteQuery byteIsOne) ⟨.empty, []⟩).2

theorem solution_after_truth :
    (computeInitialValues byteSetup byteSolver (byteQuery byteIsOne).withFalse [oneByte]
      afterTruth).1 = some (some [[128]]) ∧
    (byteQuery byteIsOne).withFalse.ValuesRight byteConditions [oneByte] (some [[128]]) := by
  have hf : Call.Fair byteConditions ⟨byteSolver, byteQuery byteIsOne, .truth⟩ :=
    ⟨byteQuery_typed (by decide), rfl, byteSolver_sound⟩
  have hs : (machine byteSetup).step ⟨.empty, []⟩ ⟨byteSolver, byteQuery byteIsOne, .truth⟩
      afterTruth := rfl
  have hre : (machine byteSetup).Reachable
      (fun _ call => call.Fair byteConditions ∧ call.query.Steady byteConditions) afterTruth :=
    .step (.init rfl) ⟨hf, byteIsOne_steady⟩ hs
  have ha : (computeInitialValues byteSetup byteSolver (byteQuery byteIsOne).withFalse [oneByte]
      afterTruth).1 = some (some [[128]]) := by decide +kernel
  have hr : RightAnswer byteSetup afterTruth
      ⟨byteSolver, (byteQuery byteIsOne).withFalse, .initialValues [oneByte]⟩ :=
    answers_of_steady byteSetup APInt.llvm_signed hre
      ⟨byteQuery_typed (by decide), rfl, byteSolver_sound⟩
      ⟨byteIsOne_steady.conditions, fun _ _ => trivial⟩
  exact ⟨ha, hr _ _ (Prod.ext ha rfl)⟩

def signOnly : Expr := .compare .eq (.constant 8 255) (.arithmetic .ashr theByte (.constant 8 8))

/-- The shift is evaluated in another way than by the solver. -/
theorem signOnly_unknown : Call.Fair byteConditions ⟨byteSolver, byteQuery signOnly, .validity⟩ ∧
    ¬RightAnswer byteSetup ⟨.empty, []⟩ ⟨byteSolver, byteQuery signOnly, .validity⟩ := by
  refine ⟨⟨byteQuery_typed (by decide), rfl, byteSolver_sound⟩, fun h => ?_⟩
  have hn : (computeValidity byteSetup byteSolver (byteQuery signOnly) ⟨.empty, []⟩).toOption.map
      Prod.fst = some (some .unknown) := by decide +kernel
  obtain ⟨⟨r, s'⟩, hr, rfl⟩ := ok_of_toOption_map hn
  obtain ⟨_, ρ, hρ, hne⟩ := h _ _ hr
  have hb := mem_byteModels.1 hρ.2
  apply hne
  change signOnly.eval ρ = 1
  rw [signOnly, eval, eval, eval, eval, theByte_eval, hb]
  decide

end CexCachingSolver
end Chef
