import Chef.Foundations.Loops
import Chef.Foundations.Transition

namespace Chef
open Foundations List Function
inductive WeightFault where
  | alreadyInTree
  | notInTree
  | notInSet
  deriving DecidableEq

abbrev DiscretePDF (α ω : Type) := α → Option ω

structure WeightedRandomSelector (α ω : Type) where
  setContainer : List α
  pdfContainer : DiscretePDF α ω

inductive WeightedOp (α ω : Type) where
  | insert (i : Nat) (value : α) (weight : α → ω)
  | erase (i : Nat) (value : α)
  | updateWeights (i : Nat) (weight : α → ω)
  | clear (i : Nat)
  | copy (i other : Nat)
  | assign (i other : Nat)

variable [DecidableEq α]
namespace DiscretePDF
variable (t : DiscretePDF α ω)
def insert (v : α) (w : ω) : Except WeightFault (DiscretePDF α ω) :=
  if (t v).isSome then .error .alreadyInTree else .ok (update t v (some w))

def update (v : α) (w : ω) : Except WeightFault (DiscretePDF α ω) :=
  if (t v).isSome then .ok (Function.update t v (some w)) else .error .notInTree

def remove (v : α) : Except WeightFault (DiscretePDF α ω) :=
  if (t v).isSome then .ok (Function.update t v none) else .error .notInTree

def getWeight (v : α) : Except WeightFault ω := (t v).elim (.error .notInTree) .ok

end DiscretePDF

open DiscretePDF
namespace WeightedRandomSelector
variable (x : WeightedRandomSelector α ω)
def insert (v : α) (weight : α → ω) : Except WeightFault (WeightedRandomSelector α ω) :=
  if v ∈ x.setContainer then .ok x
  else (x.pdfContainer.insert v (weight v)).map fun t => ⟨v :: x.setContainer, t⟩

def erase (v : α) : Except WeightFault (WeightedRandomSelector α ω) :=
  if v ∈ x.setContainer then
    (x.pdfContainer.remove v).map fun t => ⟨x.setContainer.filter (· ≠ v), t⟩
  else .ok x

def updateWeights (weight : α → ω) : Except WeightFault (WeightedRandomSelector α ω) :=
  (x.setContainer.foldlM (fun t v => update t v (weight v)) x.pdfContainer).map
    fun t => { x with pdfContainer := t }

def clear : Except WeightFault (WeightedRandomSelector α ω) :=
  (x.setContainer.foldlM remove x.pdfContainer).map fun t => ⟨[], t⟩

def takeOver (t : DiscretePDF α ω) (other : WeightedRandomSelector α ω) :
    Except WeightFault (WeightedRandomSelector α ω) :=
  (other.setContainer.foldlM (fun t v => other.pdfContainer.getWeight v >>= t.insert v) t).map
    fun t => ⟨other.setContainer, t⟩

def select (choice : α) : Except WeightFault α :=
  if choice ∈ x.setContainer then .ok choice else .error .notInSet

/-- It inserts into the existing tree; a copy has a new one. -/
def apply (s : Nat → WeightedRandomSelector α ω) :
    WeightedOp α ω → Except WeightFault (Nat → WeightedRandomSelector α ω)
  | .insert i v weight => ((s i).insert v weight).map (update s i)
  | .erase i v => ((s i).erase v).map (update s i)
  | .updateWeights i weight => ((s i).updateWeights weight).map (update s i)
  | .clear i => (s i).clear.map (update s i)
  | .copy i other => (takeOver (fun _ => none) (s other)).map (update s i)
  | .assign i other => (takeOver (s i).pdfContainer (s other)).map (update s i)

structure Exact : Prop where
  nodup : x.setContainer.Nodup
  mem_iff : (x.pdfContainer v).isSome ↔ v ∈ x.setContainer

def ToEmpty (s : Nat → WeightedRandomSelector α ω) (op : WeightedOp α ω) : Prop :=
  ∀ i other, op = .assign i other → (s i).setContainer = []

section
variable {x} (hx : x.Exact)
include hx
theorem Exact.insert (v : α) (weight : α → ω) : ∃ y, x.insert v weight = .ok y ∧ y.Exact := by
  rw [WeightedRandomSelector.insert]
  split
  · exact ⟨x, rfl, hx⟩
  next hv =>
    rw [DiscretePDF.insert, if_neg (mt hx.mem_iff.1 hv)]
    refine ⟨_, rfl, nodup_cons.2 ⟨hv, hx.nodup⟩, fun {w} => ?_⟩
    by_cases hw : w = v
    · simp [hw]
    · simp [hw, hx.mem_iff]

theorem Exact.erase (v : α) : ∃ y, x.erase v = .ok y ∧ y.Exact := by
  rw [WeightedRandomSelector.erase]
  split
  next hv =>
    rw [remove, if_pos (hx.mem_iff.2 hv)]
    refine ⟨_, rfl, hx.nodup.filter _, fun {w} => ?_⟩
    by_cases hw : w = v
    · simp [hw]
    · simp [hw, hx.mem_iff]
  · exact ⟨x, rfl, hx⟩

theorem Exact.updateWeights (weight : α → ω) : ∃ y, x.updateWeights weight = .ok y ∧ y.Exact := by
  obtain ⟨t, ht, hd⟩ := foldlM_total (f := fun t v => update t v (weight v))
    (l := x.setContainer) (x := x.pdfContainer)
    (fun _ t => ∀ w, (t w).isSome ↔ w ∈ x.setContainer) (fun _ => hx.mem_iff) (by
      intro done v rest t hl ht
      have hv := (ht v).2 (hl ▸ mem_append_cons_self)
      refine ⟨_, if_pos hv, fun w => ?_⟩
      by_cases hw : w = v
      · simp [hw, ← ht v, hv]
      · simp [hw, ht w])
  rw [WeightedRandomSelector.updateWeights, ht]
  exact ⟨_, rfl, hx.nodup, fun {w} => hd w⟩

theorem Exact.clear : ∃ y, x.clear = .ok y ∧ y.Exact := by
  obtain ⟨t, ht, hd⟩ := foldlM_total (f := remove) (l := x.setContainer)
    (x := x.pdfContainer) (fun done t => ∀ w, (t w).isSome ↔ w ∈ x.setContainer ∧ w ∉ done)
    (fun _ => by simp [hx.mem_iff]) (by
      intro done v rest t hl ht
      have hm : v ∈ x.setContainer := hl ▸ mem_append_cons_self
      refine ⟨_, if_pos ((ht v).2 ⟨hm, notMem_of_nodup hx.nodup hl⟩), fun w => ?_⟩
      by_cases hw : w = v
      · simp [hw]
      · simp [hw, ht w])
  rw [WeightedRandomSelector.clear, ht]
  exact ⟨_, rfl, nodup_nil, fun {w} => by simp [hd w]⟩

theorem Exact.takeOver (ht : ∀ w, t w = none) : ∃ y, takeOver t x = .ok y ∧ y.Exact := by
  obtain ⟨t', ht', hd⟩ := foldlM_total
    (f := fun t v => x.pdfContainer.getWeight v >>= DiscretePDF.insert t v)
    (l := x.setContainer) (x := t) (fun done t => ∀ w, (t w).isSome ↔ w ∈ done)
    (fun w => by simp [ht w]) (by
      intro done v rest t hl ht
      have hm : v ∈ x.setContainer := hl ▸ mem_append_cons_self
      obtain ⟨weight, hg⟩ := Option.isSome_iff_exists.1 (hx.mem_iff.2 hm)
      rw [DiscretePDF.getWeight, hg]
      refine ⟨_, if_neg (mt (ht v).1 (notMem_of_nodup hx.nodup hl)), fun w => ?_⟩
      by_cases hw : w = v
      · simp [hw]
      · simp [hw, ht w])
  rw [WeightedRandomSelector.takeOver, ht']
  exact ⟨_, rfl, hx.nodup, fun {w} => hd w⟩

theorem Exact.select (hne : x.setContainer ≠ []) : (∃ v, (x.pdfContainer v).isSome) ∧ ∀ choice,
    (x.pdfContainer choice).isSome → x.select choice = .ok choice :=
  ⟨(exists_mem_of_ne_nil _ hne).imp fun _ => hx.mem_iff.2, fun _ hc => if_pos (hx.mem_iff.1 hc)⟩

end

/-- What was in the tree stays there, and could not be inserted. -/
theorem takeOver_keeps {t : DiscretePDF α ω} (h : takeOver t other = .ok y) (hv : (t v).isSome) :
    (y.pdfContainer v).isSome ∧ v ∉ y.setContainer := by
  obtain ⟨t', hlp, rfl⟩ := map_ok_iff.1 h
  refine foldlM_ok (fun done (t : DiscretePDF α ω) => (t v).isSome ∧ v ∉ done)
    ⟨hv, not_mem_nil⟩ ?_ hlp
  rintro done w rest t t' - ⟨hv, hd⟩ h
  obtain ⟨weight, -, h⟩ := bind_ok_iff.1 h
  rw [DiscretePDF.insert] at h
  split at h
  · cases h
  next hw =>
    cases h
    have hne : v ≠ w := fun he => hw (he ▸ hv)
    rw [update_of_ne hne]
    simp [hv, hd, hne]

def AllExact (s : Nat → WeightedRandomSelector α ω) : Prop :=
  ∀ i, (∀ v, ((s i).pdfContainer v).isSome ↔ v ∈ (s i).setContainer) ∧
    ((s i).setContainer ≠ [] → (∃ v, ((s i).pdfContainer v).isSome) ∧
      ∀ choice, ((s i).pdfContainer choice).isSome → (s i).select choice = .ok choice)

def machine : Machine (Nat → WeightedRandomSelector α ω) (WeightedOp α ω) where
  init s := s = fun _ => ⟨[], fun _ => none⟩
  step s op s' := apply s op = .ok s'

theorem apply_exact {s : Nat → WeightedRandomSelector α ω} (hs : ∀ i, (s i).Exact)
    (hop : ToEmpty s op) : ∃ s', apply s op = .ok s' ∧ ∀ i, (s' i).Exact := by
  have ht {r : Except WeightFault (WeightedRandomSelector α ω)} (i : Nat)
      (hr : ∃ y, r = .ok y ∧ y.Exact) :
      ∃ s', r.map (update s i) = .ok s' ∧ ∀ j, (s' j).Exact := by
    obtain ⟨y, rfl, hy⟩ := hr
    exact ⟨_, rfl, (forall_update_iff s fun _ x => x.Exact).2 ⟨hy, fun j _ => hs j⟩⟩
  cases op with
  | insert i v weight => exact ht i ((hs i).insert v weight)
  | erase i v => exact ht i ((hs i).erase v)
  | updateWeights i weight => exact ht i ((hs i).updateWeights weight)
  | clear i => exact ht i (hs i).clear
  | copy i other => exact ht i ((hs other).takeOver fun _ => rfl)
  | assign i other =>
    refine ht i ((hs other).takeOver fun w => ?_)
    rw [← Option.not_isSome_iff_eq_none, (hs i).mem_iff, hop i other rfl]
    exact not_mem_nil

/-- An assignment keeps what the tree of its target holds. -/
theorem weightTree_exact_iff (h : machine.Reachable ToEmpty s) (op : WeightedOp α ω) :
    (∃ s', apply s op = .ok s' ∧ AllExact s') ↔ ToEmpty s op := by
  have hs : ∀ i, (s i).Exact := by
    apply h.invariant (I := fun s => ∀ i, (s i).Exact)
    · rintro s rfl i
      exact ⟨nodup_nil, by simp⟩
    intro s op s' hs hop hstep
    obtain ⟨s1, hs1, he⟩ := apply_exact hs hop
    cases hs1.symm.trans hstep
    exact he
  constructor
  · rintro ⟨s', hs', he⟩ i other rfl
    obtain ⟨y, hy, rfl⟩ := map_ok_iff.1 hs'
    refine eq_nil_iff_forall_not_mem.2 fun v hv => ?_
    obtain ⟨ht, hset⟩ := takeOver_keeps hy ((hs i).mem_iff.2 hv)
    have hi := (he i).1 v
    rw [update_self] at hi
    exact hset (hi.1 ht)
  · intro hop
    obtain ⟨s', hs', he⟩ := apply_exact hs hop
    exact ⟨s', hs', fun i => ⟨fun _ => (he i).mem_iff, (he i).select⟩⟩

def oneValue : Nat → WeightedRandomSelector Nat Nat :=
  update (fun _ => ⟨[], fun _ => none⟩) 0 ⟨[7], update (fun _ => none) 7 (some 1)⟩

theorem oneValue_reachable : machine.Reachable ToEmpty oneValue :=
  .step (.init rfl) (e := .insert 0 7 fun _ => 1) nofun rfl

theorem assign_toEmpty : ∃ s', apply oneValue (.assign 1 0) = .ok s' ∧ AllExact s' := by
  apply (weightTree_exact_iff oneValue_reachable _).2
  rintro _ _ ⟨⟩
  rfl

/-- The value of the target is chosen, and is not in the set. -/
theorem assign_keepsTree : ∃ s', machine.Reachable ToEmpty oneValue ∧ apply oneValue (.assign 0 1) =
    .ok s' ∧ ((s' 0).pdfContainer 7).isSome ∧ (s' 0).setContainer = [] :=
  ⟨_, oneValue_reachable, rfl, rfl, rfl⟩

end WeightedRandomSelector
end Chef
