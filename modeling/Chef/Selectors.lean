import Chef.Foundations.AssocList

namespace Chef
open Foundations List Prod
/-- A list of named nodes, and the node of each value. -/
structure QueuedSelector (α : Type) where
  queue : List (Nat × α)
  map : List (α × Nat)
  fresh : Nat
  deriving DecidableEq

namespace QueuedSelector
variable {α : Type} [DecidableEq α]
def empty : QueuedSelector α := ⟨[], [], 0⟩

section
variable (q : QueuedSelector α)
def update (value : α) : Bool × QueuedSelector α :=
  match q.map.lookup value with
  | some node =>
    (false,
      { queue := (q.fresh, value) :: q.queue.filter fun e => e.1 ≠ node
        map := (value, q.fresh) :: q.map.filter fun e => e.1 ≠ value
        fresh := q.fresh + 1 })
  | none =>
    (true,
      { queue := (q.fresh, value) :: q.queue
        map := (value, q.fresh) :: q.map
        fresh := q.fresh + 1 })

def remove (value : α) : Bool × QueuedSelector α :=
  match q.map.lookup value with
  | some node =>
    (true, { q with
        queue := q.queue.filter fun e => e.1 ≠ node
        map := q.map.filter fun e => e.1 ≠ value })
  | none => (false, q)

def selectBFS : Option α := q.queue.getLast?.map snd

def selectDFS : Option α := q.queue.head?.map snd

def values : List α := q.queue.map snd

structure Valid : Prop where
  nodes : (q.queue.map fst).Nodup
  values : q.values.Nodup
  fresh : ∀ e ∈ q.queue, e.1 < q.fresh
  lookup : ∀ v n, q.map.lookup v = some n ↔ (n, v) ∈ q.queue

end

theorem Valid.empty : (empty : QueuedSelector α).Valid where
  nodes := by simp [QueuedSelector.empty]
  values := by simp [QueuedSelector.empty, QueuedSelector.values]
  fresh := by simp [QueuedSelector.empty]
  lookup := by simp [QueuedSelector.empty]

variable {q : QueuedSelector α}
section
variable (h : q.Valid)
include h
theorem Valid.mem_values : v ∈ q.values ↔ ∃ n, q.map.lookup v = some n := by
  simp only [QueuedSelector.values, mem_map, Prod.exists, exists_eq_right, h.lookup]

theorem Valid.value_eq (hv : (n, v) ∈ q.queue) (hw : (n, w) ∈ q.queue) : v = w := by
  have he := inj_on_of_nodup_map h.nodes hv hw rfl
  exact congrArg snd he

theorem Valid.node_eq (hn : (n, v) ∈ q.queue) (hm : (m, v) ∈ q.queue) : n = m := by
  have he := inj_on_of_nodup_map h.values hn hm rfl
  exact congrArg fst he

theorem Valid.drop (hn : q.map.lookup v = some n) : Valid { q with
      queue := q.queue.filter fun e => e.1 ≠ n
      map := q.map.filter fun e => e.1 ≠ v } where
  nodes := h.nodes.sublist (filter_sublist.map _)
  values := h.values.sublist (filter_sublist.map _)
  fresh e he := h.fresh e (mem_of_mem_filter he)
  lookup w m := by
    have hq := (h.lookup v n).1 hn
    rw [lookup_filter_ne]
    simp only [mem_filter, decide_eq_true_eq]
    by_cases hw : w = v
    · subst hw
      simp only [if_true, reduceCtorEq, false_iff, not_and, not_not]
      intro hm
      exact h.node_eq hm hq
    · rw [if_neg hw, h.lookup]
      refine ⟨?_, And.left⟩
      intro hm
      refine ⟨hm, fun he => ?_⟩
      subst he
      exact hw (h.value_eq hm hq)

theorem Valid.values_drop (hn : q.map.lookup v = some n) :
    (q.queue.filter fun e => e.1 ≠ n).map snd = q.values.filter fun w => w ≠ v := by
  have hq := (h.lookup v n).1 hn
  rw [QueuedSelector.values, filter_map]
  congr 1
  refine filter_congr fun e he => decide_eq_decide.2 (not_congr ⟨fun hen => ?_, fun hv => ?_⟩)
  · exact h.value_eq (hen ▸ he) hq
  · exact h.node_eq (hv ▸ he) hq

theorem Valid.values_remove (v : α) : (q.remove v).2.values = q.values.filter fun w => w ≠ v := by
  rw [QueuedSelector.remove]
  split
  next n hn => exact h.values_drop hn
  next hn =>
    refine (filter_eq_self.2 fun w hw => ?_).symm
    rw [decide_eq_true_eq]
    intro he
    obtain ⟨n, hn'⟩ := h.mem_values.1 hw
    rw [he, hn] at hn'
    cases hn'

theorem Valid.push (hv : v ∉ q.values) : Valid { q with
      queue := (q.fresh, v) :: q.queue
      map := (v, q.fresh) :: q.map
      fresh := q.fresh + 1 } where
  nodes := by
    simp only [map_cons, nodup_cons]
    refine ⟨fun hm => ?_, h.nodes⟩
    obtain ⟨e, he, hf⟩ := mem_map.1 hm
    have hlt := h.fresh e he
    omega
  values := by
    simp only [QueuedSelector.values, map_cons, nodup_cons]
    exact ⟨hv, h.values⟩
  fresh e he := by
    rcases mem_cons.1 he with he | he
    · subst he
      exact Nat.lt_succ_self _
    · exact Nat.lt_succ_of_lt (h.fresh e he)
  lookup w n := by
    have hnv : ∀ m, (m, v) ∉ q.queue := fun m hm => hv (mem_map.2 ⟨_, hm, rfl⟩)
    rw [lookup_cons]
    by_cases hw : w = v
    · subst hw
      simp only [BEq.rfl, Option.some.injEq, mem_cons, Prod.mk.injEq, and_true, hnv n, or_false]
      exact eq_comm
    · simp [beq_false_of_ne hw, hw, h.lookup]

end

variable (h : q.Valid)
include h
theorem Valid.update (v : α) : (q.update v).2.Valid := by
  unfold QueuedSelector.update
  split
  next node hn =>
    have hd := h.drop hn
    refine hd.push ?_
    rw [QueuedSelector.values, h.values_drop hn]
    simp
  next hn =>
    refine h.push ?_
    intro hv
    obtain ⟨n, hm⟩ := h.mem_values.1 hv
    rw [hn] at hm
    cases hm

theorem Valid.values_update (v : α) :
    (q.update v).2.values = v :: q.values.filter fun w => w ≠ v := by
  have hr := h.values_remove v
  rw [QueuedSelector.remove] at hr
  rw [QueuedSelector.update]
  split
  next n hn =>
    rw [hn] at hr
    exact congrArg (v :: ·) hr
  next hn =>
    rw [hn] at hr
    exact congrArg (v :: ·) hr

theorem Valid.mem_update : w ∈ (q.update v).2.values ↔ w ∈ q.values ∨ w = v := by
  rw [h.values_update, mem_cons, mem_filter, decide_eq_true_eq]
  by_cases hw : w = v <;> simp [hw]

theorem Valid.update_added : (q.update v).1 = true ↔ v ∉ q.values := by
  rw [h.mem_values]
  unfold QueuedSelector.update
  cases hn : q.map.lookup v <;> simp

theorem Valid.remove (v : α) : (q.remove v).2.Valid := by
  unfold QueuedSelector.remove
  split
  next node hn => exact h.drop hn
  next => exact h

theorem Valid.mem_remove : w ∈ (q.remove v).2.values ↔ w ∈ q.values ∧ w ≠ v := by
  rw [h.values_remove, mem_filter, decide_eq_true_eq]

theorem Valid.remove_found : (q.remove v).1 = true ↔ v ∈ q.values := by
  rw [h.mem_values]
  unfold QueuedSelector.remove
  cases hn : q.map.lookup v <;> simp

end QueuedSelector
end Chef
