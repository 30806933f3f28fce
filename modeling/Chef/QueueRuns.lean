import Chef.Selectors

namespace Chef
open Foundations List Option QueuedSelector
inductive QueueOp (α : Type) where
  | update (value : α)
  | remove (value : α)
  | select

/-- A selector on another one; the null value is `none`. -/
structure StickySelector (α : Type) where
  base : QueuedSelector α
  stickyValue : Option α

variable {α : Type} [DecidableEq α]
namespace QueueOp
/-- The time of the latest update since the removal. -/
def lastUpdate : List (QueueOp α) → α → Option Nat
  | [], _ => none
  | .update w :: h, v => if v = w then some h.length else lastUpdate h v
  | .remove w :: h, v => if v = w then none else lastUpdate h v
  | .select :: h, v => lastUpdate h v

def Live (h : List (QueueOp α)) (v : α) : Prop := (lastUpdate h v).isSome

def stamp (h : List (QueueOp α)) (v : α) : Nat := (lastUpdate h v).getD 0

theorem lastUpdate_lt {h : List (QueueOp α)} (hv : lastUpdate h v = some t) : t < h.length := by
  induction h with
  | nil => cases hv
  | cons op h ih =>
    rw [length_cons]
    have hr (hv : lastUpdate h v = some t) : t < h.length + 1 := Nat.lt_succ_of_lt (ih hv)
    cases op with
    | update w =>
      rw [lastUpdate] at hv
      split at hv
      · cases hv
        exact Nat.lt_succ_self _
      · exact hr hv
    | remove w =>
      rw [lastUpdate] at hv
      split at hv
      · cases hv
      · exact hr hv
    | select => exact hr hv

end QueueOp

open QueueOp
namespace QueuedSelector
def apply (q : QueuedSelector α) : QueueOp α → QueuedSelector α
  | .update v => (q.update v).2
  | .remove v => (q.remove v).2
  | .select => q

def after (h : List (QueueOp α)) : QueuedSelector α := h.foldr (fun op q => q.apply op) empty

/-- The queue holds the live values, latest updates first. -/
structure Follows (q : QueuedSelector α) (h : List (QueueOp α)) : Prop where
  valid : q.Valid
  live : ∀ v, v ∈ q.values ↔ Live h v
  ordered : q.values.Pairwise fun v w => stamp h w < stamp h v

variable {q : QueuedSelector α}
theorem Follows.apply (hq : q.Follows h) (op : QueueOp α) : (q.apply op).Follows (op :: h) := by
  have hos (op : QueueOp α) (v : α) (hop : ∀ w, w ≠ v → lastUpdate (op :: h) w = lastUpdate h w) :
      (q.values.filter fun w => w ≠ v).Pairwise fun a b => stamp (op :: h) b < stamp
          (op :: h) a := by
    refine (hq.ordered.filter _).imp_of_mem fun {a b} ha hb hlt => ?_
    have hne {w : α} (hw : w ∈ q.values.filter fun w => w ≠ v) : w ≠ v :=
      of_decide_eq_true (mem_filter.1 hw).2
    rw [stamp, stamp, hop a (hne ha), hop b (hne hb)]
    exact hlt
  cases op with
  | update v =>
    have hop (w : α) (hw : w ≠ v) : lastUpdate (.update v :: h) w = lastUpdate h w := if_neg hw
    have hse : lastUpdate (.update v :: h) v = some h.length := if_pos rfl
    refine ⟨hq.valid.update v, fun w => ?_, ?_⟩
    · rw [QueuedSelector.apply, hq.valid.mem_update, hq.live, Live, Live]
      by_cases hw : w = v
      · simp [hw, hse]
      · simp [hw, hop w hw]
    · rw [QueuedSelector.apply, hq.valid.values_update]
      refine pairwise_cons.2 ⟨fun w hw => ?_, hos _ v hop⟩
      obtain ⟨hw, hne⟩ := mem_filter.1 hw
      obtain ⟨t, ht⟩ := isSome_iff_exists.1 ((hq.live w).1 hw)
      rw [stamp, stamp, hse, hop w (of_decide_eq_true hne), ht]
      exact lastUpdate_lt ht
  | remove v =>
    have hop (w : α) (hw : w ≠ v) : lastUpdate (.remove v :: h) w = lastUpdate h w := if_neg hw
    refine ⟨hq.valid.remove v, fun w => ?_, ?_⟩
    · rw [QueuedSelector.apply, hq.valid.mem_remove, hq.live, Live, Live]
      by_cases hw : w = v
      · simp [hw, lastUpdate]
      · simp [hw, hop w hw]
    · rw [QueuedSelector.apply, hq.valid.values_remove]
      exact hos _ v hop
  | select => exact ⟨hq.valid, hq.live, hq.ordered⟩

theorem after_follows (h : List (QueueOp α)) : (after h).Follows h := by
  induction h with
  | nil => exact ⟨.empty, fun v => ⟨nofun, nofun⟩, .nil⟩
  | cons op h ih => exact ih.apply op

theorem Follows.selectDFS (hq : q.Follows h) (v : α) :
    q.selectDFS = some v ↔ Live h v ∧ ∀ w, Live h w → w = v ∨ stamp h w < stamp h v := by
  have hhd : q.selectDFS = q.values.head? := head?_map.symm
  rw [hhd, head?_eq_some_iff_first (fun _ _ _ _ => Nat.lt_asymm) hq.ordered]
  simp only [hq.live]

theorem Follows.selectBFS (hq : q.Follows h) (v : α) :
    q.selectBFS = some v ↔ Live h v ∧ ∀ w, Live h w → w = v ∨ stamp h v < stamp h w := by
  have hla : q.selectBFS = q.values.reverse.head? := by
    rw [QueuedSelector.selectBFS, List.head?_reverse, QueuedSelector.values, List.getLast?_map]
  rw [hla, head?_eq_some_iff_first (fun _ _ _ _ => Nat.lt_asymm) (pairwise_reverse.2 hq.ordered)]
  simp only [mem_reverse, hq.live]

theorem Follows.eq_nil_iff (hq : q.Follows h) : q.queue = [] ↔ ∀ v, ¬Live h v := by
  rw [← map_eq_nil_iff (f := Prod.snd), eq_nil_iff_forall_not_mem]
  exact forall_congr' fun v => not_congr (hq.live v)

end QueuedSelector

namespace StickySelector
variable (base : QueuedSelector α → Option α)
def select (s : StickySelector α) : Option α × StickySelector α :=
  let value := s.stickyValue.or (base s.base)
  (value, { s with stickyValue := value })

def apply (s : StickySelector α) : QueueOp α → StickySelector α
  | .update v => { s with base := (s.base.update v).2 }
  | .remove v => ⟨(s.base.remove v).2, if s.stickyValue = some v then none else s.stickyValue⟩
  | .select => (s.select base).2

def after (h : List (QueueOp α)) : StickySelector α :=
  h.foldr (fun op s => s.apply base op) ⟨.empty, none⟩

theorem after_base (h : List (QueueOp α)) : (after base h).base = QueuedSelector.after h := by
  induction h with
  | nil => rfl
  | cons op h ih =>
    change ((after base h).apply base op).base = (QueuedSelector.after h).apply op
    rw [← ih]
    cases op <;> rfl

variable {base}
theorem after_live (hb : ∀ {h v}, base (QueuedSelector.after h) = some v → Live h v)
    (hv : (after base h).stickyValue = some v) : Live h v := by
  induction h with
  | nil => cases hv
  | cons op h ih =>
    cases op with
    | update w =>
      rw [Live, lastUpdate]
      split
      · rfl
      · exact ih hv
    | remove w =>
      obtain ⟨hne, hv⟩ := ite_none_left_eq_some.1 hv
      have hvw : v ≠ w := fun he => hne (he ▸ hv)
      rw [Live, lastUpdate, if_neg hvw]
      exact ih hv
    | select =>
      obtain hv | ⟨-, hv⟩ := or_eq_some_iff.1 hv
      · exact ih hv
      · exact hb (after_base base h ▸ hv)

theorem after_keeps (hv : (after base h).stickyValue = some v)
    (l : List (QueueOp α)) (hl : ∀ op ∈ l, op ≠ .remove v) :
    (after base (l ++ h)).stickyValue = some v := by
  induction l with
  | nil => exact hv
  | cons op l ih =>
    obtain ⟨hop, hl⟩ := forall_mem_cons.1 hl
    have hv := ih hl
    cases op with
    | update w => exact hv
    | remove w =>
      have hne : (after base (l ++ h)).stickyValue ≠ some w := by
        rw [hv]
        rintro ⟨⟩
        exact hop rfl
      exact (if_neg hne).trans hv
    | select => exact or_eq_some_iff.2 (.inl hv)

end StickySelector

/-- Selectors follow updates and removals; a sticky one stays. -/
theorem selections_follow_updates (h : List (QueueOp α)) : (after h).values.Nodup ∧
    (∀ v, v ∈ (after h).values ↔ Live h v) ∧
    (∀ v, (after h).selectBFS = some v ↔ Live h v ∧ ∀ w, Live h w → w = v ∨ stamp h v < stamp h w) ∧
    (∀ v, (after h).selectDFS = some v ↔ Live h v ∧ ∀ w, Live h w → w = v ∨ stamp h w < stamp h v) ∧
    ((after h).selectBFS = none ↔ ∀ v, ¬Live h v) ∧
    ((after h).selectDFS = none ↔ ∀ v, ¬Live h v) ∧
    ∀ base ∈ [selectBFS, selectDFS],
      (((StickySelector.after base h).select base).1 = none ↔ ∀ v, ¬Live h v) ∧
      ((StickySelector.after base h).stickyValue = none →
        ((StickySelector.after base h).select base).1 = base (after h)) ∧
      ∀ v, ((StickySelector.after base h).select base).1 = some v → Live h v ∧
        ∀ l, (∀ op ∈ l, op ≠ .remove v) →
          ((StickySelector.after base (l ++ .select :: h)).select base).1 = some v := by
  have hq := after_follows h
  have hBFS : (after h).selectBFS = none ↔ ∀ v, ¬Live h v := by
    rw [← hq.eq_nil_iff, selectBFS, map_eq_none_iff, getLast?_eq_none_iff]
  have hDFS : (after h).selectDFS = none ↔ ∀ v, ¬Live h v := by
    rw [← hq.eq_nil_iff, selectDFS, map_eq_none_iff, head?_eq_none_iff]
  refine ⟨hq.valid.values, hq.live, hq.selectBFS, hq.selectDFS, hBFS, hDFS, fun base hb => ?_⟩
  have hlv {h : List (QueueOp α)} {v : α} (hv : base (after h) = some v) :
      Live h v := by
    rw [mem_pair] at hb
    obtain rfl | rfl := hb
    · exact (((after_follows h).selectBFS v).1 hv).1
    · exact (((after_follows h).selectDFS v).1 hv).1
  have hno : base (after h) = none ↔ ∀ v, ¬Live h v := by
    rw [mem_pair] at hb
    obtain rfl | rfl := hb
    · exact hBFS
    · exact hDFS
  have hs : ((StickySelector.after base h).select base).1 =
      (StickySelector.after base h).stickyValue.or (base (after h)) := by
    rw [StickySelector.select, StickySelector.after_base]
  refine ⟨?_, fun hn => ?_, fun v hv => ⟨StickySelector.after_live hlv (h := .select :: h) hv,
    fun l hl => StickySelector.after_keeps (h := .select :: h) hv (.select :: l)
      (forall_mem_cons.2 ⟨nofun, hl⟩)⟩⟩
  · rw [hs, or_eq_none_iff, hno]
    refine ⟨And.right, fun hn => ⟨eq_none_iff_forall_ne_some.2 fun v hv => ?_, hn⟩⟩
    exact hn v (StickySelector.after_live hlv hv)
  · rw [hs, hn, none_or]

end Chef
