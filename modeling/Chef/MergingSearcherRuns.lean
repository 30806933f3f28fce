import Chef.MergingSearcher

namespace Chef
open Finset hiding forall_mem_cons mem_cons mem_singleton
open Option hiding choice
open Foundations List Function MergePools
namespace MergePools
variable {pools : MergePools}
theorem get_setStates (pools : MergePools) (g : Nat) (f : Finset Nat → Finset Nat) (g' : Nat) :
    (pools.setStates g f).get g' =
      if g' = g ∧ g ≠ 0 then { pools.get g with states := f (pools.get g).states }
      else pools.get g' := by
  rw [setStates]
  by_cases hz : g = 0
  · rw [if_pos hz, if_neg fun h => h.2 hz]
  rw [if_neg hz, get, update_apply]
  by_cases hg : g' = g
  · rw [if_pos hg, if_pos ⟨hg, hz⟩, getD_some]
  · rw [if_neg hg, if_neg fun h => hg h.1]
    rfl

theorem setStates_zero (h : pools 0 = none) : pools.setStates g f 0 = none := by
  rw [setStates]
  split
  · exact h
  next hz =>
    rw [update_of_ne (Ne.symm hz)]
    exact h

theorem firstState_setStates (pools : MergePools) (g : Nat) (f : Finset Nat → Finset Nat)
    (g' : Nat) : ((pools.setStates g f).get g').firstState = (pools.get g').firstState := by
  rw [get_setStates]
  split
  next h => rw [h.1]
  · rfl

theorem states_setStates (pools : MergePools) (g : Nat) (f : Finset Nat → Finset Nat) (g' : Nat) :
    ((pools.setStates g f).get g').states =
      if g' = g ∧ g ≠ 0 then f (pools.get g).states else (pools.get g').states := by
  rw [get_setStates]
  split <;> rfl

theorem mem_setStates (h : ∀ states, t ∈ f states ↔ t ∈ states) (g g' : Nat) :
    t ∈ ((pools.setStates g f).get g').states ↔ t ∈ (pools.get g').states := by
  rw [states_setStates]
  split
  next hg => rw [h, hg.1]
  · rfl

theorem get_update (pools : MergePools) (g : Nat) (pool : Option MergePool) (g' : Nat) :
    get (update pools g pool) g' = if g' = g then pool.getD ⟨none, ∅⟩ else pools.get g' := by
  rw [get, update_apply]
  split <;> rfl

end MergePools

namespace MergingSearcher
structure Inv (s : MergingSearcher) : Prop where
  zero : s.mergePools 0 = none
  next_pos : 0 < s.nextMergeGroupId
  idle : ∀ {t}, s.groupId t = some 0 → t ∈ s.activeStates
  member : ∀ {t g}, s.groupId t = some g → g ≠ 0 →
    (t ∈ (s.mergePools.get g).states ∧ t ∈ s.activeStates) ∨
      (s.mergePools.get g).firstState = some t
  pending : ∀ {t g}, t ∈ (s.mergePools.get g).states → s.groupId t = some g
  waiting : ∀ {g w}, (s.mergePools.get g).firstState = some w →
    s.groupId w = some g ∧ w ∉ (s.mergePools.get g).states ∧ w ∉ s.activeStates
  bound : ∀ {t g}, s.groupId t = some g → g < s.nextMergeGroupId

/-- A first state waits only for others of its pool. -/
def Awaited (s : MergingSearcher) : Prop :=
  ∀ g w, (s.mergePools.get g).firstState = some w → (s.mergePools.get g).states.Nonempty

/-- A live state is active, or waits for another one of its pool. -/
def NoneLost (s : MergingSearcher) : Prop := ∀ t, s.groupId t ≠ none → t ∈ s.activeStates ∨
    ∃ g pool, s.mergePools g = some pool ∧ pool.firstState = some t ∧
      ∃ t' ∈ pool.states, t' ≠ t ∧ s.groupId t' ≠ none

section
variable {s s' : MergingSearcher}
theorem get_of_some {pools : MergePools} (h : pools g = some pool) : pools.get g = pool := by
  rw [MergePools.get, h, getD_some]

theorem exists_of_firstState {pools : MergePools} (h : (pools.get g).firstState = some w) :
    ∃ pool, pools g = some pool ∧ pools.get g = pool := by
  cases hg : pools g with
  | none =>
    rw [MergePools.get, hg] at h
    cases h
  | some pool => exact ⟨pool, rfl, get_of_some hg⟩

theorem Inv.group_ne_zero (hinv : Inv s) (ht : t ∈ (s.mergePools.get g).states) : g ≠ 0 := by
  rintro rfl
  rw [MergePools.get, hinv.zero] at ht
  cases ht

theorem noneLost_of_inv (hinv : Inv s) (hw : Awaited s) : NoneLost s := by
  intro t ht
  obtain ⟨g, hg⟩ := ne_none_iff_exists'.1 ht
  by_cases hz : g = 0
  · subst hz
    exact .inl (hinv.idle hg)
  rcases hinv.member hg hz with ⟨_, ha⟩ | hfst
  · exact .inl ha
  obtain ⟨pool, hp, hget⟩ := exists_of_firstState hfst
  obtain ⟨t', ht'⟩ := hw g t hfst
  obtain ⟨_, hn, _⟩ := hinv.waiting hfst
  have hlv : s.groupId t' ≠ none := by
    rw [hinv.pending ht']
    exact nofun
  rw [hget] at hfst ht' hn
  exact .inr ⟨g, pool, hp, hfst, t', ht', fun he => hn (he ▸ ht'), hlv⟩

structure Placed (s : MergingSearcher) (t : Nat) : Prop where
  idle : s.groupId t = some 0 → t ∈ s.activeStates
  member : ∀ {g}, s.groupId t = some g → g ≠ 0 →
    (t ∈ (s.mergePools.get g).states ∧ t ∈ s.activeStates) ∨
      (s.mergePools.get g).firstState = some t
  pending : ∀ {g}, t ∈ (s.mergePools.get g).states → s.groupId t = some g
  waiting : ∀ {g}, (s.mergePools.get g).firstState = some t →
    s.groupId t = some g ∧ t ∉ (s.mergePools.get g).states ∧ t ∉ s.activeStates
  bound : ∀ {g}, s.groupId t = some g → g < s.nextMergeGroupId

structure SamePlace (s s' : MergingSearcher) (t : Nat) : Prop where
  group : s'.groupId t = s.groupId t
  active : t ∈ s'.activeStates ↔ t ∈ s.activeStates
  states : ∀ g, t ∈ (s'.mergePools.get g).states ↔ t ∈ (s.mergePools.get g).states
  first : ∀ g, (s'.mergePools.get g).firstState = some t ↔ (s.mergePools.get g).firstState = some t

theorem Inv.move (hinv : Inv s) (hz : s'.mergePools 0 = none)
    (hn : s.nextMergeGroupId ≤ s'.nextMergeGroupId) (hos : ∀ t, t ≠ x → SamePlace s s' t)
    (hx : Placed s' x) : Inv s' := by
  have hpl (t : Nat) : Placed s' t := by
    by_cases ht : t = x
    · exact ht ▸ hx
    have hs := hos t ht
    refine ⟨?_, ?_, ?_, ?_, fun h => (hinv.bound (hs.group ▸ h)).trans_le hn⟩
    all_goals simp only [hs.group, hs.active, hs.states, hs.first]
    · exact hinv.idle
    · exact hinv.member
    · exact hinv.pending
    · exact hinv.waiting
  exact ⟨hz, hinv.next_pos.trans_le hn, (hpl _).idle, (hpl _).member,
    (hpl _).pending, (hpl _).waiting, (hpl _).bound⟩

theorem placed_outside (hs : ∀ g, x ∉ (s.mergePools.get g).states)
    (hfst : ∀ g, (s.mergePools.get g).firstState ≠ some x) (hp : 0 < s.nextMergeGroupId)
    (hr : ∀ g, s.groupId x = some g → g = 0 ∧ x ∈ s.activeStates) : Placed s x where
  idle h := (hr 0 h).2
  member {g} h hg := absurd (hr g h).1 hg
  pending {g} h := absurd h (hs g)
  waiting {g} h := absurd h (hfst g)
  bound {g} h := (hr g h).1 ▸ hp

theorem placed_inside (hr : s.groupId x = some g) (ha : x ∈ s.activeStates) (hs :
    ∀ g', x ∈ (s.mergePools.get g').states ↔ g' = g ∧ g ≠ 0) (hfst : ∀ g,
    (s.mergePools.get g).firstState ≠ some x) (hg : g < s.nextMergeGroupId) : Placed s x where
  idle _ := ha
  member {g'} h hne := by
    obtain rfl := some.inj (hr.symm.trans h)
    exact .inl ⟨(hs _).2 ⟨rfl, hne⟩, ha⟩
  pending {g'} h := ((hs g').1 h).1 ▸ hr
  waiting {g'} h := absurd h (hfst g')
  bound h := some.inj (hr.symm.trans h) ▸ hg

def detach (x : Nat) (group : Option Nat) (active : Finset Nat) (s : MergingSearcher) :
    MergingSearcher :=
  { s with
    activeStates := active
    groupId := Function.update s.groupId x group
    mergePools := s.mergePools.setStates ((s.groupId x).getD 0) fun states => states.erase x }

theorem detach_inv (hinv : Inv s) (hx : ∀ g, (s.mergePools.get g).firstState ≠ some x)
    (hg : ∀ g, group = some g → g = 0 ∧ x ∈ active) (hs : active ⊆ s.activeStates)
    (hk : ∀ t ∈ s.activeStates, t ≠ x → t ∈ active) : Inv (s.detach x group active) := by
  have hps : (s.detach x group active).mergePools =
      s.mergePools.setStates ((s.groupId x).getD 0) fun states => states.erase x := rfl
  have hfst (g : Nat) : ((s.detach x group active).mergePools.get g).firstState =
      (s.mergePools.get g).firstState := by rw [hps, firstState_setStates]
  refine hinv.move (x := x) (hps ▸ setStates_zero hinv.zero) (Nat.le_refl _)
    (fun t hne => ⟨update_of_ne hne _ _, ⟨fun h => hs h, fun h => hk t h hne⟩,
      fun g => ?_, fun g => by rw [hfst]⟩) (placed_outside (fun g => ?_) ?_ hinv.next_pos ?_)
  · exact mem_setStates (fun _ => mem_erase.trans (and_iff_right hne)) _ g
  · simp only [detach, states_setStates]
    split
    · exact notMem_erase x _
    next h =>
      intro hm
      rw [hinv.pending hm, getD_some] at h
      exact h ⟨rfl, hinv.group_ne_zero hm⟩
  · simp only [hfst]
    exact hx
  · simp only [detach, update_self]
    exact hg

theorem Inv.congr (hinv : Inv s) (hps : ∀ g, s'.mergePools.get g = s.mergePools.get g) (hz :
    s'.mergePools 0 = none) (ha : s'.activeStates = s.activeStates) (hr : s'.groupId =
    s.groupId) (hn : s'.nextMergeGroupId = s.nextMergeGroupId) : Inv s' where
  zero := hz
  next_pos := hn ▸ hinv.next_pos
  idle h := ha ▸ hinv.idle (hr ▸ h)
  member {t g} h hg := by
    rw [hps, ha]
    exact hinv.member (hr ▸ h) hg
  pending {t g} h := by
    rw [hr]
    exact hinv.pending (hps g ▸ h)
  waiting {g w} h := by
    rw [hr, hps, ha]
    exact hinv.waiting (hps g ▸ h)
  bound h := hn ▸ hinv.bound (hr ▸ h)

theorem removeState_zero (h : s.mergePools 0 = none) (x : Nat) :
    (s.removeState x).mergePools 0 = none := by
  simp only [removeState]
  exact setStates_zero h

theorem removeState_inv (hinv : Inv s) (hx : ∀ g, (s.mergePools.get g).firstState ≠ some x) :
    Inv (s.removeState x) := by
  have hd : Inv (s.detach x none (s.activeStates.erase x)) :=
    detach_inv hinv hx nofun (erase_subset x _) fun t ht hne => mem_erase.2 ⟨hne, ht⟩
  exact hd.congr (fun _ => rfl) hd.zero rfl rfl rfl

theorem addState_inv (hinv : Inv s) (hx : s.groupId a.1 = none) (ha : a.2 < s.nextMergeGroupId) :
    Inv (s.addState a) := by
  have hfst (g : Nat) : ((s.addState a).mergePools.get g).firstState =
      (s.mergePools.get g).firstState := firstState_setStates _ _ _ _
  have hn {g} : s.groupId a.1 ≠ some g := by
    rw [hx]
    exact nofun
  refine hinv.move (x := a.1) (setStates_zero hinv.zero) (Nat.le_refl _)
    (fun t hne => ⟨update_of_ne hne _ _, mem_insert.trans (or_iff_right hne),
      fun g => ?_, fun g => by rw [hfst]⟩)
    (placed_inside (update_self _ _ _) (mem_insert_self _ _) (fun g => ?_) ?_ ha)
  · exact mem_setStates (fun _ => mem_insert.trans (or_iff_right hne)) _ g
  · simp only [addState, states_setStates]
    split
    next h => exact iff_of_true (mem_insert_self _ _) h
    next h => exact iff_of_false (fun hm => hn (hinv.pending hm)) h
  · intro g h
    exact hn (hinv.waiting (hfst g ▸ h)).1

theorem firstState_removeState (s : MergingSearcher) (x g : Nat) :
    ((s.removeState x).mergePools.get g).firstState = (s.mergePools.get g).firstState :=
  firstState_setStates s.mergePools ((s.groupId x).getD 0) (fun states => states.erase x) g

theorem firstState_addState (s : MergingSearcher) (a : Nat × Nat) (g : Nat) :
    ((s.addState a).mergePools.get g).firstState = (s.mergePools.get g).firstState :=
  firstState_setStates s.mergePools a.2 (insert a.1) g

theorem firstState_removeAll (removed : List Nat) (s : MergingSearcher) (g : Nat) :
    ((removed.foldl removeState s).mergePools.get g).firstState =
      (s.mergePools.get g).firstState := by
  induction removed generalizing s with
  | nil => rfl
  | cons x removed ih => rw [foldl_cons, ih, firstState_removeState]

theorem firstState_addAll (added : List (Nat × Nat)) (s : MergingSearcher) (g : Nat) :
    ((added.foldl addState s).mergePools.get g).firstState = (s.mergePools.get g).firstState := by
  induction added generalizing s with
  | nil => rfl
  | cons a added ih => rw [foldl_cons, ih, firstState_addState]

theorem removeAll_inv {removed : List Nat} (hinv : Inv s)
    (hx : ∀ x ∈ removed, ∀ g, (s.mergePools.get g).firstState ≠ some x) :
    Inv (removed.foldl removeState s) := by
  induction removed generalizing s with
  | nil => exact hinv
  | cons x removed ih =>
    rw [forall_mem_cons] at hx
    apply ih (removeState_inv hinv hx.1)
    intro x' hx' g
    rw [firstState_removeState]
    exact hx.2 x' hx' g

theorem addAll_inv {added : List (Nat × Nat)} (hinv : Inv s) (hn : (added.map Prod.fst).Nodup)
    (hx : ∀ a ∈ added, s.groupId a.1 = none ∧ a.2 < s.nextMergeGroupId) :
    Inv (added.foldl addState s) := by
  induction added generalizing s with
  | nil => exact hinv
  | cons a added ih =>
    rw [List.map_cons, nodup_cons] at hn
    rw [forall_mem_cons] at hx
    apply ih (addState_inv hinv hx.1.1 hx.1.2) hn.2
    intro a' ha'
    have hne : a'.1 ≠ a.1 := fun he => hn.1 (he ▸ mem_map_of_mem ha')
    simp only [addState, update_of_ne hne]
    exact hx.2 a' ha'

theorem groupId_removeAll {removed : List Nat} (h : s.groupId x = none) :
    (removed.foldl removeState s).groupId x = none := by
  induction removed generalizing s with
  | nil => exact h
  | cons y removed ih =>
    apply ih
    simp only [removeState, update_apply]
    split
    · rfl
    · exact h

theorem nextMergeGroupId_removeAll (removed : List Nat) (s : MergingSearcher) :
    (removed.foldl removeState s).nextMergeGroupId = s.nextMergeGroupId := by
  induction removed generalizing s with
  | nil => rfl
  | cons y removed ih => exact ih (s.removeState y)

theorem mem_removeAll {removed : List Nat} (ht : t ∈ (s.mergePools.get g).states)
    (hn : t ∉ removed) : t ∈ ((removed.foldl removeState s).mergePools.get g).states := by
  induction removed generalizing s with
  | nil => exact ht
  | cons x removed ih =>
    rw [mem_cons, not_or] at hn
    apply ih _ hn.2
    simp only [removeState, states_setStates]
    split
    next h => exact mem_erase.2 ⟨hn.1, h.1 ▸ ht⟩
    · exact ht

theorem mem_addAll {added : List (Nat × Nat)} (ht : t ∈ (s.mergePools.get g).states) :
    t ∈ ((added.foldl addState s).mergePools.get g).states := by
  induction added generalizing s with
  | nil => exact ht
  | cons a added ih =>
    apply ih
    simp only [addState, states_setStates]
    split
    next h => exact mem_insert_of_mem (h.1 ▸ ht)
    · exact ht

theorem added_mem_addAll {added : List (Nat × Nat)} (ha : a ∈ added) (hz : a.2 ≠ 0) :
    a.1 ∈ ((added.foldl addState s).mergePools.get a.2).states := by
  induction added generalizing s with
  | nil => cases ha
  | cons a' added ih =>
    rcases mem_cons.1 ha with rfl | ha
    · rw [foldl_cons]
      apply mem_addAll
      have hs := states_setStates s.mergePools a.2 (insert a.1) a.2
      rw [if_pos ⟨rfl, hz⟩] at hs
      change a.1 ∈ ((s.mergePools.setStates a.2 (insert a.1)).get a.2).states
      rw [hs]
      exact mem_insert_self _ _
    · exact ih ha

/-- No update removes a waiting state, or all that it waits for. -/
def Spares (s : MergingSearcher) : SearcherEvent → Prop
  | .update added removed => ∀ g w, (s.mergePools.get g).firstState = some w →
    w ∉ removed ∧ ((∃ t ∈ (s.mergePools.get g).states, t ∉ removed) ∨
      ∃ a ∈ added, a.1 ∉ removed ∧ a.2 = g)
  | _ => True

theorem update_inv (hinv : Inv s) (hk : s.knows added removed = true)
    (hsp : s.Spares (.update added removed)) : Inv (s.update added removed) := by
  rw [knows, Bool.and_eq_true_iff, Bool.and_eq_true_iff, decide_eq_true_iff] at hk
  obtain ⟨⟨hn, had⟩, _⟩ := hk
  have hr : Inv (removed.foldl removeState s) := by
    apply removeAll_inv hinv
    intro x hx g hfst
    exact (hsp g x hfst).1 hx
  have hs := (filter_sublist (l := added) (p := fun a => decide (a.1 ∉ removed))).map Prod.fst
  apply addAll_inv hr (hn.sublist hs)
  intro a ha
  have ha := all_eq_true.1 had a (mem_of_mem_filter ha)
  rw [Bool.and_eq_true_iff, decide_eq_true_iff] at ha
  rw [groupId_removeAll (beq_iff_eq.1 ha.1), nextMergeGroupId_removeAll]
  exact ⟨rfl, ha.2⟩

theorem update_awaited (hinv : Inv s) (hsp : s.Spares (.update added removed)) :
    Awaited (s.update added removed) := by
  intro g w hfst
  rw [update, firstState_addAll, firstState_removeAll] at hfst
  rcases (hsp g w hfst).2 with ⟨t, ht, hn⟩ | ⟨a, ha, hn, rfl⟩
  · exact ⟨t, mem_addAll (mem_removeAll ht hn)⟩
  have hz : a.2 ≠ 0 := by
    intro hz
    rw [hz, MergePools.get, hinv.zero] at hfst
    cases hfst
  exact ⟨a.1, added_mem_addAll (mem_filter.2 ⟨ha, decide_eq_true hn⟩) hz⟩

def release (g w : Nat) (s : MergingSearcher) : MergingSearcher := { s with
    activeStates := insert w s.activeStates
    groupId := Function.update s.groupId w (some 0)
    mergePools := Function.update s.mergePools g none }

theorem update_none_zero {pools : MergePools} (h : pools 0 = none) (g : Nat) :
    Function.update pools g none 0 = none := by
  rw [update_apply]
  split
  · rfl
  · exact h

theorem release_inv (hinv : Inv s) (hw : (s.mergePools.get g).firstState = some w)
    (hn : (s.mergePools.get g).states = ∅) : Inv (s.release g w) := by
  have hot {g'} (hg : s.groupId w = some g') : g' = g :=
    some.inj (hg.symm.trans (hinv.waiting hw).1)
  refine hinv.move (x := w) (update_none_zero hinv.zero g) (Nat.le_refl _)
    (fun t hne => ⟨update_of_ne hne _ _, mem_insert.trans (or_iff_right hne),
      fun g' => ?_, fun g' => ?_⟩) (placed_outside (fun g' => ?_) (fun g' => ?_) hinv.next_pos ?_)
  all_goals simp only [release, get_update]
  · split
    next he =>
      rw [he, hn]
      rfl
    · rfl
  · split
    next he =>
      rw [he, hw]
      exact iff_of_false nofun fun h => hne (some.inj h).symm
    · rfl
  · split
    · exact notMem_empty w
    next he => exact fun hm => he (hot (hinv.pending hm))
  · split
    · exact nofun
    next he => exact fun h => he (hot (hinv.waiting h).1)
  · intro g' h
    rw [update_self] at h
    cases h
    exact ⟨rfl, mem_insert_self _ _⟩

theorem suspend_inv (hinv : Inv s) (hg : s.groupId x = some g)
    (hm : x ∈ (s.mergePools.get g).states) (hfst : (s.mergePools.get g).firstState = none) :
    Inv (suspend x (setPool g (some ⟨some x, (s.mergePools.get g).states.erase x⟩) s)) := by
  have hz := hinv.group_ne_zero hm
  refine hinv.move (x := x) ((update_of_ne hz.symm _ _).trans hinv.zero) (Nat.le_refl _)
    (fun t hne => ⟨rfl, mem_erase.trans (and_iff_right hne), fun g' => ?_, fun g' => ?_⟩)
    ⟨fun h => absurd (some.inj (hg.symm.trans h)) hz, fun {g'} h _ => ?_,
      fun {g'} h => ?_, fun {g'} h => ?_, hinv.bound⟩
  all_goals simp only [suspend, setPool, get_update] at *
  · split
    next he => exact mem_erase.trans (by rw [he]; exact and_iff_right hne)
    · rfl
  · split
    next he =>
      rw [he, hfst]
      exact iff_of_false (fun h => hne (some.inj h).symm) nofun
    · rfl
  · rw [if_pos (some.inj (hg.symm.trans h)).symm]
    exact .inr rfl
  · split at h
    · exact absurd h (notMem_erase x _)
    · exact hinv.pending h
  · split at h
    next he =>
      rw [if_pos he, he]
      exact ⟨hg, notMem_erase x _, notMem_erase x _⟩
    next he => exact absurd (some.inj ((hinv.waiting h).1.symm.trans hg)) he

def PoolChanged (g : Nat) (pool : MergePool) (s s' : MergingSearcher) : Prop :=
  ∀ g', s'.mergePools.get g' = if g' = g then pool else s.mergePools.get g'

theorem PoolChanged.awaited (h : PoolChanged g pool s s') (hw : Awaited s)
    (hp : pool.firstState ≠ none → pool.states.Nonempty) : Awaited s' := by
  intro g' w hfst
  rw [h g'] at hfst ⊢
  split_ifs at hfst ⊢
  · exact hp (by rw [hfst]; exact nofun)
  · exact hw g' w hfst

theorem setPool_changed (g : Nat) (pool : Option MergePool) (s : MergingSearcher) :
    PoolChanged g (pool.getD ⟨none, ∅⟩) s (setPool g pool s) :=
  fun g' => get_update s.mergePools g pool g'

theorem detach_changed (group : Option Nat) (active : Finset Nat) (hg : s.groupId x = some g)
    (hz : g ≠ 0) :
    PoolChanged g ⟨(s.mergePools.get g).firstState, (s.mergePools.get g).states.erase x⟩ s
      (s.detach x group active) := by
  intro g'
  simp only [detach, hg, getD_some, get_setStates]
  split
  next h => rw [if_pos h.1]
  next h => rw [if_neg fun he => h ⟨he, hz⟩]

theorem removeState_changed (hg : s.groupId x = some g) (hz : g ≠ 0) :
    PoolChanged g ⟨(s.mergePools.get g).firstState, (s.mergePools.get g).states.erase x⟩ s
      (s.removeState x) := detach_changed none ∅ hg hz

theorem PoolChanged.trans (h : PoolChanged g pool s s1) (h' : PoolChanged g pool' s1 s') :
    PoolChanged g pool' s s' := by
  intro g'
  rw [h' g', h g']
  split <;> rfl

theorem PoolChanged.eq (h : PoolChanged g pool s s1) (h' : PoolChanged g pool s s') (g' : Nat) :
    s'.mergePools.get g' = s1.mergePools.get g' := (h' g').trans (h g').symm

structure Runs (s : MergingSearcher) (x g : Nat) (pool : MergePool) : Prop where
  active : x ∈ s.activeStates
  group : s.groupId x = some g
  pool_eq : s.mergePools g = some pool

section
variable (h : Runs s x g pool)
include h
theorem Runs.ne_zero (hinv : Inv s) : g ≠ 0 := by
  rintro rfl
  have hp := h.pool_eq
  rw [hinv.zero] at hp
  cases hp

theorem Runs.get_eq : s.mergePools.get g = pool := get_of_some h.pool_eq

variable (hinv : Inv s)
include hinv
theorem Runs.not_waiting (g' : Nat) :
    (s.mergePools.get g').firstState ≠ some x := fun hw => (hinv.waiting hw).2.2 h.active

theorem Runs.mem : x ∈ (s.mergePools.get g).states := by
  rcases hinv.member h.group (h.ne_zero hinv) with hm | hw
  · exact hm.1
  · exact absurd hw (h.not_waiting hinv g)

theorem Runs.detach_changed (group : Option Nat) (active : Finset Nat) :
    PoolChanged g ⟨pool.firstState, pool.states.erase x⟩ s (s.detach x group active) := by
  have hc := MergingSearcher.detach_changed group active h.group (h.ne_zero hinv)
  rw [h.get_eq] at hc
  exact hc

theorem Runs.leave_inv : Inv (s.detach x (some 0) s.activeStates) := by
  apply detach_inv hinv (h.not_waiting hinv) _ (Finset.Subset.refl _) fun _ ht _ => ht
  rintro g' ⟨⟩
  exact ⟨rfl, h.active⟩

theorem Runs.remove_inv : Inv (s.detach x none (s.activeStates.erase x)) :=
  detach_inv hinv (h.not_waiting hinv) nofun (erase_subset x _)
    fun _ ht hne => mem_erase.2 ⟨hne, ht⟩

theorem Runs.ends_alone (hfst : pool.firstState = none)
    (hn : pool.states.erase x = ∅) : Inv (setPool g none (setGroupId x 0 s)) := by
  have hc := h.detach_changed hinv (some 0) s.activeStates
  rw [hfst, hn] at hc
  exact (h.leave_inv hinv).congr (hc.eq (setPool_changed g none s))
    (update_none_zero hinv.zero g) rfl rfl rfl

theorem Runs.first_waits (hfst : pool.firstState = none) :
    Inv (suspend x (setPool g (some ⟨some x, pool.states.erase x⟩) s)) := by
  rw [← h.get_eq] at hfst ⊢
  exact suspend_inv hinv h.group (h.mem hinv) hfst

end

section
variable (h : Runs s x g pool) (hinv : Inv s) (hfst : pool.firstState = some first)
include h hinv hfst
theorem Runs.first_ne : x ≠ first := by
  rintro rfl
  rw [← h.get_eq] at hfst
  exact h.not_waiting hinv g hfst

omit hfst in
theorem Runs.setPool_zero (pool' : Option MergePool) :
    Function.update s.mergePools g pool' 0 = none := by
  rw [update_of_ne (Ne.symm (h.ne_zero hinv))]
  exact hinv.zero

theorem Runs.mergeInto_failed :
    Inv (setGroupId x 0 (mergeInto first g (pool.states.erase x) s)) := by
  have hl := h.leave_inv hinv
  have hc := h.detach_changed hinv (some 0) s.activeStates
  rw [hfst] at hc
  rw [mergeInto]
  split
  next hn =>
    have hg := hc g
    rw [if_pos rfl] at hg
    have hr := release_inv hl (w := first) (g := g) (by rw [hg]) (by rw [hg]; exact hn)
    have hno := setPool_changed g none (s.detach x (some 0) s.activeStates)
    refine hr.congr ((hc.trans hno).eq (setPool_changed g none s))
      (update_none_zero hinv.zero g) rfl ?_ rfl
    exact (update_comm (h.first_ne hinv hfst) _ _ _).symm
  · exact hl.congr (hc.eq (setPool_changed g _ s)) (h.setPool_zero hinv _) rfl rfl rfl

theorem Runs.mergeInto_merged :
    Inv (update [] [x] (mergeInto first g (pool.states.erase x) s)) := by
  have hl := h.remove_inv hinv
  have hc := h.detach_changed hinv none (s.activeStates.erase x)
  rw [hfst] at hc
  have hne := h.first_ne hinv hfst
  rw [mergeInto]
  split
  next hn =>
    have hg := hc g
    rw [if_pos rfl] at hg
    have hrl := release_inv hl (w := first) (g := g) (by rw [hg]) (by rw [hg]; exact hn)
    have hno := setPool_changed g none (s.detach x none (s.activeStates.erase x))
    have hgp : (setPool g none (setGroupId first 0 (resume first s))).groupId x = some g :=
      (update_of_ne hne _ _).trans h.group
    have hs : PoolChanged g ⟨none, ∅⟩ s (setPool g none (setGroupId first 0 (resume first s))) :=
      setPool_changed g none s
    have hr := removeState_changed hgp (h.ne_zero hinv)
    rw [hs g, if_pos rfl, erase_eq_of_notMem (notMem_empty x)] at hr
    refine hrl.congr ((hc.trans hno).eq (hs.trans hr))
      (removeState_zero (update_none_zero hinv.zero g) x) ?_ ?_ rfl
    · exact erase_insert_of_ne hne.symm
    · exact (update_comm hne _ _ _).symm
  · have hgp : (setPool g (some ⟨some first, pool.states.erase x⟩) s).groupId x = some g := h.group
    have hs := setPool_changed g (some ⟨some first, pool.states.erase x⟩) s
    have hr := removeState_changed hgp (h.ne_zero hinv)
    rw [hs g, if_pos rfl, getD_some, erase_idem] at hr
    exact hl.congr (hc.eq (hs.trans hr)) (removeState_zero (h.setPool_zero hinv _) x) rfl rfl rfl

end

theorem mergeInto_changed (first g : Nat) (states : Finset Nat) (s : MergingSearcher) :
    ∃ pool, PoolChanged g pool s (mergeInto first g states s) ∧
      (pool.firstState ≠ none → states.Nonempty ∧ pool.states = states) := by
  rw [mergeInto]
  split
  · exact ⟨_, setPool_changed g none s, fun h => absurd rfl h⟩
  next hne => exact ⟨_, setPool_changed g _ s, fun _ => ⟨nonempty_iff_ne_empty.2 hne, rfl⟩⟩

theorem Runs.removed_awaited (h : Runs s x g pool) (hinv : Inv s) (hw : Awaited s)
    (hc : PoolChanged g pool' s s1) (hp : pool'.firstState ≠ none →
      (pool.states.erase x).Nonempty ∧ pool'.states = pool.states.erase x) :
    Awaited (update [] [x] s1) := by
  intro g' w hfst
  change ((s1.removeState x).mergePools.get g').firstState = some w at hfst
  rw [firstState_removeState, hc g'] at hfst
  have hot : ∃ t ∈ (s1.mergePools.get g').states, t ∉ [x] := by
    rw [hc g']
    split at hfst
    next he =>
      obtain ⟨⟨t, ht⟩, hs⟩ := hp (by rw [hfst]; exact nofun)
      rw [if_pos he, hs]
      exact ⟨t, ht, fun hx => ne_of_mem_erase ht (mem_singleton.1 hx)⟩
    next he =>
      obtain ⟨t, ht⟩ := hw g' w hfst
      rw [if_neg he]
      refine ⟨t, ht, fun hx => he ?_⟩
      have hg := hinv.pending ht
      rw [mem_singleton.1 hx, h.group] at hg
      exact (some.inj hg).symm
  obtain ⟨t, ht, hne⟩ := hot
  exact ⟨t, mem_removeAll ht hne⟩

theorem mergeEnd_kept (hinv : Inv s) (hw : Awaited s) (ha : x ∈ s.activeStates)
    (hlv : s.groupId x ≠ none) (h : s.mergeEnd x success = .ok s') : Inv s' ∧ Awaited s' := by
  obtain ⟨g, hg⟩ := ne_none_iff_exists'.1 hlv
  rw [mergeEnd, hg, getD_some] at h
  split at h
  · cases h
    exact ⟨hinv, hw⟩
  next pool hp =>
    have hr : Runs s x g pool := ⟨ha, hg, hp⟩
    split at h
    next hfst =>
      split at h
      next hn =>
        cases h
        exact ⟨hr.ends_alone hinv hfst hn,
          PoolChanged.awaited (setPool_changed g none s) hw fun h => absurd rfl h⟩
      next hne =>
        cases h
        exact ⟨hr.first_waits hinv hfst, PoolChanged.awaited (setPool_changed g _ s) hw
          fun _ => nonempty_iff_ne_empty.2 hne⟩
    next first hfst =>
      obtain ⟨pool', hc, hpo⟩ := mergeInto_changed first g (pool.states.erase x) s
      split at h
      · cases h
      split at h
      · cases h
        exact ⟨hr.mergeInto_merged hinv hfst, hr.removed_awaited hinv hw hc hpo⟩
      cases h
      refine ⟨hr.mergeInto_failed hinv hfst, hc.awaited hw fun hne => ?_⟩
      rw [(hpo hne).2]
      exact (hpo hne).1

theorem mergeStart_inv (hinv : Inv s) (hg : s.groupId x = some 0) : Inv (s.mergeStart x) := by
  have ha := hinv.idle hg
  have hno {t} : t ∉ (s.mergePools.get s.nextMergeGroupId).states := fun h =>
    absurd (hinv.bound (hinv.pending h)) (Nat.lt_irrefl _)
  rw [mergeStart, if_pos hg]
  refine hinv.move (x := x) (setStates_zero hinv.zero) (Nat.le_succ _)
    (fun t hne => ⟨update_of_ne hne _ _, Iff.rfl, fun g => ?_, fun g => ?_⟩)
    (placed_inside (update_self _ _ _) ha (fun g => ?_) (fun g => ?_) (Nat.lt_succ_self _))
  · exact mem_setStates (fun _ => mem_insert.trans (or_iff_right hne)) _ g
  · rw [firstState_setStates]
  · rw [states_setStates]
    split
    next h => exact iff_of_true (mem_insert_self _ _) h
    next h =>
      refine iff_of_false (fun hm => ?_) h
      exact hinv.group_ne_zero hm (some.inj ((hinv.pending hm).symm.trans hg))
  · rw [firstState_setStates]
    exact fun h => (hinv.waiting h).2.2 ha

theorem mergeStart_awaited (hw : Awaited s) (x : Nat) : Awaited (s.mergeStart x) := by
  rw [mergeStart]
  split
  · intro g w hfst
    simp only [firstState_setStates] at hfst
    simp only [states_setStates]
    split
    · exact insert_nonempty _ _
    · exact hw g w hfst
  · exact hw

theorem selectState_same (h : s.selectState choice = .ok s') :
    s'.mergePools = s.mergePools ∧ s'.activeStates = s.activeStates ∧
      s'.groupId = s.groupId ∧ s'.nextMergeGroupId = s.nextMergeGroupId := by
  rw [selectState] at h
  split at h
  · cases h
    exact ⟨rfl, rfl, rfl, rfl⟩
  split at h
  · cases h
    exact ⟨rfl, rfl, rfl, rfl⟩
  · cases h

theorem handle_kept (hinv : Inv s) (hw : Awaited s) (hsp : s.Spares event)
    (h : s.handle event = .ok s') : Inv s' ∧ Awaited s' := by
  cases event with
  | update added removed =>
    rw [handle] at h
    split at h
    next hk =>
      cases h
      exact ⟨update_inv hinv hk hsp, update_awaited hinv hsp⟩
    · cases h
  | selectState choice =>
    obtain ⟨hps, ha, hg, hn⟩ := selectState_same h
    refine ⟨hinv.congr (fun g => by rw [hps]) ?_ ha hg hn, ?_⟩
    · rw [hps]
      exact hinv.zero
    · rw [Awaited, hps]
      exact hw
  | mergeStart state =>
    rw [handle] at h
    split at h
    · cases h
      refine ⟨?_, mergeStart_awaited hw state⟩
      by_cases hg : s.groupId state = some 0
      · exact mergeStart_inv hinv hg
      · rw [mergeStart, if_neg hg]
        exact hinv
    · cases h
  | mergeEnd state success =>
    rw [handle] at h
    split at h
    next hr => exact mergeEnd_kept hinv hw hr.1 hr.2 h
    · cases h

theorem start_inv (states : Finset Nat) : Inv (start states) ∧ Awaited (start states) := by
  refine ⟨⟨rfl, Nat.one_pos, ?_, ?_, nofun, nofun, ?_⟩, nofun⟩
  · intro t ht
    simp only [start] at ht
    split at ht
    · assumption
    · cases ht
  · intro t g ht hg
    simp only [start] at ht
    split at ht
    · cases ht
      exact absurd rfl hg
    · cases ht
  · intro t g ht
    simp only [start] at ht
    split at ht
    · cases ht
      exact Nat.one_pos
    · cases ht

end

/-- If the updates spare the waiting states, no state is lost. -/
theorem searcher_noneLost (h : machine.Reachable Spares s) : NoneLost s := by
  have hkp : Inv s ∧ Awaited s := by
    apply h.invariant (I := fun s => Inv s ∧ Awaited s)
    · rintro s ⟨states, rfl⟩
      exact start_inv states
    · intro s event s' hkp hsp hs
      exact handle_kept hkp.1 hkp.2 hsp hs
  exact noneLost_of_inv hkp.1 hkp.2

def forkedInGroup : MergingSearcher := ((start {0}).mergeStart 0).update [(1, 1)] []

def firstEnds : MergingSearcher := suspend 0 (setPool 1 (some ⟨some 0, {1}⟩) forkedInGroup)

theorem mergeStart_step (allow : MergingSearcher → SearcherEvent → Prop)
    (hm : ∀ s, allow s (.mergeStart 0)) : machine.Reachable allow ((start {0}).mergeStart 0) := by
  have hi : machine.init (start {0}) := ⟨{0}, rfl⟩
  have hst : machine.step (start {0}) (.mergeStart 0) ((start {0}).mergeStart 0) := rfl
  exact .step (.init hi) (hm _) hst

theorem mergeStart_first (g : Nat) :
    (((start {0}).mergeStart 0).mergePools.get g).firstState = none := by
  have hg : (start {0}).groupId 0 = some 0 := rfl
  rw [mergeStart, if_pos hg, firstState_setStates]
  rfl

theorem firstEnds_reachable (allow : MergingSearcher → SearcherEvent → Prop)
    (hm : ∀ s event, s.Spares event → allow s event) : machine.Reachable allow firstEnds := by
  have hst : machine.Reachable allow ((start {0}).mergeStart 0) :=
    mergeStart_step allow fun s => hm s (.mergeStart 0) trivial
  have hf : machine.step ((start {0}).mergeStart 0) (.update [(1, 1)] []) forkedInGroup := rfl
  have he : machine.step forkedInGroup (.mergeEnd 0 false) firstEnds := rfl
  have hsp : ((start {0}).mergeStart 0).Spares (.update [(1, 1)] []) := by
    intro g w hfst
    rw [mergeStart_first] at hfst
    cases hfst
  exact .step (.step hst (hm _ _ hsp) hf) (hm _ (.mergeEnd 0 false) trivial) he

theorem firstEnds_noneLost : 0 ∉ firstEnds.activeStates ∧ NoneLost firstEnds :=
  ⟨by decide, searcher_noneLost (firstEnds_reachable Spares fun _ _ hsp => hsp)⟩

theorem removed_after_firstEnds :
    ∃ s, machine.Reached s ∧ s.groupId 0 = some 1 ∧ 0 ∉ s.activeStates ∧ ¬NoneLost s := by
  have hre : machine.Reached firstEnds := firstEnds_reachable _ fun _ _ _ => trivial
  have hr : machine.step firstEnds (.update [] [1]) (firstEnds.update [] [1]) := rfl
  refine ⟨firstEnds.update [] [1], hre.step trivial hr, rfl, by decide, ?_⟩
  intro hno
  rcases hno 0 (by decide) with ha | ⟨_, _, _, _, t, _, hne, hlv⟩
  · exact absurd ha (by decide)
  have hd : (firstEnds.update [] [1]).groupId t = none := by
    by_cases h1 : t = 1
    · rw [h1]
      rfl
    · simp [firstEnds, forkedInGroup, update, removeState, addState, suspend, setPool,
        mergeStart, start, h1, hne]
  exact hlv hd

end MergingSearcher
end Chef
