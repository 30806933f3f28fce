import Mathlib.Data.Set.Insert
import Chef.Foundations.Transition
import Chef.HighLevelPath
import Chef.Selectors

namespace Chef
open Foundations List Set QueuedSelector
structure HighLevelStrategy (σ : Type) where
  init : σ
  addStates : σ → Option Nat → List Nat → Except StrategyFault σ
  killState : σ → Nat → Except StrategyFault σ
  updateState : σ → Nat → Except StrategyFault σ
  selectState : σ → Option Nat × σ

/-- It chooses among the states it was given that were not killed. -/
structure HighLevelStrategy.Lawful (S : HighLevelStrategy σ) where
  Tracks : σ → Set Nat → Prop
  init : Tracks S.init ∅
  addStates : Tracks s T → S.addStates s current states = .ok s' →
    Tracks s' (T ∪ { h | h ∈ states })
  killState : Tracks s T → S.killState s h = .ok s' → Tracks s' (T \ {h})
  updateState : Tracks s T → S.updateState s h = .ok s' → Tracks s' T
  selectState : Tracks s T → Tracks (S.selectState s).2 T
  selectState_mem : Tracks s T → (S.selectState s).1 = some h → h ∈ T

inductive SelectorKind where
  | bfs
  | dfs
  deriving DecidableEq

def SelectorKind.select (k : SelectorKind) (q : QueuedSelector Nat) : Option Nat :=
  match k with
  | .bfs => q.selectBFS
  | .dfs => q.selectDFS

/-- Selector strategies require a known state when nothing is added. -/
def updateKnown (q : QueuedSelector Nat) (state : Nat) :
    Except StrategyFault (QueuedSelector Nat) :=
  if (q.update state).1 then .error .currentNotInSelector else .ok (q.update state).2

def addNew (q : QueuedSelector Nat) : List Nat → Except StrategyFault (QueuedSelector Nat)
  | [] => .ok q
  | state :: states =>
    if (q.update state).1 then addNew (q.update state).2 states else .error .stateAlreadyAdded

def selectorStrategy (k : SelectorKind) : HighLevelStrategy (QueuedSelector Nat) where
  init := .empty
  addStates q current states :=
    match current with
    | some state => updateKnown q state >>= fun q => addNew q states
    | none => addNew q states
  killState q state :=
    if (q.remove state).1 then .ok (q.remove state).2 else .error .stateKilledTwice
  updateState := updateKnown
  selectState q := (k.select q, q)

def SelectorTracks (q : QueuedSelector Nat) (T : Set Nat) : Prop :=
  q.Valid ∧ ∀ h, h ∈ T ↔ h ∈ q.values

section
variable (h : SelectorTracks q T)
include h
theorem SelectorTracks.update (v : Nat) : SelectorTracks (q.update v).2 (insert v T) := by
  refine ⟨h.1.update v, fun w => ?_⟩
  rw [h.1.mem_update, ← h.2 w, mem_insert_iff, or_comm]

theorem SelectorTracks.known :
    (q.update v).1 = false ↔ v ∈ T := by rw [← Bool.not_eq_true, h.1.update_added, h.2 v, not_not]

theorem SelectorTracks.updateKnown (hu : updateKnown q v = .ok q') : SelectorTracks q' T := by
  unfold Chef.updateKnown at hu
  split at hu
  · cases hu
  next hk =>
    cases hu
    have hv := h.known.1 (Bool.eq_false_of_not_eq_true hk)
    have ht := h.update v
    rwa [insert_eq_of_mem hv] at ht

theorem SelectorTracks.updateKnown_ok (hv : v ∈ T) : ∃ q', Chef.updateKnown q v = .ok q' := by
  refine ⟨(q.update v).2, ?_⟩
  rw [Chef.updateKnown, h.known.2 hv]
  rfl

theorem SelectorTracks.addNew (ha : addNew q states = .ok q') :
    SelectorTracks q' (T ∪ { s | s ∈ states }) := by
  induction states generalizing q T with
  | nil =>
    cases ha
    simpa using h
  | cons s states ih =>
    rw [Chef.addNew] at ha
    split at ha
    · have ht := ih (h.update s) ha
      have he : insert s T ∪ { t | t ∈ states } = T ∪ { t | t ∈ s :: states } := by
        ext t
        simp only [mem_union, mem_insert_iff, mem_ofPred_eq, mem_cons]
        tauto
      rwa [he] at ht
    · cases ha

theorem SelectorTracks.addNew_ok (hn : states.Nodup)
    (hd : ∀ s ∈ states, s ∉ T) : ∃ q', Chef.addNew q states = .ok q' := by
  induction states generalizing q T with
  | nil => exact ⟨q, rfl⟩
  | cons s states ih =>
    rw [nodup_cons] at hn
    have hs : (q.update s).1 = true := by
      by_contra hf
      exact hd s mem_cons_self (h.known.1 (Bool.eq_false_of_not_eq_true hf))
    rw [Chef.addNew, if_pos hs]
    apply ih (h.update s) hn.2
    intro t ht hm
    rcases mem_insert_iff.1 hm with he | hm
    · exact hn.1 (he ▸ ht)
    · exact hd t (mem_cons_of_mem _ ht) hm

theorem SelectorTracks.select_mem {k : SelectorKind} (hs : k.select q = some v) : v ∈ T := by
  rw [h.2 v, values]
  cases k with
  | bfs =>
    obtain ⟨e, he, hv⟩ := Option.map_eq_some_iff.1 hs
    exact mem_map.2 ⟨e, mem_of_getLast? he, hv⟩
  | dfs =>
    obtain ⟨e, he, hv⟩ := Option.map_eq_some_iff.1 hs
    exact mem_map.2 ⟨e, mem_of_head? he, hv⟩

end

def selectorLawful (k : SelectorKind) : (selectorStrategy k).Lawful where
  Tracks := SelectorTracks
  init := ⟨.empty, by simp [selectorStrategy, empty, values]⟩
  addStates {s T current states s'} h ha := by
    cases current with
    | none => exact h.addNew ha
    | some state =>
      obtain ⟨q, hq, ha⟩ := bind_ok_iff.1 ha
      exact (h.updateKnown hq).addNew ha
  killState {s T v s'} h hk := by
    simp only [selectorStrategy] at hk
    split at hk
    · cases hk
      refine ⟨h.1.remove v, fun w => ?_⟩
      rw [h.1.mem_remove, ← h.2 w, mem_sdiff, mem_singleton_iff]
    · cases hk
  updateState h hu := h.updateKnown hu
  selectState h := h
  selectState_mem h hs := h.select_mem hs

/-- Its own assertions hold whenever it is used as it should be. -/
structure HighLevelStrategy.Total (S : HighLevelStrategy σ) (L : S.Lawful) : Prop where
  addStates : L.Tracks s T → (∀ h, current = some h → h ∈ T) → states.Nodup →
    (∀ h ∈ states, h ∉ T) → ∃ s', S.addStates s current states = .ok s'
  killState : L.Tracks s T → h ∈ T → ∃ s', S.killState s h = .ok s'
  updateState : L.Tracks s T → h ∈ T → ∃ s', S.updateState s h = .ok s'

theorem selectorTotal (k : SelectorKind) : (selectorStrategy k).Total (selectorLawful k) where
  addStates {s T current states} h hc hn hd := by
    cases current with
    | none => exact h.addNew_ok hn hd
    | some state =>
      obtain ⟨q, hq⟩ := h.updateKnown_ok (hc state rfl)
      obtain ⟨q', hq'⟩ := (h.updateKnown hq).addNew_ok hn hd
      exact ⟨q', bind_ok_iff.2 ⟨q, hq, hq'⟩⟩
  killState {s T v} h hv := by
    have hr : (s.remove v).1 = true := h.1.remove_found.2 ((h.2 v).1 hv)
    exact ⟨(s.remove v).2, by simp only [selectorStrategy, hr, if_true]⟩
  updateState h hv := h.updateKnown_ok hv

end Chef
