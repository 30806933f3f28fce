import Mathlib.Data.List.Sort
import Chef.Foundations.Transition

namespace Chef
open Foundations List
inductive CurrentState where
  | null
  | state (id : Nat)
  | garbage
  deriving DecidableEq

inductive CoopEvent where
  | update (addedStates removedStates : List Nat)
  | scheduleNext (nextState : Option Nat)
  | yield
  deriving DecidableEq

structure CooperativeSearcher where
  states : List Nat
  currentState : CurrentState
  deriving DecidableEq

namespace CooperativeSearcher
def init : CooperativeSearcher := ⟨[], .null⟩

section
variable (s : CooperativeSearcher)
def removeState (id : Nat) : CooperativeSearcher :=
  ⟨s.states.filter (· ≠ id), if s.currentState = .state id then .null else s.currentState⟩

def addState (id : Nat) : CooperativeSearcher :=
  if id ∈ s.states then s else { s with states := s.states.orderedInsert (· ≤ ·) id }

def pickFirst : CooperativeSearcher :=
  match s.currentState, s.states.head? with
  | .null, some id => { s with currentState := .state id }
  | _, _ => s

def update (addedStates removedStates : List Nat) : CooperativeSearcher :=
  (addedStates.foldl addState (removedStates.foldl removeState s)).pickFirst

def previous (states : List Nat) (id : Nat) : CurrentState :=
  ((states.filter (· < id)).getLast?.or states.getLast?).elim .garbage .state

/-- The argument is converted to 32 bits. Dereferencing what is no state is a fault. -/
def handle : CoopEvent → Except Unit CooperativeSearcher
  | .update addedStates removedStates => .ok (s.update addedStates removedStates)
  | .scheduleNext none => .ok s
  | .scheduleNext (some nextState) =>
    let id := nextState % 2 ^ 32
    .ok { s with currentState := if id ∈ s.states then .state id else .garbage }
  | .yield =>
    if s.states.length = 1 then .ok s
    else
      match s.currentState with
      | .state id => .ok { s with currentState := previous s.states id }
      | _ => .error ()

end

def machine : Machine CooperativeSearcher CoopEvent where
  init s := s = init
  step s e s' := s.handle e = .ok s'

section
variable (s : CooperativeSearcher)
/-- A request is made by a state and names one, unless that state runs already. -/
structure Known (e : CoopEvent) : Prop where
  named : e = .scheduleNext (some nextState) → nextState % 2 ^ 32 ∈ s.states ∧
    (nextState ∈ s.states ∨ s.currentState = .state (nextState % 2 ^ 32))
  running : e = .yield → s.states ≠ []

def IsMember : Prop := s.currentState = .null ∨ ∃ id ∈ s.states, s.currentState = .state id

structure Settled : Prop where
  member : s.IsMember
  null_iff : s.currentState = .null ↔ s.states = []

structure Keeps (e : CoopEvent) (s' : CooperativeSearcher) : Prop where
  member : s'.IsMember
  updated : e = .update addedStates removedStates → (s'.currentState = .null ↔ s'.states = [])
  unknown : e = .scheduleNext (some nextState) → nextState ∉ s.states →
    s'.currentState = s.currentState

end

section
variable {s s' : CooperativeSearcher}
theorem IsMember.removeState (h : s.IsMember) (id : Nat) : (s.removeState id).IsMember := by
  rw [IsMember, CooperativeSearcher.removeState]
  split
  · exact .inl rfl
  next hne =>
    refine h.imp_right ?_
    rintro ⟨id', hid', hc⟩
    have hi : id' ≠ id := fun he => hne (he ▸ hc)
    exact ⟨id', mem_filter.2 ⟨hid', decide_eq_true hi⟩, hc⟩

theorem IsMember.addState (h : s.IsMember) (id : Nat) : (s.addState id).IsMember := by
  rw [CooperativeSearcher.addState]
  split
  · exact h
  refine h.imp_right ?_
  rintro ⟨id', hid', hc⟩
  exact ⟨id', (mem_orderedInsert _).2 (.inr hid'), hc⟩

theorem settled_state {states : List Nat} {id : Nat} (h : id ∈ states) :
    Settled ⟨states, .state id⟩ :=
  ⟨.inr ⟨id, h, rfl⟩, nofun, fun hn => absurd hn (ne_nil_of_mem h)⟩

theorem IsMember.pickFirst (h : s.IsMember) : s.pickFirst.Settled := by
  rw [CooperativeSearcher.pickFirst]
  split
  next id _ hid => exact settled_state (mem_of_head? hid)
  next hn =>
    refine ⟨h, fun hnu => ?_, fun hl => h.resolve_right ?_⟩
    · refine head?_eq_none_iff.1 (Option.eq_none_iff_forall_ne_some.2 fun id hid => ?_)
      exact hn id hnu hid
    · rintro ⟨id, hid, -⟩
      exact ne_nil_of_mem hid hl

theorem IsMember.update (h : s.IsMember) (addedStates removedStates : List Nat) :
    (s.update addedStates removedStates).Settled := by
  apply IsMember.pickFirst
  apply foldlRecOn (motive := IsMember)
  · exact foldlRecOn (motive := IsMember) _ _ h fun s hs id _ => hs.removeState id
  · exact fun s hs id _ => hs.addState id

theorem previous_mem {states : List Nat} {id : Nat} (h : id ∈ states) :
    ∃ id' ∈ states, previous states id = .state id' := by
  rw [previous]
  cases hf : (states.filter (· < id)).getLast?.or states.getLast? with
  | none =>
    have hn := getLast?_eq_none_iff.1 (Option.or_eq_none_iff.1 hf).2
    exact absurd hn (ne_nil_of_mem h)
  | some id' =>
    refine ⟨id', ?_, rfl⟩
    obtain hp | ⟨-, hla⟩ := Option.or_eq_some_iff.1 hf
    · exact mem_of_mem_filter (mem_of_getLast? hp)
    · exact mem_of_getLast? hla

theorem Settled.handle (hs : s.Settled) (hkn : Known s e) :
    ∃ s', s.handle e = .ok s' ∧ s'.Settled ∧ Keeps s e s' := by
  cases e with
  | update addedStates removedStates =>
    have hs' := hs.member.update addedStates removedStates
    exact ⟨_, rfl, hs', hs'.member, fun _ => hs'.null_iff, nofun⟩
  | scheduleNext nextState =>
    cases nextState with
    | none => exact ⟨s, rfl, hs, hs.member, nofun, nofun⟩
    | some nextState =>
      obtain ⟨hid, hst⟩ := hkn.named rfl
      have hs' := settled_state hid
      refine ⟨_, by rw [CooperativeSearcher.handle, if_pos hid], hs', hs'.member, nofun, ?_⟩
      rintro _ ⟨⟩ hn
      exact (hst.resolve_left hn).symm
  | yield =>
    rw [CooperativeSearcher.handle]
    split
    · exact ⟨s, rfl, hs, hs.member, nofun, nofun⟩
    obtain ⟨id, hid, hst⟩ := hs.member.resolve_left (mt hs.null_iff.1 (hkn.running rfl))
    obtain ⟨id', hid', hp⟩ := previous_mem hid
    have hs' := settled_state hid'
    rw [hst]
    refine ⟨_, rfl, ?_, ?_, nofun, nofun⟩
    · rw [hp]
      exact hs'
    · rw [hp]
      exact hs'.member

theorem Settled.known (hs : s.Settled) (h : s.handle e = .ok s') (hk : Keeps s e s') :
    Known s e := by
  constructor
  · rintro nextState rfl
    cases h
    by_cases hid : nextState % 2 ^ 32 ∈ s.states
    · refine ⟨hid, ?_⟩
      by_contra! hn
      have hsm := hk.unknown rfl hn.1
      rw [if_pos hid] at hsm
      exact hn.2 hsm.symm
    · have hm := hk.member
      rw [if_neg hid] at hm
      obtain hnu | ⟨_, -, hst⟩ := hm
      · cases hnu
      · cases hst
  · rintro rfl hl
    rw [CooperativeSearcher.handle, hs.null_iff.2 hl, hl] at h
    cases h

end

theorem currentState_kept_iff (h : machine.Reachable Known s) :
    (∃ s', machine.step s e s' ∧ Keeps s e s') ↔ Known s e := by
  have hs : s.Settled := by
    apply h.invariant
    · rintro s rfl
      exact ⟨.inl rfl, iff_of_true rfl rfl⟩
    intro s e s' hs hkn hstep
    obtain ⟨s1, hs1, ht, -⟩ := hs.handle hkn
    cases hs1.symm.trans hstep
    exact ht
  constructor
  · rintro ⟨s', hstep, hk⟩
    exact hs.known hstep hk
  · intro hkn
    obtain ⟨s', hs', -, hk⟩ := hs.handle hkn
    exact ⟨s', hs', hk⟩

def twoStates : CooperativeSearcher := ⟨[3, 5], .state 3⟩

theorem twoStates_reachable : machine.Reachable Known twoStates :=
  .step (.init rfl) (e := .update [3, 5] []) ⟨nofun, nofun⟩ rfl

theorem scheduleNext_known : ∃ s', machine.step twoStates (.scheduleNext (some 5)) s' ∧
    Keeps twoStates (.scheduleNext (some 5)) s' := by
  apply (currentState_kept_iff twoStates_reachable).2
  refine ⟨?_, nofun⟩
  rintro _ ⟨⟩
  decide

/-- The request for an unknown state reads behind the end of the map. -/
theorem scheduleNext_unknown : machine.Reachable Known twoStates ∧
    twoStates.handle (.scheduleNext (some 4)) = .ok ⟨[3, 5], .garbage⟩ ∧ 4 ∉ twoStates.states :=
  ⟨twoStates_reachable, rfl, by decide⟩

end CooperativeSearcher
end Chef
