import Chef.PathBuilder
import Chef.Foundations.AssocList
import Chef.Foundations.Loops

namespace Chef
open Foundations List
def TraceEntry.children (e : TraceEntry δ) : List Nat :=
  match e.item with
  | .fork _ children => children
  | .other _ => []

def statesOf (items : List (TraceEntry δ)) : List Nat := 0 :: items.flatMap TraceEntry.children

theorem statesOf_snoc (past : List (TraceEntry δ)) (e : TraceEntry δ) :
    statesOf (past ++ [e]) = statesOf past ++ e.children := by simp [statesOf]

/-- Its state exists, and a fork keeps it and adds new ones. -/
structure TraceEntry.Follows (past : List (TraceEntry δ)) (e : TraceEntry δ) : Prop where
  known : e.stateId ∈ statesOf past
  self : ∀ {pc children}, e.item = .fork pc children → e.stateId ∈ children
  distinct : e.children.Nodup
  unused : ∀ {c}, c ∈ e.children → c ≠ e.stateId → c ∉ statesOf past

inductive WellFormedTrace : List (TraceEntry δ) → Prop where
  | nil : WellFormedTrace []
  | snoc : WellFormedTrace past → e.Follows past → WellFormedTrace (past ++ [e])

/-- An item of the state, or of an ancestor before its fork. -/
inductive OnPath (items : List (TraceEntry δ)) : Nat → Nat → Nat → Prop where
  | own {e : TraceEntry δ} {k : Nat} : k < limit → items[k]? = some e → e.stateId = state →
      OnPath items state limit k
  | inherited {e : TraceEntry δ} {f : Nat} : f < limit → items[f]? = some e →
      state ∈ e.children → e.stateId ≠ state → OnPath items e.stateId (f + 1) k →
      OnPath items state limit k

theorem getElem?_snoc_cases (h : (l ++ [a])[k]? = some a') :
    l[k]? = some a' ∧ k < l.length ∨ k = l.length ∧ a' = a := by
  by_cases hlt : k < l.length
  · rw [List.getElem?_append_left hlt] at h
    exact .inl ⟨h, hlt⟩
  rw [List.getElem?_append_right (Nat.le_of_not_lt hlt), List.getElem?_singleton] at h
  split at h
  · cases h
    exact .inr ⟨by omega, rfl⟩
  · cases h

variable {items past : List (TraceEntry δ)} {k state limit : Nat}
theorem WellFormedTrace.stateId_mem (h : WellFormedTrace items)
    (hk : items[k]? = some e) : e.stateId ∈ statesOf items := by
  induction h with
  | nil => cases hk
  | snoc _ hn ih =>
    rename_i past last _
    rw [statesOf_snoc]
    apply mem_append_left
    rcases getElem?_snoc_cases hk with ⟨hk, _⟩ | ⟨_, rfl⟩
    · exact ih hk
    · exact hn.known

theorem children_subset_statesOf (hk : items[k]? = some e)
    (hc : c ∈ e.children) : c ∈ statesOf items :=
  mem_cons_of_mem _ (mem_flatMap.2 ⟨e, mem_of_getElem? hk, hc⟩)

theorem getElem?_append_of_some (h : past[k]? = some e) : (past ++ more)[k]? = some e := by
  obtain ⟨hlt, _⟩ := List.getElem?_eq_some_iff.1 h
  rw [List.getElem?_append_left hlt, h]

theorem OnPath.append (h : OnPath past state limit k) : OnPath (past ++ more) state limit k := by
  induction h with
  | own hk hit hs => exact .own hk (getElem?_append_of_some hit) hs
  | inherited hf hit hc hne _ ih => exact .inherited hf (getElem?_append_of_some hit) hc hne ih

theorem OnPath.of_append (h : OnPath (past ++ more) state limit k) (hl : limit ≤ past.length) :
    OnPath past state limit k := by
  induction h with
  | own hk hit hs =>
    rw [List.getElem?_append_left (by omega)] at hit
    exact .own hk hit hs
  | inherited hf hit hc hne _ ih =>
    rw [List.getElem?_append_left (by omega)] at hit
    exact .inherited hf hit hc hne (ih (by omega))

theorem OnPath.mono (h : OnPath past state limit k) (hl : limit ≤ limit') :
    OnPath past state limit' k := by
  cases h with
  | own hk hit hs => exact .own (by omega) hit hs
  | inherited hf hit hc hne h => exact .inherited (by omega) hit hc hne h

theorem OnPath.lt (h : OnPath past state limit k) : k < limit := by
  induction h with
  | own hk _ _ => exact hk
  | inherited hf _ _ _ _ ih => omega

theorem onPath_snoc_other (hn : e.Follows past) (hid : state ∈ statesOf past)
    (hne : e.stateId ≠ state) :
    OnPath (past ++ [e]) state (past.length + 1) k ↔ OnPath past state past.length k := by
  constructor
  · intro h
    cases h with
    | own _ hit hs =>
      rcases getElem?_snoc_cases hit with ⟨hit, hlt⟩ | ⟨_, rfl⟩
      · exact .own hlt hit hs
      · exact absurd hs hne
    | inherited _ hit hc hne' h =>
      rcases getElem?_snoc_cases hit with ⟨hit, hlt⟩ | ⟨_, rfl⟩
      · exact .inherited hlt hit hc hne' (h.of_append hlt)
      · exact absurd hid (hn.unused hc hne.symm)
  · intro h
    exact h.append.mono (Nat.le_succ _)

theorem onPath_snoc_self : OnPath (past ++ [e]) e.stateId (past.length + 1) k ↔
      OnPath past e.stateId past.length k ∨ k = past.length := by
  constructor
  · intro h
    generalize hid : e.stateId = state at h
    cases h with
    | own _ hit hs =>
      rcases getElem?_snoc_cases hit with ⟨hit, hlt⟩ | ⟨hk, _⟩
      · exact .inl (.own hlt hit hs)
      · exact .inr hk
    | inherited _ hit hc hne h =>
      rcases getElem?_snoc_cases hit with ⟨hit, hlt⟩ | ⟨_, rfl⟩
      · exact .inl (.inherited hlt hit hc hne (h.of_append hlt))
      · exact absurd hid hne
  · rintro (h | rfl)
    · exact h.append.mono (Nat.le_succ _)
    · exact .own (Nat.lt_succ_self _) List.getElem?_concat_length rfl

theorem onPath_snoc_new (hp : WellFormedTrace past) (hx : e.Follows past)
    (hc : c ∈ e.children) (hne : c ≠ e.stateId) : OnPath (past ++ [e]) c (past.length + 1) k ↔
      OnPath (past ++ [e]) e.stateId (past.length + 1) k := by
  have hn := hx.unused hc hne
  constructor
  · intro h
    cases h with
    | own _ hit hs =>
      rcases getElem?_snoc_cases hit with ⟨hit, _⟩ | ⟨_, rfl⟩
      · exact absurd (hs ▸ hp.stateId_mem hit) hn
      · exact absurd hs hne.symm
    | inherited _ hit hc' _ h =>
      rcases getElem?_snoc_cases hit with ⟨hit, _⟩ | ⟨rfl, rfl⟩
      · exact absurd (children_subset_statesOf hit hc') hn
      · exact h
  · intro h
    exact .inherited (Nat.lt_succ_self _) List.getElem?_concat_length hc hne.symm h

end Chef
