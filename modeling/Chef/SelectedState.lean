import Chef.ExecutorInvariant

namespace Chef
open Foundations List
namespace HighLevelExecutor
variable {S : HighLevelStrategy σ} {L : S.Lawful} {x y : HighLevelExecutor σ}
variable {order : List (UInt64 × Nat) → List (UInt64 × Nat)}
def Grows (x : HighLevelExecutor σ) (e : StreamEvent) (y : HighLevelExecutor σ) : Prop :=
  ∀ s, y.childrenOf s = x.childrenOf s ∨ ∃ l k c, e = .step l k ∧ s = x.positionOf l ∧
    (x.childrenOf s).lookup k = none ∧ y.childrenOf s = x.childrenOf s ++ [(k, c)]

theorem Grows.beforeUpdate (hI : Invariant L x) (hb : x.beforeUpdate S e = .ok y) :
    Grows x e y := by
  intro s
  cases e with
  | create apicEnabled =>
    obtain ⟨z, hz, hy⟩ := bind_ok_iff.1 hb
    cases hy
    have hs := (x.createRootStates_sameTree apicEnabled).shape.children (s := s)
    have hr := x.childrenOf_createRootSegment s
    have ht := ((x.withRootState.withLowLevelState x.segments.size apicEnabled).enterSegment_shape
      x.segments.size x.llStates.size).children (s := s)
    have hks : z.childrenOf s = (x.createRootStates apicEnabled).childrenOf s := by
      simp only [withStrategy] at hz
      split at hz <;> cases hz
      rfl
    exact .inl (hks.trans (hs.trans (ht.trans hr)))
  | clone l =>
    simp only [HighLevelExecutor.beforeUpdate] at hb
    split at hb
    · cases hb
      have hs := (x.cloneLowLevelState_sameTree l).shape.children (s := s)
      exact .inl (hs.trans (enterSegment_shape _ _ _).children)
    · cases hb
  | step l k =>
    simp only [HighLevelExecutor.beforeUpdate] at hb
    split at hb
    next hl =>
      obtain ⟨c, z, hg, hs⟩ := moveLowLevelState_cases hb
      have hm : y.childrenOf s = z.childrenOf s :=
        hs.shape.children.trans ((enterSegment_shape _ _ _).children.trans
          (exitSegment_shape _ _ _).children)
      rw [hm]
      obtain ⟨_, rfl⟩ | ⟨_, hn, rfl, rfl⟩ := getNextSegment_cases hg
      · exact .inl rfl
      rw [x.childrenOf_addChild (hI.occupied.position_lt hl)]
      split
      next he =>
        subst he
        exact .inr ⟨l, k, _, rfl, rfl, hn, rfl⟩
      · exact .inl rfl
    · cases hb
  | terminate l =>
    simp only [HighLevelExecutor.beforeUpdate] at hb
    split at hb
    · cases hb
      have hs := (x.removeLowLevelState_sameTree l).shape.children (s := s)
      exact .inl (hs.trans (exitSegment_shape _ _ _).children)
    · cases hb

section
variable (horder : ∀ cs, (order cs).Perm cs) (hI : Invariant L x)
include horder hI
theorem childrenOf_tryUpdateSelectedState (hu : x.tryUpdateSelectedState S order fuel = .ok y) :
    ∀ s, y.childrenOf s = x.childrenOf s := by
  have hk := tryUpdateSelectedState_induction
    (P := fun z => Invariant L z ∧ ∀ s, z.childrenOf s = x.childrenOf s) ?_ ⟨hI, fun _ => rfl⟩ hu
  · exact hk.2
  rintro w h z ⟨hIw, hw⟩ hs hz
  refine ⟨hIw.doUpdateSelectedState horder hs hz, fun s => ?_⟩
  obtain ⟨succ, v, strategy, _, ha, _, rfl⟩ := doUpdateSelectedState_some horder hIw hs hz
  exact ha.same.children.trans (hw s)

theorem Grows.handle (hh : x.handle S order fuel e = .ok y) : Grows x e y := by
  obtain ⟨z, hz, hy⟩ := bind_ok_iff.1 hh
  have hg := Grows.beforeUpdate hI hz
  split at hy
  · intro s
    rw [childrenOf_tryUpdateSelectedState horder (hI.beforeUpdate hz) hy s]
    exact hg s
  · cases hy
    exact hg

end

/-- A fork finds the child on its own path by its counter. -/
def ForkKeys (x : HighLevelExecutor σ) : Prop :=
  ∀ s e0 e1 rest, x.childrenOf s = e0 :: e1 :: rest → e0.1 ≠ 0

/-- A second counter comes to a segment whose only child has 0. -/
def SplitsZero (x : HighLevelExecutor σ) : StreamEvent → Prop
  | .step l k => k ≠ 0 ∧ ∃ c, x.childrenOf (x.positionOf l) = [(0, c)]
  | _ => False

theorem ForkKeys.grows (hF : ForkKeys x) (hg : Grows x e y) (he : ¬SplitsZero x e) :
    ForkKeys y := by
  intro s e0 e1 rest hs hz
  obtain hm | ⟨l, k, c, rfl, rfl, hn, ha⟩ := hg s
  · exact hF s e0 e1 rest (hm ▸ hs) hz
  rw [ha] at hs
  match hx : x.childrenOf (x.positionOf l) with
  | [] =>
    rw [hx] at hs
    cases hs
  | [(k0, c0)] =>
    rw [hx] at hs hn
    cases hs
    have hk : k ≠ 0 := by
      rintro rfl
      simp only at hz
      simp [hz] at hn
    exact he ⟨hk, c0, by rw [hx]; simp_all⟩
  | a :: b :: cs =>
    rw [hx] at hs
    cases hs
    exact hF _ _ _ _ hx hz

def isUpdateAssertion : Fault → Bool
  | .parentNotExpired | .successorFoundTwice | .successorNotFound | .forkOnOwnPath => true
  | _ => false

def failsUpdateAssertion : Except Fault α → Bool
  | .ok _ => false
  | .error f => isUpdateAssertion f

theorem withStrategy_error (hw : x.withStrategy call = .error f) : ∃ g, f = .strategy g := by
  cases call with
  | ok strategy => cases hw
  | error g =>
    cases hw
    exact ⟨g, rfl⟩

theorem tryUpdateSelectedState_error (horder : ∀ cs, (order cs).Perm cs) (hI : Invariant L x)
    (hF : ForkKeys x) (hu : x.tryUpdateSelectedState S order fuel = .error f) :
    isUpdateAssertion f = false := by
  induction fuel generalizing x with
  | zero =>
    cases hu
    rfl
  | succ fuel ih =>
    rw [tryUpdateSelectedState] at hu
    split at hu
    · cases hu
    next h hs =>
      obtain ⟨_, hr⟩ | ⟨_, ⟨e0, e1, rest, hc, hz, _⟩ | ⟨succ, y, call, ha, hi, hr⟩⟩ :=
        doUpdateSelectedState_cases horder hI hs
      · rw [hr] at hu
        cases hu
      · exact absurd hz (hF _ _ _ _ hc)
      cases call with
      | error g =>
        rw [hr] at hu
        cases hu
        rfl
      | ok strategy =>
        have hks : ForkKeys ({ y with hlStrategy := strategy }.selectNext S) := by
          intro s e0 e1 rest hs'
          exact hF s e0 e1 rest (ha.same.children.symm.trans hs')
        have hn : x.doUpdateSelectedState S order h =
            .ok (some ({ y with hlStrategy := strategy }.selectNext S)) := hr
        rw [hn] at hu
        exact ih (hI.doUpdateSelectedState horder hs hn) hks hu

theorem beforeUpdate_error (hb : x.beforeUpdate S e = .error f) : isUpdateAssertion f = false := by
  cases e with
  | create apicEnabled =>
    obtain hz | ⟨z, _, hz⟩ := bind_error_iff.1 hb
    · obtain ⟨g, rfl⟩ := withStrategy_error hz
      rfl
    · cases hz
  | clone l | terminate l =>
    simp only [beforeUpdate] at hb
    split at hb <;> cases hb
    rfl
  | step l k =>
    simp only [beforeUpdate] at hb
    split at hb
    · obtain hg | ⟨r, _, hr⟩ := bind_error_iff.1 hb
      · rw [getNextSegment_error hg]
        rfl
      · cases hr
    · cases hb
      rfl

theorem ForkKeys.reachable (horder : ∀ cs, (order cs).Perm cs) (L : S.Lawful)
    (hr : (machine S order).Reachable (fun x e => ¬SplitsZero x e) x) : ForkKeys x := by
  have hb : Invariant L x ∧ ForkKeys x := by
    apply hr.invariant (I := fun x => Invariant L x ∧ ForkKeys x)
    · rintro s rfl
      refine ⟨.initial L, fun s e0 e1 rest hs => ?_⟩
      cases hs
    · rintro s e s' ⟨hI, hF⟩ he ⟨fuel, hh⟩
      exact ⟨hI.handle horder hh, hF.grows (.handle horder hI hh) he⟩
  exact hb.2

section
variable {S : HighLevelStrategy σ} {order : List (UInt64 × Nat) → List (UInt64 × Nat)}
variable {x y : HighLevelExecutor σ}
def runEvents (S : HighLevelStrategy σ) (order : List (UInt64 × Nat) → List (UInt64 × Nat))
    (fuel : Nat) : List StreamEvent → HighLevelExecutor σ → Except Fault (HighLevelExecutor σ)
  | [], x => .ok x
  | e :: events, x => x.handle S order fuel e >>= runEvents S order fuel events

theorem reachable_runEvents
    (hal : ∀ x e, e ∈ events → allow x e) (hx : (machine S order).Reachable allow x)
    (hr : runEvents S order fuel events x = .ok y) : (machine S order).Reachable allow y := by
  induction events generalizing x with
  | nil =>
    cases hr
    exact hx
  | cons e events ih =>
    obtain ⟨z, hz, hr⟩ := bind_ok_iff.1 hr
    refine ih (fun x e' he' => hal x e' (mem_cons_of_mem _ he')) ?_ hr
    exact .step hx (hal x e mem_cons_self) ⟨fuel, hz⟩

/-- Unless an only child has the counter 0, no assertion fails. -/
theorem selected_update_assertions (L : S.Lawful) (horder : ∀ cs, (order cs).Perm cs)
    (hr : (machine S order).Reachable (fun x e => ¬SplitsZero x e) x) (he : ¬SplitsZero x e)
    (fuel : Nat) : failsUpdateAssertion (x.handle S order fuel e) = false := by
  have hI := Invariant.reachable horder L hr
  have hF := ForkKeys.reachable horder L hr
  cases hf : x.handle S order fuel e with
  | ok y => rfl
  | error f =>
    obtain hb | ⟨y, hb, hu⟩ := bind_error_iff.1 hf
    · exact beforeUpdate_error hb
    split at hu
    · exact tryUpdateSelectedState_error horder (hI.beforeUpdate hb)
        (hF.grows (.beforeUpdate hI hb) he) hu
    · cases hu

theorem selected_update_assertions_dfs : ∃ x,
    (machine (selectorStrategy .dfs) fun cs => cs).Reachable (fun x e => ¬SplitsZero x e) x ∧
    ¬SplitsZero x (.step 1 0) ∧
    failsUpdateAssertion (x.handle (selectorStrategy .dfs) (fun cs => cs) 9 (.step 1 0)) =
    false := by
  obtain ⟨x, hx⟩ : ∃ x, runEvents (selectorStrategy .dfs) (fun cs => cs) 9
      [.create false, .clone 0, .step 0 0] (initial (selectorStrategy .dfs)) = .ok x := ⟨_, rfl⟩
  have hr : (machine (selectorStrategy .dfs) fun cs => cs).Reachable
      (fun x e => ¬SplitsZero x e) x := by
    apply reachable_runEvents _ (.init rfl) hx
    simp [SplitsZero]
  have he : ¬SplitsZero x (.step 1 0) := fun h => h.1 rfl
  exact ⟨x, hr, he, selected_update_assertions (selectorLawful .dfs) (fun _ => .refl _) hr he 9⟩

theorem successor_with_zero_not_found :
    ∃ x, (machine (selectorStrategy .dfs) fun cs => cs).Reached x ∧
      x.handle (selectorStrategy .dfs) (fun cs => cs) 9 (.step 1 5) = .error .successorNotFound ∧
      failsUpdateAssertion
        (x.handle (selectorStrategy .dfs) (fun cs => cs) 9 (.step 1 5)) = true := by
  obtain ⟨x, hx, hf⟩ : ∃ x, runEvents (selectorStrategy .dfs) (fun cs => cs) 9
      [.create false, .clone 0, .step 0 0] (initial (selectorStrategy .dfs)) = .ok x ∧
      x.handle (selectorStrategy .dfs) (fun cs => cs) 9 (.step 1 5) = .error .successorNotFound :=
    ⟨_, rfl, rfl⟩
  exact ⟨x, reachable_runEvents (fun _ _ _ => trivial) (.init rfl) hx, hf, by rw [hf]; rfl⟩

/-- The shape of the high-level execution tree. -/
structure ExecutionTree (x : HighLevelExecutor σ) : Prop where
  ids_distinct : (x.highLevelStates.map x.id).Nodup
  own_child : x.childrenOf s ≠ [] → ∃! e, e ∈ x.childrenOf s ∧ x.pathOf e.2 = x.pathOf s
  others_new : e ∈ x.childrenOf s → x.pathOf e.2 ≠ x.pathOf s → ∀ t < e.2, x.pathOf t ≠ x.pathOf e.2
  low_level : l ∈ x.stateMap →
    ∃! h, h ∈ x.highLevelStates ∧ Below x.Child (x.segmentOf h) (x.positionOf l)

theorem Rooted.id_injective (hR : Rooted x) (hT : SegmentTree x) (hh : h ∈ x.highLevelStates)
    (hg : g ∈ x.highLevelStates) (he : x.id h = x.id g) : h = g := by
  obtain hb | hb := hT.same_path (hR.segment_lt hh) (hR.segment_lt hg) he
  · exact hR.frontier.separated hh hg hb
  · exact (hR.frontier.separated hg hh hb).symm

theorem executionTree_reached (L : S.Lawful) (horder : ∀ cs, (order cs).Perm cs)
    (hr : (machine S order).Reached x) : ExecutionTree x := by
  have hI := Invariant.reachable horder L hr
  constructor
  case ids_distinct =>
    apply hI.rooted.nodup.map_on
    intro h hh g hg he
    exact hI.rooted.id_injective hI.tree hh hg he
  case own_child =>
    intro s hs
    obtain ⟨e, rest, hc⟩ := exists_cons_of_ne_nil hs
    refine ⟨e, ⟨hc ▸ mem_cons_self, hI.tree.first_on_path hc⟩, ?_⟩
    rintro e' ⟨hm, hp⟩
    exact hI.tree.eq_first_of_path hc hm hp
  case others_new =>
    intro e s hm hp t ht
    obtain ⟨e0, rest, hc⟩ := exists_cons_of_ne_nil (ne_nil_of_mem hm)
    obtain rfl | hrest := mem_cons.1 (hc ▸ hm)
    · exact absurd (hI.tree.first_on_path hc) hp
    · exact hI.tree.others_fresh hc hrest ht
  case low_level =>
    intro l hl
    exact hI.rooted.frontier.unique hI.tree.isForest ⟨l, hl, rfl⟩

theorem executionTree_reached_dfs :
    ∃ x, (machine (selectorStrategy .dfs) fun cs => cs).Reached x ∧ ExecutionTree x := by
  obtain ⟨x, hx⟩ : ∃ x, runEvents (selectorStrategy .dfs) (fun cs => cs) 9
      [.create false, .clone 0, .step 0 1, .step 1 2, .clone 1, .terminate 0, .create true]
      (initial (selectorStrategy .dfs)) = .ok x := ⟨_, rfl⟩
  have hr := reachable_runEvents (fun _ _ _ => trivial) (.init rfl) hx
  exact ⟨x, hr, executionTree_reached (selectorLawful .dfs) (fun _ => .refl _) hr⟩

end

noncomputable def ahead (x : HighLevelExecutor σ) : Nat :=
  (Frontier.region x.Child { h | h ∈ x.highLevelStates } x.segmentOf).ncard

theorem Rooted.region_finite (hR : Rooted x) (hT : SegmentTree x) :
    (Frontier.region x.Child { h | h ∈ x.highLevelStates } x.segmentOf).Finite := by
  apply (Set.finite_lt_nat x.segments.size).subset
  rintro t ⟨h, hh, hb⟩
  exact hT.below_lt (hR.segment_lt hh) hb

theorem Advance.ahead_lt (ha : Advance x h succ y) (hT : SegmentTree x) (hR : Rooted x) :
    y.ahead < x.ahead := by
  rw [ahead, ha.same.shape.child]
  exact hR.frontier.ncard_region_lt hT.isForest (ha.advances hT hR) (hR.region_finite hT)

/-- The selected segment has a low-level state, or none is selected. -/
def Settled (x : HighLevelExecutor σ) : Prop :=
  x.selectedState = none ∨ ∃ h, x.selectedState = some h ∧ x.occupants (x.segmentOf h) ≠ []

theorem tryUpdateSelectedState_settles (horder : ∀ cs, (order cs).Perm cs) (hS : S.Total L)
    (hI : Invariant L x) (hF : ForkKeys x) :
    ∃ z, Settled z ∧ ∀ fuel, x.ahead < fuel → x.tryUpdateSelectedState S order fuel = .ok z := by
  induction hn : x.ahead using Nat.strong_induction_on generalizing x with
  | _ n ih =>
    subst hn
    cases hs : x.selectedState with
    | none =>
      refine ⟨x, .inl hs, fun fuel hfu => ?_⟩
      obtain ⟨fuel, rfl⟩ := Nat.exists_eq_succ_of_ne_zero (ne_of_gt (Nat.zero_lt_of_lt hfu))
      rw [tryUpdateSelectedState, hs]
    | some h =>
      obtain ⟨hne, hr⟩ | ⟨_, ⟨e0, e1, rest, hc, hz, _⟩ | ⟨succ, y, call, ha, hi, hr⟩⟩ :=
        doUpdateSelectedState_cases horder hI hs
      · refine ⟨x, .inr ⟨h, hs, hne⟩, fun fuel hfu => ?_⟩
        obtain ⟨fuel, rfl⟩ := Nat.exists_eq_succ_of_ne_zero (ne_of_gt (Nat.zero_lt_of_lt hfu))
        rw [tryUpdateSelectedState, hs]
        simp only [hr]
        rfl
      · exact absurd hz (hF _ _ _ _ hc)
      · obtain ⟨strategy, rfl⟩ := hi.ok hS ha hI.tree hI.rooted hI.tracks
        have hx : x.doUpdateSelectedState S order h =
            .ok (some ({ y with hlStrategy := strategy }.selectNext S)) := hr
        have hlt : ({ y with hlStrategy := strategy }.selectNext S).ahead < x.ahead :=
          ha.ahead_lt hI.tree hI.rooted
        have hks : ForkKeys ({ y with hlStrategy := strategy }.selectNext S) := by
          intro s e0 e1 rest hs'
          exact hF s e0 e1 rest (ha.same.children.symm.trans hs')
        obtain ⟨z, hz, hfu⟩ := ih _ hlt (hI.doUpdateSelectedState horder hs hx) hks rfl
        refine ⟨z, hz, fun fuel hf => ?_⟩
        obtain ⟨fuel, rfl⟩ := Nat.exists_eq_succ_of_ne_zero (ne_of_gt (Nat.zero_lt_of_lt hf))
        rw [tryUpdateSelectedState, hs]
        simp only [hx]
        exact hfu fuel (by omega)

def NonzeroStep : StreamEvent → Prop
  | .step _ k => k ≠ 0
  | _ => True

def NonzeroKeys (x : HighLevelExecutor σ) : Prop := ∀ s e, e ∈ x.childrenOf s → e.1 ≠ 0

theorem NonzeroKeys.grows (hN : NonzeroKeys x) (hg : Grows x e y) (he : NonzeroStep e) :
    NonzeroKeys y := by
  intro s d hd
  obtain hs | ⟨l, k, c, rfl, rfl, _, ha⟩ := hg s
  · exact hN s d (hs ▸ hd)
  rw [ha, mem_append, mem_singleton] at hd
  obtain hd | rfl := hd
  · exact hN _ d hd
  · exact he

theorem NonzeroKeys.reachable (horder : ∀ cs, (order cs).Perm cs) (L : S.Lawful)
    (hr : (machine S order).Reachable (fun _ e => NonzeroStep e) x) : NonzeroKeys x := by
  have hb : Invariant L x ∧ NonzeroKeys x := by
    apply hr.invariant (I := fun x => Invariant L x ∧ NonzeroKeys x)
    · rintro s rfl
      refine ⟨.initial L, fun s e he => ?_⟩
      cases he
    · rintro s e s' ⟨hI, hN⟩ he ⟨fuel, hh⟩
      exact ⟨hI.handle horder hh, hN.grows (.handle horder hI hh) he⟩
  exact hb.2

theorem NonzeroKeys.forkKeys (hN : NonzeroKeys x) : ForkKeys x := by
  intro s e0 e1 rest hs
  apply hN s
  rw [hs]
  exact mem_cons_self

/-- The update loop of a selector strategy ends. -/
theorem selector_update_terminates {x y : HighLevelExecutor (QueuedSelector Nat)}
    (k : SelectorKind) (horder : ∀ cs, (order cs).Perm cs)
    (hr : (machine (selectorStrategy k) order).Reachable (fun _ e => NonzeroStep e) x)
    (hy : y = x ∨ ∃ e, NonzeroStep e ∧ x.beforeUpdate (selectorStrategy k) e = .ok y) :
    ∃ n z, Settled z ∧
      ∀ fuel, n ≤ fuel → y.tryUpdateSelectedState (selectorStrategy k) order fuel = .ok z := by
  have hI := Invariant.reachable horder (selectorLawful k) hr
  have hN := NonzeroKeys.reachable horder (selectorLawful k) hr
  have ht : Invariant (selectorLawful k) y ∧ NonzeroKeys y := by
    obtain rfl | ⟨e, he, hb⟩ := hy
    · exact ⟨hI, hN⟩
    · exact ⟨hI.beforeUpdate hb, hN.grows (.beforeUpdate hI hb) he⟩
  obtain ⟨z, hz, hfu⟩ := tryUpdateSelectedState_settles horder (selectorTotal k) ht.1 ht.2.forkKeys
  exact ⟨y.ahead + 1, z, hz, fun fuel hle => hfu fuel hle⟩

theorem selector_update_terminates_bfs : ∃ x y : HighLevelExecutor (QueuedSelector Nat),
      x.beforeUpdate (selectorStrategy .bfs) (.step 1 2) = .ok y ∧ ∃ n z, Settled z ∧
      ∀ fuel, n ≤ fuel →
        y.tryUpdateSelectedState (selectorStrategy .bfs) (fun cs => cs) fuel = .ok z := by
  obtain ⟨x, y, hx, hb⟩ : ∃ x y, runEvents (selectorStrategy .bfs) (fun cs => cs) 9
      [.create false, .clone 0, .step 0 1] (initial (selectorStrategy .bfs)) = .ok x ∧
      x.beforeUpdate (selectorStrategy .bfs) (.step 1 2) = .ok y := ⟨_, _, rfl, rfl⟩
  have hr : (machine (selectorStrategy .bfs) fun cs => cs).Reachable
      (fun _ e => NonzeroStep e) x := by
    apply reachable_runEvents _ (.init rfl) hx
    simp [NonzeroStep]
  have he : NonzeroStep (.step 1 2) := by simp [NonzeroStep]
  exact ⟨x, y, hb, selector_update_terminates .bfs (fun _ => .refl _) hr (.inr ⟨_, he, hb⟩)⟩

end HighLevelExecutor
end Chef
