import Chef.Occupancy

namespace Chef
open Foundations List Store Prod
namespace HighLevelExecutor
structure SameSegments (x y : HighLevelExecutor σ) : Prop where
  nodes : y.nodes = x.nodes
  paths : y.paths = x.paths
  llStates : y.llStates = x.llStates
  stateMap : y.stateMap = x.stateMap
  size : y.segments.size = x.segments.size
  children : y.childrenOf s = x.childrenOf s
  path : y.pathOf s = x.pathOf s
  occupants : y.occupants s = x.occupants s
  parent : (x.segments.get s).parent = none → (y.segments.get s).parent = none

namespace SameSegments
variable {x y z : HighLevelExecutor σ}
theorem refl : SameSegments x x := ⟨rfl, rfl, rfl, rfl, rfl, rfl, rfl, rfl, fun hp => hp⟩

section
variable (h : SameSegments x y)
include h
theorem trans (h' : SameSegments y z) : SameSegments x z where
  nodes := h'.nodes.trans h.nodes
  paths := h'.paths.trans h.paths
  llStates := h'.llStates.trans h.llStates
  stateMap := h'.stateMap.trans h.stateMap
  size := h'.size.trans h.size
  children := h'.children.trans h.children
  path := h'.path.trans h.path
  occupants := h'.occupants.trans h.occupants
  parent hp := h'.parent (h.parent hp)

theorem shape : SameShape x y where
  paths := by rw [h.paths]
  segments := h.size
  children := h.children
  path := h.path

theorem position (l : Nat) : y.positionOf l = x.positionOf l := by
  rw [positionOf, positionOf, h.llStates]

end

theorem cutParent (x : HighLevelExecutor σ) (s : Nat) : SameSegments x (x.cutParent s) where
  nodes := rfl
  paths := rfl
  llStates := rfl
  stateMap := rfl
  size := size_modify _ _ _
  children := get_modify_proj _ _ HighLevelPathSegment.children (by intro; rfl) _ _
  path := get_modify_proj _ _ HighLevelPathSegment.path (by intro; rfl) _ _
  occupants := get_modify_proj _ _ HighLevelPathSegment.lowLevelStates (by intro; rfl) _ _
  parent {t} hp := by
    simp only [HighLevelExecutor.cutParent, get_modify]
    split
    · rfl
    · exact hp

end SameSegments

section
variable (x : HighLevelExecutor σ)
include x
theorem cutParent_parent (hs : s < x.segments.size) :
    ((x.cutParent s).segments.get s).parent = none := by rw [cutParent, get_modify_self _ _ hs]

def forkLive (x : HighLevelExecutor σ) (h c : Nat) : HighLevelExecutor σ :=
  (x.forkTo h c).addHighLevelState x.hlStates.size

theorem SameSegments.forkLive (h c : Nat) : SameSegments x (x.forkLive h c) :=
  have ht := SameSegments.cutParent
    { x with hlStates := x.hlStates.alloc ⟨c, (x.hlStates.get h).cursor⟩ } c
  ⟨rfl, rfl, rfl, rfl, ht.size, ht.children, ht.path, ht.occupants, ht.parent⟩

theorem SameSegments.stepTo (h c : Nat) : SameSegments x (x.stepTo h c) :=
  have ht := SameSegments.cutParent
    { x with hlStates := x.hlStates.modify h fun s => { s with segment := c } } c
  ⟨rfl, rfl, rfl, rfl, ht.size, ht.children, ht.path, ht.occupants, ht.parent⟩

theorem size_forkLive (h c : Nat) : (x.forkLive h c).hlStates.size = x.hlStates.size + 1 :=
  size_alloc _ _

theorem segmentOf_forkLive (hg : g < x.hlStates.size) :
    (x.forkLive h c).segmentOf g = x.segmentOf g :=
  congrArg HighLevelState.segment (x.hlStates.get_alloc_of_lt _ hg)

end

section
variable {x : HighLevelExecutor σ} (hT : SegmentTree x) (hc : (k, c) ∈ x.childrenOf (x.segmentOf h))
include hT hc
theorem SegmentTree.stepHighLevelState : x.stepHighLevelState h k = .ok (x.stepTo h c) := by
  rw [HighLevelExecutor.stepHighLevelState, hT.getNextSegment_child hc]
  rfl

theorem SegmentTree.forkHighLevelState (hp : x.pathOf c ≠ x.id h) :
    x.forkHighLevelState h k = .ok (x.hlStates.size, x.forkTo h c) := by
  rw [HighLevelExecutor.forkHighLevelState, hT.getNextSegment_child hc]
  simp only [bind, Except.bind, if_neg hp]

end

structure Forked (x : HighLevelExecutor σ) (h : Nat) (targets add : List Nat)
    (y : HighLevelExecutor σ) : Prop where
  same : SameSegments x y
  strategy : y.hlStrategy = x.hlStrategy
  live : y.highLevelStates = x.highLevelStates ++ add
  segments : add.map y.segmentOf = targets
  fresh : ∀ g ∈ add, x.hlStates.size ≤ g ∧ g < y.hlStates.size
  nodup : add.Nodup
  size_le : x.hlStates.size ≤ y.hlStates.size
  old : ∀ g < x.hlStates.size, y.hlStates.get g = x.hlStates.get g
  cursor : ∀ g ∈ add, (y.hlStates.get g).cursor = (x.hlStates.get h).cursor
  cut : ∀ c ∈ targets, c < x.segments.size → (y.segments.get c).parent = none

namespace Forked
variable {x y : HighLevelExecutor σ}
theorem nil (x : HighLevelExecutor σ) (h : Nat) : Forked x h [] [] x where
  same := .refl
  strategy := rfl
  live := by simp
  segments := rfl
  fresh := by simp
  nodup := nodup_nil
  size_le := le_refl _
  old _ _ := rfl
  cursor := by simp
  cut := by simp

theorem cons (hh : h < x.hlStates.size) (hf : Forked (x.forkLive h c) h targets add y) :
    Forked x h (c :: targets) (x.hlStates.size :: add) y := by
  have hz := x.size_forkLive h c
  have hn : y.hlStates.get x.hlStates.size = ⟨c, (x.hlStates.get h).cursor⟩ := by
    rw [hf.old _ (by omega)]
    exact x.hlStates.get_alloc_size _
  have ho : ∀ g < x.hlStates.size, (x.forkLive h c).hlStates.get g = x.hlStates.get g :=
    fun g hg => x.hlStates.get_alloc_of_lt _ hg
  have hs := SameSegments.forkLive x h c
  constructor
  case same => exact hs.trans hf.same
  case strategy => exact hf.strategy
  case live =>
    rw [hf.live]
    simp [HighLevelExecutor.forkLive, forkTo, cutParent, addHighLevelState]
  case segments => rw [map_cons, hf.segments, segmentOf, hn]
  case fresh =>
    intro g hg
    obtain rfl | hg := mem_cons.1 hg
    · have := hf.size_le
      omega
    · have := hf.fresh g hg
      omega
  case nodup =>
    refine nodup_cons.2 ⟨fun hm => ?_, hf.nodup⟩
    have := hf.fresh _ hm
    omega
  case size_le =>
    have := hf.size_le
    omega
  case old =>
    intro g hg
    rw [hf.old g (by omega), ho g hg]
  case cursor =>
    intro g hg
    obtain rfl | hg := mem_cons.1 hg
    · rw [hn]
    · rw [hf.cursor g hg, ho h hh]
  case cut =>
    intro d hd hlt
    obtain rfl | hd := mem_cons.1 hd
    · exact hf.same.parent (cutParent_parent _ hlt)
    · exact hf.cut d hd (hs.size ▸ hlt)

end Forked

theorem forkChildren_spec (hT : SegmentTree x)
    (hh : h < x.hlStates.size) (hcs : ∀ e ∈ cs, e ∈ x.childrenOf (x.segmentOf h))
    (hon : (cs.filter fun e => x.pathOf e.2 = x.id h).length ≤ 1)
    (st : UInt64) (hst : cs.filter (fun e => x.pathOf e.2 = x.id h) ≠ [] → st = 0)
    (add : List Nat) : ∃ add' y, forkChildren h (x.segmentOf h) cs st add x =
        .ok (((cs.filter fun e => x.pathOf e.2 = x.id h).head?.map fst).getD st, add ++ add', y) ∧
      Forked x h ((cs.filter fun e => x.pathOf e.2 ≠ x.id h).map snd) add' y := by
  induction cs generalizing st add x with
  | nil => exact ⟨[], x, by simp [forkChildren], .nil x h⟩
  | cons e cs ih =>
    obtain ⟨k, c⟩ := e
    have hc := hcs _ mem_cons_self
    have hcs' := fun e he => hcs e (mem_cons_of_mem _ he)
    by_cases hp : x.pathOf c = x.id h
    · simp only [filter_cons, hp, decide_true, if_true] at hon hst ⊢
      have hn : cs.filter (fun e => x.pathOf e.2 = x.id h) = [] :=
        length_eq_zero_iff.1 (by simpa using hon)
      obtain ⟨add', y, hr, hf⟩ := ih hT hh hcs' (by simp [hn]) k (by simp [hn]) add
      refine ⟨add', y, ?_, by simpa using hf⟩
      have hp' : x.pathOf c = x.pathOf (x.segmentOf h) := hp
      rw [forkChildren, if_pos hp', if_neg (by simp [hst (by simp)]), hr]
      simp [hn]
    · have hm := SameSegments.forkLive x h c
      have hs := x.segmentOf_forkLive hh (c := c) (h := h)
      have hid : (x.forkLive h c).id h = x.id h := by rw [id, id, hs, hm.path]
      have hl : ∀ cs : List (UInt64 × Nat),
          cs.filter (fun e => (x.forkLive h c).pathOf e.2 = (x.forkLive h c).id h) =
            cs.filter fun e => x.pathOf e.2 = x.id h := by
        intro cs
        simp only [hm.path, hid]
      simp only [filter_cons, hp, decide_false, Bool.false_eq_true, if_false] at hon hst ⊢
      obtain ⟨add', y, hr, hf⟩ := ih (hm.shape.segmentTree hT) (x := x.forkLive h c)
        (by rw [x.size_forkLive]; omega)
        (by rw [hs, hm.children]; exact hcs') (by rw [hl]; exact hon) st
        (by rw [hl]; exact hst) (add ++ [x.hlStates.size])
      rw [hl, hs] at hr
      refine ⟨x.hlStates.size :: add', y, ?_, ?_⟩
      · have hp' : x.pathOf c ≠ x.pathOf (x.segmentOf h) := hp
        rw [forkChildren, if_neg hp', hT.forkHighLevelState hc hp]
        refine hr.trans ?_
        rw [append_assoc, singleton_append]
      · simp only [hm.path, hid] at hf
        simpa [hp] using hf.cons hh

structure Advance (x : HighLevelExecutor σ) (h : Nat) (succ : List Nat)
    (y : HighLevelExecutor σ) : Prop where
  same : SameSegments x y
  strategy : y.hlStrategy = x.hlStrategy
  mem : h ∈ x.highLevelStates
  segments : (succ.map y.segmentOf).Perm ((x.childrenOf (x.segmentOf h)).map snd)
  live : g ∈ y.highLevelStates ↔ g ∈ x.highLevelStates ∧ g ≠ h ∨ g ∈ succ
  fresh : g ∈ succ → g = h ∨ x.hlStates.size ≤ g
  cursor : g ∈ succ → (y.hlStates.get g).cursor = (x.hlStates.get h).cursor
  cut : g ∈ succ → (y.segments.get (y.segmentOf g)).parent = none
  kept : g < x.hlStates.size → g ≠ h → y.hlStates.get g = x.hlStates.get g
  nodup : y.highLevelStates.Nodup
  high_lt : g ∈ y.highLevelStates → g < y.hlStates.size

/-- No live state is below another, and each low-level state is below one. -/
structure Rooted (x : HighLevelExecutor σ) : Prop where
  high_lt : h ∈ x.highLevelStates → h < x.hlStates.size
  nodup : x.highLevelStates.Nodup
  segment_lt : h ∈ x.highLevelStates → x.segmentOf h < x.segments.size
  cut : h ∈ x.highLevelStates → (x.segments.get (x.segmentOf h)).parent = none
  frontier : Frontier x.Child { h | h ∈ x.highLevelStates } x.segmentOf
    { s | ∃ l ∈ x.stateMap, x.positionOf l = s }

namespace Advance
variable {x y : HighLevelExecutor σ} (ha : Advance x h succ y)
include ha
theorem segmentOf_kept (hR : Rooted x) (hg : g ∈ x.highLevelStates)
    (hne : g ≠ h) : y.segmentOf g = x.segmentOf g := by
  rw [segmentOf, segmentOf, ha.kept (hR.high_lt hg) hne]

theorem child_iff : x.Child (x.segmentOf h) c ↔ ∃ g ∈ succ, y.segmentOf g = c := by
  rw [← mem_map, ha.segments.mem_iff, mem_map]
  simp [Child]

theorem advances (hT : SegmentTree x) (hR : Rooted x) :
    Advances x.Child { g | g ∈ x.highLevelStates } x.segmentOf h
      { g | g ∈ y.highLevelStates } y.segmentOf := by
  have hs : ∀ {g}, g ∈ y.highLevelStates → x.Child (x.segmentOf h) (y.segmentOf g) → g ∈ succ := by
    intro g hg hc
    obtain ⟨hg, hne⟩ | hg := ha.live.1 hg
    · rw [ha.segmentOf_kept hR hg hne] at hc
      exact absurd (hR.frontier.separated ha.mem hg (.single hc)).symm hne
    · exact hg
  constructor
  case mem => exact ha.mem
  case kept =>
    intro g hg hne
    exact ⟨ha.live.2 (.inl ⟨hg, hne⟩), ha.segmentOf_kept hR hg hne⟩
  case origin =>
    intro g hg
    obtain hg | hg := ha.live.1 hg
    · exact .inl hg
    · exact .inr (ha.child_iff.2 ⟨g, hg, rfl⟩)
  case successor =>
    intro c hc
    obtain ⟨g, hg, he⟩ := ha.child_iff.1 hc
    exact ⟨g, ha.live.2 (.inr hg), he⟩
  case injective =>
    intro g g' hg hg' hc he
    have hnd : (succ.map y.segmentOf).Nodup := ha.segments.nodup_iff.2 hT.child_segments_nodup
    exact inj_on_of_nodup_map hnd (hs hg hc) (hs hg' (he ▸ hc)) he

theorem rooted (hT : SegmentTree x) (hR : Rooted x)
    (hn : ∀ l ∈ x.stateMap, x.positionOf l ≠ x.segmentOf h) : Rooted y := by
  have hk : ∀ {g}, g ∈ succ → x.Child (x.segmentOf h) (y.segmentOf g) :=
    fun hg => ha.child_iff.2 ⟨_, hg, rfl⟩
  constructor
  case high_lt => exact ha.high_lt
  case nodup => exact ha.nodup
  case segment_lt =>
    intro g hg
    rw [ha.same.size]
    obtain ⟨hg, hne⟩ | hg := ha.live.1 hg
    · rw [ha.segmentOf_kept hR hg hne]
      exact hR.segment_lt hg
    · obtain ⟨k, hc⟩ := hk hg
      exact (hT.child_lt hc).2
  case cut =>
    intro g hg
    obtain ⟨hg, hne⟩ | hg := ha.live.1 hg
    · rw [ha.segmentOf_kept hR hg hne]
      exact ha.same.parent (hR.cut hg)
    · exact ha.cut hg
  case frontier =>
    rw [ha.same.shape.child, ha.same.stateMap]
    simp only [ha.same.position]
    apply hR.frontier.advance hT.isForest (ha.advances hT hR)
    rintro ⟨l, hl, he⟩
    exact hn l hl he

end Advance

theorem get_stepTo (x : HighLevelExecutor σ) (hh : h < x.hlStates.size) (c g : Nat) :
    (x.stepTo h c).hlStates.get g =
      if g = h then { x.hlStates.get g with segment := c } else x.hlStates.get g :=
  x.hlStates.proj_modify _ (fun s => s) (.inl hh) g

theorem stepTo_cut (x : HighLevelExecutor σ) (h : Nat) (hc : c < x.segments.size) :
    ((x.stepTo h c).segments.get c).parent = none :=
  cutParent_parent { x with hlStates := x.hlStates.modify h fun s => { s with segment := c } } hc

variable {x z : HighLevelExecutor σ}
theorem Advance.kill (hR : Rooted x) (hh : h ∈ x.highLevelStates)
    (hc : x.childrenOf (x.segmentOf h) = []) :
    Advance x h [] { x with highLevelStates := x.highLevelStates.erase h } where
  same := ⟨rfl, rfl, rfl, rfl, rfl, rfl, rfl, rfl, fun hp => hp⟩
  strategy := rfl
  mem := hh
  segments := by simp [hc]
  live := by simp [hR.nodup.mem_erase_iff, and_comm]
  fresh := by simp
  cursor := by simp
  cut := by simp
  kept _ _ := rfl
  nodup := hR.nodup.erase h
  high_lt hg := hR.high_lt (mem_of_mem_erase hg)

theorem Advance.fork (hT : SegmentTree x) (hR : Rooted x) (hh : h ∈ x.highLevelStates)
    (hf : Forked x h targets add z)
    (hp : (c :: targets).Perm ((x.childrenOf (x.segmentOf h)).map snd)) :
    Advance x h (h :: add) (z.stepTo h c) := by
  have hlt := hR.high_lt hh
  have hget := z.get_stepTo (lt_of_lt_of_le hlt hf.size_le) c
  have hne : ∀ g ∈ add, g ≠ h := by
    intro g hg he
    have := hf.fresh g hg
    omega
  have hadd : ∀ g ∈ add, (z.stepTo h c).segmentOf g = z.segmentOf g := by
    intro g hg
    rw [segmentOf, hget, if_neg (hne g hg), segmentOf]
  have hse : (z.stepTo h c).segmentOf h = c := by rw [segmentOf, hget, if_pos rfl]
  have hz : ∀ d ∈ c :: targets, d < x.segments.size := by
    intro d hd
    obtain ⟨⟨k', d'⟩, hm, rfl⟩ := mem_map.1 (hp.mem_iff.1 hd)
    exact (hT.child_lt hm).2
  have hr : ∀ g ∈ add, z.segmentOf g ∈ targets := by
    intro g hg
    rw [← hf.segments]
    exact mem_map_of_mem hg
  have hlv : (z.stepTo h c).highLevelStates = x.highLevelStates ++ add := hf.live
  constructor
  case same => exact hf.same.trans (.stepTo z h c)
  case strategy => exact hf.strategy
  case mem => exact hh
  case segments =>
    rw [map_cons, hse, map_congr_left hadd, hf.segments]
    exact hp
  case live =>
    intro g
    rw [hlv, mem_append, mem_cons]
    by_cases he : g = h
    · simp [he, hh]
    · simp [he]
  case fresh =>
    intro g hg
    obtain rfl | hg := mem_cons.1 hg
    · exact .inl rfl
    · exact .inr (hf.fresh g hg).1
  case cursor =>
    intro g hg
    rw [hget]
    obtain rfl | hg := mem_cons.1 hg
    · rw [if_pos rfl, hf.old _ hlt]
    · rw [if_neg (hne g hg), hf.cursor g hg]
  case cut =>
    intro g hg
    obtain rfl | hg := mem_cons.1 hg
    · rw [hse]
      exact z.stepTo_cut _ (hf.same.size ▸ hz c mem_cons_self)
    · rw [hadd g hg]
      have ht := hr g hg
      exact (SameSegments.stepTo z h c).parent (hf.cut _ ht (hz _ (mem_cons_of_mem _ ht)))
  case kept =>
    intro g hg hne
    rw [hget, if_neg hne, hf.old g hg]
  case nodup =>
    rw [hlv, nodup_append]
    refine ⟨hR.nodup, hf.nodup, ?_⟩
    intro a ha b hb hab
    have := hR.high_lt ha
    have := hf.fresh b hb
    omega
  case high_lt =>
    intro g hg
    have hs : (z.stepTo h c).hlStates.size = z.hlStates.size := size_modify _ _ _
    rw [hlv, mem_append] at hg
    rw [hs]
    obtain hg | hg := hg
    · exact lt_of_lt_of_le (hR.high_lt hg) hf.size_le
    · exact (hf.fresh g hg).2

inductive Informs (S : HighLevelStrategy σ) (strategy : σ) (h : Nat) :
    List Nat → Except StrategyFault σ → Prop where
  | kill : Informs S strategy h [] (S.killState strategy h)
  | update : Informs S strategy h [h] (S.updateState strategy h)
  | add : Informs S strategy h (h :: states) (S.addStates strategy (some h) states)

theorem SegmentTree.filter_children {cs : List (UInt64 × Nat)} (hT : SegmentTree x)
    (hs : x.childrenOf s = e0 :: rest) (hpm : cs.Perm (x.childrenOf s)) :
    cs.filter (fun e => x.pathOf e.2 = x.pathOf s) = [e0] ∧
      (cs.filter fun e => x.pathOf e.2 ≠ x.pathOf s).Perm rest := by
  have hf : x.pathOf e0.2 = x.pathOf s := hT.first_on_path hs
  have hr : ∀ e ∈ rest, x.pathOf e.2 ≠ x.pathOf s := fun e he => hT.other_off_path hs he
  rw [hs] at hpm
  constructor
  · apply perm_singleton.1
    refine (hpm.filter _).trans ?_
    rw [filter_cons_of_pos (by simpa using hf), filter_eq_nil_iff.2]
    intro e he
    simpa using hr e he
  · refine (hpm.filter _).trans ?_
    rw [filter_cons_of_neg (by simpa using hf), filter_eq_self.2]
    intro e he
    simpa using hr e he

variable {S : HighLevelStrategy σ}
theorem advanceSelected_cases (ho : ∀ cs, (order cs).Perm cs) (hT : SegmentTree x)
    (hR : Rooted x) (hh : h ∈ x.highLevelStates) :
    (∃ e0 e1 rest, x.childrenOf (x.segmentOf h) = e0 :: e1 :: rest ∧ e0.1 = 0 ∧
      x.advanceSelected S order h = .error .successorNotFound) ∨
    ∃ succ y call, Advance x h succ y ∧ Informs S x.hlStrategy h succ call ∧
      x.advanceSelected S order h = y.withStrategy call := by
  rw [advanceSelected, ← childrenOf]
  split
  next hc => exact .inr ⟨[], _, _, .kill hR hh hc, .kill, rfl⟩
  next e hc =>
    have hm : (e.1, e.2) ∈ x.childrenOf (x.segmentOf h) := by simp [hc]
    refine .inr ⟨[h], x.stepTo h e.2, _, .fork hT hR hh (.nil x h) (by simp [hc]), .update, ?_⟩
    rw [stepSelected, hT.stepHighLevelState hm]
    rfl
  next hn hoe =>
    rcases hc : x.childrenOf (x.segmentOf h) with _ | ⟨e0, _ | ⟨e1, rest⟩⟩
    · exact absurd hc hn
    · exact absurd hc (hoe e0)
    have hpm := ho (x.childrenOf (x.segmentOf h))
    obtain ⟨hon, hof⟩ := hT.filter_children hc hpm
    have hm : (e0.1, e0.2) ∈ x.childrenOf (x.segmentOf h) := by simp [hc]
    obtain ⟨add, z, hlp, hf⟩ := forkChildren_spec hT (hR.high_lt hh)
      (fun e he => hpm.mem_iff.1 he) (le_of_eq (congrArg length hon)) 0
      (fun _ => rfl) []
    have hon' : filter (fun e => x.pathOf e.2 = x.id h) (order (x.childrenOf (x.segmentOf h)))
      = [e0] := hon
    rw [hon'] at hlp
    rw [forkSelected, ← childrenOf, hlp]
    simp only [head?_cons, Option.map_some, Option.getD_some, nil_append]
    by_cases hz : e0.1 = 0
    · refine .inl ⟨e0, e1, rest, rfl, hz, ?_⟩
      simp [bind, Except.bind, hz]
    have hg : z.segmentOf h = x.segmentOf h := by
      rw [segmentOf, segmentOf, hf.old _ (hR.high_lt hh)]
    have hs := (hf.same.shape.segmentTree hT).stepHighLevelState (h := h)
      (by rw [hg, hf.same.children]; exact hm)
    refine .inr ⟨h :: add, z.stepTo h e0.2, _, .fork hT hR hh hf ?_, .add, ?_⟩
    · have hp : (x.childrenOf (x.segmentOf h)).map snd =
          e0.2 :: (e1 :: rest).map snd := by rw [hc, map_cons]
      rw [hp, perm_cons]
      exact hof.map _
    · simp only [bind, Except.bind, if_neg hz, hs]
      rw [← hf.strategy]
      rfl

end HighLevelExecutor
end Chef
