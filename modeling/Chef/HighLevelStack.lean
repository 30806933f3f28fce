import Mathlib.Data.List.Basic
import Chef.InterpreterTracer

namespace Chef
open Foundations List Except HighLevelFrame
namespace InterpreterTracer
section
variable (t : InterpreterTracer)
def frameIds : List Nat := t.callStack.frames.map CallStackFrame.id

def loopIds : List Nat := (t.callStack.frames.filter t.isLoopFrame).map CallStackFrame.id

def hlIds : List Nat := t.hlStack.map lowLevelFrameId

/-- The high-level frames name the live loop frames, in order. -/
structure Consistent : Prop where
  live : g ∈ t.hlStack → ∃ f ∈ t.callStack.frames, f.id = g.lowLevelFrameId ∧ t.isLoopFrame f = true
  ordered : t.hlIds.reverse.Pairwise fun a b =>
    t.frameIds.reverse.idxOf a ≤ t.frameIds.reverse.idxOf b
  represented : f ∈ t.callStack.frames → t.isLoopFrame f = true →
    ∃ g ∈ t.hlStack, g.lowLevelFrameId = f.id

/-- Ids grow towards the top. -/
structure Numbered : Prop where
  decreasing : t.frameIds.Pairwise (· > ·)
  bounded : ∀ i ∈ t.frameIds, i < t.callStack.nextId

/-- The high-level stack follows the call stack. -/
structure Follows : Prop where
  sorted : t.hlIds.Pairwise (· ≥ ·)
  mem_iff : i ∈ t.hlIds ↔ i ∈ t.loopIds

def TracksLoop : Prop :=
  t.tracking = true → ∃ top rest, t.callStack.frames = top :: rest ∧ t.isLoopFrame top = true

structure StackInvariant : Prop where
  numbered : Numbered t
  tracks : t.attached = true → TracksLoop t
  follows : t.attached = true → Follows t

end

theorem idxOf_le_of_le {ids : List Nat} (hs : ids.Pairwise (· < ·)) (ha : a ∈ ids)
    (hb : b ∈ ids) (hab : a ≤ b) : ids.idxOf a ≤ ids.idxOf b := by
  induction ids with
  | nil => cases ha
  | cons i ids ih =>
    rw [pairwise_cons] at hs
    by_cases hai : a = i
    · subst hai
      simp
    have ha' := (mem_cons.1 ha).resolve_left hai
    have hlt := hs.1 a ha'
    have hbi : b ≠ i := by omega
    have hb' := (mem_cons.1 hb).resolve_left hbi
    rw [idxOf_cons_ne _ (Ne.symm hai), idxOf_cons_ne _ (Ne.symm hbi)]
    exact Nat.succ_le_succ (ih hs.2 ha' hb')

section
variable {t t' : InterpreterTracer}
theorem mem_loopIds : i ∈ t.loopIds ↔
    ∃ f ∈ t.callStack.frames, f.id = i ∧ t.isLoopFrame f = true := by
  simp only [loopIds, mem_map, mem_filter]
  constructor
  · rintro ⟨f, ⟨hf, hl⟩, rfl⟩
    exact ⟨f, hf, rfl, hl⟩
  · rintro ⟨f, hf, rfl, hl⟩
    exact ⟨f, ⟨hf, hl⟩, rfl⟩

theorem loopIds_subset (h : i ∈ t.loopIds) : i ∈ t.frameIds := by
  obtain ⟨f, hf, rfl, _⟩ := mem_loopIds.1 h
  exact mem_map_of_mem hf

theorem Follows.consistent (hf : Follows t) (hn : Numbered t) : Consistent t where
  live hg := mem_loopIds.1 (hf.mem_iff.1 (mem_map_of_mem hg))
  ordered := by
    have hm : ∀ i ∈ t.hlIds, i ∈ t.frameIds := fun i hi => loopIds_subset (hf.mem_iff.1 hi)
    have hc : t.frameIds.reverse.Pairwise (· < ·) := pairwise_reverse.2 hn.decreasing
    have hso : t.hlIds.reverse.Pairwise (· ≤ ·) := pairwise_reverse.2 hf.sorted
    apply hso.imp_of_mem
    intro a b ha hb hab
    apply idxOf_le_of_le hc _ _ hab
    · simpa using hm a (by simpa using ha)
    · simpa using hm b (by simpa using hb)
  represented hf' hl := by
    obtain ⟨g, hg, he⟩ := mem_map.1 (hf.mem_iff.2 (mem_loopIds.2 ⟨_, hf', rfl, hl⟩))
    exact ⟨g, hg, he⟩

theorem Numbered.le_top (hn : Numbered t) (ht : t.callStack.frames = top :: rest)
    (hi : i ∈ t.frameIds) : i ≤ top.id := by
  have hd := hn.decreasing
  rw [frameIds, ht, map_cons, pairwise_cons] at hd
  rw [frameIds, ht, map_cons, mem_cons] at hi
  obtain he | hm := hi
  · exact Nat.le_of_eq he
  · exact Nat.le_of_lt (hd.1 _ hm)

theorem Follows.head (hf : Follows t) (hn : Numbered t) (ht : t.callStack.frames = top :: rest)
    (hl : t.isLoopFrame top = true) : ∃ g gs, t.hlStack = g :: gs ∧ g.lowLevelFrameId = top.id := by
  have hmem : top.id ∈ t.hlIds := hf.mem_iff.2 (mem_loopIds.2 ⟨top, by simp [ht], rfl, hl⟩)
  cases hs : t.hlStack with
  | nil =>
    rw [hlIds, hs] at hmem
    cases hmem
  | cons g gs =>
    refine ⟨g, gs, rfl, ?_⟩
    have hg : g.lowLevelFrameId ∈ t.frameIds := loopIds_subset (hf.mem_iff.1 (by simp [hlIds, hs]))
    have hle := hn.le_top ht hg
    have hge : top.id ≤ g.lowLevelFrameId := by
      have hso := hf.sorted
      rw [hlIds, hs, map_cons, pairwise_cons] at hso
      rw [hlIds, hs, map_cons, mem_cons] at hmem
      obtain he | hm := hmem
      · exact Nat.le_of_eq he
      · exact hso.1 _ hm
    omega

structure Keeps (connected : Bool) (r : Except TraceFault InterpreterTracer) : Prop where
  ok : r = .ok s → StackInvariant s
  nonempty : connected = true → r ≠ .error .emptyHighLevelStack

theorem StackInvariant.keeps (hI : StackInvariant t) : Keeps connected (.ok t) := by
  refine ⟨?_, nofun⟩
  rintro _ ⟨⟩
  exact hI

theorem keeps_error (h : fault ≠ .emptyHighLevelStack) : Keeps connected (.error fault) :=
  ⟨nofun, fun _ he => h (error.inj he)⟩

theorem StackInvariant.initial (stackTop : UInt64) : StackInvariant (initial stackTop) where
  numbered := ⟨by simp [InterpreterTracer.initial, frameIds],
    by simp [InterpreterTracer.initial, frameIds]⟩
  tracks h := by cases h
  follows h := by cases h

section
variable (hI : StackInvariant t)
include hI
theorem StackInvariant.setParams (params : InterpreterStructureParams) :
    StackInvariant (t.setInterpreterStructureParams params) where
  numbered := ⟨hI.numbered.decreasing, hI.numbered.bounded⟩
  tracks _ h := by cases h
  follows _ := by
    have hi : (t.setInterpreterStructureParams params).hlIds =
        (t.setInterpreterStructureParams params).loopIds := by
      simp only [hlIds, loopIds, setInterpreterStructureParams, map_map]
      rfl
    constructor
    · have hs : Sublist (t.setInterpreterStructureParams params).loopIds t.frameIds :=
        filter_sublist.map _
      rw [hi]
      exact (hI.numbered.decreasing.sublist hs).imp Nat.le_of_lt
    · intro i
      rw [hi]

theorem StackInvariant.congr (hr : t'.frameIds = t.frameIds) (hn : t'.callStack.nextId =
    t.callStack.nextId) (hlp : t'.loopIds = t.loopIds) (hhl : t'.hlIds = t.hlIds) (ha :
    t'.attached = t.attached) (ht : TracksLoop t → TracksLoop t') : StackInvariant t' where
  numbered := ⟨hr ▸ hI.numbered.decreasing, by
    rw [hr, hn]
    exact hI.numbered.bounded⟩
  tracks h := ht (hI.tracks (ha ▸ h))
  follows h := by
    have hf := hI.follows (ha ▸ h)
    exact ⟨hhl ▸ hf.sorted, fun {i} => by rw [hhl, hlp]; exact hf.mem_iff⟩

theorem StackInvariant.updateTop
    (hid : ∀ c, (f c).id = c.id) (hn : ∀ c, (f c).function = c.function) :
    StackInvariant (t.updateTop f) := by
  have hlp : ∀ c, t.isLoopFrame (f c) = t.isLoopFrame c := by
    intro c
    rw [isLoopFrame, hn, isLoopFrame]
  apply hI.congr
  · simp only [frameIds, InterpreterTracer.updateTop]
    cases t.callStack.frames with
    | nil => rfl
    | cons c cs => simp [hid]
  · rfl
  · have hfr : (t.updateTop f).isLoopFrame = t.isLoopFrame := rfl
    rw [loopIds, loopIds, hfr]
    simp only [InterpreterTracer.updateTop]
    cases t.callStack.frames with
    | nil => rfl
    | cons c cs =>
      rw [modifyHead_cons, filter_cons, filter_cons, hlp]
      split <;> simp [hid]
  · rfl
  · rfl
  · intro h ht
    obtain ⟨top, rest, hf, hl⟩ := h ht
    refine ⟨f top, rest, ?_, (hlp top).trans hl⟩
    simp [InterpreterTracer.updateTop, hf]

theorem StackInvariant.updateTopFrame (hid : ∀ g, (f g).lowLevelFrameId = g.lowLevelFrameId) :
    StackInvariant (t.updateTopFrame f) := by
  refine hI.congr rfl rfl rfl ?_ rfl fun h => h
  simp only [hlIds, InterpreterTracer.updateTopFrame]
  cases t.hlStack with
  | nil => rfl
  | cons g gs => simp [hid]

end

theorem Follows.push (hf : Follows t) (hn : Numbered t) (ht : t.callStack.frames = top :: rest)
    (hl : t.isLoopFrame top = true) : Follows (t.pushHighLevelFrame top) := by
  have hm : top.id ∈ t.loopIds := mem_loopIds.2 ⟨top, by simp [ht], rfl, hl⟩
  constructor
  · rw [hlIds, pushHighLevelFrame, map_cons, pairwise_cons]
    exact ⟨fun i hi => hn.le_top ht (loopIds_subset (hf.mem_iff.1 hi)), hf.sorted⟩
  intro i
  have hiff : i ∈ (t.pushHighLevelFrame top).hlIds ↔ i = top.id ∨ i ∈ t.hlIds := by
    rw [hlIds, pushHighLevelFrame, map_cons, mem_cons, hlIds]
  have hlp : (t.pushHighLevelFrame top).loopIds = t.loopIds := rfl
  rw [hiff, hlp, hf.mem_iff]
  refine ⟨?_, .inr⟩
  rintro (rfl | hi)
  · exact hm
  · exact hi

theorem Numbered.withFrame (hn : Numbered t)
    (hid : frame.id = t.callStack.nextId) : Numbered (t.withFrame frame) := by
  have hd : (t.withFrame frame).frameIds = t.callStack.nextId :: t.frameIds := by
    rw [frameIds, InterpreterTracer.withFrame, map_cons, hid, frameIds]
  constructor
  · rw [hd, pairwise_cons]
    exact ⟨hn.bounded, hn.decreasing⟩
  intro i hi
  rw [hd, mem_cons] at hi
  obtain rfl | hi := hi
  · exact Nat.lt_succ_self _
  · exact Nat.lt_succ_of_lt (hn.bounded i hi)

theorem Follows.withFrame (hf : Follows t) (hn : Numbered t) (hid : frame.id = t.callStack.nextId) :
    Follows ((t.withFrame frame).onLowLevelStackFramePush frame) := by
  rw [onLowLevelStackFramePush]
  split
  next hl =>
    have hlp : (t.withFrame frame).loopIds = frame.id :: t.loopIds :=
      congrArg (map CallStackFrame.id) (filter_cons_of_pos hl)
    refine ⟨pairwise_cons.2 ⟨fun i hi => ?_, hf.sorted⟩, fun {i} => ?_⟩
    · rw [hid]
      exact Nat.le_of_lt (hn.bounded i (loopIds_subset (hf.mem_iff.1 hi)))
    · change i ∈ frame.id :: t.hlIds ↔ i ∈ (t.withFrame frame).loopIds
      rw [hlp, mem_cons, mem_cons, hf.mem_iff]
  next hl =>
    have hlp : (t.withFrame frame).loopIds = t.loopIds :=
      congrArg (map CallStackFrame.id) (filter_cons_of_neg hl)
    exact ⟨hf.sorted, fun {i} => hf.mem_iff.trans (hlp ▸ Iff.rfl)⟩

theorem onLowLevelStackFramePush_fields (t : InterpreterTracer) (frame : CallStackFrame) :
    (t.onLowLevelStackFramePush frame).callStack = t.callStack ∧
      (t.onLowLevelStackFramePush frame).params = t.params ∧
      (t.onLowLevelStackFramePush frame).tracking = t.isLoopFrame frame := by
  rw [onLowLevelStackFramePush]
  split <;> exact ⟨rfl, rfl, rfl⟩

theorem StackInvariant.newFrame (hI : StackInvariant t) :
    Keeps t.attached (t.newFrame callSite function sp) := by
  rw [InterpreterTracer.newFrame]
  split
  · exact keeps_error nofun
  next old rest hf =>
    split
    · exact keeps_error nofun
    apply keeps
    generalize hfr : CallStackFrame.mk t.callStack.nextId callSite function 0 0 0 false
      old.bottom sp = frame
    have hid : frame.id = t.callStack.nextId := by rw [← hfr]
    have hn := hI.numbered.withFrame hid
    split
    next ha =>
      obtain ⟨hs, hps, ht⟩ := onLowLevelStackFramePush_fields (t.withFrame frame) frame
      constructor
      · exact ⟨by rw [frameIds, hs]; exact hn.decreasing, by rw [frameIds, hs]; exact hn.bounded⟩
      · intro _ htr
        refine ⟨frame, t.callStack.frames, by rw [hs]; rfl, ?_⟩
        rw [ht] at htr
        rw [isLoopFrame, hps]
        exact htr
      · exact fun _ => (hI.follows ha).withFrame hI.numbered hid
    next ha => exact ⟨hn, fun h => absurd h ha, fun h => absurd h ha⟩

theorem Numbered.pop (hn : Numbered t) (ht : t.callStack.frames = old :: rest) :
    Numbered (t.withFrames rest) := by
  have hd : t.frameIds = old.id :: (t.withFrames rest).frameIds := by
    rw [frameIds, ht]
    rfl
  have hc := hn.decreasing
  rw [hd, pairwise_cons] at hc
  refine ⟨hc.2, fun i hi => hn.bounded i ?_⟩
  rw [hd]
  exact mem_cons_of_mem _ hi

theorem loopIds_pop (ht : t.callStack.frames = old :: rest) :
    t.loopIds = if t.isLoopFrame old = true then old.id :: (t.withFrames rest).loopIds
      else (t.withFrames rest).loopIds := by
  rw [loopIds, ht, filter_cons]
  split <;> rfl

def hlFramesOf (t : InterpreterTracer) (f : CallStackFrame) : Nat := t.hlIds.count f.id

theorem Follows.pop (hf : Follows t) (hn : Numbered t) (ht : t.callStack.frames = old :: rest)
    (hl : t.isLoopFrame old = true) (ho : t.hlFramesOf old ≤ 1) :
    ∃ g gs, t.hlStack = g :: gs ∧ Follows { t.withFrames rest with hlStack := gs } := by
  obtain ⟨g, gs, hs, hid⟩ := hf.head hn ht hl
  have hhl : t.hlIds = old.id :: gs.map lowLevelFrameId := by rw [hlIds, hs, map_cons, hid]
  have hlp := loopIds_pop ht
  rw [if_pos hl] at hlp
  have hg : old.id ∉ gs.map lowLevelFrameId := by
    rw [hlFramesOf, hhl, count_cons_self] at ho
    exact count_eq_zero.1 (by omega)
  have hw : old.id ∉ (t.withFrames rest).loopIds := by
    intro hm
    have hd := hn.decreasing
    rw [frameIds, ht, map_cons, pairwise_cons] at hd
    exact Nat.lt_irrefl _ (hd.1 _ (loopIds_subset hm))
  refine ⟨g, gs, hs, ?_, ?_⟩
  · have hso := hf.sorted
    rw [hhl, pairwise_cons] at hso
    exact hso.2
  intro i
  have hi := hf.mem_iff (i := i)
  rw [hhl, hlp, mem_cons, mem_cons] at hi
  change i ∈ gs.map lowLevelFrameId ↔ i ∈ (t.withFrames rest).loopIds
  by_cases he : i = old.id
  · subst he
    exact ⟨fun h => absurd h hg, fun h => absurd h hw⟩
  · simpa only [he, false_or] using hi

theorem StackInvariant.popping (hI : StackInvariant t) (ha : t.attached = true)
    (ht : t.callStack.frames = old :: new :: rest)
    (ho : t.isLoopFrame old = true → t.hlFramesOf old ≤ 1) :
    ∃ t', t.onLowLevelStackFramePopping old new = .ok t' ∧
      t'.callStack = t.callStack ∧ t'.attached = true ∧ t'.params = t.params ∧
      Sublist t'.hlIds t.hlIds ∧ StackInvariant (t'.withFrames (new :: rest)) := by
  have hn := hI.numbered.pop ht
  have hf := hI.follows ha
  have hr : ∀ hl, TracksLoop
      { (t.updateMemoryTracking new).withFrames (new :: rest) with hlStack := hl } :=
    fun hl htr => ⟨new, rest, rfl, htr⟩
  rw [onLowLevelStackFramePopping]
  split
  next hl =>
    obtain ⟨g, gs, hs, hp⟩ := hf.pop hI.numbered ht hl (ho hl)
    have hb : Sublist (gs.map lowLevelFrameId) t.hlIds := by
      rw [hlIds, hs]
      exact (sublist_cons_self g gs).map _
    rw [hs]
    refine ⟨_, rfl, rfl, ha, rfl, hb, ?_⟩
    exact ⟨⟨hn.decreasing, hn.bounded⟩, fun _ => hr gs, fun _ => ⟨hp.sorted, hp.mem_iff⟩⟩
  next hl =>
    have hlp := loopIds_pop ht
    rw [if_neg hl] at hlp
    refine ⟨_, rfl, rfl, ha, rfl, List.Sublist.refl _, ?_⟩
    exact ⟨⟨hn.decreasing, hn.bounded⟩, fun _ => hr t.hlStack,
      fun _ => ⟨hf.sorted, fun {i} => hf.mem_iff.trans (by rw [hlp]; rfl)⟩⟩

/-- No loop frame that is left has several high-level frames. -/
def SingleFrames (t : InterpreterTracer) (sp : UInt64) : Prop :=
  t.attached = true → ∀ f ∈ t.callStack.frames, t.isLoopFrame f = true → f.top ≤ sp →
    t.hlFramesOf f ≤ 1

theorem StackInvariant.unwind (hI : StackInvariant t) (hr : t.callStack.frames = frames)
    (hoe : SingleFrames t sp) : Keeps t.attached (unwind sp frames t) := by
  induction frames generalizing t with
  | nil => exact keeps_error nofun
  | cons old rest ih =>
    cases rest with
    | nil =>
      rw [InterpreterTracer.unwind]
      split
      · exact keeps_error nofun
      · exact hI.keeps
    | cons new rest =>
      rw [InterpreterTracer.unwind]
      by_cases hsp : old.top ≤ sp
      · rw [if_pos hsp]
        cases hatt : t.attached with
        | true =>
          have ho : t.isLoopFrame old = true → t.hlFramesOf old ≤ 1 :=
            fun hl => hoe hatt old (by simp [hr]) hl hsp
          obtain ⟨t1, hp, _, ha1, hps, hs, hI1⟩ := hI.popping hatt hr ho
          have ho1 : SingleFrames (t1.withFrames (new :: rest)) sp := by
            intro _ f hf hl hf'
            have hl' : t.isLoopFrame f = true := by
              rw [isLoopFrame, ← hps]
              exact hl
            have hm : f ∈ t.callStack.frames := by
              rw [hr]
              exact mem_cons_of_mem _ hf
            exact Nat.le_trans (hs.count_le f.id) (hoe hatt f hm hl' hf')
          simp only [if_true, hp]
          exact ha1 ▸ ih hI1 rfl ho1
        | false =>
          have hn := hI.numbered.pop hr
          have hI1 : StackInvariant (t.withFrames (new :: rest)) :=
            ⟨hn, fun h => absurd (hatt.symm.trans h) (by simp),
              fun h => absurd (hatt.symm.trans h) (by simp)⟩
          have ho1 : SingleFrames (t.withFrames (new :: rest)) sp :=
            fun h => absurd (hatt.symm.trans h) (by simp)
          have ha1 : (t.withFrames (new :: rest)).attached = false := hatt
          have hih := ih hI1 rfl ho1
          rw [ha1] at hih
          exact hih
      · rw [if_neg hsp]
        exact hI.keeps

theorem StackInvariant.updateFrame (hI : StackInvariant t) (ho : SingleFrames t sp) :
    Keeps t.attached (t.updateFrame sp) := by
  have hn := hI.unwind rfl ho
  constructor
  · intro t' ht'
    obtain ⟨t1, hu, ht1⟩ := bind_ok_iff.1 ht'
    cases ht1
    exact (hn.ok hu).updateTop (fun _ => rfl) (fun _ => rfl)
  · intro ha he
    obtain he | ⟨t1, _, he⟩ := bind_error_iff.1 he
    · exact hn.nonempty ha he
    · cases he

/-- The frame that a program counter update returns to. -/
def unwindTarget (t : InterpreterTracer) (a : MemoryAccess) : Option HighLevelFrame :=
  match visible a, t.hlStack with
  | some (address, _), frame :: _ =>
    if t.tracking = true ∧ a.pc = t.params.hlpcUpdatePc ∧ frame.hlpcPtr ≠ 0 ∧
        frame.hlpcPtr ≠ address then
      t.hlStack.find? fun f => f.hlpcPtr == address
    else none
  | _, _ => none

theorem Follows.unwindTo (hf : Follows t) (hn : Numbered t)
    (ht : t.callStack.frames = top :: rest) (hs : t.hlStack = gs ++ g :: gs')
    (hid : g.lowLevelFrameId = top.id) : Follows { t with hlStack := g :: gs' } := by
  have hd : t.hlIds = gs.map lowLevelFrameId ++
      (g :: gs').map lowLevelFrameId := by rw [hlIds, hs, map_append]
  have hso := hf.sorted
  rw [hd, pairwise_append] at hso
  refine ⟨hso.2.1, fun {i} => ?_⟩
  have hiff := hf.mem_iff (i := i)
  rw [hd, mem_append] at hiff
  change i ∈ (g :: gs').map lowLevelFrameId ↔ i ∈ t.loopIds
  refine ⟨fun hi => hiff.1 (.inr hi), fun hi => ?_⟩
  obtain hp | hsu := hiff.2 hi
  · have hge := hso.2.2 i hp g.lowLevelFrameId (by simp)
    have hle := hn.le_top ht (loopIds_subset hi)
    have he : i = g.lowLevelFrameId := by omega
    simp [he]
  · exact hsu

section
variable (hI : StackInvariant t)
include hI
theorem StackInvariant.withStack (hf : t.attached = true →
    Follows { t with hlStack := stack }) : StackInvariant { t with hlStack := stack } :=
  ⟨⟨hI.numbered.decreasing, hI.numbered.bounded⟩, hI.tracks, hf⟩

theorem StackInvariant.switchFrame (ha : t.attached = true)
    (ht : t.callStack.frames = top :: rest) (hl : t.isLoopFrame top = true)
    (hu : frame.hlpcPtr ≠ 0 → frame.hlpcPtr ≠ address → ∀ g,
      (t.hlStack.find? fun f => f.hlpcPtr == address) = some g → g.lowLevelFrameId = top.id) :
    StackInvariant (t.switchFrame top frame address) := by
  have hf := hI.follows ha
  rw [InterpreterTracer.switchFrame]
  by_cases hz : frame.hlpcPtr = 0
  · rw [if_pos hz]
    exact hI.updateTopFrame fun _ => rfl
  rw [if_neg hz]
  by_cases hne : frame.hlpcPtr ≠ address
  · rw [if_pos hne]
    split
    next hn =>
      obtain ⟨g, hg⟩ := Option.isSome_iff_exists.1 (List.find?_isSome.2 (any_eq_true.1 hn))
      have hid := hu hz hne g hg
      obtain ⟨hp, as, bs, happ, hs⟩ := List.find?_eq_some_iff_append.1 hg
      have hdr : t.hlStack.dropWhile (fun f => f.hlpcPtr != address) = g :: bs := by
        rw [happ, dropWhile_append_of_pos, dropWhile_cons_of_neg]
        · simpa using hp
        · intro f hf
          simpa using hs f hf
      rw [hdr]
      exact hI.withStack fun _ => hf.unwindTo hI.numbered ht happ hid
    · have hpu : StackInvariant (t.pushHighLevelFrame top) :=
        hI.withStack fun _ => hf.push hI.numbered ht hl
      exact hpu.updateTopFrame fun _ => rfl
  · rw [if_neg hne]
    exact hI

theorem StackInvariant.updateProgramCounter :
    StackInvariant (t.updateProgramCounter a address value) := by
  apply hI.updateTopFrame
  intro g
  split <;> rfl

theorem StackInvariant.fetchInstruction : Keeps connected (t.fetchInstruction a address) := by
  have hs : StackInvariant (t.updateTopFrame fun f => { f with hlinst := address }) :=
    hI.updateTopFrame fun _ => rfl
  rw [InterpreterTracer.fetchInstruction]
  split
  · split
    · exact keeps_error nofun
    · exact hs.keeps
  · exact hI.keeps

end

/-- No such write returns to a frame of another low-level frame. -/
def ReturnsWithin (t : InterpreterTracer) (a : MemoryAccess) : Prop :=
  ∀ g ∈ t.unwindTarget a, ∀ f ∈ t.callStack.frames.head?, g.lowLevelFrameId = f.id

theorem StackInvariant.onDataMemoryAccess (hI : StackInvariant t) (ha : t.attached = true)
    (htr : t.tracking = true) (hr : ReturnsWithin t a) :
    Keeps connected (t.onDataMemoryAccess a) := by
  obtain ⟨top, rest, ht, hl⟩ := hI.tracks ha htr
  obtain ⟨frame, gs, hs, _⟩ := (hI.follows ha).head hI.numbered ht hl
  rw [InterpreterTracer.onDataMemoryAccess]
  cases hv : visible a with
  | none => exact hI.keeps
  | some v =>
    obtain ⟨address, value⟩ := v
    simp only [hs, ht]
    by_cases hpc : a.pc = t.params.hlpcUpdatePc
    · rw [if_pos hpc]
      split
      · have hu : frame.hlpcPtr ≠ 0 → frame.hlpcPtr ≠ address →
            ∀ g, (t.hlStack.find? fun f => f.hlpcPtr == address) = some g →
              g.lowLevelFrameId = top.id := by
          intro hz hne g hg
          have hp : top ∈ t.callStack.frames.head? := by rw [ht, head?_cons]; rfl
          apply hr g _ top hp
          rw [Option.mem_def, unwindTarget, hv, hs]
          simp only [htr, hpc, hz, hne, ne_eq, not_false_eq_true, and_self, if_true]
          rw [← hs, hg]
        have hsw := hI.switchFrame ha ht hl hu
        exact hsw.updateProgramCounter.fetchInstruction
      · exact keeps_error nofun
    · rw [if_neg hpc]
      exact hI.updateProgramCounter.fetchInstruction

theorem switchFrame_callStack (t : InterpreterTracer) (top : CallStackFrame)
    (frame : HighLevelFrame) (address : UInt64) :
    (t.switchFrame top frame address).callStack = t.callStack ∧
      (t.switchFrame top frame address).attached = t.attached := by
  rw [switchFrame]
  split
  · exact ⟨rfl, rfl⟩
  split
  · split <;> exact ⟨rfl, rfl⟩
  · exact ⟨rfl, rfl⟩

theorem fetchInstruction_callStack (h : t.fetchInstruction a address = .ok t') :
    t'.callStack = t.callStack ∧ t'.attached = t.attached := by
  rw [fetchInstruction] at h
  split at h
  · split at h
    · cases h
    · exact ok.inj h ▸ ⟨rfl, rfl⟩
  · exact ok.inj h ▸ ⟨rfl, rfl⟩

theorem onDataMemoryAccess_callStack (h : t.onDataMemoryAccess a = .ok t') :
    t'.callStack = t.callStack ∧ t'.attached = t.attached := by
  rw [onDataMemoryAccess] at h
  split at h
  · exact ok.inj h ▸ ⟨rfl, rfl⟩
  split at h
  · cases h
  · cases h
  split at h
  · split at h
    · obtain ⟨hc, ha⟩ := fetchInstruction_callStack h
      obtain ⟨hc', ha'⟩ := switchFrame_callStack t _ _ _
      exact ⟨hc.trans hc', ha.trans ha'⟩
    · cases h
  · have hfs := fetchInstruction_callStack h
    exact hfs

theorem StackInvariant.onStateSwitch (hI : StackInvariant t) : Keeps connected t.onStateSwitch := by
  rw [InterpreterTracer.onStateSwitch]
  split
  · exact keeps_error nofun
  next top rest ht =>
    apply keeps
    exact ⟨⟨hI.numbered.decreasing, hI.numbered.bounded⟩, fun _ htr => ⟨top, rest, ht, htr⟩,
      fun ha => ⟨(hI.follows ha).sorted, (hI.follows ha).mem_iff⟩⟩

def InStep (t : InterpreterTracer) : TraceEvent → Prop
  | .stackPointer sp => SingleFrames t sp
  | .access a => ReturnsWithin t a
  | _ => True

theorem StackInvariant.handle (hI : StackInvariant t) (he : InStep t e) :
    Keeps t.attached (t.handle e) := by
  cases e with
  | setParams params => exact (hI.setParams params).keeps
  | call callSite function sp => exact hI.newFrame
  | stackPointer sp => exact hI.updateFrame he
  | basicBlock bbIndex loopId loopDepth isHeader =>
    rw [InterpreterTracer.handle, updateBasicBlock]
    split
    · exact keeps_error nofun
    · apply keeps
      exact hI.updateTop (fun _ => rfl) (fun _ => rfl)
  | access a =>
    rw [InterpreterTracer.handle]
    split
    next htr =>
      by_cases ht : t.attached = true
      · exact hI.onDataMemoryAccess ht htr he
      refine ⟨fun {t'} h => ?_, fun h => absurd h ht⟩
      obtain ⟨hc, ha⟩ := onDataMemoryAccess_callStack h
      rw [← ha] at ht
      have hi : t'.frameIds = t.frameIds := by rw [frameIds, hc, frameIds]
      refine ⟨⟨?_, ?_⟩, fun h => absurd h ht, fun h => absurd h ht⟩
      · rw [hi]
        exact hI.numbered.decreasing
      · rw [hi, hc]
        exact hI.numbered.bounded
    · exact hI.keeps
  | stateSwitch => exact hI.onStateSwitch

theorem StackInvariant.reachable (h : machine.Reachable InStep t) : StackInvariant t := by
  apply h.invariant
  · intro s hs
    obtain ⟨stackTop, rfl⟩ := hs
    exact .initial stackTop
  · intro s e s' hI he hs
    exact (hI.handle he).ok hs

/-- While no step breaks the order of frames, both stacks stay in step. -/
theorem highLevelStack_consistent (h : machine.Reachable InStep t) (hatt : t.attached = true) :
    Consistent t ∧ ∀ e, InStep t e → t.handle e ≠ .error .emptyHighLevelStack := by
  have hI := StackInvariant.reachable h
  exact ⟨(hI.follows hatt).consistent hI.numbered, fun e he => (hI.handle he).nonempty hatt⟩

end

instance (t : InterpreterTracer) (sp : UInt64) : Decidable (SingleFrames t sp) :=
  inferInstanceAs (Decidable (t.attached = true → ∀ f ∈ t.callStack.frames,
    t.isLoopFrame f = true → f.top ≤ sp → t.hlFramesOf f ≤ 1))

instance (t : InterpreterTracer) (a : MemoryAccess) : Decidable (ReturnsWithin t a) :=
  inferInstanceAs (Decidable (∀ g ∈ t.unwindTarget a, ∀ f ∈ t.callStack.frames.head?,
    g.lowLevelFrameId = f.id))

instance (t : InterpreterTracer) (e : TraceEvent) : Decidable (InStep t e) :=
  match e with
  | .stackPointer sp => inferInstanceAs (Decidable (SingleFrames t sp))
  | .access a => inferInstanceAs (Decidable (ReturnsWithin t a))
  | .setParams _ | .call .. | .basicBlock .. | .stateSwitch => isTrue trivial

def updateAt (address : UInt64) : TraceEvent := .access ⟨70, some address, some 5, true, true⟩

theorem highLevelStack_consistent_run :
    ∃ t, machine.Reachable InStep t ∧ t.hlStack = [⟨2, 16, 5, 0⟩] ∧ Consistent t ∧
      ∀ e, InStep t e → t.handle e ≠ .error .emptyHighLevelStack := by
  obtain ⟨t, ht, hs, ha⟩ : ∃ t, runWhile InStep handle
      [.setParams ⟨7, 70, 71⟩, .call 1 7 900, updateAt 16, updateAt 32, updateAt 16,
        .call 2 7 800, updateAt 48, .stackPointer 900] (initial 1000) = some t ∧
      t.hlStack = [⟨2, 16, 5, 0⟩] ∧ t.attached = true := ⟨_, rfl, rfl, rfl⟩
  have hr : machine.Reachable InStep t := .runWhile (fun _ _ _ h => h) (.init ⟨1000, rfl⟩) ht
  exact ⟨t, hr, hs, highLevelStack_consistent hr ha⟩

theorem nested_loop_unwound : ∃ t t', machine.Reached t ∧ t.attached = true ∧ ¬Consistent t ∧
      t.handle (.stackPointer 900) = .ok t' ∧
      t'.handle (updateAt 16) = .error .emptyHighLevelStack := by
  obtain ⟨t, t', ht, ha, hs, hf, hp, hfault⟩ : ∃ t t', runWhile (fun _ _ => True) handle
      [.setParams ⟨7, 70, 71⟩, .call 1 7 900, updateAt 16, .call 2 7 800, updateAt 32,
        updateAt 16] (initial 1000) = some t ∧
      t.attached = true ∧ t.hlIds = [2] ∧ t.loopIds = [3, 2] ∧
      t.handle (.stackPointer 900) = .ok t' ∧
      t'.handle (updateAt 16) = .error .emptyHighLevelStack := ⟨_, _, rfl, rfl, rfl, rfl, rfl, rfl⟩
  refine ⟨t, t', .runWhile (fun _ _ _ h => h) (.init ⟨1000, rfl⟩) ht, ha, fun hc => ?_, hp, hfault⟩
  obtain ⟨f, hmem, hid, hl⟩ := mem_loopIds.1 (show 3 ∈ t.loopIds by simp [hf])
  obtain ⟨g, hg, he⟩ := hc.represented hmem hl
  have hmem' : g.lowLevelFrameId ∈ t.hlIds := mem_map_of_mem hg
  rw [hs, he, hid] at hmem'
  cases hmem' with
  | tail _ h => cases h

end InterpreterTracer
end Chef
