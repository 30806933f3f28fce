import Mathlib.Data.List.Pairwise

namespace Chef
open List
namespace StackMonitor
structure StackFrame where
  pc : BitVec 64
  top : BitVec 64
  size : BitVec 64
  moduleId : BitVec 32
  deriving DecidableEq

/-- The frames of a stack, the last one first. -/
structure Stack where
  stackBase : BitVec 64
  stackSize : BitVec 64
  frames : List StackFrame
  deriving DecidableEq

namespace Stack
def newFrame (currentModuleId : BitVec 32) (pc stackPointer : BitVec 64) (s : Stack) :
    Option Stack :=
  match s.frames with
  | [] => none
  | last :: _ =>
    if stackPointer < last.top + last.size then
      some { s with frames := ⟨pc, stackPointer, 4, currentModuleId⟩ :: s.frames }
    else none

/-- After a frame was removed, `last` refers to its place, so no size is set. -/
def unwind (stackPointer : BitVec 64) : List StackFrame → List StackFrame
  | [] => []
  | last :: rest => if stackPointer > last.top then unwind stackPointer rest else last :: rest

def Inside (s : Stack) (stackPointer : BitVec 64) : Prop :=
  s.stackBase ≤ stackPointer ∧ stackPointer < s.stackBase + s.stackSize

instance (s : Stack) (stackPointer : BitVec 64) : Decidable (s.Inside stackPointer) :=
  inferInstanceAs (Decidable (_ ∧ _))

/-- It asserts that there are frames and that the pointer is inside. -/
def update (stackPointer : BitVec 64) (s : Stack) : Option Stack :=
  match s.frames with
  | [] => none
  | last :: rest =>
    if s.Inside stackPointer then
      if last.top ≥ stackPointer then
        some { s with frames := { last with size := last.top - stackPointer + 4 } :: rest }
      else some { s with frames := unwind stackPointer rest }
    else none

/-- Made by calls at lower stack pointers and updates. -/
inductive Built : Stack → Prop
  | init (base size pc sp : BitVec 64) (moduleId : BitVec 32) :
    Built ⟨base, size, [⟨pc, sp, 4, moduleId⟩]⟩
  | call {s s' : Stack} (hs : Built s) (hlower : ∀ last ∈ s.frames.head?, sp < last.top)
    (h : s.newFrame moduleId pc sp = some s') : Built s'
  | update {s s' : Stack} (hs : Built s) (h : s.update sp = some s') : Built s'

def Ordered (frames : List StackFrame) : Prop := frames.Pairwise fun a b => a.top < b.top

theorem unwind_eq_filter {frames : List StackFrame} (h : Ordered frames) :
    unwind sp frames = frames.filter fun f => sp ≤ f.top := by
  induction frames with
  | nil => rfl
  | cons f rest ih =>
    obtain ⟨hf, hr⟩ := pairwise_cons.1 h
    rw [unwind]
    split
    next hlt =>
      rw [ih hr, filter_cons_of_neg]
      simpa using hlt
    next hle =>
      have hsp := BitVec.not_lt.1 hle
      refine (filter_eq_self.2 ?_).symm
      exact forall_mem_cons.2 ⟨decide_eq_true hsp, fun g hg =>
        decide_eq_true (BitVec.le_trans hsp (BitVec.le_of_lt (hf g hg)))⟩

theorem update_cases {s s' : Stack} (h : s.update sp = some s') :
    ∃ last rest, s.frames = last :: rest ∧
      (sp ≤ last.top ∧ s'.frames = { last with size := last.top - sp + 4 } :: rest ∨
        last.top < sp ∧ s'.frames = unwind sp rest) := by
  rw [update] at h
  split at h
  · cases h
  next last rest hf =>
    refine ⟨last, rest, hf, ?_⟩
    split at h
    · split at h
      next hle =>
        cases h
        exact .inl ⟨hle, rfl⟩
      next hlt =>
        cases h
        exact .inr ⟨BitVec.not_le.1 hlt, rfl⟩
    · cases h

theorem Built.ordered {s : Stack} (h : Built s) : Ordered s.frames := by
  induction h with
  | init base size pc sp moduleId => exact pairwise_singleton _ _
  | call hs hl h ih =>
    rw [newFrame] at h
    split at h
    · cases h
    next last rest hr =>
      rw [hr] at ih hl
      split at h
      · cases h
        have hla := hl last rfl
        rw [hr]
        refine pairwise_cons.2 ⟨forall_mem_cons.2 ⟨hla, fun f hf => ?_⟩, ih⟩
        exact BitVec.lt_trans hla ((pairwise_cons.1 ih).1 f hf)
      · cases h
  | update hs h ih =>
    obtain ⟨last, rest, hr, ⟨_, heq⟩ | ⟨_, heq⟩⟩ := update_cases h
    · rw [hr] at ih
      rw [heq]
      exact pairwise_cons.2 (pairwise_cons.1 ih)
    · rw [hr] at ih
      rw [heq, unwind_eq_filter (pairwise_cons.1 ih).2]
      exact (pairwise_cons.1 ih).2.filter _

/-- The frames from the pointer on, the last of which reaches down to it. -/
def unwound (stackPointer : BitVec 64) (frames : List StackFrame) : List StackFrame :=
  match frames.filter fun f => stackPointer ≤ f.top with
  | [] => []
  | last :: rest => { last with size := last.top - stackPointer + 4 } :: rest

/-- After frames were removed, the size of the last one is not set. -/
theorem update_right_iff {s : Stack} (hs : Built s) (hne : s.frames ≠ []) (hin : s.Inside sp) :
    ∃ s', s.update sp = some s' ∧ s'.frames.map StackFrame.top =
        (s.frames.filter fun f => sp ≤ f.top).map StackFrame.top ∧
      (s'.frames = unwound sp s.frames ↔ (∀ last ∈ s.frames.head?, sp ≤ last.top) ∨
        ∀ last ∈ (s.frames.filter fun f => sp ≤ f.top).head?, last.size = last.top - sp + 4) := by
  have ho := hs.ordered
  rw [unwound, ← unwind_eq_filter ho]
  obtain ⟨last, rest, hf⟩ := exists_cons_of_ne_nil hne
  rw [hf, unwind, update, hf]
  simp only [if_pos hin]
  split
  next hle =>
    rw [if_neg (BitVec.not_lt.2 hle)]
    refine ⟨_, rfl, rfl, iff_of_true rfl (.inl fun _ hla => ?_)⟩
    cases hla
    exact hle
  next hlt =>
    rw [if_pos (BitVec.not_le.1 hlt)]
    refine ⟨_, rfl, rfl, ?_⟩
    rw [or_iff_right fun h => hlt (h last rfl)]
    cases unwind sp rest with
    | nil => exact iff_of_true rfl nofun
    | cons kept below =>
      simp only [head?_cons, Option.mem_def, Option.some.injEq, forall_eq']
      rw [cons.injEq, and_iff_left rfl]
      exact ⟨fun h => congrArg StackFrame.size h, fun h => by rw [← h]⟩

def twoFrames : Stack := ⟨0, 200, [⟨1, 90, 4, 1⟩, ⟨0, 100, 4, 1⟩]⟩

theorem twoFrames_built : Built twoFrames := by
  have hc : newFrame 1 1 90 ⟨0, 200, [⟨0, 100, 4, 1⟩]⟩ = some twoFrames := rfl
  exact .call (.init 0 200 0 100 1) (by decide) hc

theorem frameBelow_size :
    Built twoFrames ∧ (twoFrames.update 95).map frames = some [⟨0, 100, 4, 1⟩] ∧
      unwound 95 twoFrames.frames = [⟨0, 100, 9, 1⟩] := ⟨twoFrames_built, by decide, by decide⟩

theorem frame_updated : ∃ s', twoFrames.update 85 = some s' ∧
    s'.frames = [⟨1, 90, 9, 1⟩, ⟨0, 100, 4, 1⟩] := by
  have hin : Inside twoFrames 85 := by decide
  obtain ⟨s', hs', _, hi⟩ := update_right_iff twoFrames_built (cons_ne_nil _ _) hin
  exact ⟨s', hs', hi.2 (.inl (by decide))⟩

end Stack
end StackMonitor
end Chef
