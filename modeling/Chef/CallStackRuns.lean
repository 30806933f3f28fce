import Mathlib.Data.List.Chain
import Chef.CallTracer

namespace Chef
open Foundations List Store
namespace CallStack
abbrev Outcome := Except StackFault (CallStack × List StackSignal)

variable (c : CallStack)
def call (callSite function sp : UInt64) : Outcome :=
  match c.frames with
  | [] => .error .noFrame
  | old :: _ =>
    if sp < old.bottom then
      let new := old.called c.nextId callSite function sp
      .ok (⟨succId c.nextId, new :: c.frames⟩, [.push old new])
    else .error .invalidFrameStart

def unwindFrames (sp : UInt64) :
    List CallStackFrame → Except StackFault (List CallStackFrame × List StackSignal)
  | [] => .error .noFrame
  | [root] => if root.top ≤ sp then .error .frameBelowRoot else .ok ([root], [])
  | old :: new :: rest =>
    if old.top ≤ sp then
      (unwindFrames sp (new :: rest)).map fun r => (r.1, .popping old new :: r.2)
    else .ok (old :: new :: rest, [])

def resize (c : CallStack) (sp : UInt64) : Outcome :=
  match c.frames with
  | [] => .error .noFrame
  | top :: rest =>
    if top.bottom = sp then .ok (c, [])
    else .ok ({ c with frames := top.resized sp :: rest }, [.resize (top.resized sp)])

def moveStackPointer (sp : UInt64) : Outcome := unwindFrames sp c.frames >>= fun r =>
    (resize { c with frames := r.1 } sp).map fun q => (q.1, r.2 ++ q.2)

def enterBasicBlock (bbIndex loopId loopDepth : Int) (isHeader : Bool) : Outcome :=
  match c.frames with
  | [] => .error .noFrame
  | top :: rest =>
    let frame := top.entered bbIndex loopId loopDepth isHeader
    .ok ({ c with frames := frame :: rest }, [.basicBlockEnter frame])

def handle : StackEvent → Outcome
  | .call callSite function sp => c.call callSite function sp
  | .stackPointer sp => c.moveStackPointer sp
  | .basicBlock bbIndex loopId loopDepth isHeader =>
    c.enterBasicBlock bbIndex loopId loopDepth isHeader

end CallStack

namespace TracedStack
def view (heap : FrameHeap) (s : TracedStack) : CallStack := ⟨s.nextId, s.frames.map (frameAt heap)⟩

structure Sound (heap : FrameHeap) (s : TracedStack) : Prop where
  bounded : ∀ f ∈ s.frames, f < heap.size
  nodup : s.frames.Nodup

theorem frameAt_alloc (heap : FrameHeap) (object : FrameObject) (h : f < heap.size) :
    frameAt (heap.alloc object) f = frameAt heap f := by
  rw [frameAt, get_alloc_of_lt _ _ h, frameAt]

theorem map_frameAt_alloc {fs : List Nat} (object : FrameObject) (h : ∀ f ∈ fs, f < heap.size) :
    fs.map (frameAt (heap.alloc object)) = fs.map (frameAt heap) :=
  map_congr_left fun f hf => frameAt_alloc heap object (h f hf)

theorem frameAt_setFrame_self (h : f < size heap) :
    frameAt (setFrame heap f frame) f = frame := by rw [frameAt, setFrame, get_modify_self _ _ h]

theorem frameAt_setFrame_ne (h : f ≠ g) : frameAt (setFrame heap f frame) g = frameAt heap g := by
  rw [frameAt, setFrame, get_modify_ne _ _ h, frameAt]

theorem size_setFrame : size (setFrame heap f frame) = size heap := size_modify _ _ _

theorem map_frameAt_setFrame (h : top < size heap) (hd : (top :: rest).Nodup) :
    (top :: rest).map (frameAt (setFrame heap top frame)) = frame :: rest.map (frameAt heap) := by
  rw [map_cons, frameAt_setFrame_self h]
  congr 1
  apply map_congr_left
  intro f hf
  apply frameAt_setFrame_ne
  rintro rfl
  exact (nodup_cons.1 hd).1 hf

theorem unwind_view (heap : FrameHeap) (sp : UInt64) : (fs : List Nat) →
    (unwind heap sp fs).map (fun r => (r.1.map (frameAt heap), r.2)) =
      CallStack.unwindFrames sp (fs.map (frameAt heap))
  | [] => rfl
  | [root] => by
    rw [unwind, map_cons, map_nil, CallStack.unwindFrames]
    split <;> rfl
  | old :: new :: rest => by
    have ih := unwind_view heap sp (new :: rest)
    rw [unwind, map_cons, map_cons, CallStack.unwindFrames]
    rw [map_cons] at ih
    split
    · rw [← ih]
      cases unwind heap sp (new :: rest) <;> rfl
    · rfl

theorem unwind_suffix (h : unwind heap sp fs = .ok r) : r.1 <:+ fs := by
  fun_induction unwind heap sp fs generalizing r with
  | case1 => cases h
  | case2 root hle => cases h
  | case3 root hlt | case5 old new rest hlt =>
    cases h
    exact suffix_refl _
  | case4 old new rest hle ih =>
    obtain ⟨q, hq, rfl⟩ := map_ok_iff.1 h
    exact (ih hq).trans (suffix_cons _ _)

def Outcome.view (o : Outcome) : CallStack.Outcome :=
  o.map fun r => (TracedStack.view r.1 r.2.1, r.2.2)

section
variable (h : Sound heap s)
include h
theorem Sound.of_suffix (hs : fs <:+ s.frames) : Sound heap { s with frames := fs } where
  bounded f hf := h.bounded f (hs.subset hf)
  nodup := h.nodup.sublist hs.sublist

theorem newFrame_view :
    (newFrame heap s callSite function sp).view = (view heap s).call callSite function sp := by
  obtain ⟨id, frames⟩ := s
  cases frames with
  | nil => rfl
  | cons old rest =>
    rw [newFrame, CallStack.call, view, map_cons]
    simp only
    split
    · have hn : frameAt (heap.alloc ⟨some old, (frameAt heap old).called id callSite function sp⟩)
          heap.size = (frameAt heap old).called id callSite function sp := by
        rw [frameAt, get_alloc_size]
      rw [Outcome.view, Except.map, view, map_cons, hn, map_frameAt_alloc _ h.bounded]
      rfl
    · rfl

theorem resizeTop_view (sp : UInt64) : (resizeTop heap s sp).view = (view heap s).resize sp := by
  obtain ⟨id, frames⟩ := s
  cases frames with
  | nil => rfl
  | cons top rest =>
    rw [resizeTop, CallStack.resize, view, map_cons]
    simp only
    split
    · rfl
    · have hlt := h.bounded top mem_cons_self
      rw [Outcome.view, Except.map, view, map_frameAt_setFrame hlt h.nodup]

theorem updateBasicBlock_view : (updateBasicBlock heap s bbIndex loopId loopDepth isHeader).view =
      (view heap s).enterBasicBlock bbIndex loopId loopDepth isHeader := by
  obtain ⟨id, frames⟩ := s
  cases frames with
  | nil => rfl
  | cons top rest =>
    have hlt := h.bounded top mem_cons_self
    rw [updateBasicBlock, CallStack.enterBasicBlock, view, map_cons, Outcome.view, Except.map,
      view, map_frameAt_setFrame hlt h.nodup]

theorem updateFrame_view : (updateFrame heap s sp).view = (view heap s).moveStackPointer sp := by
  rw [updateFrame, CallStack.moveStackPointer, view, ← unwind_view]
  cases hr : unwind heap sp s.frames with
  | error fault => rfl
  | ok r =>
    have hs := resizeTop_view (h.of_suffix (unwind_suffix hr)) sp
    rw [view] at hs
    rw [Except.map, bind, Except.instMonad]
    simp only [Except.bind]
    rw [← hs]
    cases resizeTop heap { s with frames := r.1 } sp <;> rfl

theorem handle_view (e : StackEvent) : (handle heap s e).view = (view heap s).handle e := by
  cases e with
  | call callSite function sp => exact newFrame_view h
  | stackPointer sp => exact updateFrame_view h
  | basicBlock bbIndex loopId loopDepth isHeader => exact updateBasicBlock_view h

end

theorem newFrame_cases (h : newFrame heap s callSite function sp = .ok r) :
    ∃ old rest, s.frames = old :: rest ∧
      r.1 = heap.alloc ⟨some old, (frameAt heap old).called s.nextId callSite function sp⟩ ∧
      r.2.1.frames = heap.size :: s.frames := by
  rw [newFrame] at h
  cases hf : s.frames with
  | nil =>
    rw [hf] at h
    cases h
  | cons old rest =>
    rw [hf] at h
    simp only at h
    split at h
    · cases h
      exact ⟨old, rest, rfl, rfl, rfl⟩
    · cases h

structure Rewritten (heap heap' : FrameHeap) : Prop where
  size : heap'.size = heap.size
  parent : ∀ f, (heap'.get f).parent = (heap.get f).parent
  top : ∀ f, (frameAt heap' f).top = (frameAt heap f).top

theorem Rewritten.refl (heap : FrameHeap) : Rewritten heap heap := ⟨rfl, fun _ => rfl, fun _ => rfl⟩

theorem setFrame_rewritten (h : frame.top = (frameAt heap f).top) :
    Rewritten heap (setFrame heap f frame) where
  size := size_setFrame
  parent g := by
    apply get_modify_proj
    intro _
    rfl
  top g := by
    rw [frameAt, setFrame, get_modify]
    split
    next hg =>
      rw [← hg.1]
      exact h
    · rfl

theorem resizeTop_cases (h : resizeTop heap s sp = .ok r) :
    Rewritten heap r.1 ∧ r.2.1.frames = s.frames := by
  rw [resizeTop.eq_def] at h
  split at h
  · cases h
  split at h
  · cases h
    exact ⟨.refl heap, rfl⟩
  · cases h
    exact ⟨setFrame_rewritten rfl, rfl⟩

theorem updateFrame_cases (h : updateFrame heap s sp = .ok r) :
    Rewritten heap r.1 ∧ r.2.1.frames <:+ s.frames := by
  obtain ⟨q, hq, h⟩ := bind_ok_iff.1 h
  obtain ⟨q', hq', rfl⟩ := map_ok_iff.1 h
  obtain ⟨hh, hf⟩ := resizeTop_cases hq'
  refine ⟨hh, ?_⟩
  rw [hf]
  exact unwind_suffix hq

theorem updateBasicBlock_cases
    (h : updateBasicBlock heap s bbIndex loopId loopDepth isHeader = .ok r) :
    Rewritten heap r.1 ∧ r.2.1.frames = s.frames := by
  rw [updateBasicBlock.eq_def] at h
  split at h
  · cases h
  · cases h
    exact ⟨setFrame_rewritten rfl, rfl⟩

theorem handle_cases (h : handle heap s e = .ok r) :
    (∃ old rest new, s.frames = old :: rest ∧ r.1 = heap.alloc ⟨some old, new⟩ ∧
      r.2.1.frames = heap.size :: s.frames) ∨ (Rewritten heap r.1 ∧ r.2.1.frames <:+ s.frames) := by
  cases e with
  | call callSite function sp =>
    obtain ⟨old, rest, hs, hh, hf⟩ := newFrame_cases h
    exact .inl ⟨old, rest, _, hs, hh, hf⟩
  | stackPointer sp => exact .inr (updateFrame_cases h)
  | basicBlock bbIndex loopId loopDepth isHeader =>
    obtain ⟨hh, hf⟩ := updateBasicBlock_cases h
    exact .inr ⟨hh, hf ▸ suffix_refl _⟩

theorem Sound.handle (hs : Sound heap s) (h : handle heap s e = .ok r) : Sound r.1 r.2.1 := by
  rcases handle_cases h with ⟨old, rest, new, _, hh, hr⟩ | ⟨hh, hr⟩
  · constructor
    · intro f hf
      rw [hr] at hf
      rw [hh, size_alloc]
      rcases mem_cons.1 hf with rfl | hf
      · exact Nat.lt_succ_self _
      · exact Nat.lt_succ_of_lt (hs.bounded f hf)
    · rw [hr, nodup_cons]
      exact ⟨fun hm => Nat.lt_irrefl _ (hs.bounded _ hm), hs.nodup⟩
  · refine ⟨?_, hs.nodup.sublist hr.sublist⟩
    intro f hf
    rw [hh.size]
    exact hs.bounded f (hr.subset hf)

def Linked (heap : FrameHeap) (fs : List Nat) : Prop :=
  fs.IsChain fun f g => (heap.get f).parent = some g

theorem Linked.alloc (h : Linked heap fs) (hb : ∀ f ∈ fs, f < heap.size) (object : FrameObject) :
    Linked (heap.alloc object) fs := by
  apply List.IsChain.imp_of_mem_imp _ h
  intro f g hf _ hp
  rw [get_alloc_of_lt _ _ (hb f hf)]
  exact hp

theorem Linked.handle (hl : Linked heap s.frames) (hs : Sound heap s)
    (h : TracedStack.handle heap s e = .ok r) : Linked r.1 r.2.1.frames := by
  rcases handle_cases h with ⟨old, rest, new, ho, hh, hf⟩ | ⟨hh, hf⟩
  · have hr := hl.alloc hs.bounded ⟨some old, new⟩
    rw [hf, hh, Linked, ho, isChain_cons_cons, get_alloc_size]
    rw [ho] at hr
    exact ⟨rfl, hr⟩
  · apply List.IsChain.imp_of_mem_imp _ (hl.suffix hf)
    intro f g _ _ hp
    rw [hh.parent]
    exact hp

end TracedStack
end Chef
