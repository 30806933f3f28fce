import Mathlib.Data.List.Nodup
import Chef.CallStackRuns

namespace Chef
open Foundations List Nat
structure CallStack.Stacked (rootTop : UInt64) (c : CallStack) : Prop where
  root : ∃ f, c.frames.getLast? = some f ∧ f.top = rootTop
  growing : c.frames.Pairwise fun f g => g.id < f.id
  fresh : ∀ f ∈ c.frames, f.id < c.nextId
  contiguous : c.frames.IsChain fun f g => f.top = g.bottom
  ordered : ∀ f ∈ c.frames, f.bottom ≤ f.top

namespace CallStack
variable {c : CallStack}
theorem Stacked.cons_frames (h : c.Stacked rootTop) : ∃ top rest, c.frames = top :: rest := by
  obtain ⟨f, hf, _⟩ := h.root
  cases hc : c.frames with
  | nil =>
    rw [hc] at hf
    cases hf
  | cons top rest => exact ⟨top, rest, rfl⟩

theorem Stacked.call (h : c.Stacked rootTop) (hid : c.nextId + 1 < 2 ^ 64)
    (hr : c.call callSite function sp = .ok r) : r.1.Stacked rootTop := by
  obtain ⟨old, rest, hc⟩ := h.cons_frames
  rw [CallStack.call, hc] at hr
  simp only at hr
  split at hr
  next hlt =>
    cases hr
    have hs : succId c.nextId = c.nextId + 1 := mod_eq_of_lt hid
    obtain ⟨f, hf, ht⟩ := h.root
    have hn := h.fresh
    have hgrow := h.growing
    have hch := h.contiguous
    have ho := h.ordered
    rw [hc] at hf hn hgrow hch ho
    refine ⟨⟨f, hf, ht⟩, pairwise_cons.2 ⟨hn, hgrow⟩, ?_, isChain_cons_cons.2 ⟨rfl, hch⟩, ?_⟩
    · intro g hg
      rw [hs]
      rcases mem_cons.1 hg with rfl | hg
      · exact lt_succ_self _
      · exact lt_succ_of_lt (hn g hg)
    · intro g hg
      rcases mem_cons.1 hg with rfl | hg
      · exact UInt64.le_of_lt hlt
      · exact ho g hg
  · cases hr

theorem unwindFrames_ok (hne : fs.getLast? = some f) (hlt : sp < f.top) :
    ∃ top rest signals, unwindFrames sp fs = .ok (top :: rest, signals) ∧ (top :: rest) <:+ fs ∧
      sp < top.top := by
  fun_induction unwindFrames sp fs with
  | case1 => cases hne
  | case2 root hle =>
    cases hne
    exact absurd hlt (UInt64.not_lt.2 hle)
  | case3 root hgt => exact ⟨root, [], [], rfl, suffix_refl _, UInt64.not_le.1 hgt⟩
  | case4 old new rest hle ih =>
    obtain ⟨top, rest', signals, hr, hs, ht⟩ := ih hne
    rw [hr]
    exact ⟨top, rest', _, rfl, hs.trans (suffix_cons _ _), ht⟩
  | case5 old new rest hgt => exact ⟨old, new :: rest, [], rfl, suffix_refl _, UInt64.not_le.1 hgt⟩

theorem getLast?_suffix (h : (a :: l) <:+ l') : (a :: l).getLast? = l'.getLast? := by
  obtain ⟨pre, rfl⟩ := h
  rw [getLast?_append_of_ne_nil _ (cons_ne_nil _ _)]

variable (h : c.Stacked rootTop)
include h
theorem Stacked.of_suffix (hs : (top :: rest) <:+ c.frames) :
    Stacked rootTop { c with frames := top :: rest } := by
  obtain ⟨f, hf, ht⟩ := h.root
  exact ⟨⟨f, (getLast?_suffix hs).trans hf, ht⟩, h.growing.sublist hs.sublist,
    fun g hg => h.fresh g (hs.subset hg), h.contiguous.suffix hs,
    fun g hg => h.ordered g (hs.subset hg)⟩

theorem Stacked.replace_top (hc : c.frames = top :: rest)
    (new : CallStackFrame) (hid : new.id = top.id) (ht : new.top = top.top)
    (ho : new.bottom ≤ new.top) : Stacked rootTop { c with frames := new :: rest } := by
  obtain ⟨f, hf, hr⟩ := h.root
  have hn := h.fresh
  have hgrow := h.growing
  have hch := h.contiguous
  have hd := h.ordered
  rw [hc] at hf hn hgrow hch hd
  rw [pairwise_cons] at hgrow
  refine ⟨?_, pairwise_cons.2 ⟨fun g hg => hid ▸ hgrow.1 g hg, hgrow.2⟩, ?_, ?_, ?_⟩
  · cases rest with
    | nil =>
      cases hf
      exact ⟨new, rfl, ht.trans hr⟩
    | cons below rest =>
      exact ⟨f, (getLast?_cons_cons ..).trans hf, hr⟩
  · intro g hg
    rcases mem_cons.1 hg with rfl | hg
    · rw [hid]
      exact hn top mem_cons_self
    · exact hn g (mem_cons_of_mem _ hg)
  · cases rest with
    | nil => exact .singleton new
    | cons below rest =>
      rw [isChain_cons_cons] at hch
      exact isChain_cons_cons.2 ⟨ht.trans hch.1, hch.2⟩
  · intro g hg
    rcases mem_cons.1 hg with rfl | hg
    · exact ho
    · exact hd g (mem_cons_of_mem _ hg)

theorem Stacked.moveStackPointer (hsp : sp < rootTop) :
    ∃ r, c.moveStackPointer sp = .ok r ∧ r.1.Stacked rootTop := by
  obtain ⟨f, hf, ht⟩ := h.root
  obtain ⟨top, rest, signals, hr, hs, hlt⟩ := unwindFrames_ok hf (ht ▸ hsp)
  have hstk := h.of_suffix hs
  rw [CallStack.moveStackPointer, hr]
  by_cases hb : top.bottom = sp
  · refine ⟨({ c with frames := top :: rest }, signals ++ []), ?_, hstk⟩
    simp only [bind, Except.bind, resize]
    rw [if_pos hb]
    rfl
  · refine ⟨({ c with frames := top.resized sp :: rest }, signals ++ [.resize (top.resized sp)]),
      ?_, hstk.replace_top rfl _ rfl rfl (UInt64.le_of_lt hlt)⟩
    simp only [bind, Except.bind, resize]
    rw [if_neg hb]
    rfl

theorem Stacked.enterBasicBlock (hr : c.enterBasicBlock bbIndex loopId loopDepth isHeader = .ok r) :
    r.1.Stacked rootTop := by
  obtain ⟨top, rest, hc⟩ := h.cons_frames
  rw [CallStack.enterBasicBlock, hc] at hr
  cases hr
  apply h.replace_top hc (top.entered bbIndex loopId loopDepth isHeader) rfl rfl
  exact h.ordered top (hc ▸ mem_cons_self)

end CallStack

namespace TracedStack
def step (st : FrameHeap × TracedStack) (e : StackEvent) :
    Except StackFault (FrameHeap × TracedStack) :=
  (handle st.1 st.2 e).map fun r => (r.1, r.2.1)

def machine (stackTop : UInt64) : Machine (FrameHeap × TracedStack) StackEvent where
  init st := ∃ heap, st = create heap stackTop
  step st e st' := step st e = .ok st'

/-- The stack pointer stays below the root frame's top, and ids are left. -/
def InBounds (stackTop : UInt64) (st : FrameHeap × TracedStack) : StackEvent → Prop
  | .call _ _ _ => st.2.nextId + 1 < 2 ^ 64
  | .stackPointer sp => sp < stackTop + 8
  | .basicBlock _ _ _ _ => True

instance : Decidable (InBounds stackTop st e) :=
  match e with
  | .call _ _ _ => inferInstanceAs (Decidable (_ < _))
  | .stackPointer _ => inferInstanceAs (Decidable (_ < _))
  | .basicBlock _ _ _ _ => inferInstanceAs (Decidable True)

structure Traced (heap : FrameHeap) (s : TracedStack) : Prop where
  root : s.frames ≠ []
  growing : s.frames.Pairwise fun f g => (frameAt heap g).id < (frameAt heap f).id
  called : s.frames.IsChain fun f g =>
    (heap.get f).parent = some g ∧ (frameAt heap f).top = (frameAt heap g).bottom
  ordered : ∀ f ∈ s.frames, (frameAt heap f).bottom ≤ (frameAt heap f).top

structure Runs (stackTop : UInt64) (st : FrameHeap × TracedStack) : Prop where
  sound : Sound st.1 st.2
  linked : Linked st.1 st.2.frames
  stacked : (view st.1 st.2).Stacked (stackTop + 8)

section
variable {stackTop : UInt64}
theorem Runs.create (heap : FrameHeap) (hr : stackTop.toNat + 8 < 2 ^ 64) :
    Runs stackTop (create heap stackTop) := by
  have hfr : frameAt (heap.alloc ⟨none, .root stackTop⟩) heap.size = .root stackTop := by
    rw [frameAt, Store.get_alloc_size]
  have hv : view (TracedStack.create heap stackTop).1 (TracedStack.create heap stackTop).2 =
      ⟨2, [.root stackTop]⟩ := by
    rw [TracedStack.create, view, map_cons, hfr]
    rfl
  have hs : (stackTop + 8).toNat = stackTop.toNat + 8 := by
    exact mod_eq_of_lt hr
  refine ⟨⟨?_, nodup_singleton _⟩, .singleton _, ?_⟩
  · intro f hf
    rw [mem_singleton.1 hf]
    exact Store.size_alloc heap _ ▸ lt_succ_self _
  rw [hv]
  refine ⟨⟨_, rfl, rfl⟩, pairwise_singleton _ _, ?_, .singleton _, ?_⟩
  · intro f hf
    rw [mem_singleton.1 hf]
    exact lt_succ_self 1
  · intro f hf
    rw [mem_singleton.1 hf]
    exact UInt64.le_iff_toNat_le.2 (hs ▸ Nat.le_add_right _ _)

section
variable (h : Runs stackTop st) (he : InBounds stackTop st e)
include h he
theorem Runs.handle_view : (view st.1 st.2).handle e = .error .invalidFrameStart ∨
      ∃ r, (view st.1 st.2).handle e = .ok r ∧ r.1.Stacked (stackTop + 8) := by
  cases e with
  | call callSite function sp =>
    cases hr : (view st.1 st.2).call callSite function sp with
    | ok r => exact .inr ⟨r, hr, h.stacked.call he hr⟩
    | error fault =>
      obtain ⟨old, rest, hc⟩ := h.stacked.cons_frames
      rw [CallStack.call, hc] at hr
      simp only at hr
      split at hr
      · cases hr
      cases hr
      left
      rw [CallStack.handle, CallStack.call, hc]
      simp only
      rw [if_neg (by assumption)]
  | stackPointer sp => exact .inr (h.stacked.moveStackPointer he)
  | basicBlock bbIndex loopId loopDepth isHeader =>
    obtain ⟨top, rest, hc⟩ := h.stacked.cons_frames
    have hr : (view st.1 st.2).enterBasicBlock bbIndex loopId loopDepth isHeader =
        .ok ({ view st.1 st.2 with
          frames := top.entered bbIndex loopId loopDepth isHeader :: rest },
          [.basicBlockEnter (top.entered bbIndex loopId loopDepth isHeader)]) := by
      rw [CallStack.enterBasicBlock, hc]
    exact .inr ⟨_, hr, h.stacked.enterBasicBlock hr⟩

theorem Runs.handle_fault (hf : handle st.1 st.2 e = .error fault) : fault =
    .invalidFrameStart := by
  have hv := TracedStack.handle_view h.sound e
  rw [hf] at hv
  rcases h.handle_view he with hr | ⟨r, hr, _⟩
  · rw [hr] at hv
    cases hv
    rfl
  · rw [hr] at hv
    cases hv

theorem Runs.step (hstep : (machine stackTop).step st e st') : Runs stackTop st' := by
  obtain ⟨r, hs, rfl⟩ := map_ok_iff.1 hstep
  refine ⟨h.sound.handle hs, h.linked.handle h.sound hs, ?_⟩
  have hv := TracedStack.handle_view h.sound e
  rw [hs] at hv
  rcases h.handle_view he with hr | ⟨q, hr, ht⟩
  · rw [hr] at hv
    cases hv
  · rw [hr] at hv
    cases hv
    exact ht

end

theorem isChain_and {l : List α} (h : l.IsChain R) (h' : l.IsChain S) :
    l.IsChain fun a b => R a b ∧ S a b := by
  induction h with
  | nil => exact .nil
  | singleton a => exact .singleton a
  | cons_cons hr _ ih =>
    rw [isChain_cons_cons] at h'
    exact .cons_cons ⟨hr, h'.1⟩ (ih h'.2)

theorem Runs.traced (h : Runs stackTop st) : Traced st.1 st.2 := by
  obtain ⟨top, rest, hc⟩ := h.stacked.cons_frames
  have hg := h.stacked.growing
  have hch := h.stacked.contiguous
  rw [view] at hg hch hc
  refine ⟨?_, pairwise_map.1 hg, isChain_and h.linked ((isChain_map _).1 hch), ?_⟩
  · intro hn
    rw [hn] at hc
    cases hc
  · intro f hf
    exact h.stacked.ordered _ (mem_map_of_mem hf)

/-- Below the top of the root frame the stack is well traced. -/
theorem callStack_traced (hroot : stackTop.toNat + 8 < 2 ^ 64)
    (h : (machine stackTop).Reachable (InBounds stackTop) st) :
    Traced st.1 st.2 ∧ ∀ e, InBounds stackTop st e →
        handle st.1 st.2 e ≠ .error .frameBelowRoot ∧ handle st.1 st.2 e ≠ .error .noFrame ∧
        ∀ r, handle st.1 st.2 e = .ok r → ∀ f ∈ st.2.frames,
          (frameAt r.1 f).top = (frameAt st.1 f).top := by
  have hn : Runs stackTop st := by
    apply h.invariant
    · rintro _ ⟨heap, rfl⟩
      exact .create heap hroot
    · intro st e st' hst he hs
      exact hst.step he hs
  refine ⟨hn.traced, fun e he => ?_⟩
  refine ⟨?_, ?_, ?_⟩
  · intro hl
    cases hn.handle_fault he hl
  · intro hl
    cases hn.handle_fault he hl
  intro r hr f hf
  rcases handle_cases hr with ⟨old, rest, new, _, hh, _⟩ | ⟨hh, _⟩
  · rw [hh, frameAt_alloc _ _ (hn.sound.bounded f hf)]
  · exact hh.top f

end

def callAndReturn : List StackEvent :=
  [.call 0x400000 0x400100 0xff8, .stackPointer 0xff0, .stackPointer 0x1000]

theorem callAndReturn_traced :
    ∃ st, (machine 0x1000).Reachable (InBounds 0x1000) st ∧ Traced st.1 st.2 := by
  have hr : (runWhile (InBounds 0x1000) step callAndReturn (create .empty 0x1000)).isSome := by
    decide
  obtain ⟨st, hst⟩ := Option.isSome_iff_exists.1 hr
  have hre : (machine 0x1000).Reachable (InBounds 0x1000) st :=
    Machine.Reachable.runWhile (fun _ _ _ h => h) (.init ⟨.empty, rfl⟩) hst
  exact ⟨st, hre, (callStack_traced (by decide) hre).1⟩

/-- Above the root frame unwinding refers to a frame below the root. -/
theorem stackPointer_above_root : (machine 0x1000).Reached (create .empty 0x1000) ∧
    handle (create .empty 0x1000).1 (create .empty 0x1000).2 (.stackPointer 0x1008) =
    .error .frameBelowRoot :=
  ⟨.init ⟨.empty, rfl⟩, by decide⟩

end TracedStack
end Chef
