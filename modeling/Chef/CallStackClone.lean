import Chef.CallStackRuns

namespace Chef
open Foundations List TracedStack Store
structure CallTracer where
  heap : FrameHeap
  callStacks : Store TracedStack
  deriving DecidableEq

inductive TracerEvent where
  | create (stackTop : UInt64)
  | clone (stack : Nat) (stackTop : UInt64)
  | move (stack : Nat) (e : StackEvent)
  deriving DecidableEq

namespace CallTracer
def add (t : CallTracer) (r : FrameHeap × TracedStack) : CallTracer := ⟨r.1, t.callStacks.alloc r.2⟩

def handle (t : CallTracer) : TracerEvent → Except StackFault CallTracer
  | .create stackTop => .ok (t.add (create t.heap stackTop))
  | .clone i stackTop =>
    if i < t.callStacks.size then .ok (t.add (clone t.heap (t.callStacks.get i) stackTop))
    else .error .noFrame
  | .move i e =>
    (TracedStack.handle t.heap (t.callStacks.get i) e).map fun r =>
      ⟨r.1, t.callStacks.modify i fun _ => r.2.1⟩

def machine : Machine CallTracer TracerEvent where
  init t := t = ⟨.empty, .empty⟩
  step t e t' := t.handle e = .ok t'

end CallTracer

namespace TracedStack
def react (heap : FrameHeap) (s : TracedStack) :
    List StackEvent → List StackSignal × Except StackFault (FrameHeap × TracedStack)
  | [] => ([], .ok (heap, s))
  | e :: events =>
    match handle heap s e with
    | .error fault => ([], .error fault)
    | .ok r => (r.2.2 ++ (react r.1 r.2.1 events).1, (react r.1 r.2.1 events).2)

end TracedStack

namespace CallStack
def react (c : CallStack) : List StackEvent → List StackSignal × Except StackFault CallStack
  | [] => ([], .ok c)
  | e :: events =>
    match c.handle e with
    | .error fault => ([], .error fault)
    | .ok r => (r.2 ++ (r.1.react events).1, (r.1.react events).2)

def above (base : CallStackFrame) (c : CallStack) : CallStack := ⟨c.nextId, c.frames ++ [base]⟩

variable {c : CallStack}
theorem unwindFrames_above (h : fs ≠ []) (hf : unwindFrames sp fs ≠ .error .frameBelowRoot) :
    unwindFrames sp (fs ++ [base]) = (unwindFrames sp fs).map fun r => (r.1 ++ [base], r.2) := by
  fun_induction unwindFrames sp fs with
  | case1 => exact absurd rfl h
  | case2 root hle => exact absurd rfl hf
  | case3 root hlt =>
    rw [cons_append, nil_append, unwindFrames, if_neg hlt]
    rfl
  | case4 old new rest hle ih =>
    rw [cons_append, cons_append, unwindFrames, if_pos hle]
    rw [cons_append] at ih
    rw [ih (cons_ne_nil _ _) fun he => hf (by rw [he]; rfl)]
    cases unwindFrames sp (new :: rest) <;> rfl
  | case5 old new rest hlt =>
    rw [cons_append, cons_append, unwindFrames, if_neg hlt]
    rfl

theorem unwindFrames_ne_nil (h : unwindFrames sp fs = .ok r) : r.1 ≠ [] := by
  fun_induction unwindFrames sp fs generalizing r with
  | case4 old new rest hle ih =>
    obtain ⟨q, hq, rfl⟩ := map_ok_iff.1 h
    have hne := ih hq
    exact hne
  | _ => grind

theorem resize_above (h : c.frames ≠ []) (base : CallStackFrame) (sp : UInt64) :
    (c.above base).resize sp = (c.resize sp).map fun r => (r.1.above base, r.2) := by
  obtain ⟨id, frames⟩ := c
  cases frames with
  | nil => exact absurd rfl h
  | cons top rest =>
    rw [resize, resize, above, cons_append]
    simp only
    split <;> rfl

theorem moveStackPointer_above (h : c.frames ≠ [])
    (hf : c.moveStackPointer sp ≠ .error .frameBelowRoot) :
    (c.above base).moveStackPointer sp =
      (c.moveStackPointer sp).map fun r => (r.1.above base, r.2) := by
  have hu : unwindFrames sp c.frames ≠ .error .frameBelowRoot := by
    intro he
    apply hf
    rw [moveStackPointer, he]
    rfl
  rw [moveStackPointer, moveStackPointer, above, unwindFrames_above h hu]
  cases hr : unwindFrames sp c.frames with
  | error fault => rfl
  | ok r =>
    have hs := resize_above (c := ⟨c.nextId, r.1⟩) (unwindFrames_ne_nil hr) base sp
    rw [above] at hs
    simp only [Except.map, bind, Except.bind]
    rw [hs]
    cases resize ⟨c.nextId, r.1⟩ sp <;> rfl

theorem handle_above (h : c.frames ≠ []) (hf : c.handle e ≠ .error .frameBelowRoot) :
    (c.above base).handle e = (c.handle e).map fun r => (r.1.above base, r.2) := by
  cases e with
  | stackPointer sp => exact moveStackPointer_above h hf
  | call | basicBlock =>
    obtain ⟨id, _ | ⟨top, rest⟩⟩ := c
    · exact absurd rfl h
    · simp only [handle, call, enterBasicBlock, above, cons_append]
      first
      | rfl
      | split <;> rfl

theorem handle_ne_nil (h : c.handle e = .ok r) : r.1.frames ≠ [] := by
  cases e with
  | call | basicBlock => grind [handle, call, enterBasicBlock]
  | stackPointer sp =>
    obtain ⟨q, hq, h⟩ := bind_ok_iff.1 h
    obtain ⟨q', hq', rfl⟩ := map_ok_iff.1 h
    have hne := unwindFrames_ne_nil hq
    grind [resize]

theorem react_above (h : c.frames ≠ []) (events : List StackEvent)
    (hf : (c.react events).2 ≠ .error .frameBelowRoot) :
    (c.above base).react events = ((c.react events).1, (c.react events).2.map (above base)) := by
  induction events generalizing c with
  | nil => rfl
  | cons e events ih =>
    rw [react] at hf
    rw [react, react]
    cases hr : c.handle e with
    | error fault =>
      have hne : c.handle e ≠ .error .frameBelowRoot := by
        intro he
        rw [hr] at hf he
        cases he
        exact hf rfl
      rw [handle_above h hne, hr]
      rfl
    | ok r =>
      rw [hr] at hf
      have hne : c.handle e ≠ .error .frameBelowRoot := by
        rw [hr]
        nofun
      rw [handle_above h hne, hr]
      simp only [Except.map]
      rw [ih (handle_ne_nil hr) hf]
      rfl

end CallStack

namespace TracedStack
variable {heap : FrameHeap}
theorem Sound.mono (h : Sound heap s) (hle : heap.size ≤ size heap') : Sound heap' s :=
  ⟨fun f hf => Nat.lt_of_lt_of_le (h.bounded f hf) hle, h.nodup⟩

theorem handle_size_le (h : handle heap s e = .ok r) : heap.size ≤ r.1.size := by
  rcases handle_cases h with ⟨old, rest, new, _, hh, _⟩ | ⟨hh, _⟩
  · rw [hh, size_alloc]
    exact Nat.le_succ _
  · exact Nat.le_of_eq hh.size.symm

def observe (r : List StackSignal × Except StackFault (FrameHeap × TracedStack)) :
    List StackSignal × Except StackFault CallStack :=
  (r.1, r.2.map fun q => view q.1 q.2)

theorem react_view (h : Sound heap s) (events : List StackEvent) :
    observe (react heap s events) = (view heap s).react events := by
  induction events generalizing heap s with
  | nil => rfl
  | cons e events ih =>
    have hv := handle_view h e
    rw [react, CallStack.react, ← hv]
    cases hr : handle heap s e with
    | error fault => rfl
    | ok r =>
      have hs := ih (h.handle hr)
      rw [Prod.ext_iff] at hs
      exact Prod.ext (congrArg (r.2.2 ++ ·) hs.1) hs.2

structure Cloned (heap : FrameHeap) (done : List Nat) (root : CallStackFrame)
    (r : FrameHeap × TracedStack) : Prop where
  kept : ∀ f, f < heap.size → r.1.get f = heap.get f
  size : heap.size ≤ r.1.size
  sound : Sound r.1 r.2
  linked : Linked r.1 r.2.frames
  contents : r.2.frames.map (frameAt r.1) = done.map (frameAt heap) ++ [root]

theorem Cloned.create (heap : FrameHeap) (stackTop : UInt64) (id : Nat) :
    Cloned heap [] (.root stackTop) (heap.alloc ⟨none, .root stackTop⟩, ⟨id, [heap.size]⟩) where
  kept f hf := get_alloc_of_lt _ _ hf
  size := by
    rw [size_alloc]
    exact Nat.le_succ _
  sound := by
    refine ⟨fun f hf => ?_, nodup_cons.2 ⟨not_mem_nil, nodup_nil⟩⟩
    rw [mem_singleton.1 hf, size_alloc]
    exact Nat.lt_succ_self _
  linked := .singleton _
  contents := by
    rw [map_cons, frameAt, get_alloc_size]
    rfl

theorem Cloned.cloneFrame (h : Cloned heap done root r) (hf : f < heap.size) :
    Cloned heap (f :: done) root (cloneFrame r f) := by
  obtain ⟨heap', s⟩ := r
  have hne : s.frames ≠ [] := by
    intro hn
    have hc := h.contents
    rw [hn] at hc
    cases done <;> cases hc
  obtain ⟨back, rest, hs⟩ := exists_cons_of_ne_nil hne
  have ho := h.kept f hf
  have hl : TracedStack.cloneFrame (heap', s) f =
      (heap'.alloc ⟨some back, frameAt heap f⟩, { s with frames := heap'.size :: s.frames }) := by
    rw [TracedStack.cloneFrame, hs]
    rw [ho]
    rfl
  rw [hl]
  constructor
  · intro g hg
    rw [get_alloc_of_lt _ _ (Nat.lt_of_lt_of_le hg h.size)]
    exact h.kept g hg
  · rw [size_alloc]
    exact Nat.le_succ_of_le h.size
  · constructor
    · intro g hg
      rw [size_alloc]
      rcases mem_cons.1 hg with rfl | hg
      · exact Nat.lt_succ_self _
      · exact Nat.lt_succ_of_lt (h.sound.bounded g hg)
    · exact nodup_cons.2 ⟨fun hg => Nat.lt_irrefl _ (h.sound.bounded _ hg), h.sound.nodup⟩
  · have hr := h.linked.alloc h.sound.bounded ⟨some back, frameAt heap f⟩
    rw [hs] at hr
    rw [Linked, hs, isChain_cons_cons, get_alloc_size]
    exact ⟨rfl, hr⟩
  · have hc := h.contents
    rw [map_cons, map_frameAt_alloc _ h.sound.bounded, frameAt, get_alloc_size, hc]
    rfl

theorem Cloned.foldl (h : Cloned heap done root r) (hfs : ∀ f ∈ fs, f < heap.size) :
    Cloned heap (List.reverse fs ++ done) root (List.foldl TracedStack.cloneFrame r fs) := by
  induction fs generalizing done r with
  | nil => exact h
  | cons f fs ih =>
    rw [forall_mem_cons] at hfs
    rw [reverse_cons, append_assoc]
    exact ih (h.cloneFrame hfs.1) hfs.2

theorem foldl_cloneFrame_nextId (fs : List Nat) (r : FrameHeap × TracedStack) :
    (fs.foldl cloneFrame r).2.nextId = r.2.nextId := by
  induction fs generalizing r with
  | nil => rfl
  | cons f fs ih => exact ih (cloneFrame r f)

variable (h : Sound heap s)
include h
theorem clone_cloned (stackTop : UInt64) :
    Cloned heap s.frames (.root stackTop) (clone heap s stackTop) := by
  have hfs : ∀ f ∈ s.frames.reverse, f < heap.size := fun f hf => h.bounded f (mem_reverse.1 hf)
  have hc := (Cloned.create heap stackTop s.nextId).foldl hfs
  rw [reverse_reverse, append_nil] at hc
  exact hc

theorem clone_view (stackTop : UInt64) : view (clone heap s stackTop).1 (clone heap s stackTop).2 =
      (view heap s).above (.root stackTop) := by
  have hc := (clone_cloned h stackTop).contents
  rw [view, hc, CallStack.above, clone, foldl_cloneFrame_nextId]
  rfl

theorem handle_ne_nil (hr : handle heap s e = .ok r) : r.2.1.frames ≠ [] := by
  have hv := handle_view h e
  rw [hr] at hv
  intro hn
  apply CallStack.handle_ne_nil hv.symm
  exact map_eq_nil_iff.2 hn

theorem clone_ne_nil (stackTop : UInt64) : (clone heap s stackTop).2.frames ≠ [] := by
  have hc := (clone_cloned h stackTop).contents
  intro hn
  rw [hn, map_nil] at hc
  exact append_ne_nil_of_right_ne_nil _ (cons_ne_nil _ _) hc.symm

end TracedStack

namespace CallTracer
def Sound (t : CallTracer) : Prop := ∀ i, i < t.callStacks.size →
    TracedStack.Sound t.heap (t.callStacks.get i) ∧ (t.callStacks.get i).frames ≠ []

variable {t t' : CallTracer}
theorem Sound.add (h : t.Sound) (hz : t.heap.size ≤ r.1.size)
    (hs : TracedStack.Sound r.1 r.2) (hne : r.2.frames ≠ []) : (t.add r).Sound := by
  intro i hi
  rw [CallTracer.add, get_alloc]
  by_cases heq : i = t.callStacks.size
  · rw [if_pos heq]
    exact ⟨hs, hne⟩
  rw [if_neg heq]
  rw [CallTracer.add, size_alloc] at hi
  obtain ⟨hd, hn⟩ := h i (by omega)
  exact ⟨hd.mono hz, hn⟩

theorem Sound.handle (h : t.Sound) (hs : t.handle e = .ok t') : t'.Sound := by
  cases e with
  | create stackTop =>
    cases hs
    have hn := TracedStack.Cloned.create t.heap stackTop 2
    exact h.add hn.size hn.sound (cons_ne_nil _ _)
  | clone i stackTop =>
    rw [CallTracer.handle] at hs
    split at hs
    next hi =>
      cases hs
      have hn := clone_cloned (h i hi).1 stackTop
      exact h.add hn.size hn.sound (clone_ne_nil (h i hi).1 stackTop)
    · cases hs
  | move i e =>
    obtain ⟨r, hr, rfl⟩ := map_ok_iff.1 hs
    have hz := handle_size_le hr
    intro j hj
    rw [size_modify] at hj
    rw [get_modify]
    split
    next hij =>
      obtain ⟨rfl, _⟩ := hij
      exact ⟨(h i hj).1.handle hr, handle_ne_nil (h i hj).1 hr⟩
    · exact ⟨(h j hj).1.mono hz, (h j hj).2⟩

theorem Sound.reached (h : machine.Reached t) : t.Sound := by
  apply h.invariant
  · rintro _ rfl i hi
    exact absurd hi (Nat.not_lt_zero i)
  · intro t e t' ht _ hs
    exact ht.handle hs

/-- A clone has one more root frame, and reacts like the original. -/
theorem clone_reacts (h : machine.Reached t) (hi : i < t.callStacks.size) (stackTop : UInt64) :
    let s := t.callStacks.get i
    let r := clone t.heap s stackTop
    r.2.frames.length = s.frames.length + 1 ∧
      r.2.frames.map (frameAt r.1) = s.frames.map (frameAt t.heap) ++ [.root stackTop] ∧
      r.2.nextId = s.nextId ∧ TracedStack.Linked r.1 r.2.frames ∧
      ∀ events, (react t.heap s events).2 ≠ .error .frameBelowRoot →
        observe (react r.1 r.2 events) = ((react t.heap s events).1,
            (react t.heap s events).2.map fun q =>
              (view q.1 q.2).above (.root stackTop)) := by
  intro s r
  obtain ⟨hs, hne⟩ := Sound.reached h i hi
  have hc := clone_cloned hs stackTop
  have hv := clone_view hs stackTop
  refine ⟨?_, hc.contents, congrArg CallStack.nextId hv, hc.linked, ?_⟩
  · have hl := congrArg List.length hc.contents
    rw [length_map, length_append, length_map] at hl
    exact hl
  intro events hf
  have ho := react_view hs events
  have hne' : (view t.heap s).frames ≠ [] := fun hn => hne (map_eq_nil_iff.1 hn)
  have hf' : ((view t.heap s).react events).2 ≠ .error .frameBelowRoot := by
    rw [← ho, observe]
    intro he
    cases hr : (react t.heap s events).2 with
    | ok q =>
      rw [hr] at he
      cases he
    | error fault =>
      rw [hr] at he hf
      cases he
      exact hf rfl
  rw [react_view hc.sound, hv, CallStack.react_above hne' events hf', ← ho, observe]
  apply Prod.ext
  · rfl
  · simp only
    cases (react t.heap s events).2 <;> rfl

def withCall : List TracerEvent := [.create 0x1000, .move 0 (.call 0x400000 0x400100 0xff8)]

/-- The same frames and next id, each frame's parent the one before, and the same reactions. -/
def ClonesExactly (heap : FrameHeap) (s : TracedStack) (stackTop : UInt64) : Prop :=
  let r := clone heap s stackTop
  r.2.frames.length = s.frames.length ∧ r.2.frames.map (frameAt r.1) = s.frames.map (frameAt heap) ∧
    r.2.nextId = s.nextId ∧ TracedStack.Linked r.1 r.2.frames ∧
    ∀ events, observe (react r.1 r.2 events) = observe (react heap s events)

/-- No reachable call stack is cloned exactly. -/
theorem not_clonesExactly (h : machine.Reached t) (hi : i < t.callStacks.size)
    (stackTop : UInt64) : ¬ClonesExactly t.heap (t.callStacks.get i) stackTop := by
  rintro ⟨hl, -⟩
  have hc := (clone_reacts h hi stackTop).1
  omega

theorem not_clonesExactly_withCall : ∃ t, machine.Reached t ∧
    (t.callStacks.get 0).frames.length = 2 ∧ ¬ClonesExactly t.heap (t.callStacks.get 0) 0x1000 := by
  have hr : ((runWhile (fun _ _ => True) CallTracer.handle withCall ⟨.empty, .empty⟩).map
      fun t => ((t.callStacks.get 0).frames.length, t.callStacks.size)) = some (2, 1) := by decide
  obtain ⟨t, ht, hl⟩ := Option.map_eq_some_iff.1 hr
  obtain ⟨hf, hs⟩ := Prod.mk.inj hl
  have hre : machine.Reached t := Machine.Reachable.runWhile (fun _ _ _ h => h) (.init rfl) ht
  have hi : 0 < t.callStacks.size := by
    rw [hs]
    exact Nat.one_pos
  exact ⟨t, hre, hf, not_clonesExactly hre hi 0x1000⟩

theorem clone_doubles_root : ∃ t, machine.Reached t ∧ (t.callStacks.get 0).frames.length = 1 ∧
      ((clone t.heap (t.callStacks.get 0) 0x1000).2.frames.map fun f =>
        (frameAt (clone t.heap (t.callStacks.get 0) 0x1000).1 f).id) = [1, 1] := by
  have hs : machine.step ⟨.empty, .empty⟩ (.create 0x1000)
      (add ⟨.empty, .empty⟩ (create .empty 0x1000)) := rfl
  exact ⟨_, .step (.init rfl) trivial hs, by decide, by decide⟩

end CallTracer
end Chef
