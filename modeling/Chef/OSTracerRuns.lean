import Chef.OSTracer

namespace Chef
open Foundations List Option Store Function
inductive ThreadName where
  | registered (tid : Int)
  | ended (t : OSThread)
  deriving DecidableEq

@[ext]
structure OSThreads where
  threads : Int → Option OSThread
  spaces : Nat → Option Int
  active : Option ThreadName

namespace OSThreads
section
variable (v : OSThreads)
def get : ThreadName → OSThread
  | .registered tid => (v.threads tid).getD default
  | .ended t => t

def getThread (tid : Int) : Option OSThread :=
  match v.active with
  | some a => if (v.get a).tid = tid then some (v.get a) else v.threads tid
  | none => v.threads tid

def modify (f : OSThread → OSThread) : ThreadName → OSThreads
  | .registered tid => { v with threads := update v.threads tid ((v.threads tid).map f) }
  | .ended t => { v with active := some (.ended (f t)) }

def remove (tid : Int) (t : OSThread) : OSThreads where
  threads := update v.threads tid none
  spaces p := if p = t.pageTable then none else v.spaces p
  active := v.active.map fun a => if a = .registered tid then .ended t else a

def add (t : OSThread) : OSThreads := { v with
    threads := update v.threads t.tid (some t)
    spaces := update v.spaces t.pageTable (some ((v.spaces t.pageTable).getD t.tid)) }

def switch (next : Option ThreadName) : List OSSignal × OSThreads :=
  if v.active ≠ next then
    let stopped := match v.active with
      | some a => v.modify (.setRunning false) a
      | none => v
    let resumed := match next with
      | some a => stopped.modify (.setRunning true) a
      | none => stopped
    ([.threadSwitch (resumed.active.map resumed.get) (next.map resumed.get)],
      { resumed with active := next })
  else ([], v)

def handle : OSEvent → List OSSignal × OSThreads
  | .threadStart pid name stackTop addressSpace =>
    let t := ⟨pid, name, stackTop, addressSpace, [], true, false, false⟩
    match v.threads pid with
    | some old => ([.threadExit old, .threadCreate t], (v.remove pid old).add t)
    | none => ([.threadCreate t], v.add t)
  | .threadExit tid =>
    match v.threads tid with
    | some t => ([.threadExit t.terminate], v.remove tid t.terminate)
    | none => ([], v)
  | .vmAlloc pid area => ([], v.modify (OSThread.addArea area) (.registered pid))
  | .privilegeChange current =>
    match v.active with
    | some a =>
      if (v.get a).kernelMode ≠ (current == 0) then
        ([.threadPrivilegeChange ((v.get a).setKernelMode (current == 0)) (current == 0)],
          v.modify (OSThread.setKernelMode (current == 0)) a)
      else ([], v)
    | none => ([], v)
  | .pageDirectoryChange next => v.switch ((v.spaces next).map .registered)

end

def react (v : OSThreads) : List OSEvent → List OSSignal × OSThreads
  | [] => ([], v)
  | e :: events =>
    ((v.handle e).1 ++ ((v.handle e).2.react events).1, ((v.handle e).2.react events).2)

end OSThreads

namespace OSTracerState
/-- At most the active thread runs, and page tables stand for its map. -/
structure Consistent (s : OSTracerState) : Prop where
  sorted : SortedKeys s.threads
  thread : ∀ {tid r}, s.threads.lookup tid = some r →
    r < s.objects.size ∧ (s.objects.get r).tid = tid
  space : ∀ {p r}, s.addressSpaces.lookup p = some r →
    (s.objects.get r).pageTable = p ∧ s.threads.lookup (s.objects.get r).tid = some r
  running : ∀ {r}, (s.objects.get r).running = true → s.activeThread = some r
  active : ∀ {r}, s.activeThread = some r → r < s.objects.size ∧ (s.objects.get r).running = true

def name (s : OSTracerState) (r : Nat) : ThreadName :=
  if s.threads.lookup (s.objects.get r).tid = some r then .registered (s.objects.get r).tid
  else .ended (s.objects.get r)

def view (s : OSTracerState) : OSThreads where
  threads tid := (s.threads.lookup tid).map s.objects.get
  spaces p := (s.addressSpaces.lookup p).map fun r => (s.objects.get r).tid
  active := s.activeThread.map s.name

section
variable {s : OSTracerState}
theorem active_view (s : OSTracerState) : s.view.active = s.activeThread.map s.name := rfl

theorem get_name (s : OSTracerState) (r : Nat) : s.view.get (s.name r) = s.objects.get r := by
  rw [name]
  split
  next h => simp [OSThreads.get, view, h]
  · rfl

theorem getThread_view (s : OSTracerState) (tid : Int) : s.getThread tid =
    s.view.getThread tid := by
  rw [getThread, OSThreads.getThread]
  cases h : s.activeThread with
  | none => simp [view, h]
  | some r =>
    have ha : s.view.active = some (s.name r) := by simp [view, h]
    simp only [ha, get_name]
    rfl

theorem getActiveThread_view (s : OSTracerState) :
    s.getActiveThread = s.view.active.map s.view.get := by
  rw [getActiveThread]
  cases h : s.activeThread with
  | none => simp [view, h]
  | some r =>
    have ha : s.view.active = some (s.name r) := by simp [view, h]
    rw [ha, map_some, map_some, get_name]

theorem name_of_lookup (hs : Consistent s) (h : s.threads.lookup tid = some r) :
    s.name r = .registered tid := by
  have ht := (hs.thread h).2
  rw [name, ht, if_pos h]

theorem view_modify (hth : ∀ {tid r}, s.threads.lookup tid = some r → r < s.objects.size ∧
    (s.objects.get r).tid = tid) (hr : r < s.objects.size) (f : OSThread → OSThread) (ht : ∀ t,
    (f t).tid = t.tid) (hkn : s.threads.lookup (s.objects.get r).tid = some r ∨ s.activeThread =
    some r) : (s.modify r f).view = s.view.modify f (s.name r) := by
  have hg : ∀ j, ((s.objects.modify r f).get j).tid = (s.objects.get j).tid :=
    get_modify_proj _ _ _ ht r
  rw [name]
  split
  next hrg =>
    ext1
    · funext tid
      simp only [view, modify, OSThreads.modify, update_apply]
      cases hl : s.threads.lookup tid with
      | none => grind
      | some j => grind [get_modify]
    · simp [view, modify, OSThreads.modify, hg]
    · simp only [view, modify, OSThreads.modify]
      cases ha : s.activeThread with
      | none => rfl
      | some j => grind [name, get_modify]
  next hrg =>
    have ha := hkn.resolve_left hrg
    ext1
    · funext tid
      simp only [view, modify, OSThreads.modify]
      cases hl : s.threads.lookup tid with
      | none => rfl
      | some j => grind [get_modify]
    · simp [view, modify, OSThreads.modify, hg]
    · simp only [view, modify, OSThreads.modify, ha]
      grind [name, get_modify]

theorem view_remove (hl : s.threads.lookup tid = some r) :
    (s.remove tid r).view = s.view.remove tid (s.objects.get r) := by
  ext1
  · funext tid'
    simp only [view, remove, OSThreads.remove, update_apply, lookup_filter_ne]
    grind
  · funext p
    simp only [view, remove, OSThreads.remove, lookup_filter_ne]
    grind
  simp only [view, remove, OSThreads.remove, Option.map_map]
  congr 1
  funext j
  simp only [name, lookup_filter_ne, comp]
  grind

section
variable (hs : Consistent s)
include hs
theorem view_add (hl : s.threads.lookup t.tid = none) : (s.add t).view = s.view.add t := by
  have hth := @hs.thread
  ext1
  · funext tid
    simp only [view, add, OSThreads.add, update_apply, lookup_setKey]
    cases hl : s.threads.lookup tid with
    | none => grind [get_alloc_size]
    | some j => grind [get_alloc]
  · funext p
    have hsc := @hs.space p
    simp only [view, add, OSThreads.add, update_apply, lookup_append]
    cases hp : s.addressSpaces.lookup p with
    | none => grind [get_alloc_size]
    | some j => grind [get_alloc]
  · simp only [view, add, OSThreads.add]
    cases ha : s.activeThread with
    | none => rfl
    | some j =>
      have hj := (hs.active ha).1
      simp only [map_some, name, lookup_setKey, get_alloc_of_lt _ _ hj]
      grind

theorem Consistent.modify (f : OSThread → OSThread)
    (hf : ∀ t, (f t).tid = t.tid ∧ (f t).pageTable = t.pageTable ∧ (f t).running = t.running)
    (r : Nat) : Consistent (s.modify r f) := by
  have ht := get_modify_proj s.objects f OSThread.tid (fun t => (hf t).1) r
  have hb := get_modify_proj s.objects f OSThread.pageTable (fun t => (hf t).2.1) r
  have hr := get_modify_proj s.objects f OSThread.running (fun t => (hf t).2.2) r
  constructor
  · exact hs.sorted
  all_goals simp only [OSTracerState.modify, size_modify, ht, hb, hr]
  · exact hs.thread
  · exact hs.space
  · exact hs.running
  · exact hs.active

theorem Consistent.remove (hl : s.threads.lookup tid = some r) : Consistent (s.remove tid r) := by
  refine ⟨hs.sorted.filter _, ?_, ?_, hs.running, hs.active⟩
  · intro tid' j h
    rw [OSTracerState.remove, lookup_filter_ne] at h
    exact hs.thread (by grind)
  · intro p j h
    simp only [OSTracerState.remove, lookup_filter_ne] at h ⊢
    have hp := @hs.space p j
    grind

theorem Consistent.add (hl : s.threads.lookup t.tid = none)
    (ht : t.running = false) : Consistent (s.add t) := by
  have hth := @hs.thread
  constructor
  · exact hs.sorted.setKey _ _
  · intro tid j h
    simp only [OSTracerState.add, lookup_setKey, size_alloc] at h ⊢
    grind [get_alloc]
  · intro p j h
    have hsc := @hs.space p j
    simp only [OSTracerState.add, lookup_setKey, lookup_append] at h ⊢
    cases hp : s.addressSpaces.lookup p with
    | none | some j' => grind [get_alloc]
  · intro j h
    have hr := @hs.running j
    simp only [OSTracerState.add] at h ⊢
    grind [get_alloc]
  · intro j h
    obtain ⟨hj, hr⟩ := hs.active h
    simp only [OSTracerState.add, size_alloc, get_alloc_of_lt _ _ hj]
    exact ⟨by omega, hr⟩

theorem Consistent.nextThread (next : Nat) :
    s.nextThread next = .ok (s.addressSpaces.lookup next) := by
  rw [OSTracerState.nextThread]
  cases hl : s.addressSpaces.lookup next with
  | none => rfl
  | some r =>
    have hm := mem_of_lookup (hs.space hl).2
    have ha : s.isAlive r = true := by
      rw [isAlive, any_eq_true.2 ⟨_, hm, decide_eq_true rfl⟩]
      rfl
    exact if_pos ha

theorem spaces_view (next : Nat) :
    (s.view.spaces next).map .registered = (s.addressSpaces.lookup next).map s.name := by
  simp only [view, Option.map_map]
  cases hl : s.addressSpaces.lookup next with
  | none => rfl
  | some r => rw [map_some, map_some, name_of_lookup hs (hs.space hl).2]; rfl

end

structure SameTables (s s' : OSTracerState) : Prop where
  threads : s'.threads = s.threads
  addressSpaces : s'.addressSpaces = s.addressSpaces
  size : s'.objects.size = s.objects.size
  tid : ∀ r, (s'.objects.get r).tid = (s.objects.get r).tid
  pageTable : ∀ r, (s'.objects.get r).pageTable = (s.objects.get r).pageTable

theorem sameTables_modify (s : OSTracerState) (r : Nat) (ht : ∀ t,
    (f t).tid = t.tid) (hb : ∀ t, (f t).pageTable = t.pageTable) : SameTables s (s.modify r f) :=
  ⟨rfl, rfl, size_modify _ _ _, get_modify_proj _ _ _ ht r, get_modify_proj _ _ _ hb r⟩

theorem SameTables.trans {s' s'' : OSTracerState} (h : SameTables s s') (h' : SameTables s' s'') :
    SameTables s s'' :=
  ⟨h'.threads.trans h.threads, h'.addressSpaces.trans h.addressSpaces, h'.size.trans h.size,
    fun r => (h'.tid r).trans (h.tid r), fun r => (h'.pageTable r).trans (h.pageTable r)⟩

theorem SameTables.consistent (h : SameTables s s') (hs :
    Consistent s) (hr : ∀ {r}, (s'.objects.get r).running = true → s'.activeThread =
    some r) (ha : ∀ {r}, s'.activeThread = some r → r < s'.objects.size ∧
    (s'.objects.get r).running = true) : Consistent s' where
  sorted := h.threads ▸ hs.sorted
  thread := by
    simp only [h.threads, h.size, h.tid]
    exact hs.thread
  space := by
    simp only [h.threads, h.addressSpaces, h.pageTable, h.tid]
    exact hs.space
  running := hr
  active := ha

theorem stop_spec (hs : Consistent s) : ∃ s', s.stop = .ok s' ∧ SameTables s s' ∧
    s'.activeThread = s.activeThread ∧ (∀ r, (s'.objects.get r).running = false) ∧
    s'.view = match s.view.active with
      | some a => s.view.modify (.setRunning false) a
      | none => s.view := by
  have hrunning := @hs.running
  rw [stop, active_view]
  cases ha : s.activeThread with
  | none =>
    refine ⟨s, rfl, ⟨rfl, rfl, rfl, fun _ => rfl, fun _ => rfl⟩, ha, ?_, ?_⟩
    · grind
    · rfl
  | some r =>
    obtain ⟨hr, hn⟩ := hs.active ha
    refine ⟨_, if_pos hn, sameTables_modify s r (fun _ => rfl) (fun _ => rfl), ha, ?_, ?_⟩
    · intro j
      simp only [modify]
      grind [get_modify, OSThread.setRunning]
    · exact view_modify hs.thread hr _ (fun _ => rfl) (.inr ha)

theorem resume_spec {next : Option Nat} (h1 : SameTables s s1)
    (hs : Consistent s) (hi : ∀ r, (s1.objects.get r).running = false)
    (hx : ∀ r, next = some r → s.threads.lookup (s.objects.get r).tid = some r) :
    ∃ s2, s1.resume next = .ok s2 ∧ SameTables s s2 ∧
      (∀ r, (s2.objects.get r).running = true ↔ next = some r) ∧
      s2.view = match next.map s.name with
        | some a => s1.view.modify (.setRunning true) a
        | none => s1.view := by
  cases next with
  | none =>
    refine ⟨s1, rfl, h1, fun r => ?_, rfl⟩
    rw [hi]
    exact iff_of_false nofun nofun
  | some n =>
    have hr := hx n rfl
    have hn : n < s1.objects.size := h1.size ▸ (hs.thread hr).1
    have hm : s1.name n = s.name n := by rw [name, name, h1.tid, h1.threads, if_pos hr, if_pos hr]
    refine ⟨s1.modify n (.setRunning true), ?_, ?_, fun r => ?_, ?_⟩
    · rw [resume, hi]
      rfl
    · exact h1.trans (sameTables_modify s1 n (fun _ => rfl) (fun _ => rfl))
    · simp only [modify]
      grind [get_modify, OSThread.setRunning]
    · rw [map_some, ← hm]
      refine view_modify ?_ hn _ (fun _ => rfl) (.inl ?_)
      · simp only [h1.threads, h1.size, h1.tid]
        exact hs.thread
      · rw [h1.threads, h1.tid, hr]

variable (hs : Consistent s)
include hs
theorem name_injective (h : s.threads.lookup (s.objects.get r).tid = some r)
    (hn : s.name j = s.name r) : j = r := by
  rw [name_of_lookup hs h, name] at hn
  split at hn
  next hj =>
    rw [ThreadName.registered.inj hn, h] at hj
    exact (some.inj hj).symm
  · cases hn

theorem onPageDirectoryChange_refines (next : Nat) :
    ∃ s', s.onPageDirectoryChange next = .ok ((s.view.handle (.pageDirectoryChange next)).1, s') ∧
      Consistent s' ∧ s'.view = (s.view.handle (.pageDirectoryChange next)).2 := by
  have hg : ∀ r, s.addressSpaces.lookup next = some r →
      s.threads.lookup (s.objects.get r).tid = some r := fun r h => (hs.space h).2
  rw [OSThreads.handle, spaces_view hs, onPageDirectoryChange, hs.nextThread]
  generalize s.addressSpaces.lookup next = n at hg
  simp only [bind, Except.bind, OSThreads.switch]
  have hm : s.activeThread = n ↔ s.view.active = n.map s.name := by
    rw [active_view]
    constructor
    · rintro rfl
      rfl
    intro h
    cases ha : s.activeThread with
    | none =>
      cases n with
      | none => rfl
      | some r => simp [ha] at h
    | some a =>
      cases n with
      | none => simp [ha] at h
      | some r => grind [name_injective]
  by_cases heq : s.activeThread = n
  · rw [if_neg (not_not.2 heq), if_neg (not_not.2 (hm.1 heq))]
    exact ⟨s, rfl, hs, rfl⟩
  rw [if_pos heq, if_pos (mt hm.2 heq)]
  obtain ⟨s1, hsp, h1, ha, hi, hv1⟩ := stop_spec hs
  obtain ⟨s2, hrs, h2, hru, hv2⟩ := resume_spec h1 hs hi hg
  have hn : ∀ r, n = some r → s2.name r = s.name r := by
    intro r hr
    rw [name, name, h2.tid, h2.threads, if_pos (hg r hr), if_pos (hg r hr)]
  have hnames : n.map s2.name = n.map s.name := map_congr fun r hr => hn r hr
  have ht : (n.map s.name).map s2.view.get = n.map s2.objects.get := by
    rw [← hnames, Option.map_map]
    exact map_congr fun r _ => get_name s2 r
  simp only [hsp, hrs, Except.map, ← hv1, ← hv2, ← getActiveThread_view, ht]
  refine ⟨_, rfl, @SameTables.consistent s { s2 with activeThread := n }
    ⟨h2.threads, h2.addressSpaces, h2.size, h2.tid, h2.pageTable⟩ hs
    (fun h => (hru _).1 h) fun h => ⟨?_, (hru _).2 h⟩, ?_⟩
  · exact h2.size ▸ (hs.thread (hg _ h)).1
  · rw [← hnames]
    rfl

theorem view_terminate (hl : s.threads.lookup tid = some r) :
    ((s.modify r .terminate).remove tid r).view =
      s.view.remove tid (s.objects.get r).terminate := by
  obtain ⟨hr, ht⟩ := hs.thread hl
  have hs' := hs.modify .terminate (fun _ => ⟨rfl, rfl, rfl⟩) r
  have hg : (s.modify r .terminate).objects.get r = (s.objects.get r).terminate :=
    get_modify_self _ _ hr
  rw [view_remove (s := s.modify r OSThread.terminate) hl, hg,
    view_modify hs.thread hr .terminate (fun _ => rfl) (.inl (ht ▸ hl)), name_of_lookup hs hl]
  simp [OSThreads.remove, OSThreads.modify]

theorem handle_refines (e : OSEvent) :
    ∃ s', s.handle e = .ok ((s.view.handle e).1, s') ∧ Consistent s' ∧
      s'.view = (s.view.handle e).2 := by
  have hh : ∀ tid, s.view.threads tid = (s.threads.lookup tid).map s.objects.get := fun _ => rfl
  cases e with
  | threadStart pid name stackTop addressSpace =>
    simp only [handle, OSThreads.handle, hh]
    cases hl : s.threads.lookup pid with
    | none => exact ⟨_, rfl, hs.add hl rfl, view_add hs hl⟩
    | some r =>
      have hs' := hs.remove hl
      have hl' : (s.remove pid r).threads.lookup pid = none := by
        rw [remove, lookup_filter_ne, if_pos rfl]
      refine ⟨_, rfl, hs'.add hl' rfl, ?_⟩
      rw [view_add hs' hl', view_remove hl]
      rfl
  | threadExit tid =>
    simp only [handle, OSThreads.handle, hh]
    cases hl : s.threads.lookup tid with
    | none => exact ⟨s, rfl, hs, rfl⟩
    | some r =>
      have hs' := hs.modify .terminate (fun _ => ⟨rfl, rfl, rfl⟩) r
      have hg : (s.modify r .terminate).objects.get r = (s.objects.get r).terminate :=
        get_modify_self _ _ (hs.thread hl).1
      simp only [hg]
      exact ⟨_, rfl, hs'.remove hl, view_terminate hs hl⟩
  | vmAlloc pid area =>
    simp only [handle, OSThreads.handle]
    cases hl : s.threads.lookup pid with
    | none =>
      have hno : s.view.threads pid = none := by rw [hh, hl, map_none]
      refine ⟨s, rfl, hs, ?_⟩
      rw [OSThreads.modify, hno, map_none, ← hno, update_eq_self]
    | some r =>
      obtain ⟨hr, ht⟩ := hs.thread hl
      refine ⟨_, rfl, hs.modify (.addArea area) (fun _ => ⟨rfl, rfl, rfl⟩) r, ?_⟩
      rw [view_modify hs.thread hr (.addArea area) (fun _ => rfl) (.inl (ht ▸ hl)),
        name_of_lookup hs hl]
  | privilegeChange current =>
    simp only [handle, OSThreads.handle, onPrivilegeChange, active_view]
    cases ha : s.activeThread with
    | none => exact ⟨s, rfl, hs, rfl⟩
    | some r =>
      have hr := (hs.active ha).1
      simp only [map_some, get_name]
      split
      · refine ⟨s.modify r (.setKernelMode (current == 0)), ?_,
          hs.modify (.setKernelMode _) (fun _ => ⟨rfl, rfl, rfl⟩) r,
          view_modify hs.thread hr (.setKernelMode _) (fun _ => rfl) (.inr ha)⟩
        rw [modify, get_modify_self _ _ hr]
      · exact ⟨s, rfl, hs, rfl⟩
  | pageDirectoryChange next => exact onPageDirectoryChange_refines hs next

theorem react_refines (events : List OSEvent) :
    ∃ s', s.react events = .ok ((s.view.react events).1, s') ∧
      s'.view = (s.view.react events).2 := by
  induction events generalizing s with
  | nil => exact ⟨s, rfl, rfl⟩
  | cons e events ih =>
    obtain ⟨s1, hh, hs1, hv1⟩ := handle_refines hs e
    obtain ⟨s2, hre, hv2⟩ := ih hs1
    refine ⟨s2, ?_, ?_⟩
    · simp only [react, hh, bind, Except.bind, hre, Except.map, OSThreads.react, hv1]
    · rw [hv2, OSThreads.react, hv1]

end

/-- The tracer signals and shows what the abstract threads do. -/
theorem react_empty_refines (events : List OSEvent) :
    let threads := OSThreads.react ⟨fun _ => none, fun _ => none, none⟩ events
    ∃ s', empty.react events = .ok (threads.1, s') ∧ s'.view = threads.2 :=
  react_refines (s := empty) ⟨.nil, nofun, nofun, nofun, nofun⟩ events

/-- The runs of a tracer, in which a copy may replace a state. -/
inductive Reached : OSTracerState → Prop where
  | empty : Reached .empty
  | handle : Reached s → s.handle e = .ok (signals, s') → Reached s'
  | clone : Reached s → Reached s.clone

def Equivalent (s s' : OSTracerState) : Prop :=
  ∀ events, ∃ signals t t', s.react events = .ok (signals, t) ∧
    s'.react events = .ok (signals, t') ∧ t.getActiveThread = t'.getActiveThread ∧
    ∀ tid, t.getThread tid = t'.getThread tid

def Mirrored (s : OSTracerState) : Prop :=
  (∀ r, s.activeThread = some r → s.threads.lookup (s.objects.get r).tid = some r) ∧
    ∀ p, s.addressSpaces.lookup p =
      (s.threads.find? fun e => (s.objects.get e.2).pageTable = p).map Prod.snd

theorem lookup_mapIdx [DecidableEq κ] (key : α → κ) (g : Nat → Nat) (l : List α) (k : κ) :
    (l.mapIdx fun i e => (key e, g i)).lookup k = (l.findIdx? fun e => key e = k).map g := by
  induction l generalizing g with
  | nil => rfl
  | cons a l ih =>
    rw [mapIdx_cons, lookup_cons, findIdx?_cons]
    by_cases h : key a = k
    · simp [h]
    have hne : (k == key a) = false := beq_false_of_ne (Ne.symm h)
    rw [hne, decide_eq_false h, ih fun i => g (i + 1)]
    exact (map_map _ _ _).symm

theorem findIdx?_of_unique {l : List α} (hi : l[i]? = some e) (he : p e = true)
    (hu : ∀ j e', l[j]? = some e' → p e' = true → j = i) : l.findIdx? p = some i := by
  cases h : l.findIdx? p with
  | none =>
    have hn := findIdx?_eq_none_iff.1 h e (mem_of_getElem? hi)
    rw [he] at hn
    cases hn
  | some j =>
    obtain ⟨hj, hpj, -⟩ := findIdx?_eq_some_iff_getElem.1 h
    rw [hu j _ (List.getElem?_eq_getElem hj) hpj]

variable {s : OSTracerState} {i j : Nat}
theorem clone_lookup (s : OSTracerState) (tid : Int) :
    s.clone.threads.lookup tid = s.threads.findIdx? fun e => e.1 = tid :=
  (lookup_mapIdx Prod.fst id _ _).trans (congrFun map_id _)

theorem clone_space (s : OSTracerState) (p : Nat) : s.clone.addressSpaces.lookup p =
    s.threads.findIdx? fun e => (s.objects.get e.2).pageTable = p :=
  (lookup_mapIdx (fun e : Int × Nat => (s.objects.get e.2).pageTable) id _ _).trans
      (congrFun map_id _)

theorem clone_get (h : s.threads[i]? = some e) : s.clone.objects.get i = s.objects.get e.2 := by
  rw [clone, Store.get, getD_eq_getElem?_getD, List.getElem?_map, h]
  rfl

section
variable (hs : Consistent s) (h : s.threads[i]? = some e)
include hs h
theorem Consistent.lookup_of_getElem :
    s.threads.lookup e.1 = some e.2 ∧ (s.objects.get e.2).tid = e.1 := by
  have hl := lookup_of_mem hs.sorted.nodup (mem_of_getElem? h)
  exact ⟨hl, (hs.thread hl).2⟩

theorem Consistent.index_unique (h' : s.threads[j]? = some e') (hk : e'.1 = e.1) : j = i := by
  have hj : j < (s.threads.map Prod.fst).length := by
    rw [length_map]
    exact (List.getElem?_eq_some_iff.1 h').1
  refine (List.getElem?_inj hj hs.sorted.nodup).1 ?_
  rw [List.getElem?_map, List.getElem?_map, h, h', map_some, map_some, hk]

theorem clone_lookup_of_getElem : s.clone.threads.lookup (s.clone.objects.get i).tid = some i := by
  rw [clone_get h, (hs.lookup_of_getElem h).2, clone_lookup]
  exact findIdx?_of_unique h (decide_eq_true rfl) fun j e' h' he' =>
    hs.index_unique h h' (of_decide_eq_true he')

theorem clone_active_of_getElem (ha : s.activeThread = some e.2) : s.clone.activeThread =
    some i := by
  refine findIdx?_of_unique h (decide_eq_true ha) fun j e' h' he' => ?_
  have ho : e'.2 = e.2 := some.inj ((of_decide_eq_true he').symm.trans ha)
  refine hs.index_unique h h' ?_
  rw [← (hs.lookup_of_getElem h).2, ← (hs.lookup_of_getElem h').2, ho]

end

theorem Consistent.clone (hs : Consistent s) : Consistent s.clone where
  sorted := by
    have hks : s.clone.threads.map Prod.fst = s.threads.map Prod.fst := by
      apply ext_getElem?
      intro i
      rw [OSTracerState.clone, List.getElem?_map, List.getElem?_mapIdx, List.getElem?_map,
        Option.map_map]
      rfl
    rw [SortedKeys, hks]
    exact hs.sorted
  thread {tid i} h := by
    rw [clone_lookup] at h
    obtain ⟨hi, ht, -⟩ := List.findIdx?_eq_some_iff_getElem.1 h
    have hg := List.getElem?_eq_getElem hi
    rw [clone_get hg, (hs.lookup_of_getElem hg).2]
    exact ⟨by simpa [OSTracerState.clone, size] using hi, of_decide_eq_true ht⟩
  space {p i} h := by
    rw [clone_space] at h
    obtain ⟨hi, hp, -⟩ := List.findIdx?_eq_some_iff_getElem.1 h
    have hg := List.getElem?_eq_getElem hi
    refine ⟨?_, clone_lookup_of_getElem hs hg⟩
    rw [clone_get hg]
    exact of_decide_eq_true hp
  running {i} h := by
    cases hg : s.threads[i]? with
    | none =>
      rw [get_of_le] at h
      · cases h
      · simpa [OSTracerState.clone, size] using hg
    | some e =>
      rw [clone_get hg] at h
      exact clone_active_of_getElem hs hg (hs.running h)
  active {i} h := by
    obtain ⟨hi, ha, -⟩ := List.findIdx?_eq_some_iff_getElem.1 h
    rw [clone_get (List.getElem?_eq_getElem hi)]
    exact ⟨by simpa [OSTracerState.clone, size] using hi, (hs.active (of_decide_eq_true ha)).2⟩

theorem Reached.consistent (h : Reached s) : Consistent s := by
  induction h with
  | empty => exact ⟨.nil, nofun, nofun, nofun, nofun⟩
  | @handle s e signals s' _ hh ih =>
    obtain ⟨s1, heq, hs1, -⟩ := handle_refines ih e
    cases heq.symm.trans hh
    exact hs1
  | clone _ ih => exact ih.clone

/-- A running thread is active, and no assertion fails. -/
theorem reached_runs_active (h : Reached s) :
    (∀ r, (s.objects.get r).running = true → s.activeThread = some r) ∧
      (∀ p r, s.addressSpaces.lookup p = some r → s.isAlive r = true) ∧
      ∀ next, ∃ r, s.onPageDirectoryChange next = .ok r := by
  have hs := h.consistent
  refine ⟨fun r => hs.running, fun p r hl => ?_, fun next => ?_⟩
  · rw [isAlive, any_eq_true.2 ⟨_, mem_of_lookup (hs.space hl).2, decide_eq_true rfl⟩]
    rfl
  · obtain ⟨s', hok, -⟩ := onPageDirectoryChange_refines hs next
    exact ⟨_, hok⟩

theorem switched_runs_active : ∃ s t, Reached s ∧ s.getActiveThread = some t ∧ t.running = true ∧
    (∀ r, (s.objects.get r).running = true → s.activeThread = some r) ∧
      (∀ p r, s.addressSpaces.lookup p = some r → s.isAlive r = true) ∧
      ∀ next, ∃ r, s.onPageDirectoryChange next = .ok r := by
  have h : Reached _ := .handle (.handle .empty
    (rfl : handle _ (.threadStart 1 "init" 0 5) = .ok (_, _)))
    (rfl : handle _ (.pageDirectoryChange 5) = .ok (_, _))
  exact ⟨_, _, h, rfl, rfl, reached_runs_active h⟩

theorem clone_threads (hs : Consistent s) (tid : Int) :
    s.clone.view.threads tid = s.view.threads tid := by
  simp only [view, clone_lookup]
  cases h : s.threads.findIdx? fun e => e.1 = tid with
  | none =>
    have hno : s.threads.lookup tid = none := lookup_eq_none_iff.2 fun e he =>
      bne_iff_ne.2 (Ne.symm (of_decide_eq_false (findIdx?_eq_none_iff.1 h e he)))
    rw [hno, map_none, map_none]
  | some i =>
    obtain ⟨hi, ht, -⟩ := findIdx?_eq_some_iff_getElem.1 h
    have hg := List.getElem?_eq_getElem hi
    rw [← of_decide_eq_true ht, (hs.lookup_of_getElem hg).1, map_some, map_some, clone_get hg]

theorem clone_spaces (hs : Consistent s) (p : Nat) : s.clone.view.spaces p =
    (s.threads.find? fun e => (s.objects.get e.2).pageTable = p).map Prod.fst := by
  simp only [view, clone_space]
  cases h : s.threads.findIdx? fun e => (s.objects.get e.2).pageTable = p with
  | none =>
    have hno := List.find?_eq_none.2 fun e he =>
      Bool.not_eq_true _ ▸ findIdx?_eq_none_iff.1 h e he
    rw [hno, map_none, map_none]
  | some i =>
    obtain ⟨hi, hp, hf⟩ := findIdx?_eq_some_iff_getElem.1 h
    have hg := List.getElem?_eq_getElem hi
    have hd : (s.threads.find? fun e => (s.objects.get e.2).pageTable = p) = some s.threads[i] :=
      List.find?_eq_some_iff_getElem.2 ⟨hp, i, hi, rfl, fun j hj => by simpa using hf j hj⟩
    rw [hd, map_some, map_some, clone_get hg, (hs.lookup_of_getElem hg).2]

theorem clone_active (hs : Consistent s)
    (ha : ∀ r, s.activeThread = some r → s.threads.lookup (s.objects.get r).tid = some r) :
    s.clone.view.active = s.view.active := by
  rw [active_view, active_view]
  cases h : s.activeThread with
  | none =>
    have hno : s.clone.activeThread = none := findIdx?_eq_none_iff.2 fun e _ => by rw [h]; rfl
    rw [hno]
    rfl
  | some r =>
    obtain ⟨i, hg⟩ := List.getElem?_of_mem (mem_of_lookup (ha r h))
    rw [clone_active_of_getElem hs hg h, map_some, map_some, name, name,
      if_pos (clone_lookup_of_getElem hs hg), if_pos (ha r h), clone_get hg]

theorem active_switch (v : OSThreads) (next : Option ThreadName) :
    (v.switch next).2.active = next := by
  rw [OSThreads.switch]
  split
  · rfl
  next h => exact not_not.1 h

section
variable (hs : Consistent s)
include hs
theorem getActiveThread_switch (p : Nat) :
    ∃ signals s', s.react [.pageDirectoryChange p] = .ok (signals, s') ∧
      s'.getActiveThread.map OSThread.tid = s.view.spaces p := by
  obtain ⟨s', hre, hv⟩ := react_refines hs [.pageDirectoryChange p]
  refine ⟨_, s', hre, ?_⟩
  have ha : s'.activeThread.map s'.name = (s.view.spaces p).map .registered := by
    rw [← active_view, hv]
    exact active_switch _ _
  rw [getActiveThread]
  cases h : s'.activeThread with
  | none =>
    rw [h] at ha
    exact (map_eq_none_iff.1 ha.symm).symm
  | some r =>
    rw [h, map_some, name] at ha
    split at ha
    · obtain ⟨tid, hp, ht⟩ := map_eq_some_iff.1 ha.symm
      cases ht
      exact hp.symm
    · obtain ⟨tid, -, ht⟩ := map_eq_some_iff.1 ha.symm
      cases ht

theorem mirrored_space_iff (p : Nat) : s.addressSpaces.lookup p =
        (s.threads.find? fun e => (s.objects.get e.2).pageTable = p).map Prod.snd ↔
      s.view.spaces p = s.clone.view.spaces p := by
  rw [clone_spaces hs]
  have hf {e : Int × Nat} (h : (s.threads.find? fun e =>
      (s.objects.get e.2).pageTable = p) = some e) : s.threads.lookup e.1 = some e.2 :=
    lookup_of_mem hs.sorted.nodup (mem_of_find?_eq_some h)
  cases hl : s.addressSpaces.lookup p with
  | none => simp only [view, hl, map_none, @eq_comm _ none, map_eq_none_iff]
  | some r =>
    have hp : s.view.spaces p = some (s.objects.get r).tid := by simp [view, hl]
    rw [hp, eq_comm, map_eq_some_iff, eq_comm, map_eq_some_iff]
    constructor
    · rintro ⟨e, he, rfl⟩
      exact ⟨e, he, (hs.thread (hf he)).2.symm⟩
    rintro ⟨e, he, ht⟩
    refine ⟨e, he, some.inj ?_⟩
    rw [← hf he, ht]
    exact (hs.space hl).2

theorem Mirrored.view_clone (h : Mirrored s) : s.clone.view = s.view :=
  OSThreads.ext (funext (clone_threads hs))
    (funext fun p => ((mirrored_space_iff hs p).1 (h.2 p)).symm) (clone_active hs h.1)

theorem Equivalent.mirrored (h : Equivalent s s.clone) : Mirrored s := by
  constructor
  · intro r hr
    obtain ⟨_, t, t', ht, ht', ha, -⟩ := h []
    cases ht
    cases ht'
    rw [getActiveThread, getActiveThread, hr] at ha
    obtain ⟨i, hi, -⟩ := map_eq_some_iff.1 ha.symm
    obtain ⟨hlt, he, -⟩ := findIdx?_eq_some_iff_getElem.1 hi
    have hl := hs.lookup_of_getElem (List.getElem?_eq_getElem hlt)
    cases hr.symm.trans (of_decide_eq_true he)
    rw [hl.2]
    exact hl.1
  · intro p
    rw [mirrored_space_iff hs]
    obtain ⟨signals, t, t', ht, ht', ha, -⟩ := h [.pageDirectoryChange p]
    obtain ⟨_, _, hs1, htd⟩ := getActiveThread_switch hs p
    obtain ⟨_, _, hs2, hti⟩ := getActiveThread_switch hs.clone p
    cases ht.symm.trans hs1
    cases ht'.symm.trans hs2
    rw [← htd, ← hti, ha]

end

/-- A copy is as good exactly if its maps mirror the threads. -/
theorem clone_equivalent_iff (h : Reached s) : Equivalent s s.clone ↔ Mirrored s := by
  have hs := h.consistent
  refine ⟨Equivalent.mirrored hs, fun hm events => ?_⟩
  obtain ⟨t, hre, hv⟩ := react_refines hs events
  obtain ⟨t', hreact', hview'⟩ := react_refines hs.clone events
  rw [hm.view_clone hs] at hreact' hview'
  refine ⟨_, t, t', hre, hreact', ?_, fun tid => ?_⟩
  · rw [getActiveThread_view, getActiveThread_view, hv, hview']
  · rw [getThread_view, getThread_view, hv, hview']

theorem clone_of_switched : ∃ s t, Reached s ∧ s.getActiveThread = some t ∧
    Equivalent s s.clone := by
  have h : Reached _ := .handle (.handle .empty
    (rfl : handle _ (.threadStart 1 "init" 0 5) = .ok (_, _)))
    (rfl : handle _ (.pageDirectoryChange 5) = .ok (_, _))
  refine ⟨_, _, h, rfl, (clone_equivalent_iff h).2 ⟨?_, fun p => ?_⟩⟩
  · rintro _ ⟨⟩
    rfl
  change lookup p [(5, 0)] = (List.find? (fun _ => decide (5 = p)) [((1 : Int), 0)]).map _
  by_cases hp : 5 = p
  · subst hp
    rfl
  · simp [hp, lookup_cons, beq_false_of_ne (Ne.symm hp)]

/-- The active thread ends, and the copy has no active thread. -/
theorem clone_forgets_ended : ∃ s t, Reached s ∧ s.getActiveThread = some t ∧
    s.clone.getActiveThread = none ∧ ¬ Equivalent s s.clone := by
  have h : Reached _ := .handle (.handle (.handle .empty
    (rfl : handle _ (.threadStart 1 "init" 0 5) = .ok (_, _)))
    (rfl : handle _ (.pageDirectoryChange 5) = .ok (_, _)))
    (rfl : handle _ (.threadExit 1) = .ok (_, _))
  refine ⟨_, _, h, rfl, rfl, fun heq => ?_⟩
  obtain ⟨_, t, t', ht, ht', ha, -⟩ := heq []
  cases ht
  cases ht'
  cases ha

end OSTracerState
end Chef
