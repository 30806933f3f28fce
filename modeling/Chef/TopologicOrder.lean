import Mathlib.Data.Finset.Card
import Mathlib.Data.Prod.Lex
import Chef.TopologicTree

namespace Chef
open Foundations Relation Finset Store TopologicNode Option Nat Or
namespace TopologicNode
/-- Places are ordered by basic blocks, and by calls within a block. -/
def key (n : TopologicNode) : Int ×ₗ Int := toLex (n.basicBlock, n.callIndex)

def Next (nodes : Store TopologicNode) (m n : Nat) : Prop := (nodes.get m).next = some n

theorem Next.ne_size (h : Next nodes m n) : m ≠ nodes.size := by
  rintro rfl
  rw [Next, get_of_le _ le_rfl] at h
  cases h

theorem ne_size_of_down {nodes : Store TopologicNode} (h : (nodes.get m).down = some n) :
    m ≠ nodes.size := by
  rintro rfl
  rw [get_of_le _ le_rfl] at h
  cases h

def Below (nodes : Store TopologicNode) (a b : Nat) : Prop :=
  ∃ d, (nodes.get a).down = some d ∧ ReflTransGen (Next nodes) d b

/-- Keys grow along chains, and chains below start before every block. -/
structure Graded (nodes : Store TopologicNode) (level : Nat → Nat) : Prop where
  next_lt : Next nodes m n → n < nodes.size
  next_key : Next nodes m n → (nodes.get m).key < (nodes.get n).key
  next_callBase : Next nodes m n → (nodes.get n).isCallBase = (nodes.get m).isCallBase
  next_level : Next nodes m n → level n = level m
  down_lt : (nodes.get m).down = some n → n < nodes.size
  down_key : (nodes.get m).down = some n → (nodes.get n).key = toLex (-1, 0)
  down_level : (nodes.get m).down = some n → level n = level m + 1

/-- The nodes are kept in order, with the same states. -/
structure Grows (nodes nodes' : Store TopologicNode) (level level' : Nat → Nat) : Prop where
  size_le : nodes.size ≤ nodes'.size
  key : m < nodes.size → (nodes'.get m).key = (nodes.get m).key
  callBase : m < nodes.size → (nodes'.get m).isCallBase = (nodes.get m).isCallBase
  level_eq : m < nodes.size → level' m = level m
  next : Next nodes m n → TransGen (Next nodes') m n
  down : (nodes.get m).down = some n → (nodes'.get m).down = some n
  states : ∀ m, (nodes'.get m).states = (nodes.get m).states

theorem Grows.refl (nodes : Store TopologicNode) (level : Nat → Nat) :
    Grows nodes nodes level level where
  size_le := le_rfl
  key _ := rfl
  callBase _ := rfl
  level_eq _ := rfl
  next := TransGen.single
  down h := h
  states _ := rfl

section
variable (h : Grows nodes nodes' level level')
include h
theorem Grows.transGen (hn : TransGen (Next nodes) m n) : TransGen (Next nodes') m n := by
  induction hn with
  | single hn => exact h.next hn
  | tail _ hn ih => exact ih.trans (h.next hn)

theorem Grows.reflTransGen
    (hn : ReflTransGen (Next nodes) m n) : ReflTransGen (Next nodes') m n := by
  induction hn with
  | refl => exact .refl
  | tail _ hn ih => exact ih.trans (h.next hn).to_reflTransGen

theorem Grows.trans
    (h' : Grows nodes' nodes'' level' level'') : Grows nodes nodes'' level level'' where
  size_le := h.size_le.trans h'.size_le
  key hm := (h'.key (hm.trans_le h.size_le)).trans (h.key hm)
  callBase hm := (h'.callBase (hm.trans_le h.size_le)).trans (h.callBase hm)
  level_eq hm := (h'.level_eq (hm.trans_le h.size_le)).trans (h.level_eq hm)
  next hn := h'.transGen (h.next hn)
  down hd := h'.down (h.down hd)
  states m := (h'.states m).trans (h.states m)

theorem Grows.below (hb : Below nodes a b) : Below nodes' a b := by
  obtain ⟨d, hd, hn⟩ := hb
  exact ⟨d, h.down hd, h.reflTransGen hn⟩

end

namespace Graded
variable (h : Graded nodes level)
include h
theorem reflTransGen (hn : ReflTransGen (Next nodes) m n) :
    (m < nodes.size → n < nodes.size) ∧ level n = level m ∧
      (nodes.get n).isCallBase = (nodes.get m).isCallBase := by
  induction hn with
  | refl => exact ⟨id, rfl, rfl⟩
  | tail _ hn ih =>
    exact ⟨fun _ => h.next_lt hn, (h.next_level hn).trans ih.2.1, (h.next_callBase hn).trans ih.2.2⟩

theorem transGen_lt (hn : TransGen (Next nodes) m n) : n < nodes.size := by
  cases hn with
  | single hn => exact h.next_lt hn
  | tail _ hn => exact h.next_lt hn

theorem transGen_key (hn : TransGen (Next nodes) m n) : (nodes.get m).key < (nodes.get n).key := by
  induction hn with
  | single hn => exact h.next_key hn
  | tail _ hn ih => exact ih.trans (h.next_key hn)

theorem below (hb : Below nodes a b) : b < nodes.size ∧ level b = level a + 1 := by
  obtain ⟨d, hd, hn⟩ := hb
  obtain ⟨hlt, hlv, -⟩ := h.reflTransGen hn
  exact ⟨hlt (h.down_lt hd), hlv.trans (h.down_level hd)⟩

end Graded

def later (nodes : Store TopologicNode) (n : Nat) : Nat :=
  ((range nodes.size).filter fun m => (nodes.get n).key < (nodes.get m).key).card

theorem later_le (nodes : Store TopologicNode) (n : Nat) : later nodes n ≤ nodes.size :=
  (card_filter_le _ _).trans (card_range _).le

theorem later_lt (h : Graded nodes level) (hn : Next nodes m n) :
    later nodes n < later nodes m := by
  apply card_lt_card
  rw [ssubset_iff_of_subset]
  · refine ⟨n, ?_, ?_⟩
    · exact mem_filter.2 ⟨mem_range.2 (h.next_lt hn), h.next_key hn⟩
    · intro hm
      exact lt_irrefl _ (mem_filter.1 hm).2
  · intro k hk
    obtain ⟨hr, hy⟩ := mem_filter.1 hk
    exact mem_filter.2 ⟨hr, (h.next_key hn).trans hy⟩

/-- One more node comes right behind `previous` in its chain. -/
structure Inserted (nodes nodes' : Store TopologicNode) (previous : Nat) (node : TopologicNode) :
    Prop where
  size : nodes'.size = nodes.size + 1
  new_key : (nodes'.get nodes.size).key = node.key
  new_callBase : (nodes'.get nodes.size).isCallBase = node.isCallBase
  new_next : (nodes'.get nodes.size).next = (nodes.get previous).next
  new_down : (nodes'.get nodes.size).down = none
  key : m ≠ nodes.size → (nodes'.get m).key = (nodes.get m).key
  callBase : m ≠ nodes.size → (nodes'.get m).isCallBase = (nodes.get m).isCallBase
  down : m ≠ nodes.size → (nodes'.get m).down = (nodes.get m).down
  next_previous : (nodes'.get previous).next = some nodes.size
  next : m ≠ nodes.size → m ≠ previous → (nodes'.get m).next = (nodes.get m).next
  states : ∀ m, (nodes'.get m).states = (nodes.get m).states

section
variable (nodes : Store TopologicNode)
theorem get_linked_of_ne (node : TopologicNode)
    (p : TopologicNode → β) (hp : ∀ (n : TopologicNode) (next : Option Nat),
      p { n with next := next } = p n) (previous : Nat) (hm : m ≠ nodes.size) :
    p (((nodes.alloc node).modify previous fun n => { n with next := some nodes.size }).get m) =
      p (nodes.get m) := by rw [get_modify_proj _ _ _ fun n => hp n _, get_alloc, if_neg hm]

theorem get_setParent (p : TopologicNode → β) (hp : ∀ (n : TopologicNode) (parent : Option Nat),
    p { n with parent := parent } = p n) (n parent m : Nat) :
    p ((nodes.modify n fun m => { m with parent := some parent }).get m) = p (nodes.get m) :=
  get_modify_proj _ _ _ (fun n => hp n _) _ _

theorem get_fresh_size (node : TopologicNode)
    (f : TopologicNode → TopologicNode) (hm : previous < nodes.size) :
    ((nodes.alloc node).modify previous f).get nodes.size = node := by
  rw [get_modify_ne _ _ hm.ne, get_alloc_size]

theorem inserted_modify (hp : previous < nodes.size) (bb ci : Int) (cb : Bool) :
    Inserted nodes ((nodes.alloc (fresh previous bb ci cb (nodes.get previous).next)).modify
      previous fun m => { m with next := some nodes.size }) previous
        (fresh previous bb ci cb (nodes.get previous).next) where
  size := by rw [size_modify, size_alloc]
  new_key := by rw [get_fresh_size _ _ _ hp]
  new_callBase := by rw [get_fresh_size _ _ _ hp]
  new_next := by rw [get_fresh_size _ _ _ hp]; rfl
  new_down := by rw [get_fresh_size _ _ _ hp]; rfl
  key hm := get_linked_of_ne _ _ key (fun _ _ => rfl) _ hm
  callBase hm := get_linked_of_ne _ _ isCallBase (fun _ _ => rfl) _ hm
  down hm := get_linked_of_ne _ _ down (fun _ _ => rfl) _ hm
  next_previous := by
    rw [get_modify_self]
    rw [size_alloc]
    exact hp.trans (lt_succ_self _)
  next hm hne := by rw [get_modify_ne _ _ hne.symm, get_alloc, if_neg hm]
  states m := by
    by_cases hm : m = nodes.size
    · rw [hm, get_fresh_size _ _ _ hp, get_of_le _ le_rfl]
      rfl
    · exact get_linked_of_ne _ _ states (fun _ _ => rfl) _ hm

end

theorem Inserted.setParent (h : Inserted nodes nodes' previous node) (n parent : Nat) :
    Inserted nodes (nodes'.modify n fun m => { m with parent := some parent }) previous node where
  size := (size_modify _ _ _).trans h.size
  new_key := (get_setParent _ TopologicNode.key (fun _ _ => rfl) _ _ _).trans h.new_key
  new_callBase := (get_setParent _ isCallBase (fun _ _ => rfl) _ _ _).trans h.new_callBase
  new_next := (get_setParent _ TopologicNode.next (fun _ _ => rfl) _ _ _).trans h.new_next
  new_down := (get_setParent _ TopologicNode.down (fun _ _ => rfl) _ _ _).trans h.new_down
  key hm := (get_setParent _ TopologicNode.key (fun _ _ => rfl) _ _ _).trans (h.key hm)
  callBase hm := (get_setParent _ isCallBase (fun _ _ => rfl) _ _ _).trans (h.callBase hm)
  down hm := (get_setParent _ TopologicNode.down (fun _ _ => rfl) _ _ _).trans (h.down hm)
  next_previous := (get_setParent _ TopologicNode.next (fun _ _ => rfl) _ _ _).trans h.next_previous
  next hm hne := (get_setParent _ TopologicNode.next (fun _ _ => rfl) _ _ _).trans (h.next hm hne)
  states m := (get_setParent _ TopologicNode.states (fun _ _ => rfl) _ _ _).trans (h.states m)

namespace Inserted
def chainLevel (nodes : Store TopologicNode) (level : Nat → Nat) (previous n : Nat) : Nat :=
  if n = nodes.size then level previous else level n

variable (h : Inserted nodes nodes' previous node)
include h
theorem next_cases (hn : Next nodes' m n) :
    (m = previous ∧ n = nodes.size) ∨ (m = nodes.size ∧ Next nodes previous n) ∨
      (m ≠ nodes.size ∧ Next nodes m n) := by
  by_cases hp : m = previous
  · rw [hp, Next, h.next_previous, some.injEq] at hn
    exact inl ⟨hp, hn.symm⟩
  by_cases hm : m = nodes.size
  · rw [hm, Next, h.new_next] at hn
    exact inr (inl ⟨hm, hn⟩)
  · rw [Next, h.next hm hp] at hn
    exact inr (inr ⟨hm, hn⟩)

theorem down_cases (hd : (nodes'.get m).down = some n) :
    m ≠ nodes.size ∧ (nodes.get m).down = some n := by
  have hm : m ≠ nodes.size := by
    rintro rfl
    rw [h.new_down] at hd
    cases hd
  rw [h.down hm] at hd
  exact ⟨hm, hd⟩

theorem grows (hr : previous < nodes.size)
    (l : Nat → Nat) : Grows nodes nodes' l (chainLevel nodes l previous) where
  size_le := by rw [h.size]; exact le_succ _
  key hm := h.key hm.ne
  callBase hm := h.callBase hm.ne
  level_eq hm := if_neg hm.ne
  next {m n} hn := by
    have hm := hn.ne_size
    by_cases hp : m = previous
    · subst hp
      have hf : Next nodes' m nodes.size := h.next_previous
      have hs : Next nodes' nodes.size n := h.new_next.trans hn
      exact (TransGen.single hf).tail hs
    · exact TransGen.single ((h.next hm hp).trans hn)
  down {m n} hd := by
    have hm := ne_size_of_down hd
    rw [h.down hm, hd]
  states := h.states

theorem graded (hg : Graded nodes l) (hp : previous < nodes.size) (hk :
    (nodes.get previous).key < node.key) (hcb : (nodes.get previous).isCallBase =
    node.isCallBase) (hx : ∀ n, Next nodes previous n → node.key < (nodes.get n).key) :
    Graded nodes' (chainLevel nodes l previous) where
  next_lt hn := by
    rw [h.size]
    obtain ⟨-, rfl⟩ | ⟨-, hn'⟩ | ⟨-, hn'⟩ := h.next_cases hn
    · exact lt_succ_self _
    · exact (hg.next_lt hn').trans (lt_succ_self _)
    · exact (hg.next_lt hn').trans (lt_succ_self _)
  next_key hn := by
    obtain ⟨rfl, rfl⟩ | ⟨rfl, hn'⟩ | ⟨hm, hn'⟩ := h.next_cases hn
    · rw [h.key hp.ne, h.new_key]
      exact hk
    · rw [h.new_key, h.key (hg.next_lt hn').ne]
      exact hx _ hn'
    · rw [h.key hm, h.key (hg.next_lt hn').ne]
      exact hg.next_key hn'
  next_callBase hn := by
    obtain ⟨rfl, rfl⟩ | ⟨rfl, hn'⟩ | ⟨hm, hn'⟩ := h.next_cases hn
    · rw [h.callBase hp.ne, h.new_callBase, hcb]
    · rw [h.new_callBase, h.callBase (hg.next_lt hn').ne, hg.next_callBase hn', hcb]
    · rw [h.callBase hm, h.callBase (hg.next_lt hn').ne, hg.next_callBase hn']
  next_level hn := by
    obtain ⟨rfl, rfl⟩ | ⟨rfl, hn'⟩ | ⟨hm, hn'⟩ := h.next_cases hn
    · rw [chainLevel, chainLevel, if_pos rfl, if_neg hp.ne]
    · rw [chainLevel, chainLevel, if_pos rfl, if_neg (hg.next_lt hn').ne, hg.next_level hn']
    · rw [chainLevel, chainLevel, if_neg hm, if_neg (hg.next_lt hn').ne, hg.next_level hn']
  down_lt hd := by
    obtain ⟨-, hd⟩ := h.down_cases hd
    rw [h.size]
    exact (hg.down_lt hd).trans (lt_succ_self _)
  down_key hd := by
    obtain ⟨-, hd⟩ := h.down_cases hd
    rw [h.key (hg.down_lt hd).ne, hg.down_key hd]
  down_level hd := by
    obtain ⟨hm, hd⟩ := h.down_cases hd
    rw [chainLevel, chainLevel, if_neg hm, if_neg (hg.down_lt hd).ne, hg.down_level hd]

end Inserted

section
def withDown (nodes : Store TopologicNode) (n : Nat) (cb : Bool) : Store TopologicNode :=
  (nodes.alloc (fresh n (-1) 0 cb none)).modify n fun m => { m with down := some nodes.size }

theorem get_withDown_of_ne (nodes : Store TopologicNode) (n : Nat) (cb : Bool)
    (p : TopologicNode → β) (hp : ∀ (n : TopologicNode) (down : Option Nat),
      p { n with down := down } = p n) (hm : m ≠ nodes.size) :
    p ((withDown nodes n cb).get m) = p (nodes.get m) := by
  rw [withDown, get_modify_proj _ _ _ fun n => hp n _, get_alloc, if_neg hm]

theorem get_withDown_size (hn : n < nodes.size) (cb : Bool) :
    (withDown nodes n cb).get nodes.size = fresh n (-1) 0 cb none :=
  get_fresh_size _ _ _ hn

theorem down_withDown (hn : n < nodes.size) (cb : Bool) :
    ((withDown nodes n cb).get n).down = some nodes.size := by
  rw [withDown, get_modify_self]
  rw [size_alloc]
  exact hn.trans (lt_succ_self _)

theorem size_withDown (nodes : Store TopologicNode) (n : Nat) (cb : Bool) :
    (withDown nodes n cb).size = nodes.size + 1 := by rw [withDown, size_modify, size_alloc]

theorem down_withDown_of_ne (cb : Bool) (hm : m ≠ nodes.size) (hmn : m ≠ n) :
    ((withDown nodes n cb).get m).down = (nodes.get m).down := by
  rw [withDown, get_modify_ne _ _ hmn.symm, get_alloc, if_neg hm]

theorem next_withDown (hn : n < nodes.size) : Next (withDown nodes n cb) a b ↔ Next nodes a b := by
  by_cases ha : a = nodes.size
  · rw [ha, Next, Next, get_withDown_size hn, get_of_le _ le_rfl]
    rfl
  · rw [Next, Next, get_withDown_of_ne _ _ _ next (fun _ _ => rfl) ha]

theorem down_withDown_cases (hn : n < nodes.size)
    (hd : ((withDown nodes n cb).get m).down = some d) :
    (m = n ∧ d = nodes.size) ∨ (m ≠ nodes.size ∧ (nodes.get m).down = some d) := by
  by_cases hmn : m = n
  · rw [hmn, down_withDown hn, some.injEq] at hd
    exact inl ⟨hmn, hd.symm⟩
  by_cases hm : m = nodes.size
  · rw [hm, get_withDown_size hn] at hd
    cases hd
  · rw [down_withDown_of_ne cb hm hmn] at hd
    exact inr ⟨hm, hd⟩

def downLevel (nodes : Store TopologicNode) (level : Nat → Nat) (n m : Nat) : Nat :=
  if m = nodes.size then level n + 1 else level m

theorem grows_withDown (hn : n < nodes.size) (hw : (nodes.get n).down = none) (cb : Bool) (level :
    Nat → Nat) : Grows nodes (withDown nodes n cb) level (downLevel nodes level n) where
  size_le := by rw [size_withDown]; exact le_succ _
  key hm := get_withDown_of_ne _ _ _ key (fun _ _ => rfl) hm.ne
  callBase hm := get_withDown_of_ne _ _ _ isCallBase (fun _ _ => rfl) hm.ne
  level_eq hm := if_neg hm.ne
  next hx := TransGen.single ((next_withDown hn).2 hx)
  down {m d} hd := by
    have hm := ne_size_of_down hd
    have hmn : m ≠ n := by
      rintro rfl
      rw [hw] at hd
      cases hd
    rw [down_withDown_of_ne cb hm hmn, hd]
  states m := by
    by_cases hm : m = nodes.size
    · rw [hm, get_withDown_size hn, get_of_le _ le_rfl]
      rfl
    · exact get_withDown_of_ne _ _ _ states (fun _ _ => rfl) hm

variable (h : Graded nodes level) (hn : n < nodes.size) (cb : Bool)
include h hn cb
theorem Graded.withDown : Graded (withDown nodes n cb) (downLevel nodes level n) where
  next_lt hx := by
    rw [size_withDown]
    exact (h.next_lt ((next_withDown hn).1 hx)).trans (lt_succ_self _)
  next_key {a b} hx := by
    have ho := (next_withDown hn).1 hx
    have ha := ho.ne_size
    rw [get_withDown_of_ne _ _ _ key (fun _ _ => rfl) ha,
      get_withDown_of_ne _ _ _ key (fun _ _ => rfl) (h.next_lt ho).ne]
    exact h.next_key ho
  next_callBase {a b} hx := by
    have ho := (next_withDown hn).1 hx
    have ha := ho.ne_size
    rw [get_withDown_of_ne _ _ _ isCallBase (fun _ _ => rfl) ha,
      get_withDown_of_ne _ _ _ isCallBase (fun _ _ => rfl) (h.next_lt ho).ne]
    exact h.next_callBase ho
  next_level {a b} hx := by
    have ho := (next_withDown hn).1 hx
    have ha := ho.ne_size
    rw [downLevel, downLevel, if_neg ha, if_neg (h.next_lt ho).ne]
    exact h.next_level ho
  down_lt hd := by
    rw [size_withDown]
    obtain ⟨-, rfl⟩ | ⟨-, ho⟩ := down_withDown_cases hn hd
    · exact lt_succ_self _
    · exact (h.down_lt ho).trans (lt_succ_self _)
  down_key hd := by
    obtain ⟨-, rfl⟩ | ⟨-, ho⟩ := down_withDown_cases hn hd
    · rw [get_withDown_size hn]
      rfl
    · rw [get_withDown_of_ne _ _ _ key (fun _ _ => rfl) (h.down_lt ho).ne]
      exact h.down_key ho
  down_level hd := by
    obtain ⟨rfl, rfl⟩ | ⟨hm, ho⟩ := down_withDown_cases hn hd
    · rw [downLevel, downLevel, if_pos rfl, if_neg hn.ne]
    · rw [downLevel, downLevel, if_neg hm, if_neg (h.down_lt ho).ne, h.down_level ho]

theorem getDown_spec : ∃ level', Grows nodes (getDown nodes n cb).2 level level' ∧
      Graded (getDown nodes n cb).2 level' ∧
      ((getDown nodes n cb).2.get n).down = some (getDown nodes n cb).1 ∧
      (((nodes.get n).down = some (getDown nodes n cb).1 ∧ (getDown nodes n cb).2 = nodes) ∨
        ((nodes.get n).down = none ∧
          ((getDown nodes n cb).2.get (getDown nodes n cb).1).isCallBase = cb)) := by
  cases hd : (nodes.get n).down with
  | some d =>
    have hg : getDown nodes n cb = (d, nodes) := by rw [getDown, hd]
    rw [hg]
    exact ⟨level, Grows.refl _ _, h, hd, inl ⟨rfl, rfl⟩⟩
  | none =>
    have hg : getDown nodes n cb = (nodes.size, withDown nodes n cb) := by rw [getDown, hd]; rfl
    rw [hg]
    refine ⟨downLevel nodes level n, grows_withDown hn hd cb level, h.withDown hn cb,
      down_withDown hn cb, inr ⟨rfl, ?_⟩⟩
    rw [get_withDown_size hn]
    rfl

end

structure Found (nodes : Store TopologicNode) (level : Nat → Nat) (n : Nat) (k : Int ×ₗ Int)
    (r : Nat × Store TopologicNode) (level' : Nat → Nat) : Prop where
  grows : Grows nodes r.2 level level'
  graded : Graded r.2 level'
  behind : TransGen (Next r.2) n r.1
  key : (r.2.get r.1).key = k

theorem lt_toLex_iff (n : TopologicNode) (bb ci : Int) :
    n.key < toLex (bb, ci) ↔ bb > n.basicBlock ∨ bb = n.basicBlock ∧ ci > n.callIndex := by
  rw [key, Prod.Lex.toLex_lt_toLex]
  exact or_congr_right (and_congr_left' eq_comm)

theorem toLex_lt_iff (n : TopologicNode) (bb ci : Int) :
    toLex (bb, ci) < n.key ↔ bb < n.basicBlock ∨ bb = n.basicBlock ∧ ci < n.callIndex := by
  rw [key, Prod.Lex.toLex_lt_toLex]

theorem Inserted.found (h : Inserted nodes nodes' previous node) (hg : Graded nodes level)
    (hp : previous < nodes.size) (hk : (nodes.get previous).key < node.key)
    (hcb : (nodes.get previous).isCallBase = node.isCallBase)
    (hx : ∀ n, Next nodes previous n → node.key < (nodes.get n).key) :
    ∃ level', Found nodes level previous node.key (nodes.size, nodes') level' :=
  ⟨_, h.grows hp level, h.graded hg hp hk hcb hx, TransGen.single h.next_previous, h.new_key⟩

theorem getNextFrom_spec (h : Graded nodes level) (hp : previous < nodes.size)
    (hk : (nodes.get previous).key < toLex (bb, ci)) (hfu : later nodes previous < fuel) :
    ∃ r level', getNextFrom bb ci (nodes.get previous).isCallBase nodes fuel previous = .ok r ∧
      Found nodes level previous (toLex (bb, ci)) r level' := by
  induction fuel generalizing previous with
  | zero => exact absurd hfu (Nat.not_lt_zero _)
  | succ fuel ih =>
    have hi := inserted_modify nodes hp bb ci (nodes.get previous).isCallBase
    rw [getNextFrom]
    cases hx : (nodes.get previous).next with
    | none =>
      rw [hx] at hi
      obtain ⟨level', hf⟩ := hi.found h hp hk rfl fun n hn => by
        rw [Next, hx] at hn
        cases hn
      exact ⟨_, level', rfl, hf⟩
    | some current =>
      rw [hx] at hi
      simp only
      split_ifs with heq hlt
      · refine ⟨_, level, rfl, Grows.refl _ _, h, TransGen.single hx, ?_⟩
        rw [key, heq.1, heq.2]
      · rw [← toLex_lt_iff] at hlt
        obtain ⟨level', hf⟩ := (hi.setParent current nodes.size).found h hp hk
          rfl fun n hn => by
            rw [Next, hx, some.injEq] at hn
            rw [← hn]
            exact hlt
        exact ⟨_, level', rfl, hf⟩
      · have hc : (nodes.get current).key < toLex (bb, ci) := by
          refine lt_of_le_of_ne (not_lt.1 (mt (toLex_lt_iff _ _ _).1 hlt)) ?_
          intro hcon
          rw [key, toLex.injective.eq_iff, Prod.mk.injEq] at hcon
          exact heq ⟨hcon.1.symm, hcon.2.symm⟩
        have hl := later_lt h hx
        obtain ⟨r, level', hr, hf⟩ := ih (h.next_lt hx) hc (by omega)
        rw [h.next_callBase hx] at hr
        refine ⟨r, level', hr, hf.grows, hf.graded, ?_, hf.key⟩
        exact (hf.grows.next hx).trans hf.behind

/-- Behind a node there is a place with a larger key. -/
theorem getNext_spec (h : Graded nodes level) (hn : n < nodes.size)
    (hk : (nodes.get n).key < toLex (bb, ci)) :
    ∃ r level', getNext nodes n bb ci = .ok r ∧ Found nodes level n (toLex (bb, ci)) r level' := by
  rw [getNext, if_pos ((lt_toLex_iff _ _ _).1 hk)]
  exact getNextFrom_spec h hn hk (lt_succ_of_le (later_le nodes n))

theorem getNext_notAfter (hk : ¬(nodes.get n).key < toLex (bb, ci)) :
    getNext nodes n bb ci = .error .notAfter := by
  rw [getNext, if_neg (mt (lt_toLex_iff _ _ _).2 hk)]

end TopologicNode
end Chef
