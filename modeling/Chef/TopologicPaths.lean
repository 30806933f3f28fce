import Mathlib.Data.List.Lex
import Chef.TopologicFrame
import Chef.TopologicOrder

namespace Chef
open Foundations Relation List TopologicNode Store
namespace TopologicNode
inductive Path (nodes : Store TopologicNode) (level : Nat → Nat) : List Nat → Prop where
  | root : r < nodes.size → level r = 0 → (nodes.get r).isCallBase = true → Path nodes level [r]
  | down : Path nodes level (a :: outer) → Below nodes a b → Path nodes level (b :: a :: outer)

structure SameLinks (nodes nodes' : Store TopologicNode) : Prop where
  size : nodes'.size = nodes.size
  node : ∀ m, { nodes'.get m with states := [] } = { nodes.get m with states := [] }

namespace SameLinks
variable {nodes nodes' : Store TopologicNode}
section
variable (h : SameLinks nodes nodes')
include h
theorem trans (h' : SameLinks nodes' nodes'') : SameLinks nodes nodes'' :=
  ⟨h'.size.trans h.size, fun m => (h'.node m).trans (h.node m)⟩

theorem proj (p : TopologicNode → β)
    (hp : ∀ (n : TopologicNode), p n = p { n with states := [] }) (m : Nat) :
    p (nodes'.get m) = p (nodes.get m) := by rw [hp, h.node m, ← hp]

theorem next : Next nodes' = Next nodes := by
  funext m n
  rw [Next, Next, h.proj TopologicNode.next fun _ => rfl]

theorem below : Below nodes' = Below nodes := by
  funext a b
  rw [Below, Below, h.next, h.proj down fun _ => rfl]

end

theorem modify (nodes : Store TopologicNode) (n : Nat) (f : List Nat → List Nat) :
    SameLinks nodes (nodes.modify n fun m => { m with states := f m.states }) where
  size := size_modify _ _ _
  node m := by
    rw [get_modify]
    split <;> rfl

theorem graded (h : SameLinks nodes nodes') (hg : Graded nodes level) : Graded nodes' level where
  next_lt hn := by
    rw [h.size]
    rw [h.next] at hn
    exact hg.next_lt hn
  next_key hn := by
    rw [h.next] at hn
    rw [h.proj key fun _ => rfl, h.proj key fun _ => rfl]
    exact hg.next_key hn
  next_callBase hn := by
    rw [h.next] at hn
    rw [h.proj isCallBase fun _ => rfl, h.proj isCallBase fun _ => rfl]
    exact hg.next_callBase hn
  next_level hn := by
    rw [h.next] at hn
    exact hg.next_level hn
  down_lt hd := by
    rw [h.size]
    rw [h.proj down fun _ => rfl] at hd
    exact hg.down_lt hd
  down_key hd := by
    rw [h.proj down fun _ => rfl] at hd
    rw [h.proj key fun _ => rfl]
    exact hg.down_key hd
  down_level hd := by
    rw [h.proj down fun _ => rfl] at hd
    exact hg.down_level hd

theorem path (h : SameLinks nodes nodes') (hp : Path nodes level ls) : Path nodes' level ls := by
  induction hp with
  | root hlt hlv hcb =>
    refine .root (h.size ▸ hlt) hlv ?_
    rw [h.proj isCallBase fun _ => rfl, hcb]
  | down _ hb ih => exact .down ih (h.below ▸ hb)

end SameLinks

namespace Path
variable {nodes nodes' : Store TopologicNode}
theorem ne_nil (h : Path nodes level ls) : ls ≠ [] := by
  cases h with
  | root | down => exact cons_ne_nil _ _

section
variable (h : Path nodes level (n :: outer)) (hg : Graded nodes level)
include h hg
theorem lt : n < nodes.size := by
  cases h with
  | root hlt => exact hlt
  | down _ hb => exact (hg.below hb).1

theorem level_eq : level n = outer.length := by
  generalize hls : n :: outer = ls at h
  induction h generalizing n outer with
  | root _ hlv =>
    cases hls
    exact hlv
  | down _ hb ih =>
    cases hls
    rw [(hg.below hb).2, ih rfl, length_cons]

end

theorem tail (h : Path nodes level (b :: a :: outer)) : Path nodes level (a :: outer) := by
  cases h with
  | down h _ => exact h

theorem suffix {inner : List Nat} (h : Path nodes level (inner ++ n :: outer)) :
    Path nodes level (n :: outer) := by
  induction inner with
  | nil => exact h
  | cons b inner ih =>
    apply ih
    cases inner <;> exact h.tail

theorem grows (h : Path nodes level ls) (hg : Grows nodes nodes' level level') :
    Path nodes' level' ls := by
  induction h with
  | root hlt hlv hcb =>
    exact .root (hlt.trans_le hg.size_le) ((hg.level_eq hlt).trans hlv)
      ((hg.callBase hlt).trans hcb)
  | down _ hb ih => exact .down ih (hg.below hb)

theorem next (h : Path nodes level (a :: outer)) (hg : Graded nodes level)
    (hn : TransGen (Next nodes) a b) : Path nodes level (b :: outer) := by
  obtain ⟨-, hlv, hcb⟩ := hg.reflTransGen hn.to_reflTransGen
  cases h with
  | root hlt hr hb => exact .root (hg.transGen_lt hn) (hlv.trans hr) (hcb.trans hb)
  | down h hl =>
    obtain ⟨d, hd, hch⟩ := hl
    exact .down h ⟨d, hd, hch.trans hn.to_reflTransGen⟩

theorem callBase (h : Path nodes level [n]) : (nodes.get n).isCallBase = true := by
  cases h with
  | root _ _ hcb => exact hcb

end Path

section
variable {nodes : Store TopologicNode}
theorem get_forget (nodes : Store TopologicNode) (n m : Nat) :
    (nodes.map (forget n)).get m = forget n (nodes.get m) :=
  get_map _ _ rfl _

theorem forgotten_iff {link : Option Nat} :
    (if link = some n then none else link) = some b ↔ link = some b ∧ b ≠ n := by
  by_cases h : link = some n
  · rw [if_pos h, h, Option.some.injEq]
    constructor
    · rintro ⟨⟩
    · rintro ⟨rfl, hne⟩
      exact absurd rfl hne
  · rw [if_neg h]
    refine ⟨?_, And.left⟩
    intro hb
    refine ⟨hb, ?_⟩
    rintro rfl
    exact h hb

theorem next_forget_iff : Next (nodes.map (forget n)) a b ↔ Next nodes a b ∧ b ≠ n := by
  rw [Next, Next, get_forget, forget]
  exact forgotten_iff

theorem down_forget_iff :
    ((nodes.map (forget n)).get a).down = some b ↔ (nodes.get a).down = some b ∧ b ≠ n := by
  rw [get_forget, forget]
  exact forgotten_iff

theorem Graded.forget (h : Graded nodes level) (n : Nat) : Graded (nodes.map (forget n)) level where
  next_lt hn := by
    rw [size_map]
    exact h.next_lt (next_forget_iff.1 hn).1
  next_key hn := by
    rw [get_forget, get_forget]
    exact h.next_key (next_forget_iff.1 hn).1
  next_callBase hn := by
    rw [get_forget, get_forget]
    exact h.next_callBase (next_forget_iff.1 hn).1
  next_level hn := h.next_level (next_forget_iff.1 hn).1
  down_lt hd := by
    rw [size_map]
    exact h.down_lt (down_forget_iff.1 hd).1
  down_key hd := by
    rw [get_forget]
    exact h.down_key (down_forget_iff.1 hd).1
  down_level hd := h.down_level (down_forget_iff.1 hd).1

theorem reflTransGen_forget (hla : (nodes.get n).next = none) (hb : b ≠ n)
    (h : ReflTransGen (Next nodes) a b) :
    a ≠ n ∧ ReflTransGen (Next (nodes.map (forget n))) a b := by
  induction h using ReflTransGen.head_induction_on with
  | refl => exact ⟨hb, .refl⟩
  | head hn _ ih =>
    refine ⟨?_, .head (next_forget_iff.2 ⟨hn, ih.1⟩) ih.2⟩
    rintro rfl
    rw [Next, hla] at hn
    cases hn

theorem Path.forget (h : Path nodes level ls) (hla : (nodes.get n).next = none) (hn : n ∉ ls) :
    Path (nodes.map (forget n)) level ls := by
  induction h with
  | root hlt hlv hcb =>
    refine .root ?_ hlv ?_
    · rw [size_map]
      exact hlt
    · rw [get_forget]
      exact hcb
  | down _ hl ih =>
    have hb := ne_of_not_mem_cons hn
    have ho := not_mem_of_not_mem_cons hn
    obtain ⟨d, hd, hch⟩ := hl
    obtain ⟨hne, hca⟩ := reflTransGen_forget hla (Ne.symm hb) hch
    exact .down (ih ho) ⟨d, down_forget_iff.2 ⟨hd, hne⟩, hca⟩

end

/-- A node comes before what is below it, and that before the rest. -/
def Precedes (nodes : Store TopologicNode) (index index' : TopologicIndex) : Prop :=
  List.Lex (TransGen (Next nodes)) index index'

theorem precedes_down (nodes : Store TopologicNode) (n : Nat) (ls : List Nat) :
    Precedes nodes ls.reverse (n :: ls).reverse := by
  have hl := List.Lex.append_left (TransGen (Next nodes)) (List.Lex.nil (a := n) (l := []))
    ls.reverse
  rwa [append_nil, ← reverse_cons] at hl

theorem precedes_next (h : TransGen (Next nodes) a b) (inner outer : List Nat) :
    Precedes nodes (inner ++ a :: outer).reverse (b :: outer).reverse := by
  rw [reverse_append, reverse_cons, reverse_cons, append_assoc]
  exact List.Lex.append_left _ (List.Lex.rel h) _

end TopologicNode
end Chef
