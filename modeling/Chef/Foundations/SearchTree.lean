import Mathlib.Data.List.Basic

namespace Foundations
open List Option
/-- Binary trees of values that are searched by a key. -/
inductive SearchTree (α : Type) where
  | nil
  | node (left : SearchTree α) (value : α) (right : SearchTree α)
  deriving DecidableEq

namespace SearchTree
def height : SearchTree α → Nat
  | .nil => 0
  | .node l _ r => max l.height r.height + 1

def toList : SearchTree α → List α
  | .nil => []
  | .node l v r => l.toList ++ v :: r.toList

/-- Subtrees that differ in height by three are rotated. -/
def balance (left : SearchTree α) (value : α) (right : SearchTree α) : SearchTree α :=
  if left.height > right.height + 2 then
    match left with
    | .nil => .node left value right
    | .node ll lv lr =>
      if ll.height ≥ lr.height then .node ll lv (.node lr value right)
      else
        match lr with
        | .nil => .node left value right
        | .node lrl lrv lrr => .node (.node ll lv lrl) lrv (.node lrr value right)
  else if right.height > left.height + 2 then
    match right with
    | .nil => .node left value right
    | .node rl rv rr =>
      if rr.height ≥ rl.height then .node (.node left value rl) rv rr
      else
        match rl with
        | .nil => .node left value right
        | .node rll rlv rlr => .node (.node left value rll) rlv (.node rlr rv rr)
  else .node left value right

def popMin : SearchTree α → α → SearchTree α → α × SearchTree α
  | .nil, v, r => (v, r)
  | .node ll lv lr, v, r => ((popMin ll lv lr).1, balance (popMin ll lv lr).2 v r)

def join : SearchTree α → SearchTree α → SearchTree α
  | .nil, r => r
  | .node ll lv lr, .nil => .node ll lv lr
  | .node ll lv lr, .node rl rv rr =>
    balance (.node ll lv lr) (popMin rl rv rr).1 (popMin rl rv rr).2

/-- The value with the condition nearest the root. -/
def highest (p : α → Bool) : SearchTree α → Option α
  | .nil => none
  | .node l v r => if p v then some v else (l.highest p).or (r.highest p)

section
variable (lt : κ → κ → Bool) (key : α → κ)
def same (k : κ) (x : α) : Bool := !lt k (key x) && !lt (key x) k

def replace (v : α) : SearchTree α → SearchTree α
  | .nil => .node .nil v .nil
  | .node l x r =>
    if lt (key v) (key x) then balance (l.replace v) x r
    else if lt (key x) (key v) then balance l x (r.replace v)
    else .node l v r

def remove (k : κ) : SearchTree α → SearchTree α
  | .nil => .nil
  | .node l x r =>
    if lt k (key x) then balance (l.remove k) x r
    else if lt (key x) k then balance l x (r.remove k)
    else join l r

/-- A value with the same key, or else the last lesser one. -/
def lookupPrevious (k : κ) (result : Option α) : SearchTree α → Option α
  | .nil => result
  | .node l x r =>
    if lt k (key x) then l.lookupPrevious k result
    else if lt (key x) k then r.lookupPrevious k (some x)
    else some x

/-- Keys are first less than a key, then the same, then greater. -/
def Cuts (k : κ) (l : List α) : Prop := l.Pairwise fun x y =>
    (lt k (key x) = true → lt k (key y) = true) ∧ (lt (key y) k = true → lt (key x) k = true)

end

section
variable (l : SearchTree α) (v : α) (r : SearchTree α)
include l v r
theorem toList_balance : (balance l v r).toList = l.toList ++ v :: r.toList := by
  rw [balance.eq_def]
  repeat' split
  all_goals simp only [toList, append_assoc, cons_append]

theorem toList_popMin :
    (popMin l v r).1 :: (popMin l v r).2.toList = l.toList ++ v :: r.toList := by
  induction l generalizing v r with
  | nil => rfl
  | node ll lv lr ihl ihr => rw [popMin, toList_balance, ← cons_append, ihl, toList]

end

theorem toList_join (l r : SearchTree α) : (join l r).toList = l.toList ++ r.toList := by
  cases l with
  | nil => rfl
  | node ll lv lr =>
    cases r with
    | nil => exact (append_nil _).symm
    | node rl rv rr => rw [join, toList_balance, toList_popMin, toList.eq_2 rl]

theorem mem_of_highest {t : SearchTree α} (h : t.highest p = some x) : x ∈ t.toList ∧ p x =
    true := by
  induction t with
  | nil => cases h
  | node l v r ihl ihr =>
    rw [highest] at h
    split at h
    next hv =>
      cases h
      exact ⟨mem_append_cons_self, hv⟩
    · rcases or_eq_some_iff.1 h with hl | ⟨_, hr⟩
      · exact ⟨mem_append_left _ (ihl hl).1, (ihl hl).2⟩
      · exact ⟨mem_append_right _ (mem_cons_of_mem _ (ihr hr).1), (ihr hr).2⟩

theorem highest_eq_none_iff {t : SearchTree α} :
    t.highest p = none ↔ ∀ x ∈ t.toList, ¬p x = true := by
  induction t with
  | nil => exact iff_of_true rfl (forall_mem_nil _)
  | node l v r ihl ihr =>
    rw [highest, toList, forall_mem_append, forall_mem_cons]
    split
    next hv => exact iff_of_false (some_ne_none v) fun h => h.2.1 hv
    next hv =>
      rw [or_eq_none_iff, ihl, ihr]
      exact ⟨fun h => ⟨h.1, hv, h.2⟩, fun h => ⟨h.1, h.2.2⟩⟩

variable {lt : κ → κ → Bool} {k : κ}
theorem Cuts.node (h : Cuts lt key k (l ++ v :: r)) :
    Cuts lt key k l ∧ Cuts lt key k r ∧ (∀ x ∈ l, lt (key v) k = true → lt (key x) k = true) ∧
      ∀ y ∈ r, lt k (key v) = true → lt k (key y) = true := by
  obtain ⟨hl, hr, hlr⟩ := pairwise_append.1 h
  obtain ⟨hv, hr⟩ := pairwise_cons.1 hr
  exact ⟨hl, hr, fun x hx => (hlr x hx v mem_cons_self).2, fun y hy => (hv y hy).1⟩

theorem not_same_of_lt (h : lt k (key x) = true) : ¬same lt key k x = true := by
  rw [same, h]
  exact Bool.false_ne_true

theorem not_same_of_gt (h : lt (key x) k = true) : ¬same lt key k x = true := by
  rw [same, h, Bool.not_true, Bool.and_false]
  exact Bool.false_ne_true

theorem same_of_not (h : ¬lt k (key x) = true) (h' : ¬lt (key x) k = true) :
    same lt key k x = true := by
  rw [Bool.not_eq_true] at h h'
  rw [same, h, h']
  rfl

theorem highest_node {l r : SearchTree α} (h : Cuts lt key k (SearchTree.node l v r).toList) :
    (SearchTree.node l v r).highest (same lt key k) =
      if lt k (key v) = true then l.highest (same lt key k)
      else if lt (key v) k = true then r.highest (same lt key k) else some v := by
  obtain ⟨_, _, hl, hr⟩ := h.node
  rw [highest]
  by_cases hlt : lt k (key v) = true
  · have ht : r.highest (same lt key k) = none :=
      highest_eq_none_iff.2 fun y hy => not_same_of_lt (hr y hy hlt)
    rw [if_neg (not_same_of_lt hlt), ht, or_none, if_pos hlt]
  by_cases hgt : lt (key v) k = true
  · have hf : l.highest (same lt key k) = none :=
      highest_eq_none_iff.2 fun x hx => not_same_of_gt (hl x hx hgt)
    rw [if_neg (not_same_of_gt hgt), hf, none_or, if_neg hlt, if_pos hgt]
  · rw [if_pos (same_of_not hlt hgt), if_neg hlt, if_neg hgt]

section
variable {t : SearchTree α}
theorem lookupPrevious_of_highest (hc : Cuts lt key k t.toList)
    (h : t.highest (same lt key k) = some x) : t.lookupPrevious lt key k result = some x := by
  induction t generalizing result with
  | nil => cases h
  | node l v r ihl ihr =>
    rw [highest_node hc] at h
    rw [lookupPrevious]
    split_ifs at h ⊢
    · exact ihl hc.node.1 h
    · exact ihr hc.node.2.1 h
    · exact h

theorem lookupPrevious_eq_none_iff (hc : Cuts lt key k t.toList) :
    t.lookupPrevious lt key k result = none ↔
      result = none ∧ ∀ x ∈ t.toList, lt k (key x) = true := by
  induction t generalizing result with
  | nil => exact (and_iff_left (forall_mem_nil _)).symm
  | node l v r ihl ihr =>
    obtain ⟨hl, hr, _, hm⟩ := hc.node
    rw [lookupPrevious, toList, forall_mem_append, forall_mem_cons]
    split
    next hlt =>
      rw [ihl hl]
      exact and_congr_right fun _ =>
        (and_iff_left (show _ ∧ _ from ⟨hlt, fun y hy => hm y hy hlt⟩)).symm
    next hlt =>
      refine iff_of_false ?_ fun h => hlt h.2.2.1
      split
      · rw [ihr hr]
        exact fun h => some_ne_none v h.1
      · exact some_ne_none v

theorem lookupPrevious_not_lt (h : t.lookupPrevious lt key k result = some x) :
    result = some x ∨ x ∈ t.toList ∧ ¬lt k (key x) = true := by
  induction t generalizing result with
  | nil => exact .inl h
  | node l v r ihl ihr =>
    rw [lookupPrevious] at h
    split at h
    · exact (ihl h).imp_right fun hx => ⟨mem_append_left _ hx.1, hx.2⟩
    next hlt =>
      have hv : v ∈ (SearchTree.node l v r).toList ∧ ¬lt k (key v) = true :=
        ⟨mem_append_cons_self, hlt⟩
      split at h
      · rcases ihr h with hr | hx
        · cases hr
          exact .inr hv
        · exact .inr ⟨mem_append_right _ (mem_cons_of_mem _ hx.1), hx.2⟩
      · cases h
        exact .inr hv

theorem lookupPrevious_less (hno : ∀ x ∈ t.toList, ¬same lt key k x = true)
    (h : t.lookupPrevious lt key k result = some x) :
    result = some x ∨ x ∈ t.toList ∧ lt (key x) k = true := by
  refine (lookupPrevious_not_lt h).imp_right fun hx => ⟨hx.1, ?_⟩
  by_contra hgt
  exact hno x hx.1 (same_of_not hx.2 hgt)

theorem toList_remove (hc : Cuts lt key k t.toList) (h : t.highest (same lt key k) = some x) :
    ∃ l r, t.toList = l ++ x :: r ∧ (t.remove lt key k).toList = l ++ r := by
  induction t with
  | nil => cases h
  | node tl v tr ihl ihr =>
    rw [highest_node hc] at h
    rw [remove]
    split_ifs at h ⊢
    · obtain ⟨l, r, heq, hr⟩ := ihl hc.node.1 h
      refine ⟨l, r ++ v :: tr.toList, ?_, ?_⟩
      · rw [toList, heq, append_assoc, cons_append]
      · rw [toList_balance, hr, append_assoc]
    · obtain ⟨l, r, heq, hr⟩ := ihr hc.node.2.1 h
      refine ⟨tl.toList ++ v :: l, r, ?_, ?_⟩
      · rw [toList, heq, append_assoc, cons_append]
      · rw [toList_balance, hr, append_assoc, cons_append]
    · cases h
      exact ⟨tl.toList, tr.toList, rfl, toList_join tl tr⟩

theorem toList_replace (hc : Cuts lt key (key v) t.toList)
    (hno : ∀ x ∈ t.toList, ¬same lt key (key v) x = true) :
    ∃ l r, t.toList = l ++ r ∧ (t.replace lt key v).toList = l ++ v :: r ∧
      (∀ x ∈ l, lt (key x) (key v) = true) ∧ ∀ x ∈ r, lt (key v) (key x) = true := by
  induction t with
  | nil => exact ⟨[], [], rfl, rfl, forall_mem_nil _, forall_mem_nil _⟩
  | node tl x tr ihl ihr =>
    obtain ⟨hcl, hcr, hl, hr⟩ := hc.node
    rw [toList, forall_mem_append, forall_mem_cons] at hno
    rw [replace]
    split_ifs with hlt hgt
    · obtain ⟨l, r, heq, hp, hs, hm⟩ := ihl hcl hno.1
      refine ⟨l, r ++ x :: tr.toList, ?_, ?_, hs, ?_⟩
      · rw [toList, heq, append_assoc]
      · rw [toList_balance, hp, append_assoc]
        rfl
      · exact forall_mem_append.2 ⟨hm, forall_mem_cons.2 ⟨hlt, fun y hy => hr y hy hlt⟩⟩
    · obtain ⟨l, r, heq, hp, hs, hm⟩ := ihr hcr hno.2.2
      refine ⟨tl.toList ++ x :: l, r, ?_, ?_, ?_, hm⟩
      · rw [toList, heq, append_assoc]
        rfl
      · rw [toList_balance, hp, append_assoc]
        rfl
      · exact forall_mem_append.2 ⟨fun y hy => hl y hy hgt, forall_mem_cons.2 ⟨hgt, hs⟩⟩
    · exact absurd (same_of_not hlt hgt) hno.2.1

end

theorem toList_remove_sublist (k : κ) (t : SearchTree α) :
    (t.remove lt key k).toList.Sublist t.toList := by
  induction t with
  | nil => exact List.Sublist.refl _
  | node l v r ihl ihr =>
    rw [remove]
    split_ifs
    · rw [toList_balance]
      exact ihl.append (List.Sublist.refl _)
    · rw [toList_balance]
      exact (List.Sublist.refl _).append (ihr.cons_cons v)
    · rw [toList_join]
      exact (List.Sublist.refl _).append (sublist_cons_self v _)

end SearchTree
end Foundations
