import Mathlib.Data.List.Basic
import Mathlib.Order.Nat

namespace Foundations
open List
inductive LogEntry (α : Type) where
  | fork (parent child : Nat)
  | data (id : Nat) (items : List α)

namespace LogEntry
def addContents (c : Nat → List α) : LogEntry α → Nat → List α
  | .fork parent child, i => if i = child then c parent else c i
  | .data id items, i => if i = id then c i ++ items else c i

def contents (es : List (LogEntry α)) : Nat → List α := es.foldl addContents fun _ => []

def addPath (paths : Nat → List Nat) : LogEntry α → Nat → List Nat
  | .fork parent child, i => if i = child then paths parent ++ [child] else paths i
  | .data _ _, i => paths i

def paths (es : List (LogEntry α)) : Nat → List Nat := es.foldl addPath fun _ => []

/-- A step of reading: `roots` are the streams still to be read. -/
def replayStep (s : List Nat × List α) : LogEntry α → List Nat × List α
  | .fork parent child =>
    match s.1 with
    | root :: next :: rest => if parent = root ∧ child = next then (next :: rest, s.2) else s
    | _ => s
  | .data id items => if s.1.head? = some id then (s.1, s.2 ++ items) else s

def addParent (parents : List (Nat × Nat)) : LogEntry α → List (Nat × Nat)
  | .fork parent child =>
    if (parents.lookup child).isSome then parents else (child, parent) :: parents
  | .data _ _ => parents

/-- Streams are numbered from one on, and used when there. -/
inductive Valid : List (LogEntry α) → Nat → Prop where
  | nil : Valid [] 1
  | fork : Valid es n → parent < n → Valid (es ++ [.fork parent n]) (n + 1)
  | data {es : List (LogEntry α)} {n id : Nat} {items : List α} : Valid es n → 0 < id → id < n →
      Valid (es ++ [.data id items]) n

variable {es : List (LogEntry α)}
theorem contents_concat (es : List (LogEntry α)) (e : LogEntry α) :
    contents (es ++ [e]) = addContents (contents es) e := by
  rw [contents, foldl_append]
  rfl

theorem paths_concat (es : List (LogEntry α)) (e : LogEntry α) :
    paths (es ++ [e]) = addPath (paths es) e := by
  rw [paths, foldl_append]
  rfl

variable (h : Valid es n)
include h
theorem Valid.pos : 0 < n := by
  induction h with
  | nil => exact Nat.one_pos
  | fork => exact Nat.succ_pos _
  | data _ _ _ ih => exact ih

theorem Valid.contents_zero : contents es 0 = [] := by
  induction h with
  | nil => rfl
  | fork hes _ ih => rw [contents_concat, addContents, if_neg hes.pos.ne, ih]
  | data _ hid _ ih => rw [contents_concat, addContents, if_neg hid.ne, ih]

theorem Valid.paths_zero : paths es 0 = [] := by
  induction h with
  | nil => rfl
  | fork hes _ ih => rw [paths_concat, addPath, if_neg hes.pos.ne, ih]
  | data _ _ _ ih => rw [paths_concat, addPath, ih]

theorem Valid.child_lt (hm : .fork parent child ∈ es) : child < n := by
  induction h with
  | nil => exact absurd hm not_mem_nil
  | fork _ _ ih =>
    rw [mem_append, mem_singleton] at hm
    obtain hm | hm := hm
    · exact (ih hm).trans (Nat.lt_succ_self _)
    · cases hm
      exact Nat.lt_succ_self _
  | data _ _ _ ih =>
    rw [mem_append, mem_singleton] at hm
    obtain hm | hm := hm
    · exact ih hm
    · cases hm

theorem Valid.forked (hpos : 0 < s) (hlt : s < n) :
    ∃ pre parent post, es = pre ++ .fork parent s :: post ∧ Valid pre s ∧ parent < s ∧
      paths es s = paths pre parent ++ [s] := by
  induction h with
  | nil => omega
  | @fork es n parent hes hpa ih =>
    obtain hs | hs := Nat.lt_succ_iff_lt_or_eq.1 hlt
    · obtain ⟨pre, p, post, rfl, hr, hp, ht⟩ := ih hs
      refine ⟨pre, p, post ++ [.fork parent n], ?_, hr, hp, ?_⟩
      · rw [append_assoc, cons_append]
      · rw [paths_concat, addPath, if_neg hs.ne, ht]
    · subst hs
      refine ⟨es, parent, [], rfl, hes, hpa, ?_⟩
      rw [paths_concat, addPath, if_pos rfl]
  | @data es n id items hes _ _ ih =>
    obtain ⟨pre, p, post, rfl, hr, hp, ht⟩ := ih hlt
    refine ⟨pre, p, post ++ [.data id items], ?_, hr, hp, ?_⟩
    · rw [append_assoc, cons_append]
    · rw [paths_concat, addPath, ht]

theorem Valid.parents : (es.foldl addParent []).length + 1 = n ∧
      (∀ i, n ≤ i → (es.foldl addParent []).lookup i = none) ∧
      ∀ i, 0 < i → i < n → ∃ parent < i, (es.foldl addParent []).lookup i = some parent ∧
        paths es i = paths es parent ++ [i] := by
  induction h with
  | nil =>
    refine ⟨rfl, fun _ _ => rfl, ?_⟩
    intro i hpos hlt
    omega
  | @fork es n parent hes hr ih =>
    obtain ⟨hn, hno, hs⟩ := ih
    have ha : (es ++ [LogEntry.fork parent n]).foldl addParent [] =
        (n, parent) :: es.foldl addParent [] := by
      rw [foldl_append, foldl_cons, foldl_nil, addParent, hno n le_rfl]
      rfl
    rw [ha]
    refine ⟨by rw [length_cons, hn], ?_, ?_⟩
    · intro i hi
      rw [lookup_cons, beq_false_of_ne (by omega)]
      exact hno i (by omega)
    intro i hpos hlt
    rw [lookup_cons, paths_concat]
    by_cases hi : i = n
    · subst hi
      refine ⟨parent, hr, by rw [beq_self_eq_true], ?_⟩
      rw [addPath, addPath, if_pos rfl, if_neg hr.ne]
    · obtain ⟨p, hp, hl, ht⟩ := hs i hpos (by omega)
      refine ⟨p, hp, by rw [beq_false_of_ne hi]; exact hl, ?_⟩
      rw [addPath, addPath, if_neg hi, if_neg (by omega), ht]
  | @data es n id items hes _ _ ih =>
    rw [foldl_append, foldl_cons, foldl_nil, addParent, paths_concat]
    exact ih

theorem Valid.replay_unopened (hr : ∀ i ∈ roots, n ≤ i) :
    es.foldl replayStep (roots, ([] : List α)) = (roots, []) := by
  induction h with
  | nil => rfl
  | @fork es n parent hes hp ih =>
    rw [foldl_append, ih fun i hi => (Nat.le_succ _).trans (hr i hi), foldl_cons,
      foldl_nil, replayStep]
    split
    next root next rest heq =>
      simp only at heq
      have hro := hr root (by rw [heq]; exact mem_cons_self)
      rw [if_neg]
      omega
    · rfl
  | @data es n id items hes hs hlt ih =>
    rw [foldl_append, ih hr, foldl_cons, foldl_nil, replayStep, if_neg]
    intro hhd
    exact absurd (hr id (mem_of_mem_head? hhd)) (Nat.not_le.2 hlt)

theorem Valid.replay_path (hp : 0 < s) (hlt : s < n) (hext : ∀ i ∈ ext, n ≤ i) :
    es.foldl replayStep (paths es s ++ ext, ([] : List α)) = (s :: ext, contents es s) := by
  induction h generalizing s ext with
  | nil => omega
  | @fork es n parent hes hr ih =>
    have het : ∀ i ∈ ext, n ≤ i := fun i hi => (Nat.le_succ _).trans (hext i hi)
    rw [foldl_append, paths_concat, contents_concat, addPath, addContents, foldl_cons, foldl_nil]
    by_cases hs : s = n
    · subst hs
      rw [if_pos rfl, if_pos rfl, append_assoc, singleton_append]
      by_cases hz : parent = 0
      · subst hz
        rw [hes.paths_zero, hes.contents_zero, nil_append,
          hes.replay_unopened (forall_mem_cons.2 ⟨le_rfl, het⟩), replayStep]
        split
        next root next rest heq =>
          cases heq
          rw [if_neg]
          omega
        · rfl
      · rw [ih (Nat.pos_of_ne_zero hz) hr (forall_mem_cons.2 ⟨le_rfl, het⟩), replayStep]
        exact if_pos ⟨rfl, rfl⟩
    · rw [if_neg hs, if_neg hs, ih hp (by omega) het, replayStep]
      split
      next root next rest heq =>
        cases heq
        have hn := hext next mem_cons_self
        rw [if_neg]
        omega
      · rfl
  | @data es n id items hes hid _ ih =>
    rw [foldl_append, paths_concat, contents_concat, addPath, addContents,
      ih hp hlt hext, foldl_cons, foldl_nil, replayStep]
    by_cases hs : s = id
    · rw [if_pos hs]
      exact if_pos (congrArg some hs)
    · rw [if_neg hs]
      exact if_neg fun h => hs (Option.some.inj h)

end LogEntry
end Foundations
