import Mathlib.Algebra.Order.Group.Nat
import Chef.Foundations.Loops

namespace Chef
open Function Foundations Nat
/-- A pointer to a cache is its name, under which `m_caches` holds it. -/
structure Cache where
  associativity : Nat
  indexShift : Nat
  setShift : Nat
  lines : List Nat
  upperCache : Option String

namespace Cache
def lineSize (c : Cache) : Nat := 2 ^ c.indexShift

/-- The shifting loop from place `i` of the set at `l`, and the tag at the first place. -/
def install (l i tag : Nat) (lines : List Nat) : List Nat :=
  ((List.range' 1 i).reverse.foldl (fun lines j => lines.set (l + j) (lines.getD (l + j - 1) 0))
    lines).set l tag

theorem lineSize_sub_lt {c : Cache} {size : Nat}
    (h : address >>> c.indexShift ≠ (address + (size - 1)) >>> c.indexShift) :
    c.lineSize - address % c.lineSize < size := by
  rw [shiftRight_eq_div_pow, shiftRight_eq_div_pow] at h
  by_contra hle
  have hm := mod_lt address (Nat.two_pow_pos c.indexShift)
  rw [lineSize] at hle
  rw [Nat.add_div (Nat.two_pow_pos _), if_neg, div_eq_of_lt (a := size - 1)] at h
  · exact h rfl
  · omega
  · rw [mod_eq_of_lt (a := size - 1)] <;> omega

/-- `misCount` is the whole array, and `level` the place that the source's pointer is at. -/
def access (n : String) (address size level misCountSize : Nat) (misCount : List Nat)
    (caches : String → Cache) : Option (List Nat × (String → Cache)) :=
  let c := caches n
  let s1 := address >>> c.indexShift
  if _h : s1 ≠ (address + (size - 1)) >>> c.indexShift then
    let size1 := c.lineSize - address % c.lineSize
    (access n address size1 level misCountSize misCount caches).bind fun r =>
      access n (address - address % c.lineSize + c.lineSize) (size - size1) level misCountSize
        r.1 r.2
  else
    let l := s1 % 2 ^ c.setShift * c.associativity
    let tag := address >>> (c.setShift + c.indexShift)
    match (List.range c.associativity).find? fun i => c.lines[l + i]? == some tag with
    | some i => some (misCount, update caches n { c with lines := install l i tag c.lines })
    | none =>
      let misCount := misCount.modify level (· + 1)
      let caches := update caches n { c with lines := install l (c.associativity - 1) tag c.lines }
      match c.upperCache with
      | none => some (misCount, caches)
      | some u =>
        if 1 < misCountSize then
          access u address size (level + 1) (misCountSize - 1) misCount caches
        else none
termination_by (misCountSize, size)
decreasing_by
  · exact Prod.Lex.right _ (lineSize_sub_lt _h)
  · have hlt := lineSize_sub_lt _h
    have hmod := mod_lt address (Nat.two_pow_pos (caches n).indexShift)
    apply Prod.Lex.right
    rw [Cache.lineSize] at hlt ⊢
    omega
  · apply Prod.Lex.left
    omega

end Cache

structure CacheSimState where
  names : List String
  caches : String → Cache
  i1 : String
  d1 : String
  i1Length : Nat
  d1Length : Nat

namespace CacheSimState
def onMemoryAccess (isCode : Bool) (address size : Nat) (s : CacheSimState) :
    Option (List Nat × CacheSimState) := do
  let length := if isCode then s.i1Length else s.d1Length
  let (misCount, caches) ← Cache.access (if isCode then s.i1 else s.d1) address size 0 length
    (.replicate length 0) s.caches
  return (misCount, { s with caches })

/-- The miss counts of a run of accesses; no result if an assertion fails. -/
def run : List (Bool × Nat × Nat) → CacheSimState → Option (List (List Nat))
  | [], _ => some []
  | (isCode, address, size) :: rest, s => do
    let (misCount, s) ← s.onMemoryAccess isCode address size
    return misCount :: (← run rest s)

def setUpperCache (s : CacheSimState) (caches : String → Cache) (n : String) :
    Option (String → Cache) :=
  match (s.caches n).upperCache with
  | none => some caches
  | some u =>
    if u ∈ s.names then some (update caches u { caches u with upperCache := some u }) else none

def clone (s : CacheSimState) : Option CacheSimState := do
  let caches ← s.names.foldlM s.setUpperCache fun n => { s.caches n with upperCache := none }
  if s.d1 ∈ s.names ∧ s.i1 ∈ s.names then some { s with caches } else none

def ClonesRight (s : CacheSimState) : Prop :=
  ∃ t, s.clone = some t ∧ (∀ n, (t.caches n).upperCache = (s.caches n).upperCache) ∧
    ∀ accesses, t.run accesses = s.run accesses

end CacheSimState

/-- The upper caches are caches of the state, and no chain of them returns. -/
structure CacheHierarchy extends CacheSimState where
  closed : (caches n).upperCache = some u → n ∈ names ∧ u ∈ names
  acyclic : ∃ rank : String → Nat, ∀ n u, (caches n).upperCache = some u → rank u < rank n
  configured : d1 ∈ names ∧ i1 ∈ names

namespace CacheHierarchy
open CacheSimState
theorem setUpperCache_spec (s : CacheHierarchy) (caches : String → Cache) (n : String) :
    ∃ caches', s.setUpperCache caches n = some caches' ∧ ∀ u, (caches' u).upperCache =
      if (s.caches n).upperCache = some u then some u else (caches u).upperCache := by
  rw [setUpperCache]
  cases hn : (s.caches n).upperCache with
  | none => exact ⟨caches, rfl, fun _ => rfl⟩
  | some v =>
    refine ⟨_, if_pos (s.closed hn).2, fun u => ?_⟩
    grind

theorem clone_spec (s : CacheHierarchy) : ∃ t, s.clone = some t ∧
    ∀ n u, (s.caches n).upperCache = some u → (t.caches u).upperCache = some u := by
  obtain ⟨caches, hfo, hse⟩ := foldlM_some (f := s.setUpperCache) (l := s.names)
    (x := fun n => { s.caches n with upperCache := none })
    (fun done caches => ∀ n ∈ done, ∀ u, (s.caches n).upperCache = some u →
      (caches u).upperCache = some u) nofun fun _ n _ caches _ hd => by
    obtain ⟨caches', hs, hp⟩ := s.setUpperCache_spec caches n
    refine ⟨caches', hs, ?_⟩
    grind
  refine ⟨{ s.toCacheSimState with caches }, ?_, fun n u hu => hse n (s.closed hu).1 u hu⟩
  rw [clone, hfo]
  exact if_pos s.configured

theorem clone_right_iff (s : CacheHierarchy) :
    s.ClonesRight ↔ ∀ n, (s.caches n).upperCache = none := by
  constructor
  · rintro ⟨t, ht, hli, -⟩ n
    obtain ⟨t', ht', hse⟩ := s.clone_spec
    cases ht.symm.trans ht'
    obtain ⟨rank, hr⟩ := s.acyclic
    by_contra hne
    obtain ⟨u, hu⟩ := Option.ne_none_iff_exists'.1 hne
    have hlp := hse n u hu
    rw [hli u] at hlp
    exact Nat.lt_irrefl _ (hr u u hlp)
  · intro h
    refine ⟨s.toCacheSimState, ?_, fun _ => rfl, fun _ => rfl⟩
    have hs : s.setUpperCache = fun caches _ => some caches := by
      funext caches n
      rw [setUpperCache, h n]
    have hcp : (fun n => { s.caches n with upperCache := none }) = s.caches := by
      funext n
      rw [← h n]
    have hfo : s.names.foldlM s.setUpperCache s.caches = some s.caches := by
      rw [hs]
      exact List.foldlM_pure.trans (by simp)
    rw [clone, hcp, hfo]
    exact if_pos s.configured

def twoLevels : CacheHierarchy where
  names := ["l1", "l2"]
  caches n := ⟨1, 6, 0, [2 ^ 64 - 1], if n = "l1" then some "l2" else none⟩
  i1 := "l1"
  d1 := "l1"
  i1Length := 2
  d1Length := 2
  closed := by grind
  acyclic := ⟨fun n => if n = "l1" then 1 else 0, by grind⟩
  configured := by decide

/-- In the clone the second level is its own upper cache, and the first has none. -/
theorem twoLevels_cloned : twoLevels.run [(false, 0, 1)] = some [[1, 1]] ∧
    twoLevels.clone.bind (run [(false, 0, 1)]) = some [[1, 0]] := by
  constructor
  · simp [run, onMemoryAccess, Cache.access, twoLevels]
  have hc : twoLevels.clone = some { twoLevels.toCacheSimState with
      caches n := ⟨1, 6, 0, [2 ^ 64 - 1], if n = "l2" then some "l2" else none⟩ } := by
    simp [clone, setUpperCache, twoLevels]
    grind
  rw [hc, Option.bind_some, run, onMemoryAccess, Cache.access]
  simp [twoLevels, run]

end CacheHierarchy
end Chef
