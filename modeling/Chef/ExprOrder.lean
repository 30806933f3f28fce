import Mathlib
import Chef.Foundations.KeyOrder
import Chef.SentLog

namespace Chef
open Foundations

def UpdateNode.getSize : UpdateNode → Nat
  | .null => 0
  | .node _ _ next => next.getSize + 1

/-- The names and addresses of the arrays, and the hash functions of names and constants. -/
structure ArrayObjects (ν : Type) where
  name : KArray → ν
  address : KArray → Nat
  address_injective : Function.Injective address
  hash : ν → BitVec 32
  hashValue : Nat → Nat → BitVec 32

namespace ArrayObjects

def computeHash (kind : ExprKind) (kids : List (BitVec 32)) : BitVec 32 :=
  kids.foldl (fun res kid => (res <<< 1) ^^^ (kid * 39)) (.ofNat 32 kind.number * 39)

variable (M : ArrayObjects ν)

mutual
def hashOf : Expr → BitVec 32
  | .constant w v => M.hashValue w v ^^^ .ofNat 32 w * 39
  | .notOptimized e => computeHash .notOptimized [hashOf e]
  | .read root head index => hashOf index * 39 ^^^ (M.hash (M.name root) ^^^ hashOfUpdates head)
  | .select c t f => computeHash .select [hashOf c, hashOf t, hashOf f]
  | .concat l r => computeHash .concat [hashOf l, hashOf r]
  | .extract e offset w => .ofNat 32 offset * 39 ^^^ .ofNat 32 w * 39 ^^^ hashOf e * 39
  | .zext e w | .sext e w => .ofNat 32 w * 39 ^^^ hashOf e * 39
  | .not e => hashOf e * 39 * .ofNat 32 ExprKind.not.number
  | .arithmetic kind l r => computeHash (.arithmetic kind) [hashOf l, hashOf r]
  | .compare kind l r => computeHash (.compare kind) [hashOf l, hashOf r]

def hashOfUpdates : UpdateNode → BitVec 32
  | .null => 0
  | .node index value next => hashOf index ^^^ hashOf value ^^^ hashOfUpdates next

end

/-- The objects at a position may be the same. -/
def compareObjects [DecidableEq α] (same : Bool) (a b : α) (res : Ordering) : Ordering :=
  if same = true ∧ a = b then .eq else res

def compareHead (a b : Expr) : Ordering :=
  (cmp a.getKind.number b.getKind.number).then (cmp (M.hashOf a).toNat (M.hashOf b).toNat)

variable [LinearOrder ν]

mutual
/-- The comparison of two expressions; `same` says at which positions objects are shared. -/
def compare (same : List Nat → Bool) (a b : Expr) : Ordering := compareObjects (same []) a b
    ((M.compareHead a b).then (compareKids (fun i p => same (i :: p)) a b))
termination_by (sizeOf a, 1)

def compareKids (same : Nat → List Nat → Bool) (a b : Expr) : Ordering :=
  match a, b with
  | .constant w v, .constant w' v' => (cmp w w').then (cmp v v')
  | .notOptimized e, .notOptimized e' => compare (same 0) e e'
  | .read root head index, .read root' head' index' =>
    ((cmp (M.name root) (M.name root')).then (cmp (M.address root) (M.address root'))).then
      (((cmp head.getSize head'.getSize).then (compareUpdates (same 1) head head')).then
        (compare (same 0) index index'))
  | .select c t f, .select c' t' f' =>
    (compare (same 0) c c').then ((compare (same 1) t t').then (compare (same 2) f f'))
  | .concat l r, .concat l' r' | .arithmetic _ l r, .arithmetic _ l' r'
  | .compare _ l r, .compare _ l' r' => (compare (same 0) l l').then (compare (same 1) r r')
  | .extract e offset w, .extract e' offset' w' =>
    (cmp offset offset').then ((cmp w w').then (compare (same 0) e e'))
  | .zext e w, .zext e' w' | .sext e w, .sext e' w' => (cmp w w').then (compare (same 0) e e')
  | .not e, .not e' => (compare (same 1) e e').then (compare (same 0) e e')
  | _, _ => .eq
termination_by (sizeOf a, 0)

def compareUpdates (same : List Nat → Bool) (an bn : UpdateNode) : Ordering :=
  match an, bn with
  | .node index value next, .node index' value' next' =>
    compareObjects (same []) (UpdateNode.node index value next) (.node index' value' next')
      (((compare (fun p => same (0 :: p)) index index').then
        (compare (fun p => same (1 :: p)) value value')).then
          (compareUpdates (fun p => same (2 :: p)) next next'))
  | _, _ => .eq
termination_by (sizeOf an, 0)

end

def item (n : Nat) : Lex (ν × Nat) := toLex (M.name ⟨0, 0, []⟩, n)

mutual
def key (e : Expr) : List (Lex (ν × Nat)) :=
  [M.item e.getKind.number] ++ [M.item (M.hashOf e).toNat] ++ kidsKey e
termination_by (sizeOf e, 1)

def kidsKey (e : Expr) : List (Lex (ν × Nat)) :=
  match e with
  | .constant w v => [M.item w] ++ [M.item v]
  | .notOptimized e => key e
  | .read root head index => [toLex (M.name root, M.address root)] ++
      ([M.item head.getSize] ++ updatesKey head ++ key index)
  | .select c t f => key c ++ (key t ++ key f)
  | .concat l r | .arithmetic _ l r | .compare _ l r => key l ++ key r
  | .extract e offset w => [M.item offset] ++ ([M.item w] ++ key e)
  | .zext e w | .sext e w => [M.item w] ++ key e
  | .not e => key e ++ key e
termination_by (sizeOf e, 0)

def updatesKey (un : UpdateNode) : List (Lex (ν × Nat)) :=
  match un with
  | .null => []
  | .node index value next => key index ++ key value ++ updatesKey next
termination_by (sizeOf un, 0)

end

variable {M}

theorem item_compares (m n : Nat) : Compares (cmp m n) [M.item m] [M.item n] (m = n) := by
  have h := Compares.pair (M.name ⟨0, 0, []⟩) (M.name ⟨0, 0, []⟩) m n
  rw [cmp_self_eq_eq] at h
  exact h.imp (·.2)

theorem compareObjects_compares [DecidableEq α] (f : α → List (Lex (ν × Nat)))
    (h : Compares o (f a) (f b) (a = b)) :
    Compares (compareObjects s a b o) (f a) (f b) (a = b) := by
  rw [compareObjects]
  split
  next hs =>
    obtain ⟨_, rfl⟩ := hs
    exact .refl _ rfl
  · exact h

mutual
theorem compare_compares (same : List Nat → Bool) (a b : Expr) :
    Compares (M.compare same a b) (M.key a) (M.key b) (a = b) := by
  rw [compare]
  apply compareObjects_compares
  rw [key, key]
  refine (((item_compares _ _).append fun _ => item_compares _ _).append fun h => ?_).imp (·.2)
  refine compareKids_compares _ a b (Option.some.inj ?_)
  rw [← ExprKind.ofNumber_number, h.1, ExprKind.ofNumber_number]
termination_by (sizeOf a, 1)

theorem compareKids_compares (same : Nat → List Nat → Bool) (a b : Expr)
    (h : a.getKind = b.getKind) :
    Compares (M.compareKids same a b) (M.kidsKey a) (M.kidsKey b) (a = b) := by
  cases a <;> cases b <;> cases h <;> rw [compareKids, kidsKey, kidsKey]
  case constant =>
    exact ((item_compares _ _).append fun _ => item_compares _ _).imp (by rintro ⟨rfl, rfl⟩; rfl)
  case notOptimized => exact (compare_compares _ _ _).imp (by rintro rfl; rfl)
  case read =>
    exact ((Compares.pair _ _ _ _).append fun _ => (((item_compares _ _).append
      (compareUpdates_compares _ _ _)).append fun _ => compare_compares _ _ _)).imp
        (by rintro ⟨⟨_, hr⟩, ⟨_, rfl⟩, rfl⟩; rw [M.address_injective hr])
  case select =>
    exact ((compare_compares _ _ _).append fun _ => (compare_compares _ _ _).append fun _ =>
      compare_compares _ _ _).imp (by rintro ⟨rfl, rfl, rfl⟩; rfl)
  case concat | arithmetic | compare =>
    exact ((compare_compares _ _ _).append fun _ => compare_compares _ _ _).imp
      (by rintro ⟨rfl, rfl⟩; rfl)
  case extract =>
    exact ((item_compares _ _).append fun _ => (item_compares _ _).append fun _ =>
      compare_compares _ _ _).imp (by rintro ⟨rfl, rfl, rfl⟩; rfl)
  case zext | sext =>
    exact ((item_compares _ _).append fun _ => compare_compares _ _ _).imp
      (by rintro ⟨rfl, rfl⟩; rfl)
  case not =>
    exact ((compare_compares _ _ _).append fun _ => compare_compares _ _ _).imp
      (by rintro ⟨rfl, _⟩; rfl)
termination_by (sizeOf a, 0)

theorem compareUpdates_compares (same : List Nat → Bool) (an bn : UpdateNode)
    (h : an.getSize = bn.getSize) :
    Compares (M.compareUpdates same an bn) (M.updatesKey an) (M.updatesKey bn) (an = bn) := by
  cases an with
  | null =>
    cases bn with
    | null =>
      rw [compareUpdates.eq_def]
      exact .refl _ rfl
    | node index value next => cases h
  | node index value next =>
    cases bn with
    | null => cases h
    | node index' value' next' =>
      rw [compareUpdates]
      apply compareObjects_compares
      rw [updatesKey, updatesKey]
      exact (((compare_compares _ index _).append fun _ => compare_compares _ value _).append
        fun _ => compareUpdates_compares _ next _ (Nat.succ.inj h)).imp
          (by rintro ⟨⟨rfl, rfl⟩, rfl⟩; rfl)
termination_by (sizeOf an, 0)

end

/-- The comparison is a total order, whatever objects are shared. -/
theorem compare_order (M : ArrayObjects ν) : (∀ same a b, M.compare same a b = .eq ↔ a = b) ∧
    (∀ same same' a b, M.compare same b a = (M.compare same' a b).swap) ∧
    (∀ same same' a b, M.compare same a b = M.compare same' a b) ∧
    (∀ same same' same'' a b c, M.compare same a b = .lt → M.compare same' b c = .lt →
      M.compare same'' a c = .lt) ∧
    ∀ same a b, M.compare same a b = .eq → M.hashOf a = M.hashOf b := by
  have hs (same same' : List Nat → Bool) (a b : Expr) :
      M.compare same b a = (M.compare same' a b).swap :=
    (compare_compares same' a b).swap (compare_compares same b a)
  refine ⟨fun same a b => ⟨(compare_compares same a b).eq, ?_⟩, hs, fun same same' a b => ?_,
    fun same same' same'' a b c hab hbc => ?_, fun same a b h => ?_⟩
  · rintro rfl
    have := hs same same a a
    generalize M.compare same a a = o at this
    cases o <;> first | rfl | cases this
  · rw [hs same same b a, hs same' same b a]
  · have h := compare_compares (M := M) same a b
    have h' := compare_compares (M := M) same' b c
    rw [hab] at h
    rw [hbc] at h'
    exact h.trans h' (compare_compares same'' a c)
  · rw [(compare_compares same a b).eq h]

/-- Arrays with their numbers as names, at addresses that encode them. -/
def numbered : ArrayObjects Nat where
  name := KArray.id
  address array := Encodable.encode (array.id, array.size, array.constantValues.map UInt8.toNat)
  address_injective := by
    rintro ⟨i, n, l⟩ ⟨i', n', l'⟩ h
    obtain ⟨hi, hn, hl⟩ := Prod.ext_iff.1 (Encodable.encode_injective h) |>.imp_right Prod.ext_iff.1
    cases hi
    cases hn
    cases (List.map_injective_iff.2 fun _ _ => UInt8.toNat_inj.1) hl
    rfl
  hash := .ofNat 32
  hashValue _ := .ofNat 32

/-- A read after an update of the same byte. -/
def written (value : Nat) : Expr :=
  .read ⟨0, 2, []⟩ (.node (.constant 32 0) (.constant 8 value) .null) (.constant 32 0)

theorem compare_order_written : numbered.compare (fun _ => true) (written 1) (written 1) = .eq ∧
    numbered.compare (fun _ => false) (written 1) (written 2) ≠ .eq ∧
    numbered.compare (fun _ => true) (written 2) (written 1) =
      (numbered.compare (fun _ => false) (written 1) (written 2)).swap := by
  obtain ⟨he, hs, -⟩ := compare_order numbered
  refine ⟨(he _ _ _).2 rfl, fun h => ?_, hs _ _ _ _⟩
  cases (he _ _ _).1 h

end ArrayObjects
end Chef
