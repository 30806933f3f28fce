import Mathlib.Data.Option.Basic
import Chef.Foundations.Transition

namespace Foundations
open BitVec
inductive SmtSort where
  | bool
  | bitVec (width : Nat)
  | array (index element : Nat)
  deriving DecidableEq

inductive SmtValue where
  | bool (b : Bool)
  | bits (w : Nat) (x : BitVec w)
  | array (m n : Nat) (f : BitVec m → BitVec n)

def SmtValue.sort : SmtValue → SmtSort
  | .bool _ => .bool
  | .bits w _ => .bitVec w
  | .array m n _ => .array m n

structure SmtModel where
  value : String → SmtSort → SmtValue
  sorted : ∀ name σ, (value name σ).sort = σ

inductive Connective where
  | and | or | xor
  deriving DecidableEq

def Connective.apply : Connective → Bool → Bool → Bool
  | .and, b, c => b && c
  | .or, b, c => b || c
  | .xor, b, c => b ^^ c

inductive BitVecOp where
  | add | sub | mul | udiv | sdiv | urem | srem
  | and | or | xor | shl | lshr | ashr
  deriving DecidableEq

def BitVecOp.apply (op : BitVecOp) {w : Nat} (x y : BitVec w) : BitVec w :=
  match op with
  | .add => x + y
  | .sub => x - y
  | .mul => x * y
  | .udiv => x.smtUDiv y
  | .sdiv => x.smtSDiv y
  | .urem => x % y
  | .srem => x.srem y
  | .and => x &&& y
  | .or => x ||| y
  | .xor => x ^^^ y
  | .shl => x <<< y
  | .lshr => x >>> y
  | .ashr => x.sshiftRight' y

inductive BitVecRel where
  | ult | ule | slt | sle
  deriving DecidableEq

def BitVecRel.apply (rel : BitVecRel) {w : Nat} (x y : BitVec w) : Bool :=
  match rel with
  | .ult => x.ult y
  | .ule => x.ule y
  | .slt => x.slt y
  | .sle => x.sle y

/-- Terms of bit-vectors and arrays, which need not be well sorted. -/
inductive SmtTerm where
  | boolVal (b : Bool)
  | bitVecVal (width value : Nat)
  | const (name : String) (sort : SmtSort)
  | ite (c t f : SmtTerm)
  | eq (l r : SmtTerm)
  | not (t : SmtTerm)
  | connective (op : Connective) (l r : SmtTerm)
  | bvnot (t : SmtTerm)
  | bvop (op : BitVecOp) (l r : SmtTerm)
  | bvrel (rel : BitVecRel) (l r : SmtTerm)
  | concat (l r : SmtTerm)
  | extract (high low : Nat) (t : SmtTerm)
  | zeroExtend (n : Nat) (t : SmtTerm)
  | signExtend (n : Nat) (t : SmtTerm)
  | select (a i : SmtTerm)
  | store (a i v : SmtTerm)
  deriving DecidableEq

namespace SmtTerm
def sort : SmtTerm → Option SmtSort
  | .boolVal _ => some .bool
  | .bitVecVal w _ => some (.bitVec w)
  | .const _ σ => some σ
  | .ite c t f => if c.sort = some .bool ∧ f.sort = t.sort then t.sort else none
  | .eq l r => if l.sort.isSome ∧ r.sort = l.sort then some .bool else none
  | .not t => if t.sort = some .bool then some .bool else none
  | .connective _ l r => if l.sort = some .bool ∧ r.sort = some .bool then some .bool else none
  | .bvnot t =>
    match t.sort with
    | some (.bitVec w) => some (.bitVec w)
    | _ => none
  | .bvop _ l r =>
    match l.sort with
    | some (.bitVec w) => if r.sort = some (.bitVec w) then some (.bitVec w) else none
    | _ => none
  | .bvrel _ l r =>
    match l.sort with
    | some (.bitVec w) => if r.sort = some (.bitVec w) then some .bool else none
    | _ => none
  | .concat l r =>
    match l.sort, r.sort with
    | some (.bitVec w), some (.bitVec v) => some (.bitVec (w + v))
    | _, _ => none
  | .extract high low t =>
    match t.sort with
    | some (.bitVec w) =>
      if low ≤ high ∧ high < w then some (.bitVec (high - low + 1)) else none
    | _ => none
  | .zeroExtend n t =>
    match t.sort with
    | some (.bitVec w) => some (.bitVec (w + n))
    | _ => none
  | .signExtend n t =>
    match t.sort with
    | some (.bitVec w) => some (.bitVec (w + n))
    | _ => none
  | .select a i =>
    match a.sort with
    | some (.array m n) => if i.sort = some (.bitVec m) then some (.bitVec n) else none
    | _ => none
  | .store a i v =>
    match a.sort with
    | some (.array m n) =>
      if i.sort = some (.bitVec m) ∧ v.sort = some (.bitVec n) then some (.array m n) else none
    | _ => none

def isBool (t : SmtTerm) : Bool := t.sort = some .bool

def bvSize (t : SmtTerm) : Nat :=
  match t.sort with
  | some (.bitVec w) => w
  | _ => 0

end SmtTerm

namespace SmtValue
def bool? : SmtValue → Option Bool
  | .bool b => some b
  | _ => none

def map? (f : {w : Nat} → BitVec w → Option SmtValue) : SmtValue → Option SmtValue
  | .bits _ x => f x
  | _ => none

def zip? (f : {w : Nat} → BitVec w → BitVec w → SmtValue) : SmtValue → SmtValue → Option SmtValue
  | .bits w x, .bits v y => if v = w then some (f x (y.setWidth w)) else none
  | _, _ => none

def ite? (x y : SmtValue) (b : Bool) : Option SmtValue :=
  if y.sort = x.sort then some (if b then x else y) else none

def eq? : SmtValue → SmtValue → Option SmtValue
  | .bool b, .bool c => some (.bool (b == c))
  | x, y => zip? (fun x y => .bool (x == y)) x y

def concat? : SmtValue → SmtValue → Option SmtValue
  | .bits w x, .bits v y => some (.bits (w + v) (x ++ y))
  | _, _ => none

def extract? (high low : Nat) : SmtValue → Option SmtValue
  | .bits w x =>
    if low ≤ high ∧ high < w then some (.bits (high - low + 1) (x.extractLsb high low)) else none
  | _ => none

def select? : SmtValue → SmtValue → Option SmtValue
  | .array m n f, .bits w i => if w = m then some (.bits n (f (i.setWidth m))) else none
  | _, _ => none

def store? : SmtValue → SmtValue → SmtValue → Option SmtValue
  | .array m n f, .bits w i, .bits u v =>
    if w = m ∧ u = n then
      some (.array m n fun j => if j = i.setWidth m then v.setWidth n else f j)
    else none
  | _, _, _ => none

end SmtValue

namespace SmtTerm
@[simp]
def eval (μ : SmtModel) : SmtTerm → Option SmtValue
  | .boolVal b => some (.bool b)
  | .bitVecVal w n => some (.bits w (BitVec.ofNat w n))
  | .const name σ => some (μ.value name σ)
  | .ite c t f => do
    let b ← (← c.eval μ).bool?
    let x ← t.eval μ
    let y ← f.eval μ
    x.ite? y b
  | .eq l r => do
    let x ← l.eval μ
    let y ← r.eval μ
    x.eq? y
  | .not t => do
    let b ← (← t.eval μ).bool?
    some (.bool !b)
  | .connective op l r => do
    let b ← (← l.eval μ).bool?
    let c ← (← r.eval μ).bool?
    some (.bool (op.apply b c))
  | .bvnot t => do (← t.eval μ).map? fun x => some (.bits _ (~~~x))
  | .bvop op l r => do
    let x ← l.eval μ
    let y ← r.eval μ
    x.zip? (fun x y => .bits _ (op.apply x y)) y
  | .bvrel rel l r => do
    let x ← l.eval μ
    let y ← r.eval μ
    x.zip? (fun x y => .bool (rel.apply x y)) y
  | .concat l r => do
    let x ← l.eval μ
    let y ← r.eval μ
    x.concat? y
  | .extract high low t => do (← t.eval μ).extract? high low
  | .zeroExtend n t => do (← t.eval μ).map? fun {w} x => some (.bits (w + n) (x.setWidth (w + n)))
  | .signExtend n t => do (← t.eval μ).map? fun {w} x => some (.bits (w + n) (x.signExtend (w + n)))
  | .select a i => do
    let f ← a.eval μ
    let x ← i.eval μ
    f.select? x
  | .store a i v => do
    let f ← a.eval μ
    let x ← i.eval μ
    let y ← v.eval μ
    f.store? x y

variable {μ : SmtModel}
theorem eval_ite (hc : c.eval μ = some (.bool b)) (ht : t.eval μ = some x)
    (hf : f.eval μ = some y) (h : y.sort = x.sort) :
    (ite c t f).eval μ = some (if b then x else y) := by
  rw [eval, hc, ht, hf]
  exact if_pos h

theorem eval_eq_bool (hl : l.eval μ = some (.bool b)) (hr : r.eval μ = some (.bool c)) :
    (eq l r).eval μ = some (.bool (b == c)) := by
  rw [eval, hl, hr]
  rfl

theorem eval_bitVecVal : (bitVecVal w n).eval μ = some (.bits w (.ofNat w n)) := rfl

theorem eval_not (h : t.eval μ = some (.bool b)) : (not t).eval μ = some (.bool !b) := by
  rw [eval, h]
  rfl

theorem eval_connective (hl : l.eval μ = some (.bool b)) (hr : r.eval μ = some (.bool c)) :
    (connective op l r).eval μ = some (.bool (op.apply b c)) := by
  rw [eval, hl, hr]
  rfl

theorem eval_bvnot (h : t.eval μ = some (.bits w x)) :
    (bvnot t).eval μ = some (.bits w (~~~x)) := by
  rw [eval, h]
  rfl

section
variable {l r : SmtTerm} (hl : l.eval μ = some (.bits w x)) (hr : r.eval μ = some (.bits w y))
include hl hr
theorem eval_eq_bits : (eq l r).eval μ = some (.bool (x == y)) := by
  rw [eval, hl, hr]
  apply (if_pos rfl).trans
  rw [setWidth_eq]

theorem eval_bvop : (bvop op l r).eval μ = some (.bits w (op.apply x y)) := by
  rw [eval, hl, hr]
  apply (if_pos rfl).trans
  rw [setWidth_eq]

theorem eval_bvrel : (bvrel rel l r).eval μ = some (.bool (rel.apply x y)) := by
  rw [eval, hl, hr]
  apply (if_pos rfl).trans
  rw [setWidth_eq]

end

theorem eval_concat (hl : l.eval μ = some (.bits w x)) (hr : r.eval μ = some (.bits v y)) :
    (concat l r).eval μ = some (.bits (w + v) (x ++ y)) := by
  rw [eval, hl, hr]
  rfl

theorem eval_extract (h : t.eval μ = some (.bits w x)) (hh : high < w)
    (hn : low + n = high + 1) (hp : 0 < n) :
    (extract high low t).eval μ = some (.bits n (x.extractLsb' low n)) := by
  have hs : n = high - low + 1 := by omega
  subst hs
  rw [eval, h]
  exact if_pos ⟨by omega, hh⟩

theorem eval_zeroExtend (h : t.eval μ = some (.bits w x)) (hm : w ≤ m) :
    (zeroExtend (m - w) t).eval μ = some (.bits m (x.setWidth m)) := by
  obtain ⟨n, rfl⟩ := Nat.exists_eq_add_of_le hm
  rw [eval, h, Nat.add_sub_cancel_left]
  rfl

theorem eval_signExtend (h : t.eval μ = some (.bits w x)) (hm : w ≤ m) :
    (signExtend (m - w) t).eval μ = some (.bits m (x.signExtend m)) := by
  obtain ⟨n, rfl⟩ := Nat.exists_eq_add_of_le hm
  rw [eval, h, Nat.add_sub_cancel_left]
  rfl

theorem eval_select {x : BitVec m} (ha : a.eval μ = some (.array m n f))
    (hi : i.eval μ = some (.bits m x)) : (select a i).eval μ = some (.bits n (f x)) := by
  rw [eval, ha, hi]
  apply (if_pos rfl).trans
  rw [setWidth_eq]

theorem eval_store (ha : a.eval μ = some (.array m n f))
    (hi : i.eval μ = some (.bits m x)) (hv : v.eval μ = some (.bits n y)) :
    (store a i v).eval μ = some (.array m n fun j => if j = x then y else f j) := by
  rw [eval, ha, hi, hv]
  apply (if_pos ⟨rfl, rfl⟩).trans
  rw [setWidth_eq, setWidth_eq]

theorem bool?_eq_some {v : SmtValue} (h : v.bool? = some b) : v = .bool b := by
  cases v with
  | bool c =>
    cases h
    rfl
  | bits w x => cases h
  | array m n f => cases h

theorem map?_eq_some {v : SmtValue}
    (h : v.map? f = some z) : ∃ w x, v = .bits w x ∧ f x = some z := by
  cases v with
  | bool c => cases h
  | bits w x => exact ⟨w, x, rfl, h⟩
  | array m n g => cases h

theorem zip?_eq_some {u v : SmtValue}
    (h : u.zip? f v = some z) : ∃ w x y, u = .bits w x ∧ v = .bits w y ∧ f x y = z := by
  cases u with
  | bool b => cases h
  | array m n g => cases h
  | bits w x =>
    cases v with
    | bool b => cases h
    | array m n g => cases h
    | bits w' y =>
      rw [SmtValue.zip?] at h
      split at h
      · subst w'
        rw [setWidth_eq, Option.some.injEq] at h
        exact ⟨w, x, y, rfl, rfl, h⟩
      · cases h

theorem eq?_eq_some {u v : SmtValue} (h : u.eq? v = some z) : v.sort = u.sort ∧ z.sort = .bool := by
  cases u with
  | bool b =>
    cases v with
    | bool c =>
      cases h
      exact ⟨rfl, rfl⟩
    | bits w x => cases h
    | array m n g => cases h
  | bits w x =>
    have h' : (SmtValue.bits w x).zip? (fun x y => .bool (x == y)) v = some z := h
    obtain ⟨w', x', y', hu, hv, hz⟩ := zip?_eq_some h'
    rw [hu, hv, ← hz]
    exact ⟨rfl, rfl⟩
  | array m n g => cases h

/-- A term that has a value is well sorted. -/
theorem sort_of_eval {t : SmtTerm} (h : t.eval μ = some v) : t.sort = some v.sort := by
  induction t generalizing v with simp only [eval, bind_some_iff] at h
  | boolVal b =>
    cases h
    rfl
  | bitVecVal w n =>
    cases h
    rfl
  | const name σ =>
    cases h
    rw [sort, μ.sorted]
  | ite c t f ihc iht ihf =>
    obtain ⟨vc, hc, b, hb, x, hx, y, hy, h⟩ := h
    rw [SmtValue.ite?] at h
    split at h
    next hso =>
      have hv : v.sort = x.sort := by
        cases b with
        | true =>
          cases h
          rfl
        | false =>
          cases h
          exact hso
      rw [sort, ihc hc, bool?_eq_some hb, iht hx, ihf hy, hso, hv]
      exact if_pos ⟨rfl, rfl⟩
    · cases h
  | eq l r ihl ihr =>
    obtain ⟨x, hx, y, hy, h⟩ := h
    rw [sort, ihl hx, ihr hy, (eq?_eq_some h).1, (eq?_eq_some h).2]
    exact if_pos ⟨rfl, rfl⟩
  | not t ih =>
    obtain ⟨x, hx, b, hb, h⟩ := h
    cases h
    rw [sort, ih hx, bool?_eq_some hb]
    rfl
  | connective op l r ihl ihr =>
    obtain ⟨x, hx, b, hb, y, hy, c, hc, h⟩ := h
    cases h
    rw [sort, ihl hx, ihr hy, bool?_eq_some hb, bool?_eq_some hc]
    rfl
  | bvnot t ih | zeroExtend n t ih | signExtend n t ih =>
    obtain ⟨u, hu, h⟩ := h
    obtain ⟨w, x, rfl, h⟩ := map?_eq_some h
    cases h
    rw [sort, ih hu]
    rfl
  | bvop op l r ihl ihr | bvrel rel l r ihl ihr =>
    obtain ⟨u, hu, u', hu', h⟩ := h
    obtain ⟨w, x, y, rfl, rfl, rfl⟩ := zip?_eq_some h
    rw [sort, ihl hu, ihr hu']
    exact if_pos rfl
  | concat l r ihl ihr =>
    obtain ⟨u, hu, u', hu', h⟩ := h
    rw [sort, ihl hu, ihr hu']
    cases u <;> cases u' <;> cases h
    rfl
  | extract high low t ih =>
    obtain ⟨u, hu, h⟩ := h
    rw [sort, ih hu]
    cases u with
    | bool b => cases h
    | array m n f => cases h
    | bits w x =>
      rw [SmtValue.extract?] at h
      split at h
      next hn =>
        cases h
        exact if_pos hn
      · cases h
  | select a i iha ihi =>
    obtain ⟨u, hu, u', hu', h⟩ := h
    rw [sort, iha hu, ihi hu']
    cases u <;> cases u' <;> try cases h
    rw [SmtValue.select?] at h
    split at h
    next hw =>
      subst hw
      cases h
      exact if_pos rfl
    · cases h
  | store a i v iha ihi ihv =>
    obtain ⟨u, hu, u', hu', u'', hu'', h⟩ := h
    rw [sort, iha hu, ihi hu', ihv hu'']
    cases u <;> cases u' <;> cases u'' <;> try cases h
    rw [SmtValue.store?] at h
    split at h
    next hw =>
      obtain ⟨rfl, rfl⟩ := hw
      cases h
      exact if_pos ⟨rfl, rfl⟩
    · cases h

theorem isBool_of_eval {t : SmtTerm} (h : t.eval μ = some (.bool b)) : t.isBool = true := by
  rw [isBool, sort_of_eval h]
  rfl

theorem not_isBool_of_bits {t : SmtTerm} (h : t.eval μ = some (.bits w x)) : ¬t.isBool = true := by
  rw [isBool, sort_of_eval h]
  exact Bool.false_ne_true

theorem bvSize_of_bits {t : SmtTerm} (h : t.eval μ = some (.bits w x)) : t.bvSize = w := by
  rw [bvSize, sort_of_eval h]
  rfl

end SmtTerm
end Foundations
