import Mathlib.Data.List.Pairwise
import Chef.MemoryBounds

namespace Chef
open BitVec hiding append_assoc
open Foundations Chef.Expr List Option
structure TimingSolver where
  mayBeTrue : Expr → Bool
  mustBeTrue : Expr → Bool
  getValue : Expr → Nat

structure TimingSolver.Exact (solver : TimingSolver) (constraints : List Expr) : Prop where
  mayBeTrue : solver.mayBeTrue e = true ↔ ∃ ρ, HoldAt ρ constraints ∧ e.eval ρ = 1
  mustBeTrue : solver.mustBeTrue e = true ↔ ∀ ρ, HoldAt ρ constraints → e.eval ρ = 1
  getValue : ∃ ρ, HoldAt ρ constraints ∧ e.eval ρ = solver.getValue e

def MemoryObject.getBoundsCheckPointer (pointerWidth : Nat) (mo : MemoryObject) (pointer : Expr) :
    Expr :=
  let offset := mo.getOffsetExpr pointerWidth pointer
  if mo.size = 0 then EqExpr.create offset (.constant pointerWidth 0)
  else UltExpr.create offset (mo.getSizeExpr pointerWidth)

namespace AddressSpace
section
variable (solver : TimingSolver) (pointerWidth maxResolutions : Nat) (address : Expr)
def mayPointInto (o : BoundObject) : Bool :=
  solver.mayBeTrue (o.memoryObject.getBoundsCheckPointer pointerWidth address)

def consider (rl : List BoundObject) (o : BoundObject) :
    Except (Bool × List BoundObject) (List BoundObject) :=
  if mayPointInto solver pointerWidth address o then
    if (rl ++ [o]).length = 1 then
      if solver.mustBeTrue (o.memoryObject.getBoundsCheckPointer pointerWidth address) then
        .error (false, rl ++ [o])
      else .ok (rl ++ [o])
    else if (rl ++ [o]).length = maxResolutions then .error (true, rl ++ [o])
    else .ok (rl ++ [o])
  else .ok rl

def searchBackwards (rl : List BoundObject) :
    List BoundObject → Except (Bool × List BoundObject) (List BoundObject)
  | [] => .ok rl
  | o :: objects =>
    consider solver pointerWidth maxResolutions address rl o >>= fun rl =>
      if solver.mustBeTrue (UgeExpr.create address (o.memoryObject.getBaseExpr pointerWidth)) then
        .ok rl
      else searchBackwards rl objects

def searchForwards (rl : List BoundObject) :
    List BoundObject → Except (Bool × List BoundObject) (List BoundObject)
  | [] => .ok rl
  | o :: objects =>
    if solver.mustBeTrue (UltExpr.create address (o.memoryObject.getBaseExpr pointerWidth)) then
      .ok rl
    else
      consider solver pointerWidth maxResolutions address rl o >>= fun rl =>
        searchForwards rl objects

def resolve (objects : List BoundObject) : Bool × List BoundObject :=
  match address with
  | .constant _ value => (false, (resolveOne objects value).toList)
  | address =>
    let example' := solver.getValue address
    let below := objects.filter fun o => o.memoryObject.address ≤ example'
    let above := objects.filter fun o => example' < o.memoryObject.address
    match searchBackwards solver pointerWidth maxResolutions address [] below.reverse >>=
      fun rl => searchForwards solver pointerWidth maxResolutions address rl above with
    | .ok rl => (false, rl)
    | .error r => r

def findBackwards : List BoundObject → Option BoundObject
  | [] => none
  | o :: objects =>
    if mayPointInto solver pointerWidth address o then some o
    else if solver.mustBeTrue
      (UgeExpr.create address (o.memoryObject.getBaseExpr pointerWidth)) then none
    else findBackwards objects

def findForwards : List BoundObject → Option BoundObject
  | [] => none
  | o :: objects =>
    if solver.mustBeTrue (UltExpr.create address
      (o.memoryObject.getBaseExpr pointerWidth)) then none
    else if mayPointInto solver pointerWidth address o then some o
    else findForwards objects

def resolveOneSymbolic (objects : List BoundObject) : Option BoundObject :=
  match address with
  | .constant _ value => resolveOne objects value
  | address =>
    let example' := solver.getValue address
    let below := objects.filter fun o => o.memoryObject.address ≤ example'
    let above := objects.filter fun o => example' < o.memoryObject.address
    match below.getLast?.filter fun o =>
      example' - o.memoryObject.address < o.memoryObject.size with
    | some o => some o
    | none =>
      match findBackwards solver pointerWidth address below.reverse with
      | some o => some o
      | none => findForwards solver pointerWidth address above

end

/-- Some assignment of the constraints makes it point into the object. -/
def PointsInto (constraints : List Expr) (address : Expr) (o : BoundObject) : Prop :=
  ∃ ρ, HoldAt ρ constraints ∧ o.memoryObject.Contains (address.eval ρ)

structure Resolvable (solver : TimingSolver) (constraints : List Expr) (pointerWidth : Nat)
    (address : Expr) (objects : List BoundObject) : Prop where
  exact : solver.Exact constraints
  typed : address.WellTyped
  width_eq : address.width = pointerWidth
  disjoint : objects.Pairwise fun o o' =>
    o.memoryObject.address + o.memoryObject.size ≤ o'.memoryObject.address
  nonempty : ∀ o ∈ objects, 0 < o.memoryObject.size
  fits : ∀ o ∈ objects, o.memoryObject.size < 2 ^ pointerWidth ∧
    o.memoryObject.address + o.memoryObject.size ≤ 2 ^ pointerWidth

variable {solver : TimingSolver} {constraints : List Expr} {address : Expr} {ρ : Assignment}
  {objects l l' : List BoundObject} {o o' : BoundObject}

theorem eval_ofBool (h : MeansIn (Steady ρ) True D ρ e (ofBool c)) : e.eval ρ = 1 ↔ c = true := by
  rw [h.eval_eq trivial]
  cases c <;> simp

/-- The objects pointed into are added, or the only one ends the search. -/
def Finds (solver : TimingSolver) (constraints : List Expr) (w : Nat) (address : Expr)
    (r : Except (Bool × List BoundObject) (List BoundObject)) (rl l : List BoundObject) : Prop :=
  r = .ok (rl ++ l.filter (mayPointInto solver w address)) ∨ ∃ o ∈ l, r = .error (false, [o]) ∧
      ∀ ρ, HoldAt ρ constraints → o.memoryObject.Contains (address.eval ρ)

theorem Finds.append (hr : Finds solver constraints w address r rl l)
    (hf : ∀ rl, Finds solver constraints w address (f rl) rl l') :
    Finds solver constraints w address (r >>= f) rl (l ++ l') := by
  obtain rfl | ⟨o, ho, rfl, ha⟩ := hr
  · obtain hok | ⟨o, ho, he, ha⟩ := hf (rl ++ l.filter (mayPointInto solver w address))
    · left
      rw [filter_append, ← append_assoc]
      exact hok
    · exact .inr ⟨o, mem_append_right _ ho, he, ha⟩
  · exact .inr ⟨o, mem_append_left _ ho, rfl, ha⟩

def searched (a : Nat) (objects : List BoundObject) : List BoundObject :=
  (objects.filter fun o => o.memoryObject.address ≤ a).reverse ++
    objects.filter fun o => a < o.memoryObject.address

theorem mem_searched : o ∈ searched a objects ↔ o ∈ objects := by
  simp only [searched, mem_append, mem_reverse, mem_filter, decide_eq_true_eq, ← and_or_left]
  exact and_iff_left (le_or_gt _ _)

section
variable (h : Resolvable solver constraints w address objects)
include h
theorem Resolvable.address_lt (ρ : Assignment) : address.eval ρ < 2 ^ w :=
  h.width_eq ▸ address.eval_lt ρ h.typed

theorem Resolvable.means (ρ : Assignment) :
    address.MeansIn (Steady ρ) True False ρ (BitVec.ofNat w (address.eval ρ)) := by
  have hme := means_self (P := Steady ρ) True ρ h.typed False.elim
  rw [h.width_eq] at hme
  exact hme

section
variable (ho : o ∈ objects)
include ho
theorem Resolvable.base_lt : o.memoryObject.address < 2 ^ w := by
  have hft := (h.fits o ho).2
  have hp := h.nonempty o ho
  omega

theorem Resolvable.boundsCheck (ρ : Assignment) :
    (o.memoryObject.getBoundsCheckPointer w address).eval ρ = 1 ↔
      o.memoryObject.Contains (address.eval ρ) := by
  obtain ⟨hs, hft⟩ := h.fits o ho
  have hp := h.nonempty o ho
  have ha := h.address_lt ρ
  have hme := UltExpr.create_means (SubExpr.create_means (h.means ρ)
    (constant_means (h.base_lt ho))) (constant_means hs)
  rw [MemoryObject.getBoundsCheckPointer, if_neg (by omega)]
  rw [MemoryObject.getSizeExpr, MemoryObject.getOffsetExpr, MemoryObject.getBaseExpr,
    eval_ofBool hme, ult_eq_decide, decide_eq_true_eq, toNat_sub,
    toNat_ofNat, toNat_ofNat, toNat_ofNat, Nat.mod_eq_of_lt ha, Nat.mod_eq_of_lt (h.base_lt ho),
    Nat.mod_eq_of_lt hs, MemoryObject.Contains]
  have hb := h.base_lt ho
  by_cases hle : o.memoryObject.address ≤ address.eval ρ
  · rw [show 2 ^ w - o.memoryObject.address + address.eval ρ =
      address.eval ρ - o.memoryObject.address + 2 ^ w by omega, Nat.add_mod_right,
      Nat.mod_eq_of_lt (by omega)]
    omega
  · rw [Nat.mod_eq_of_lt (by omega)]
    omega

theorem Resolvable.mayPointInto_iff :
    mayPointInto solver w address o = true ↔ PointsInto constraints address o := by
  rw [mayPointInto, h.exact.mayBeTrue]
  constructor
  · rintro ⟨ρ, hρ, he⟩
    exact ⟨ρ, hρ, (h.boundsCheck ho ρ).1 he⟩
  · rintro ⟨ρ, hρ, hin⟩
    exact ⟨ρ, hρ, (h.boundsCheck ho ρ).2 hin⟩

theorem Resolvable.base_le_iff :
    solver.mustBeTrue (UgeExpr.create address (o.memoryObject.getBaseExpr w)) = true ↔
      ∀ ρ, HoldAt ρ constraints → o.memoryObject.address ≤ address.eval ρ := by
  rw [h.exact.mustBeTrue]
  refine forall₂_congr fun ρ hρ => ?_
  have ha := h.address_lt ρ
  have hme := UleExpr.create_means (constant_means (h.base_lt ho)) (h.means ρ)
  rw [UgeExpr.create, MemoryObject.getBaseExpr, eval_ofBool hme, ule_eq_decide, decide_eq_true_eq,
    toNat_ofNat, toNat_ofNat, Nat.mod_eq_of_lt ha, Nat.mod_eq_of_lt (h.base_lt ho)]

theorem Resolvable.lt_base_iff :
    solver.mustBeTrue (UltExpr.create address (o.memoryObject.getBaseExpr w)) = true ↔
      ∀ ρ, HoldAt ρ constraints → address.eval ρ < o.memoryObject.address := by
  rw [h.exact.mustBeTrue]
  refine forall₂_congr fun ρ hρ => ?_
  have ha := h.address_lt ρ
  have hme := UltExpr.create_means (h.means ρ) (constant_means (h.base_lt ho))
  rw [MemoryObject.getBaseExpr, eval_ofBool hme, ult_eq_decide, decide_eq_true_eq,
    toNat_ofNat, toNat_ofNat, Nat.mod_eq_of_lt ha, Nat.mod_eq_of_lt (h.base_lt ho)]

theorem Resolvable.unique
    (ho' : o' ∈ objects) (ha : o.memoryObject.Contains a) (ha' : o'.memoryObject.Contains a) :
    o = o' := by
  by_contra hne
  have hp : objects.Pairwise fun o o' =>
      ¬ (o.memoryObject.Contains a ∧ o'.memoryObject.Contains a) := by
    refine h.disjoint.imp fun hle hb => ?_
    have hlt := hb.1.2
    have hge := hb.2.1
    omega
  have : Std.Symm fun o o' : BoundObject =>
      ¬ (o.memoryObject.Contains a ∧ o'.memoryObject.Contains a) := ⟨fun _ _ h h' => h h'.symm⟩
  exact hp.forall ho ho' hne ⟨ha, ha'⟩

theorem not_below
    (hb : ∀ o' ∈ l, o'.memoryObject.address + o'.memoryObject.size ≤ o.memoryObject.address)
    (hm : solver.mustBeTrue (UgeExpr.create address (o.memoryObject.getBaseExpr w)) = true) :
    ∀ o' ∈ l, ¬ PointsInto constraints address o' := by
  rintro o' ho' ⟨ρ, hρ, -, hlt⟩
  have he := hb o' ho'
  have hle := (h.base_le_iff ho).1 hm ρ hρ
  omega

theorem not_above
    (hab : ∀ o' ∈ l, o.memoryObject.address + o.memoryObject.size ≤ o'.memoryObject.address)
    (hm : solver.mustBeTrue (UltExpr.create address (o.memoryObject.getBaseExpr w)) = true) :
    ∀ o' ∈ o :: l, ¬ PointsInto constraints address o' := by
  rintro o' ho' ⟨ρ, hρ, hge, -⟩
  have hlt := (h.lt_base_iff ho).1 hm ρ hρ
  obtain rfl | ho' := mem_cons.1 ho'
  · omega
  · have he := hab o' ho'
    omega

theorem consider_finds (rl : List BoundObject) :
    Finds solver constraints w address (consider solver w 0 address rl o) rl [o] := by
  rw [consider]
  split
  next hm =>
    have hf : [o].filter (mayPointInto solver w address) = [o] := by
      rw [filter_cons_of_pos hm, filter_nil]
    rw [Finds, hf]
    split
    next hl =>
      obtain rfl : rl = [] := eq_nil_of_length_eq_zero (by simpa using hl)
      split
      next hs =>
        exact .inr ⟨o, mem_singleton_self o, rfl, fun ρ hρ =>
          (h.boundsCheck ho ρ).1 (h.exact.mustBeTrue.1 hs ρ hρ)⟩
      · exact .inl rfl
    · rw [if_neg (by simp)]
      exact .inl rfl
  next hm =>
    left
    rw [filter_cons_of_neg hm, filter_nil, append_nil]

end

section
variable (hsub : ∀ o ∈ l, o ∈ objects)
include hsub
theorem Finds.skip (hn : ∀ o ∈ l, ¬ PointsInto constraints address o)
    (rl : List BoundObject) : Finds solver constraints w address (.ok rl) rl l := by
  left
  rw [filter_eq_nil_iff.2 fun o ho hm => hn o ho ((h.mayPointInto_iff (hsub o ho)).1 hm),
    append_nil]

theorem searchBackwards_finds (hd : l.Pairwise fun o o' =>
      o'.memoryObject.address + o'.memoryObject.size ≤ o.memoryObject.address)
    (rl : List BoundObject) :
    Finds solver constraints w address (searchBackwards solver w 0 address rl l) rl l := by
  induction l generalizing rl with
  | nil => exact Finds.skip h hsub nofun rl
  | cons o l ih =>
    obtain ⟨ho, hl⟩ := forall_mem_cons.1 hsub
    obtain ⟨hb, hd⟩ := pairwise_cons.1 hd
    refine (consider_finds h ho rl).append fun rl => ?_
    split
    next hm => exact Finds.skip h hl (not_below h ho hb hm) rl
    · exact ih hl hd rl

theorem searchForwards_finds (hup : l.Pairwise fun o o' =>
      o.memoryObject.address + o.memoryObject.size ≤ o'.memoryObject.address)
    (rl : List BoundObject) :
    Finds solver constraints w address (searchForwards solver w 0 address rl l) rl l := by
  induction l generalizing rl with
  | nil => exact Finds.skip h hsub nofun rl
  | cons o l ih =>
    obtain ⟨ho, hl⟩ := forall_mem_cons.1 hsub
    obtain ⟨hab, hup⟩ := pairwise_cons.1 hup
    rw [searchForwards]
    split
    next hm => exact Finds.skip h hsub (not_above h ho hab hm) rl
    · exact (consider_finds h ho rl).append fun rl => ih hl hup rl

theorem find_skip (hn : ∀ o ∈ l, ¬ PointsInto constraints address o) :
    none = l.find? (mayPointInto solver w address) :=
  (List.find?_eq_none.2 fun o ho hm => hn o ho ((h.mayPointInto_iff (hsub o ho)).1 hm)).symm

theorem findBackwards_eq (hd : l.Pairwise fun o o' =>
      o'.memoryObject.address + o'.memoryObject.size ≤ o.memoryObject.address) :
    findBackwards solver w address l = l.find? (mayPointInto solver w address) := by
  induction l with
  | nil => rfl
  | cons o l ih =>
    obtain ⟨ho, hl⟩ := forall_mem_cons.1 hsub
    obtain ⟨hb, hd⟩ := pairwise_cons.1 hd
    rw [findBackwards, List.find?_cons]
    split
    next hm => rw [hm]
    next hm =>
      rw [eq_false_of_ne_true hm]
      split
      next hs => exact find_skip h hl (not_below h ho hb hs)
      · exact ih hl hd

theorem findForwards_eq (hup : l.Pairwise fun o o' =>
      o.memoryObject.address + o.memoryObject.size ≤ o'.memoryObject.address) :
    findForwards solver w address l = l.find? (mayPointInto solver w address) := by
  induction l with
  | nil => rfl
  | cons o l ih =>
    obtain ⟨ho, hl⟩ := forall_mem_cons.1 hsub
    obtain ⟨hab, hup⟩ := pairwise_cons.1 hup
    rw [findForwards]
    split
    next hs => exact find_skip h hsub (not_above h ho hab hs)
    · rw [List.find?_cons]
      split
      next hm => rw [hm]
      next hm =>
        rw [eq_false_of_ne_true hm]
        exact ih hl hup

end

theorem Resolvable.nodup_searched (a : Nat) : (searched a objects).Nodup := by
  have hnd : objects.Nodup := h.disjoint.imp_of_mem fun {o o'} ho _ hle heq => by
    have hp := h.nonempty o ho
    subst heq
    omega
  refine nodup_append.2 ⟨nodup_reverse.2 (hnd.filter _), hnd.filter _, ?_⟩
  intro o ho o' ho' heq
  have hle := of_decide_eq_true (mem_filter.1 (mem_reverse.1 ho)).2
  have hlt := of_decide_eq_true (mem_filter.1 ho').2
  rw [heq] at hle
  omega

theorem Resolvable.down (p : BoundObject → Bool) : (objects.filter p).reverse.Pairwise fun o o' =>
      o'.memoryObject.address + o'.memoryObject.size ≤ o.memoryObject.address :=
  pairwise_reverse.2 (h.disjoint.filter _)

variable (hsymbolic : address.isConstant = false)
include hsymbolic
theorem resolve_finds :
    ∃ r, Finds solver constraints w address r [] (searched (solver.getValue address) objects) ∧
      resolve solver w 0 address objects = match r with
        | .ok rl => (false, rl)
        | .error r => r := by
  refine ⟨_, (searchBackwards_finds h (fun o ho => (mem_of_mem_filter (mem_reverse.1 ho))) (h.down
    _) []).append fun rl => searchForwards_finds h (fun o ho => mem_of_mem_filter ho)
    (h.disjoint.filter _) rl, ?_⟩
  cases address with
  | constant w v => cases hsymbolic
  | _ => rfl

theorem resolveOneSymbolic_eq : resolveOneSymbolic solver w address objects =
      ((objects.filter fun o => o.memoryObject.address ≤ solver.getValue address).getLast?.filter
        fun o => solver.getValue address - o.memoryObject.address < o.memoryObject.size).or
      ((searched (solver.getValue address) objects).find? (mayPointInto solver w address)) := by
  rw [searched, List.find?_append, ← findBackwards_eq h (fun o ho => mem_of_mem_filter
    (mem_reverse.1 ho)) (h.down _), ← findForwards_eq h (fun o ho => mem_of_mem_filter ho)
    (h.disjoint.filter _)]
  rw [resolveOneSymbolic.eq_def]
  split
  · cases hsymbolic
  simp only
  split
  next hc =>
    rw [hc]
    rfl
  next hc =>
    rw [hc, none_or]
    split
    next hf =>
      rw [hf]
      rfl
    next hf => rw [hf, none_or]

theorem resolveOneSymbolic_spec (hf : resolveOneSymbolic solver w address objects = some o) :
    o ∈ objects ∧ PointsInto constraints address o := by
  rw [resolveOneSymbolic_eq h hsymbolic, or_eq_some_iff] at hf
  obtain hc | ⟨-, hd⟩ := hf
  · obtain ⟨hla, hlt⟩ := filter_eq_some_iff.1 hc
    obtain ⟨hm, hle⟩ := mem_filter.1 (mem_of_getLast? hla)
    obtain ⟨ρ, hρ, hv⟩ := h.exact.getValue (e := address)
    have hlt := of_decide_eq_true hlt
    have hle := of_decide_eq_true hle
    rw [← hv] at hlt hle
    exact ⟨hm, ρ, hρ, hle, by omega⟩
  · have hm := mem_searched.1 (mem_of_find?_eq_some hd)
    exact ⟨hm, (h.mayPointInto_iff hm).1 (List.find?_some hd)⟩

end

/-- All objects the pointer can point into are found, each once. -/
theorem resolve_exact (h : Resolvable solver constraints w address objects)
    (hsymbolic : address.isConstant = false) :
    (resolve solver w 0 address objects).1 = false ∧ (resolve solver w 0 address objects).2.Nodup ∧
      (∀ o, o ∈ (resolve solver w 0 address objects).2 ↔
        o ∈ objects ∧ PointsInto constraints address o) ∧
      ((resolveOneSymbolic solver w address objects).isSome = true ↔
        ∃ o ∈ objects, PointsInto constraints address o) ∧
      ∀ o, resolveOneSymbolic solver w address objects = some o →
        o ∈ objects ∧ PointsInto constraints address o := by
  obtain ⟨r, hf, heq⟩ := resolve_finds h hsymbolic
  rw [heq]
  refine ⟨?_, ?_, fun o => ?_, ⟨fun hs => ?_, ?_⟩, fun o => resolveOneSymbolic_spec h hsymbolic⟩
  · obtain rfl | ⟨o, -, rfl, -⟩ := hf <;> rfl
  · obtain rfl | ⟨o, -, rfl, -⟩ := hf
    · exact (h.nodup_searched _).filter _
    · exact nodup_singleton o
  · obtain rfl | ⟨o', ho', rfl, ha⟩ := hf
    · rw [nil_append, mem_filter, mem_searched]
      exact and_congr_right fun ho => h.mayPointInto_iff ho
    have ho' := mem_searched.1 ho'
    rw [mem_singleton]
    constructor
    · rintro rfl
      obtain ⟨ρ, hρ, -⟩ := h.exact.getValue (e := address)
      exact ⟨ho', ρ, hρ, ha ρ hρ⟩
    · rintro ⟨ho, ρ, hρ, hin⟩
      exact h.unique ho ho' hin (ha ρ hρ)
  · obtain ⟨o, ho⟩ := isSome_iff_exists.1 hs
    exact ⟨o, resolveOneSymbolic_spec h hsymbolic ho⟩
  · rintro ⟨o, ho, hin⟩
    rw [resolveOneSymbolic_eq h hsymbolic, isSome_or, Bool.or_eq_true, List.find?_isSome]
    exact .inr ⟨o, mem_searched.2 ho, (h.mayPointInto_iff ho).2 hin⟩

open scoped Classical in
noncomputable def ideal (constraints : List Expr) : TimingSolver where
  mayBeTrue e := decide (∃ ρ, HoldAt ρ constraints ∧ e.eval ρ = 1)
  mustBeTrue e := decide (∀ ρ, HoldAt ρ constraints → e.eval ρ = 1)
  getValue e := if h : ∃ ρ, HoldAt ρ constraints then e.eval h.choose else 0

open scoped Classical in
theorem ideal_exact (h : ∃ ρ, HoldAt ρ constraints) : (ideal constraints).Exact constraints where
  mayBeTrue := decide_eq_true_iff
  mustBeTrue := decide_eq_true_iff
  getValue {e} := by
    refine ⟨h.choose, h.choose_spec, ?_⟩
    simp only [ideal, dif_pos h]

open Executor in
theorem resolve_twoObjects : sampleObject 100 8 ∈
    (resolve (ideal []) 64 0 byteAddress [sampleObject 0 16, sampleObject 100 8]).2 := by
  have h : Resolvable (ideal []) [] 64 byteAddress [sampleObject 0 16, sampleObject 100 8] := by
    refine ⟨ideal_exact ⟨fun _ _ => 0, nofun⟩, by decide, rfl, ?_, ?_, ?_⟩ <;>
      simp [sampleObject]
  refine ((resolve_exact h rfl).2.2.1 _).2 ⟨by simp, fun _ _ => 100, nofun, ?_⟩
  decide

end AddressSpace

namespace Executor
theorem resolveByteOffset_spec (h : resolveByteOffset objects base bits = some (o, true)) :
    o ∈ objects ∧ o.memoryObject.address = base ∧ o.memoryObject.size ≤ 256 := by
  refine ⟨resolveByteOffset_mem h, ?_⟩
  rw [resolveByteOffset.eq_def] at h
  split at h
  · split at h
    · obtain ⟨o', ho', heq⟩ := map_eq_some_iff.1 h
      obtain ⟨rfl, hs⟩ := Prod.ext_iff.1 heq
      exact ⟨of_decide_eq_true (filter_eq_some_iff.1 ho').2, of_decide_eq_true hs⟩
    · cases h
  · cases h

theorem inBounds_add_iff {mo : MemoryObject} (ht :
    (arithmetic .add (.constant w base) offset).WellTyped) (hb : mo.address = base) (hft :
    mo.address + mo.size ≤ 2 ^ w) (hn : 0 < n) (ρ : Assignment) :
    mo.InBounds ((arithmetic .add (.constant w base) offset).eval ρ) n ↔ offset.eval ρ + n ≤
    mo.size := by
  obtain ⟨hlt, hto, hw⟩ := ht
  have hf := offset.eval_lt ρ hto
  rw [← hw, width] at hf
  have hlt : base < 2 ^ w := hlt
  rw [MemoryObject.InBounds, eval, ArithmeticKind.apply, eval, width, toNat_add,
    toNat_ofNat, toNat_ofNat, Nat.mod_mod, Nat.mod_eq_of_lt hlt, Nat.mod_eq_of_lt hf]
  by_cases hr : base + offset.eval ρ < 2 ^ w
  · rw [Nat.mod_eq_of_lt hr]
    omega
  · rw [Nat.mod_eq_sub_mod (by omega), Nat.mod_eq_of_lt (by omega)]
    omega

/-- The bits of the offset that the simplifier knows to be zero. -/
def knownZeroBits (A : APInt) (depth : Nat) (x : Executor) (offset : Expr) : BitVec 64 :=
  match x.exprSimplifier.simplify A depth offset with
  | some ((_, some bits), _) => bits.knownZeroBits
  | _ => 0#64

/-- The largest offset that the known bits permit. -/
def maxOffset (A : APInt) (depth : Nat) (x : Executor) (offset : Expr) : Nat :=
  ((~~~x.knownZeroBits A depth offset).setWidth offset.width).toNat

def KnownRight (A : APInt) (depth : Nat) (x : Executor) (offset : Expr) : Prop :=
  ∀ ρ, BitVec.ofNat 64 (offset.eval ρ) &&& x.knownZeroBits A depth offset = 0#64

/-- The address is constant, or the object at its base has room for the access at the largest
offset. -/
def HasRoom (A : APInt) (depth : Nat) (x : Executor) (objects : List BoundObject) (address : Expr)
    (n : Nat) : Prop :=
  address.isConstant = true ∨ ∃ w base offset,
    address = .arithmetic .add (.constant w base) offset ∧ x.KnownRight A depth offset ∧
      ∀ o ∈ objects, o.memoryObject.address = base →
        x.maxOffset A depth offset + getMinBytesForWidth n ≤ o.memoryObject.size

theorem KnownRight.eval_le {x : Executor} (h : x.KnownRight A depth offset)
    (ht : offset.WellTyped) (hw : offset.width ≤ 64) (ρ : Assignment) :
    offset.eval ρ ≤ x.maxOffset A depth offset := by
  have hand : offset.eval ρ &&& x.maxOffset A depth offset = offset.eval ρ := by
    apply Nat.eq_of_testBit_eq
    intro i
    rw [Nat.testBit_and, maxOffset, testBit_toNat, getLsbD_setWidth, getLsbD_not]
    cases hi : (offset.eval ρ).testBit i with
    | false => rfl
    | true =>
      have hlt : i < offset.width := lt_of_testBit (offset.eval_lt ρ ht) hi
      have hk := congrArg (getLsbD · i) (h ρ)
      have hi64 : i < 64 := Nat.lt_of_lt_of_le hlt hw
      simp only [getLsbD_and, getLsbD_ofNat, hi, hi64, decide_true, Bool.true_and,
        Nat.zero_testBit] at hk
      rw [hk]
      simp [hlt, hi64]
  rw [← hand]
  exact Nat.and_le_right

/-- The verdict is right if the object has room for all offsets that the known bits permit; if
not, it is wrong at the largest one. -/
theorem resolveOneFast_inBounds {x x' : Executor}
    (h : x.resolveOneFast A depth objects address n = .ok (some (o, true), x'))
    (ht : address.WellTyped) (hw : address.width ≤ 64) (hn : 0 < n)
    (hobjects : ∀ o ∈ objects, o.memoryObject.address + o.memoryObject.size ≤ 2 ^ address.width)
    (hunique : ∀ o ∈ objects, ∀ o' ∈ objects,
      o.memoryObject.address = o'.memoryObject.address → o = o') :
    (x.HasRoom A depth objects address n →
      ∀ ρ, o.memoryObject.InBounds (address.eval ρ) (getMinBytesForWidth n)) ∧
    (¬x.HasRoom A depth objects address n → ∃ w base offset,
      address = .arithmetic .add (.constant w base) offset ∧ (x.KnownRight A depth offset →
        ∀ ρ, offset.eval ρ = x.maxOffset A depth offset →
          ¬o.memoryObject.InBounds (address.eval ρ) (getMinBytesForWidth n))) := by
  have hbs : 0 < getMinBytesForWidth n := by
    rw [getMinBytesForWidth]
    omega
  rw [resolveOneFast.eq_def] at h
  split at h
  next w v =>
    have hc : x.resolveOneFast A depth objects (.constant w v) n = .ok (some (o, true), x') := h
    have hin := (resolveOneFast_constant hc).2.2
    refine ⟨fun _ ρ => ?_, fun hr => absurd (.inl rfl) hr⟩
    rw [eval, Nat.mod_eq_of_lt ht]
    exact hin
  next w base offset =>
    split at h
    next hs =>
      injection h with h
      obtain ⟨hm, hb, -⟩ := resolveByteOffset_spec (Prod.ext_iff.1 h).1
      have hi := inBounds_add_iff ht hb (hobjects o hm) hbs
      have hwo : offset.width ≤ 64 := by
        rw [← ht.2.2]
        exact hw
      constructor
      · rintro (hc | ⟨w', base', offset', heq, hk, hfit⟩) ρ
        · cases hc
        · cases heq
          have hle := hk.eval_le ht.2.1 hwo ρ
          exact (hi ρ).2 (Nat.le_trans (Nat.add_le_add_right hle _) (hfit o hm hb))
      · refine fun hr => ⟨w, base, offset, rfl, fun hk ρ hmax hin => hr ?_⟩
        refine .inr ⟨w, base, offset, rfl, hk, fun o' hm' hb' => ?_⟩
        rw [hunique o' hm' o hm (hb'.trans hb.symm), ← hmax]
        exact (hi ρ).1 hin
    · cases h
  · cases h

theorem byteOffset_run (hr : (fresh.resolveOneFast APInt.llvm 6 [sampleObject 0x1000 z] byteOffset
      8).toOption.map (fun r => r.1.map fun f =>
        (f.1.memoryObject.address, f.1.memoryObject.size, f.2)) = some (some (0x1000, z, true))) :
    ∃ o x', fresh.resolveOneFast APInt.llvm 6 [sampleObject 0x1000 z] byteOffset 8 =
        .ok (some (o, true), x') ∧ o.memoryObject.address = 0x1000 ∧ o.memoryObject.size = z := by
  obtain ⟨⟨found, x'⟩, h, hx'⟩ := ok_of_toOption_map hr
  obtain ⟨⟨o, b⟩, rfl, heq⟩ := map_eq_some_iff.1 hx'
  simp only [Prod.mk.injEq] at heq
  obtain ⟨hb, hs, rfl⟩ := heq
  exact ⟨o, x', h, hb, hs⟩

theorem byteOffset_fits : ∃ o x', fresh.resolveOneFast APInt.llvm 6 [sampleObject 0x1000 256]
      byteOffset 8 = .ok (some (o, true), x') ∧
    ∀ ρ, o.memoryObject.InBounds (byteOffset.eval ρ) (getMinBytesForWidth 8) := by
  obtain ⟨o, x', h, -, -⟩ := byteOffset_run (z := 256) (by decide +kernel)
  have hknown : fresh.knownZeroBits APInt.llvm 6 byteAddress = ~~~0xff#64 := by decide +kernel
  have hright : fresh.KnownRight APInt.llvm 6 byteAddress := by
    intro ρ
    have hlt : BitfieldSimplifier.dataByte.eval ρ < 2 ^ 8 := eval_lt ρ _ (by decide)
    have hzero : ∀ v < 2 ^ 8, BitVec.ofNat 64 v &&& ~~~0xff#64 = 0#64 := by decide +kernel
    rw [hknown]
    exact hzero _ (Nat.lt_of_le_of_lt (Nat.mod_le _ _) hlt)
  refine ⟨o, x', h, (resolveOneFast_inBounds h (by decide) (by decide) (by decide) ?_ ?_).1
    (.inr ⟨64, 0x1000, byteAddress, rfl, hright, ?_⟩)⟩
  · simp [sampleObject, byteOffset, width]
  · simp
  · have hmax : fresh.maxOffset APInt.llvm 6 byteAddress = 255 := by
      rw [maxOffset, hknown]
      rfl
    simp [sampleObject, hmax, getMinBytesForWidth]

theorem byteOffset_overruns : ∃ o x', fresh.resolveOneFast APInt.llvm 6 [sampleObject 0x1000 4]
      byteOffset 8 = .ok (some (o, true), x') ∧
    ¬ o.memoryObject.InBounds (byteOffset.eval fun _ _ => 200) 1 := by
  obtain ⟨o, x', h, hb, hs⟩ := byteOffset_run (z := 4) (by decide +kernel)
  refine ⟨o, x', h, ?_⟩
  rw [MemoryObject.InBounds, hb, hs]
  decide

end Executor
end Chef
