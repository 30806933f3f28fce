import Chef.Bindings
import Chef.StateMerge
import Chef.Foundations.Loops

namespace Chef
open Foundations List Chef.Expr ObjectState UInt8 ObjectView Heap
/-- Values are kept, and extracting all bits does nothing. -/
structure MergeLawful (b : ExprBuilder) : Prop where
  select : (select c t f).WellTyped → (b.select c t f).Equivalent (.select c t f)
  and : (arithmetic .and l r).WellTyped → (b.and l r).Equivalent (.arithmetic .and l r)
  or : (arithmetic .or l r).WellTyped → (b.or l r).Equivalent (.arithmetic .or l r)
  read : ReadLawful b
  extract : b.extract e 0 e.width = e

namespace ObjectView
variable {v : ObjectView}
theorem cached_storeConcrete (hs : v.isShared = false) :
    { v with state := v.state.storeConcrete i x }.cached j =
      if j = i then some (.constant 8 x.toNat) else v.cached j := by
  have hs' : { v with state := v.state.storeConcrete i x }.isShared = false := hs
  rw [cached, hs', concrete_storeConcrete, known_storeConcrete, cached, hs]
  by_cases hj : j = i
  · subst hj
    have ht : (v.state.storeConcrete j x).concreteStore j = x := setAt_self _ _ _
    simp [ht]
  · have ht : (v.state.storeConcrete i x).concreteStore j = v.state.concreteStore j := if_neg hj
    simp [hj, ht]

theorem cached_storeSymbolic (hs : v.isShared = false) :
    { v with state := v.state.storeSymbolic i e }.cached j =
      if j = i then some e else v.cached j := by
  have hs' : { v with state := v.state.storeSymbolic i e }.isShared = false := hs
  rw [cached, hs', concrete_storeSymbolic, known_storeSymbolic, cached, hs]
  by_cases hj : j = i
  · subst hj
    simp
  · simp only [if_neg hj]
    rfl

structure WritesByte (b : ExprBuilder) (v : ObjectView) (i : Nat) (e : Expr) (os : ObjectState) :
    Prop where
  valid : os.Valid
  object : os.object = v.state.object
  size : os.size = v.state.size
  readOnly : os.readOnly = v.state.readOnly
  updates : os.updates = v.state.updates
  contents : j ≠ i → os.contents ρ j = v.state.contents ρ j
  written : ∃ e', { v with state := os }.settled b i = some e' ∧ ∀ ρ, e'.eval ρ = e.eval ρ
  others : j ≠ i → v.settled b j = some d → { v with state := os }.settled b j = some d

theorem WritesByte.storeConcrete (hv : v.state.Valid) (hs : v.isShared = false)
    (hx : ∀ ρ, e.eval ρ = x.toNat) : WritesByte b v i e (v.state.storeConcrete i x) where
  valid := hv.storeConcrete
  object := rfl
  size := rfl
  readOnly := rfl
  updates := rfl
  contents hj := by rw [contents_storeConcrete, if_neg hj]
  written := by
    refine ⟨.constant 8 x.toNat, ?_, fun ρ => ?_⟩
    · rw [settled, cached_storeConcrete hs, if_pos rfl]
    · rw [hx, eval]
      exact Nat.mod_eq_of_lt (toNat_lt x)
  others {j d} hj hd := by
    rw [settled, cached_storeConcrete hs, if_neg hj, flushed_storeConcrete, if_neg hj]
    exact hd

theorem WritesByte.storeSymbolic (hv : v.state.Valid) (hs : v.isShared = false)
    (ht : e.WellTyped) (hw : e.width = 8) : WritesByte b v i e (v.state.storeSymbolic i e) where
  valid := hv.storeSymbolic ht hw
  object := rfl
  size := rfl
  readOnly := rfl
  updates := rfl
  contents hj := by rw [contents_storeSymbolic, if_neg hj]
  written := by
    refine ⟨e, ?_, fun ρ => rfl⟩
    rw [settled, cached_storeSymbolic hs, if_pos rfl]
  others {j d} hj hd := by
    rw [settled, cached_storeSymbolic hs, if_neg hj, flushed_storeSymbolic, if_neg hj]
    exact hd

theorem write_byte (littleEndian : Bool) (i : Nat) (L : MergeLawful b) (hv : v.state.Valid)
    (hs : v.isShared = false) (ht : e.WellTyped) (hw : e.width = 8) : ∃ os,
    v.write b littleEndian i e = .ok { v with state := os } ∧ WritesByte b v i e os := by
  have hn : ¬v.isShared = true := by simp [hs]
  have hc : ∀ w c, e = .constant w c → ∃ os,
      v.write b littleEndian i e = .ok { v with state := os } ∧ WritesByte b v i e os := by
    intro w c he
    subst he
    obtain rfl : w = 8 := hw
    refine ⟨v.state.storeConcrete i (ofNat (c % 2 ^ 8)), ?_, ?_⟩
    · simp [write, write8, hn]
    apply WritesByte.storeConcrete hv hs
    intro ρ
    exact (toNat_ofNat_of_lt' (Nat.mod_lt _ (by decide))).symm
  have hot : (∀ w c, e ≠ .constant w c) → ∃ os,
      v.write b littleEndian i e = .ok { v with state := os } ∧ WritesByte b v i e os := by
    intro hne
    refine ⟨v.state.storeSymbolic i e, ?_, WritesByte.storeSymbolic hv hs ht hw⟩
    have hex : b.extract e 0 8 = e := hw ▸ L.extract
    have hd : byteIndex littleEndian 1 0 = 0 := by
      rw [byteIndex]
      split <;> rfl
    have hwr : v.write8Expr i e = .ok { v with state := v.state.storeSymbolic i e } := by
      rw [write8Expr]
      · rw [if_neg hn]
      · exact hne
    have hbs : v.writeBytes b littleEndian i e =
        .ok { v with state := v.state.storeSymbolic i e } := by
      rw [writeBytes, hw, if_neg (by decide), if_pos rfl]
      change foldlM _ v [0] = _
      rw [foldlM_cons, hd, Nat.mul_zero, hex, Nat.add_zero, hwr]
      rfl
    rw [write]
    · exact hbs
    · exact hne
  cases e with
  | constant w c => exact hc w c rfl
  | _ => exact hot (by intro w c he; cases he)

theorem settled_congr {v v' : ObjectView} (hst : v'.state = v.state) (hh : v'.host = v.host) :
    v'.settled b i = v.settled b i := by
  obtain ⟨os, host, n⟩ := v
  obtain ⟨os', host', n'⟩ := v'
  cases hst
  cases hh
  rfl

end ObjectView

namespace ExecutionState
open ObjectState ObjectView
def Chosen (inA : Expr) (x y : ObjectState) (i : Nat) (e : Expr) : Prop :=
  ∀ ρ, (inA.eval ρ = 1 → x.updates.head.Defined ρ → e.eval ρ = (x.contents ρ i).toNat) ∧
    (inA.eval ρ ≠ 1 → y.updates.head.Defined ρ → e.eval ρ = (y.contents ρ i).toNat)

structure BytesMerged (b : ExprBuilder) (inA : Expr) (h0 : Heap) (w r : Nat) (done : List Nat)
    (h : Heap) : Prop where
  host : h.host = h0.host
  conditions : h.conditions = h0.conditions
  size_eq : h.objectStates.size = h0.objectStates.size
  others : k ≠ w → k ≠ r → h.objectStates.get k = h0.objectStates.get k
  other : ∃ updates, h.objectStates.get r = { h0.objectStates.get r with updates := updates } ∧
    UpdatesAgree (h0.objectStates.get r) updates
  object : (h.objectStates.get w).object = (h0.objectStates.get w).object
  size : (h.objectStates.get w).size = (h0.objectStates.get w).size
  readOnly : (h.objectStates.get w).readOnly = (h0.objectStates.get w).readOnly
  valid : (h.objectStates.get w).Valid
  defined : (h0.objectStates.get w).updates.head.Defined ρ →
    (h.objectStates.get w).updates.head.Defined ρ
  pending : i ∉ done → i < (h0.objectStates.get w).size →
    (h.objectStates.get w).contents ρ i = (h0.objectStates.get w).contents ρ i
  merged : i ∈ done → ∃ e, (h.view w).settled b i = some e ∧
    Chosen inA (h0.objectStates.get w) (h0.objectStates.get r) i e

theorem BytesMerged.init (hw : (h0.objectStates.get w).Valid) (hr : (h0.objectStates.get r).Valid) :
    BytesMerged b inA h0 w r [] h0 := by
  refine ⟨rfl, rfl, rfl, fun _ _ => rfl, ⟨_, rfl, hr.agree⟩, rfl, rfl, rfl, hw, fun h => h,
    fun _ _ => rfl, fun hi => ?_⟩
  cases hi

theorem BytesMerged.unchanged (hB : BytesMerged b inA h0 w r done h) (hi : (h.view w).settled b i =
    some e) (hc : Chosen inA (h0.objectStates.get w) (h0.objectStates.get r) i e) :
    BytesMerged b inA h0 w r (done ++ [i]) h where
  host := hB.host
  conditions := hB.conditions
  size_eq := hB.size_eq
  others := hB.others
  other := hB.other
  object := hB.object
  size := hB.size
  readOnly := hB.readOnly
  valid := hB.valid
  defined := hB.defined
  pending hj := hB.pending fun hd => hj (mem_append_left _ hd)
  merged {j} hj := by
    obtain hj | hj := mem_append.1 hj
    · exact hB.merged hj
    · rw [mem_singleton.1 hj]
      exact ⟨e, hi, hc⟩

theorem BytesMerged.written (hB : BytesMerged b inA h0 w r done h) (hne : w ≠ r)
    (hw : w < h0.objectStates.size) (hi : i ∉ done) (hW : WritesByte b (h.view w) i d os)
    (hh : Chosen inA (h0.objectStates.get w) (h0.objectStates.get r) i d) :
    BytesMerged b inA h0 w r (done ++ [i]) (h.setView w { h.view w with state := os }) := by
  have hw' : w < h.objectStates.size := hB.size_eq ▸ hw
  have hv : (h.setView w { h.view w with state := os }).view w =
      { h.view w with state := os } := view_setView hw'
  have hg : (h.setView w { h.view w with state := os }).objectStates.get w = os := congrArg state hv
  constructor
  · exact hB.host
  · exact hB.conditions
  · rw [size_setView]
    exact hB.size_eq
  · intro k hkw hkr
    rw [get_setView_ne (Ne.symm hkw)]
    exact hB.others hkw hkr
  · rw [get_setView_ne hne]
    exact hB.other
  · rw [hg, hW.object]
    exact hB.object
  · rw [hg, hW.size]
    exact hB.size
  · rw [hg, hW.readOnly]
    exact hB.readOnly
  · rw [hg]
    exact hW.valid
  · intro ρ hd
    rw [hg, hW.updates]
    exact hB.defined hd
  · intro j ρ hj hjw
    have hji : j ≠ i := fun he => hj (by simp [he])
    rw [hg, hW.contents hji]
    exact hB.pending (fun hd => hj (mem_append_left _ hd)) hjw
  · intro j hj
    rw [hv]
    obtain hj | hj := mem_append.1 hj
    · obtain ⟨e, he, hc⟩ := hB.merged hj
      have hji : j ≠ i := fun he => hi (he ▸ hj)
      exact ⟨e, hW.others hji he, hc⟩
    rw [mem_singleton.1 hj]
    obtain ⟨e, he, hev⟩ := hW.written
    refine ⟨e, he, fun ρ => ?_⟩
    rw [hev]
    exact hh ρ

variable (L : MergeLawful b) (hB : BytesMerged b inA h0 w r done h)
  (hne : w ≠ r) (hw : w < h0.objectStates.size) (hr : r < h0.objectStates.size)
  (hvr : (h0.objectStates.get r).Valid) (hsr : (h0.view r).isShared = false)
  (hsw : (h0.view w).isShared = false)
  (hiw : i < (h0.objectStates.get w).size) (hir : i < (h0.objectStates.get r).size)
  (hi : i ∉ done)
include L hB hne hw hr hvr hsr hsw hiw hir hi
theorem BytesMerged.reads : ∃ av v bv v', (h.view w).read8 b i = .ok (av, v) ∧
      ((h.setView w v).view r).read8 b i = .ok (bv, v') ∧
      av.WellTyped ∧ av.width = 8 ∧ bv.WellTyped ∧ bv.width = 8 ∧
      (∀ ρ, (h0.objectStates.get w).updates.head.Defined ρ →
        av.eval ρ = ((h0.objectStates.get w).contents ρ i).toNat) ∧
      (∀ ρ, (h0.objectStates.get r).updates.head.Defined ρ →
        bv.eval ρ = ((h0.objectStates.get r).contents ρ i).toNat) ∧
      BytesMerged b inA h0 w r done ((h.setView w v).setView r v') ∧
      (((h.setView w v).setView r v').view w).settled b i = some av := by
  obtain ⟨ulr, hst, ha⟩ := hB.other
  have hw' : w < h.objectStates.size := hB.size_eq ▸ hw
  have hr' : r < h.objectStates.size := hB.size_eq ▸ hr
  have hiw' : i < (h.view w).state.size := hB.size ▸ hiw
  obtain ⟨av, ula, n, hrd, hat, haw, hg, hav⟩ := read8_spec L.read hB.valid hiw'
  have hsw' : ((h.view w)).isShared = false := by
    rw [isShared, view, hB.object]
    exact hsw
  generalize hv : (h.view w).withUpdates ula n = v at hrd
  have hvhost : v.host = h.host := by
    rw [← hv]
    rfl
  have hvs : v.state = { h.objectStates.get w with updates := ula } := by
    rw [← hv]
    rfl
  have ht : (h.setView w v).objectStates.get r = h.objectStates.get r := get_setView_ne hne
  have hview : ((h.setView w v).view r).state = h.objectStates.get r := ht
  have hl : ((h.setView w v).view r).state.Valid := by
    rw [hview, hst]
    exact ha.valid hvr
  have hir' : i < ((h.setView w v).view r).state.size := by
    rw [hview, hst]
    exact hir
  obtain ⟨bv, ulb, n', hread', hbt, hbw, hb, hbv⟩ := read8_spec L.read hl hir'
  generalize hv' : ((h.setView w v).view r).withUpdates ulb n' = v' at hread'
  have hvhost' : v'.host = h.host := by
    rw [← hv']
    exact hvhost
  have hvt : v'.state = { h0.objectStates.get r with updates := ulb } := by
    rw [← hv', withUpdates]
    rw [hview, hst]
  have hfw : ((h.setView w v).setView r v').objectStates.get w = v.state := by
    rw [get_setView_ne hne.symm]
    exact congrArg state (view_setView hw')
  have hf : ((h.setView w v).setView r v').objectStates.get r = v'.state := by
    have hz : r < (h.setView w v).objectStates.size := by
      rw [size_setView]
      exact hr'
    exact congrArg state (view_setView hz)
  have hs : ∀ j e, v.settled b j = some e →
      (((h.setView w v).setView r v').view w).settled b j = some e := by
    intro j e hj
    rw [← hj]
    exact settled_congr hfw (hvhost'.trans hvhost.symm)
  refine ⟨av, v, bv, v', hrd, hread', hat, haw, hbt, hbw, ?_, ?_, ?_, hs i av (read8_settled hrd)⟩
  · intro ρ hd
    rw [hav ρ (hB.defined hd), byteAt, hsw', ← hB.pending hi hiw]
    rfl
  · intro ρ hd
    have hc : (h.objectStates.get r).contents ρ i = (h0.objectStates.get r).contents ρ i := by
      rw [hst]
      exact ha.contents hir
    have hsr' : ((h.setView w v).view r).isShared = false := by
      rw [isShared, hview, hst]
      exact hsr
    have hd' : ((h.setView w v).view r).state.updates.head.Defined ρ := by
      rw [hview, hst]
      exact ha.defined hd
    rw [hbv ρ hd', byteAt, hsr', ← hc, hview]
    rfl
  · constructor
    · exact hvhost'.trans hB.host
    · exact hB.conditions
    · rw [size_setView, size_setView]
      exact hB.size_eq
    · intro k hkw hkr
      rw [get_setView_ne (Ne.symm hkr), get_setView_ne (Ne.symm hkw)]
      exact hB.others hkw hkr
    · refine ⟨ulb, hf.trans hvt, ?_⟩
      rw [hview, hst] at hb
      exact ha.trans hb
    · rw [hfw, hvs]
      exact hB.object
    · rw [hfw, hvs]
      exact hB.size
    · rw [hfw, hvs]
      exact hB.readOnly
    · rw [hfw, hvs]
      exact hg.valid hB.valid
    · intro ρ hd
      rw [hfw, hvs]
      exact hg.defined (hB.defined hd)
    · intro j ρ hj hjw
      rw [hfw, hvs]
      exact (hg.contents (hB.size ▸ hjw)).trans (hB.pending hj hjw)
    · intro j hj
      obtain ⟨e, he, hh⟩ := hB.merged hj
      exact ⟨e, hs j e (settled_of_read8 hrd he), hh⟩

theorem BytesMerged.step (hA : inA.WellTyped) (hA' : inA.width = 1) : ∃ h',
      mergeByte b littleEndian inA w r h i = .ok h' ∧
        BytesMerged b inA h0 w r (done ++ [i]) h' := by
  obtain ⟨av, v, bv, v', hrd, hread', hat, haw, hbt, hbw, ha, hb, hB', ht⟩ :=
    hB.reads L hne hw hr hvr hsr hsw hiw hir hi
  rw [mergeByte, hrd]
  simp only [bind, Except.bind, hread']
  split
  next heq =>
    refine ⟨_, rfl, hB'.unchanged ht fun ρ => ⟨fun _ hd => ha ρ hd, fun _ hd => ?_⟩⟩
    rw [heq]
    exact hb ρ hd
  · rw [if_pos (haw.trans hbw.symm)]
    have hs := L.select (show (select inA av bv).WellTyped from
      ⟨hA, hat, hbt, hA', haw.trans hbw.symm⟩)
    have hh : (((h.setView w v).setView r v').view w).isShared = false := by
      rw [isShared, view, hB'.object]
      exact hsw
    obtain ⟨os, hwr, hW⟩ := write_byte littleEndian i L hB'.valid hh
      hs.wellTyped (hs.width_eq.trans haw)
    rw [hwr]
    refine ⟨_, rfl, hB'.written hne hw hi hW fun ρ => ?_⟩
    rw [hs.eval_eq, eval]
    constructor
    · intro hin hd
      rw [if_pos hin]
      exact ha ρ hd
    · intro hin hd
      rw [if_neg hin]
      exact hb ρ hd


end ExecutionState
end Chef
