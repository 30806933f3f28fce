import Chef.ObjectCoherence
import Chef.Foundations.Bytes

namespace Chef
open Foundations Chef.Expr UInt8 Except
/-- The constructors keep values, for reads where they are in range. -/
structure AccessLawful (b : ExprBuilder) : Prop where
  read : ObjectView.ReadLawful b
  concat : (concat l r).WellTyped → (b.concat l r).Preserves (.concat l r)
  extract : (extract e offset w).WellTyped → (b.extract e offset w).Preserves (.extract e offset w)
  zext : e.WellTyped → (b.zext e w).Preserves (if e.width ≤ w then .zext e w else .extract e 0 w)
  add : (arithmetic .add l r).WellTyped → (b.add l r).Preserves (.arithmetic .add l r)
  eq : (compare .eq l r).WellTyped → (b.eq l r).Refines (.compare .eq l r)

structure Expr.Resized (e : Expr) (w : Nat) (e' : Expr) : Prop where
  wellTyped : e'.WellTyped
  width_eq : e'.width = w
  eval_eq : e'.eval ρ = e.eval ρ % 2 ^ w
  defined : e.Defined ρ → e'.Defined ρ

theorem AccessLawful.zext_resized {e : Expr} (L : AccessLawful b) (ht : e.WellTyped) (w : Nat) :
    e.Resized w (b.zext e w) := by
  have h := L.zext (w := w) ht
  split at h
  · exact ⟨h.wellTyped, h.width_eq, h.eval_eq _, h.defined⟩
  · refine ⟨h.wellTyped, h.width_eq, fun {ρ} => ?_, h.defined⟩
    rw [h.eval_eq, eval, Nat.pow_zero, Nat.div_one]

namespace ObjectState
variable (h : Represents P m os)
include h
theorem Represents.congr (hm : ∀ ρ, P ρ → ∀ i < os.size, m' ρ i = m ρ i) : Represents P m' os where
  valid := h.valid
  coherent := h.coherent
  contents hρ hi := (h.contents hρ hi).trans (hm _ hρ _ hi).symm

theorem Represents.mono (hP : ∀ ρ, Q ρ → P ρ) : Represents Q m os where
  valid := h.valid
  coherent hρ := h.coherent (hP _ hρ)
  contents hρ := h.contents (hP _ hρ)

theorem Represents.withUpdates (ha : UpdatesAgree os ul) :
    Represents P m { os with updates := ul } where
  valid := ha.valid h.valid
  coherent {ρ} hρ := by
    have hc := h.coherent hρ
    refine ⟨fun {i} hi hf => ?_, ha.defined hc.updates_defined, hc.known_defined⟩
    rw [ha.contents hi]
    exact (ha.value hi).trans (hc.flushed hi hf)
  contents hρ hi := (ha.contents hi).trans (h.contents hρ hi)

theorem Represents.storeConcrete (i : Nat) (x : UInt8) :
    Represents P (fun ρ => setAt (m ρ) i x) (os.storeConcrete i x) where
  valid := h.valid.storeConcrete
  coherent {ρ} hρ := by
    have hc := h.coherent hρ
    refine ⟨fun {j} hj hf => ?_, hc.updates_defined, fun {j e} hk => ?_⟩
    · rw [flushed_storeConcrete] at hf
      rw [contents_storeConcrete]
      split at hf
      · cases hf
      next hji =>
        rw [if_neg hji]
        exact hc.flushed hj hf
    · rw [known_storeConcrete] at hk
      split at hk
      · cases hk
      · exact hc.known_defined hk
  contents {ρ j} hρ hj := by
    rw [contents_storeConcrete, setAt_apply]
    split
    · rfl
    · exact h.contents hρ hj

theorem Represents.storeSymbolic (i : Nat) (ht : e.WellTyped)
    (hw : e.width = 8) (hd : ∀ ρ, P ρ → e.Defined ρ) :
    Represents P (fun ρ => setAt (m ρ) i (ofNat (e.eval ρ))) (os.storeSymbolic i e) where
  valid := h.valid.storeSymbolic ht hw
  coherent {ρ} hρ := by
    have hc := h.coherent hρ
    refine ⟨fun {j} hj hf => ?_, hc.updates_defined, fun {j d} hk => ?_⟩
    · rw [flushed_storeSymbolic] at hf
      rw [contents_storeSymbolic]
      split at hf
      · cases hf
      next hji =>
        rw [if_neg hji]
        exact hc.flushed hj hf
    · rw [known_storeSymbolic] at hk
      split at hk
      · cases hk
        exact hd ρ hρ
      · exact hc.known_defined hk
  contents {ρ j} hρ hj := by
    rw [contents_storeSymbolic, setAt_apply]
    split
    · rfl
    · exact h.contents hρ hj

end ObjectState

namespace ObjectView
open ObjectState
structure Tracks (P : Assignment → Prop) (m : Assignment → Nat → UInt8) (v0 v : ObjectView) :
    Prop where
  host : v.host = v0.host
  object : v.state.object = v0.state.object
  owner : v.state.copyOnWriteOwner = v0.state.copyOnWriteOwner
  readOnly : v.state.readOnly = v0.state.readOnly
  unshared : v.isShared = false
  represents : Represents P m v.state

structure ReadsByte (P : Assignment → Prop) (x : Assignment → UInt8) (e : Expr) : Prop where
  wellTyped : e.WellTyped
  width_eq : e.width = 8
  eval_eq : P ρ → e.eval ρ = (x ρ).toNat

structure InRange (P : Assignment → Prop) (size : Nat) (offset : Expr) : Prop where
  wellTyped : offset.WellTyped
  defined : P ρ → offset.Defined ρ
  lt_size : P ρ → offset.eval ρ < size

theorem Tracks.size (h : Tracks P m v0 v) : v.state.size = v0.state.object.size := by
  rw [h.represents.valid.size_eq, h.object]

section
variable (L : AccessLawful b) (h : Tracks P m v0 v)
include L h
theorem read8_tracks (hi : i < v.state.size) :
    ∃ e v', v.read8 b i = .ok (e, v') ∧ Tracks P m v0 v' ∧ ReadsByte P (fun ρ => m ρ i) e := by
  obtain ⟨e, ul, n, hr, ht, hw, ha, he⟩ := read8_spec L.read h.represents.valid hi
  refine ⟨e, _, hr, ⟨h.host, h.object, h.owner, h.readOnly, h.unshared,
    h.represents.withUpdates ha⟩, ht, hw, fun {ρ} hρ => ?_⟩
  have hc := h.represents.coherent hρ
  rw [he ρ hc.updates_defined, byteAt, h.unshared, if_neg Bool.false_ne_true,
    h.represents.contents hρ hi]

theorem read8At_total (ht : offset.WellTyped) (hn : offset.isConstant = false) :
    ∃ e v', v.read8At b offset = .ok (e, v') ∧ Tracks P m v0 v' ∧ e.WellTyped ∧ e.width = 8 ∧
      ∀ ρ, P ρ → offset.Defined ρ → offset.eval ρ < v.state.size →
        e.eval ρ = (m ρ (offset.eval ρ)).toNat := by
  have hv := h.represents.valid
  obtain ⟨os, hok, hF⟩ := flushRangeForRead_spec hv
  have hs : os.size = v.state.size := by rw [hF.same]
  have ho : os.object = v.state.object := by rw [hF.same]
  have how : os.copyOnWriteOwner = v.state.copyOnWriteOwner := by rw [hF.same]
  have hr : os.readOnly = v.state.readOnly := by rw [hF.same]
  have hfl : ∀ {i}, i < v.state.size → os.isByteFlushed i = true := fun hi =>
    hF.reached (List.mem_range.2 hi)
  have hR : Represents P m os := by
    refine ⟨hF.valid, fun hρ => hF.coherent (h.represents.coherent hρ), fun hρ hi => ?_⟩
    rw [hF.contents (hs ▸ hi)]
    exact h.represents.contents hρ (hs ▸ hi)
  obtain ⟨array, head, n, hu, ha⟩ := getUpdates_spec (v := { v with state := os }) hF.valid
  obtain ⟨hsizeA, _⟩ := ha.root_size rfl
  have hz := L.zext_resized ht 32
  have hty : (Expr.read array head (b.zext offset 32)).WellTyped :=
    ⟨ha.typed, hz.wellTyped, hz.width_eq⟩
  have hrd : v.read8At b offset = .ok (b.read array head (b.zext offset 32),
      { v with state := os }.withUpdates ⟨some array, head⟩ n) := by
    rw [read8At, hn, if_neg Bool.false_ne_true, h.unshared, if_neg Bool.false_ne_true, hok]
    simp only [Except.map, hu]
  refine ⟨_, _, hrd,
    ⟨h.host, ho.trans h.object, how.trans h.owner, hr.trans h.readOnly, ?_, hR.withUpdates ha⟩,
    L.read.wellTyped hty, L.read.width_eq hty, fun ρ hρ hd hlt => ?_⟩
  · have hun := h.unshared
    rw [isShared, ← ho] at hun
    exact hun
  have hlt' : offset.eval ρ < os.size := hs.symm ▸ hlt
  have hx : (b.zext offset 32).eval ρ = offset.eval ρ := by
    rw [hz.eval_eq]
    exact Nat.mod_eq_of_lt (Nat.lt_trans hlt hv.size_lt)
  have hf : (Expr.read array head (b.zext offset 32)).Defined ρ := by
    refine ⟨hz.defined hd, ha.defined (hR.coherent hρ).updates_defined, ?_⟩
    rw [hx, hsizeA]
    exact hlt'
  have hl := (ha.value hlt').trans ((hR.coherent hρ).flushed hlt' (hfl hlt))
  rw [L.read.eval_eq hty hf, Expr.eval, hx]
  exact congrArg UInt8.toNat (hl.trans (hR.contents hρ hlt'))

theorem read8At_spec (ho : InRange P v.state.size offset)
    (hn : offset.isConstant = false) : ∃ e v', v.read8At b offset = .ok (e, v') ∧
      Tracks P m v0 v' ∧ ReadsByte P (fun ρ => m ρ (offset.eval ρ)) e := by
  obtain ⟨e, v', hr, hT, ht, hw, he⟩ := read8At_total L h ho.wellTyped hn
  exact ⟨e, v', hr, hT, ht, hw, fun {ρ} hρ => he ρ hρ (ho.defined hρ) (ho.lt_size hρ)⟩

end

section
variable (h : Tracks P m v0 v)
include h
theorem write8_tracks (i : Nat) (x : UInt8) :
    Tracks P (fun ρ => setAt (m ρ) i x) v0 (v.write8 i x) := by
  have hun := h.unshared
  rw [write8, hun, if_neg Bool.false_ne_true]
  exact ⟨h.host, h.object, h.owner, h.readOnly, hun, h.represents.storeConcrete i x⟩

theorem write8Expr_tracks (ht : e.WellTyped) (hw : e.width = 8)
    (hd : ∀ ρ, P ρ → e.Defined ρ) (hok : v.write8Expr i e = .ok v') :
    Tracks P (fun ρ => setAt (m ρ) i (ofNat (e.eval ρ))) v0 v' := by
  rw [write8Expr.eq_def] at hok
  split at hok
  next w c =>
    split at hok
    · obtain rfl := ok.inj hok
      have hwr := write8_tracks h i (ofNat (c % 2 ^ w))
      have he : ∀ ρ, (constant w c).eval ρ = c % 2 ^ w := fun ρ => by rw [eval]
      exact hwr
    · cases hok
  · rw [h.unshared, if_neg Bool.false_ne_true] at hok
    obtain rfl := ok.inj hok
    exact ⟨h.host, h.object, h.owner, h.readOnly, h.unshared, h.represents.storeSymbolic i ht hw hd⟩

theorem write8Expr_total (hw : e.width = 8) (i : Nat) : ∃ v', v.write8Expr i e = .ok v' := by
  rw [write8Expr.eq_def]
  split
  next w c =>
    have hle : w ≤ 8 := Nat.le_of_eq hw
    exact ⟨_, if_pos hle⟩
  · rw [h.unshared]
    exact ⟨_, rfl⟩

theorem write8At_total (hn : offset.isConstant = false)
    (hw : e.width = 8) : ∃ v', v.write8At b offset e = .ok v' := by
  obtain ⟨os, hfl, _⟩ := flushRangeForWrite_spec h.represents.valid
  have he : os.extend (b.zext offset 32) e = .ok { os with
      updates := ⟨os.updates.root, .node (b.zext offset 32) e os.updates.head⟩ } := if_pos hw
  rw [write8At, hn, if_neg Bool.false_ne_true, h.unshared, if_neg Bool.false_ne_true, hfl]
  simp only [bind, Except.bind, he, Except.map]
  exact ⟨_, rfl⟩

end

theorem write8At_tracks (L : AccessLawful b) (h : Tracks P m v0 v)
    (ho : InRange P v.state.size offset) (ht : e.WellTyped) (hw : e.width = 8)
    (hd : ∀ ρ, P ρ → e.Defined ρ) (hok : v.write8At b offset e = .ok v') :
    Tracks P (fun ρ => setAt (m ρ) (offset.eval ρ) (ofNat (e.eval ρ))) v0 v' := by
  have hv := h.represents.valid
  obtain ⟨os, hfl, hF⟩ := flushRangeForWrite_spec hv
  have hs : os.size = v.state.size := by rw [hF.same]
  have hb : os.object = v.state.object := by rw [hF.same]
  have how : os.copyOnWriteOwner = v.state.copyOnWriteOwner := by rw [hF.same]
  have hr : os.readOnly = v.state.readOnly := by rw [hF.same]
  have hz := L.zext_resized ho.wellTyped 32
  rw [write8At] at hok
  split at hok
  · cases hok
  rw [h.unshared, if_neg Bool.false_ne_true, hfl] at hok
  have he : os.extend (b.zext offset 32) e = .ok { os with
      updates := ⟨os.updates.root, .node (b.zext offset 32) e os.updates.head⟩ } := if_pos hw
  simp only [bind, Except.bind, he, Except.map] at hok
  obtain rfl := ok.inj hok
  have hi : ∀ {ρ}, P ρ → (b.zext offset 32).eval ρ = offset.eval ρ := by
    intro ρ hρ
    rw [hz.eval_eq]
    exact Nat.mod_eq_of_lt (Nat.lt_trans (ho.lt_size hρ) hv.size_lt)
  have hl : ∀ {ρ j}, P ρ → j < os.size →
      UpdateList.valueAt ⟨os.updates.root, .node (b.zext offset 32) e os.updates.head⟩ ρ os.size j =
        setAt (m ρ) (offset.eval ρ) (ofNat (e.eval ρ)) j := by
    intro ρ j hρ hj
    have hj' : j < v.state.size := hs ▸ hj
    have hol := contents_of_byteExpr_none (ρ := ρ) (hF.reached (List.mem_range.2 hj')).2
    rw [hF.contents (h.represents.coherent hρ) hj', h.represents.contents hρ hj'] at hol
    rw [UpdateList.valueAt_extend, hi hρ, setAt_apply, ← hol]
    simp only [eq_comm]
  have hn : ∀ {ρ j}, P ρ → j < os.size → contents { os with
      updates := ⟨os.updates.root, .node (b.zext offset 32) e os.updates.head⟩ } ρ j =
        setAt (m ρ) (offset.eval ρ) (ofNat (e.eval ρ)) j := by
    intro ρ j hρ hj
    have hno := (hF.reached (List.mem_range.2 (hs ▸ hj))).2
    refine Eq.trans ?_ (hl hρ hj)
    exact contents_of_byteExpr_none hno
  have hvd := hF.valid
  refine ⟨h.host, hb.trans h.object, how.trans h.owner, hr.trans h.readOnly, ?_, ?_, ?_, ?_⟩
  · have hun := h.unshared
    rw [isShared, ← hb] at hun
    exact hun
  · exact ⟨hvd.size_eq, hvd.size_lt, hvd.cached, hvd.known_typed, hvd.known_symbolic,
      ⟨hz.wellTyped, hz.width_eq, ht, hw, hvd.updates_typed⟩, hvd.root_size⟩
  · intro ρ hρ
    have hc := hF.coherent (h.represents.coherent hρ)
    refine ⟨fun {j} hj _ => (hl hρ hj).trans (hn hρ hj).symm, ?_, hc.known_defined⟩
    exact ⟨hz.defined (ho.defined hρ), hd ρ hρ, hc.updates_defined⟩
  · intro ρ j hρ hj
    exact hn hρ hj

end ObjectView
end Chef
