import Chef.ObjectAccess

namespace Chef
open Foundations List UInt8 Nat
def byteSpan (width : Nat) : Nat := (width + 7) / 8

theorem byteSpan_of_mod (h : width % 8 = 0) : byteSpan width = width / 8 := by
  rw [byteSpan]
  omega

theorem pow_bytes (n : Nat) : 2 ^ (8 * n) = 256 ^ n := Nat.pow_mul 2 8 n

namespace ObjectView
open ObjectState
/-- It has the value of some bytes, least significant byte first. -/
structure ReadsWide (P : Assignment → Prop) (x : Assignment → Nat → UInt8) (width : Nat)
    (e : Expr) : Prop where
  wellTyped : e.WellTyped
  width_eq : e.width = width
  eval_eq : P ρ → e.eval ρ = leValue (x ρ) (byteSpan width) % 2 ^ width

variable {v0 v v' : ObjectView} {P : Assignment → Prop} {m x : Assignment → Nat → UInt8}
  {readByte : ObjectView → Nat → Except MemoryFault (Expr × ObjectView)}

theorem ReadsWide.congr (h : ReadsWide P x w e)
    (hxy : ∀ ρ, P ρ → ∀ k < byteSpan w, x ρ k = y ρ k) : ReadsWide P y w e where
  wellTyped := h.wellTyped
  width_eq := h.width_eq
  eval_eq hρ := by rw [h.eval_eq hρ, leValue_congr (hxy _ hρ)]

theorem ReadsByte.wide (h : ReadsByte P (fun ρ => x ρ 0) e) : ReadsWide P x 8 e where
  wellTyped := h.wellTyped
  width_eq := h.width_eq
  eval_eq {ρ} hρ := by
    have hsp : byteSpan 8 = 1 := rfl
    rw [h.eval_eq hρ, hsp, leValue_one]
    exact (mod_eq_of_lt (toNat_lt _)).symm

theorem ReadsWide.concat (L : AccessLawful b) (hb : ReadsByte P (fun ρ => x ρ n) byte)
    (h : ReadsWide P x (8 * n) e) : ReadsWide P x (8 * (n + 1)) (b.concat byte e) := by
  have hsp : ∀ n, byteSpan (8 * n) = n := fun n => by rw [byteSpan]; omega
  have hc := L.concat (l := byte) (r := e) ⟨hb.wellTyped, h.wellTyped⟩
  refine ⟨hc.wellTyped, ?_, fun {ρ} hρ => ?_⟩
  · rw [hc.width_eq, Expr.width, hb.width_eq, h.width_eq]
    omega
  have hlt := leValue_lt (x ρ) n
  have hlt' := leValue_lt (x ρ) (n + 1)
  rw [hc.eval_eq, Expr.eval, hb.eval_eq hρ, h.eval_eq hρ, h.width_eq, hsp, hsp, pow_bytes,
    pow_bytes, mod_eq_of_lt hlt, mod_eq_of_lt hlt', leValue_succ]
  rw [mul_comm, add_comm]

theorem readBytes_succ : readBytes b true readByte (n + 1) v =
    (readBytes b true readByte n v >>= fun r => readByte r.2 n >>= fun p =>
      (addByte b p.1 n r.1).map fun res => (res, p.2)) := by
  rw [readBytes, range_succ, foldlM_append, readBytes]
  simp only [byteIndex, if_true, foldlM_cons, foldlM_nil, bind_pure]

def WholeWidth (width : Nat) : Prop := width = 1 ∨ width % 8 = 0 ∧ 0 < width

structure Fits (P : Assignment → Prop) (size n : Nat) (offset : Expr) : Prop where
  satisfiable : ∃ ρ, P ρ
  wellTyped : offset.WellTyped
  defined : P ρ → offset.Defined ρ
  fits : P ρ → offset.eval ρ % 2 ^ 32 + n ≤ size

section
variable (L : AccessLawful b)
include L
theorem readBytes_spec (hb : ∀ {v k}, Tracks P m v0 v → k < n →
      ∃ e v', readByte v k = .ok (e, v') ∧ Tracks P m v0 v' ∧ ReadsByte P (fun ρ => x ρ k) e)
    (h : Tracks P m v0 v) (hn : 0 < n) :
    ∃ e v', readBytes b true readByte n v = .ok (some e, v') ∧ ReadsWide P x (8 * n) e := by
  have hlp : ∀ k < n, ∃ e v', readBytes b true readByte (k + 1) v = .ok (some e, v') ∧
      Tracks P m v0 v' ∧ ReadsWide P x (8 * (k + 1)) e := by
    intro k hk
    induction k with
    | zero =>
      obtain ⟨e, v', hr, hT, hB⟩ := hb h hk
      refine ⟨e, v', ?_, hT, hB.wide⟩
      have hno : readBytes b true readByte 0 v = .ok (none, v) := rfl
      rw [readBytes_succ, hno]
      simp only [bind, Except.bind, hr]
      rfl
    | succ k ih =>
      obtain ⟨e1, v1, h₁, hT1, he⟩ := ih (by omega)
      obtain ⟨e2, v2, hr, hT2, hB⟩ := hb hT1 hk
      refine ⟨b.concat e2 e1, v2, ?_, hT2, he.concat L hB⟩
      rw [readBytes_succ, h₁]
      simp only [bind, Except.bind, hr]
      rfl
  obtain ⟨e, v', hr, -, hR⟩ := hlp (n - 1) (by omega)
  rw [Nat.sub_add_cancel hn] at hr hR
  exact ⟨e, v', hr, hR⟩

theorem extractBit (h : ReadsByte P (fun ρ => x ρ 0) e) : ReadsWide P x 1 (b.extract e 0 1) := by
  have hty : (Expr.extract e 0 1).WellTyped := by
    refine ⟨h.wellTyped, ?_⟩
    rw [h.width_eq]
    decide
  have hx := L.extract hty
  refine ⟨hx.wellTyped, hx.width_eq, fun {ρ} hρ => ?_⟩
  have hsp : byteSpan 1 = 1 := rfl
  rw [hx.eval_eq, Expr.eval, h.eval_eq hρ, Nat.pow_zero, Nat.div_one, hsp, leValue_one]

theorem readWidth_spec {first : Except MemoryFault (Expr × ObjectView)} (h : Tracks P m v0 v)
    (hw : WholeWidth w) (hs : w = 1 → ∃ e v', first = .ok (e, v') ∧ ReadsByte P (fun ρ => x ρ 0) e)
    (hb : ∀ {v k}, Tracks P m v0 v → k < w / 8 →
      ∃ e v', readByte v k = .ok (e, v') ∧ Tracks P m v0 v' ∧ ReadsByte P (fun ρ => x ρ k) e) :
    ∃ e v', (if w = 1 then first.map fun p => (some (b.extract p.1 0 1), p.2)
      else if w % 8 = 0 then readBytes b true readByte (w / 8) v else .error .invalidWidth) =
        .ok (some e, v') ∧ ReadsWide P x w e := by
  split
  next h1 =>
    obtain ⟨e, v', hr, hB⟩ := hs h1
    subst h1
    exact ⟨_, v', by rw [hr]; rfl, extractBit L hB⟩
  next h1 =>
    obtain ⟨hm, hp⟩ := hw.resolve_left h1
    obtain ⟨e, v', hr, hR⟩ := readBytes_spec L hb h (by omega)
    have hw' : 8 * (w / 8) = w := by omega
    rw [hw'] at hR
    exact ⟨e, v', by rw [if_pos hm, hr], hR⟩

theorem read_spec (h : Tracks P m v0 v) (hw : WholeWidth w)
    (hft : i + byteSpan w ≤ v0.state.object.size) :
    ∃ e v', v.read b true i w = .ok (some e, v') ∧ ReadsWide P (fun ρ k => m ρ (i + k)) w e := by
  have hb : ∀ {v k}, Tracks P m v0 v → k < byteSpan w → ∃ e v', v.read8 b (i + k) = .ok (e, v') ∧
      Tracks P m v0 v' ∧ ReadsByte P (fun ρ => m ρ (i + k)) e := by
    intro v k hT hk
    obtain ⟨e, v', hr, hT', hB⟩ := read8_tracks L hT (i := i + k) (by rw [hT.size]; omega)
    exact ⟨e, v', hr, hT', hB⟩
  refine readWidth_spec L h hw (fun h1 => ?_) fun hT hk => hb hT (by rw [byteSpan]; omega)
  obtain ⟨e, v', hr, -, hB⟩ := hb h (show 0 < byteSpan w by rw [h1]; decide)
  exact ⟨e, v', hr, hB⟩

section
variable (hf : Fits P z n offset)
include hf
theorem Fits.addByte (hz : z < 2 ^ 32) (hk : k < n) :
    InRange P z (b.add (b.zext offset 32) (.constant 32 k)) ∧
      ∀ ρ, P ρ → (b.add (b.zext offset 32) (.constant 32 k)).eval ρ =
        offset.eval ρ % 2 ^ 32 + k := by
  obtain ⟨ρ0, hρ0⟩ := hf.satisfiable
  have hfits0 := hf.fits hρ0
  have hr := L.zext_resized hf.wellTyped 32
  have ha := L.add (l := b.zext offset 32) (r := .constant 32 k)
    ⟨hr.wellTyped, show k < 2 ^ 32 by omega, hr.width_eq⟩
  have he : ∀ ρ, P ρ → (b.add (b.zext offset 32) (.constant 32 k)).eval ρ =
      offset.eval ρ % 2 ^ 32 + k := by
    intro ρ hρ
    have hft := hf.fits hρ
    rw [ha.eval_eq, Expr.eval, hr.width_eq, hr.eval_eq, Expr.eval, ArithmeticKind.apply,
      BitVec.toNat_add, BitVec.toNat_ofNat, BitVec.toNat_ofNat]
    omega
  refine ⟨⟨ha.wellTyped, fun hρ => ?_, fun {ρ} hρ => ?_⟩, he⟩
  · exact ha.defined ⟨hr.defined (hf.defined hρ), trivial, fun h => by cases h⟩
  have hft := hf.fits hρ
  rw [he ρ hρ]
  omega

theorem Fits.zext (hn : 0 < n) : InRange P z (b.zext offset 32) := by
  have hr := L.zext_resized hf.wellTyped 32
  refine ⟨hr.wellTyped, fun hρ => hr.defined (hf.defined hρ), fun {ρ} hρ => ?_⟩
  have hft := hf.fits hρ
  rw [hr.eval_eq]
  omega

theorem Fits.constant (hc : b.zext offset 32 = .constant w c) :
    c % 2 ^ w + n ≤ z ∧ ∀ ρ, P ρ → offset.eval ρ % 2 ^ 32 = c % 2 ^ w := by
  have hr := L.zext_resized hf.wellTyped 32
  rw [hc] at hr
  have he : ∀ ρ, offset.eval ρ % 2 ^ 32 = c % 2 ^ w := by
    intro ρ
    rw [← hr.eval_eq, Expr.eval]
  obtain ⟨ρ0, hρ0⟩ := hf.satisfiable
  exact ⟨he ρ0 ▸ hf.fits hρ0, fun ρ _ => he ρ⟩

end

theorem readAt_cases (ht : offset.WellTyped) (v : ObjectView) (le : Bool) (w : Nat) :
    (∃ c, b.zext offset 32 = .constant 32 c ∧ v.readAt b le offset w = v.read b le (c % 2 ^ 32) w) ∨
      (b.zext offset 32).isConstant = false ∧ v.readAt b le offset w = if w = 1 then
          (v.read8At b (b.zext offset 32)).map fun p => (some (b.extract p.1 0 1), p.2)
        else if w % 8 = 0 then
          readBytes b le (fun v idx => v.read8At b (b.add (b.zext offset 32) (.constant 32 idx)))
            (w / 8) v else .error .invalidWidth := by
  have hwidth := (L.zext_resized ht 32).width_eq
  rw [readAt]
  generalize b.zext offset 32 = z at hwidth
  cases z with
  | constant wc c =>
    cases hwidth
    exact .inl ⟨c, rfl, rfl⟩
  | _ => exact .inr ⟨rfl, rfl⟩

theorem readAt_spec {offset : Expr} (h : Tracks P m v0 v)
    (hf : Fits P v0.state.object.size (byteSpan w) offset) (hw : WholeWidth w)
    (hs : (b.zext offset 32).isConstant = false → w = 1 ∨
      ∀ k < w / 8, (b.add (b.zext offset 32) (.constant 32 k)).isConstant = false) :
    ∃ e v', v.readAt b true offset w = .ok (some e, v') ∧
      ReadsWide P (fun ρ k => m ρ (offset.eval ρ % 2 ^ 32 + k)) w e := by
  have hz : v0.state.object.size < 2 ^ 32 := h.size ▸ h.represents.valid.size_lt
  obtain ⟨c, hx, heq⟩ | ⟨hc, heq⟩ := readAt_cases L hf.wellTyped v true w
  · obtain ⟨hin, he⟩ := hf.constant L hx
    obtain ⟨e, v', hr, hR⟩ := read_spec L h hw hin
    refine ⟨e, v', heq.trans hr, hR.congr fun ρ hρ k _ => ?_⟩
    rw [he ρ hρ]
  · rw [heq]
    refine readWidth_spec L h hw (fun h1 => ?_) fun {v k} hT hk => ?_
    · have hin := hf.zext L (show 0 < byteSpan w by rw [h1]; decide)
      obtain ⟨e, v', hr, -, hB⟩ := read8At_spec L h (h.size.symm ▸ hin) hc
      refine ⟨e, v', hr, hB.wellTyped, hB.width_eq, fun {ρ} hρ => ?_⟩
      rw [hB.eval_eq hρ, (L.zext_resized hf.wellTyped 32).eval_eq, add_zero]
    · obtain ⟨hin, he⟩ := hf.addByte L hz (show k < byteSpan w by rw [byteSpan]; omega)
      obtain ⟨e, v', hr, hT', hB⟩ := read8At_spec L hT (hT.size.symm ▸ hin)
        ((hs hc).resolve_left (by omega) k hk)
      refine ⟨e, v', hr, hT', hB.wellTyped, hB.width_eq, fun {ρ} hρ => ?_⟩
      rw [hB.eval_eq hρ, he ρ hρ]

end

def valueBytes (value : Expr) (ρ : Assignment) (k : Nat) : UInt8 := ofNat (value.eval ρ / 256 ^ k)

variable {writeByte : ObjectView → Nat → Except MemoryFault ObjectView} {value : Expr}

theorem setAt_setBytes (m : Nat → UInt8) (a n : Nat) (x : Nat → UInt8) :
    setAt (setBytes m a n x) (a + n) (x n) = setBytes m a (n + 1) x := by
  funext j
  rw [setAt_apply, setBytes_succ]

theorem Tracks.congr (h : Tracks P m v0 v)
    (hm : ∀ ρ, P ρ → ∀ i < v.state.size, m' ρ i = m ρ i) : Tracks P m' v0 v :=
  ⟨h.host, h.object, h.owner, h.readOnly, h.unshared, h.represents.congr hm⟩

theorem writeConcrete_tracks (h : Tracks P m v0 v) (i n c : Nat) :
    Tracks P (fun ρ => setBytes (m ρ) i n fun k => ofNat (c / 256 ^ k)) v0
      (v.writeConcrete true i n c) := by
  rw [writeConcrete]
  simp only [byteIndex, if_true, pow_bytes]
  induction n with
  | zero =>
    simp only [setBytes_zero]
    exact h
  | succ n ih =>
    rw [range_succ, foldl_append]
    have hwr := write8_tracks ih (i + n) (ofNat (c / 256 ^ n))
    simp only [setAt_setBytes _ i n fun k => ofNat (c / 256 ^ k)] at hwr
    exact hwr

theorem setBytes_one (m : Nat → UInt8) (a : Nat) (x : Nat → UInt8) :
    setAt m a (x 0) = setBytes m a 1 x := by rw [← setAt_setBytes, setBytes_zero, add_zero]

theorem writeLoop_spec {T : (Assignment → Nat → UInt8) → ObjectView → Prop} {a : Assignment → Nat}
    (hb : ∀ {m v k}, T m v → k < n →
      ∃ v', writeByte v k = .ok v' ∧ T (fun ρ => setAt (m ρ) (a ρ + k) (x ρ k)) v')
    (h : T m v) : ∃ v', (range n).foldlM writeByte v = .ok v' ∧
      T (fun ρ => setBytes (m ρ) (a ρ) n (x ρ)) v' := by
  induction n with
  | zero =>
    simp only [setBytes_zero]
    exact ⟨v, rfl, h⟩
  | succ n ih =>
    obtain ⟨v1, h₁, hT1⟩ := ih fun hT hk => hb hT (by omega)
    obtain ⟨v2, h2, hT2⟩ := hb hT1 (lt_succ_self n)
    simp only [setAt_setBytes] at hT2
    refine ⟨v2, ?_, hT2⟩
    rw [range_succ, foldlM_append, h₁]
    simp only [bind, Except.bind, foldlM_cons, foldlM_nil, h2]
    rfl

structure IsByte (P : Assignment → Prop) (value : Expr) (k : Nat) (e : Expr) : Prop where
  wellTyped : e.WellTyped
  width_eq : e.width = 8
  defined : ∀ ρ, P ρ → e.Defined ρ
  eval_eq : ofNat (e.eval ρ) = valueBytes value ρ k

theorem write8Expr_spec (h : Tracks P m v0 v) (hb : IsByte P value k e) (i : Nat) :
    ∃ v', v.write8Expr i e = .ok v' ∧
      Tracks P (fun ρ => setAt (m ρ) i (valueBytes value ρ k)) v0 v' := by
  obtain ⟨v', hwr⟩ := write8Expr_total h hb.width_eq i
  have hT := write8Expr_tracks h hb.wellTyped hb.width_eq hb.defined hwr
  simp only [hb.eval_eq] at hT
  exact ⟨v', hwr, hT⟩

section
variable (L : AccessLawful b) (ht : value.WellTyped) (hd : ∀ ρ, P ρ → value.Defined ρ)
include L ht hd
theorem extractByte (hk : 8 * k + 8 ≤ value.width) :
    IsByte P value k (b.extract value (8 * k) 8) := by
  have hx := L.extract (show (Expr.extract value (8 * k) 8).WellTyped from ⟨ht, hk⟩)
  refine ⟨hx.wellTyped, hx.width_eq, fun ρ hρ => hx.defined (hd ρ hρ), fun {ρ} => ?_⟩
  rw [hx.eval_eq, Expr.eval, pow_bytes, valueBytes]
  apply UInt8.toNat_inj.1
  rw [toNat_ofNat', toNat_ofNat', mod_mod]

theorem zextByte : IsByte P value 0 (b.zext value 8) := by
  have hr := L.zext_resized ht 8
  refine ⟨hr.wellTyped, hr.width_eq, fun ρ hρ => hr.defined (hd ρ hρ), fun {ρ} => ?_⟩
  rw [hr.eval_eq, valueBytes, Nat.pow_zero, Nat.div_one]
  apply UInt8.toNat_inj.1
  rw [toNat_ofNat', toNat_ofNat', mod_mod]

end

theorem writeWidth_spec {first : Except MemoryFault ObjectView} {a : Assignment → Nat}
    (h : Tracks P m v0 v) (hw : WholeWidth value.width)
    (hs : value.width = 1 → ∃ v', first = .ok v' ∧
      Tracks P (fun ρ => setAt (m ρ) (a ρ) (valueBytes value ρ 0)) v0 v')
    (hb : ∀ {m v k}, Tracks P m v0 v → k < value.width / 8 → ∃ v', writeByte v k = .ok v' ∧
      Tracks P (fun ρ => setAt (m ρ) (a ρ + k) (valueBytes value ρ k)) v0 v') :
    ∃ v', (if value.width = 1 then first
      else if value.width % 8 = 0 then (range (value.width / 8)).foldlM writeByte v
      else .error .invalidWriteSize) = .ok v' ∧
      Tracks P (fun ρ => setBytes (m ρ) (a ρ) (byteSpan value.width)
        (valueBytes value ρ)) v0 v' := by
  split
  next h1 =>
    have hsp : byteSpan value.width = 1 := by rw [h1]; rfl
    obtain ⟨v', hwr, hT⟩ := hs h1
    simp only [setBytes_one] at hT
    rw [hsp]
    exact ⟨v', hwr, hT⟩
  next h1 =>
    obtain ⟨hm, -⟩ := hw.resolve_left h1
    rw [if_pos hm, byteSpan_of_mod hm]
    exact writeLoop_spec (T := fun m v => Tracks P m v0 v) hb h

section
variable (L : AccessLawful b) (h : Tracks P m v0 v) (ht : value.WellTyped)
  (hd : ∀ ρ, P ρ → value.Defined ρ) (hw : WholeWidth value.width)
include L h ht hd hw
theorem writeBytes_spec (i : Nat) : ∃ v', v.writeBytes b true i value = .ok v' ∧
    Tracks P (fun ρ => setBytes (m ρ) i (byteSpan value.width) (valueBytes value ρ)) v0 v' := by
  exact writeWidth_spec h hw (fun _ => write8Expr_spec h (zextByte L ht hd) i)
    fun hT hk => write8Expr_spec hT (extractByte L ht hd (by omega)) _

theorem write_spec
    (hc : value.isConstant = true → 64 < value.width ∨ value.width ∈ [1, 8, 16, 32, 64])
    (i : Nat) : ∃ v', v.write b true i value = .ok v' ∧
      Tracks P (fun ρ => setBytes (m ρ) i (byteSpan value.width) (valueBytes value ρ)) v0 v' := by
  rw [write.eq_def]
  split
  next w c =>
    have hbs : ∀ ρ, valueBytes (.constant w c) ρ = fun k => ofNat (c % 2 ^ w / 256 ^ k) := by
      intro ρ
      funext k
      rw [valueBytes, Expr.eval]
    have hca : 64 < w ∨ w ∈ [1, 8, 16, 32, 64] := hc rfl
    simp only [mem_cons, not_mem_nil, or_false] at hca
    split
    · split
      next h8 =>
        have hsp : byteSpan (Expr.constant w c).width = 1 := by
          rw [Expr.width]
          obtain rfl | rfl := h8 <;> rfl
        have hT := write8_tracks h i (ofNat (c % 2 ^ w))
        rw [hsp]
        refine ⟨_, rfl, hT.congr fun ρ _ j _ => ?_⟩
        simp only [← setBytes_one, hbs, Nat.pow_zero, Nat.div_one]
      · have h16 : w = 16 ∨ w = 32 ∨ w = 64 := by omega
        have hsp : byteSpan (Expr.constant w c).width = w / 8 := by
          rw [Expr.width]
          obtain rfl | rfl | rfl := h16 <;> rfl
        rw [if_pos h16]
        simp only [hsp, hbs]
        exact ⟨_, rfl, writeConcrete_tracks h i (w / 8) (c % 2 ^ w)⟩
    · exact writeBytes_spec L h ht hd hw i
  · exact writeBytes_spec L h ht hd hw i

end

theorem writeAt_cases (L : AccessLawful b) (ht : offset.WellTyped) (v : ObjectView) (le : Bool)
    (value : Expr) : (∃ c, b.zext offset 32 = .constant 32 c ∧
        v.writeAt b le offset value = v.write b le (c % 2 ^ 32) value) ∨
      (b.zext offset 32).isConstant = false ∧ v.writeAt b le offset value =
        if value.width = 1 then v.write8At b (b.zext offset 32) (b.zext value 8)
        else if value.width % 8 = 0 then (range (value.width / 8)).foldlM (fun v i => v.write8At b
            (b.add (b.zext offset 32) (.constant 32 (byteIndex le (value.width / 8) i)))
            (b.extract value (8 * i) 8)) v else .error .invalidWriteSize := by
  have hwidth := (L.zext_resized ht 32).width_eq
  rw [writeAt]
  generalize b.zext offset 32 = z at hwidth
  cases z with
  | constant wc c =>
    cases hwidth
    exact .inl ⟨c, rfl, rfl⟩
  | _ => exact .inr ⟨rfl, rfl⟩

theorem writeAt_spec (L : AccessLawful b) (h : Tracks P m v0 v)
    (hf : Fits P v0.state.object.size (byteSpan value.width) offset) (ht : value.WellTyped)
    (hd : ∀ ρ, P ρ → value.Defined ρ) (hw : WholeWidth value.width)
    (hc : (b.zext offset 32).isConstant = true → value.isConstant = true →
      64 < value.width ∨ value.width ∈ [1, 8, 16, 32, 64])
    (hs : (b.zext offset 32).isConstant = false → value.width = 1 ∨
      ∀ k < value.width / 8, (b.add (b.zext offset 32) (.constant 32 k)).isConstant = false) :
    ∃ v', v.writeAt b true offset value = .ok v' ∧
      Tracks P (fun ρ => setBytes (m ρ) (offset.eval ρ % 2 ^ 32) (byteSpan value.width)
        (valueBytes value ρ)) v0 v' := by
  have hz : v0.state.object.size < 2 ^ 32 := h.size ▸ h.represents.valid.size_lt
  obtain ⟨c, hx, heq⟩ | ⟨hn, heq⟩ := writeAt_cases L hf.wellTyped v true value
  · rw [hx] at hc
    obtain ⟨hin, he⟩ := hf.constant L hx
    obtain ⟨v', hwr, hT⟩ := write_spec L h ht hd hw (hc rfl) (c % 2 ^ 32)
    refine ⟨v', heq.trans hwr, hT.congr fun ρ hρ j _ => ?_⟩
    rw [he ρ hρ]
  · rw [heq]
    refine writeWidth_spec h hw (fun h1 => ?_) fun {m v k} hT hk => ?_
    · have hin := hf.zext L (show 0 < byteSpan value.width by rw [h1]; decide)
      have hb := zextByte (P := P) L ht hd
      obtain ⟨v', hwr⟩ := write8At_total (b := b) h hn hb.width_eq
      have hT := write8At_tracks L h (h.size.symm ▸ hin) hb.wellTyped hb.width_eq hb.defined hwr
      refine ⟨v', hwr, hT.congr fun ρ hρ j _ => ?_⟩
      rw [hb.eval_eq, (L.zext_resized hf.wellTyped 32).eval_eq]
    · obtain ⟨hin, he⟩ := hf.addByte L hz (show k < byteSpan value.width by rw [byteSpan]; omega)
      have hb := extractByte (P := P) (k := k) L ht hd (by omega)
      obtain ⟨v', hwr⟩ := write8At_total (b := b) hT ((hs hn).resolve_left (by omega) k hk)
        hb.width_eq
      have hT' := write8At_tracks L hT (hT.size.symm ▸ hin) hb.wellTyped hb.width_eq hb.defined hwr
      refine ⟨v', hwr, hT'.congr fun ρ hρ j _ => ?_⟩
      rw [hb.eval_eq, he ρ hρ]

end ObjectView
end Chef
