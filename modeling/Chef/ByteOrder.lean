import Chef.WideAccess
import Chef.SymbolicBytes

namespace Chef
open Foundations List
namespace ObjectView
def Supported (b : ExprBuilder) (littleEndian : Bool) (offset value : Expr) : Prop :=
  (littleEndian = true ∨ value.width ≤ 8) ∧
    ((b.zext offset 32).isConstant = true → value.isConstant = true →
      64 < value.width ∨ value.width ∈ [1, 8, 16, 32, 64]) ∧
    ((b.zext offset 32).isConstant = false → value.width = 1 ∨
      ∀ k < value.width / 8, (b.add (b.zext offset 32) (.constant 32 k)).isConstant = false)

/-- What is written lies in memory in the byte order, and is read back. -/
def RoundTrip (b : ExprBuilder) (littleEndian : Bool) (P : Assignment → Prop)
    (m : Assignment → Nat → UInt8) (v0 v : ObjectView) (offset value : Expr) : Prop :=
  ∃ v' e v'', v.writeAt b littleEndian offset value = .ok v' ∧
    v'.readAt b littleEndian offset value.width = .ok (some e, v'') ∧
    e.width = value.width ∧ (∀ ρ, P ρ → e.eval ρ = value.eval ρ) ∧
    Tracks P (fun ρ => setBytes (m ρ) (offset.eval ρ % 2 ^ 32) (byteSpan value.width) fun k =>
      valueBytes value ρ (byteIndex littleEndian (byteSpan value.width) k)) v0 v'

variable {v0 v v' : ObjectView} {P : Assignment → Prop} {m : Assignment → Nat → UInt8}
  {offset value : Expr}

theorem range_byte {f : Nat → α → Nat → Except MemoryFault α} (hn : n ≤ 1) (x : α) :
    (range n).foldlM (fun x i => f (byteIndex false n i) x i) x =
      (range n).foldlM (fun x i => f (byteIndex true n i) x i) x := by
  obtain rfl | rfl : n = 0 ∨ n = 1 := by omega
  · rfl
  · rfl

theorem readAt_byte (v : ObjectView) (offset : Expr) (hw : w ≤ 8) :
    v.readAt b false offset w = v.readAt b true offset w := by
  have hlp : ∀ readByte v, readBytes b false readByte (w / 8) v =
      readBytes b true readByte (w / 8) v := fun readByte v =>
    range_byte (f := fun idx (r : Option Expr × ObjectView) _ => readByte r.2 idx >>= fun p =>
      (addByte b p.1 idx r.1).map fun res => (res, p.2)) (by omega) (none, v)
  simp only [readAt, read, hlp]

theorem writeAt_byte (v : ObjectView) (offset : Expr) (hw : value.width ≤ 8) :
    v.writeAt b false offset value = v.writeAt b true offset value := by
  have hn : value.width / 8 ≤ 1 := by omega
  have hbs : ∀ i, v.writeBytes b false i value = v.writeBytes b true i value := by
    intro i
    have hlp := range_byte (f := fun idx (v : ObjectView) k =>
      v.write8Expr (i + idx) (b.extract value (8 * k) 8)) hn v
    simp only [writeBytes, hlp]
  have hwr : ∀ i, v.write b false i value = v.write b true i value := by
    intro i
    cases value with
    | constant w c =>
      have hw' : w ≤ 8 := hw
      have ht : ¬ (w = 16 ∨ w = 32 ∨ w = 64) := by omega
      simp only [write, if_neg ht, hbs]
    | _ => exact hbs i
  have hlp := fun z => range_byte (f := fun idx (v : ObjectView) k =>
    v.write8At b (b.add z (.constant 32 idx)) (b.extract value (8 * k) 8)) hn v
  simp only [writeAt, hwr, hlp]

theorem readBytes_bigEndian {readByte : ObjectView → Nat → Except MemoryFault (Expr × ObjectView)}
    (n : Nat) (v : ObjectView) : readBytes b false readByte (n + 2) v ≠ .ok r := by
  intro h
  rw [readBytes, range_succ_eq_map, foldlM_cons] at h
  obtain ⟨r1, h₁, -⟩ := bind_ok_iff.1 h
  obtain ⟨⟨byte, v1⟩, -, h2⟩ := bind_ok_iff.1 h₁
  cases h2

theorem leValue_valueBytes (ht : value.WellTyped) (ρ : Assignment) :
    leValue (valueBytes value ρ) (byteSpan value.width) % 2 ^ value.width = value.eval ρ := by
  have hlt := value.eval_lt ρ ht
  have hsp : 2 ^ value.width ≤ 256 ^ byteSpan value.width := by
    rw [← pow_bytes]
    exact Nat.pow_le_pow_right (by decide) (by rw [byteSpan]; omega)
  have hbs : leValue (valueBytes value ρ) (byteSpan value.width) =
      value.eval ρ % 256 ^ byteSpan value.width := leValue_bytes _ _
  rw [hbs, Nat.mod_eq_of_lt (Nat.lt_of_lt_of_le hlt hsp), Nat.mod_eq_of_lt hlt]

theorem Supported.roundTrip (L : AccessLawful b) (h : Tracks P m v0 v)
    (hf : Fits P v0.state.object.size (byteSpan value.width) offset) (ht : value.WellTyped)
    (hd : ∀ ρ, P ρ → value.Defined ρ) (hw : WholeWidth value.width)
    (hs : Supported b true offset value) : RoundTrip b true P m v0 v offset value := by
  obtain ⟨v', hwr, hT⟩ := writeAt_spec L h hf ht hd hw hs.2.1 hs.2.2
  obtain ⟨e, v'', hr, hR⟩ := readAt_spec L hT hf hw hs.2.2
  refine ⟨v', e, v'', hwr, hr, hR.width_eq, fun ρ hρ => ?_, hT⟩
  rw [hR.eval_eq hρ, ← leValue_valueBytes ht]
  congr 1
  apply leValue_congr
  intro k hk
  rw [setBytes, if_pos ⟨Nat.le_add_right _ _, by omega⟩, Nat.add_sub_cancel_left]

theorem RoundTrip.byte (hw : value.width ≤ 8) :
    RoundTrip b false P m v0 v offset value ↔ RoundTrip b true P m v0 v offset value := by
  have hsp : ∀ ρ a, (setBytes (m ρ) a (byteSpan value.width) fun k =>
      valueBytes value ρ (byteIndex false (byteSpan value.width) k)) =
      setBytes (m ρ) a (byteSpan value.width) fun k =>
        valueBytes value ρ (byteIndex true (byteSpan value.width) k) := by
    intro ρ a
    apply setBytes_congr
    intro k hk
    have hk0 : byteSpan value.width - k - 1 = k := by
      rw [byteSpan] at hk ⊢
      omega
    rw [byteIndex, byteIndex, if_neg Bool.false_ne_true, if_pos rfl, hk0]
  simp only [RoundTrip, writeAt_byte _ offset hw, readAt_byte _ offset hw, hsp]

theorem byteIndex_lt (littleEndian : Bool) (hk : k < n) : byteIndex littleEndian n k < n ∧
    byteIndex littleEndian n (byteIndex littleEndian n k) = k := by
  simp only [byteIndex]
  split <;> omega

theorem foldlM_ok_mem {f : α → β → Except φ α} {l : List β} (h : l.foldlM f x = .ok y)
    (ha : a ∈ l) : ∃ x' y', f x' a = .ok y' := by
  induction l generalizing x with
  | nil => cases ha
  | cons a' l ih =>
    rw [foldlM_cons] at h
    obtain ⟨x1, h₁, h2⟩ := bind_ok_iff.1 h
    obtain rfl | ha := mem_cons.1 ha
    · exact ⟨x, x1, h₁⟩
    · exact ih h2 ha

theorem RoundTrip.supported (L : AccessLawful b) (ht : offset.WellTyped)
    (hw : WholeWidth value.width) (h : RoundTrip b littleEndian P m v0 v offset value) :
    Supported b littleEndian offset value := by
  obtain ⟨v', e, v'', hwr, hr, -⟩ := h
  refine ⟨?_, fun hzc hvc => ?_, fun hz => ?_⟩
  · by_contra hnt
    obtain ⟨hle, hlo⟩ := not_or.1 hnt
    have hm := (hw.resolve_left (by omega)).1
    obtain ⟨n, hn⟩ : ∃ n, value.width / 8 = n + 2 := ⟨value.width / 8 - 2, by omega⟩
    rw [Bool.not_eq_true] at hle
    subst hle
    obtain ⟨c, -, heq⟩ | ⟨-, heq⟩ := readAt_cases L ht v' false value.width
    · rw [heq, read, if_neg (by omega), if_pos hm, hn] at hr
      exact readBytes_bigEndian n v' hr
    · rw [heq, if_neg (by omega), if_pos hm, hn] at hr
      exact readBytes_bigEndian n v' hr
  · by_contra hnt
    obtain ⟨hs, hl⟩ := not_or.1 hnt
    simp only [mem_cons, not_mem_nil, or_false] at hl
    obtain ⟨c, -, heq⟩ | ⟨hz, -⟩ := writeAt_cases L ht v littleEndian value
    · cases value with
      | constant w x =>
        have hw' : (Expr.constant w x).width = w := rfl
        rw [hw'] at hs hl
        rw [heq, write, if_pos (by omega), if_neg (by omega), if_neg (by omega)] at hwr
        cases hwr
      | _ => cases hvc
    · rw [hzc] at hz
      cases hz
  · by_cases h1 : value.width = 1
    · exact .inl h1
    refine .inr fun k hk => ?_
    have hm := (hw.resolve_left h1).1
    obtain ⟨c, hze, -⟩ | ⟨-, heq⟩ := writeAt_cases L ht v littleEndian value
    · rw [hze] at hz
      cases hz
    rw [heq, if_neg h1, if_pos hm] at hwr
    obtain ⟨hi, hk'⟩ := byteIndex_lt littleEndian hk
    obtain ⟨x, y, hx⟩ := foldlM_ok_mem hwr (mem_range.2 hi)
    rw [hk', write8At] at hx
    split at hx
    · cases hx
    next hsum => exact eq_false_of_ne_true hsum

/-- Exactly the supported accesses read back what is written. -/
theorem roundTrip_iff (L : AccessLawful b) (h : Tracks P m v0 v)
    (hf : Fits P v0.state.object.size (byteSpan value.width) offset) (ht : value.WellTyped)
    (hd : ∀ ρ, P ρ → value.Defined ρ) (hw : WholeWidth value.width) (littleEndian : Bool) :
    RoundTrip b littleEndian P m v0 v offset value ↔ Supported b littleEndian offset value := by
  refine ⟨RoundTrip.supported L hf.wellTyped hw, fun hs => ?_⟩
  cases littleEndian with
  | true => exact hs.roundTrip L h hf ht hd hw
  | false =>
    have hb := hs.1.resolve_left Bool.false_ne_true
    exact (RoundTrip.byte hb).2 (Supported.roundTrip L h hf ht hd hw ⟨.inl rfl, hs.2⟩)

def eightBytes : ObjectView :=
  ⟨ObjectState.ofContents ⟨1, 4096, 8, false, false, false⟩ none fun _ => 0, fun _ => 0, 0⟩

theorem roundTrip_eightBytes : RoundTrip smartBuilder true (fun _ => True) (fun _ _ => 0) eightBytes
    eightBytes (.constant 32 3) (.constant 16 258) := by
  have hT : Tracks (fun _ => True) (fun _ _ => 0) eightBytes eightBytes :=
    ⟨rfl, rfl, rfl, rfl, rfl, ObjectState.represents_ofContents none _ (by decide) nofun⟩
  have hf : Fits (fun _ => True) eightBytes.state.object.size
      (byteSpan (Expr.constant 16 258).width) (.constant 32 3) :=
    ⟨⟨fun _ _ => 0, trivial⟩, by decide, fun _ => trivial, fun _ => by rw [Expr.eval]; decide⟩
  refine (roundTrip_iff accessLawful_smartBuilder hT hf ?_ (fun _ _ => trivial) (.inr ?_) true).2 ?_
  · exact (by decide : 258 < 2 ^ 16)
  · decide
  · exact ⟨.inl rfl, fun _ _ => by decide, nofun⟩

/-- A read uses a null expression; three bytes cannot be written. -/
theorem bigEndian_read_fails : (∃ v,
    eightBytes.writeAt smartBuilder false (.constant 32 0) (.constant 16 258) = .ok v ∧
    v.readAt smartBuilder false (.constant 32 0) 16 = .error .nullExpr) ∧
    eightBytes.writeAt smartBuilder true (.constant 32 0) (.constant 24 258) =
    .error .invalidWriteSize :=
  ⟨⟨_, rfl, rfl⟩, rfl⟩

end ObjectView
end Chef
