import Chef.SimplifierSound

namespace Chef
open Foundations List
/-- The result has the value of the submitted one, and masks are right. -/
structure SimplifiesTo (ρ : Assignment) (e : Expr) (r : Expr × Option BitsInfo) : Prop extends
    OperandFor ρ e r.1 where
  eval_eq : r.1.eval ρ = e.eval ρ
  masks : ∀ bits, r.2 = some bits → bits.Holds (e.eval ρ)

namespace BitfieldSimplifier
structure Sound (ρ : Assignment) (s : BitfieldSimplifier) : Prop where
  bitsInfo : s.bitsInfoCache.Sound ρ
  simplified : ∀ entry ∈ s.simplifiedExpressions, SimplifiesTo ρ entry.1 (entry.2.1, some entry.2.2)

theorem sound_init (ρ : Assignment) : init.Sound ρ := ⟨nofun, nofun⟩

variable {ρ : Assignment} {A : APInt} {s s' : BitfieldSimplifier}
theorem simplify_right (hA : A.Lawful) (h : s.simplify A depth e = some (r, s', calls))
    (hs : s.Sound ρ) (he : e.WellTyped) (ht : e.Steady ρ)
    (hcl : ∀ call ∈ calls, call.IsClean) : SimplifiesTo ρ e r ∧ s'.Sound ρ := by
  rw [simplify] at h
  split at h
  · cases h
    exact ⟨⟨⟨he, rfl, ht, id⟩, rfl, nofun⟩, hs⟩
  split at h
  next found hl =>
    cases h
    exact ⟨hs.simplified _ (mem_of_lookup hl), hs⟩
  · rw [bind_some_iff] at h
    obtain ⟨x, hx, h⟩ := h
    cases h
    have hrt := doSimplifyBits_right hA depth hx hs.bitsInfo he ht hcl
    have hf := hrt.found he
    have hr : SimplifiesTo ρ e (x.expr, some x.bits) := by
      refine ⟨hrt.toOperandFor, hf.eval_eq, fun bits hbi => ?_⟩
      cases hbi
      exact hrt.holds
    exact ⟨hr, hrt.cache, forall_mem_cons.2 ⟨hr, hs.simplified⟩⟩

def dataByte : Expr := .read ⟨0, 4, []⟩ .null (.constant 32 0)

def lowBit : Expr := .arithmetic .and (.concat (.constant 16 0x0101) dataByte) (.constant 24 1)

theorem dataByte_steady (ρ : Assignment) : dataByte.Steady ρ := ⟨trivial, trivial, nofun⟩

def oddByte : Expr := .arithmetic .or dataByte (.constant 8 1)

def oddBytes : Expr := .concat (.concat (.constant 8 1) oddByte) oddByte

/-- Simplifying the right operand drops the cache of the left one. -/
def maskedBytes : Expr := .arithmetic .and oddBytes (.arithmetic .and
      (.arithmetic .xor oddBytes (.arithmetic .lshr oddBytes (.constant 24 16)))
      (.constant 24 0xff00fe))

end BitfieldSimplifier
end Chef
