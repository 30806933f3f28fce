import Chef.ExprRecreate

namespace Chef
open BitVec
def zeroMask (w : Nat) : BitVec 64 := if w < 64 then allOnes 64 <<< w else 0#64

structure BitsInfo where
  ignoredBits : BitVec 64
  knownOneBits : BitVec 64
  knownZeroBits : BitVec 64
  deriving DecidableEq

abbrev ExprBitsInfo := Expr × BitsInfo

abbrev BitsInfoCache := List ExprBitsInfo

def BitsInfoCache.insert (cache : BitsInfoCache) (e : Expr) (bits : BitsInfo) : BitsInfoCache :=
  if (cache.lookup e).isSome then cache else (e, bits) :: cache

def BitsInfoCache.erase (cache : BitsInfoCache) (e : Expr) : BitsInfoCache :=
  cache.filter fun entry => entry.1 ≠ e

namespace BitsInfo
variable (bits : BitsInfo)
def isCovered : Bool := ~~~(bits.knownOneBits ||| bits.knownZeroBits ||| bits.ignoredBits) == 0#64

def ignoring (ignoredBits : BitVec 64) : BitsInfo := { bits with ignoredBits := ignoredBits }

def orOnes : BitsInfo :=
  if ~~~(bits.knownOneBits ||| bits.ignoredBits) = 0#64 then
    { bits with knownOneBits := allOnes 64, knownZeroBits := 0#64 }
  else bits

def orZeros : BitsInfo :=
  if ~~~(bits.knownZeroBits ||| bits.ignoredBits) = 0#64 then
    { bits with knownOneBits := 0#64, knownZeroBits := allOnes 64 }
  else bits

end BitsInfo

def Expr.withOperands : Expr → List Expr → Expr
  | .notOptimized _, [src] => .notOptimized src
  | .read root head _, [index] => .read root head index
  | .select _ _ _, [c, t, f] => .select c t f
  | .concat _ _, [l, r] => .concat l r
  | .extract _ offset w, [e] => .extract e offset w
  | .zext _ w, [src] => .zext src w
  | .sext _ w, [src] => .sext src w
  | .not _, [e] => .not e
  | .arithmetic kind _ _, [l, r] => .arithmetic kind l r
  | .compare kind _ _, [l, r] => .compare kind l r
  | e, _ => e

def Expr.rebuild (A : APInt) (e : Expr) (kids : List Expr) : Expr :=
  if kids = e.operands then e else (e.withOperands kids).recreate A

def Expr.hasConstantValue (value : BitVec 64) : Expr → Bool
  | .constant _ v => v == value.toNat
  | _ => false

def replaceWithConstant (cache : BitsInfoCache) (e : Expr) (value : BitVec 64) :
    Expr × BitsInfoCache :=
  if e.hasConstantValue value then (e, cache)
  else (.constant e.width (value &&& ~~~zeroMask e.width).toNat,
    (e.operands.foldl BitsInfoCache.erase cache).erase e)

/-- The known bits of an expression, and the masks of its operands. -/
@[simp]
def considerKind (e : Expr) (ignoredBits : BitVec 64) (kids : List ExprBitsInfo) :
    BitVec 64 × BitVec 64 × List BitsInfo :=
  match e, kids with
  | .arithmetic .and _ _, [(_, b0), (_, b1)] =>
    (b0.knownOneBits &&& b1.knownOneBits, b0.knownZeroBits ||| b1.knownZeroBits,
      [(b0.ignoring (ignoredBits ||| b1.knownZeroBits)).orOnes,
        (b1.ignoring (ignoredBits ||| (b0.knownZeroBits &&& ~~~b1.knownZeroBits))).orOnes])
  | .arithmetic .or _ _, [(_, b0), (_, b1)] =>
    (b0.knownOneBits ||| b1.knownOneBits, b0.knownZeroBits &&& b1.knownZeroBits,
      [(b0.ignoring (ignoredBits ||| b1.knownOneBits)).orZeros,
        (b1.ignoring (ignoredBits ||| (b0.knownOneBits &&& ~~~b1.knownOneBits))).orZeros])
  | .arithmetic .xor _ _, [(_, b0), (_, b1)] =>
    ((b0.knownZeroBits &&& b1.knownOneBits) ||| (b0.knownOneBits &&& b1.knownZeroBits),
      (b0.knownOneBits &&& b1.knownOneBits) ||| (b0.knownZeroBits &&& b1.knownZeroBits),
      [b0.ignoring ignoredBits, b1.ignoring ignoredBits])
  | .not _, [(_, b0)] =>
    (b0.knownZeroBits &&& ~~~zeroMask e.width, b0.knownOneBits ||| zeroMask e.width,
      [b0.ignoring ignoredBits])
  | .arithmetic .shl _ _, [(_, b0), (.constant _ shift, b1)] =>
    if shift < e.width then
      ((b0.knownOneBits <<< shift) &&& ~~~zeroMask e.width,
        (b0.knownZeroBits <<< shift) ||| zeroMask e.width ||| ~~~zeroMask shift,
        [b0.ignoring (((ignoredBits &&& ~~~zeroMask e.width) >>> shift) |||
          zeroMask (e.width - shift)), b1])
    else (0#64, allOnes 64, [b0.ignoring (allOnes 64), b1])
  | .arithmetic .lshr _ _, [(_, b0), (.constant _ shift, b1)] =>
    if shift < e.width then
      (b0.knownOneBits >>> shift, (b0.knownZeroBits >>> shift) ||| zeroMask (e.width - shift),
        [b0.ignoring ((ignoredBits <<< shift) ||| ~~~zeroMask shift ||| zeroMask e.width), b1])
    else (0#64, allOnes 64, [b0.ignoring (allOnes 64), b1])
  | .extract _ offset width, [(_, b0)] =>
    ((b0.knownOneBits >>> offset) &&& ~~~zeroMask width,
      (b0.knownZeroBits >>> offset) ||| zeroMask width,
      [b0.ignoring ((ignoredBits <<< offset) ||| ~~~((~~~zeroMask width) <<< offset))])
  | .concat _ _, [(k0, b0), (k1, b1)] =>
    ((b0.knownOneBits <<< k1.width) ||| b1.knownOneBits,
      (b0.knownZeroBits <<< k1.width) ||| (b1.knownZeroBits &&& ~~~zeroMask k1.width),
      [b0.ignoring ((ignoredBits >>> k1.width) ||| zeroMask k0.width),
        b1.ignoring (ignoredBits ||| zeroMask k1.width)])
  | .select _ _ _, [(_, b0), (_, b1), (_, b2)] =>
    (b1.knownOneBits &&& b2.knownOneBits,
      (b1.knownZeroBits &&& b2.knownZeroBits) ||| zeroMask e.width,
      [b0, b1.ignoring ignoredBits, b2.ignoring ignoredBits])
  | .zext _ _, [(_, b0)] => (b0.knownOneBits, b0.knownZeroBits, [b0.ignoring ignoredBits])
  | .sext _ _, [(k0, b0)] =>
    let mask := zeroMask k0.width &&& ~~~zeroMask e.width
    let sign := 1#64 <<< (k0.width - 1)
    let kept := if mask &&& ~~~ignoredBits ≠ 0#64 then ignoredBits &&& ~~~sign else ignoredBits
    if b0.knownOneBits &&& sign ≠ 0#64 then
      (b0.knownOneBits ||| mask, b0.knownZeroBits &&& ~~~mask, [b0.ignoring kept])
    else if b0.knownZeroBits &&& sign ≠ 0#64 then
      (b0.knownOneBits, b0.knownZeroBits ||| mask, [b0.ignoring kept])
    else (b0.knownOneBits, b0.knownZeroBits &&& ~~~mask, [b0.ignoring kept])
  | .constant _ value, _ => (BitVec.ofNat 64 value, ~~~BitVec.ofNat 64 value, [])
  | e, kids => (0#64, zeroMask e.width, kids.map Prod.snd)

structure BitsCall where
  expr : Expr
  ignoredBits : BitVec 64
  cached : Bool

structure Simplified where
  expr : Expr
  bits : BitsInfo
  cache : BitsInfoCache
  calls : List BitsCall

section
variable (visit : BitsInfoCache → Expr → BitVec 64 → Option Simplified)
def visitKids : BitsInfoCache → List Expr →
    Option (List ExprBitsInfo × BitsInfoCache × List BitsCall)
  | cache, [] => some ([], cache, [])
  | cache, kid :: kids => do
    let r ← visit cache kid 0#64
    let (rs, cache, calls) ← visitKids r.cache kids
    some ((r.expr, r.bits) :: rs, cache, r.calls ++ calls)

/-- A round of the second loop for one operand. -/
def reoptimizeKid (cache : BitsInfoCache) (kid : ExprBitsInfo) (bits : BitsInfo) :
    Option (Expr × BitsInfoCache × List BitsCall) :=
  if bits.isCovered then
    let (e, cache) := replaceWithConstant cache kid.1 bits.knownOneBits
    some (e, cache, [])
  else if bits.ignoredBits &&& ~~~kid.2.ignoredBits ≠ 0#64 then do
    let r ← visit cache kid.1 bits.ignoredBits
    some (r.expr, r.cache, r.calls)
  else some (kid.1, cache, [])

def reoptimizeKids : BitsInfoCache → List (ExprBitsInfo × BitsInfo) →
    Option (List Expr × BitsInfoCache × List BitsCall)
  | cache, [] => some ([], cache, [])
  | cache, (kid, bits) :: kids => do
    let (e, cache, calls) ← reoptimizeKid visit cache kid bits
    let (es, cache, calls') ← reoptimizeKids cache kids
    some (e :: es, cache, calls ++ calls')

/-- The expression after the second loop, or a constant. -/
def reoptimize (A : APInt) (cache : BitsInfoCache) (e : Expr) (rbits : BitsInfo)
    (kids : List (ExprBitsInfo × BitsInfo)) : Option (Expr × BitsInfoCache × List BitsCall) :=
  if !e.isConstant && rbits.isCovered then
    let (e, cache) := replaceWithConstant cache e rbits.knownOneBits
    some (e, cache, [])
  else do
    let (kids, cache, calls) ← reoptimizeKids visit cache kids
    some (e.rebuild A kids, cache, calls)

end

def BitsInfo.isConsistent (bits : BitsInfo) (w : Nat) : Bool :=
  bits.knownOneBits &&& bits.knownZeroBits == 0#64 && bits.knownOneBits &&& zeroMask w == 0#64 &&
    bits.knownZeroBits &&& zeroMask w == zeroMask w

def doSimplifyBits (A : APInt) : Nat → BitsInfoCache → Expr → BitVec 64 → Option Simplified
  | 0, _, _, _ => none
  | depth + 1, cache, e, ignoredBits =>
    match cache.lookup e with
    | some bits => some ⟨e, bits, cache, [⟨e, ignoredBits, true⟩]⟩
    | none => do
      let (kids, cache, calls) ← visitKids (doSimplifyBits A depth) cache e.operands
      let (knownOneBits, knownZeroBits, bits) := considerKind e ignoredBits kids
      let rbits : BitsInfo := ⟨ignoredBits, knownOneBits, knownZeroBits⟩
      if rbits.isConsistent e.width then do
        let (e', cache, calls') ←
          reoptimize (doSimplifyBits A depth) A cache e rbits (kids.zip bits)
        let cache := if 1 < e'.operands.length then cache.insert e' rbits else cache
        some ⟨e', rbits, cache, ⟨e, ignoredBits, false⟩ :: (calls ++ calls')⟩
      else none

structure BitfieldSimplifier where
  bitsInfoCache : BitsInfoCache
  simplifiedExpressions : List (Expr × ExprBitsInfo)

namespace BitfieldSimplifier
def init : BitfieldSimplifier := ⟨[], []⟩

/-- What `simplify` returns and stores; constants are returned at once. -/
def simplify (A : APInt) (depth : Nat) (s : BitfieldSimplifier) (e : Expr) :
    Option ((Expr × Option BitsInfo) × BitfieldSimplifier × List BitsCall) :=
  if e.isConstant then some ((e, none), s, [])
  else
    match s.simplifiedExpressions.lookup e with
    | some r => some ((r.1, some r.2), s, [])
    | none => do
      let r ← doSimplifyBits A depth s.bitsInfoCache e 0#64
      some ((r.expr, some r.bits),
        ⟨r.cache, (e, (r.expr, r.bits)) :: s.simplifiedExpressions⟩, r.calls)

end BitfieldSimplifier
end Chef
