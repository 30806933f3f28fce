import Chef.Expr

namespace Chef
/-- The arithmetic right shift of constants. -/
structure APInt where
  ashr : {w : Nat} → BitVec w → BitVec w → BitVec w

def Expr.size : Expr → Nat
  | .concat l r => l.size + r.size + 1
  | .extract e _ _ => e.size + 1
  | .zext src _ => src.size + 1
  | .sext src _ => src.size + 1
  | _ => 1

namespace Expr
def ofBits (x : BitVec w) : Expr := .constant w x.toNat

def isZero : Expr → Bool
  | .constant w v => v % 2 ^ w == 0
  | _ => false

def isIsZeroOf (e e' : Expr) : Bool :=
  match e with
  | .compare .eq l r => l.isZero && r == e'
  | _ => false

def isNegationOf (e e' : Expr) : Bool := e.isIsZeroOf e' || e'.isIsZeroOf e

def withoutNegation (kind : ArithmeticKind) (e e' : Expr) : Option Expr :=
  match e with
  | .arithmetic kind' a b =>
    if kind' = kind then
      if a.isNegationOf e' then some b else if b.isNegationOf e' then some a else none
    else none
  | _ => none

theorem sizeOf_withoutNegation (h : withoutNegation kind e e' = some b) : sizeOf b < sizeOf e := by
  rw [withoutNegation.eq_def] at h
  split at h
  next a c =>
    split at h
    · split at h
      · cases h
        simp only [arithmetic.sizeOf_spec]
        omega
      split at h
      · cases h
        simp only [arithmetic.sizeOf_spec]
        omega
      · cases h
    · cases h
  · cases h

end Expr

open Chef.Expr
def APInt.arithmetic (A : APInt) (kind : ArithmeticKind) (x y : BitVec w) : BitVec w :=
  match kind with
  | .ashr => A.ashr x y
  | kind => kind.apply x y

def ZExtExpr.widen (e : Expr) (w : Nat) : Expr :=
  if w = e.width then e
  else
    match e with
    | .constant u v => ofBits ((BitVec.ofNat u v).setWidth w)
    | .zext src u => if u < w then .zext src w else .zext (.zext src u) w
    | e => .zext e w

/-- `ConcatExpr::create`, which merges contiguous extracts. -/
def ConcatExpr.createWith (extract : Expr → Nat → Nat → Expr) (l r : Expr) : Expr :=
  match l, r with
  | .constant u v, .constant u' v' => ofBits (BitVec.ofNat u v ++ BitVec.ofNat u' v')
  | .constant u v, r => if v % 2 ^ u = 0 then ZExtExpr.widen r (u + r.width) else
    .concat (.constant u v) r
  | .extract e offset w, .extract e' offset' w' =>
    if e = e' ∧ offset' + w' = offset then extract e offset' (w + w')
    else .concat (.extract e offset w) (.extract e' offset' w')
  | l, r => .concat l r

/-- `ExtractExpr::create`; merged extracts are of smaller expressions. -/
def ExtractExpr.createFrom : Nat → Expr → Nat → Nat → Expr
  | 0, e, offset, w => .extract e offset w
  | fuel + 1, e, offset, w =>
    if w = e.width then e
    else
      match e with
      | .constant u v => ofBits (((BitVec.ofNat u v).sshiftRight offset).setWidth w)
      | .zext x u =>
        if x.width = w ∧ offset = 0 then x
        else if w ≤ u ∧ x.width ≤ w ∧ offset = 0 then ZExtExpr.widen x w
        else .extract (.zext x u) offset w
      | .concat l r =>
        if r.width ≤ offset then createFrom fuel l (offset - r.width) w
        else if offset + w ≤ r.width then createFrom fuel r offset w
        else
          ConcatExpr.createWith (createFrom fuel) (createFrom fuel l 0 (offset + w - r.width))
            (createFrom fuel r offset (r.width - offset))
      | .sext x u =>
        if offset = 0 ∧ w = 8 ∧ x.width = 8 then x else .extract (.sext x u) offset w
      | e => .extract e offset w

def ExtractExpr.create (e : Expr) (offset w : Nat) : Expr :=
  ExtractExpr.createFrom (e.size + 1) e offset w

def ConcatExpr.create (l r : Expr) : Expr := ConcatExpr.createWith ExtractExpr.create l r

def ZExtExpr.create (e : Expr) (w : Nat) : Expr :=
  if w < e.width then ExtractExpr.create e 0 w else ZExtExpr.widen e w

def SExtExpr.create (e : Expr) (w : Nat) : Expr :=
  if w = e.width then e
  else if w < e.width then ExtractExpr.create e 0 w
  else
    match e with
    | .constant u v => ofBits ((BitVec.ofNat u v).signExtend w)
    | e => .sext e w

def NotExpr.create : Expr → Expr
  | .constant u v => ofBits (~~~BitVec.ofNat u v)
  | e => .not e

def AndExpr.createPartial (l : Expr) (u v : Nat) : Expr :=
  if v % 2 ^ u = 2 ^ u - 1 then l
  else if v % 2 ^ u = 0 then .constant u v
  else .arithmetic .and l (.constant u v)

def AndExpr.create (l r : Expr) : Expr :=
  match l, r with
  | .constant u v, .constant _ v' => ofBits (BitVec.ofNat u v &&& BitVec.ofNat u v')
  | .constant u v, r => AndExpr.createPartial r u v
  | l, .constant u v => AndExpr.createPartial l u v
  | l, r =>
    if l.isNegationOf r then .constant 1 0
    else
      match _hl : withoutNegation .or l r with
      | some b => AndExpr.create b r
      | none =>
        match _hr : withoutNegation .or r l with
        | some b => AndExpr.create l b
        | none => .arithmetic .and l r
termination_by sizeOf l + sizeOf r
decreasing_by
  · have hlt := sizeOf_withoutNegation _hl
    omega
  · have hlt := sizeOf_withoutNegation _hr
    omega

/-- `Expr::createIsZero` of a boolean. -/
def EqExpr.createNot : Expr → Expr
  | .constant u v => ofBits (BitVec.ofBool (BitVec.ofNat u v == 0#u))
  | .compare .eq (.constant u v) r =>
    if u = 1 ∧ v % 2 = 0 then r
    else .compare .eq (.constant 1 0) (.compare .eq (.constant u v) r)
  | .arithmetic .or a b => AndExpr.create (EqExpr.createNot a) (EqExpr.createNot b)
  | e => .compare .eq (.constant 1 0) e

def OrExpr.createPartial (l : Expr) (u v : Nat) : Expr :=
  if v % 2 ^ u = 2 ^ u - 1 then .constant u v
  else if v % 2 ^ u = 0 then l
  else .arithmetic .or l (.constant u v)

def OrExpr.negated : Expr → Expr → Option (Expr × Expr)
  | .compare .eq a b, .compare .eq c d =>
    if a.isZero ∧ c.isZero ∧ b.width = 1 ∧ d.width = 1 then some (b, d) else none
  | _, _ => none

def OrExpr.complements : Expr → Expr → Bool
  | .arithmetic .or a b, .arithmetic .and c d =>
    (c.isNegationOf a && d.isNegationOf b) || (c.isNegationOf b && d.isNegationOf a)
  | _, _ => false

def OrExpr.create (l r : Expr) : Expr :=
  match l, r with
  | .constant u v, .constant _ v' => ofBits (BitVec.ofNat u v ||| BitVec.ofNat u v')
  | .constant u v, r => OrExpr.createPartial r u v
  | l, .constant u v => OrExpr.createPartial l u v
  | l, r =>
    if l.isNegationOf r then .constant 1 1
    else
      match _hl : withoutNegation .and l r with
      | some b => OrExpr.create b r
      | none =>
        match _hr : withoutNegation .and r l with
        | some b => OrExpr.create l b
        | none =>
          match OrExpr.negated l r with
          | some (a, b) => EqExpr.createNot (AndExpr.create a b)
          | none =>
            if OrExpr.complements l r || OrExpr.complements r l then .constant 1 1
            else .arithmetic .or l r
termination_by sizeOf l + sizeOf r
decreasing_by
  · have hlt := sizeOf_withoutNegation _hl
    omega
  · have hlt := sizeOf_withoutNegation _hr
    omega

def EqExpr.make (l r : Expr) : Expr := if l = r then .constant 1 1 else .compare .eq l r

/-- The places of a constant array that hold a value. -/
def KArray.matches (array : KArray) (u v : Nat) : List Nat :=
  (List.range (min array.size (2 ^ 32))).filter fun i =>
    u = 8 ∧ v % 2 ^ u = (array.constantValues.getD i 0).toNat

def EqExpr.tryConstArrayOpt (u v : Nat) (root : KArray) (head : UpdateNode) (index : Expr)
    (indexEq : Nat → Expr) : Expr :=
  if root.isSymbolicArray ∨ head ≠ .null ∨ 100 < (root.matches u v).length then
    EqExpr.make (.constant u v) (.read root head index)
  else
    (root.matches u v).foldl (fun res i => OrExpr.create res (indexEq i)) (.constant 1 0)

/-- `EqExpr::create` of a constant and an expression. -/
def EqExpr.createWith (u v : Nat) (r made : Expr) : Expr :=
  match r with
  | .constant _ v' => ofBits (BitVec.ofBool (BitVec.ofNat u v == BitVec.ofNat u v'))
  | _ => made

def EqExpr.createPartialR (u v : Nat) (r : Expr) : Expr :=
  if u = 1 then
    if v % 2 = 1 then r else EqExpr.createNot r
  else
    match r with
    | .sext src _ =>
      let trunc := ((BitVec.ofNat u v).setWidth src.width).toNat
      if BitVec.ofNat u v = (BitVec.ofNat src.width trunc).signExtend u then
        EqExpr.createWith src.width trunc src (EqExpr.createPartialR src.width trunc src)
      else .constant 1 0
    | .zext src _ =>
      let trunc := ((BitVec.ofNat u v).setWidth src.width).toNat
      if BitVec.ofNat u v = (BitVec.ofNat src.width trunc).setWidth u then
        EqExpr.createWith src.width trunc src (EqExpr.createPartialR src.width trunc src)
      else .constant 1 0
    | .arithmetic .add (.constant _ v') b =>
      EqExpr.createPartialR u (BitVec.ofNat u v - BitVec.ofNat u v').toNat b
    | .arithmetic .sub (.constant _ v') b =>
      EqExpr.createPartialR u (BitVec.ofNat u v' - BitVec.ofNat u v).toNat b
    | .read root head index =>
      EqExpr.tryConstArrayOpt u v root head index fun i =>
        EqExpr.createWith index.width (i % 2 ^ index.width) index
          (EqExpr.createPartialR index.width (i % 2 ^ index.width) index)
    | r => EqExpr.make (.constant u v) r

def EqExpr.create (l r : Expr) : Expr :=
  match l, r with
  | .constant u v, r => EqExpr.createWith u v r (EqExpr.createPartialR u v r)
  | l, .constant u v => EqExpr.createPartialR u v l
  | l, r => EqExpr.make l r

def createIsZero (e : Expr) : Expr := EqExpr.create e (.constant e.width 0)

def XorExpr.createPartialR (u v : Nat) (r : Expr) : Expr :=
  if v % 2 ^ u = 0 then r
  else if u = 1 then EqExpr.createPartialR 1 0 r
  else .arithmetic .xor (.constant u v) r

/-- `XorExpr_create`; one object stands for equal operands. -/
def XorExpr.make (l r : Expr) : Expr :=
  if l = r then .constant l.width 0
  else if l.isNegationOf r then .constant 1 1
  else .arithmetic .xor l r

def XorExpr.create (l r : Expr) : Expr :=
  match l, r with
  | .constant u v, .constant _ v' => ofBits (BitVec.ofNat u v ^^^ BitVec.ofNat u v')
  | .constant u v, r => XorExpr.createPartialR u v r
  | l, .constant u v => XorExpr.createPartialR u v l
  | l, r => XorExpr.make l r

mutual
def AddExpr.createPartialR (u v : Nat) (r : Expr) : Expr :=
  if u = 1 then XorExpr.createPartialR u v r
  else if v % 2 ^ u = 0 then r
  else
    match r with
    | .arithmetic .add (.constant _ v') c =>
      match c with
      | .constant _ v'' => ofBits (BitVec.ofNat u v + BitVec.ofNat u v' + BitVec.ofNat u v'')
      | c => AddExpr.createPartialR u (BitVec.ofNat u v + BitVec.ofNat u v').toNat c
    | .arithmetic .sub (.constant _ v') c =>
      match c with
      | .constant _ v'' => ofBits (BitVec.ofNat u v + BitVec.ofNat u v' - BitVec.ofNat u v'')
      | c => SubExpr.createPartialR u (BitVec.ofNat u v + BitVec.ofNat u v').toNat c
    | r => .arithmetic .add (.constant u v) r

def SubExpr.createPartialR (u v : Nat) (r : Expr) : Expr :=
  if u = 1 then XorExpr.createPartialR u v r
  else
    match r with
    | .arithmetic .add (.constant _ v') c =>
      match c with
      | .constant _ v'' => ofBits (BitVec.ofNat u v - BitVec.ofNat u v' - BitVec.ofNat u v'')
      | c => SubExpr.createPartialR u (BitVec.ofNat u v - BitVec.ofNat u v').toNat c
    | .arithmetic .sub (.constant _ v') c =>
      match c with
      | .constant _ v'' => ofBits (BitVec.ofNat u v - BitVec.ofNat u v' + BitVec.ofNat u v'')
      | c => AddExpr.createPartialR u (BitVec.ofNat u v - BitVec.ofNat u v').toNat c
    | r => .arithmetic .sub (.constant u v) r

end

def AddExpr.createConstant (u v : Nat) : Expr → Expr
  | .constant _ v' => ofBits (BitVec.ofNat u v + BitVec.ofNat u v')
  | r => AddExpr.createPartialR u v r

def SubExpr.createConstant (u v : Nat) : Expr → Expr
  | .constant _ v' => ofBits (BitVec.ofNat u v - BitVec.ofNat u v')
  | r => SubExpr.createPartialR u v r

def SubExpr.createPartial (u v : Nat) : Expr → Expr
  | .constant _ v' => ofBits (BitVec.ofNat u v' - BitVec.ofNat u v)
  | l => AddExpr.createPartialR u (0#u - BitVec.ofNat u v).toNat l

mutual
def AddExpr.create (l r : Expr) : Expr :=
  match l, r with
  | .constant u v, r => AddExpr.createConstant u v r
  | l, .constant u v => AddExpr.createPartialR u v l
  | l, r =>
    if l.width = 1 then XorExpr.make l r
    else
      match l, r with
      | .arithmetic .add (.constant u v) a, r => AddExpr.createConstant u v (AddExpr.create a r)
      | .arithmetic .sub (.constant u v) a, r => AddExpr.createConstant u v (SubExpr.create r a)
      | l, .arithmetic .add (.constant u v) b => AddExpr.createConstant u v (AddExpr.create l b)
      | l, .arithmetic .sub (.constant u v) b => AddExpr.createConstant u v (SubExpr.create l b)
      | l, r => .arithmetic .add l r
termination_by sizeOf l + sizeOf r

def SubExpr.create (l r : Expr) : Expr :=
  match l, r with
  | .constant u v, r => SubExpr.createConstant u v r
  | l, .constant u v => SubExpr.createPartial u v l
  | l, r =>
    if l.width = 1 then XorExpr.make l r
    else if l = r then .constant l.width 0
    else
      match l, r with
      | .arithmetic .add (.constant u v) a, r => AddExpr.createConstant u v (SubExpr.create a r)
      | .arithmetic .sub (.constant u v) a, r => SubExpr.createConstant u v (AddExpr.create a r)
      | l, .arithmetic .add (.constant u v) b => SubExpr.createPartial u v (SubExpr.create l b)
      | l, .arithmetic .sub (.constant u v) b => SubExpr.createPartial u v (AddExpr.create l b)
      | l, r => .arithmetic .sub l r
termination_by sizeOf l + sizeOf r

end

def MulExpr.createPartialR (u v : Nat) (r : Expr) : Expr :=
  if u = 1 then AndExpr.createPartial r u v
  else if v % 2 ^ u = 1 then r
  else if v % 2 ^ u = 0 then .constant u v
  else .arithmetic .mul (.constant u v) r

def MulExpr.create (l r : Expr) : Expr :=
  match l, r with
  | .constant u v, .constant _ v' => ofBits (BitVec.ofNat u v * BitVec.ofNat u v')
  | .constant u v, r => MulExpr.createPartialR u v r
  | l, .constant u v => MulExpr.createPartialR u v l
  | l, r => if l.width = 1 then .arithmetic .and l r else .arithmetic .mul l r

/-- Constants are folded, booleans treated apart, or a node is made. -/
def BinaryExpr.createWith (A : APInt) (kind : ArithmeticKind) (bool : Expr → Expr → Expr)
    (l r : Expr) : Expr :=
  match l, r with
  | .constant u v, .constant _ v' =>
    ofBits (A.arithmetic kind (BitVec.ofNat u v) (BitVec.ofNat u v'))
  | l, r => if l.width = 1 then bool l r else .arithmetic kind l r

def UDivExpr.create (A : APInt) : Expr → Expr → Expr := BinaryExpr.createWith A .udiv fun l _ => l

def SDivExpr.create (A : APInt) : Expr → Expr → Expr := BinaryExpr.createWith A .sdiv fun l _ => l

def URemExpr.create (A : APInt) : Expr → Expr → Expr :=
  BinaryExpr.createWith A .urem fun _ _ => .constant 1 0

def SRemExpr.create (A : APInt) : Expr → Expr → Expr :=
  BinaryExpr.createWith A .srem fun _ _ => .constant 1 0

def ShlExpr.create (A : APInt) : Expr → Expr → Expr :=
  BinaryExpr.createWith A .shl fun l r => AndExpr.create l (createIsZero r)

def LShrExpr.create (A : APInt) : Expr → Expr → Expr :=
  BinaryExpr.createWith A .lshr fun l r => AndExpr.create l (createIsZero r)

def AShrExpr.create (A : APInt) : Expr → Expr → Expr := BinaryExpr.createWith A .ashr fun l _ => l

def NeExpr.create (l r : Expr) : Expr := EqExpr.create (.constant 1 0) (EqExpr.create l r)

def CmpExpr.createWith (kind : CmpKind) (bool : Expr → Expr → Expr) (l r : Expr) : Expr :=
  match l, r with
  | .constant u v, .constant _ v' =>
    ofBits (BitVec.ofBool (kind.apply (BitVec.ofNat u v) (BitVec.ofNat u v')))
  | l, r => if l.width = 1 then bool l r else .compare kind l r

def UltExpr.create : Expr → Expr → Expr :=
  CmpExpr.createWith .ult fun l r => AndExpr.create (createIsZero l) r

def UleExpr.create : Expr → Expr → Expr :=
  CmpExpr.createWith .ule fun l r => OrExpr.create (createIsZero l) r

def SltExpr.create : Expr → Expr → Expr :=
  CmpExpr.createWith .slt fun l r => AndExpr.create l (createIsZero r)

def SleExpr.create : Expr → Expr → Expr :=
  CmpExpr.createWith .sle fun l r => OrExpr.create l (createIsZero r)

def UgtExpr.create (l r : Expr) : Expr := UltExpr.create r l

def UgeExpr.create (l r : Expr) : Expr := UleExpr.create r l

def SgtExpr.create (l r : Expr) : Expr := SltExpr.create r l

def SgeExpr.create (l r : Expr) : Expr := SleExpr.create r l

def SelectExpr.make (c t f : Expr) : Expr :=
  if t.width = 1 then
    match t, f with
    | .constant _ v, f => if v % 2 = 1 then OrExpr.create c f else AndExpr.create (createIsZero c) f
    | t, .constant _ v => if v % 2 = 1 then OrExpr.create (createIsZero c) t else AndExpr.create c t
    | t, f => .select c t f
  else .select c t f

def SelectExpr.create (c t f : Expr) : Expr :=
  match c with
  | .constant _ v => if v % 2 = 1 then t else f
  | c =>
    if t = f then t
    else
      match t, f with
      | .select c' t' f', f =>
        if f = f' then SelectExpr.create (AndExpr.create c c') t' f
        else if f = t' then SelectExpr.create (AndExpr.create c (NotExpr.create c')) f' f
        else .select c (.select c' t' f') f
      | t, .select c' t' f' =>
        if t = t' then SelectExpr.create (OrExpr.create c c') t f'
        else if t = f' then SelectExpr.create (OrExpr.create c (NotExpr.create c')) t t'
        else .select c t (.select c' t' f')
      | t, f => SelectExpr.make c t f
termination_by sizeOf t + sizeOf f

namespace SelectExpr
def hasConstantCases : Expr → Bool
  | .select _ t f => t.isConstant || f.isConstant || hasConstantCases t || hasConstantCases f
  | _ => false

end SelectExpr

def ReadExpr.rollback (index : Expr) : UpdateNode → Option Expr
  | .null => none
  | .node i value next =>
    match EqExpr.create index i with
    | .constant _ v => if v % 2 = 1 then some value else ReadExpr.rollback index next
    | _ => none

def ReadExpr.create (root : KArray) (head : UpdateNode) (index : Expr) : Expr :=
  match index with
  | .select c t f =>
    if SelectExpr.hasConstantCases (.select c t f) then
      SelectExpr.create c (ReadExpr.create root head t) (ReadExpr.create root head f)
    else (ReadExpr.rollback (.select c t f) head).getD (.read root head (.select c t f))
  | index => (ReadExpr.rollback index head).getD (.read root head index)

def ArithmeticExpr.create (A : APInt) : ArithmeticKind → Expr → Expr → Expr
  | .add => AddExpr.create
  | .sub => SubExpr.create
  | .mul => MulExpr.create
  | .udiv => UDivExpr.create A
  | .sdiv => SDivExpr.create A
  | .urem => URemExpr.create A
  | .srem => SRemExpr.create A
  | .and => AndExpr.create
  | .or => OrExpr.create
  | .xor => XorExpr.create
  | .shl => ShlExpr.create A
  | .lshr => LShrExpr.create A
  | .ashr => AShrExpr.create A

def CompareExpr.create : CmpKind → Expr → Expr → Expr
  | .eq => EqExpr.create
  | .ne => NeExpr.create
  | .ult => UltExpr.create
  | .ule => UleExpr.create
  | .ugt => UgtExpr.create
  | .uge => UgeExpr.create
  | .slt => SltExpr.create
  | .sle => SleExpr.create
  | .sgt => SgtExpr.create
  | .sge => SgeExpr.create

/-- The constructor of the operator at the root, applied to its operands. -/
def Expr.recreate (A : APInt) : Expr → Expr
  | .constant w v => .constant w v
  | .notOptimized src => .notOptimized src
  | .read root head index => ReadExpr.create root head index
  | .select c t f => SelectExpr.create c t f
  | .concat l r => ConcatExpr.create l r
  | .extract e offset w => ExtractExpr.create e offset w
  | .zext src w => ZExtExpr.create src w
  | .sext src w => SExtExpr.create src w
  | .not e => NotExpr.create e
  | .arithmetic kind l r => ArithmeticExpr.create A kind l r
  | .compare kind l r => CompareExpr.create kind l r

end Chef
