import EventCuts.Value

/-!
# Expressions

A named function of an event, in one of the two shapes. Nothing is kept between
evaluations. The function of an operator or a subscript calls its operands in
order, the left one first, and stops at the first failure.
-/

namespace EventCuts

inductive Payload (C : Type) where
  | scalar (f : C → Eval Float)
  | vector (f : C → Eval (List Float))

structure Expr (C : Type) where
  name : String
  payload : Payload C

variable {C : Type}

namespace Payload

def shape : Payload C → Shape
  | scalar _ => .scalar
  | vector _ => .vector

def eval (c : C) : Payload C → Eval Value
  | scalar f => (f c).map .scalar
  | vector f => (f c).map .vector

def map (op : Float → Float) : Payload C → Payload C
  | scalar f => .scalar fun c => (f c).map op
  | vector f => .vector fun c => (f c).map (List.map op)

def requireEntries (name : String) (entries : List Float) : Eval Unit :=
  if entries.isEmpty then .error (.emptyBroadcast name) else .ok ()

/-- Two scalars meet once, and the right one is not asked when the left one decides.
A scalar meets every entry of a vector. Two vectors meet entry by entry, as far as
the shorter one goes. -/
def combine (op : BinaryOp) (leftName rightName : String) : Payload C → Payload C → Payload C
  | scalar f, scalar g => .scalar fun c => do
    let x ← f c
    match op.decided x with
    | some answer => pure answer
    | none =>
      let y ← g c
      pure (op.apply x y)
  | vector f, scalar g => .vector fun c => do
    let xs ← f c
    requireEntries leftName xs
    let y ← g c
    pure (xs.map fun x => op.apply x y)
  | scalar f, vector g => .vector fun c => do
    let x ← f c
    let ys ← g c
    requireEntries rightName ys
    pure (ys.map fun y => op.apply x y)
  | vector f, vector g => .vector fun c => do
    let xs ← f c
    let ys ← g c
    pure (List.zipWith op.apply xs ys)

end Payload

/-- The entry that an index selects: the index truncated toward zero, so that what lies
strictly between minus one and zero selects the first one. -/
def position? (index : Float) : Option Nat :=
  match Exact.ofFloat index with
  | .finite false steps => some (Exact.whole steps)
  | .finite true steps => if Exact.whole steps = 0 then some 0 else none
  | _ => none

def entryAt (name : String) (entries : List Float) (index : Float) : Eval Float :=
  match (position? index).bind fun position => entries[position]? with
  | some entry => .ok entry
  | none => .error (.indexOutOfRange name index entries.length)

namespace Expr

def shape (e : Expr C) : Shape := e.payload.shape

def isScalar (e : Expr C) : Bool := e.shape = .scalar

def isVector (e : Expr C) : Bool := e.shape = .vector

def rename (name : String) (e : Expr C) : Expr C := { e with name }

def scalar (name : String) (f : C → Eval Float) : Expr C := ⟨name, .scalar f⟩

def vector (name : String) (f : C → Eval (List Float)) : Expr C := ⟨name, .vector f⟩

def constant (x : Float) : Expr C := scalar (FloatFormat.plain.render x) fun _ => .ok x

def ofValue (name : String) : Value → Expr C
  | .scalar x => scalar name fun _ => .ok x
  | .vector xs => vector name fun _ => .ok xs

def eval (e : Expr C) (c : C) : Eval Value := e.payload.eval c

def evalScalar (e : Expr C) (c : C) : Eval Float :=
  match e.payload with
  | .scalar f => f c
  | .vector _ => .error (.shapeMismatch e.name .scalar)

def evalVector (e : Expr C) (c : C) : Eval (List Float) :=
  match e.payload with
  | .scalar _ => .error (.shapeMismatch e.name .vector)
  | .vector f => f c

def unary (op : PrefixOp) (e : Expr C) : Expr C :=
  ⟨op.symbol ++ "(" ++ e.name ++ ")", e.payload.map op.apply⟩

def binary (op : BinaryOp) (left right : Expr C) : Expr C :=
  ⟨"(" ++ left.name ++ ")" ++ op.symbol ++ "(" ++ right.name ++ ")",
    left.payload.combine op left.name right.name right.payload⟩

def subscript (e index : Expr C) : Option (Expr C) :=
  match e.payload, index.payload with
  | .vector f, .scalar g =>
    some (scalar (e.name ++ "[" ++ index.name ++ "]") fun c => do
      let entries ← f c
      let i ← g c
      entryAt e.name entries i)
  | _, _ => none

theorem shape_unary (op : PrefixOp) (e : Expr C) : (e.unary op).shape = e.shape := by
  rcases e with ⟨_, _ | _⟩ <;> rfl

theorem shape_binary (op : BinaryOp) (left right : Expr C) :
    (binary op left right).shape =
      if left.shape = .scalar ∧ right.shape = .scalar then .scalar else .vector := by
  rcases left with ⟨_, _ | _⟩ <;> rcases right with ⟨_, _ | _⟩ <;> rfl

theorem subscript_isSome (e index : Expr C) :
    (e.subscript index).isSome = (e.isVector && index.isScalar) := by
  rcases e with ⟨_, _ | _⟩ <;> rcases index with ⟨_, _ | _⟩ <;> rfl

end Expr

end EventCuts
