import EventCuts.Proofs.Acceptance

/-!
# What a cut means

An evaluator on terms, with no tokens, passes or names to carry along. Operands are asked
from left to right, and the first failure is the answer. A compiled cut evaluates as its term does.
-/

namespace EventCuts

variable {C : Type}

/-- The answer of an operator that has one scalar and asks for the other if it needs to. -/
def BinaryOp.answer (op : BinaryOp) (x : Float) (right : Eval Float) : Eval Float :=
  match op with
  | .and => if isTrue x then right.map fun y => flag (isTrue y) else .ok (flag false)
  | .or => if isTrue x then .ok (flag true) else right.map fun y => flag (isTrue y)
  | _ => right.map (op.apply x)

namespace Term

def label : Term → String
  | number text | name text => text
  | group inner => "(" ++ inner.text ++ ")"
  | entry vector index => vector.text ++ "[" ++ index.text ++ "]"
  | prefixed op operand => op.symbol ++ "(" ++ operand.label ++ ")"
  | binary op left right => "(" ++ left.label ++ ")" ++ op.symbol ++ "(" ++ right.label ++ ")"

mutual

def scalarValue (schema : Schema C) (c : C) : Term → Eval Float
  | number text => .ok ((readNumber text).getD Exact.undefined)
  | name text =>
    match schema text with
    | some e => e.evalScalar c
    | none => .error (.missingColumn text)
  | group inner => inner.scalarValue schema c
  | entry vector index => do
    let entries ← vector.vectorValue schema c
    let i ← index.scalarValue schema c
    entryAt vector.text entries i
  | prefixed op operand => do
    let x ← operand.scalarValue schema c
    pure (op.apply x)
  | binary op left right => do
    let x ← left.scalarValue schema c
    op.answer x (right.scalarValue schema c)

/-- Next to a vector a scalar meets every entry, and there has to be one. Two vectors meet
as far as the shorter one goes. -/
def vectorValue (schema : Schema C) (c : C) : Term → Eval (List Float)
  | name text =>
    match schema text with
    | some e => e.evalVector c
    | none => .error (.missingColumn text)
  | group inner => inner.vectorValue schema c
  | prefixed op operand => do
    let xs ← operand.vectorValue schema c
    pure (xs.map op.apply)
  | binary op left right =>
    match left.shape schema, right.shape schema with
    | .vector, .scalar => do
      let xs ← left.vectorValue schema c
      if xs = [] then .error (.emptyBroadcast left.label)
      else do
        let y ← right.scalarValue schema c
        pure (xs.map fun x => op.apply x y)
    | .scalar, .vector => do
      let x ← left.scalarValue schema c
      let ys ← right.vectorValue schema c
      if ys = [] then .error (.emptyBroadcast right.label)
      else pure (ys.map fun y => op.apply x y)
    | _, _ => do
      let xs ← left.vectorValue schema c
      let ys ← right.vectorValue schema c
      pure (List.zipWith op.apply xs ys)
  | t => .error (.shapeMismatch t.text .vector)

end

def value (schema : Schema C) (c : C) (t : Term) : Eval Value :=
  match t.shape schema with
  | .scalar => (t.scalarValue schema c).map .scalar
  | .vector => (t.vectorValue schema c).map .vector

def payload (schema : Schema C) (t : Term) : Payload C :=
  match t.shape schema with
  | .scalar => .scalar fun c => t.scalarValue schema c
  | .vector => .vector fun c => t.vectorValue schema c

theorem payload_of_scalar {schema : Schema C} {t : Term} (h : t.shape schema = .scalar) :
    t.payload schema = .scalar fun c => t.scalarValue schema c := by
  simp only [payload, h]

theorem payload_of_vector {schema : Schema C} {t : Term} (h : t.shape schema = .vector) :
    t.payload schema = .vector fun c => t.vectorValue schema c := by
  simp only [payload, h]

theorem eval_payload (schema : Schema C) (c : C) (t : Term) :
    (t.payload schema).eval c = t.value schema c := by
  cases h : t.shape schema with
  | scalar => simp only [payload_of_scalar h, Payload.eval, value, h]
  | vector => simp only [payload_of_vector h, Payload.eval, value, h]

end Term

variable {schema : Schema C}

theorem Derives.label_expr {level : Level} {t : Term} {ls : List Lexeme}
    (h : Derives schema level t ls) : (t.expr schema).name = t.label := by
  induction h with
  | number text => rfl
  | @name text e he => exact Term.name_expr (t := .name text) rfl schema
  | group _ _ => rfl
  | @entry v i _ _ hdv hdi hv hi _ _ =>
    obtain ⟨e, he, _⟩ := Expr.exists_subscript (i := (i.expr schema).rename i.text)
      (hdv.shape_expr.trans hv) (hdi.shape_expr.trans hi)
    simp only [Term.expr, he, Term.label]
    rfl
  | prefixed op _ ih => simp only [Term.expr, Expr.unary, ih, Term.label]
  | binary op _ _ _ ihl ihr => simp only [Term.expr, Expr.binary, ihl, ihr, Term.label]
  | loosen level _ ih => exact ih

theorem BinaryOp.answer_eq (op : BinaryOp) (x : Float) (right : Eval Float) :
    op.answer x right = (match op.decided x with
      | some answer => pure answer
      | none => do
        let y ← right
        pure (op.apply x y)) := by
  cases op <;> by_cases hx : isTrue x <;> cases right <;>
    simp [answer, decided, apply, hx, Except.map, bind, Except.bind, pure, Except.pure]

theorem BinaryOp.answer_ok (op : BinaryOp) (x y : Float) :
    op.answer x (.ok y) = .ok (op.apply x y) := by
  rw [op.answer_eq]
  cases hd : op.decided x with
  | none => rfl
  | some r => exact congrArg Except.ok (apply_of_decided hd y).symm

theorem requireEntries_bind {α : Type} (name : String) (xs : List Float) (next : Eval α) :
    (Payload.requireEntries name xs >>= fun _ => next) =
      if xs = [] then .error (.emptyBroadcast name) else next := by
  cases xs <;> rfl

theorem Term.combine_payload (schema : Schema C) (op : BinaryOp) (l r : Term) :
    (l.payload schema).combine op l.label r.label (r.payload schema) =
      (Term.binary op l r).payload schema := by
  cases hl : l.shape schema with
  | scalar =>
    cases hr : r.shape schema with
    | scalar =>
      have hs : (Term.binary op l r).shape schema = .scalar := by simp [shape, hl, hr, Shape.join]
      rw [payload_of_scalar hl, payload_of_scalar hr, payload_of_scalar hs]
      refine congrArg Payload.scalar (funext fun c => ?_)
      rw [scalarValue]
      exact congrArg (l.scalarValue schema c >>= ·) (funext fun x => (op.answer_eq x _).symm)
    | vector =>
      have hs : (Term.binary op l r).shape schema = .vector := by simp [shape, hl, hr, Shape.join]
      simp only [payload_of_scalar hl, payload_of_vector hr, payload_of_vector hs,
        Payload.combine, vectorValue, hl, hr, requireEntries_bind]
  | vector =>
    cases hr : r.shape schema with
    | scalar =>
      have hs : (Term.binary op l r).shape schema = .vector := by simp [shape, hl, hr, Shape.join]
      simp only [payload_of_vector hl, payload_of_scalar hr, payload_of_vector hs,
        Payload.combine, vectorValue, hl, hr, requireEntries_bind]
    | vector =>
      have hs : (Term.binary op l r).shape schema = .vector := by simp [shape, hl, hr, Shape.join]
      simp only [payload_of_vector hl, payload_of_vector hr, payload_of_vector hs,
        Payload.combine, vectorValue, hl, hr]

theorem Derives.payload_expr {level : Level} {t : Term} {ls : List Lexeme}
    (h : Derives schema level t ls) : (t.expr schema).payload = t.payload schema := by
  induction h with
  | number text => rfl
  | @name text e he =>
    cases hp : e.payload with
    | scalar f =>
      have hs : (Term.name text).shape schema = .scalar := by
        simp [Term.shape, he, Expr.shape, Payload.shape, hp]
      rw [Term.payload_of_scalar hs]
      simp [Term.expr, he, Expr.rename, hp, Term.scalarValue, Expr.evalScalar]
    | vector f =>
      have hs : (Term.name text).shape schema = .vector := by
        simp [Term.shape, he, Expr.shape, Payload.shape, hp]
      rw [Term.payload_of_vector hs]
      simp [Term.expr, he, Expr.rename, hp, Term.vectorValue, Expr.evalVector]
  | @group t _ _ ih =>
    refine Eq.trans (b := (t.expr schema).payload) rfl (ih.trans ?_)
    cases hs : t.shape schema with
    | scalar =>
      rw [Term.payload_of_scalar hs, Term.payload_of_scalar (t := .group t) hs]
      simp only [Term.scalarValue]
    | vector =>
      rw [Term.payload_of_vector hs, Term.payload_of_vector (t := .group t) hs]
      simp only [Term.vectorValue]
  | @entry v i _ _ hdv hdi hv hi ihv ihi =>
    rw [Term.payload_of_vector hv] at ihv
    rw [Term.payload_of_scalar hi] at ihi
    have hname : (v.expr schema).name = v.text :=
      Term.name_expr (Level.rank_injective (Nat.le_zero.1 hdv.rank_le)) schema
    rw [Term.payload_of_scalar (t := .entry v i) rfl]
    simp only [Term.expr, Expr.subscript, ihv, Expr.rename, ihi, hname, Expr.scalar,
      Term.scalarValue]
  | @prefixed t _ op _ ih =>
    rw [Term.expr, Expr.unary, ih]
    cases hs : t.shape schema with
    | scalar =>
      rw [Term.payload_of_scalar hs, Term.payload_of_scalar (t := .prefixed op t) hs]
      simp only [Term.scalarValue, Payload.map]
      refine congrArg (fun f => Payload.scalar f) (funext fun c => ?_)
      cases t.scalarValue schema c <;> rfl
    | vector =>
      rw [Term.payload_of_vector hs, Term.payload_of_vector (t := .prefixed op t) hs]
      simp only [Term.vectorValue, Payload.map]
      refine congrArg (fun f => Payload.vector f) (funext fun c => ?_)
      cases t.vectorValue schema c <;> rfl
  | @binary _ l r _ _ op _ hdl hdr ihl ihr =>
    rw [Term.expr, Expr.binary, ihl, ihr, hdl.label_expr, hdr.label_expr]
    exact Term.combine_payload schema op l r
  | loosen level _ ih => exact ih

theorem parse_means_derivation {source : String} {e : Expr C} (h : parse schema source = .ok e) :
    (∃ t, Derives schema .disjunction t (Lexeme.ofSource source)) ∧
      ∀ t, Derives schema .disjunction t (Lexeme.ofSource source) →
        ∀ c, e.eval c = t.value schema c := by
  obtain ⟨t, ht, _⟩ := derives_of_parse h
  refine ⟨⟨t, ht⟩, ?_⟩
  intro t ht c
  obtain ⟨_, rfl⟩ := (parse_eq_ok_iff ht e).1 h
  rw [Expr.eval, Expr.rename, ht.payload_expr, Term.eval_payload]

theorem parse_means_derivation_signed_entry :
    ∃ e : Expr (List Float), parse VariableTable.ofColumn.schema "-v[1]*2" = .ok e ∧
      (∃ t, Derives VariableTable.ofColumn.schema .disjunction t (Lexeme.ofSource "-v[1]*2")) ∧
      ∀ t, Derives VariableTable.ofColumn.schema .disjunction t (Lexeme.ofSource "-v[1]*2") →
        ∀ c, e.eval c = t.value VariableTable.ofColumn.schema c := by
  have hd : Derives VariableTable.ofColumn.schema .disjunction (.binary .mul
      (.prefixed .minus (.entry (.name "v") (.number "1"))) (.number "2"))
      (Lexeme.ofSource "-v[1]*2") := by
    have hentry := Derives.entry (derives_column .primary) (Derives.number "1").disjunction rfl rfl
    have hlexemes : Lexeme.ofSource "-v[1]*2" = [PrefixOp.minus.lexeme, ⟨.identifier, "v"⟩,
        .opening .square, ⟨.number, "1"⟩, .closing .square, BinaryOp.mul.lexeme,
        ⟨.number, "2"⟩] := by
      decide +kernel
    rw [hlexemes]
    exact (Derives.binary .mul rfl
      (.loosen .product (.prefixed .minus (.loosen .signed hentry)))
      ((Derives.number "2").mono (b := .signed) (Nat.zero_le 2))).disjunction
  have hr : Readable (Lexeme.ofSource "-v[1]*2") := by
    decide +kernel
  exact ⟨_, parse_of_derives hd hr, parse_means_derivation (parse_of_derives hd hr)⟩

end EventCuts
