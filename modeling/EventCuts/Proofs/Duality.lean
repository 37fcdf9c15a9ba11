import EventCuts.Proofs.Provenance

/-!
# Negated cuts

What is not passed together is refused by one of the two, and what neither passes is refused by
both. This holds for floats that are no numbers, for vectors, which meet eagerly, and for failures:
the negated connective asks for its right operand exactly when the other connective asks for the
negated one, and only the name that an empty vector is reported by tells the two forms apart.
-/

namespace EventCuts

variable {C : Type} {c : C}

/-- The same, or both have met an empty vector, by whatever name. -/
def Concurs {α : Type} (x y : Eval α) : Prop :=
  x = y ∨ ∃ m n, x = .error (.emptyBroadcast m) ∧ y = .error (.emptyBroadcast n)

namespace BinaryOp

def negate : Float → Float := PrefixOp.not.apply

theorem isTrue_flag (b : Bool) : isTrue (flag b) = b := by
  cases b <;> decide +kernel

theorem isTrue_negate (x : Float) : isTrue (negate x) = !isTrue x := isTrue_flag _

theorem negate_flag (b : Bool) : negate (flag b) = flag (!b) := by
  rw [negate, PrefixOp.apply, isTrue_flag]

/-- The other connective answers negated operands with the negated answer, and the left operand
decides the one when its negation decides the other. -/
structure Dual (op other : BinaryOp) : Prop where
  apply : ∀ x y, negate (op.apply x y) = other.apply (negate x) (negate y)
  decided : ∀ x, (op.decided x).map negate = other.decided (negate x)

theorem dual_and_or : Dual .and .or where
  apply x y := by
    rw [BinaryOp.apply, BinaryOp.apply, negate_flag, isTrue_negate, isTrue_negate, Bool.not_and]
  decided x := by
    rw [BinaryOp.decided, BinaryOp.decided, isTrue_negate]
    cases isTrue x with
    | true => rfl
    | false => exact congrArg some (negate_flag false)

theorem dual_or_and : Dual .or .and where
  apply x y := by
    rw [BinaryOp.apply, BinaryOp.apply, negate_flag, isTrue_negate, isTrue_negate, Bool.not_or]
  decided x := by
    rw [BinaryOp.decided, BinaryOp.decided, isTrue_negate]
    cases isTrue x with
    | true => exact congrArg some (negate_flag true)
    | false => rfl

end BinaryOp

def Value.map (op : Float → Float) : Value → Value
  | scalar x => scalar (op x)
  | vector xs => vector (xs.map op)

namespace Payload

open BinaryOp (negate)

variable {op other : BinaryOp}

def negated (op : BinaryOp) (m n : String) (p q : Payload C) : Payload C :=
  (p.combine op m n q).map negate

def ofNegated (op : BinaryOp) (m n : String) (p q : Payload C) : Payload C :=
  (p.map negate).combine op m n (q.map negate)

theorem eval_negated_scalars (h : op.Dual other) (f g : C → Eval Float) (m n m' n' : String) :
    (negated op m n (.scalar f) (.scalar g)).eval c =
      (ofNegated other m' n' (.scalar f) (.scalar g)).eval c := by
  simp only [negated, ofNegated, combine, map, eval]
  cases f c with
  | error x => rfl
  | ok x =>
    have hdecided := h.decided x
    simp only [Except.map, bind, Except.bind, ← hdecided]
    cases op.decided x with
    | some answer => rfl
    | none =>
      cases g c with
      | error x => rfl
      | ok y => exact congrArg (fun r => Except.ok (Value.scalar r)) (h.apply x y)

theorem eval_negated_vectors (h : op.Dual other) (f g : C → Eval (List Float))
    (m n m' n' : String) :
    (negated op m n (.vector f) (.vector g)).eval c =
      (ofNegated other m' n' (.vector f) (.vector g)).eval c := by
  simp only [negated, ofNegated, combine, map, eval]
  cases f c with
  | error x => rfl
  | ok xs =>
    cases g c with
    | error x => rfl
    | ok ys =>
      have hpairs : (List.zipWith op.apply xs ys).map negate =
          List.zipWith other.apply (xs.map negate) (ys.map negate) := by
        rw [List.map_zipWith, List.zipWith_map]
        simp only [h.apply]
      exact congrArg (fun rs => Except.ok (Value.vector rs)) hpairs

theorem concurs_negated_vector_scalar (h : op.Dual other) (f : C → Eval (List Float))
    (g : C → Eval Float) (m n m' n' : String) :
    Concurs ((negated op m n (.vector f) (.scalar g)).eval c)
      ((ofNegated other m' n' (.vector f) (.scalar g)).eval c) := by
  simp only [negated, ofNegated, combine, map, eval]
  cases f c with
  | error x => exact .inl rfl
  | ok xs =>
    cases xs with
    | nil => exact .inr ⟨m, m', rfl, rfl⟩
    | cons x xs =>
      cases g c with
      | error x => exact .inl rfl
      | ok y =>
        have hentries : ((x :: xs).map fun x => op.apply x y).map negate =
            ((x :: xs).map negate).map fun x => other.apply x (negate y) := by
          rw [List.map_map, List.map_map]
          exact List.map_congr_left fun x _ => h.apply x y
        exact .inl (congrArg (fun rs => Except.ok (Value.vector rs)) hentries)

theorem concurs_negated_scalar_vector (h : op.Dual other) (f : C → Eval Float)
    (g : C → Eval (List Float)) (m n m' n' : String) :
    Concurs ((negated op m n (.scalar f) (.vector g)).eval c)
      ((ofNegated other m' n' (.scalar f) (.vector g)).eval c) := by
  simp only [negated, ofNegated, combine, map, eval]
  cases f c with
  | error x => exact .inl rfl
  | ok x =>
    cases g c with
    | error x => exact .inl rfl
    | ok ys =>
      cases ys with
      | nil => exact .inr ⟨n, n', rfl, rfl⟩
      | cons y ys =>
        have hentries : ((y :: ys).map fun y => op.apply x y).map negate =
            ((y :: ys).map negate).map fun y => other.apply (negate x) y := by
          rw [List.map_map, List.map_map]
          exact List.map_congr_left fun y _ => h.apply x y
        exact .inl (congrArg (fun rs => Except.ok (Value.vector rs)) hentries)

theorem concurs_negated (h : op.Dual other) (p q : Payload C) (m n m' n' : String) :
    Concurs ((negated op m n p q).eval c) ((ofNegated other m' n' p q).eval c) := by
  cases p with
  | scalar f =>
    cases q with
    | scalar g => exact .inl (eval_negated_scalars h f g m n m' n')
    | vector g => exact concurs_negated_scalar_vector h f g m n m' n'
  | vector f =>
    cases q with
    | scalar g => exact concurs_negated_vector_scalar h f g m n m' n'
    | vector g => exact .inl (eval_negated_vectors h f g m n m' n')

/-! Which operands are asked. -/

def failing (shape : Shape) (x : EvalError) : Payload C :=
  match shape with
  | .scalar => .scalar fun _ => .error x
  | .vector => .vector fun _ => .error x

def Reaches (op : BinaryOp) (p : Payload C) (right : Shape) (c : C) : Prop :=
  match p, right with
  | scalar f, .scalar => ∃ x, f c = .ok x ∧ op.decided x = none
  | scalar f, .vector => ∃ x, f c = .ok x
  | vector f, .scalar => ∃ xs, f c = .ok xs ∧ xs ≠ []
  | vector f, .vector => ∃ xs, f c = .ok xs

theorem fails_of_reaches {p : Payload C} {right : Shape} (h : Reaches op p right c) (m n : String)
    (x : EvalError) : (p.combine op m n (failing right x)).Fails c x := by
  cases p with
  | scalar f =>
    cases right with
    | scalar =>
      rcases h with ⟨a, ha, hdecided⟩
      simp only [failing, combine, Fails, ha, hdecided, bind, Except.bind]
    | vector =>
      rcases h with ⟨a, ha⟩
      simp only [failing, combine, Fails, ha, bind, Except.bind]
  | vector f =>
    cases right with
    | scalar =>
      rcases h with ⟨as, ha, hentries⟩
      rcases List.exists_cons_of_ne_nil hentries with ⟨a, as, rfl⟩
      simp only [failing, combine, Fails, ha, bind, Except.bind]
      rfl
    | vector =>
      rcases h with ⟨as, ha⟩
      simp only [failing, combine, Fails, ha, bind, Except.bind]

theorem eval_of_not_reaches {p : Payload C} {right : Shape} (h : ¬ Reaches op p right c)
    (m n : String) :
    ∃ answer, ∀ q : Payload C, q.shape = right → (p.combine op m n q).eval c = answer := by
  cases p with
  | scalar f =>
    cases hf : f c with
    | error x =>
      refine ⟨.error x, fun q _ => ?_⟩
      cases q <;> simp only [combine, eval, hf, bind, Except.bind, Except.map]
    | ok a =>
      cases right with
      | scalar =>
        cases hdecided : op.decided a with
        | none => exact absurd ⟨a, hf, hdecided⟩ h
        | some answer =>
          refine ⟨.ok (.scalar answer), fun q hq => ?_⟩
          cases q with
          | scalar g =>
            simp only [combine, eval, hf, hdecided, bind, Except.bind, Except.map, pure,
              Except.pure]
          | vector g => cases hq
      | vector => exact absurd ⟨a, hf⟩ h
  | vector f =>
    cases hf : f c with
    | error x =>
      refine ⟨.error x, fun q _ => ?_⟩
      cases q <;> simp only [combine, eval, hf, bind, Except.bind, Except.map]
    | ok as =>
      cases right with
      | scalar =>
        by_cases hentries : as = []
        · refine ⟨.error (.emptyBroadcast m), fun q hq => ?_⟩
          cases q with
          | scalar g =>
            simp only [combine, eval, hf, hentries, bind, Except.bind]
            rfl
          | vector g => cases hq
        · exact absurd ⟨as, hf, hentries⟩ h
      | vector => exact absurd ⟨as, hf⟩ h

theorem reaches_map_negate (h : op.Dual other) (p : Payload C) (right : Shape) :
    Reaches other (p.map negate) right c ↔ Reaches op p right c := by
  cases p with
  | scalar f =>
    cases hf : f c with
    | error x => cases right <;> simp [Reaches, map, hf, Except.map]
    | ok a => cases right <;> simp [Reaches, map, hf, Except.map, ← h.decided]
  | vector f =>
    cases hf : f c with
    | error x => cases right <;> simp [Reaches, map, hf, Except.map]
    | ok as => cases right <;> simp [Reaches, map, hf, Except.map]

theorem map_failing (op : Float → Float) (shape : Shape) (x : EvalError) :
    (failing shape x : Payload C).map op = failing shape x := by
  cases shape <;> rfl

theorem shape_failing (shape : Shape) (x : EvalError) :
    (failing shape x : Payload C).shape = shape := by
  cases shape <;> rfl

theorem shape_map (op : Float → Float) (p : Payload C) : (p.map op).shape = p.shape := by
  cases p <;> rfl

theorem eval_map (op : Float → Float) (p : Payload C) :
    (p.map op).eval c = (p.eval c).map (Value.map op) := by
  cases p with
  | scalar f =>
    simp only [map, eval]
    cases f c <;> rfl
  | vector f =>
    simp only [map, eval]
    cases f c <;> rfl

section Right

variable {p : Payload C} {right : Shape}

theorem eval_negated_failing (h : Reaches op p right c) (m n : String) (x : EvalError) :
    (negated op m n p (failing right x)).eval c = .error x := by
  rw [eval_eq_error_iff, negated, fails_map_iff]
  exact fails_of_reaches h m n x

theorem eval_ofNegated_failing (hdual : op.Dual other) (h : Reaches op p right c) (m n : String)
    (x : EvalError) : (ofNegated other m n p (failing right x)).eval c = .error x := by
  rw [eval_eq_error_iff, ofNegated, map_failing]
  exact fails_of_reaches ((reaches_map_negate hdual p right).2 h) m n x

theorem eval_negated_of_not_reaches (h : ¬ Reaches op p right c) (m n : String) {q r : Payload C}
    (hq : q.shape = right) (hr : r.shape = right) :
    (negated op m n p q).eval c = (negated op m n p r).eval c := by
  rcases eval_of_not_reaches h m n with ⟨answer, hanswer⟩
  rw [negated, negated, eval_map, eval_map, hanswer q hq, hanswer r hr]

theorem eval_ofNegated_of_not_reaches (hdual : op.Dual other) (h : ¬ Reaches op p right c)
    (m n : String) {q r : Payload C} (hq : q.shape = right) (hr : r.shape = right) :
    (ofNegated other m n p q).eval c = (ofNegated other m n p r).eval c := by
  have hright := mt (reaches_map_negate hdual p right).1 h
  rcases eval_of_not_reaches hright m n with ⟨answer, hanswer⟩
  rw [ofNegated, ofNegated, hanswer _ ((shape_map negate q).trans hq),
    hanswer _ ((shape_map negate r).trans hr)]

end Right

end Payload

namespace Expr

/-- The whole fails as the operand does, however it fails. -/
def Asks (whole : Expr C → Expr C) (operand : Expr C) (c : C) : Prop :=
  ∀ x, (whole ⟨operand.name, .failing operand.shape x⟩).eval c = .error x

/-- The whole answers the same with any function of that shape as its operand. -/
def Ignores (whole : Expr C → Expr C) (operand : Expr C) (c : C) : Prop :=
  ∀ f : Payload C, f.shape = operand.shape →
    (whole ⟨operand.name, f⟩).eval c = (whole operand).eval c

theorem not_asks_of_ignores {whole : Expr C → Expr C} {operand : Expr C}
    (h : Ignores whole operand c) : ¬ Asks whole operand c := by
  intro hasks
  have hmissing := h (.failing operand.shape (.missingColumn "")) (Payload.shape_failing _ _)
  have hempty := h (.failing operand.shape (.emptyBroadcast "")) (Payload.shape_failing _ _)
  rw [hasks, ← hempty, hasks] at hmissing
  cases hmissing

def negated (op : BinaryOp) (a b : Expr C) : Expr C := (binary op a b).unary .not

def ofNegated (op : BinaryOp) (a b : Expr C) : Expr C := binary op (a.unary .not) (b.unary .not)

variable {op other : BinaryOp}

theorem asks_or_ignores_negated (h : op.Dual other) (a b : Expr C) (c : C) :
    (Asks (negated op a) b c ∧ Asks (ofNegated other a) b c) ∨
      (Ignores (negated op a) b c ∧ Ignores (ofNegated other a) b c) := by
  by_cases hreaches : a.payload.Reaches op b.shape c
  · exact .inl ⟨Payload.eval_negated_failing hreaches a.name b.name,
      Payload.eval_ofNegated_failing h hreaches (a.unary .not).name (b.unary .not).name⟩
  · exact .inr ⟨fun f hf => Payload.eval_negated_of_not_reaches hreaches _ _ hf rfl,
      fun f hf => Payload.eval_ofNegated_of_not_reaches h hreaches _ _ hf rfl⟩

structure Mirrored (op other : BinaryOp) (a b : Expr C) (c : C) : Prop where
  shape_eq : (negated op a b).shape = (ofNegated other a b).shape
  eval : Concurs ((negated op a b).eval c) ((ofNegated other a b).eval c)
  asks_iff : Asks (negated op a) b c ↔ Asks (ofNegated other a) b c
  ignores : ¬ Asks (negated op a) b c → Ignores (negated op a) b c ∧ Ignores (ofNegated other a) b c

theorem mirrored (h : op.Dual other) (a b : Expr C) (c : C) : Mirrored op other a b c where
  shape_eq := by
    rw [negated, ofNegated, shape_unary, shape_binary, shape_binary, shape_unary, shape_unary]
  eval := Payload.concurs_negated h a.payload b.payload _ _ _ _
  asks_iff := by
    rcases asks_or_ignores_negated h a b c with ⟨hleft, hright⟩ | ⟨hleft, hright⟩
    · exact iff_of_true hleft hright
    · exact iff_of_false (not_asks_of_ignores hleft) (not_asks_of_ignores hright)
  ignores hasks := by
    rcases asks_or_ignores_negated h a b c with ⟨hleft, _⟩ | hignores
    · exact absurd hleft hasks
    · exact hignores

/-- Negation turns each connective of two cuts into the other one of the negated cuts, whatever
shapes they have. -/
theorem negated_connectives (a b : Expr C) (c : C) :
    Mirrored .and .or a b c ∧ Mirrored .or .and a b c :=
  ⟨mirrored BinaryOp.dual_and_or a b c, mirrored BinaryOp.dual_or_and a b c⟩

end Expr

end EventCuts
