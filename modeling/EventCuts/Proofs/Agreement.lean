import EventCuts.Expr.Basic

/-!
# Agreement

Two evaluations agree when they answer the same, or fail for the same reason under whatever
name. Operators and subscripts keep agreement, since the names of their operands only
serve to report a failure.
-/

namespace EventCuts

def EvalError.unnamed : EvalError → EvalError
  | indexOutOfRange _ index count => indexOutOfRange "" index count
  | emptyBroadcast _ => emptyBroadcast ""
  | shapeMismatch _ expected => shapeMismatch "" expected
  | missingColumn _ => missingColumn ""

def Agrees {α : Type} (x y : Eval α) : Prop :=
  x.mapError EvalError.unnamed = y.mapError EvalError.unnamed

namespace Agrees

variable {α β : Type} {x y : Eval α}

theorem refl (x : Eval α) : Agrees x x := rfl

theorem bind {f g : α → Eval β} (h : Agrees x y) (hfg : ∀ a, Agrees (f a) (g a)) :
    Agrees (x >>= f) (y >>= g) := by
  cases x with
  | error e =>
    cases y with
    | error e' => exact congrArg Except.error (Except.error.inj h)
    | ok b => cases h
  | ok a =>
    cases y with
    | error e => cases h
    | ok b =>
      obtain rfl : a = b := Except.ok.inj h
      exact hfg a

theorem map (f : α → β) (h : Agrees x y) : Agrees (x.map f) (y.map f) := by
  have hbind := h.bind fun a => refl (pure (f a))
  cases x <;> cases y <;> exact hbind

theorem entryAt (name other : String) (entries : List Float) (i : Float) :
    Agrees (entryAt name entries i) (entryAt other entries i) := by
  unfold EventCuts.entryAt
  split <;> rfl

theorem requireEntries (name other : String) (xs : List Float) :
    Agrees (Payload.requireEntries name xs) (Payload.requireEntries other xs) := by
  cases xs <;> rfl

end Agrees

variable {C : Type}

def Payload.Agrees : Payload C → Payload C → Prop
  | scalar f, scalar g => ∀ c, EventCuts.Agrees (f c) (g c)
  | vector f, vector g => ∀ c, EventCuts.Agrees (f c) (g c)
  | _, _ => False

namespace Payload.Agrees

variable {p q r s : Payload C}

theorem refl (p : Payload C) : p.Agrees p := by
  cases p <;> exact fun _ => rfl

theorem shape_eq (h : p.Agrees q) : p.shape = q.shape := by
  cases p <;> cases q <;> first | rfl | cases h

theorem eval (h : p.Agrees q) (c : C) : EventCuts.Agrees (p.eval c) (q.eval c) := by
  cases p <;> cases q <;> first | exact (h c).map _ | cases h

theorem map (op : Float → Float) (h : p.Agrees q) : (p.map op).Agrees (q.map op) := by
  cases p <;> cases q <;> first | exact fun c => (h c).map _ | cases h

theorem combine (op : BinaryOp) (m n m' n' : String) (hl : p.Agrees q) (hr : r.Agrees s) :
    (p.combine op m n r).Agrees (q.combine op m' n' s) := by
  cases p with
  | scalar f =>
    cases q with
    | vector _ => cases hl
    | scalar g =>
      cases r with
      | scalar f' =>
        cases s with
        | vector _ => cases hr
        | scalar g' =>
          intro c
          refine (hl c).bind fun x => ?_
          cases op.decided x with
          | some answer => exact .refl _
          | none => exact (hr c).bind fun y => .refl _
      | vector f' =>
        cases s with
        | scalar _ => cases hr
        | vector g' =>
          intro c
          refine (hl c).bind fun x => (hr c).bind fun ys => ?_
          exact (EventCuts.Agrees.requireEntries n n' ys).bind fun _ => .refl _
  | vector f =>
    cases q with
    | scalar _ => cases hl
    | vector g =>
      cases r with
      | scalar f' =>
        cases s with
        | vector _ => cases hr
        | scalar g' =>
          intro c
          refine (hl c).bind fun xs => ?_
          exact (EventCuts.Agrees.requireEntries m m' xs).bind fun _ => (hr c).bind fun y => .refl _
      | vector f' =>
        cases s with
        | scalar _ => cases hr
        | vector g' =>
          intro c
          exact (hl c).bind fun xs => (hr c).bind fun ys => .refl _

end Payload.Agrees

def Expr.Agrees (e e' : Expr C) : Prop := e.payload.Agrees e'.payload

namespace Expr.Agrees

variable {e e' i i' : Expr C}

theorem shape_eq (h : e.Agrees e') : e.shape = e'.shape := Payload.Agrees.shape_eq h

theorem eval (h : e.Agrees e') (c : C) : EventCuts.Agrees (e.eval c) (e'.eval c) :=
  Payload.Agrees.eval h c

theorem rename (h : e.Agrees e') (name other : String) :
    (e.rename name).Agrees (e'.rename other) := h

theorem unary (op : PrefixOp) (h : e.Agrees e') : (e.unary op).Agrees (e'.unary op) :=
  Payload.Agrees.map op.apply h

theorem binary (op : BinaryOp) (h : e.Agrees e') (hi : i.Agrees i') :
    (Expr.binary op e i).Agrees (Expr.binary op e' i') :=
  Payload.Agrees.combine op _ _ _ _ h hi

theorem subscript {a b : Expr C} (h : e.Agrees e') (hi : i.Agrees i')
    (ha : e.subscript i = some a) (hb : e'.subscript i' = some b) : a.Agrees b := by
  obtain ⟨n, f | f⟩ := e
  · cases ha
  · obtain ⟨n', g | g⟩ := e'
    · cases hb
    · obtain ⟨m, f' | f'⟩ := i
      · obtain ⟨m', g' | g'⟩ := i'
        · cases ha
          cases hb
          intro c
          exact (h c).bind fun entries => (hi c).bind fun x => .entryAt n n' entries x
        · cases hb
      · cases ha

end Expr.Agrees

end EventCuts
