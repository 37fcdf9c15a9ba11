import EventCuts.Proofs.Grammar
import EventCuts.Proofs.Outcome

/-!
# What tokens stand for

A token stands for a stretch of lexemes, and a resolved one for a stretch with a derivation.
A value just compiled from a group binds as loosely as a whole cut until its brackets are
gone; it stands in front of a closing bracket.
-/

namespace EventCuts

variable {C : Type}

theorem Kind.after_eq_self {kind : Kind} (h : ∀ sign, kind ≠ .ambiguous sign)
    (previous : Option Kind) : kind.after previous = kind := by
  cases kind with
  | ambiguous sign => exact absurd rfl (h sign)
  | _ => rfl

namespace Lexeme

def Spelled (l : Lexeme) : Prop :=
  match l.kind with
  | .opening b => l = opening b
  | .closing b => l = closing b
  | .ambiguous .plus => l = PrefixOp.plus.lexeme
  | .ambiguous .minus => l = PrefixOp.minus.lexeme
  | .prefixOp op => l = op.lexeme
  | .binary op => l = op.lexeme
  | .resolved _ => False
  | .number | .identifier | .unknown => True

def MayBe (l : Lexeme) (kind : Kind) : Prop :=
  kind = l.kind ∨ ∃ sign, l.kind = .ambiguous sign ∧
    (kind = .prefixOp sign.prefixOp ∨ kind = .binary sign.binaryOp)

variable {l : Lexeme} {kind : Kind}

theorem Spelled.not_resolved (h : l.Spelled) (hk : l.MayBe kind) (s : Shape) :
    kind ≠ .resolved s := by
  rintro rfl
  rcases hk with hk | ⟨sign, _, hk | hk⟩
  · simp [Spelled, ← hk] at h
  · cases hk
  · cases hk

theorem Spelled.opening {b : Bracket} (h : l.Spelled) (hk : l.MayBe (.opening b)) :
    l = Lexeme.opening b := by
  rcases hk with hk | ⟨sign, _, hk | hk⟩
  · simpa [Spelled, ← hk] using h
  · cases hk
  · cases hk

theorem Spelled.closing {b : Bracket} (h : l.Spelled) (hk : l.MayBe (.closing b)) :
    l = Lexeme.closing b := by
  rcases hk with hk | ⟨sign, _, hk | hk⟩
  · simpa [Spelled, ← hk] using h
  · cases hk
  · cases hk

theorem Spelled.prefixed {op : PrefixOp} (h : l.Spelled) (hk : l.MayBe (.prefixOp op)) :
    l = op.lexeme := by
  rcases hk with hk | ⟨sign, hs, hk | hk⟩
  · simpa [Spelled, ← hk] using h
  · cases hk
    cases sign <;> simpa [Spelled, hs, Sign.prefixOp] using h
  · cases hk

theorem Spelled.binary {op : BinaryOp} (h : l.Spelled) (hk : l.MayBe (.binary op)) :
    l = op.lexeme := by
  rcases hk with hk | ⟨sign, hs, hk | hk⟩
  · simpa [Spelled, ← hk] using h
  · cases hk
  · cases hk
    cases sign <;> simpa [Spelled, hs, Sign.binaryOp, PrefixOp.lexeme, BinaryOp.lexeme] using h

theorem MayBe.after {sign : Sign} (h : l.MayBe (.ambiguous sign)) (previous : Option Kind) :
    l.MayBe ((Kind.ambiguous sign).after previous) := by
  have hl : l.kind = .ambiguous sign := by
    rcases h with h | ⟨_, _, h | h⟩
    · exact h.symm
    · cases h
    · cases h
  simp only [Kind.after]
  split
  · exact .inr ⟨sign, hl, .inl rfl⟩
  · exact h
  · split
    · exact .inr ⟨sign, hl, .inr rfl⟩
    · exact .inr ⟨sign, hl, .inl rfl⟩

theorem spelled_ofDigraph {c d : Char} {kind : Kind} (h : Kind.ofDigraph c d = some kind) :
    Spelled ⟨kind, String.ofList [c, d]⟩ := by
  simp only [Kind.ofDigraph] at h
  split at h <;> cases h <;> rfl

theorem spelled_ofPunctuation {c : Char} {kind : Kind} (h : Kind.ofPunctuation c = some kind) :
    Spelled ⟨kind, String.ofList [c]⟩ := by
  simp only [Kind.ofPunctuation] at h
  split at h <;> cases h <;> rfl

theorem spelled_scan (c : Char) (rest : List Char) :
    Spelled ⟨(scan c rest).1, String.ofList (c :: rest.take (scan c rest).2)⟩ := by
  simp only [scan]
  split
  · next kind hk =>
    rcases rest with _ | ⟨d, rest⟩
    · cases hk
    · exact spelled_ofDigraph hk
  · split
    · next kind hk => exact spelled_ofPunctuation hk
    · split
      · trivial
      · split <;> trivial

theorem spelled_of_mem_cut {text : List Char} {l : Lexeme} (h : l ∈ cut text) : l.Spelled := by
  fun_induction cut text with
  | case1 => cases h
  | case2 c rest kind further hscan ih =>
    rcases List.mem_cons.1 h with rfl | h
    · have hs := spelled_scan c rest
      rwa [hscan] at hs
    · exact ih h

end Lexeme

def Stands (schema : Schema C) (level : Level) (t : Token C) (ls : List Lexeme) : Prop :=
  ∃ e term, t.value = some e ∧ t.kind = .resolved e.shape ∧ e.shape = term.shape schema ∧
    Derives schema level term ls

/-- The tokens stand for the lexemes, values binding as tightly as `level` except just in
front of a closing bracket. -/
inductive Reads (schema : Schema C) (level : Level) : List (Token C) → List Lexeme → Prop
  | nil : Reads schema level [] []
  | mark {t : Token C} {l : Lexeme} {ts : List (Token C)} {ls : List Lexeme} :
      t.value = none → l.Spelled → l.MayBe t.kind → Reads schema level ts ls →
      Reads schema level (t :: ts) (l :: ls)
  | operand {t : Token C} {as ls : List Lexeme} {ts : List (Token C)} :
      Stands schema level t as → Reads schema level ts ls →
      Reads schema level (t :: ts) (as ++ ls)
  | inner {t c : Token C} {as ls : List Lexeme} {ts : List (Token C)} {b : Bracket} :
      Stands schema .disjunction t as → c.kind = .closing b → Reads schema level (c :: ts) ls →
      Reads schema level (t :: c :: ts) (as ++ ls)

section Reading

variable {schema : Schema C} {level : Level} {t : Token C} {xs ys zs : List (Token C)}
  {as bs ls : List Lexeme}

theorem Stands.mono {other : Level} (h : Stands schema level t ls)
    (hr : level.rank ≤ other.rank) : Stands schema other t ls := by
  obtain ⟨e, term, hv, hk, hs, hd⟩ := h
  exact ⟨e, term, hv, hk, hs, hd.mono hr⟩

theorem Stands.rename (name : String) (h : Stands schema level t ls) :
    Stands schema level (t.rename name) ls := by
  obtain ⟨e, term, hv, hk, hs, hd⟩ := h
  exact ⟨e.rename name, term, by simp [Token.rename, hv], hk, hs, hd⟩

namespace Reads

theorem append (hx : Reads schema level xs as) (hy : Reads schema level ys bs) :
    Reads schema level (xs ++ ys) (as ++ bs) := by
  induction hx with
  | nil => exact hy
  | mark hv hs hk _ ih => exact .mark hv hs hk ih
  | operand hs _ ih => simpa only [List.cons_append, List.append_assoc] using Reads.operand hs ih
  | inner hs hc _ ih =>
    rw [List.append_assoc]
    exact Reads.inner hs hc ih

theorem split (h : Reads schema level (xs ++ t :: ys) ls) (ht : ∀ b, t.kind ≠ .closing b) :
    ∃ as bs, ls = as ++ bs ∧ Reads schema level xs as ∧ Reads schema level (t :: ys) bs := by
  induction xs generalizing ls with
  | nil => exact ⟨[], ls, rfl, .nil, h⟩
  | cons x xs ih =>
    generalize hts : (x :: xs) ++ t :: ys = ts at h
    cases h with
    | nil => simp at hts
    | mark hv hs hk hr =>
      obtain ⟨rfl, rfl⟩ := List.cons.inj hts
      obtain ⟨as, bs, rfl, hx, hy⟩ := ih hr
      exact ⟨_, bs, rfl, .mark hv hs hk hx, hy⟩
    | operand hs hr =>
      obtain ⟨rfl, rfl⟩ := List.cons.inj hts
      obtain ⟨as, bs, rfl, hx, hy⟩ := ih hr
      exact ⟨_, bs, (List.append_assoc ..).symm, .operand hs hx, hy⟩
    | inner hs hc hr =>
      obtain ⟨rfl, htail⟩ := List.cons.inj hts
      rw [← htail] at hr
      obtain ⟨as, bs, rfl, hx, hy⟩ := ih hr
      rcases xs with _ | ⟨c, xs⟩
      · obtain ⟨rfl, rfl⟩ := List.cons.inj htail
        exact absurd hc (ht _)
      · obtain ⟨rfl, rfl⟩ := List.cons.inj htail
        exact ⟨_, bs, (List.append_assoc ..).symm, .inner hs hc hx, hy⟩

theorem replace (h : Reads schema level (xs ++ t :: ys) ls) (ht : ∀ b, t.kind ≠ .closing b)
    (hz : ∀ bs, Reads schema level (t :: ys) bs → Reads schema level zs bs) :
    Reads schema level (xs ++ zs) ls := by
  obtain ⟨as, bs, rfl, hx, hy⟩ := h.split ht
  exact hx.append (hz bs hy)

theorem mark_inv (h : Reads schema level (t :: ys) ls) (ht : t.isResolved = false) :
    ∃ l rest, ls = l :: rest ∧ t.value = none ∧ l.Spelled ∧ l.MayBe t.kind ∧
      Reads schema level ys rest := by
  cases h with
  | mark hv hs hk hr => exact ⟨_, _, rfl, hv, hs, hk, hr⟩
  | operand hs _ =>
    obtain ⟨e, term, _, hk, _⟩ := hs
    simp [Token.isResolved, hk, Kind.isResolved] at ht
  | inner hs _ _ =>
    obtain ⟨e, term, _, hk, _⟩ := hs
    simp [Token.isResolved, hk, Kind.isResolved] at ht

theorem value_inv (h : Reads schema level (t :: ys) ls) (ht : t.isResolved = true) :
    ∃ as rest, ls = as ++ rest ∧ Reads schema level ys rest ∧
      (Stands schema level t as ∨
        Stands schema .disjunction t as ∧ ∃ c ∈ ys.head?, ∃ b, c.kind = .closing b) := by
  cases h with
  | mark _ hs hk _ =>
    cases hkind : t.kind with
    | resolved s => exact absurd hkind (hs.not_resolved hk s)
    | _ => simp [Token.isResolved, hkind, Kind.isResolved] at ht
  | operand hs hr => exact ⟨_, _, rfl, hr, .inl hs⟩
  | inner hs hc hr => exact ⟨_, _, rfl, hr, .inr ⟨hs, _, rfl, _, hc⟩⟩

theorem isResolved_of_value {e : Expr C} (h : Reads schema level xs ls) (ht : t ∈ xs)
    (hv : t.value = some e) : t.isResolved = true := by
  have hstands {lvl : Level} {u : Token C} {as : List Lexeme} (hs : Stands schema lvl u as) :
      u.isResolved = true := by
    obtain ⟨_, _, _, hk, _⟩ := hs
    simp [Token.isResolved, hk, Kind.isResolved]
  induction h with
  | nil => cases ht
  | mark hn _ _ _ ih =>
    rcases List.mem_cons.1 ht with rfl | ht
    · simp [hn] at hv
    · exact ih ht
  | operand hs _ ih =>
    rcases List.mem_cons.1 ht with rfl | ht
    · exact hstands hs
    · exact ih ht
  | inner hs _ _ ih =>
    rcases List.mem_cons.1 ht with rfl | ht
    · exact hstands hs
    · exact ih ht

theorem value_of_closing {b : Bracket} (h : Reads schema level xs ls) (ht : t ∈ xs)
    (hk : t.kind = .closing b) : t.value = none := by
  cases hv : t.value with
  | none => rfl
  | some e =>
    have hr := h.isResolved_of_value ht hv
    simp [Token.isResolved, hk, Kind.isResolved] at hr

theorem mono {other : Level} (h : Reads schema level xs ls) (hr : level.rank ≤ other.rank) :
    Reads schema other xs ls := by
  induction h with
  | nil => exact .nil
  | mark hv hs hk _ ih => exact .mark hv hs hk ih
  | operand hs _ ih => exact .operand (hs.mono hr) ih
  | inner hs hc _ ih => exact .inner hs hc ih

end Reads

end Reading

end EventCuts
