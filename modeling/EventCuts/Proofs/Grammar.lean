import EventCuts.Compile

/-!
# The grammar of cuts

The tree that a cut stands for, and the productions that say which lexemes spell which
tree. Binding is by levels, from a leaf or a group in parentheses to a disjunction; a
level repeats to the left, so its chains associate to the left. The productions ask the
schema for shapes, since only a vector can be subscripted, and only by a scalar.
-/

namespace EventCuts

variable {C : Type}

inductive Level where
  | primary | subscripted | signed
  | product | sum | comparison | equality | conjunction | disjunction
deriving DecidableEq, Repr

namespace Level

def rank : Level → Nat
  | primary => 0
  | subscripted => 1
  | signed => 2
  | product => 3
  | sum => 4
  | comparison => 5
  | equality => 6
  | conjunction => 7
  | disjunction => 8

def tighter : Level → Level
  | primary => primary
  | subscripted => primary
  | signed => subscripted
  | product => signed
  | sum => product
  | comparison => sum
  | equality => comparison
  | conjunction => equality
  | disjunction => conjunction

theorem rank_tighter (level : Level) : level.tighter.rank = level.rank - 1 := by
  cases level <;> rfl

theorem rank_injective {a b : Level} (h : a.rank = b.rank) : a = b := by
  cases a <;> cases b <;> first | rfl | simp [rank] at h

theorem rank_le (level : Level) : level.rank ≤ disjunction.rank := by
  cases level <;> decide

end Level

def BinaryOp.level : BinaryOp → Level
  | mul | div | rem => .product
  | add | sub => .sum
  | less | greater | lessEqual | greaterEqual => .comparison
  | equal | notEqual => .equality
  | and => .conjunction
  | or => .disjunction

def Climbs : Level → List (List BinaryOp) → Level → Prop
  | low, [], high => low = high
  | low, ops :: rest, high =>
    ∃ level : Level, level.tighter = low ∧ (∀ op : BinaryOp, op ∈ ops ↔ op.level = level) ∧
      Climbs level rest high

theorem climbs_precedence : Climbs .signed BinaryOp.precedence .disjunction := by
  refine ⟨.product, rfl, ?_, .sum, rfl, ?_, .comparison, rfl, ?_, .equality, rfl, ?_,
    .conjunction, rfl, ?_, .disjunction, rfl, ?_, rfl⟩ <;> intro op <;> cases op <;> decide

def PrefixOp.lexeme : PrefixOp → Lexeme
  | plus => ⟨.ambiguous .plus, "+"⟩
  | minus => ⟨.ambiguous .minus, "-"⟩
  | not => ⟨.prefixOp .not, "!"⟩

def BinaryOp.lexeme : BinaryOp → Lexeme
  | add => ⟨.ambiguous .plus, "+"⟩
  | sub => ⟨.ambiguous .minus, "-"⟩
  | op => ⟨.binary op, op.symbol⟩

def Lexeme.opening : Bracket → Lexeme
  | .round => ⟨.opening .round, "("⟩
  | .square => ⟨.opening .square, "["⟩

def Lexeme.closing : Bracket → Lexeme
  | .round => ⟨.closing .round, ")"⟩
  | .square => ⟨.closing .square, "]"⟩

@[simp] theorem Lexeme.kind_opening (b : Bracket) : (Lexeme.opening b).kind = .opening b := by
  cases b <;> rfl

@[simp] theorem Lexeme.kind_closing (b : Bracket) : (Lexeme.closing b).kind = .closing b := by
  cases b <;> rfl

theorem PrefixOp.kind_ne_opening (op : PrefixOp) (b : Bracket) :
    op.lexeme.kind ≠ .opening b := by
  cases op <;> simp [lexeme]

theorem BinaryOp.kind_ne_opening (op : BinaryOp) (b : Bracket) :
    op.lexeme.kind ≠ .opening b := by
  cases op <;> simp [lexeme]

theorem PrefixOp.text_lexeme (op : PrefixOp) : op.lexeme.text = op.symbol := by
  cases op <;> rfl

theorem BinaryOp.text_lexeme (op : BinaryOp) : op.lexeme.text = op.symbol := by
  cases op <;> rfl

theorem BinaryOp.two_lt_rank (op : BinaryOp) : 2 < op.level.rank := by
  cases op <;> decide

inductive Term where
  | number (text : String)
  | name (text : String)
  | group (inner : Term)
  | entry (vector index : Term)
  | prefixed (op : PrefixOp) (operand : Term)
  | binary (op : BinaryOp) (left right : Term)
deriving DecidableEq, Repr

def Shape.join : Shape → Shape → Shape
  | scalar, scalar => scalar
  | _, _ => vector

theorem Shape.of_join_eq_scalar {a b : Shape} (h : a.join b = .scalar) :
    a = .scalar ∧ b = .scalar := by
  cases a <;> cases b <;> first | exact ⟨rfl, rfl⟩ | cases h

theorem Expr.shape_join (op : BinaryOp) (left right : Expr C) :
    (Expr.binary op left right).shape = left.shape.join right.shape := by
  rw [Expr.shape_binary]
  cases left.shape <;> cases right.shape <;> rfl

namespace Term

def shape (schema : Schema C) : Term → Shape
  | number _ => .scalar
  | name text => ((schema text).map Expr.shape).getD .scalar
  | group inner => inner.shape schema
  | entry _ _ => .scalar
  | prefixed _ operand => operand.shape schema
  | binary _ left right => (left.shape schema).join (right.shape schema)

def level : Term → Level
  | number _ | name _ | group _ => .primary
  | entry _ _ => .subscripted
  | prefixed _ _ => .signed
  | binary op _ _ => op.level

def lexemes : Term → List Lexeme
  | number text => [⟨.number, text⟩]
  | name text => [⟨.identifier, text⟩]
  | group inner => .opening .round :: (inner.lexemes ++ [.closing .round])
  | entry vector index =>
    vector.lexemes ++ .opening .square :: (index.lexemes ++ [.closing .square])
  | prefixed op operand => op.lexeme :: operand.lexemes
  | binary op left right => left.lexemes ++ op.lexeme :: right.lexemes

def text : Term → String
  | number text | name text => text
  | group inner => "(" ++ inner.text ++ ")"
  | entry vector index => vector.text ++ "[" ++ index.text ++ "]"
  | prefixed op operand => op.symbol ++ operand.text
  | binary op left right => left.text ++ op.symbol ++ right.text

theorem join_lexemes (t : Term) : String.join (t.lexemes.map Lexeme.text) = t.text := by
  induction t with
  | number s => simp [lexemes, text]
  | name s => simp [lexemes, text]
  | group inner ih =>
    rw [text, ← ih]
    simp [lexemes, Lexeme.opening, Lexeme.closing, String.append_assoc]
  | entry vector index ihv ihi =>
    rw [text, ← ihv, ← ihi]
    simp [lexemes, Lexeme.opening, Lexeme.closing, String.append_assoc]
  | prefixed op operand ih =>
    rw [text, ← ih]
    simp [lexemes, op.text_lexeme]
  | binary op left right ihl ihr =>
    rw [text, ← ihl, ← ihr]
    simp [lexemes, op.text_lexeme, String.append_assoc]

end Term

/-- The productions. A cut is a disjunction; `loosen` takes every level to the one around it. -/
inductive Derives (schema : Schema C) : Level → Term → List Lexeme → Prop
  | number (text : String) : Derives schema .primary (.number text) [⟨.number, text⟩]
  | name {text : String} {e : Expr C} : schema text = some e →
      Derives schema .primary (.name text) [⟨.identifier, text⟩]
  | group {t : Term} {ls : List Lexeme} : Derives schema .disjunction t ls →
      Derives schema .primary (.group t) (.opening .round :: (ls ++ [.closing .round]))
  | entry {v i : Term} {ls ms : List Lexeme} : Derives schema .primary v ls →
      Derives schema .disjunction i ms → v.shape schema = .vector → i.shape schema = .scalar →
      Derives schema .subscripted (.entry v i)
        (ls ++ .opening .square :: (ms ++ [.closing .square]))
  | prefixed {t : Term} {ls : List Lexeme} (op : PrefixOp) : Derives schema .signed t ls →
      Derives schema .signed (.prefixed op t) (op.lexeme :: ls)
  | binary {level : Level} {l r : Term} {ls ms : List Lexeme} (op : BinaryOp) :
      op.level = level → Derives schema level l ls → Derives schema level.tighter r ms →
      Derives schema level (.binary op l r) (ls ++ op.lexeme :: ms)
  | loosen {t : Term} {ls : List Lexeme} (level : Level) : Derives schema level.tighter t ls →
      Derives schema level t ls

theorem Expr.exists_subscript {v i : Expr C} (hv : v.shape = .vector) (hi : i.shape = .scalar) :
    ∃ e, v.subscript i = some e ∧ e.shape = .scalar := by
  obtain ⟨name, f | f⟩ := v
  · cases hv
  · obtain ⟨other, g | g⟩ := i
    · exact ⟨_, rfl, rfl⟩
    · cases hi

namespace Derives

variable {schema : Schema C} {a b : Level} {t : Term} {ls : List Lexeme}

theorem mono (h : Derives schema a t ls) (hab : a.rank ≤ b.rank) : Derives schema b t ls := by
  induction hn : b.rank generalizing b with
  | zero =>
    have hb : a = b := Level.rank_injective (by omega)
    exact hb ▸ h
  | succ n ih =>
    by_cases he : a.rank = b.rank
    · exact Level.rank_injective he ▸ h
    · have hr := b.rank_tighter
      exact loosen b (ih (by omega) (by omega))

theorem disjunction (h : Derives schema a t ls) : Derives schema .disjunction t ls :=
  h.mono a.rank_le

theorem lexemes_eq (h : Derives schema a t ls) : ls = t.lexemes := by
  induction h with
  | number text => rfl
  | name hs => rfl
  | group _ ih => simp only [Term.lexemes, ih]
  | entry _ _ _ _ ihv ihi => simp only [Term.lexemes, ihv, ihi]
  | prefixed op _ ih => simp only [Term.lexemes, ih]
  | binary op _ _ _ ihl ihr => simp only [Term.lexemes, ihl, ihr]
  | loosen level _ ih => exact ih

theorem rank_le (h : Derives schema a t ls) : t.level.rank ≤ a.rank := by
  induction h with
  | number text => exact Nat.le_refl _
  | name hs => exact Nat.le_refl _
  | group _ _ => exact Nat.le_refl _
  | entry _ _ _ _ _ _ => exact Nat.le_refl _
  | prefixed op _ _ => exact Nat.le_refl _
  | binary op hop _ _ _ _ => exact Nat.le_of_eq (congrArg Level.rank hop)
  | loosen level _ ih =>
    have hr := level.rank_tighter
    omega

theorem primary_of_vector (h : Derives schema .subscripted t ls)
    (hv : t.shape schema = .vector) : Derives schema .primary t ls := by
  cases h with
  | entry _ _ _ _ => simp [Term.shape] at hv
  | loosen _ h => exact h
  | binary op hop _ _ => cases op <;> simp [BinaryOp.level] at hop

end Derives

end EventCuts
