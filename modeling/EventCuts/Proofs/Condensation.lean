import EventCuts.Proofs.Grammar
import EventCuts.Proofs.Outcome

/-!
# Condensing a derivable cut

The expression that a term is built up to, and its tokens after each stage of the
compilation: the terms up to a level have become one value. Each reduction takes the list of
one level to that of the next, so that the tokens of a cut whose groups are compiled end as
one value.
-/

namespace EventCuts

variable {C : Type}

def Term.expr (schema : Schema C) : Term → Expr C
  | number text => Expr.scalar text fun _ => .ok ((readNumber text).getD Exact.undefined)
  | name text =>
    match schema text with
    | some e => e.rename text
    | none => Expr.scalar text fun _ => .error (.missingColumn text)
  | group inner => (inner.expr schema).rename ("(" ++ inner.text ++ ")")
  | entry vector index =>
    match (vector.expr schema).subscript ((index.expr schema).rename index.text) with
    | some e => e.rename (vector.text ++ "[" ++ index.text ++ "]")
    | none => vector.expr schema
  | prefixed op operand => (operand.expr schema).unary op
  | binary op left right => Expr.binary op (left.expr schema) (right.expr schema)

def PrefixOp.token (C : Type) (settled : Bool) (op : PrefixOp) : Token C :=
  if settled then ⟨.prefixOp op, op.lexeme.text, none⟩ else Token.ofLexeme op.lexeme

def BinaryOp.token (C : Type) (settled : Bool) (op : BinaryOp) : Token C :=
  if settled then ⟨.binary op, op.lexeme.text, none⟩ else Token.ofLexeme op.lexeme

namespace Term

def leaves (schema : Schema C) : Term → List (Token C)
  | number text => [Token.resolved ((number text).expr schema)]
  | name text => [Token.resolved ((name text).expr schema)]
  | group inner =>
    Token.ofLexeme (.opening .round) ::
      (inner.leaves schema ++ [Token.ofLexeme (.closing .round)])
  | entry vector index =>
    vector.leaves schema ++ Token.ofLexeme (.opening .square) ::
      (index.leaves schema ++ [Token.ofLexeme (.closing .square)])
  | prefixed op operand => Token.ofLexeme op.lexeme :: operand.leaves schema
  | binary op left right =>
    left.leaves schema ++ Token.ofLexeme op.lexeme :: right.leaves schema

/-- The tokens once the groups are compiled and the terms of a rank below `n` are condensed. -/
def tokens (schema : Schema C) (settled : Bool) (n : Nat) : Term → List (Token C)
  | number text => [Token.resolved ((number text).expr schema)]
  | name text => [Token.resolved ((name text).expr schema)]
  | group inner =>
    if Level.primary.rank < n then [Token.resolved ((group inner).expr schema)]
    else [Token.ofLexeme (.opening .round), Token.resolved ((inner.expr schema).rename inner.text),
      Token.ofLexeme (.closing .round)]
  | entry vector index =>
    if Level.subscripted.rank < n then [Token.resolved ((entry vector index).expr schema)]
    else vector.tokens schema settled n ++ [Token.ofLexeme (.opening .square),
      Token.resolved ((index.expr schema).rename index.text), Token.ofLexeme (.closing .square)]
  | prefixed op operand =>
    if Level.signed.rank < n then [Token.resolved ((prefixed op operand).expr schema)]
    else op.token C settled :: operand.tokens schema settled n
  | binary op left right =>
    if op.level.rank < n then [Token.resolved ((binary op left right).expr schema)]
    else left.tokens schema settled n ++ op.token C settled :: right.tokens schema settled n

theorem tokens_of_rank {t : Term} {n : Nat} (h : t.level.rank < n) (schema : Schema C)
    (settled : Bool) : t.tokens schema settled n = [Token.resolved (t.expr schema)] := by
  cases t with
  | number text => rfl
  | name text => rfl
  | group inner => exact if_pos h
  | entry vector index => exact if_pos h
  | prefixed op operand => exact if_pos h
  | binary op left right => exact if_pos h

theorem name_expr {t : Term} (h : t.level = .primary) (schema : Schema C) :
    (t.expr schema).name = t.text := by
  cases t with
  | number text => rfl
  | name s => cases hs : schema s <;> simp [expr, text, hs, Expr.rename, Expr.scalar]
  | group inner => rfl
  | entry vector index => cases h
  | prefixed op operand => cases h
  | binary op left right => cases op <;> cases h

end Term

variable {schema : Schema C}

theorem Derives.shape_expr {level : Level} {t : Term} {ls : List Lexeme}
    (h : Derives schema level t ls) : (t.expr schema).shape = t.shape schema := by
  induction h with
  | number text => rfl
  | name he => simp [Term.expr, Term.shape, he]; rfl
  | group _ ih => exact ih
  | @entry v i _ _ _ _ hv hi ihv ihi =>
    obtain ⟨e, he, hs⟩ := Expr.exists_subscript (i := (i.expr schema).rename i.text)
      (ihv.trans hv) (ihi.trans hi)
    simp only [Term.expr, he]
    exact hs
  | prefixed op _ ih => exact (Expr.shape_unary op _).trans ih
  | binary op _ _ _ ihl ihr =>
    rw [Term.expr, Expr.shape_join, ihl, ihr, Term.shape]
  | loosen level _ ih => exact ih

theorem PrefixOp.token_kind_ne_closing (settled : Bool) (op : PrefixOp) (b : Bracket) :
    (op.token C settled).kind ≠ .closing b := by
  cases settled <;> cases op <;> simp [PrefixOp.token, Token.ofLexeme, PrefixOp.lexeme]

theorem BinaryOp.token_kind_ne_closing (settled : Bool) (op : BinaryOp) (b : Bracket) :
    (op.token C settled).kind ≠ .closing b := by
  cases settled <;> cases op <;> simp [BinaryOp.token, Token.ofLexeme, BinaryOp.lexeme]

namespace Reduction

def Turns (push : List (Token C) → Token C → List (Token C)) (P : List (Token C) → Prop)
    (xs ys : List (Token C)) : Prop :=
  ∀ stack, P stack → xs.foldl push stack = ys.reverse ++ stack

section Turns

variable {push : List (Token C) → Token C → List (Token C)} {P Q : List (Token C) → Prop}
  {xs ys us vs : List (Token C)}

theorem Turns.sweep_eq (h : Turns push P xs ys) (hP : P []) : sweep push xs = ys := by
  rw [sweep, h [] hP, List.append_nil, List.reverse_reverse]

theorem Turns.append (hx : Turns push P xs ys) (hu : Turns push Q us vs)
    (hQ : ∀ stack, P stack → Q (ys.reverse ++ stack)) :
    Turns push P (xs ++ us) (ys ++ vs) := by
  intro stack hP
  rw [List.foldl_append, hx stack hP, hu _ (hQ stack hP), List.reverse_append, List.append_assoc]

theorem Turns.cons {t u : Token C} (ht : ∀ stack, P stack → push stack t = u :: stack)
    (hu : Turns push Q us vs) (hQ : ∀ stack, P stack → Q (u :: stack)) :
    Turns push P (t :: us) (u :: vs) := by
  intro stack hP
  rw [List.foldl_cons, ht stack hP, hu _ (hQ stack hP), List.reverse_cons, List.append_assoc,
    List.singleton_append]

theorem Turns.single {t : Token C} (ht : ∀ stack, P stack → push stack t = t :: stack) :
    Turns push P [t] [t] :=
  fun stack hP => ht stack hP

end Turns

theorem pushParenthesis_of_ne {t : Token C} (h : t.kind ≠ .closing .round)
    (stack : List (Token C)) : pushParenthesis stack t = t :: stack := by
  simp only [pushParenthesis, h, false_and, if_false]
  split <;> rfl

theorem pushSubscript_of_ne {t : Token C} (h : t.kind ≠ .closing .square)
    (stack : List (Token C)) : pushSubscript stack t = t :: stack := by
  simp only [pushSubscript, h, false_and, if_false]
  split <;> rfl

theorem turns_parentheses (t : Term) :
    Turns pushParenthesis (fun _ => True) (t.tokens schema false 0) (t.tokens schema false 1) := by
  have hpush : ∀ u : Token C, u.kind ≠ .closing .round → ∀ stack, True →
      pushParenthesis stack u = u :: stack := fun u hu stack _ => pushParenthesis_of_ne hu stack
  induction t with
  | number text => exact .single (hpush _ (by simp [Token.resolved]))
  | name text => exact .single (hpush _ (by simp [Token.resolved]))
  | group inner _ =>
    intro stack _
    have hopen := hpush (Token.ofLexeme (.opening .round)) (by simp [Token.ofLexeme]) stack trivial
    have hvalue := hpush (Token.resolved ((inner.expr schema).rename inner.text))
      (by simp [Token.resolved]) (Token.ofLexeme (.opening .round) :: stack) trivial
    simp only [Term.tokens, Level.rank, Nat.lt_irrefl, if_false, Nat.zero_lt_one, if_true,
      List.foldl_cons, List.foldl_nil, hopen, hvalue]
    rfl
  | entry vector index ih _ =>
    have hopen := hpush (Token.ofLexeme (.opening .square)) (by simp [Token.ofLexeme])
    have hvalue := hpush (Token.resolved ((index.expr schema).rename index.text))
      (by simp [Token.resolved])
    have hclose := hpush (Token.ofLexeme (.closing .square)) (by simp [Token.ofLexeme])
    exact ih.append (.cons hopen (.cons hvalue (.single hclose) fun _ _ => trivial)
      fun _ _ => trivial) fun _ _ => trivial
  | prefixed op operand ih =>
    exact .cons (hpush _ (op.token_kind_ne_closing false .round)) ih fun _ _ => trivial
  | binary op left right ihl ihr =>
    have hr := op.two_lt_rank
    have hop := hpush _ (op.token_kind_ne_closing false .round)
    rw [Term.tokens, Term.tokens, if_neg (by omega), if_neg (by omega)]
    exact ihl.append (.cons hop ihr fun _ _ => trivial) fun _ _ => trivial

section Entry

variable {v i : Term} {ls ms : List Lexeme} (hdv : Derives schema .primary v ls)
  (hdi : Derives schema .disjunction i ms) (hv : v.shape schema = .vector)
  (hi : i.shape schema = .scalar)

include hdv hdi hv hi

theorem subscripted_entry :
    subscripted (Token.resolved (v.expr schema)) (Token.ofLexeme (.opening .square))
      (Token.resolved ((i.expr schema).rename i.text)) (Token.ofLexeme (.closing .square)) =
        some ((Term.entry v i).expr schema) := by
  obtain ⟨e, he, _⟩ := Expr.exists_subscript (i := (i.expr schema).rename i.text)
    (hdv.shape_expr.trans hv) (hdi.shape_expr.trans hi)
  have hname : (v.expr schema).name = v.text :=
    Term.name_expr (Level.rank_injective (Nat.le_zero.1 hdv.rank_le)) schema
  have htext : Token.sourceText [Token.resolved (v.expr schema),
      Token.ofLexeme (.opening .square), Token.resolved ((i.expr schema).rename i.text),
      Token.ofLexeme (.closing .square)] = v.text ++ "[" ++ i.text ++ "]" := by
    simp [Token.sourceText, Token.resolved, Token.ofLexeme, hname, Lexeme.opening, Lexeme.closing,
      Expr.rename, String.append_assoc]
  rw [subscripted, htext]
  simp [Token.resolved, Term.expr, he]

theorem pushSubscript_entry (stack : List (Token C)) :
    pushSubscript (Token.resolved ((i.expr schema).rename i.text) ::
      Token.ofLexeme (.opening .square) :: Token.resolved (v.expr schema) :: stack)
        (Token.ofLexeme (.closing .square)) =
      Token.resolved ((Term.entry v i).expr schema) :: stack := by
  have hmatch : (Token.ofLexeme (.closing .square) : Token C).kind = .closing .square ∧
      (Token.resolved (v.expr schema)).kind = .resolved .vector ∧
      (Token.ofLexeme (.opening .square) : Token C).kind = .opening .square ∧
      (Token.resolved ((i.expr schema).rename i.text)).kind = .resolved .scalar := by
    refine ⟨rfl, ?_, rfl, ?_⟩
    · exact congrArg Kind.resolved (hdv.shape_expr.trans hv)
    · exact congrArg Kind.resolved (hdi.shape_expr.trans hi)
  simp only [pushSubscript, if_pos hmatch, subscripted_entry hdv hdi hv hi]

end Entry

theorem turns_subscripts {level : Level} {t : Term} {ls : List Lexeme}
    (h : Derives schema level t ls) :
    Turns pushSubscript (fun _ => True) (t.tokens schema false 1) (t.tokens schema false 2) := by
  have hpush : ∀ u : Token C, u.kind ≠ .closing .square → ∀ stack, True →
      pushSubscript stack u = u :: stack := fun u hu stack _ => pushSubscript_of_ne hu stack
  induction h with
  | number text => exact .single (hpush _ (by simp [Token.resolved]))
  | name he => exact .single (hpush _ (by simp [Token.resolved]))
  | group _ _ => exact .single (hpush _ (by simp [Token.resolved]))
  | @entry v i _ _ hdv hdi hv hi _ _ =>
    intro stack _
    have hrank : v.level.rank < 1 := Nat.lt_succ_of_le hdv.rank_le
    have hvalue := hpush (Token.resolved (v.expr schema)) (by simp [Token.resolved]) stack trivial
    have hopen := hpush (Token.ofLexeme (.opening .square)) (by simp [Token.ofLexeme])
      (Token.resolved (v.expr schema) :: stack) trivial
    have hindex := hpush (Token.resolved ((i.expr schema).rename i.text)) (by simp [Token.resolved])
      (Token.ofLexeme (.opening .square) :: Token.resolved (v.expr schema) :: stack) trivial
    rw [Term.tokens, if_neg (by decide), Term.tokens_of_rank hrank, List.singleton_append]
    simp only [List.foldl_cons, List.foldl_nil, hvalue, hopen, hindex,
      pushSubscript_entry hdv hdi hv hi]
    rfl
  | prefixed op _ ih =>
    exact .cons (hpush _ (op.token_kind_ne_closing false .square)) ih fun _ _ => trivial
  | binary op _ _ _ ihl ihr =>
    have hr := op.two_lt_rank
    have hop := hpush _ (op.token_kind_ne_closing false .square)
    rw [Term.tokens, Term.tokens, if_neg (by omega), if_neg (by omega)]
    exact ihl.append (.cons hop ihr fun _ _ => trivial) fun _ _ => trivial
  | loosen level _ ih => exact ih

def BeforeOperand (stack : List (Token C)) : Prop :=
  ∀ top ∈ stack.head?, top.kind.endsOperand = false ∧ top.kind ≠ .unknown

theorem BeforeOperand.nil : BeforeOperand ([] : List (Token C)) :=
  fun top h => absurd h (Option.not_mem_none top)

theorem pushSign_prefixOp {stack : List (Token C)} (h : BeforeOperand stack) (op : PrefixOp) :
    pushSign stack (op.token C false) = op.token C true :: stack := by
  have hafter : ∀ sign : Sign, (Kind.ambiguous sign).after (stack.head?.map Token.kind) =
      .prefixOp sign.prefixOp := by
    intro sign
    cases stack with
    | nil => rfl
    | cons top below =>
      obtain ⟨hends, hknown⟩ := h top rfl
      cases hk : top.kind <;> simp_all [Kind.after, Kind.endsOperand]
  cases op with
  | plus => exact congrArg (fun kind => (⟨kind, "+", none⟩ : Token C) :: stack) (hafter .plus)
  | minus => exact congrArg (fun kind => (⟨kind, "-", none⟩ : Token C) :: stack) (hafter .minus)
  | not => rfl

theorem pushSign_binary {top : Token C} (h : top.kind.endsOperand = true) (below : List (Token C))
    (op : BinaryOp) :
    pushSign (top :: below) (op.token C false) = op.token C true :: top :: below := by
  have hafter : ∀ sign : Sign, (Kind.ambiguous sign).after (some top.kind) =
      .binary sign.binaryOp := by
    intro sign
    cases hk : top.kind <;> simp_all [Kind.after, Kind.endsOperand]
  cases op with
  | add => exact congrArg (fun k => (⟨k, "+", none⟩ : Token C) :: top :: below) (hafter .plus)
  | sub => exact congrArg (fun k => (⟨k, "-", none⟩ : Token C) :: top :: below) (hafter .minus)
  | _ => rfl

theorem tokens_reverse (schema : Schema C) (settled : Bool) (t : Term) :
    ∃ e below, (t.tokens schema settled 2).reverse = Token.resolved e :: below := by
  induction t with
  | number text => exact ⟨_, _, rfl⟩
  | name text => exact ⟨_, _, rfl⟩
  | group inner _ => exact ⟨_, _, rfl⟩
  | entry vector index _ _ => exact ⟨_, _, rfl⟩
  | prefixed op operand ih =>
    obtain ⟨e, below, h⟩ := ih
    refine ⟨e, below ++ [op.token C settled], ?_⟩
    rw [Term.tokens, if_neg (by decide), List.reverse_cons, h, List.cons_append]
  | binary op left right _ ih =>
    obtain ⟨e, below, h⟩ := ih
    have hr := op.two_lt_rank
    refine ⟨e, below ++ op.token C settled :: (left.tokens schema settled 2).reverse, ?_⟩
    rw [Term.tokens, if_neg (by omega), List.reverse_append, List.reverse_cons, h]
    simp

theorem turns_signs (t : Term) :
    Turns pushSign BeforeOperand (t.tokens schema false 2) (t.tokens schema true 2) := by
  induction t with
  | number text => exact .single fun _ _ => rfl
  | name text => exact .single fun _ _ => rfl
  | group inner _ => exact .single fun _ _ => rfl
  | entry vector index _ _ => exact .single fun _ _ => rfl
  | prefixed op operand ih =>
    refine .cons (fun _ h => pushSign_prefixOp h op) ih ?_
    intro stack _ top htop
    cases htop
    exact ⟨rfl, nofun⟩
  | binary op left right ihl ihr =>
    have hr := op.two_lt_rank
    rw [Term.tokens, Term.tokens, if_neg (by omega), if_neg (by omega)]
    have hop : Turns pushSign (fun stack => ∃ top below, stack = top :: below ∧
        top.kind.endsOperand = true) (op.token C false :: right.tokens schema false 2)
        (op.token C true :: right.tokens schema true 2) := by
      refine .cons ?_ ihr ?_
      · intro stack ⟨top, below, hs, htop⟩
        exact hs ▸ pushSign_binary htop below op
      · intro stack _ top htop
        cases htop
        exact ⟨rfl, nofun⟩
    refine ihl.append hop ?_
    intro stack _
    obtain ⟨e, below, he⟩ := tokens_reverse schema true left
    exact ⟨Token.resolved e, below ++ stack, by rw [he, List.cons_append], rfl⟩

theorem pushPrefixed_resolved (stack : List (Token C)) (e : Expr C) :
    pushPrefixed stack (Token.resolved e) = applyPrefixes stack e := by
  cases stack with
  | nil => rfl
  | cons top below => cases hk : top.kind <;> simp [pushPrefixed, applyPrefixes, Token.resolved, hk]

theorem pushPrefixed_of_none {t : Token C} (h : t.value = none) (stack : List (Token C)) :
    pushPrefixed stack t = t :: stack := by
  simp only [pushPrefixed, h]

theorem foldl_pushPrefixed {level : Level} {t : Term} {ls : List Lexeme}
    (h : Derives schema level t ls) (hlevel : level.rank ≤ Level.signed.rank)
    (stack : List (Token C)) :
    (t.tokens schema true 2).foldl pushPrefixed stack = applyPrefixes stack (t.expr schema) := by
  induction h generalizing stack with
  | number text => exact pushPrefixed_resolved stack _
  | name he => exact pushPrefixed_resolved stack _
  | group _ _ => exact pushPrefixed_resolved stack _
  | entry _ _ _ _ _ _ => exact pushPrefixed_resolved stack _
  | prefixed op _ ih =>
    rw [Term.tokens, if_neg (by decide), List.foldl_cons, pushPrefixed_of_none rfl,
      ih hlevel]
    rfl
  | binary op hop _ _ _ _ =>
    have hr := op.two_lt_rank
    rw [hop] at hr
    exact absurd hlevel (Nat.not_le.2 hr)
  | loosen level _ ih =>
    have hr := level.rank_tighter
    exact ih (by omega) stack

def NoPrefix (stack : List (Token C)) : Prop :=
  ∀ top ∈ stack.head?, top.kind.isPrefix = false

theorem NoPrefix.nil : NoPrefix ([] : List (Token C)) :=
  fun top h => absurd h (Option.not_mem_none top)

theorem applyPrefixes_of_noPrefix {stack : List (Token C)} (h : NoPrefix stack) (e : Expr C) :
    applyPrefixes stack e = Token.resolved e :: stack := by
  cases stack with
  | nil => rfl
  | cons top below =>
    have htop := h top rfl
    cases hk : top.kind <;> simp_all [applyPrefixes, Kind.isPrefix]

theorem turns_prefixes {level : Level} {t : Term} {ls : List Lexeme}
    (h : Derives schema level t ls) :
    Turns pushPrefixed NoPrefix (t.tokens schema true 2) (t.tokens schema true 3) := by
  have hsigned : ∀ {level : Level} {t : Term} {ls : List Lexeme}, Derives schema level t ls →
      level.rank ≤ Level.signed.rank →
      Turns pushPrefixed NoPrefix (t.tokens schema true 2) (t.tokens schema true 3) := by
    intro level t ls h hlevel stack hstack
    have hrank : t.level.rank < 3 := Nat.lt_succ_of_le (Nat.le_trans h.rank_le hlevel)
    rw [foldl_pushPrefixed h hlevel, applyPrefixes_of_noPrefix hstack, Term.tokens_of_rank hrank]
    rfl
  induction h with
  | number text => exact hsigned (.number text) (by decide)
  | name he => exact hsigned (.name he) (by decide)
  | group hd _ => exact hsigned (.group hd) (by decide)
  | entry hdv hdi hv hi _ _ => exact hsigned (.entry hdv hdi hv hi) (by decide)
  | prefixed op hd _ => exact hsigned (.prefixed op hd) (by decide)
  | @binary _ l r _ _ op _ _ _ ihl ihr =>
    have hr := op.two_lt_rank
    rw [Term.tokens, Term.tokens, if_neg (by omega), if_neg (by omega)]
    have hop : Turns pushPrefixed (fun _ => True) (op.token C true :: r.tokens schema true 2)
        (op.token C true :: r.tokens schema true 3) := by
      refine .cons (fun stack _ => pushPrefixed_of_none rfl stack) ihr ?_
      intro stack _ top htop
      cases htop
      rfl
    exact ihl.append hop fun _ _ => trivial
  | loosen level _ ih => exact ih

def NoOperator (ops : List BinaryOp) (stack : List (Token C)) : Prop :=
  ∀ top ∈ stack.head?, ∀ op ∈ ops, top.kind ≠ .binary op

theorem NoOperator.nil (ops : List BinaryOp) : NoOperator ops ([] : List (Token C)) :=
  fun top h => absurd h (Option.not_mem_none top)

theorem pushOperand_of_none {t : Token C} (h : t.value = none) (ops : List BinaryOp)
    (stack : List (Token C)) : pushOperand ops stack t = t :: stack := by
  simp only [pushOperand, h]

theorem pushOperand_of_noOperator {ops : List BinaryOp} {stack : List (Token C)}
    (h : NoOperator ops stack) (t : Token C) : pushOperand ops stack t = t :: stack := by
  unfold pushOperand
  split
  · next right operator left below _ =>
    split
    · next op l hop _ => exact if_neg fun hmem => h operator rfl op hmem hop
    · rfl
  · rfl

theorem pushOperand_of_mem {op : BinaryOp} {ops : List BinaryOp} (h : op ∈ ops)
    (left right : Expr C)
    (stack : List (Token C)) :
    pushOperand ops (op.token C true :: Token.resolved left :: stack) (Token.resolved right) =
      Token.resolved (left.binary op right) :: stack := by
  exact if_pos h

theorem turns_operators {pass : Level} {ops : List BinaryOp}
    (hops : ∀ op : BinaryOp, op ∈ ops ↔ op.level = pass) {level : Level} {t : Term}
    {ls : List Lexeme} (h : Derives schema level t ls) (htwo : 2 < pass.rank) :
    Turns (pushOperand ops) (NoOperator ops) (t.tokens schema true pass.rank)
      (t.tokens schema true (pass.rank + 1)) := by
  have hpush : ∀ u : Token C, ∀ stack, NoOperator ops stack →
      pushOperand ops stack u = u :: stack := fun u stack hs => pushOperand_of_noOperator hs u
  have hcondensed : ∀ t : Term, t.level.rank < pass.rank →
      Turns (pushOperand ops) (NoOperator ops) (t.tokens schema true pass.rank)
        (t.tokens schema true (pass.rank + 1)) := by
    intro t ht
    rw [Term.tokens_of_rank ht, Term.tokens_of_rank (Nat.lt_succ_of_lt ht)]
    exact .single (hpush _)
  induction h with
  | number text => exact .single (hpush _)
  | name he => exact .single (hpush _)
  | group _ _ => exact hcondensed _ (Nat.lt_trans Nat.zero_lt_two htwo)
  | entry _ _ _ _ _ _ => exact hcondensed _ (Nat.lt_trans Nat.one_lt_two htwo)
  | prefixed op _ _ => exact hcondensed _ htwo
  | @binary level l r _ _ op hop hdl hdr ihl ihr =>
    rcases Nat.lt_trichotomy op.level.rank pass.rank with hlt | heq | hgt
    · exact hcondensed _ hlt
    · have hat : op.level = pass := Level.rank_injective heq
      have hlevel : level.rank = pass.rank := (congrArg Level.rank hop).symm.trans heq
      have hrl : l.level.rank < pass.rank + 1 := by
        have hle := hdl.rank_le
        omega
      have hrr : r.level.rank < pass.rank := by
        have hle := hdr.rank_le
        have ht := level.rank_tighter
        omega
      intro stack hstack
      rw [Term.tokens, if_neg (by omega), List.foldl_append, ihl stack hstack,
        Term.tokens_of_rank hrl, Term.tokens_of_rank hrr,
        Term.tokens_of_rank (t := .binary op l r) (Nat.lt_succ_of_le (Nat.le_of_eq heq))]
      exact pushOperand_of_mem ((hops op).2 hat) _ _ stack
    · rw [Term.tokens, Term.tokens, if_neg (by omega), if_neg (by omega)]
      have hright : Turns (pushOperand ops) (fun _ => True)
          (op.token C true :: r.tokens schema true pass.rank)
          (op.token C true :: r.tokens schema true (pass.rank + 1)) := by
        refine .cons (fun stack _ => pushOperand_of_none rfl ops stack) ihr ?_
        intro stack _ top htop other hother hk
        cases htop
        cases hk
        rw [(hops op).1 hother] at hgt
        exact Nat.lt_irrefl _ hgt
      exact ihl.append hright fun _ _ => trivial
  | loosen level _ ih => exact ih

theorem applyAll_operators {low high : Level} {lists : List (List BinaryOp)}
    (hclimbs : Climbs low lists high) (htwo : 2 ≤ low.rank) {level : Level} {t : Term}
    {ls : List Lexeme} (h : Derives schema level t ls) :
    applyAll (lists.map operators) (t.tokens schema true (low.rank + 1)) =
      t.tokens schema true (high.rank + 1) := by
  induction lists generalizing low with
  | nil =>
    cases hclimbs
    rfl
  | cons ops rest ih =>
    obtain ⟨next, htighter, hops, hrest⟩ := hclimbs
    have hr := next.rank_tighter
    rw [htighter] at hr
    have hnext : low.rank + 1 = next.rank := by omega
    rw [List.map_cons, applyAll, List.foldl_cons, hnext, apply,
      (turns_operators hops h (by omega)).sweep_eq (.nil ops)]
    exact ih hrest (by omega)

theorem applyAll_tokens {t : Term} {ls : List Lexeme} (h : Derives schema .disjunction t ls) :
    applyAll pipeline (t.tokens schema false 0) = [Token.resolved (t.expr schema)] := by
  rw [applyAll_pipeline, (turns_parentheses t).sweep_eq trivial,
    (turns_subscripts h).sweep_eq trivial, (turns_signs t).sweep_eq .nil,
    (turns_prefixes h).sweep_eq .nil]
  refine (applyAll_operators climbs_precedence (Nat.le_refl _) h).trans ?_
  exact Term.tokens_of_rank (Nat.lt_succ_of_le h.rank_le) schema true

end Reduction

end EventCuts
