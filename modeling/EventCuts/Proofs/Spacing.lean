import EventCuts.Expr.Name
import EventCuts.Proofs.Pieces

/-!
# Spaces around binary operators

The pretty name of what compiles sets apart the operators that the derivation joins two operands
with, and nothing else. It finds the role of a sign by looking at the lexeme in front, while the
compiler looks at the token in front in the group of the sign, where whole operands have become
one token: both find an end of an operand there, or neither.
-/

namespace EventCuts

variable {C : Type} {schema : Schema C}

def Kind.Starts (previous : Option Kind) : Prop :=
  ∀ k ∈ previous, k.endsOperand = false ∧ k ≠ .unknown

namespace Kind

theorem starts_none : Starts none :=
  fun k h => absurd h (Option.not_mem_none k)

theorem starts_some {kind : Kind} (hends : kind.endsOperand = false) (hknown : kind ≠ .unknown) :
    Starts (some kind) := by
  intro k hk
  rw [Option.mem_some_iff] at hk
  exact hk ▸ ⟨hends, hknown⟩

theorem after_of_starts {previous : Option Kind} (h : Starts previous) (sign : Sign) :
    (ambiguous sign).after previous = .prefixOp sign.prefixOp := by
  cases previous with
  | none => rfl
  | some before =>
    rcases h before rfl with ⟨hends, hknown⟩
    cases before <;> simp_all [after]

theorem after_of_ends {before : Kind} (h : before.endsOperand = true) (sign : Sign) :
    (ambiguous sign).after (some before) = .binary sign.binaryOp := by
  cases before <;> simp_all [after, endsOperand]

theorem after_after (kind before : Kind) (previous : Option Kind) :
    kind.after (some (before.after previous)) = kind.after (some before) := by
  cases kind with
  | ambiguous sign =>
    cases before with
    | ambiguous other =>
      have hundecided : (ambiguous sign).after (some (.ambiguous other)) =
          .prefixOp sign.prefixOp := rfl
      rcases previous with _ | before
      · rfl
      · rw [hundecided]
        cases before <;> rfl
    | _ => rfl
  | _ => rfl

end Kind

namespace Lexeme

/-- Each lexeme with the binary operator that it is, judged by the lexeme in front of it. -/
def rolesFrom (previous : Option Kind) : List Lexeme → List (Lexeme × Option BinaryOp)
  | [] => []
  | l :: rest => (l, (l.kind.after previous).binaryOp?) :: rolesFrom (some l.kind) rest

def spaced : Lexeme × Option BinaryOp → String
  | (_, some .and) => " and "
  | (_, some .or) => " or "
  | (l, some _) => " " ++ l.text ++ " "
  | (l, none) => l.text

theorem rolesFrom_after (kind : Kind) (previous : Option Kind) (ls : List Lexeme) :
    rolesFrom (some (kind.after previous)) ls = rolesFrom (some kind) ls := by
  cases ls with
  | nil => rfl
  | cons l rest => rw [rolesFrom, rolesFrom, Kind.after_after]

theorem prettyText_eq (kind : Kind) (l : Lexeme) :
    Name.prettyText kind l.text = spaced (l, kind.binaryOp?) := by
  cases kind with
  | binary op => cases op <;> rfl
  | _ => rfl

theorem prettyFrom_eq (previous : Option Kind) (ls : List Lexeme) :
    Name.prettyFrom previous ls = String.join ((rolesFrom previous ls).map spaced) := by
  induction ls generalizing previous with
  | nil => rfl
  | cons l rest ih =>
    have hnext := ih (some (l.kind.after previous))
    rw [rolesFrom_after] at hnext
    simp only [Name.prettyFrom, rolesFrom, hnext, prettyText_eq, List.map_cons, String.join_cons]

theorem map_fst_rolesFrom (previous : Option Kind) (ls : List Lexeme) :
    (rolesFrom previous ls).map Prod.fst = ls := by
  induction ls generalizing previous with
  | nil => rfl
  | cons l rest ih => exact congrArg (l :: ·) (ih (some l.kind))

def lastKind (previous : Option Kind) (ls : List Lexeme) : Option Kind :=
  (ls.getLast?.map Lexeme.kind).or previous

theorem lastKind_none (ls : List Lexeme) : lastKind none ls = ls.getLast?.map Lexeme.kind :=
  Option.or_none

theorem lastKind_cons (previous : Option Kind) (l : Lexeme) (ls : List Lexeme) :
    lastKind previous (l :: ls) = lastKind (some l.kind) ls := by
  rw [lastKind, lastKind, List.getLast?_cons]
  cases ls.getLast? <;> rfl

theorem lastKind_append (previous : Option Kind) (ls ms : List Lexeme) :
    lastKind previous (ls ++ ms) = lastKind (lastKind previous ls) ms := by
  induction ls generalizing previous with
  | nil => rfl
  | cons l ls ih => rw [List.cons_append, lastKind_cons, lastKind_cons, ih]

theorem rolesFrom_append (previous : Option Kind) (ls ms : List Lexeme) :
    rolesFrom previous (ls ++ ms) =
      rolesFrom previous ls ++ rolesFrom (lastKind previous ls) ms := by
  induction ls generalizing previous with
  | nil => rfl
  | cons l ls ih => rw [List.cons_append, rolesFrom, rolesFrom, ih, lastKind_cons, List.cons_append]

theorem rolesFrom_getElem? (front back : List Lexeme) (l : Lexeme) :
    (rolesFrom none (front ++ l :: back))[front.length]? =
      some (l, (l.kind.after (front.getLast?.map Lexeme.kind)).binaryOp?) := by
  have hlength : (rolesFrom none front).length = front.length := by
    rw [← List.length_map Prod.fst, map_fst_rolesFrom]
  rw [rolesFrom_append, rolesFrom, lastKind_none,
    List.getElem?_append_right (Nat.le_of_eq hlength), hlength, Nat.sub_self]
  rfl

end Lexeme

/-- Each lexeme of a term with the binary operator that it joins two terms as. -/
def Term.roles : Term → List (Lexeme × Option BinaryOp)
  | number text => [(⟨.number, text⟩, none)]
  | name text => [(⟨.identifier, text⟩, none)]
  | group inner => (.opening .round, none) :: (inner.roles ++ [(.closing .round, none)])
  | entry vector index =>
    vector.roles ++ (.opening .square, none) :: (index.roles ++ [(.closing .square, none)])
  | prefixed op operand => (op.lexeme, none) :: operand.roles
  | binary op left right => left.roles ++ (op.lexeme, some op) :: right.roles

theorem PrefixOp.after_of_starts {previous : Option Kind} (h : Kind.Starts previous)
    (op : PrefixOp) : op.lexeme.kind.after previous = .prefixOp op := by
  cases op with
  | plus => exact Kind.after_of_starts h .plus
  | minus => exact Kind.after_of_starts h .minus
  | not => rfl

theorem BinaryOp.after_of_ends {before : Kind} (h : before.endsOperand = true) (op : BinaryOp) :
    op.lexeme.kind.after (some before) = .binary op := by
  cases op with
  | add => exact Kind.after_of_ends h .plus
  | sub => exact Kind.after_of_ends h .minus
  | _ => rfl

theorem PrefixOp.starts_lexeme (op : PrefixOp) : Kind.Starts (some op.lexeme.kind) := by
  cases op <;> exact Kind.starts_some rfl nofun

theorem BinaryOp.starts_lexeme (op : BinaryOp) : Kind.Starts (some op.lexeme.kind) := by
  cases op <;> exact Kind.starts_some rfl nofun

theorem Lexeme.starts_opening (b : Bracket) : Kind.Starts (some (Lexeme.opening b).kind) := by
  cases b <;> exact Kind.starts_some rfl nofun

namespace Term

theorem lastKind_lexemes (t : Term) (previous : Option Kind) :
    ∃ k, Lexeme.lastKind previous t.lexemes = some k ∧ k.endsOperand = true := by
  induction t generalizing previous with
  | number text => exact ⟨_, rfl, rfl⟩
  | name text => exact ⟨_, rfl, rfl⟩
  | group inner _ =>
    rw [lexemes, Lexeme.lastKind_cons, Lexeme.lastKind_append]
    exact ⟨_, rfl, rfl⟩
  | entry vector index _ _ =>
    rw [lexemes, Lexeme.lastKind_append, Lexeme.lastKind_cons, Lexeme.lastKind_append]
    exact ⟨_, rfl, rfl⟩
  | prefixed op operand ih =>
    rw [lexemes, Lexeme.lastKind_cons]
    exact ih _
  | binary op left right _ ih =>
    rw [lexemes, Lexeme.lastKind_append, Lexeme.lastKind_cons]
    exact ih _

theorem rolesFrom_lexemes (t : Term) {previous : Option Kind} (h : Kind.Starts previous) :
    Lexeme.rolesFrom previous t.lexemes = t.roles := by
  induction t generalizing previous with
  | number text => rfl
  | name text => rfl
  | group inner ih =>
    rw [lexemes, Lexeme.rolesFrom, Lexeme.rolesFrom_append, ih (Lexeme.starts_opening .round)]
    rfl
  | entry vector index ihv ihi =>
    rw [lexemes, Lexeme.rolesFrom_append, ihv h, Lexeme.rolesFrom, Lexeme.rolesFrom_append,
      ihi (Lexeme.starts_opening .square)]
    rfl
  | prefixed op operand ih =>
    rw [lexemes, Lexeme.rolesFrom, op.after_of_starts h, ih op.starts_lexeme]
    rfl
  | binary op left right ihl ihr =>
    rcases left.lastKind_lexemes previous with ⟨k, hk, hends⟩
    rw [lexemes, Lexeme.rolesFrom_append, ihl h, hk, Lexeme.rolesFrom, op.after_of_ends hends,
      ihr op.starts_lexeme]
    rfl

end Term

/-! The tokens of a term when the signs get their roles: its subscripts and groups are values. -/

namespace Term

theorem tokens_prefixed (schema : Schema C) (settled : Bool) (op : PrefixOp) (t : Term) :
    (prefixed op t).tokens schema settled 2 = op.token C settled :: t.tokens schema settled 2 := by
  rw [tokens, if_neg (by decide)]

theorem tokens_binary (schema : Schema C) (settled : Bool) (op : BinaryOp) (t u : Term) :
    (binary op t u).tokens schema settled 2 =
      t.tokens schema settled 2 ++ op.token C settled :: u.tokens schema settled 2 := by
  have hrank := op.two_lt_rank
  rw [tokens, if_neg (by omega)]

theorem length_tokens (schema : Schema C) (t : Term) :
    (t.tokens schema false 2).length = (t.tokens schema true 2).length := by
  induction t with
  | number text => rfl
  | name text => rfl
  | group inner _ => rfl
  | entry vector index _ _ => rfl
  | prefixed op operand ih =>
    rw [tokens_prefixed, tokens_prefixed, List.length_cons, List.length_cons, ih]
  | binary op left right ihl ihr =>
    rw [tokens_binary, tokens_binary, List.length_append, List.length_append, List.length_cons,
      List.length_cons, ihl, ihr]

end Term

theorem Token.sourceText_resolved (e : Expr C) : sourceText [resolved e] = e.name :=
  (sourceText_cons _ _).trans String.append_empty

theorem Derives.sourceText_tokens {level : Level} {t : Term} {ls : List Lexeme}
    (h : Derives schema level t ls) : Token.sourceText (t.tokens schema true 2) = t.text := by
  induction h with
  | number text => exact Token.sourceText_resolved _
  | name he => exact (Token.sourceText_resolved _).trans (Term.name_expr rfl schema)
  | group _ _ => exact Token.sourceText_resolved _
  | @entry v i _ _ hdv hdi hv hi _ _ =>
    have hshape : ((i.expr schema).rename i.text).shape = .scalar := hdi.shape_expr.trans hi
    rcases Expr.exists_subscript (hdv.shape_expr.trans hv) hshape with ⟨e, he, _⟩
    rw [Term.tokens, if_pos (by decide), Token.sourceText_resolved, Term.expr, he]
    rfl
  | prefixed op _ ih =>
    rw [Term.tokens_prefixed, Token.sourceText_cons, ih, Term.text, ← op.text_lexeme]
    rfl
  | binary op _ _ _ ihl ihr =>
    rw [Term.tokens_binary, Token.sourceText_append, Token.sourceText_cons, ihl, ihr,
      Term.text, ← op.text_lexeme, String.append_assoc]
    rfl
  | loosen level _ ih => exact ih

def Term.Settles (schema : Schema C) (t : Term) (front : List Lexeme) (l : Lexeme)
    (role : Kind) : Prop :=
  ∃ ahead behind signed rest,
    t.tokens schema false 2 = ahead ++ Token.ofLexeme l :: behind ∧
    t.tokens schema true 2 = signed ++ ⟨role, l.text, none⟩ :: rest ∧
    ahead.length = signed.length ∧ Token.sourceText signed = String.join (front.map Lexeme.text)

namespace Term.Settles

variable {t u : Term} {front : List Lexeme} {l : Lexeme} {role : Kind}

theorem prefixed (op : PrefixOp) (h : t.Settles schema front l role) :
    (Term.prefixed op t).Settles schema (op.lexeme :: front) l role := by
  rcases h with ⟨ahead, behind, signed, rest, hreduced, htokens, hlength, htext⟩
  refine ⟨op.token C false :: ahead, behind, op.token C true :: signed, rest, ?_, ?_, ?_, ?_⟩
  · rw [tokens_prefixed, hreduced, List.cons_append]
  · rw [tokens_prefixed, htokens, List.cons_append]
  · rw [List.length_cons, List.length_cons, hlength]
  · rw [Token.sourceText_cons, htext, List.map_cons, String.join_cons]
    rfl

theorem left (op : BinaryOp) (u : Term) (h : t.Settles schema front l role) :
    (Term.binary op t u).Settles schema front l role := by
  rcases h with ⟨ahead, behind, signed, rest, hreduced, htokens, hlength, htext⟩
  refine ⟨ahead, behind ++ op.token C false :: u.tokens schema false 2, signed,
    rest ++ op.token C true :: u.tokens schema true 2, ?_, ?_, hlength, htext⟩
  · rw [tokens_binary, hreduced, List.append_assoc, List.cons_append]
  · rw [tokens_binary, htokens, List.append_assoc, List.cons_append]

theorem right {level : Level} {ls : List Lexeme} (op : BinaryOp)
    (ht : Derives schema level t ls) (h : u.Settles schema front l role) :
    (Term.binary op t u).Settles schema (ls ++ op.lexeme :: front) l role := by
  rcases h with ⟨ahead, behind, signed, rest, hreduced, htokens, hlength, htext⟩
  refine ⟨t.tokens schema false 2 ++ op.token C false :: ahead, behind,
    t.tokens schema true 2 ++ op.token C true :: signed, rest, ?_, ?_, ?_, ?_⟩
  · rw [tokens_binary, hreduced, List.append_assoc, List.cons_append]
  · rw [tokens_binary, htokens, List.append_assoc, List.cons_append]
  · rw [List.length_append, List.length_append, List.length_cons, List.length_cons, hlength,
      t.length_tokens]
  · rw [Token.sourceText_append, Token.sourceText_cons, ht.sourceText_tokens, htext,
      ht.lexemes_eq, List.map_append, String.join_append, join_lexemes, List.map_cons,
      String.join_cons]
    rfl

end Term.Settles

def SettlesInside (schema : Schema C) (ls front : List Lexeme) (l : Lexeme) (role : Kind) : Prop :=
  ∃ b before u within after behind,
    ls = before ++ .opening b :: (u.lexemes ++ .closing b :: behind) ∧
      front = before ++ .opening b :: within ∧ u.lexemes = within ++ l :: after ∧
      Derives schema .disjunction u u.lexemes ∧ u.Settles schema within l role

namespace SettlesInside

variable {ls front : List Lexeme} {l : Lexeme} {role : Kind}

theorem among (h : SettlesInside schema ls front l role) (as bs : List Lexeme) :
    SettlesInside schema (as ++ (ls ++ bs)) (as ++ front) l role := by
  rcases h with ⟨b, before, u, within, after, behind, rfl, rfl, hu, hd, hs⟩
  exact ⟨b, as ++ before, u, within, after, behind ++ bs, by simp, by simp, hu, hd, hs⟩

theorem wrap (b : Bracket) {u : Term} {back : List Lexeme}
    (hd : Derives schema .disjunction u ls) (hsplit : ls = front ++ l :: back)
    (h : u.Settles schema front l role ∨ SettlesInside schema ls front l role)
    (before : List Lexeme) :
    SettlesInside schema (before ++ .opening b :: (ls ++ [.closing b]))
      (before ++ .opening b :: front) l role := by
  rcases h with h | h
  · obtain rfl := hd.lexemes_eq
    exact ⟨b, before, u, front, back, [], rfl, rfl, hsplit, hd, h⟩
  · have hamong := h.among (before ++ [.opening b]) [.closing b]
    simpa using hamong

end SettlesInside

theorem eq_of_singleton {α : Type} {x y : α} {front back : List α} (h : [x] = front ++ y :: back) :
    y = x := by
  have hmem : y ∈ front ++ y :: back := List.mem_append_right front List.mem_cons_self
  exact List.mem_singleton.1 (h ▸ hmem)

theorem split_brackets {b : Bracket} {ls front back : List Lexeme} {l : Lexeme}
    (hopening : l ≠ .opening b) (hclosing : l ≠ .closing b)
    (h : Lexeme.opening b :: (ls ++ [.closing b]) = front ++ l :: back) :
    ∃ within between, front = .opening b :: within ∧ ls = within ++ l :: between := by
  cases front with
  | nil => exact absurd (List.cons.inj h).1.symm hopening
  | cons m within =>
    obtain ⟨rfl, htail⟩ : Lexeme.opening b = m ∧ ls ++ [.closing b] = within ++ l :: back :=
      List.cons.inj h
    rcases split_cases htail with ⟨between, hls, _⟩ | ⟨between, _, hlast⟩
    · exact ⟨within, between, rfl, hls⟩
    · exact absurd (eq_of_singleton hlast) hclosing

theorem Term.not_settles_of_rank {t : Term} (h : t.level.rank < 2) (front : List Lexeme)
    (l : Lexeme) (role : Kind) : ¬ t.Settles schema front l role := by
  intro ⟨_, _, signed, rest, _, htokens, _⟩
  rw [tokens_of_rank h] at htokens
  have hvalue := congrArg Token.value (eq_of_singleton htokens)
  cases hvalue

theorem Derives.settles {level : Level} {t : Term} {ls front back : List Lexeme} {l : Lexeme}
    {sign : Sign} {previous : Option Kind} (h : Derives schema level t ls)
    (hstarts : Kind.Starts previous) (hsplit : ls = front ++ l :: back)
    (hsign : l.kind = .ambiguous sign) :
    t.Settles schema front l (l.kind.after (Lexeme.lastKind previous front)) ∨
      SettlesInside schema ls front l (l.kind.after (Lexeme.lastKind previous front)) := by
  have hopening : ∀ b, l ≠ .opening b := by
    intro b hl
    rw [hl, Lexeme.kind_opening] at hsign
    cases hsign
  have hclosing : ∀ b, l ≠ .closing b := by
    intro b hl
    rw [hl, Lexeme.kind_closing] at hsign
    cases hsign
  -- A sign in brackets is one of their inside; else it is one of the term's own tokens, and what
  -- stands in front of the subterm tells whether an operand starts there.
  induction h generalizing front back previous with
  | number text =>
    rw [eq_of_singleton hsplit] at hsign
    cases hsign
  | name he =>
    rw [eq_of_singleton hsplit] at hsign
    cases hsign
  | @group u ls hd ih =>
    rcases split_brackets (hopening .round) (hclosing .round) hsplit with
      ⟨within, between, rfl, hls⟩
    rw [Lexeme.lastKind_cons]
    exact .inr (.wrap .round hd hls (ih (Lexeme.starts_opening .round) hls) [])
  | @entry v i ls ms hdv hdi hv hi ihv ihi =>
    rcases split_cases hsplit with ⟨between, hls, _⟩ | ⟨between, rfl, htail⟩
    · rcases ihv hstarts hls with hsettles | hinside
      · have hrank : v.level.rank < 2 := Nat.lt_succ_of_le (Nat.le_succ_of_le hdv.rank_le)
        exact absurd hsettles (Term.not_settles_of_rank hrank _ _ _)
      · exact .inr (hinside.among [] (.opening .square :: (ms ++ [Lexeme.closing .square])))
    · rcases split_brackets (hopening .square) (hclosing .square) htail with
        ⟨within, inner, rfl, hms⟩
      rw [Lexeme.lastKind_append, Lexeme.lastKind_cons]
      exact .inr (.wrap .square hdi hms (ihi (Lexeme.starts_opening .square) hms) ls)
  | @prefixed u ls op hd ih =>
    cases front with
    | nil =>
      obtain ⟨rfl, rfl⟩ : op.lexeme = l ∧ ls = back := List.cons.inj hsplit
      have hrole : op.lexeme.kind.after (Lexeme.lastKind previous []) = .prefixOp op :=
        op.after_of_starts hstarts
      rw [hrole]
      exact .inl ⟨[], u.tokens schema false 2, [], u.tokens schema true 2,
        Term.tokens_prefixed schema false op u, Term.tokens_prefixed schema true op u, rfl, rfl⟩
    | cons m front =>
      obtain ⟨rfl, hls⟩ : op.lexeme = m ∧ ls = front ++ l :: back := List.cons.inj hsplit
      rw [Lexeme.lastKind_cons]
      rcases ih op.starts_lexeme hls with hsettles | hinside
      · exact .inl (hsettles.prefixed op)
      · have hamong := hinside.among [op.lexeme] []
        rw [List.append_nil] at hamong
        exact .inr hamong
  | @binary level u v ls ms op hop hdl hdr ihl ihr =>
    rcases split_cases hsplit with ⟨between, hls, _⟩ | ⟨between, rfl, htail⟩
    · rcases ihl hstarts hls with hsettles | hinside
      · exact .inl (hsettles.left op v)
      · exact .inr (hinside.among [] (op.lexeme :: ms))
    · cases between with
      | nil =>
        obtain ⟨rfl, rfl⟩ : op.lexeme = l ∧ ms = back := List.cons.inj htail
        rcases u.lastKind_lexemes previous with ⟨k, hk, hends⟩
        rw [List.append_nil, hdl.lexemes_eq, hk, op.after_of_ends hends]
        refine .inl ⟨u.tokens schema false 2, v.tokens schema false 2, u.tokens schema true 2,
          v.tokens schema true 2, Term.tokens_binary schema false op u v,
          Term.tokens_binary schema true op u v, u.length_tokens schema, ?_⟩
        rw [hdl.sourceText_tokens, Term.join_lexemes]
      | cons m between =>
        obtain ⟨rfl, hms⟩ : op.lexeme = m ∧ ms = between ++ l :: back := List.cons.inj htail
        rw [Lexeme.lastKind_append, Lexeme.lastKind_cons]
        rcases ihr op.starts_lexeme hms with hsettles | hinside
        · exact .inl (hsettles.right op hdl)
        · have hamong := hinside.among (ls ++ [op.lexeme]) []
          rw [List.append_nil, List.append_assoc, List.append_assoc] at hamong
          exact .inr hamong
  | loosen level _ ih => exact ih hstarts hsplit

namespace Reduction

theorem foldl_pushSign (tokens stack : List (Token C)) :
    ∃ pushed, tokens.foldl pushSign stack = pushed ++ stack ∧ pushed.length = tokens.length := by
  induction tokens generalizing stack with
  | nil => exact ⟨[], rfl, rfl⟩
  | cons t rest ih =>
    rcases ih (pushSign stack t) with ⟨pushed, hpushed, hlength⟩
    refine ⟨pushed ++ [{ t with kind := t.kind.after (stack.head?.map Token.kind) }], ?_, ?_⟩
    · rw [List.foldl_cons, hpushed, List.append_assoc]
      rfl
    · rw [List.length_append, hlength]
      rfl

theorem sweep_pushSign {ahead behind signed rest : List (Token C)} {t u : Token C}
    (h : sweep pushSign (ahead ++ t :: behind) = signed ++ u :: rest)
    (hlength : ahead.length = signed.length) :
    u.kind = t.kind.after (signed.getLast?.map Token.kind) := by
  -- The pass looks at the token that it has put out last.
  rcases foldl_pushSign ahead [] with ⟨stack, hstack, hahead⟩
  rw [List.append_nil] at hstack
  rcases foldl_pushSign behind (pushSign stack t) with ⟨pushed, hpushed, _⟩
  rw [sweep, List.foldl_append, List.foldl_cons, hstack, hpushed, List.reverse_append, pushSign,
    List.reverse_cons, List.append_assoc] at h
  rcases List.append_inj h (by rw [List.length_reverse, hahead, hlength]) with ⟨rfl, htail⟩
  rcases List.cons.inj htail with ⟨rfl, _⟩
  rw [List.getLast?_reverse]

end Reduction

def Delimits (outer inner more : List (Token C)) : Prop :=
  outer = [] ∧ more = [] ∨ ∃ front opener closer back,
    outer = front ++ [opener] ∧ more = closer :: back ∧ Encloses opener inner closer

/-- The group of the lexeme at this place compiles, and when it is reduced the pass over the signs
gives the lexeme this role, which it takes from the token in front. -/
def TakesRole (leaves : List (Token C)) (place : Nat) (l : Lexeme) (role : Kind) : Prop :=
  ∃ outer before after more groups ahead behind signed rest,
    leaves = outer ++ (before ++ Token.ofLexeme l :: after) ++ more ∧
    outer.length + before.length = place ∧
    Delimits outer (before ++ Token.ofLexeme l :: after) more ∧
    (compileGroups (before ++ Token.ofLexeme l :: after)).result = .ok groups ∧
    Reduction.applyAll [.parentheses, .subscripts] groups = ahead ++ Token.ofLexeme l :: behind ∧
    Reduction.signs.apply (ahead ++ Token.ofLexeme l :: behind) =
      signed ++ ⟨role, l.text, none⟩ :: rest ∧
    ahead.length = signed.length ∧ Token.sourceText signed = Token.sourceText before ∧
    role = l.kind.after (signed.getLast?.map Token.kind)

theorem Derives.takesRole {t : Term} {ls front back : List Lexeme} {l : Lexeme} {sign : Sign}
    {role : Kind} {outer inner more : List (Token C)} (h : Derives schema .disjunction t ls)
    (hr : Readable ls) (hleaves : Leaves schema ls inner) (hdelimits : Delimits outer inner more)
    (hsplit : ls = front ++ l :: back) (hsign : l.kind = .ambiguous sign)
    (hsettles : t.Settles schema front l role) :
    TakesRole (outer ++ inner ++ more) (outer.length + front.length) l role := by
  rcases hsettles with ⟨ahead, behind, signed, rest, hreduced, htokens, hlength, htext⟩
  obtain rfl : inner = t.leaves schema := hleaves.eq_of_derives h hr
  have hgroups := groups_leaves h [] [] compileGroups_nil_result
  rw [List.append_nil, List.append_nil] at hgroups
  have hpasses : Reduction.applyAll [.parentheses, .subscripts] (t.tokens schema false 0) =
      ahead ++ Token.ofLexeme l :: behind := by
    rw [← hreduced, Reduction.applyAll, List.foldl_cons, List.foldl_cons, List.foldl_nil,
      Reduction.apply, Reduction.apply, (Reduction.turns_parentheses t).sweep_eq trivial,
      (Reduction.turns_subscripts h).sweep_eq trivial]
  have hsigns : Reduction.sweep Reduction.pushSign (ahead ++ Token.ofLexeme l :: behind) =
      signed ++ ⟨role, l.text, none⟩ :: rest := by
    rw [← hreduced, ← htokens, (Reduction.turns_signs t).sweep_eq .nil]
  rw [hsplit] at hleaves
  rcases hleaves.split with ⟨before, others, hinner, hbefore, hothers⟩
  rcases List.forall₂_cons_left_iff.1 hothers with ⟨u, after, hu, hafter, rfl⟩
  obtain rfl : u = Token.ofLexeme l := by
    rcases Leaves.leaf_cases hu.2 with hu | ⟨hkind, _⟩
    · exact hu
    · rw [hsign] at hkind
      rcases hkind with hkind | hkind <;> cases hkind
  rw [hinner] at hgroups hdelimits ⊢
  exact ⟨outer, before, after, more, _, ahead, behind, signed, rest, rfl,
    congrArg (outer.length + ·) hbefore.length_eq.symm, hdelimits, hgroups, hpasses, hsigns,
    hlength, htext.trans hbefore.sourceText_eq.symm, Reduction.sweep_pushSign hsigns hlength⟩

theorem leaf?_bracket {b : Bracket} {t : Token C} :
    (leaf? schema (.opening b) = some t → t = Token.ofLexeme (.opening b)) ∧
      (leaf? schema (.closing b) = some t → t = Token.ofLexeme (.closing b)) := by
  cases b <;> exact ⟨fun h => (Option.some.inj h).symm, fun h => (Option.some.inj h).symm⟩

theorem SettlesInside.takesRole {ls front : List Lexeme} {l : Lexeme} {sign : Sign} {role : Kind}
    {leaves : List (Token C)} (h : SettlesInside schema ls front l role) (hr : Readable ls)
    (hleaves : Leaves schema ls leaves) (hsign : l.kind = .ambiguous sign) :
    TakesRole leaves front.length l role := by
  rcases h with ⟨b, before, u, within, after, behind, rfl, rfl, hu, hd, hsettles⟩
  have hru : Readable u.lexemes :=
    (Readable.of_append (List.forall_mem_cons.1 (Readable.of_append hr).2).2).1
  rcases hleaves.split with ⟨ahead, others, rfl, hahead, hothers⟩
  rcases List.forall₂_cons_left_iff.1 hothers with ⟨opener, rest, hopener, hrest, rfl⟩
  rcases Leaves.split hrest with ⟨inner, closing, rfl, hinner, hclosing⟩
  rcases List.forall₂_cons_left_iff.1 hclosing with ⟨closer, back, hcloser, _, rfl⟩
  have henc : Encloses opener inner closer := by
    rw [leaf?_bracket.1 hopener.2, leaf?_bracket.2 hcloser.2, hinner.eq_of_derives hd hru]
    exact (u.balanced_leaves schema).encloses b
  have htakes := hd.takesRole hru hinner
    (.inr ⟨ahead, opener, closer, back, rfl, rfl, henc⟩) hu hsign hsettles
  have hplace : (ahead ++ [opener]).length + within.length =
      (before ++ Lexeme.opening b :: within).length := by
    rw [List.length_append, List.length_append, List.length_singleton, List.length_cons,
      hahead.length_eq]
    omega
  rw [hplace] at htakes
  simpa using htakes

/-- How the pretty name of a text and the roles of its lexemes follow a derivation. -/
structure SpacesOperators (schema : Schema C) (source : String) (leaves : List (Token C))
    (e : Expr C) (t : Term) : Prop where
  expr : e = (t.expr schema).rename (Text.stripBlanks source)
  lexemes : t.roles.map Prod.fst = Lexeme.ofSource source
  pretty : e.prettyName = String.join (t.roles.map Lexeme.spaced)
  role : ∀ front l back, Lexeme.ofSource source = front ++ l :: back →
    t.roles[front.length]? =
      some (l, (l.kind.after (front.getLast?.map Lexeme.kind)).binaryOp?)
  sign : ∀ front l back sign, Lexeme.ofSource source = front ++ l :: back →
    l.kind = .ambiguous sign →
    TakesRole leaves front.length l (l.kind.after (front.getLast?.map Lexeme.kind))

/-- The pretty name of what compiles is its lexemes in order, and exactly those that join two
operands are set apart. The role of a sign is told by the lexeme in front of it as by the token in
front of it in its group. -/
theorem parse_spaces_operators {source : String} {e : Expr C} (h : parse schema source = .ok e) :
    (∃ t, Derives schema .disjunction t (Lexeme.ofSource source)) ∧
    ∃ leaves, resolveLeaves schema (Text.stripBlanks source)
        (tokenize C (Text.stripBlanks source)) = .ok leaves ∧
      ∀ t, Derives schema .disjunction t (Lexeme.ofSource source) →
        SpacesOperators schema source leaves e t := by
  have hr := readable_of_parse h
  rcases derives_of_parse h with ⟨t, ht, _⟩
  have hleaves : Leaves schema (Lexeme.ofSource source) (t.leaves schema) :=
    (List.forall₂_and_left _ _).2 ⟨ht.kind_ne_unknown, leaf?_leaves ht hr⟩
  have hresolve := (hleaves.resolve (Text.stripBlanks source)).2
  rw [← tokenize_stripBlanks] at hresolve
  refine ⟨⟨t, ht⟩, t.leaves schema, hresolve, fun u hu => ?_⟩
  have hroles : Lexeme.rolesFrom none (Lexeme.ofSource source) = u.roles := by
    rw [hu.lexemes_eq, u.rolesFrom_lexemes Kind.starts_none]
  refine ⟨((parse_eq_ok_iff hu e).1 h).2, ?_, ?_, ?_, ?_⟩
  · rw [← hroles, Lexeme.map_fst_rolesFrom]
  · rw [Expr.prettyName, name_of_parse h, Name.pretty, Lexeme.ofSource,
      Text.stripBlanks_stripBlanks, ← Lexeme.ofSource, Lexeme.prettyFrom_eq, hroles]
  · intro front l back hsplit
    rw [← hroles, hsplit, Lexeme.rolesFrom_getElem?]
  · intro front l back sign hsplit hsign
    rw [← Lexeme.lastKind_none]
    rcases ht.settles Kind.starts_none hsplit hsign with hsettles | hinside
    · have htakes := ht.takesRole hr hleaves (.inl ⟨rfl, rfl⟩) hsplit hsign hsettles
      simpa using htakes
    · exact hinside.takesRole hr hleaves hsign

theorem parse_spaces_operators_signs :
    ∃ e leaves, parse VariableTable.ofColumn.schema "v - (-v) && v" = .ok e ∧
      e.prettyName = "v - (-v) and v" ∧
      ∀ t, Derives VariableTable.ofColumn.schema .disjunction t (Lexeme.ofSource "v - (-v) && v") →
        SpacesOperators VariableTable.ofColumn.schema "v - (-v) && v" leaves e t := by
  have hlexemes : Lexeme.ofSource "v - (-v) && v" =
      [⟨.identifier, "v"⟩, BinaryOp.sub.lexeme, .opening .round, PrefixOp.minus.lexeme,
        ⟨.identifier, "v"⟩, .closing .round, BinaryOp.and.lexeme, ⟨.identifier, "v"⟩] := by
    decide +kernel
  have hsigned : Derives VariableTable.ofColumn.schema .signed (.prefixed .minus (.name "v")) _ :=
    .prefixed .minus (derives_column .signed)
  have hgroup : Derives VariableTable.ofColumn.schema .product _ _ :=
    hsigned.disjunction.group.mono (by decide)
  have hdifference : Derives VariableTable.ofColumn.schema .sum
      (.binary .sub (.name "v") (.group (.prefixed .minus (.name "v")))) _ :=
    .binary .sub rfl (derives_column .sum) hgroup
  have hand : Derives VariableTable.ofColumn.schema .conjunction
      (.binary .and (.binary .sub (.name "v") (.group (.prefixed .minus (.name "v"))))
        (.name "v")) (Lexeme.ofSource "v - (-v) && v") := by
    rw [hlexemes]
    exact .binary .and rfl (hdifference.mono (by decide)) (derives_column .equality)
  have hreadable : Readable (Lexeme.ofSource "v - (-v) && v") := by
    decide +kernel
  have hparse := parse_of_derives hand.disjunction hreadable
  rcases parse_spaces_operators hparse with ⟨_, leaves, _, hspaces⟩
  refine ⟨_, leaves, hparse, ?_, hspaces⟩
  rw [(hspaces _ hand.disjunction).pretty]
  rfl

end EventCuts
