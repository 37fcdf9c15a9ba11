import EventCuts.Proofs.Acceptance

/-!
# Compilations that look alike

Two schemas, perhaps for different kinds of events, that answer the same shapes. Their
compilations cannot be told apart by anything but the functions of the expressions: the tokens
keep the same kinds and texts through every reduction, so the logs and the errors are the same.
-/

namespace EventCuts

variable {C D : Type}

theorem rel_bind {α β γ δ : Type} {R : α → β → Prop} {S : γ → δ → Prop} {x : Option α}
    {y : Option β} {f : α → Option γ} {g : β → Option δ} (h : Option.Rel R x y)
    (hfg : ∀ a b, R a b → Option.Rel S (f a) (g b)) : Option.Rel S (x >>= f) (y >>= g) := by
  cases h with
  | none => exact .none
  | some h => exact hfg _ _ h

structure Expr.Alike (e : Expr C) (e' : Expr D) : Prop where
  name : e.name = e'.name
  shape : e.shape = e'.shape

namespace Expr.Alike

variable {e i : Expr C} {e' i' : Expr D}

theorem rename (h : e.Alike e') (name : String) : (e.rename name).Alike (e'.rename name) :=
  ⟨rfl, h.shape⟩

theorem unary (op : PrefixOp) (h : e.Alike e') : (e.unary op).Alike (e'.unary op) where
  name := by rw [Expr.unary, Expr.unary, h.name]
  shape := by rw [shape_unary, shape_unary, h.shape]

theorem binary (op : BinaryOp) (h : e.Alike e') (hi : i.Alike i') :
    (Expr.binary op e i).Alike (Expr.binary op e' i') where
  name := by rw [Expr.binary, Expr.binary, h.name, hi.name]
  shape := by rw [shape_binary, shape_binary, h.shape, hi.shape]

theorem subscript (h : e.Alike e') (hi : i.Alike i') :
    Option.Rel Alike (e.subscript i) (e'.subscript i') := by
  obtain ⟨n, p⟩ := e
  obtain ⟨m, q⟩ := i
  obtain ⟨n', p'⟩ := e'
  obtain ⟨m', q'⟩ := i'
  obtain ⟨rfl, hp⟩ := h
  obtain ⟨rfl, hq⟩ := hi
  cases p <;> cases p' <;> cases hp <;> cases q <;> cases q' <;> cases hq
  case vector.vector.refl.scalar.scalar.refl => exact .some ⟨rfl, rfl⟩
  all_goals exact .none

end Expr.Alike

namespace Token

structure Alike (t : Token C) (t' : Token D) : Prop where
  kind : t.kind = t'.kind
  text : t.text = t'.text
  value : Option.Rel Expr.Alike t.value t'.value

namespace Alike

variable {t : Token C} {t' : Token D} {ts : List (Token C)} {ts' : List (Token D)}

theorem isResolved (h : t.Alike t') : t.isResolved = t'.isResolved :=
  congrArg Kind.isResolved h.kind

theorem resolved {e : Expr C} {e' : Expr D} (h : e.Alike e') :
    (Token.resolved e).Alike (Token.resolved e') :=
  ⟨congrArg Kind.resolved h.shape, h.name, .some h⟩

theorem ofLexeme (l : Lexeme) : (ofLexeme l : Token C).Alike (ofLexeme l : Token D) :=
  ⟨rfl, rfl, .none⟩

theorem rename (h : t.Alike t') (name : String) : (t.rename name).Alike (t'.rename name) where
  kind := h.kind
  text := rfl
  value := by
    obtain ⟨kind, text, v⟩ := t
    obtain ⟨kind', text', v'⟩ := t'
    cases h.value with
    | none => exact .none
    | some hv => exact .some (hv.rename name)

theorem texts_eq (h : List.Forall₂ Alike ts ts') : ts.map Token.text = ts'.map Token.text := by
  induction h with
  | nil => rfl
  | cons ht _ ih => rw [List.map_cons, List.map_cons, ht.text, ih]

theorem sourceText_eq (h : List.Forall₂ Alike ts ts') : sourceText ts = sourceText ts' :=
  congrArg String.join (texts_eq h)

end Alike

end Token

namespace Reduction

open Token (Alike)

variable {stack : List (Token C)} {stack' : List (Token D)} {t : Token C} {t' : Token D}
  {ts : List (Token C)} {ts' : List (Token D)}

theorem alike_pushParenthesis (hs : List.Forall₂ Alike stack stack') (ht : t.Alike t') :
    List.Forall₂ Alike (pushParenthesis stack t) (pushParenthesis stack' t') := by
  cases hs with
  | nil => exact .cons ht .nil
  | cons hi hs =>
    cases hs with
    | nil => exact .cons ht (.cons hi .nil)
    | cons ho hb =>
      simp only [pushParenthesis, ht.kind, ho.kind, hi.isResolved, hi.text]
      split
      · exact .cons (hi.rename _) hb
      · exact .cons ht (.cons hi (.cons ho hb))

theorem alike_subscripted {v o i c : Token C} {v' o' i' c' : Token D} (hv : v.Alike v')
    (ho : o.Alike o') (hi : i.Alike i') (hc : c.Alike c') :
    Option.Rel Expr.Alike (subscripted v o i c) (subscripted v' o' i' c') := by
  have htext : Token.sourceText [v, o, i, c] = Token.sourceText [v', o', i', c'] :=
    Alike.sourceText_eq (.cons hv (.cons ho (.cons hi (.cons hc .nil))))
  rw [subscripted, subscripted, htext]
  refine rel_bind hv.value fun _ _ hentries => ?_
  refine rel_bind hi.value fun _ _ hposition => ?_
  exact rel_bind (hentries.subscript hposition) fun _ _ h => .some (h.rename _)

theorem alike_pushSubscript (hs : List.Forall₂ Alike stack stack') (ht : t.Alike t') :
    List.Forall₂ Alike (pushSubscript stack t) (pushSubscript stack' t') := by
  cases hs with
  | nil => exact .cons ht .nil
  | cons hi hs =>
    cases hs with
    | nil => exact .cons ht (.cons hi .nil)
    | cons ho hs =>
      cases hs with
      | nil => exact .cons ht (.cons hi (.cons ho .nil))
      | cons hv hb =>
        simp only [pushSubscript, ht.kind, hv.kind, ho.kind, hi.kind]
        split
        · have hentry := alike_subscripted hv ho hi ht
          revert hentry
          generalize subscripted _ _ _ t = entry
          generalize subscripted _ _ _ t' = entry'
          rintro (_ | hentry)
          · exact .cons (.resolved ‹_›) hb
          · exact .cons ht hb
        · exact .cons ht (.cons hi (.cons ho (.cons hv hb)))

theorem alike_pushSign (hs : List.Forall₂ Alike stack stack') (ht : t.Alike t') :
    List.Forall₂ Alike (pushSign stack t) (pushSign stack' t') := by
  have hhead : stack.head?.map Token.kind = stack'.head?.map Token.kind := by
    cases hs with
    | nil => rfl
    | cons h _ => exact congrArg some h.kind
  refine .cons ⟨?_, ht.text, ht.value⟩ hs
  rw [ht.kind, hhead]

theorem alike_applyPrefixes (hs : List.Forall₂ Alike stack stack') {e : Expr C} {e' : Expr D}
    (he : e.Alike e') : List.Forall₂ Alike (applyPrefixes stack e) (applyPrefixes stack' e') := by
  induction hs generalizing e e' with
  | nil => exact .cons (.resolved he) .nil
  | cons htop hb ih =>
    simp only [applyPrefixes, htop.kind]
    split
    · exact ih (he.unary _)
    · exact .cons (.resolved he) (.cons htop hb)

theorem alike_pushPrefixed (hs : List.Forall₂ Alike stack stack') (ht : t.Alike t') :
    List.Forall₂ Alike (pushPrefixed stack t) (pushPrefixed stack' t') := by
  have hstand := List.Forall₂.cons ht hs
  obtain ⟨kind, text, value⟩ := t
  obtain ⟨kind', text', value'⟩ := t'
  cases ht.value with
  | none => exact hstand
  | some he =>
    cases hs with
    | nil => exact hstand
    | cons htop hb =>
      simp only [pushPrefixed, htop.kind]
      split
      · exact alike_applyPrefixes hb (he.unary _)
      · exact hstand

theorem alike_pushOperand (ops : List BinaryOp) (hs : List.Forall₂ Alike stack stack')
    (ht : t.Alike t') :
    List.Forall₂ Alike (pushOperand ops stack t) (pushOperand ops stack' t') := by
  have hstand := List.Forall₂.cons ht hs
  obtain ⟨kind, text, value⟩ := t
  obtain ⟨kind', text', value'⟩ := t'
  cases ht.value with
  | none => exact hstand
  | some hright =>
    cases hs with
    | nil => exact hstand
    | @cons operator operator' _ _ hop hs =>
      cases hs with
      | nil => exact hstand
      | @cons left left' _ _ hleft hb =>
        obtain ⟨_, _, leftValue⟩ := left
        obtain ⟨_, _, leftValue'⟩ := left'
        simp only [pushOperand, hop.kind]
        cases operator'.kind with
        | binary op =>
          cases hleft.value with
          | none => exact hstand
          | some hl =>
            by_cases hop : op ∈ ops
            · simp only [hop, if_true]
              exact .cons (.resolved (hl.binary op hright)) hb
            · simp only [hop, if_false]
              exact hstand
        | _ => exact hstand

theorem alike_apply (r : Reduction) (h : List.Forall₂ Alike ts ts') :
    List.Forall₂ Alike (r.apply ts) (r.apply ts') := by
  have hsweep : ∀ {push : List (Token C) → Token C → List (Token C)}
      {push' : List (Token D) → Token D → List (Token D)},
      (∀ {stack stack' t t'}, List.Forall₂ Alike stack stack' → t.Alike t' →
        List.Forall₂ Alike (push stack t) (push' stack' t')) →
      List.Forall₂ Alike (sweep push ts) (sweep push' ts') := by
    intro push push' hpush
    exact List.rel_reverse (List.rel_foldl (P := List.Forall₂ Alike) (R := Alike)
      (fun _ _ hs _ _ ht => hpush hs ht) .nil h)
  cases r with
  | parentheses => exact hsweep alike_pushParenthesis
  | subscripts => exact hsweep alike_pushSubscript
  | signs => exact hsweep alike_pushSign
  | prefixes => exact hsweep alike_pushPrefixed
  | operators ops => exact hsweep (alike_pushOperand ops)

theorem alike_applyAll (reductions : List Reduction) (h : List.Forall₂ Alike ts ts') :
    List.Forall₂ Alike (applyAll reductions ts) (applyAll reductions ts') := by
  induction reductions generalizing ts ts' with
  | nil => exact h
  | cons r rest ih => exact ih (alike_apply r h)

theorem alike_trail (source : String) (reductions : List Reduction)
    (h : List.Forall₂ Alike ts ts') :
    passEvents source (trail reductions ts) = passEvents source (trail reductions ts') := by
  induction reductions generalizing ts ts' with
  | nil => rfl
  | cons r rest ih =>
    have hr := alike_apply r h
    have hrest := ih hr
    simp only [passEvents] at hrest
    simp only [trail, passEvents, List.map_cons, Alike.texts_eq hr, hrest]

end Reduction

inductive Answers {α β : Type} (R : α → β → Prop) :
    Except ParseError α → Except ParseError β → Prop
  | ok {a : α} {b : β} (h : R a b) : Answers R (.ok a) (.ok b)
  | error (e : ParseError) : Answers R (.error e) (.error e)

namespace Answers

variable {α β γ δ : Type} {R : α → β → Prop} {S : γ → δ → Prop}

theorem bind {x : Except ParseError α} {y : Except ParseError β} {f : α → Except ParseError γ}
    {g : β → Except ParseError δ} (h : Answers R x y) (hfg : ∀ a b, R a b → Answers S (f a) (g b)) :
    Answers S (x >>= f) (y >>= g) := by
  cases h with
  | ok h => exact hfg _ _ h
  | error e => exact .error e

theorem refl (x : Except ParseError α) : Answers Eq x x := by
  cases x with
  | ok a => exact .ok rfl
  | error e => exact .error e

end Answers

structure Logged.Alike {α β : Type} (R : α → β → Prop) (x : Logged α) (y : Logged β) : Prop where
  log : x.log = y.log
  result : Answers R x.result y.result

namespace Logged.Alike

variable {α β γ δ : Type} {R : α → β → Prop} {S : γ → δ → Prop}

theorem tell (events : List LogEvent) : Alike Eq (Logged.tell events) (Logged.tell events) :=
  ⟨rfl, .ok rfl⟩

theorem ofExcept {x : Except ParseError α} {y : Except ParseError β} (h : Answers R x y) :
    Alike R (Logged.ofExcept x) (Logged.ofExcept y) :=
  ⟨rfl, h⟩

theorem pure {a : α} {b : β} (h : R a b) : Alike R (Pure.pure a) (Pure.pure b) := ⟨rfl, .ok h⟩

theorem bind {x : Logged α} {y : Logged β} {f : α → Logged γ} {g : β → Logged δ}
    (h : Alike R x y) (hfg : ∀ a b, R a b → Alike S (f a) (g b)) :
    Alike S (x >>= f) (y >>= g) := by
  obtain ⟨log, x⟩ := x
  obtain ⟨log', y⟩ := y
  obtain ⟨rfl, h⟩ := h
  cases h with
  | ok h =>
    obtain ⟨hlog, hresult⟩ := hfg _ _ h
    exact ⟨congrArg _ hlog, hresult⟩
  | error e => exact ⟨rfl, .error e⟩

end Logged.Alike

section Stages

open Token (Alike)

variable {ts : List (Token C)} {ts' : List (Token D)}

theorem closeOffset_alike (b : Bracket) (depth : Nat) (h : List.Forall₂ Alike ts ts') :
    closeOffset b depth ts = closeOffset b depth ts' := by
  induction h generalizing depth with
  | nil => rfl
  | cons ht _ ih => simp only [closeOffset, ht.kind, ih]

theorem groupLength_alike {t : Token C} {t' : Token D} (ht : t.Alike t')
    (h : List.Forall₂ Alike ts ts') : groupLength t ts = groupLength t' ts' := by
  rw [groupLength, groupLength, ht.kind]
  split
  · exact closeOffset_alike _ 1 h
  · rfl

theorem firstUnknown_alike (offset : Nat) (h : List.Forall₂ Alike ts ts') :
    firstUnknown offset ts = firstUnknown offset ts' := by
  induction h generalizing offset with
  | nil => rfl
  | cons ht _ ih => simp only [firstUnknown, ht.kind, ht.text, ih]

theorem unresolvedError_alike (source : String) (h : List.Forall₂ Alike ts ts') :
    unresolvedError source ts = unresolvedError source ts' := by
  rw [unresolvedError, unresolvedError, Alike.texts_eq h]

theorem alike_checkSolved (source : String) (h : List.Forall₂ Alike ts ts') :
    Answers Alike (checkSolved source ts) (checkSolved source ts') := by
  have herror := unresolvedError_alike source h
  cases h with
  | nil => exact .error _
  | @cons t t' rest rest' ht hrest =>
    cases hrest with
    | nil =>
      simp only [checkSolved, ht.isResolved, herror]
      split
      · exact .ok ht
      · exact .error _
    | cons hu hrest =>
      simp only [checkSolved, herror]
      exact .error _

theorem finishEvents_alike (source : String) {t : Token C} {t' : Token D} (h : t.Alike t') :
    finishEvents source t = finishEvents source t' := by
  obtain ⟨kind, text, value⟩ := t
  obtain ⟨kind', text', value'⟩ := t'
  cases h.value with
  | none => rfl
  | some he => simp only [finishEvents, he.shape]

theorem alike_condense (source : String) (h : List.Forall₂ Alike ts ts') :
    (condense source ts).Alike Alike (condense source ts') := by
  simp only [condense, Alike.texts_eq h, Reduction.alike_trail source Reduction.pipeline h]
  refine (Logged.Alike.tell _).bind fun _ _ _ => ?_
  refine (Logged.Alike.tell _).bind fun _ _ _ => ?_
  have hsolved := alike_checkSolved source (Reduction.alike_applyAll Reduction.pipeline h)
  refine (Logged.Alike.ofExcept hsolved).bind fun t t' ht => ?_
  rw [finishEvents_alike source (ht.rename source)]
  exact (Logged.Alike.tell _).bind fun _ _ _ => .pure (ht.rename source)

theorem alike_compileGroups (h : List.Forall₂ Alike ts ts') :
    (compileGroups ts).Alike (List.Forall₂ Alike) (compileGroups ts') := by
  induction ts using groups_induction generalizing ts' with
  | nil =>
    cases h
    rw [compileGroups, compileGroups]
    exact .pure .nil
  | group t rest n hn ihinside ihbehind =>
    cases h with
    | @cons _ t' _ rest' ht hrest =>
      have hinside := List.forall₂_take (n + 1) hrest
      rw [compileGroups, compileGroups, ← groupLength_alike ht hrest, hn]
      simp only [← Alike.sourceText_eq hinside]
      refine (Logged.Alike.tell _).bind fun _ _ _ => ?_
      refine (ihinside hinside).bind fun groups groups' hgroups => ?_
      refine (alike_condense _ hgroups).bind fun value value' hvalue => ?_
      refine (ihbehind (List.forall₂_drop (n + 1) hrest)).bind fun others others' hothers => ?_
      exact .pure (.cons ht (.cons hvalue hothers))
  | single t rest hn ih =>
    cases h with
    | @cons _ t' _ rest' ht hrest =>
      rw [compileGroups, compileGroups, ← groupLength_alike ht hrest]
      split
      · exact absurd ‹_› (hn _)
      · exact (ih hrest).bind fun others others' hothers => .pure (.cons ht hothers)

end Stages

section Schemas

variable {schema : Schema C} {other : Schema D}

theorem alike_resolveLeaf (source : String) (offset : Nat) {l : Lexeme}
    (h : l.kind = .identifier → (schema l.text).map Expr.shape = (other l.text).map Expr.shape) :
    Answers Token.Alike (resolveLeaf schema source offset (Token.ofLexeme l))
      (resolveLeaf other source offset (Token.ofLexeme l)) := by
  obtain ⟨kind, text⟩ := l
  cases kind with
  | identifier =>
    have hshape := h rfl
    simp only [resolveLeaf, Token.ofLexeme]
    cases hs : schema text with
    | none =>
      cases ho : other text with
      | none => exact .error _
      | some e' => simp [hs, ho] at hshape
    | some e =>
      cases ho : other text with
      | none => simp [hs, ho] at hshape
      | some e' =>
        have hshape : e.shape = e'.shape := by simpa [hs, ho] using hshape
        exact .ok (.resolved ⟨rfl, hshape⟩)
  | number =>
    simp only [resolveLeaf, Token.ofLexeme]
    split
    · exact .ok (.resolved ⟨rfl, rfl⟩)
    · exact .error _
  | _ => exact .ok (.ofLexeme _)

theorem alike_resolveLeaves (source : String) {ls : List Lexeme}
    (h : ∀ l ∈ ls, l.kind = .identifier →
      (schema l.text).map Expr.shape = (other l.text).map Expr.shape) :
    Answers (List.Forall₂ Token.Alike) (resolveLeaves schema source (ls.map Token.ofLexeme))
      (resolveLeaves other source (ls.map Token.ofLexeme)) := by
  have hfrom : ∀ (ls : List Lexeme) (offset : Nat), (∀ l ∈ ls, l.kind = .identifier →
      (schema l.text).map Expr.shape = (other l.text).map Expr.shape) →
      Answers (List.Forall₂ Token.Alike)
        (resolveLeavesFrom schema source offset (ls.map Token.ofLexeme))
        (resolveLeavesFrom other source offset (ls.map Token.ofLexeme)) := by
    intro ls
    induction ls with
    | nil => exact fun _ _ => .ok .nil
    | cons l rest ih =>
      intro offset h
      obtain ⟨hl, hrest⟩ := List.forall_mem_cons.1 h
      simp only [List.map_cons, resolveLeavesFrom]
      refine (alike_resolveLeaf source offset hl).bind fun leaf leaf' hleaf => ?_
      refine (ih _ hrest).bind fun leaves leaves' hleaves => ?_
      exact .ok (.cons hleaf hleaves)
  exact hfrom ls 0 h

theorem alike_compile {source : String}
    (h : ∀ l ∈ Lexeme.ofSource source, l.kind = .identifier →
      (schema l.text).map Expr.shape = (other l.text).map Expr.shape) :
    (compile schema source).Alike Expr.Alike (compile other source) := by
  simp only [compile, compileTokens, tokenize_stripBlanks]
  have htokens : List.Forall₂ Token.Alike
      ((Lexeme.ofSource source).map (Token.ofLexeme : Lexeme → Token C))
      ((Lexeme.ofSource source).map (Token.ofLexeme : Lexeme → Token D)) := by
    rw [List.forall₂_map_left_iff, List.forall₂_map_right_iff, List.forall₂_same]
    exact fun l _ => .ofLexeme l
  refine Logged.Alike.bind (R := Token.Alike) ?_ fun t t' ht => .ofExcept ?_
  · refine (Logged.Alike.tell _).bind fun _ _ _ => ?_
    rw [checkUnknown, checkUnknown, firstUnknown_alike 0 htokens]
    refine (Logged.Alike.ofExcept (.refl _)).bind fun _ _ _ => ?_
    refine (Logged.Alike.ofExcept (alike_resolveLeaves _ h)).bind fun leaves leaves' hl => ?_
    exact (alike_compileGroups hl).bind fun groups groups' hg => alike_condense _ hg
  · have herror := unresolvedError_alike (Text.stripBlanks source) (.cons ht .nil)
    obtain ⟨kind, text, value⟩ := t
    obtain ⟨kind', text', value'⟩ := t'
    simp only [tokenValue, herror]
    cases ht.value with
    | none => exact .error _
    | some he => exact .ok he

end Schemas

/-- Schemas that answer the same shapes for the identifiers of a text compile it with the same
log to the same error, or to the same name and shape, whatever else they know. -/
theorem compile_looks_at_shapes {schema : Schema C} {other : Schema D} {source : String}
    (h : ∀ l ∈ Lexeme.ofSource source, l.kind = .identifier →
      (schema l.text).map Expr.shape = (other l.text).map Expr.shape) :
    (compile schema source).log = (compile other source).log ∧
      (parse schema source).map (fun e => (e.name, e.shape)) =
        (parse other source).map fun e => (e.name, e.shape) := by
  obtain ⟨hlog, hresult⟩ := alike_compile h
  refine ⟨hlog, ?_⟩
  rw [parse, parse]
  revert hresult
  generalize (compile schema source).result = x
  generalize (compile other source).result = y
  intro hresult
  cases hresult with
  | ok he => exact congrArg Except.ok (Prod.ext he.name he.shape)
  | error e => rfl

theorem compile_looks_at_shapes_other_vector :
    let other : Schema Unit := fun _ => some (.vector "w" fun _ => .error (.missingColumn "w"))
    (∀ l ∈ Lexeme.ofSource "-v[0]*v", l.kind = .identifier →
      (VariableTable.ofColumn.schema l.text).map Expr.shape = (other l.text).map Expr.shape) ∧
    (compile VariableTable.ofColumn.schema "-v[0]*v").log = (compile other "-v[0]*v").log ∧
      (parse VariableTable.ofColumn.schema "-v[0]*v").map (fun e => (e.name, e.shape)) =
        (parse other "-v[0]*v").map fun e => (e.name, e.shape) := by
  intro other
  have hnames : ∀ l ∈ Lexeme.ofSource "-v[0]*v", l.kind = .identifier → l.text = "v" := by
    decide +kernel
  have h : ∀ l ∈ Lexeme.ofSource "-v[0]*v", l.kind = .identifier →
      (VariableTable.ofColumn.schema l.text).map Expr.shape = (other l.text).map Expr.shape := by
    intro l hl hk
    rw [hnames l hl hk]
    rfl
  exact ⟨h, compile_looks_at_shapes h⟩

end EventCuts
