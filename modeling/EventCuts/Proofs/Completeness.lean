import EventCuts.Proofs.Condensation

/-!
# What is derivable compiles

The brackets of a term match, so compiling the groups turns its leaves into the list that
the reductions start from. A derivable text compiles to the expression of its term.
-/

namespace EventCuts

variable {C : Type} {schema : Schema C}

def Balanced (ts : List (Token C)) : Prop :=
  ∀ b depth rest, 1 ≤ depth →
    closeOffset b depth (ts ++ rest) = (closeOffset b depth rest).map (· + ts.length)

namespace Balanced

variable {ts us : List (Token C)}

theorem single {t : Token C} (ho : ∀ b, t.kind ≠ .opening b) (hc : ∀ b, t.kind ≠ .closing b) :
    Balanced [t] := by
  intro b depth rest _
  simp [closeOffset, ho, hc]

theorem append (ht : Balanced ts) (hu : Balanced us) : Balanced (ts ++ us) := by
  intro b depth rest hd
  rw [List.append_assoc, ht b depth _ hd, hu b depth _ hd, Option.map_map, List.length_append]
  congr 1
  funext n
  simp only [Function.comp_apply]
  omega

theorem wrap (b : Bracket) (h : Balanced ts) :
    Balanced (Token.ofLexeme (.opening b) :: (ts ++ [Token.ofLexeme (.closing b)])) := by
  intro d depth rest hd
  have hlength : ∀ n, n + 1 + ts.length + 1 = n + (ts.length + 2) := by omega
  by_cases hb : b = d
  · subst hb
    have hdeep : ¬ depth + 1 ≤ 1 := by omega
    simp [closeOffset, Token.ofLexeme, h b (depth + 1) _ (by omega), hdeep, Function.comp_def,
      hlength]
  · simp [closeOffset, Token.ofLexeme, h d depth _ hd, hb, Function.comp_def, hlength]

end Balanced

theorem PrefixOp.balanced (op : PrefixOp) : Balanced [(Token.ofLexeme op.lexeme : Token C)] := by
  cases op <;> exact .single nofun nofun

theorem BinaryOp.balanced (op : BinaryOp) : Balanced [(Token.ofLexeme op.lexeme : Token C)] := by
  cases op <;> exact .single nofun nofun

namespace Term

theorem balanced_leaves (schema : Schema C) (t : Term) : Balanced (t.leaves schema) := by
  induction t with
  | number text => exact .single nofun nofun
  | name text => exact .single nofun nofun
  | group inner ih => exact ih.wrap .round
  | entry vector index ihv ihi => exact ihv.append (ihi.wrap .square)
  | prefixed op operand ih => exact op.balanced.append ih
  | binary op left right ihl ihr => exact ihl.append (op.balanced.append ihr)

theorem leaves_ne_nil (schema : Schema C) (t : Term) : t.leaves schema ≠ [] := by
  cases t <;> simp [leaves]

theorem map_text_leaves (schema : Schema C) (t : Term) :
    (t.leaves schema).map Token.text = t.lexemes.map Lexeme.text := by
  induction t with
  | number s => rfl
  | name s => exact congrArg (fun text => [text]) (name_expr (t := .name s) rfl schema)
  | group inner ih => simp [leaves, lexemes, ih, Token.ofLexeme]
  | entry vector index ihv ihi => simp [leaves, lexemes, ihv, ihi, Token.ofLexeme]
  | prefixed op operand ih => simp [leaves, lexemes, ih, Token.ofLexeme]
  | binary op left right ihl ihr => simp [leaves, lexemes, ihl, ihr, Token.ofLexeme]

theorem sourceText_leaves (schema : Schema C) (t : Term) :
    Token.sourceText (t.leaves schema) = t.text := by
  rw [Token.sourceText, map_text_leaves, join_lexemes]

end Term

def Groups (ts out : List (Token C)) : Prop :=
  ∀ rest others, (compileGroups rest).result = .ok others →
    (compileGroups (ts ++ rest)).result = .ok (out ++ others)

namespace Groups

variable {ts us out outs : List (Token C)}

theorem single {t : Token C} (ht : ∀ b, t.kind ≠ .opening b) : Groups [t] [t] := by
  intro rest others h
  have hn : ∀ n, groupLength t rest ≠ some (n + 1) := by
    intro n hs
    cases hk : t.kind with
    | opening b => exact ht b hk
    | _ => simp [groupLength, hk] at hs
  exact (compileGroups_single_iff hn).2 ⟨others, h, rfl⟩

theorem append (ht : Groups ts out) (hu : Groups us outs) : Groups (ts ++ us) (out ++ outs) := by
  intro rest others h
  rw [List.append_assoc, List.append_assoc]
  exact ht _ _ (hu rest others h)

theorem wrap (b : Bracket) (hts : ts ≠ []) (hb : Balanced ts) (h : Groups ts out) {e : Expr C}
    (he : Reduction.applyAll Reduction.pipeline out = [Token.resolved e]) :
    Groups (Token.ofLexeme (.opening b) :: (ts ++ [Token.ofLexeme (.closing b)]))
      [Token.ofLexeme (.opening b), Token.resolved (e.rename (Token.sourceText ts)),
        Token.ofLexeme (.closing b)] := by
  intro rest others hrest
  have hclose : (compileGroups (Token.ofLexeme (.closing b) :: rest)).result =
      .ok (Token.ofLexeme (.closing b) :: others) :=
    single (by simp [Token.ofLexeme]) rest others hrest
  obtain ⟨n, hn⟩ : ∃ n, ts.length = n + 1 :=
    ⟨ts.length - 1, by have := List.length_pos_iff.2 hts; omega⟩
  have hlength : groupLength (Token.ofLexeme (.opening b))
      (ts ++ Token.ofLexeme (.closing b) :: rest) = some (n + 1) := by
    simp [groupLength, Token.ofLexeme, hb b 1 _ (Nat.le_refl 1), closeOffset, hn]
  have hout : (compileGroups ts).result = .ok out := by
    have hnil := h [] [] compileGroups_nil_result
    rwa [List.append_nil, List.append_nil] at hnil
  rw [List.cons_append, List.append_assoc, List.singleton_append, compileGroups_group_iff hlength]
  refine ⟨out, Token.resolved (e.rename (Token.sourceText ts)), _, ?_, ?_, ?_, rfl⟩
  · rwa [← hn, List.take_left]
  · rw [← hn, List.take_left, condense_ok_iff]
    exact ⟨_, he, rfl, rfl⟩
  · rwa [← hn, List.drop_left]

end Groups

theorem groups_leaves {level : Level} {t : Term} {ls : List Lexeme}
    (h : Derives schema level t ls) : Groups (t.leaves schema) (t.tokens schema false 0) := by
  induction h with
  | number text => exact .single nofun
  | name he => exact .single nofun
  | @group t _ hd ih =>
    have hw := ih.wrap .round (t.leaves_ne_nil schema) (t.balanced_leaves schema)
      (Reduction.applyAll_tokens hd)
    rwa [Term.sourceText_leaves] at hw
  | @entry v i _ _ _ hdi _ _ ihv ihi =>
    have hw := ihi.wrap .square (i.leaves_ne_nil schema) (i.balanced_leaves schema)
      (Reduction.applyAll_tokens hdi)
    rw [Term.sourceText_leaves] at hw
    exact ihv.append hw
  | prefixed op _ ih =>
    exact (Groups.single op.kind_ne_opening).append ih
  | binary op _ _ _ ihl ihr =>
    exact ihl.append ((Groups.single op.kind_ne_opening).append ihr)
  | loosen level _ ih => exact ih

def Readable (ls : List Lexeme) : Prop :=
  ∀ l ∈ ls, l.kind = .number → (readNumber l.text).isSome

instance (ls : List Lexeme) : Decidable (Readable ls) :=
  inferInstanceAs (Decidable (∀ l ∈ ls, l.kind = .number → (readNumber l.text).isSome))

theorem Readable.of_append {ls ms : List Lexeme} (h : Readable (ls ++ ms)) :
    Readable ls ∧ Readable ms :=
  List.forall_mem_append.1 h

theorem leaf?_leaves {level : Level} {t : Term} {ls : List Lexeme}
    (h : Derives schema level t ls) (hr : Readable ls) :
    List.Forall₂ (fun l u => leaf? schema l = some u) ls (t.leaves schema) := by
  have hbracket : ∀ b, leaf? schema (.opening b) = some (Token.ofLexeme (.opening b)) ∧
      leaf? schema (.closing b) = some (Token.ofLexeme (.closing b)) := by
    intro b
    cases b <;> exact ⟨rfl, rfl⟩
  induction h with
  | number text =>
    obtain ⟨x, hx⟩ := Option.isSome_iff_exists.1 (hr ⟨.number, text⟩ (by simp) rfl)
    refine .cons ?_ .nil
    simp [leaf?, hx, Term.expr]
  | name he =>
    refine .cons ?_ .nil
    simp [leaf?, he, Term.expr]
  | group _ ih =>
    obtain ⟨hin, _⟩ := Readable.of_append (List.forall_mem_cons.1 hr).2
    exact .cons (hbracket _).1 (List.rel_append (ih hin) (.cons (hbracket _).2 .nil))
  | entry _ _ _ _ ihv ihi =>
    obtain ⟨hv, hrest⟩ := Readable.of_append hr
    obtain ⟨hi, _⟩ := Readable.of_append (List.forall_mem_cons.1 hrest).2
    exact List.rel_append (ihv hv)
      (.cons (hbracket _).1 (List.rel_append (ihi hi) (.cons (hbracket _).2 .nil)))
  | prefixed op _ ih =>
    have hop : leaf? schema op.lexeme = some (Token.ofLexeme op.lexeme) := by cases op <;> rfl
    exact .cons hop (ih (List.forall_mem_cons.1 hr).2)
  | binary op _ _ _ ihl ihr =>
    have hop : leaf? schema op.lexeme = some (Token.ofLexeme op.lexeme) := by cases op <;> rfl
    obtain ⟨hl, hrest⟩ := Readable.of_append hr
    exact List.rel_append (ihl hl) (.cons hop (ihr (List.forall_mem_cons.1 hrest).2))
  | loosen level _ ih => exact ih hr

theorem Derives.kind_ne_unknown {level : Level} {t : Term} {ls : List Lexeme}
    (h : Derives schema level t ls) : ∀ l ∈ ls, l.kind ≠ .unknown := by
  induction h with
  | number text => simp
  | name he => simp
  | group _ ih => simpa [or_imp, forall_and] using ih
  | entry _ _ _ _ ihv ihi => simpa [or_imp, forall_and] using ⟨ihv, ihi⟩
  | prefixed op _ ih =>
    have hop : op.lexeme.kind ≠ .unknown := by cases op <;> nofun
    exact List.forall_mem_cons.2 ⟨hop, ih⟩
  | binary op _ _ _ ihl ihr =>
    have hop : op.lexeme.kind ≠ .unknown := by cases op <;> nofun
    exact List.forall_mem_append.2 ⟨ihl, List.forall_mem_cons.2 ⟨hop, ihr⟩⟩
  | loosen level _ ih => exact ih

theorem parse_of_derives {source : String} {t : Term}
    (h : Derives schema .disjunction t (Lexeme.ofSource source))
    (hr : Readable (Lexeme.ofSource source)) :
    parse schema source = .ok ((t.expr schema).rename (Text.stripBlanks source)) := by
  have hgroups := groups_leaves h [] [] compileGroups_nil_result
  rw [List.append_nil, List.append_nil] at hgroups
  exact (parse_ok_iff _ _ _).2 ⟨h.kind_ne_unknown, _, _, _, _, leaf?_leaves h hr, hgroups,
    Reduction.applyAll_tokens h, rfl, rfl, rfl⟩

end EventCuts
