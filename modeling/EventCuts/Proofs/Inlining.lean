import EventCuts.Proofs.Acceptance
import EventCuts.Proofs.Agreement
import EventCuts.Proofs.Lexing
import EventCuts.Proofs.Nesting

/-!
# Inlining a variable

A variable that was compiled from a text can be replaced by that text in parentheses. The
replaced text has the lexemes of both, a term is derived with the variable exactly if one is
derived with the group in its place, and the two agree.
-/

namespace EventCuts

variable {C : Type}

def Lexeme.inlineAt (d : String) (defn : List Lexeme) (l : Lexeme) : List Lexeme :=
  if l = ⟨.identifier, d⟩ then opening .round :: (defn ++ [closing .round]) else [l]

/-- The text with its blanks removed, and every mention of the name replaced. -/
def inlined (d defn source : String) : String :=
  String.join ((Lexeme.ofSource source).map fun l =>
    if l = ⟨.identifier, d⟩ then "(" ++ Text.stripBlanks defn ++ ")" else l.text)

def Term.inline (t : Term) (d : String) (defn : Term) : Term :=
  match t with
  | number text => number text
  | name text => if text = d then group defn else name text
  | group inner => group (inner.inline d defn)
  | entry vector index => entry (vector.inline d defn) (index.inline d defn)
  | prefixed op operand => prefixed op (operand.inline d defn)
  | binary op left right => binary op (left.inline d defn) (right.inline d defn)

namespace Lexeme

variable {d : String} {ds ls ms : List Lexeme} {l : Lexeme}

theorem flatMap_inlineAt_cons (h : ls.flatMap (inlineAt d ds) = l :: ms)
    (hl : l.kind ≠ .opening .round) :
    ∃ rest, ls = l :: rest ∧ l ≠ ⟨.identifier, d⟩ ∧ rest.flatMap (inlineAt d ds) = ms := by
  cases ls with
  | nil => cases h
  | cons x rest =>
    rw [List.flatMap_cons, inlineAt] at h
    by_cases hx : x = ⟨.identifier, d⟩
    · rw [if_pos hx, List.cons_append] at h
      exact absurd (congrArg kind (List.cons.inj h).1.symm) hl
    · rw [if_neg hx, List.singleton_append] at h
      obtain ⟨rfl, hrest⟩ := List.cons.inj h
      exact ⟨rest, rfl, hx, hrest⟩

theorem flatMap_inlineAt_group (h : ls.flatMap (inlineAt d ds) = opening .round :: ms) :
    ∃ rest, ls = opening .round :: rest ∧ rest.flatMap (inlineAt d ds) = ms ∨
      ls = ⟨.identifier, d⟩ :: rest ∧
        ds ++ closing .round :: rest.flatMap (inlineAt d ds) = ms := by
  cases ls with
  | nil => cases h
  | cons x rest =>
    rw [List.flatMap_cons, inlineAt] at h
    by_cases hx : x = ⟨.identifier, d⟩
    · rw [if_pos hx, List.cons_append, List.append_assoc] at h
      exact ⟨rest, .inr ⟨by rw [hx], (List.cons.inj h).2⟩⟩
    · rw [if_neg hx, List.singleton_append] at h
      obtain ⟨rfl, hrest⟩ := List.cons.inj h
      exact ⟨rest, .inl ⟨rfl, hrest⟩⟩

theorem flatMap_inlineAt_nil (h : ls.flatMap (inlineAt d ds) = []) : ls = [] := by
  cases ls with
  | nil => rfl
  | cons x rest =>
    rw [List.flatMap_cons, inlineAt] at h
    split at h <;> cases h

theorem flatMap_inlineAt_append (hds : Nested ds) (hms : Nested ms) {rest : List Lexeme}
    (h : ls.flatMap (inlineAt d ds) = ms ++ rest) :
    ∃ as bs, ls = as ++ bs ∧ as.flatMap (inlineAt d ds) = ms ∧
      bs.flatMap (inlineAt d ds) = rest := by
  rw [List.flatMap_def, List.flatten_eq_append_iff] at h
  rcases h with ⟨xs, ys, hmap, rfl, rfl⟩ | ⟨xs, front, c, back, ys, hmap, rfl, rfl⟩
  · obtain ⟨as, bs, rfl, rfl, rfl⟩ := List.map_eq_append_iff.1 hmap
    exact ⟨as, bs, rfl, rfl, rfl⟩
  · obtain ⟨as, bs, rfl, rfl, hcons⟩ := List.map_eq_append_iff.1 hmap
    obtain ⟨l, bs, rfl, hl, rfl⟩ := List.map_eq_cons_iff.1 hcons
    cases front with
    | nil => exact ⟨as, l :: bs, rfl, (List.append_nil _).symm, by rw [List.flatMap_cons, hl]; rfl⟩
    | cons o front =>
      exfalso
      unfold inlineAt at hl
      split at hl
      · obtain ⟨rfl, hgroup⟩ := List.cons.inj hl
        have hfront : ∃ q, ds = front ++ q := by
          rcases List.append_eq_append_iff.1 hgroup with ⟨more, hfront, hclose⟩ | ⟨q, hq, _⟩
          · cases more with
            | nil => exact ⟨[], by rw [hfront, List.append_nil, List.append_nil]⟩
            | cons m more => simp at hclose
          · exact ⟨q, hq⟩
        obtain ⟨q, hq⟩ := hfront
        have hdepth := hms.whole
        have hbefore := hms.front _ _ rfl
        have hinside := hds.front front q hq
        have hopen : (opening .round).kind.rise = 1 := rfl
        rw [← List.flatMap_def] at hdepth hbefore
        rw [depth_append, depth_cons, hopen] at hdepth
        omega
      · simp at hl

end Lexeme

/-- In the extended schema the name stands for what the term does, and nothing else is new. -/
structure Defines (schema extended : Schema C) (d : String) (t : Term) (ls : List Lexeme) :
    Prop where
  lookup : ∃ e, extended d = some e ∧ e.Agrees (t.expr schema)
  other : ∀ name, name ≠ d → extended name = schema name
  derives : Derives schema .disjunction t ls
  shape : ∀ u, Derives schema .disjunction u ls → u.shape schema = t.shape schema

namespace Defines

variable {schema extended : Schema C} {d : String} {defn : Term} {ds : List Lexeme}
  (hdef : Defines schema extended d defn ds) {level : Level} {t : Term} {ls : List Lexeme}

include hdef

theorem shape_inline (t : Term) : (t.inline d defn).shape schema = t.shape extended := by
  induction t with
  | number text => rfl
  | name text =>
    by_cases ht : text = d
    · obtain ⟨e, he, hagrees⟩ := hdef.lookup
      have hs : e.shape = defn.shape schema := hagrees.shape_eq.trans hdef.derives.shape_expr
      simp [Term.inline, Term.shape, ht, he, hs]
    · simp [Term.inline, Term.shape, ht, hdef.other text ht]
  | group inner ih => exact ih
  | entry vector index _ _ => rfl
  | prefixed op operand ih => exact ih
  | binary op left right ihl ihr => simp only [Term.inline, Term.shape, ihl, ihr]

theorem agrees (h : Derives extended level t ls) :
    (t.expr extended).Agrees ((t.inline d defn).expr schema) := by
  induction h with
  | number text => exact Payload.Agrees.refl _
  | @name text e he =>
    by_cases ht : text = d
    · subst ht
      obtain ⟨e', he', hagrees⟩ := hdef.lookup
      obtain rfl : e = e' := Option.some.inj (he.symm.trans he')
      simp only [Term.expr, he, Term.inline, if_pos]
      exact hagrees
    · have hsame : schema text = some e := (hdef.other text ht).symm.trans he
      simp only [Term.expr, he, Term.inline, if_neg ht, hsame]
      exact Payload.Agrees.refl _
  | group _ ih => exact ih.rename _ _
  | @entry v i _ _ hdv hdi hv hi ihv ihi =>
    have hvs := hdv.shape_expr.trans hv
    have his := hdi.shape_expr.trans hi
    obtain ⟨a, ha, _⟩ := Expr.exists_subscript (i := (i.expr extended).rename i.text) hvs his
    obtain ⟨b, hb, _⟩ := Expr.exists_subscript
      (i := ((i.inline d defn).expr schema).rename (i.inline d defn).text)
      (ihv.shape_eq.symm.trans hvs) (ihi.shape_eq.symm.trans his)
    simp only [Term.expr, ha, Term.inline, hb]
    exact (ihv.subscript (ihi.rename _ _) ha hb).rename _ _
  | prefixed op _ ih => exact ih.unary op
  | binary op _ _ _ ihl ihr => exact ihl.binary op ihr
  | loosen level _ ih => exact ih

theorem derives_inline (h : Derives extended level t ls) :
    Derives schema level (t.inline d defn) (ls.flatMap (Lexeme.inlineAt d ds)) := by
  induction h with
  | number text => exact .number text
  | @name text e he =>
    by_cases ht : text = d
    · subst ht
      simp only [Term.inline, if_pos, List.flatMap_cons, Lexeme.inlineAt, List.flatMap_nil,
        List.append_nil]
      exact .group hdef.derives
    · have hl : (⟨.identifier, text⟩ : Lexeme) ≠ ⟨.identifier, d⟩ := by simp [ht]
      simp only [Term.inline, if_neg ht, List.flatMap_cons, Lexeme.inlineAt, if_neg hl,
        List.flatMap_nil, List.append_nil]
      exact .name ((hdef.other text ht).symm.trans he)
  | group _ ih =>
    rw [List.flatMap_cons, List.flatMap_append]
    exact .group ih
  | @entry v i _ _ _ _ hv hi ihv ihi =>
    rw [List.flatMap_append, List.flatMap_cons, List.flatMap_append]
    exact .entry ihv ihi ((hdef.shape_inline v).trans hv) ((hdef.shape_inline i).trans hi)
  | prefixed op _ ih =>
    have hop : Lexeme.inlineAt d ds op.lexeme = [op.lexeme] := by cases op <;> rfl
    rw [List.flatMap_cons, hop]
    exact .prefixed op ih
  | binary op hop _ _ ihl ihr =>
    have hl : Lexeme.inlineAt d ds op.lexeme = [op.lexeme] := by cases op <;> rfl
    rw [List.flatMap_append, List.flatMap_cons, hl]
    exact .binary op hop ihl ihr
  | loosen level _ ih => exact .loosen level ih

theorem derives_of_inlined {u : Term} {ms : List Lexeme} (h : Derives schema level u ms)
    (hls : ls.flatMap (Lexeme.inlineAt d ds) = ms) :
    ∃ t, Derives extended level t ls ∧ t.shape extended = u.shape schema := by
  have hds := hdef.derives.nested
  -- On the derivation with the replacements: its nested parts cut the lexemes in front of it.
  induction h generalizing ls with
  | number text =>
    obtain ⟨rest, rfl, _, hrest⟩ := Lexeme.flatMap_inlineAt_cons hls (by simp)
    rw [Lexeme.flatMap_inlineAt_nil hrest]
    exact ⟨_, .number text, rfl⟩
  | @name text e he =>
    obtain ⟨rest, rfl, hne, hrest⟩ := Lexeme.flatMap_inlineAt_cons hls (by simp)
    rw [Lexeme.flatMap_inlineAt_nil hrest]
    have ht : text ≠ d := fun ht => hne (by rw [ht])
    have hsame := hdef.other text ht
    exact ⟨_, .name (hsame.trans he), by simp only [Term.shape, hsame]⟩
  | @group t ms hd ih =>
    obtain ⟨rest, ⟨rfl, hrest⟩ | ⟨rfl, hrest⟩⟩ := Lexeme.flatMap_inlineAt_group hls
    · obtain ⟨as, bs, rfl, has, hbs⟩ := Lexeme.flatMap_inlineAt_append hds hd.nested hrest
      obtain ⟨cs, rfl, _, hcs⟩ := Lexeme.flatMap_inlineAt_cons hbs (by simp)
      rw [Lexeme.flatMap_inlineAt_nil hcs]
      obtain ⟨t', ht, hs⟩ := ih has
      exact ⟨_, .group ht, hs⟩
    -- The group replaces the name itself, and closes where the replacement does.
    · obtain ⟨rfl, hnil⟩ := hds.closing_unique hd.nested hrest
      rw [Lexeme.flatMap_inlineAt_nil hnil]
      obtain ⟨e, he, hagrees⟩ := hdef.lookup
      refine ⟨_, .name he, ?_⟩
      have hs : e.shape = defn.shape schema := hagrees.shape_eq.trans hdef.derives.shape_expr
      simp only [Term.shape, he, Option.map_some, Option.getD_some, hs]
      exact (hdef.shape t hd).symm
  | @entry v i ls ms hdv hdi hv hi ihv ihi =>
    obtain ⟨as, bs, rfl, has, hbs⟩ := Lexeme.flatMap_inlineAt_append hds hdv.nested hls
    obtain ⟨cs, rfl, _, hcs⟩ := Lexeme.flatMap_inlineAt_cons hbs (by simp)
    obtain ⟨as', bs', rfl, has', hbs'⟩ := Lexeme.flatMap_inlineAt_append hds hdi.nested hcs
    obtain ⟨cs', rfl, _, hcs'⟩ := Lexeme.flatMap_inlineAt_cons hbs' (by simp)
    rw [Lexeme.flatMap_inlineAt_nil hcs']
    obtain ⟨v', hv', hvs⟩ := ihv has
    obtain ⟨i', hi', his⟩ := ihi has'
    exact ⟨_, .entry hv' hi' (hvs.trans hv) (his.trans hi), rfl⟩
  | prefixed op _ ih =>
    obtain ⟨rest, rfl, _, hrest⟩ := Lexeme.flatMap_inlineAt_cons hls (op.kind_ne_opening .round)
    obtain ⟨t', ht, hs⟩ := ih hrest
    exact ⟨_, .prefixed op ht, hs⟩
  | binary op hop hdl hdr ihl ihr =>
    obtain ⟨as, bs, rfl, has, hbs⟩ := Lexeme.flatMap_inlineAt_append hds hdl.nested hls
    obtain ⟨cs, rfl, _, hcs⟩ := Lexeme.flatMap_inlineAt_cons hbs (op.kind_ne_opening .round)
    obtain ⟨l', hl', hsl⟩ := ihl has
    obtain ⟨r', hr', hsr⟩ := ihr hcs
    exact ⟨_, .binary op hop hl' hr', by rw [Term.shape, Term.shape, hsl, hsr]⟩
  | loosen level _ ih =>
    obtain ⟨t', ht, hs⟩ := ih hls
    exact ⟨t', .loosen level ht, hs⟩

end Defines

namespace Lexeme

variable (d defn source : String)

theorem inlined_eq_join :
    inlined d defn source =
      String.join (((ofSource source).flatMap (inlineAt d (ofSource defn))).map text) := by
  apply String.toList_inj.1
  rw [toList_join, inlined, String.toList_join, List.flatMap_map, chars, List.flatMap_assoc]
  congr 1
  funext l
  by_cases hl : l = ⟨.identifier, d⟩
  · rw [if_pos hl, inlineAt, if_pos hl]
    have hinner := chars_ofSource defn
    simp only [chars] at hinner
    simp [opening, closing, hinner]
  · rw [if_neg hl, inlineAt, if_neg hl]
    simp

theorem respells_inlineAt (l : Lexeme) : Respells l (inlineAt d (ofSource defn) l) := by
  unfold Respells inlineAt
  split
  · exact .inr ⟨_, bracketed_wrap .round (lexed_ofSource defn), .inl rfl⟩
  · exact .inl rfl

theorem lexed_inlineAt : Lexed ((ofSource source).flatMap (inlineAt d (ofSource defn))) :=
  (Respelled.flatMap (respells_inlineAt d defn) _).lexed (lexed_ofSource source)

theorem ofSource_inlined :
    ofSource (inlined d defn source) =
      (ofSource source).flatMap (inlineAt d (ofSource defn)) := by
  rw [inlined_eq_join]
  refine (lexed_inlineAt d defn source).ofSource_join ?_
  intro c hc
  obtain ⟨m, hm, hc⟩ := List.mem_flatMap.1 hc
  obtain ⟨l, hl, hm⟩ := List.mem_flatMap.1 hm
  unfold inlineAt at hm
  split at hm
  · rcases List.mem_cons.1 hm with rfl | hm
    · exact not_blank_opening hc
    · rcases List.mem_append.1 hm with hm | hm
      · exact not_blank_of_mem_ofSource (List.mem_flatMap.2 ⟨m, hm, hc⟩)
      · rw [List.mem_singleton.1 hm] at hc
        exact not_blank_closing hc
  · rw [List.mem_singleton.1 hm] at hc
    exact not_blank_of_mem_ofSource (List.mem_flatMap.2 ⟨l, hl, hc⟩)

end Lexeme

theorem readable_inlined {ds : List Lexeme} (hds : Readable ds) (d : String) (ls : List Lexeme) :
    Readable (ls.flatMap (Lexeme.inlineAt d ds)) ↔ Readable ls := by
  constructor
  · intro h l hl hk
    have hne : l ≠ ⟨.identifier, d⟩ := by
      intro he
      rw [he] at hk
      cases hk
    refine h l (List.mem_flatMap.2 ⟨l, hl, ?_⟩) hk
    rw [Lexeme.inlineAt, if_neg hne]
    exact List.mem_singleton.2 rfl
  · intro h m hm hk
    obtain ⟨l, hl, hm⟩ := List.mem_flatMap.1 hm
    unfold Lexeme.inlineAt at hm
    split at hm
    · rcases List.mem_cons.1 hm with rfl | hm
      · cases hk
      · rcases List.mem_append.1 hm with hm | hm
        · exact hds m hm hk
        · rw [List.mem_singleton.1 hm] at hk
          cases hk
    · rw [List.mem_singleton.1 hm] at hk ⊢
      exact h l hl hk

theorem defines_of_parse {table : VariableTable C} {d source : String} {e : Expr C}
    (h : parse table.schema source = .ok e) :
    ∃ t, Defines table.schema (table.insert (e.rename d)).schema d t (Lexeme.ofSource source) := by
  obtain ⟨t, ht, _⟩ := derives_of_parse h
  have hlookup : ∀ name, (table.insert (e.rename d)).schema name =
      if name = d then some (e.rename d) else table.schema name :=
    fun name => VariableTable.get?_insert table (e.rename d) name
  obtain ⟨_, rfl⟩ := (parse_eq_ok_iff ht e).1 h
  refine ⟨t, ⟨_, (hlookup d).trans (if_pos rfl), Payload.Agrees.refl _⟩,
    fun name hne => (hlookup name).trans (if_neg hne), ht, ?_⟩
  intro u hu
  obtain ⟨_, he⟩ := (parse_eq_ok_iff hu _).1 h
  have hshape := congrArg Expr.shape he
  rw [← ht.shape_expr, ← hu.shape_expr]
  exact hshape.symm

/-- A derived variable means what its text in parentheses means in its place. -/
theorem parse_inlined (table : VariableTable C) (d defn : String) {e : Expr C}
    (h : parse table.schema defn = .ok e) (source : String) :
    ((∃ a, parse (table.insert (e.rename d)).schema source = .ok a) ↔
        ∃ b, parse table.schema (inlined d defn source) = .ok b) ∧
      ∀ a b, parse (table.insert (e.rename d)).schema source = .ok a →
        parse table.schema (inlined d defn source) = .ok b →
        a.shape = b.shape ∧ ∀ c, Agrees (a.eval c) (b.eval c) := by
  obtain ⟨t, hdef⟩ := defines_of_parse (d := d) h
  have hreadable := readable_inlined (readable_of_parse h) d (Lexeme.ofSource source)
  rw [← Lexeme.ofSource_inlined] at hreadable
  refine ⟨⟨?_, ?_⟩, ?_⟩
  · intro ⟨a, ha⟩
    obtain ⟨u, hu, _⟩ := derives_of_parse ha
    have hinlined := hdef.derives_inline hu
    rw [← Lexeme.ofSource_inlined] at hinlined
    exact ⟨_, parse_of_derives hinlined (hreadable.2 (readable_of_parse ha))⟩
  · intro ⟨b, hb⟩
    obtain ⟨v, hv, _⟩ := derives_of_parse hb
    obtain ⟨u, hu, _⟩ := hdef.derives_of_inlined hv (Lexeme.ofSource_inlined d defn source).symm
    exact ⟨_, parse_of_derives hu (hreadable.1 (readable_of_parse hb))⟩
  · intro a b ha hb
    obtain ⟨u, hu, _⟩ := derives_of_parse ha
    have hinlined := hdef.derives_inline hu
    rw [← Lexeme.ofSource_inlined] at hinlined
    obtain ⟨_, rfl⟩ := (parse_eq_ok_iff hu a).1 ha
    obtain ⟨_, rfl⟩ := (parse_eq_ok_iff hinlined b).1 hb
    have hagrees := (hdef.agrees hu).rename (Text.stripBlanks source)
      (Text.stripBlanks (inlined d defn source))
    exact ⟨hagrees.shape_eq, hagrees.eval⟩

theorem parse_inlined_doubled :
    ∃ e : Expr (List Float), parse VariableTable.ofColumn.schema "2*v" = .ok e ∧
      ((∃ a, parse (VariableTable.ofColumn.insert (e.rename "w")).schema "w[0] < 1" = .ok a) ↔
        ∃ b, parse VariableTable.ofColumn.schema (inlined "w" "2*v" "w[0] < 1") = .ok b) ∧
      ∀ a b, parse (VariableTable.ofColumn.insert (e.rename "w")).schema "w[0] < 1" = .ok a →
        parse VariableTable.ofColumn.schema (inlined "w" "2*v" "w[0] < 1") = .ok b →
        a.shape = b.shape ∧ ∀ c, Agrees (a.eval c) (b.eval c) := by
  have hd : Derives VariableTable.ofColumn.schema .disjunction
      (.binary .mul (.number "2") (.name "v")) (Lexeme.ofSource "2*v") := by
    have hlexemes : Lexeme.ofSource "2*v" =
        [⟨.number, "2"⟩, BinaryOp.mul.lexeme, ⟨.identifier, "v"⟩] := by
      decide +kernel
    rw [hlexemes]
    exact (Derives.binary .mul rfl ((Derives.number "2").mono (Nat.zero_le 3))
      (derives_column .signed)).disjunction
  have hr : Readable (Lexeme.ofSource "2*v") := by
    decide +kernel
  have hparse := parse_of_derives hd hr
  exact ⟨_, hparse, parse_inlined VariableTable.ofColumn "w" "2*v" hparse "w[0] < 1"⟩

end EventCuts
