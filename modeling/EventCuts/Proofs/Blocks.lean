import EventCuts.Proofs.Blame

/-!
# The blocks of a log

The log of a text that compiles is nested as its brackets are: between the heading of a text and
the passes over it stand the blocks of its groups. So every pair of brackets is solved once, and
the headings are the insides of the pairs, in the order in which they open.
-/

namespace EventCuts

variable {C : Type} {schema : Schema C} {tokens groups : List (Token C)} {e : Expr C}

inductive Blocks where
  | none
  | block (head : String) (groups : Blocks) (passes : List (String × List String)) (shape : Shape)
      (behind : Blocks)
deriving DecidableEq, Repr

namespace Blocks

def lines : Blocks → List LogEvent
  | none => []
  | block head groups passes shape behind =>
    .started head :: (groups.lines ++ (passes.map fun (pass, texts) => .passed head pass texts) ++
      .finished head shape :: behind.lines)

def heads : Blocks → List String
  | none => []
  | block head groups _ _ behind => head :: (groups.heads ++ behind.heads)

end Blocks

def passNames : List String :=
  ["groupings", "parentheses", "subscripts", "plus/minus", "unary"] ++ List.replicate 6 "binary"

/-- There is one block for every pair of brackets, in the order of the brackets, and the blocks of
the pairs inside of it stand in it. -/
inductive Covers (schema : Schema C) : List (Token C) → Blocks → Prop
  | nil : Covers schema [] .none
  | group {opener closer : Token C} {inside back : List (Token C)} {groups behind : Blocks}
      {passes : List (String × List String)} {e : Expr C} :
      Encloses opener inside closer → inside ≠ [] → Covers schema inside groups →
      passes.map Prod.fst = passNames → parse schema (Token.sourceText inside) = .ok e →
      Covers schema back behind →
      Covers schema (opener :: (inside ++ closer :: back))
        (.block (Token.sourceText inside) groups passes e.shape behind)
  | single {t : Token C} {rest : List (Token C)} {blocks : Blocks} :
      (∀ b, t.kind ≠ .opening b) → Covers schema rest blocks → Covers schema (t :: rest) blocks

def innerTexts (tokens : List (Token C)) : List String :=
  (List.range tokens.length).filterMap fun i =>
    (findClose tokens i).map fun j => Token.sourceText (tokens.extract (i + 1) j)

theorem innerTexts_cons (t : Token C) (rest : List (Token C)) :
    innerTexts (t :: rest) =
      ((groupLength t rest).map fun n => Token.sourceText (rest.take n)).toList ++
        innerTexts rest := by
  have hfirst : (findClose (t :: rest) 0).map
      (fun j => Token.sourceText ((t :: rest).extract (0 + 1) j)) =
        (groupLength t rest).map fun n => Token.sourceText (rest.take n) := by
    rw [findClose, List.drop_zero, Option.map_map]
    congr 1
    funext n
    simp [Nat.add_comm]
  have hnext : ∀ i, (findClose (t :: rest) (i + 1)).map
      (fun j => Token.sourceText ((t :: rest).extract (i + 1 + 1) j)) =
        (findClose rest i).map fun j => Token.sourceText (rest.extract (i + 1) j) := by
    intro i
    simp only [findClose, List.drop_succ_cons]
    cases rest.drop i with
    | nil => rfl
    | cons u more =>
      simp only [Option.map_map]
      congr 1
      funext n
      simp [Nat.add_right_comm]
  rw [innerTexts, List.length_cons, List.range_succ_eq_map, List.filterMap_cons, hfirst,
    List.filterMap_map]
  simp only [Function.comp_def, Nat.succ_eq_add_one, hnext]
  cases groupLength t rest <;> rfl

theorem innerTexts_append {front : List (Token C)} (h : Paired front) (back : List (Token C)) :
    innerTexts (front ++ back) = innerTexts front ++ innerTexts back := by
  induction front with
  | nil => rfl
  | cons t rest ih =>
    have hrest : Paired rest := h.of_suffix (List.suffix_cons t rest)
    rw [List.cons_append, innerTexts_cons, innerTexts_cons, ih hrest, List.append_assoc]
    by_cases ht : ∃ b, t.kind = .opening b
    · rcases ht with ⟨b, hb⟩
      rcases h [] t rest b rfl hb with ⟨inside, closer, behind, rfl, _, henc⟩
      have hshort := groupLength_eq_some_iff.2 ⟨inside, closer, behind, rfl, rfl, henc⟩
      have hlong := groupLength_eq_some_iff.2 ⟨inside, closer, behind ++ back, rfl, rfl, henc⟩
      rw [List.append_assoc, List.cons_append, hshort, hlong]
      simp
    · rw [not_exists] at ht
      rw [groupLength_of_not_opening ht, groupLength_of_not_opening ht]
      rfl

namespace Covers

variable {blocks : Blocks}

theorem paired (h : Covers schema tokens blocks) : Paired tokens := by
  induction h with
  | nil => exact .nil
  | group henc hne _ _ _ _ ihinside ihback => exact .group henc hne ihinside ihback
  | single ht _ ih => exact .cons ht ih

theorem heads_eq (h : Covers schema tokens blocks) : blocks.heads = innerTexts tokens := by
  induction h with
  | nil => rfl
  | @group opener closer inside back groups behind passes e henc hne hinside _ _ _ ihinside
      ihback =>
    have hn := groupLength_eq_some_iff.2 ⟨inside, closer, back, rfl, rfl, henc⟩
    rw [Blocks.heads, ihinside, ihback, innerTexts_cons, hn, innerTexts_append hinside.paired,
      innerTexts_cons, henc.groupLength_closer]
    simp
  | single ht _ ih =>
    rw [innerTexts_cons, groupLength_of_not_opening ht, ih]
    rfl

theorem length_heads (h : Covers schema tokens blocks) :
    blocks.heads.length = opened .round tokens + opened .square tokens := by
  induction h with
  | nil => rfl
  | @group opener closer _ _ _ _ _ _ henc _ _ _ _ _ ihinside ihback =>
    rcases henc with ⟨b, ho, hc, _⟩
    have hopener : opened .round [opener] + opened .square [opener] = 1 := by
      cases b <;> simp [opened, ho]
    have hcloser : ∀ d, opened d [closer] = 0 := by
      intro d
      simp [opened, hc]
    rw [Blocks.heads, List.length_cons, List.length_append, ihinside, ihback]
    rw [opened_cons .round opener, opened_append, opened_cons .round closer, hcloser,
      opened_cons .square opener, opened_append, opened_cons .square closer, hcloser]
    omega
  | @single t _ _ ht _ ih =>
    have hnone : ∀ d, opened d [t] = 0 := by
      intro d
      simp [opened, ht]
    rw [ih, opened_cons .round, opened_cons .square, hnone, hnone, Nat.zero_add, Nat.zero_add]

theorem of_leaves {ls : List Lexeme} (h : Covers schema tokens blocks)
    (hleaves : Leaves schema ls tokens) :
    Covers schema (ls.map (Token.ofLexeme (C := C))) blocks := by
  induction h generalizing ls with
  | nil =>
    rw [List.forall₂_nil_right_iff.1 hleaves]
    exact .nil
  | @group opener closer inside back groups behind passes e henc hne _ hpasses he _ ihinside
      ihback =>
    rcases List.forall₂_cons_right_iff.1 hleaves with ⟨lo, rest, hlo, hrest, rfl⟩
    have hin : Leaves schema (rest.take inside.length) inside :=
      List.forall₂_take_append rest inside (closer :: back) hrest
    have hclosing := List.forall₂_drop_append rest inside (closer :: back) hrest
    rcases List.forall₂_cons_right_iff.1 hclosing with ⟨lc, lb, hlc, hback, hdrop⟩
    have hsplit : rest = rest.take inside.length ++ lc :: lb := by
      rw [← hdrop, List.take_append_drop]
    have hpair : Leaves schema (rest.take inside.length ++ [lc]) (inside ++ [closer]) :=
      List.rel_append hin (.cons hlc .nil)
    have hkinds : Encloses (Token.ofLexeme (C := C) lo)
        ((rest.take inside.length).map Token.ofLexeme) (Token.ofLexeme lc) := by
      rw [encloses_iff_groupLength, Leaves.groupLength_eq hlo.2 hpair] at henc
      rw [encloses_iff_groupLength, List.length_map, hin.length_eq]
      simpa using henc
    have htext : Token.sourceText ((rest.take inside.length).map (Token.ofLexeme (C := C))) =
        Token.sourceText inside := by
      rw [hin.sourceText_eq, Token.sourceText, List.map_map]
      rfl
    have hne' : (rest.take inside.length).map (Token.ofLexeme (C := C)) ≠ [] := by
      rw [ne_eq, ← List.length_eq_zero_iff, List.length_map, hin.length_eq, List.length_eq_zero_iff]
      exact hne
    rw [hsplit, List.map_cons, List.map_append, List.map_cons, ← htext]
    exact .group hkinds hne' (ihinside hin) hpasses (htext ▸ he) (ihback hback)
  | single ht _ ih =>
    rcases List.forall₂_cons_right_iff.1 hleaves with ⟨l, rest, hl, hrest, rfl⟩
    have hl' : ∀ b, (Token.ofLexeme l : Token C).kind ≠ .opening b :=
      fun b hb => ht b ((Leaves.kind_opening_iff hl.2 b).2 hb)
    exact .single hl' (ih hrest)

end Covers

theorem trail_map_fst (reductions : List Reduction) (tokens : List (Token C)) :
    (Reduction.trail reductions tokens).map Prod.fst = reductions := by
  induction reductions generalizing tokens with
  | nil => rfl
  | cons r rest ih => exact congrArg (r :: ·) (ih (r.apply tokens))

theorem log_compileLeaves (h : (compileLeaves tokens).result = .ok (Token.resolved e)) :
    ∃ (groups : List (Token C)) (passes : List (String × List String)),
      (compileGroups tokens).result = .ok groups ∧ passes.map Prod.fst = passNames ∧
      (compileLeaves tokens).log = .started (Token.sourceText tokens) ::
        ((compileGroups tokens).log ++
          (passes.map fun (pass, texts) => .passed (Token.sourceText tokens) pass texts) ++
          [.finished (Token.sourceText tokens) e.shape]) := by
  rw [result_compileLeaves] at h
  rcases bind_eq_ok h with ⟨groups, hgroups, hcondense⟩
  refine ⟨groups, ("groupings", groups.map Token.text) ::
    (Reduction.trail Reduction.pipeline groups).map
      fun done => (done.1.name, done.2.map Token.text),
    hgroups, ?_, ?_⟩
  · have hnames : ("groupings" :: Reduction.pipeline.map Reduction.name) = passNames := by decide
    rw [← hnames, ← trail_map_fst Reduction.pipeline groups, List.map_cons, List.map_map,
      List.map_map]
    rfl
  · rw [compileLeaves, Logged.tell_bind, Logged.bind_ok hgroups]
    cases hs : checkSolved (Token.sourceText tokens)
        (Reduction.applyAll Reduction.pipeline groups) with
    | error d =>
      rw [condense_of_unsolved hs] at hcondense
      cases hcondense
    | ok t =>
      rw [condense_of_solved hs] at hcondense ⊢
      rw [Except.ok.inj hcondense]
      simp [passEvents, finishEvents, Token.resolved, Function.comp_def]

theorem covers_compileGroups (h : OwnLeaves schema tokens) (hpaired : Paired tokens)
    (hgroups : (compileGroups tokens).result = .ok groups) :
    ∃ blocks, (compileGroups tokens).log = blocks.lines ∧ Covers schema tokens blocks := by
  induction tokens using pairs_induction generalizing groups with
  | nil =>
    rw [compileGroups]
    exact ⟨.none, rfl, .nil⟩
  | pair opener inside closer back henc hne ihinside ihback =>
    rcases (compileGroups_pair_ok_iff henc hne).1 hgroups with ⟨value, others, hvalue, ho, rfl⟩
    have hown : OwnLeaves schema inside := h.piece ⟨[opener], closer :: back, by simp⟩
    have hbehind : back <:+ opener :: (inside ++ closer :: back) :=
      ⟨opener :: (inside ++ [closer]), by simp⟩
    rcases hown.parse_ok hvalue with ⟨e, rfl, he⟩
    rcases log_compileLeaves hvalue with ⟨deeper, passes, hdeeper, hpasses, hlog⟩
    rcases ihinside hown (hown.paired he) hdeeper with ⟨inner, hinner, hcovers⟩
    rcases ihback (h.piece hbehind.isInfix) (hpaired.of_suffix hbehind) ho with
      ⟨behind, hlines, hcovered⟩
    refine ⟨.block (Token.sourceText inside) inner passes e.shape behind, ?_,
      .group henc hne hcovers hpasses he hcovered⟩
    rw [compileGroups_of_pair henc hne, Logged.bind_ok hvalue, Logged.bind_ok ho, hlog, hinner,
      hlines, Blocks.lines]
    simp [Logged.pure_eq]
  | single t rest hn ih =>
    rcases (compileGroups_single_iff hn).1 hgroups with ⟨others, ho, rfl⟩
    have ht : ∀ b, t.kind ≠ .opening b := by
      intro b hb
      rcases hpaired [] t rest b rfl hb with ⟨inside, closer, back, hrest, hne, henc⟩
      exact hne (lone_of_groupLength hn inside closer back hrest henc)
    rcases ih (h.piece (List.suffix_cons t rest).isInfix)
        (hpaired.of_suffix (List.suffix_cons t rest)) ho with ⟨blocks, hlines, hcovers⟩
    refine ⟨blocks, ?_, .single ht hcovers⟩
    rw [compileGroups_of_single hn, Logged.bind_ok ho, hlines]
    simp [Logged.pure_eq]

namespace Lexeme

theorem countP_opening {input : List Char} {l : Lexeme} (hl : l ∈ cut input)
    (hknown : l.kind ≠ .unknown) :
    l.text.toList.countP (fun c => c = '(' ∨ c = '[') =
      if l.kind = .opening .round ∨ l.kind = .opening .square then 1 else 0 := by
  have hnone : (∀ c ∈ l.text.toList, ¬ Ends c) →
      l.text.toList.countP (fun c => c = '(' ∨ c = '[') = 0 := by
    intro h
    rw [List.countP_eq_zero]
    intro c hc hopening
    rcases of_decide_eq_true hopening with rfl | rfl
    · exact h _ hc (by decide)
    · exact h _ hc (by decide)
  cases ruled_of_mem_cut hl hknown with
  | digraph hdigraph =>
    clear hl hknown hnone
    revert l
    decide
  | mark hmark =>
    clear hl hknown hnone
    revert l
    decide
  | named hname =>
    rw [hname.1, hnone]
    · rfl
    · intro c hc hends
      have hnot := hends.isNameChar
      rw [hname.isNameChar c hc] at hnot
      cases hnot
  | numeric hnumber =>
    rw [hnumber.1, hnone]
    · rfl
    · intro c hc hends
      have hnot := hends.uses
      rw [hnumber.uses c hc] at hnot
      cases hnot

theorem countP_chars {ls : List Lexeme} {input : List Char} (h : ∀ l ∈ ls, l ∈ cut input)
    (hknown : ∀ l ∈ ls, l.kind ≠ .unknown) :
    (chars ls).countP (fun c => c = '(' ∨ c = '[') =
      opened .round (ls.map (Token.ofLexeme (C := C))) +
        opened .square (ls.map (Token.ofLexeme (C := C))) := by
  induction ls with
  | nil => rfl
  | cons l ls ih =>
    rcases List.forall_mem_cons.1 h with ⟨hl, hls⟩
    rcases List.forall_mem_cons.1 hknown with ⟨hk, hks⟩
    have hhead : ∀ b, opened b ((l :: ls).map (Token.ofLexeme (C := C))) =
        opened b (ls.map (Token.ofLexeme (C := C))) + if l.kind = .opening b then 1 else 0 := by
      intro b
      simp [opened, List.countP_cons, Token.ofLexeme]
    rw [chars_cons, List.countP_append, ih hls hks, countP_opening hl hk, hhead, hhead]
    by_cases hround : l.kind = .opening .round
    · simp [hround]
      omega
    · by_cases hsquare : l.kind = .opening .square
      · simp [hsquare]
        omega
      · simp [hround, hsquare]

end Lexeme

theorem log_of_parse {source : String} (h : parse schema source = .ok e) :
    ∃ groups passes,
      (compile schema source).log =
        (Blocks.block (Text.stripBlanks source) groups passes e.shape .none).lines ∧
      passes.map Prod.fst = passNames ∧ Covers schema (tokenize C source) groups := by
  rcases compile_cases schema source with
    ⟨d, _, hcompile⟩ | ⟨leaves, hown, htext, hleaves, hcompile⟩
  · rw [parse, hcompile] at h
    cases h
  · rw [parse, hcompile] at h
    have hresult := hown.result_of_ok h
    rcases log_compileLeaves hresult with ⟨groups, passes, hgroups, hpasses, hlog⟩
    rcases covers_compileGroups hown (hown.paired h) hgroups with ⟨blocks, hlines, hcovers⟩
    refine ⟨blocks, passes, ?_, hpasses, hcovers.of_leaves hleaves⟩
    rw [hcompile, hown.log_compile, hlog, hlines, htext]
    simp [Blocks.lines]

theorem countP_of_parse {source : String} (h : parse schema source = .ok e) :
    (Text.stripBlanks source).toList.countP (fun c => c = '(' ∨ c = '[') =
      opened .round (tokenize C source) + opened .square (tokenize C source) := by
  rcases derives_of_parse h with ⟨t, ht, _⟩
  rw [← Lexeme.chars_ofSource]
  exact Lexeme.countP_chars (fun _ hl => hl) ht.kind_ne_unknown

theorem log_of_refused {source : String} {error : ParseError}
    (h : parse schema source = .error error) (hrefused : ¬ error.Unresolved) :
    (compile schema source).log = [.started (Text.stripBlanks source)] := by
  rcases compile_cases schema source with ⟨d, _, hcompile⟩ | ⟨leaves, hown, _, _, hcompile⟩
  · rw [hcompile]
  · rw [parse, hcompile] at h
    have hresult := hown.result_of_error h
    rw [result_compileLeaves] at hresult
    exact absurd (unresolved_of_groupValue hresult) hrefused

theorem log_of_unresolved {source remaining text : String} {span : Span}
    (h : parse schema source = .error (.unresolved remaining span text)) :
    ∃ front texts, (compile schema source).log = front ++ [.passed text "binary" texts] ∧
      remaining = Token.listText texts := by
  rcases culprit_of_parse h ⟨remaining, span, text, rfl⟩ with
    ⟨_, inner, front, _, _, _, hculprit, hlog⟩
  rcases hculprit.shows with ⟨_, _, before, texts, hremaining, hend⟩
  refine ⟨front ++ before, texts, ?_, hremaining⟩
  rw [hlog, hend, List.append_assoc]

/-- A text that compiles tells one block of itself, which holds one for each of its brackets. A
text with a lexeme that is refused tells nothing but its heading, and what is told of a text that
does not reduce to one value ends with the tokens that are left of the blamed text. -/
theorem compile_tells_blocks (schema : Schema C) (source : String) :
    (∀ e, parse schema source = .ok e → ∃ groups passes,
      let whole := Blocks.block (Text.stripBlanks source) groups passes e.shape .none
      (compile schema source).log = whole.lines ∧ passes.map Prod.fst = passNames ∧
        Covers schema (tokenize C source) groups ∧
        whole.heads = Text.stripBlanks source :: innerTexts (tokenize C source) ∧
        whole.heads.length =
          1 + (Text.stripBlanks source).toList.countP (fun c => c = '(' ∨ c = '[')) ∧
    (∀ error, parse schema source = .error error → ¬ error.Unresolved →
      (compile schema source).log = [.started (Text.stripBlanks source)]) ∧
    (∀ remaining span text, parse schema source = .error (.unresolved remaining span text) →
      ∃ front texts, (compile schema source).log = front ++ [.passed text "binary" texts] ∧
        remaining = Token.listText texts) := by
  refine ⟨?_, fun _ => log_of_refused, fun _ _ _ => log_of_unresolved⟩
  intro e he
  rcases log_of_parse he with ⟨groups, passes, hlog, hpasses, hcovers⟩
  refine ⟨groups, passes, hlog, hpasses, hcovers, ?_, ?_⟩
  · rw [Blocks.heads, hcovers.heads_eq, Blocks.heads, List.append_nil]
  · rw [Blocks.heads, List.length_cons, Blocks.heads, List.append_nil, hcovers.length_heads,
      countP_of_parse he, Nat.add_comm]

example : ((compile VariableTable.ofColumn.schema "( v )[0]").log.filter
    fun event => event.level = "debug").map LogEvent.message =
      ["parsing \"(v)[0]\"", "parsing \"v\"", "parsed \"v\" as vector expression",
        "parsing \"0\"", "parsed \"0\" as scalar expression",
        "parsed \"(v)[0]\" as scalar expression"] := by
  decide +kernel

end EventCuts
