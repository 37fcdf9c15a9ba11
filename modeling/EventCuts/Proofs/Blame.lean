import EventCuts.Proofs.Pieces

/-!
# Which part of a text is to blame

A text that does not reduce to one value is refused with the first of its groups whose inside does
not, or as a whole if all of them do. Nothing around the blamed text matters: its own groups
compile by themselves, and alone it is refused for the same reason.
-/

namespace EventCuts

variable {C : Type} {schema : Schema C} {tokens inside inner groups : List (Token C)}
  {source remaining text : String} {span : Span} {e : ParseError}

namespace Reduction

theorem trail_append (front back : List Reduction) (tokens : List (Token C)) :
    trail (front ++ back) tokens = trail front tokens ++ trail back (applyAll front tokens) := by
  induction front generalizing tokens with
  | nil => rfl
  | cons r front ih => exact congrArg _ (ih (r.apply tokens))

def beforeLast : List Reduction :=
  [parentheses, subscripts, signs, prefixes] ++ BinaryOp.precedence.dropLast.map operators

theorem trail_pipeline (tokens : List (Token C)) :
    trail pipeline tokens =
      trail beforeLast tokens ++ [(operators [.or], applyAll pipeline tokens)] := by
  have hsplit : pipeline = beforeLast ++ [operators [.or]] := rfl
  have hlast : applyAll pipeline tokens = (operators [.or]).apply (applyAll beforeLast tokens) := by
    simp only [hsplit, applyAll, List.foldl_append, List.foldl_cons, List.foldl_nil]
  rw [hlast, hsplit, trail_append]
  simp only [trail]

end Reduction

theorem checkSolved_error (h : checkSolved source tokens = .error e) :
    e = unresolvedError source tokens := by
  unfold checkSolved at h
  split at h
  · split at h
    · cases h
    · exact (Except.error.inj h).symm
  · exact (Except.error.inj h).symm

theorem condense_error (h : (condense source groups).result = .error e) :
    ∃ (reduced : List (Token C)) (front : List LogEvent), e = unresolvedError source reduced ∧
      (condense source groups).log =
        front ++ [.passed source "binary" (reduced.map Token.text)] := by
  cases hs : checkSolved source (Reduction.applyAll Reduction.pipeline groups) with
  | ok t =>
    rw [condense_of_solved hs] at h
    cases h
  | error d =>
    rw [condense_of_unsolved hs] at h ⊢
    obtain rfl : d = e := Except.error.inj h
    refine ⟨Reduction.applyAll Reduction.pipeline groups,
      .passed source "groupings" (groups.map Token.text) ::
        passEvents source (Reduction.trail Reduction.beforeLast groups), checkSolved_error hs, ?_⟩
    rw [Reduction.trail_pipeline, passEvents, List.map_append, List.map_singleton, passEvents,
      List.cons_append]
    simp only [Reduction.name]

/-- Its groups compile, but what they leave does not condense to one value. -/
def Culprit (inner : List (Token C)) (e : ParseError) : Prop :=
  ∃ groups, (compileGroups inner).result = .ok groups ∧
    (condense (Token.sourceText inner) groups).result = .error e

namespace Culprit

theorem result (h : Culprit inner e) : (compileLeaves inner).result = .error e := by
  rcases h with ⟨groups, hgroups, hcondense⟩
  rw [result_compileLeaves, groupValue, hgroups, Guarded.ok_bind, hcondense]

theorem shows (h : Culprit inner (.unresolved remaining span text)) :
    text = Token.sourceText inner ∧ span = ⟨0, text.utf8ByteSize⟩ ∧
      ∃ front texts, remaining = Token.listText texts ∧
        (compileLeaves inner).log = front ++ [.passed text "binary" texts] := by
  rcases h with ⟨groups, hgroups, hcondense⟩
  rcases condense_error hcondense with ⟨reduced, front, herror, hlog⟩
  obtain ⟨rfl, rfl, rfl⟩ : remaining = Token.listText (reduced.map Token.text) ∧
      span = ⟨0, (Token.sourceText inner).utf8ByteSize⟩ ∧ text = Token.sourceText inner :=
    ParseError.unresolved.inj herror
  refine ⟨rfl, rfl, .started (Token.sourceText inner) :: ((compileGroups inner).log ++ front),
    reduced.map Token.text, rfl, ?_⟩
  rw [compileLeaves, Logged.tell_bind, Logged.bind_ok hgroups, hlog]
  simp

end Culprit

theorem culprit_of_compileLeaves (h : (compileLeaves tokens).result = .error e)
    (hgroups : (compileGroups tokens).result = .error e →
      ∃ inner front, Inside tokens inner ∧ Culprit inner e ∧
        (compileGroups tokens).log = front ++ (compileLeaves inner).log) :
    ∃ inner front, Parsed tokens inner ∧ Culprit inner e ∧
      (compileLeaves tokens).log = front ++ (compileLeaves inner).log := by
  rw [result_compileLeaves] at h
  rcases bind_eq_error h with h | ⟨groups, hok, h⟩
  · rcases hgroups h with ⟨inner, front, hinside, hculprit, hlog⟩
    refine ⟨inner, .started (Token.sourceText tokens) :: front, .inr hinside, hculprit, ?_⟩
    rw [compileLeaves, Logged.tell_bind, Logged.bind_error h, hlog]
    rfl
  · exact ⟨tokens, [], .inl rfl, ⟨groups, hok, h⟩, rfl⟩

theorem culprit_of_compileGroups (h : (compileGroups tokens).result = .error e) :
    ∃ inner front, Inside tokens inner ∧ Culprit inner e ∧
      (compileGroups tokens).log = front ++ (compileLeaves inner).log := by
  -- The groups are compiled depth first and from the left, so all that is told after the failing
  -- one starts is told of it.
  induction tokens using pairs_induction with
  | nil =>
    rw [compileGroups_nil_result] at h
    cases h
  | pair opener inside closer back henc hne ihinside ihback =>
    rw [compileGroups_of_pair henc hne] at h ⊢
    cases hvalue : (compileLeaves inside).result with
    | error d =>
      rw [Logged.bind_error hvalue] at h ⊢
      obtain rfl : d = e := Except.error.inj h
      rcases culprit_of_compileLeaves hvalue ihinside with ⟨inner, front, hparsed, hculprit, hlog⟩
      refine ⟨inner, front, ?_, hculprit, hlog⟩
      rcases hparsed with rfl | hinside
      · exact .here henc hne
      · exact .deeper henc hinside
    | ok value =>
      rw [Logged.bind_ok hvalue] at h ⊢
      have hback : (compileGroups back).result = .error e := Logged.error_of_bind_pure h
      rcases ihback hback with ⟨inner, front, hinside, hculprit, hlog⟩
      refine ⟨inner, (compileLeaves inside).log ++ front, .behind henc hne hinside, hculprit, ?_⟩
      rw [Logged.bind_error hback, hlog, List.append_assoc]
  | single t rest hn ih =>
    rw [compileGroups_of_single hn] at h ⊢
    have hrest : (compileGroups rest).result = .error e := Logged.error_of_bind_pure h
    rcases ih hrest with ⟨inner, front, hinside, hculprit, hlog⟩
    refine ⟨inner, front, .single (lone_of_groupLength hn) hinside, hculprit, ?_⟩
    rw [Logged.bind_error hrest, hlog]

theorem culprit_of_parse (h : parse schema source = .error e) (he : e.Unresolved) :
    ∃ leaves inner front, Leaves schema (Lexeme.ofSource source) leaves ∧
      Token.sourceText leaves = Text.stripBlanks source ∧ Parsed leaves inner ∧
      Culprit inner e ∧ (compile schema source).log = front ++ (compileLeaves inner).log := by
  rcases compile_cases schema source with
    ⟨d, hd, hcompile⟩ | ⟨leaves, hown, htext, hleaves, hcompile⟩
  · rw [parse, hcompile] at h
    exact absurd (Except.error.inj h ▸ he) hd
  · rw [parse, hcompile] at h
    have hresult := hown.result_of_error h
    rcases culprit_of_compileLeaves hresult culprit_of_compileGroups with
      ⟨inner, front, hparsed, hculprit, hlog⟩
    refine ⟨leaves, inner, front, hleaves, htext, hparsed, hculprit, ?_⟩
    rw [hcompile, hown.log_compile, hlog]

theorem parse_of_encloses {front back : List (Token C)} {opener closer : Token C}
    (h : OwnLeaves schema tokens) (hgroups : (compileGroups tokens).result = .ok groups)
    (hsplit : tokens = front ++ opener :: (inside ++ closer :: back))
    (henc : Encloses opener inside closer) (hne : inside ≠ []) :
    ∃ e, parse schema (Token.sourceText inside) = .ok e := by
  -- When the groups compile, then so does the inside of every pair of brackets at any depth: a
  -- group that compiles has no bracket whose partner stands behind it.
  induction tokens using pairs_induction generalizing groups front back with
  | nil =>
    cases front <;> cases hsplit
  | pair first outer last behind houter houterNe ihinside ihbehind =>
    rcases (compileGroups_pair_ok_iff houter houterNe).1 hgroups with
      ⟨value, others, hvalue, hothers, rfl⟩
    have hown : OwnLeaves schema outer := h.piece ⟨[first], last :: behind, by simp⟩
    rcases hown.parse_ok hvalue with ⟨e, _, he⟩
    cases front with
    | nil =>
      rcases List.cons.inj hsplit with ⟨rfl, hrest⟩
      rcases houter.unique henc hrest with ⟨rfl, _⟩
      exact ⟨e, he⟩
    | cons u front =>
      have hrest : outer ++ last :: behind = front ++ opener :: (inside ++ closer :: back) :=
        (List.cons.inj hsplit).2
      rcases henc.exists_opening with ⟨b, hb⟩
      rcases split_cases hrest with ⟨between, hinner, hback⟩ | ⟨between, _, hlast⟩
      · -- The bracket stands in the group, and so does its partner, since the group compiles.
        rcases hown.paired he front opener between b hinner hb with
          ⟨inside', closer', back', rfl, _, henc'⟩
        rw [List.append_assoc, List.cons_append] at hback
        rcases henc.unique henc' hback with ⟨rfl, rfl, _⟩
        rw [result_compileLeaves] at hvalue
        rcases bind_eq_ok hvalue with ⟨deeper, hdeeper, _⟩
        exact ihinside hown hdeeper hinner
      · cases between with
        | nil =>
          -- The closing bracket of the group opens nothing.
          rcases houter.exists_closing with ⟨c, hc⟩
          rw [(List.cons.inj hlast).1, hb] at hc
          cases hc
        | cons v between =>
          exact ihbehind (h.piece ⟨first :: (outer ++ [last]), [], by simp⟩) hothers
            (List.cons.inj hlast).2
  | single t rest hn ih =>
    rcases (compileGroups_single_iff hn).1 hgroups with ⟨others, ho, rfl⟩
    cases front with
    | nil =>
      rcases List.cons.inj hsplit with ⟨rfl, hrest⟩
      exact absurd (lone_of_groupLength hn inside closer back hrest henc) hne
    | cons u front =>
      exact ih (h.piece (List.suffix_cons t rest).isInfix) ho (List.cons.inj hsplit).2

/-- What is refused as unresolved is the whole text or what stands between a bracket and its
partner. All pairs of brackets in it compile on their own, and alone it is refused likewise. -/
theorem parse_blames_group
    (h : parse schema source = .error (.unresolved remaining span text)) :
    (text = Text.stripBlanks source ∨
      ∃ i j, findClose (tokenize C source) i = some j ∧ i + 1 < j ∧
        text = Token.sourceText ((tokenize C source).extract (i + 1) j)) ∧
    (∀ i j, findClose (tokenize C text) i = some j → i + 1 < j →
      ∃ e, parse schema (Token.sourceText ((tokenize C text).extract (i + 1) j)) = .ok e) ∧
    span = ⟨0, text.utf8ByteSize⟩ ∧
    parse schema text = .error (.unresolved remaining span text) := by
  rcases culprit_of_parse h ⟨remaining, span, text, rfl⟩ with
    ⟨leaves, inner, _, hleaves, htext, hparsed, hculprit, _⟩
  rcases hculprit.shows with ⟨rfl, rfl, _⟩
  have hown : OwnLeaves schema inner := hleaves.own hparsed.piece
  refine ⟨?_, ?_, rfl, hown.parse_error hculprit.result⟩
  · rcases hparsed with rfl | hinside
    · exact .inl htext
    · rcases hinside.exists_pair with ⟨front, opener, closer, back, hsplit, henc, hne⟩
      refine .inr ⟨front.length, front.length + 1 + inner.length, ?_, ?_, ?_⟩
      · rw [tokenize, hleaves.findClose_eq]
        exact findClose_eq_some_iff.2 ⟨front, opener, inner, closer, back, hsplit, rfl, rfl, henc⟩
      · exact Nat.lt_add_of_pos_right (List.length_pos_iff.2 hne)
      · rw [tokenize, hleaves.sourceText_extract, hsplit, extract_inside]
  · intro i j hclose hlt
    rw [tokenize, Leaves.findClose_eq hown] at hclose
    rw [tokenize, Leaves.sourceText_extract hown]
    rcases findClose_eq_some_iff.1 hclose with
      ⟨front, opener, inside, closer, back, hsplit, rfl, rfl, henc⟩
    have hne : inside ≠ [] := List.length_pos_iff.1 (Nat.pos_of_lt_add_right hlt)
    rcases hculprit with ⟨groups, hgroups, _⟩
    have hinside := parse_of_encloses hown hgroups hsplit henc hne
    rwa [hsplit, extract_inside]

theorem parse_blames_group_without_operand :
    let schema := VariableTable.ofColumn.schema
    parse schema "v + ((v)*)" = .error (.unresolved "['(v)', '*']" ⟨0, 4⟩ "(v)*") ∧
      (∃ i j, findClose (tokenize (List Float) "v + ((v)*)") i = some j ∧ i + 1 < j ∧
        "(v)*" = Token.sourceText ((tokenize (List Float) "v + ((v)*)").extract (i + 1) j)) ∧
      (∀ i j, findClose (tokenize (List Float) "(v)*") i = some j → i + 1 < j →
        ∃ e, parse schema
          (Token.sourceText ((tokenize (List Float) "(v)*").extract (i + 1) j)) = .ok e) ∧
      parse schema "(v)*" = .error (.unresolved "['(v)', '*']" ⟨0, 4⟩ "(v)*") := by
  intro schema
  have hunit : (parse schema "v + ((v)*)").map (fun _ => ()) =
      .error (.unresolved "['(v)', '*']" ⟨0, 4⟩ "(v)*") := by
    decide +kernel
  have hparse : parse schema "v + ((v)*)" =
      .error (.unresolved "['(v)', '*']" ⟨0, 4⟩ "(v)*") := by
    cases h : parse schema "v + ((v)*)" with
    | ok e =>
      rw [h] at hunit
      cases hunit
    | error e =>
      rw [h] at hunit
      exact congrArg Except.error (Except.error.inj hunit)
  rcases parse_blames_group hparse with ⟨hplace, hpairs, _, halone⟩
  have hpart : "(v)*" ≠ Text.stripBlanks "v + ((v)*)" := by
    decide +kernel
  exact ⟨hparse, hplace.resolve_left hpart, hpairs, halone⟩

end EventCuts
