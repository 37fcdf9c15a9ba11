import EventCuts.Proofs.Brackets
import EventCuts.Proofs.Guards
import EventCuts.Proofs.Provenance

/-!
# The texts of tokens

Until the operators are applied the tokens still spell the source that they were cut from: at the
top, and in the inside of every group that is compiled on the way. So the source of a group is a
piece of the whole one, and a subscript without an entry names the text in front of its bracket.
-/

namespace EventCuts

variable {C : Type} {schema : Schema C} {source : String} {t opener value closer : Token C}
  {tokens groups inside inner rest back : List (Token C)}

namespace Token

@[simp] theorem sourceText_nil : sourceText ([] : List (Token C)) = "" := rfl

@[simp] theorem sourceText_cons (t : Token C) (rest : List (Token C)) :
    sourceText (t :: rest) = t.text ++ sourceText rest := by
  simp [sourceText]

@[simp] theorem sourceText_append (front back : List (Token C)) :
    sourceText (front ++ back) = sourceText front ++ sourceText back := by
  simp [sourceText]

def Written (t : Token C) : Prop :=
  ∀ b, (t.kind = .opening b → t.text = (Lexeme.opening b).text) ∧
    (t.kind = .closing b → t.text = (Lexeme.closing b).text)

theorem written_of_isResolved (h : t.isResolved = true) : t.Written := by
  intro b
  refine ⟨fun hk => ?_, fun hk => absurd hk (not_closing_of_isResolved h b)⟩
  rw [isResolved, hk] at h
  cases h

theorem Written.after (h : t.Written) (previous : Option Kind) :
    ({ t with kind := t.kind.after previous } : Token C).Written := by
  obtain ⟨kind, text, value⟩ := t
  cases kind with
  | ambiguous sign =>
    intro b
    simp only [Kind.after]
    split
    · simp
    · simp
    · split <;> simp
  | _ => exact h

end Token

theorem sourceText_resolveLeaves {leaves : List (Token C)} {text : String}
    (h : resolveLeaves schema text tokens = .ok leaves) :
    Token.sourceText leaves = Token.sourceText tokens := by
  have hleaves := leaves_of_resolveLeavesFrom h
  clear h
  induction hleaves with
  | nil => rfl
  | cons hleaf _ ih =>
    obtain ⟨_, hleaf⟩ := hleaf
    obtain ⟨rfl, _⟩ | ⟨e, rfl, he⟩ := resolveLeaf_cases hleaf
    · simp [ih]
    · simp [ih, Token.resolved, he]

/-- The tokens side by side are the source, and each of them is in order. -/
structure Faithful (source : String) (tokens : List (Token C)) : Prop where
  text : Token.sourceText tokens = source
  sound : ∀ t ∈ tokens, t.Coherent ∧ t.Written

namespace Faithful

theorem piece (h : Faithful source tokens) (hinner : inner <:+: tokens) :
    Faithful (Token.sourceText inner) inner :=
  ⟨rfl, fun t ht => h.sound t (hinner.subset ht)⟩

theorem replace {front olds news rest : List (Token C)}
    (h : Faithful source (front ++ (olds ++ rest)))
    (htext : Token.sourceText news = Token.sourceText olds)
    (hsound : ∀ t ∈ news, t.Coherent ∧ t.Written) : Faithful source (front ++ (news ++ rest)) := by
  refine ⟨?_, ?_⟩
  · rw [← h.text]
    simp [htext]
  · have hold := h.sound
    simp only [List.forall_mem_append] at hold ⊢
    exact ⟨hold.1, hsound, hold.2.2⟩

theorem parentheses (h : Faithful source tokens) :
    Faithful source (Reduction.parentheses.apply tokens) := by
  refine Reduction.sweep_invariant ?_ h
  intro stack t rest h
  unfold Reduction.pushParenthesis
  split
  · next inner opener below =>
    split
    · next hm =>
      obtain ⟨ht, ho, hi⟩ := hm
      have hchunk : Faithful source (below.reverse ++ ([opener, inner, t] ++ rest)) := by
        simpa using h
      have hsound := hchunk.sound
      simp only [List.forall_mem_append, List.forall_mem_cons] at hsound
      obtain ⟨_, ⟨⟨_, hopener⟩, ⟨hinner, _⟩, ⟨_, hcloser⟩, _⟩, _⟩ := hsound
      have htext : Token.sourceText [inner.rename ("(" ++ inner.text ++ ")")] =
          Token.sourceText [opener, inner, t] := by
        simp [Token.rename, (hopener .round).1 ho, (hcloser .round).2 ht, Lexeme.opening,
          Lexeme.closing, String.append_assoc]
      have hrenamed := hchunk.replace htext (List.forall_mem_singleton.2
        ⟨Token.coherent_rename _ hinner, Token.written_of_isResolved hi⟩)
      simpa using hrenamed
    · simpa using h
  · simpa using h

theorem subscripts (h : Faithful source tokens) :
    Faithful source (Reduction.subscripts.apply tokens) := by
  refine Reduction.sweep_invariant ?_ h
  intro stack t rest h
  unfold Reduction.pushSubscript
  split
  · next index opener vector below =>
    split
    · next hm =>
      obtain ⟨ht, hv, ho, hi⟩ := hm
      have hchunk : Faithful source (below.reverse ++ ([vector, opener, index, t] ++ rest)) := by
        simpa using h
      have hsound := hchunk.sound
      simp only [List.forall_mem_append, List.forall_mem_cons] at hsound
      obtain ⟨_, ⟨⟨hvector, _⟩, _, ⟨hindex, _⟩, _⟩, _⟩ := hsound
      obtain ⟨_, _, e, _, _, _, hentry⟩ :=
        Reduction.exists_subscripted hvector hindex hv hi opener t
      have htext : Token.sourceText
          [Token.resolved (e.rename (Token.sourceText [vector, opener, index, t]))] =
            Token.sourceText [vector, opener, index, t] := by
        simp [Token.resolved, Expr.rename]
      have hselected := hchunk.replace htext (List.forall_mem_singleton.2
        ⟨Token.coherent_resolved _, Token.written_of_isResolved rfl⟩)
      rw [hentry]
      simpa using hselected
    · simpa using h
  · simpa using h

theorem signs (h : Faithful source tokens) : Faithful source (Reduction.signs.apply tokens) := by
  refine Reduction.sweep_invariant ?_ h
  intro stack t rest h
  have hchunk : Faithful source (stack.reverse ++ ([t] ++ rest)) := by
    simpa using h
  have hstack : ∀ u ∈ t :: stack, u.Coherent := by
    intro u hu
    refine (h.sound u ?_).1
    simpa [or_left_comm, or_assoc] using Or.inl hu
  have hcoherent := Reduction.coherent_pushSign hstack _ List.mem_cons_self
  have hwritten := (h.sound t (by simp)).2.after (stack.head?.map Token.kind)
  have htext : Token.sourceText [{ t with kind := t.kind.after (stack.head?.map Token.kind) }] =
      Token.sourceText [t] := rfl
  have hsigned := hchunk.replace htext (List.forall_mem_singleton.2 ⟨hcoherent, hwritten⟩)
  simpa [Reduction.pushSign] using hsigned

theorem applyAll {passes : List Reduction}
    (hp : ∀ r ∈ passes, r ∈ [Reduction.parentheses, .subscripts, .signs])
    (h : Faithful source tokens) : Faithful source (Reduction.applyAll passes tokens) := by
  induction passes generalizing tokens with
  | nil => exact h
  | cons r passes ih =>
    obtain ⟨hr, hpasses⟩ := List.forall_mem_cons.1 hp
    simp only [List.mem_cons, List.not_mem_nil, or_false] at hr
    obtain rfl | rfl | rfl := hr
    · exact ih hpasses h.parentheses
    · exact ih hpasses h.subscripts
    · exact ih hpasses h.signs

theorem tokenize (source : String) :
    Faithful (Text.stripBlanks source) (EventCuts.tokenize C (Text.stripBlanks source)) := by
  refine ⟨?_, fun t ht => ⟨coherent_tokenize _ t ht, ?_⟩⟩
  · rw [tokenize_stripBlanks, Token.sourceText, List.map_map]
    exact Lexeme.join_ofSource source
  · obtain ⟨l, hl, rfl⟩ := List.mem_map.1 ht
    have hspelled := Lexeme.spelled_of_mem_cut hl
    intro b
    exact ⟨fun hk => congrArg Lexeme.text (hspelled.opening (.inl hk.symm)),
      fun hk => congrArg Lexeme.text (hspelled.closing (.inl hk.symm))⟩

theorem resolveLeaves {leaves : List (Token C)} {text : String} (h : Faithful source tokens)
    (hleaves : EventCuts.resolveLeaves schema text tokens = .ok leaves) :
    Faithful source leaves := by
  refine ⟨(sourceText_resolveLeaves hleaves).trans h.text, fun leaf hleaf => ?_⟩
  obtain ⟨t, ht, _, hleaf⟩ := exists_of_forall₂ (leaves_of_resolveLeavesFrom hleaves) hleaf
  obtain ⟨hcoherent, hwritten⟩ := h.sound t ht
  refine ⟨coherent_resolveLeaf hcoherent hleaf, ?_⟩
  obtain ⟨rfl, _⟩ | ⟨e, rfl, _⟩ := resolveLeaf_cases hleaf
  · exact hwritten
  · exact Token.written_of_isResolved rfl

end Faithful

/-- Around the inside of every outermost pair of brackets stand the same brackets, and its inside
is one value that bears its text; all other tokens are kept. -/
inductive Grouped : List (Token C) → List (Token C) → Prop
  | nil : Grouped [] []
  | pair {opener closer value : Token C} {inside back groups : List (Token C)} :
      Encloses opener inside closer → inside ≠ [] → value.isResolved = true →
      value.text = Token.sourceText inside → Grouped back groups →
      Grouped (opener :: (inside ++ closer :: back)) (opener :: value :: closer :: groups)
  | single {t : Token C} {rest groups : List (Token C)} :
      Lone t rest → Grouped rest groups → Grouped (t :: rest) (t :: groups)

namespace Grouped

theorem of_closing {b : Bracket} {out : List (Token C)} (hc : closer.kind = .closing b)
    (h : Grouped (closer :: back) out) :
    ∃ groups, out = closer :: groups ∧ Grouped back groups := by
  cases h with
  | pair henc _ _ _ _ => exact absurd henc (not_encloses_of_closing hc)
  | single _ h => exact ⟨_, rfl, h⟩

theorem text (h : Grouped tokens groups) : Token.sourceText groups = Token.sourceText tokens := by
  induction h with
  | nil => rfl
  | pair _ _ _ htext _ ih => simp [htext, ih]
  | single _ _ ih => simp [ih]

theorem written (h : Grouped tokens groups) (htokens : ∀ t ∈ tokens, t.Written) :
    ∀ t ∈ groups, t.Written := by
  induction h with
  | nil => exact htokens
  | pair _ _ hvalue _ _ ih =>
    simp only [List.forall_mem_cons, List.forall_mem_append] at htokens ⊢
    obtain ⟨hopener, _, hcloser, hback⟩ := htokens
    exact ⟨hopener, Token.written_of_isResolved hvalue, hcloser, ih hback⟩
  | single _ _ ih =>
    obtain ⟨ht, hrest⟩ := List.forall_mem_cons.1 htokens
    exact List.forall_mem_cons.2 ⟨ht, ih hrest⟩

end Grouped

theorem grouped_compileGroups (h : (compileGroups tokens).result = .ok groups) :
    Grouped tokens groups := by
  induction tokens using groups_induction generalizing groups with
  | nil =>
    rw [compileGroups_nil_result] at h
    cases h
    exact .nil
  | group t rest n hn _ ih =>
    obtain ⟨inside, closer, back, rfl, hlen, henc⟩ := groupLength_eq_some_iff.1 hn
    obtain ⟨_, value, others, _, hv, ho, rfl⟩ := (compileGroups_group_iff hn).1 h
    rw [List.take_left' hlen] at hv
    obtain ⟨u, _, hu, rfl⟩ := (condense_ok_iff _ _ _).1 hv
    obtain ⟨_, hc⟩ := henc.exists_closing
    have hothers := ih ho
    rw [List.drop_left' hlen] at hothers
    obtain ⟨groups, rfl, hback⟩ := hothers.of_closing hc
    exact .pair henc (List.ne_nil_of_length_eq_add_one hlen) hu rfl hback
  | single t rest hn ih =>
    obtain ⟨others, ho, rfl⟩ := (compileGroups_single_iff hn).1 h
    exact .single (lone_of_groupLength hn) (ih ho)

theorem Faithful.compileGroups (h : Faithful source tokens)
    (hgroups : (EventCuts.compileGroups tokens).result = .ok groups) : Faithful source groups := by
  have hgrouped := grouped_compileGroups hgroups
  have hcoherent := coherent_compileGroups (fun t ht => (h.sound t ht).1) hgroups
  have hwritten := hgrouped.written fun t ht => (h.sound t ht).2
  exact ⟨hgrouped.text.trans h.text, fun t ht => ⟨hcoherent t ht, hwritten t ht⟩⟩

inductive Inside : List (Token C) → List (Token C) → Prop
  | here {opener closer : Token C} {inside back : List (Token C)} :
      Encloses opener inside closer → inside ≠ [] →
      Inside (opener :: (inside ++ closer :: back)) inside
  | deeper {opener closer : Token C} {inside back inner : List (Token C)} :
      Encloses opener inside closer → Inside inside inner →
      Inside (opener :: (inside ++ closer :: back)) inner
  | behind {opener closer : Token C} {inside back inner : List (Token C)} :
      Encloses opener inside closer → inside ≠ [] → Inside back inner →
      Inside (opener :: (inside ++ closer :: back)) inner
  | single {t : Token C} {rest inner : List (Token C)} :
      Lone t rest → Inside rest inner → Inside (t :: rest) inner

namespace Inside

theorem piece (h : Inside tokens inner) : inner <:+: tokens := by
  induction h with
  | @here opener closer _ back _ _ => exact ⟨[opener], closer :: back, by simp⟩
  | @deeper opener closer _ back _ _ _ ih => exact ih.trans ⟨[opener], closer :: back, by simp⟩
  | @behind opener closer inside _ _ _ _ _ ih =>
    exact ih.trans ⟨opener :: (inside ++ [closer]), [], by simp⟩
  | single _ _ ih => exact ih.trans (List.suffix_cons _ _).isInfix

theorem of_closing {b : Bracket} (hc : closer.kind = .closing b)
    (h : Inside (closer :: back) inner) : Inside back inner := by
  cases h with
  | here henc _ => exact absurd henc (not_encloses_of_closing hc)
  | deeper henc _ => exact absurd henc (not_encloses_of_closing hc)
  | behind henc _ _ => exact absurd henc (not_encloses_of_closing hc)
  | single _ h => exact h

end Inside

def Parsed (leaves inner : List (Token C)) : Prop := inner = leaves ∨ Inside leaves inner

theorem Parsed.piece {leaves : List (Token C)} (h : Parsed leaves inner) : inner <:+: leaves := by
  obtain rfl | h := h
  · exact List.infix_refl inner
  · exact h.piece

def LogEvent.Tells (source : String) : LogEvent → Prop
  | .started of => of = source
  | .passed of pass texts => of = source ∧
    (pass ∈ ["groupings", "parentheses", "subscripts", "plus/minus"] → String.join texts = source)
  | .finished of _ => of = source

theorem Reduction.mem_of_mem_trail {passes : List Reduction} {r : Reduction} {out : List (Token C)}
    (h : (r, out) ∈ trail passes tokens) : r ∈ passes := by
  induction passes generalizing tokens with
  | nil => cases h
  | cons q passes ih =>
    obtain h | h := List.mem_cons.1 h
    · cases h
      exact List.mem_cons_self
    · exact List.mem_cons_of_mem _ (ih h)

namespace Faithful

theorem tells_passed (h : Faithful source groups) {event : LogEvent}
    (he : event ∈ passEvents source (Reduction.trail Reduction.pipeline groups)) :
    event.Tells source := by
  obtain ⟨⟨r, out⟩, hr, rfl⟩ := List.mem_map.1 he
  refine ⟨rfl, fun hpass => ?_⟩
  have hothers : ∀ r ∈ Reduction.prefixes :: BinaryOp.precedence.map .operators,
      r.name ∉ ["groupings", "parentheses", "subscripts", "plus/minus"] := by
    decide
  obtain hr | hr := List.mem_cons.1 hr
  · cases hr
    exact h.parentheses.text
  · obtain hr | hr := List.mem_cons.1 hr
    · cases hr
      exact h.parentheses.subscripts.text
    · obtain hr | hr := List.mem_cons.1 hr
      · cases hr
        exact h.parentheses.subscripts.signs.text
      · exact absurd hpass (hothers r (Reduction.mem_of_mem_trail hr))

theorem tells_condense (h : Faithful source groups) {event : LogEvent}
    (he : event ∈ (condense source groups).log) : event.Tells source := by
  simp only [condense, Logged.mem_log_bind_iff, Logged.tell, Logged.ofExcept, Logged.pure_eq,
    List.not_mem_nil, false_or, or_false, exists_false, and_false, List.mem_singleton] at he
  obtain rfl | ⟨_, _, he | ⟨_, _, t, _, he⟩⟩ := he
  · exact ⟨rfl, fun _ => h.text⟩
  · exact h.tells_passed he
  · unfold finishEvents at he
    split at he
    · obtain rfl := List.mem_singleton.1 he
      rfl
    · cases he

theorem tells_compileGroups (h : Faithful source tokens) {event : LogEvent}
    (he : event ∈ (EventCuts.compileGroups tokens).log) :
    ∃ inner, Inside tokens inner ∧ event.Tells (Token.sourceText inner) := by
  induction tokens using groups_induction generalizing source with
  | nil =>
    rw [EventCuts.compileGroups] at he
    cases he
  | group t rest n hn ihinside ihbehind =>
    obtain ⟨inside, closer, back, rfl, hlen, henc⟩ := groupLength_eq_some_iff.1 hn
    have hne := List.ne_nil_of_length_eq_add_one hlen
    have hinside : Faithful (Token.sourceText inside) inside :=
      h.piece ⟨[t], closer :: back, by simp⟩
    have hbehind : Faithful (Token.sourceText (closer :: back)) (closer :: back) :=
      h.piece ⟨t :: inside, [], by simp⟩
    rw [EventCuts.compileGroups, hn] at he
    simp only [Logged.mem_log_bind_iff, Logged.tell, List.mem_singleton, List.take_left' hlen,
      List.drop_left' hlen] at he ihinside ihbehind
    obtain rfl | ⟨_, _, he | ⟨groups, hg, he | ⟨_, _, he | ⟨_, _, he⟩⟩⟩⟩ := he
    · exact ⟨inside, .here henc hne, rfl⟩
    · obtain ⟨inner, hin, htells⟩ := ihinside hinside he
      exact ⟨inner, .deeper henc hin, htells⟩
    · exact ⟨inside, .here henc hne, (hinside.compileGroups hg).tells_condense he⟩
    · obtain ⟨inner, hin, htells⟩ := ihbehind hbehind he
      obtain ⟨_, hc⟩ := henc.exists_closing
      exact ⟨inner, .behind henc hne (hin.of_closing hc), htells⟩
    · cases he
  | single t rest hn ih =>
    have hrest : Faithful (Token.sourceText rest) rest := h.piece (List.suffix_cons t rest).isInfix
    rw [EventCuts.compileGroups] at he
    split at he
    · exact absurd ‹_› (hn _)
    · obtain he | ⟨_, _, he⟩ := (Logged.mem_log_bind_iff _ _ _).1 he
      · obtain ⟨inner, hin, htells⟩ := ih hrest he
        exact ⟨inner, .single (lone_of_groupLength hn) hin, htells⟩
      · cases he

end Faithful

theorem kind_of_resolveLeaves {leaves : List (Token C)} {text : String}
    (h : resolveLeaves schema text tokens = .ok leaves) :
    ∀ leaf ∈ leaves, leaf.kind ≠ .identifier ∧ leaf.kind ≠ .number := by
  intro leaf hleaf
  obtain ⟨t, _, _, hleaf⟩ := exists_of_forall₂ (leaves_of_resolveLeavesFrom h) hleaf
  obtain ⟨rfl, hkind⟩ | ⟨e, rfl, _⟩ := resolveLeaf_cases hleaf
  · exact hkind
  · exact ⟨nofun, nofun⟩

theorem tells_compile {leaves : List (Token C)} {event : LogEvent}
    (h : resolveLeaves schema (Text.stripBlanks source) (tokenize C (Text.stripBlanks source)) =
      .ok leaves)
    (he : event ∈ (compile schema source).log) :
    ∃ inner, Parsed leaves inner ∧ event.Tells (Token.sourceText inner) := by
  have hleaves := (Faithful.tokenize source).resolveLeaves h
  simp only [compile, compileTokens, Logged.mem_log_bind_iff, Logged.tell, Logged.ofExcept,
    Logged.bind_ok_iff, h, List.mem_singleton, List.not_mem_nil, and_false, exists_false, or_false,
    false_or] at he
  obtain rfl | ⟨_, _, _, _, _, hl, he⟩ := he
  · exact ⟨leaves, .inl rfl, hleaves.text.symm⟩
  · cases hl
    obtain he | ⟨groups, hg, he⟩ := he
    · obtain ⟨inner, hin, htells⟩ := hleaves.tells_compileGroups he
      exact ⟨inner, .inr hin, htells⟩
    · exact ⟨leaves, .inl rfl, hleaves.text ▸ (hleaves.compileGroups hg).tells_condense he⟩

/-- The tokens of a text whose leaves are resolved spell it, and those of each of its groups the
piece that the group stands for, until the operators are applied. -/
structure KeepsText (schema : Schema C) (source : String) (leaves : List (Token C)) : Prop where
  lexed : Token.sourceText (tokenize C source) = source
  resolved : Token.sourceText leaves = source
  piece : ∀ inner, Parsed leaves inner →
    ∃ front back, source = front ++ Token.sourceText inner ++ back
  again : ∀ inner, Parsed leaves inner →
    resolveLeaves schema (Token.sourceText inner) inner = .ok inner
  grouped : ∀ inner, Parsed leaves inner → ∀ groups, (compileGroups inner).result = .ok groups →
    Grouped inner groups
  reduced : ∀ inner, Parsed leaves inner → ∀ groups, (compileGroups inner).result = .ok groups →
    ∀ passes, passes <+: [Reduction.parentheses, .subscripts, .signs] →
      Token.sourceText (Reduction.applyAll passes groups) = Token.sourceText inner

/-- The piece of the source in front of the bracket is what the failure of a subscript names. -/
def NamesPiece (schema : Schema C) (source : String) (c : C) (name : String) (index : Float)
    (count : Nat) : Prop :=
  ∃ v i front vs is back entries,
    Lexeme.ofSource source =
      front ++ (vs ++ .opening .square :: (is ++ [.closing .square])) ++ back ∧
    Text.stripBlanks source = String.join (front.map Lexeme.text) ++ name ++ "[" ++
      String.join (is.map Lexeme.text) ++ "]" ++ String.join (back.map Lexeme.text) ∧
    name = String.join (vs.map Lexeme.text) ∧
    Derives schema .primary v vs ∧ Derives schema .disjunction i is ∧
    (v.expr schema).evalVector c = .ok entries ∧ (i.expr schema).evalScalar c = .ok index ∧
    count = entries.length

theorem Misses.namesPiece {c : C} {name : String} {index : Float} {count : Nat}
    (h : Misses schema (Lexeme.ofSource source) c (.indexOutOfRange name index count)) :
    NamesPiece schema source c name index count := by
  obtain ⟨v, i, vs, is, entries, _, ⟨front, back, hsplit⟩, hv, hi, hentries, hindex, heq⟩ := h
  cases heq
  refine ⟨v, i, front, vs, is, back, entries, hsplit.symm, ?_, rfl, hv, hi, hentries, hindex, rfl⟩
  rw [← Lexeme.join_ofSource, ← hsplit]
  simp [Lexeme.opening, Lexeme.closing, String.append_assoc]

/-- Until the operators are applied the tokens spell their source, in the whole text and in the
inside of every group. So what the log tells is of pieces of the text, and a subscript without an
entry names the piece in front of its bracket. -/
theorem compile_keeps_text {leaves : List (Token C)}
    (h : resolveLeaves schema (Text.stripBlanks source) (tokenize C (Text.stripBlanks source)) =
      .ok leaves) :
    KeepsText schema (Text.stripBlanks source) leaves ∧
    (∀ event ∈ (compile schema source).log,
      ∃ inner, Parsed leaves inner ∧ event.Tells (Token.sourceText inner)) ∧
    (∀ e, parse schema source = .ok e → ∀ c name index count,
      e.eval c = .error (.indexOutOfRange name index count) →
      NamesPiece schema source c name index count ∨
        Blames schema (Lexeme.ofSource source) c (.indexOutOfRange name index count)) := by
  have htokens := Faithful.tokenize (C := C) source
  have hleaves := htokens.resolveLeaves h
  refine ⟨⟨htokens.text, hleaves.text, fun inner hin => ?_, fun inner hin => ?_,
    fun inner hin groups hgroups => grouped_compileGroups hgroups,
    fun inner hin groups hgroups passes hpasses => ?_⟩,
    fun event he => tells_compile h he, fun e he c name index count hx => ?_⟩
  · obtain ⟨front, back, rfl⟩ := hin.piece
    exact ⟨Token.sourceText front, Token.sourceText back, by
      simp [← hleaves.text, String.append_assoc]⟩
  · exact resolveLeavesFrom_settled schema _ 0 fun t ht =>
      kind_of_resolveLeaves h t (hin.piece.subset ht)
  · have hgroups := (hleaves.piece hin.piece).compileGroups hgroups
    exact (hgroups.applyAll fun r hr => hpasses.subset hr).text
  · obtain ⟨_, hempty⟩ | hmisses | hblames := arises_of_parse he hx
    · cases hempty
    · exact .inl hmisses.namesPiece
    · exact .inr hblames

namespace RecordSchema

theorem compile_keeps_text_grouped_vector :
    ∃ leaves e, resolveLeaves ofEntry.schema (Text.stripBlanks "(v) [i]")
        (tokenize Record (Text.stripBlanks "(v) [i]")) = .ok leaves ∧
      parse ofEntry.schema "(v) [i]" = .ok e ∧
      e.eval (.ofList [("v", .vector []), ("i", .scalar 0)]) =
        .error (.indexOutOfRange "(v)" 0 0) ∧
      KeepsText ofEntry.schema (Text.stripBlanks "(v) [i]") leaves ∧
      (∀ event ∈ (compile ofEntry.schema "(v) [i]").log,
        ∃ inner, Parsed leaves inner ∧ event.Tells (Token.sourceText inner)) ∧
      NamesPiece ofEntry.schema "(v) [i]" (.ofList [("v", .vector []), ("i", .scalar 0)])
        "(v)" 0 0 := by
  have hlexemes : Lexeme.ofSource "(v) [i]" =
      [.opening .round, ⟨.identifier, "v"⟩, .closing .round, .opening .square,
        ⟨.identifier, "i"⟩, .closing .square] := by
    decide +kernel
  have hv : Derives ofEntry.schema .primary (.name "v") [⟨.identifier, "v"⟩] := .name rfl
  have hi : Derives ofEntry.schema .primary (.name "i") [⟨.identifier, "i"⟩] := .name rfl
  have hd : Derives ofEntry.schema .disjunction (.entry (.group (.name "v")) (.name "i"))
      (Lexeme.ofSource "(v) [i]") := by
    rw [hlexemes]
    exact (Derives.entry hv.disjunction.group hi.disjunction rfl rfl).disjunction
  have hr : Readable (Lexeme.ofSource "(v) [i]") := by
    decide +kernel
  have hparse := parse_of_derives hd hr
  obtain ⟨leaves, hleaves⟩ : ∃ leaves, resolveLeaves ofEntry.schema (Text.stripBlanks "(v) [i]")
      (tokenize Record (Text.stripBlanks "(v) [i]")) = .ok leaves := by
    rw [tokenize_stripBlanks, hlexemes]
    exact ⟨_, rfl⟩
  obtain ⟨hkeeps, hlog, hnames⟩ := compile_keeps_text hleaves
  refine ⟨leaves, _, hleaves, hparse, rfl, hkeeps, hlog, ?_⟩
  obtain hnames | ⟨n, v, _, hv, hfails⟩ :=
    hnames _ hparse (.ofList [("v", .vector []), ("i", .scalar 0)]) "(v)" 0 0 rfl
  · exact hnames
  · obtain ⟨shape, _, rfl⟩ := Option.map_eq_some_iff.1 hv
    cases denies_of_reader hfails

end RecordSchema

end EventCuts
