import EventCuts.Proofs.Munch
import EventCuts.Proofs.Refusals
import EventCuts.Proofs.SourceTexts

/-!
# Pieces of a text

A text that is cut out of another one between two lexemes has the lexemes that it had there, so
its leaves are the same and it compiles by itself as it does inside of the other text.
-/

namespace EventCuts

variable {C : Type} {schema : Schema C}

namespace Lexeme

variable {ls ms : List Lexeme} {input : List Char}

theorem Munched.chars_eq (h : Munched input ls) : chars ls = input := by
  induction h with
  | nil => rfl
  | cons _ _ ih => rw [chars_cons, ih]

theorem Munched.front (h : Munched input (ls ++ ms)) : Munched (chars ls) ls := by
  induction ls generalizing input with
  | nil => exact .nil
  | cons l ls ih =>
    cases h with
    | @cons _ rest _ hl hrest =>
      have hrest_eq : chars ls ++ chars ms = rest := by
        rw [← chars_append]
        exact hrest.chars_eq
      have hfront : l.text.toList ++ chars ls <+: l.text.toList ++ rest :=
        (List.prefix_append_right_inj _).2 ⟨chars ms, hrest_eq⟩
      exact .cons (hl.of_prefix hfront (List.prefix_append _ _)) (ih hrest)

theorem Lexed.front (h : Lexed (ls ++ ms)) : Lexed ls := by
  have hmunched := munched_cut (chars (ls ++ ms))
  rw [h] at hmunched
  exact hmunched.front.cut_eq

theorem Lexed.back (h : Lexed (ls ++ ms)) : Lexed ms := by
  induction ls with
  | nil => exact h
  | cons l ls ih => exact ih h.cons_inv.1

theorem ofSource_join {source : String} (h : ms <:+: ofSource source) :
    ofSource (String.join (ms.map text)) = ms := by
  obtain ⟨front, back, hsplit⟩ := h
  have hlexed : Lexed (front ++ ms ++ back) := hsplit ▸ lexed_ofSource source
  refine hlexed.front.back.ofSource_join fun c hc => ?_
  have hmem : c ∈ chars (ofSource source) := by
    rw [← hsplit]
    simp [hc]
  exact not_blank_of_mem_ofSource hmem

end Lexeme

theorem split_cases {α : Type} {ls ms front back : List α} {x : α}
    (h : ls ++ ms = front ++ x :: back) :
    (∃ between, ls = front ++ x :: between ∧ back = between ++ ms) ∨
      ∃ between, front = ls ++ between ∧ ms = between ++ x :: back := by
  rcases List.append_eq_append_iff.1 h with ⟨between, hfront, hms⟩ | ⟨between, hls, hback⟩
  · exact .inr ⟨between, hfront, hms⟩
  · cases between with
    | nil => exact .inr ⟨[], by rw [hls, List.append_nil, List.append_nil], hback.symm⟩
    | cons y between =>
      obtain ⟨rfl, htail⟩ : x = y ∧ back = between ++ ms := List.cons.inj hback
      exact .inl ⟨between, hls, htail⟩

/-! The brackets of tokens and those of their lexemes. -/

section Brackets

variable {i j : Nat} {opener closer : Token C} {tokens inside inner back : List (Token C)}

theorem findClose_eq_some_iff :
    findClose tokens i = some j ↔ ∃ front opener inside closer back,
      tokens = front ++ opener :: (inside ++ closer :: back) ∧ front.length = i ∧
        i + 1 + inside.length = j ∧ Encloses opener inside closer := by
  unfold findClose
  constructor
  · intro h
    split at h
    · cases h
    · next opener rest hdrop =>
      obtain ⟨n, hn, rfl⟩ := Option.map_eq_some_iff.1 h
      obtain ⟨inside, closer, back, rfl, rfl, henc⟩ := groupLength_eq_some_iff.1 hn
      have hlength : i ≤ tokens.length := by
        apply Nat.le_of_not_lt
        intro hlt
        rw [List.drop_eq_nil_of_le (Nat.le_of_lt hlt)] at hdrop
        cases hdrop
      refine ⟨tokens.take i, opener, inside, closer, back, ?_, ?_, rfl, henc⟩
      · rw [← hdrop, List.take_append_drop]
      · rw [List.length_take, Nat.min_eq_left hlength]
  · rintro ⟨front, opener, inside, closer, back, rfl, rfl, rfl, henc⟩
    have hn := groupLength_eq_some_iff.2 ⟨inside, closer, back, rfl, rfl, henc⟩
    rw [List.drop_left]
    simp only [hn, Option.map_some]

theorem extract_inside (front inside back : List (Token C)) (opener : Token C) :
    (front ++ opener :: (inside ++ back)).extract (front.length + 1)
      (front.length + 1 + inside.length) = inside := by
  have hdrop : (front ++ opener :: (inside ++ back)).drop (front.length + 1) = inside ++ back := by
    rw [← List.singleton_append, ← List.append_assoc]
    exact List.drop_left' (by rw [List.length_append, List.length_singleton])
  rw [List.extract, hdrop, Nat.add_sub_cancel_left, List.take_left]

theorem encloses_iff_groupLength :
    Encloses opener inside closer ↔
      groupLength opener (inside ++ [closer]) = some inside.length := by
  rw [groupLength_eq_some_iff]
  constructor
  · intro h
    exact ⟨inside, closer, [], rfl, rfl, h⟩
  · intro ⟨inside', closer', back', heq, hlength, h⟩
    rcases List.append_inj heq hlength.symm with ⟨rfl, hrest⟩
    rcases List.cons.inj hrest with ⟨rfl, _⟩
    exact h

theorem Encloses.unique {closer' : Token C} {inside' back' : List (Token C)}
    (h : Encloses opener inside closer) (h' : Encloses opener inside' closer')
    (heq : inside ++ closer :: back = inside' ++ closer' :: back') :
    inside = inside' ∧ closer = closer' ∧ back = back' := by
  have hlength : some inside.length = some inside'.length := by
    rw [← groupLength_eq_some_iff.2 ⟨inside, closer, back, rfl, rfl, h⟩, heq]
    exact groupLength_eq_some_iff.2 ⟨inside', closer', back', rfl, rfl, h'⟩
  obtain ⟨rfl, hrest⟩ := List.append_inj heq (Option.some.inj hlength)
  exact ⟨rfl, List.cons.inj hrest⟩

theorem Inside.exists_pair (h : Inside tokens inner) :
    ∃ front opener closer back, tokens = front ++ opener :: (inner ++ closer :: back) ∧
      Encloses opener inner closer ∧ inner ≠ [] := by
  induction h with
  | here henc hne => exact ⟨[], _, _, _, rfl, henc, hne⟩
  | @deeper opener closer _ back _ _ _ ih =>
    obtain ⟨front, o, c, rest, rfl, henc, hne⟩ := ih
    exact ⟨opener :: front, o, c, rest ++ closer :: back, by simp, henc, hne⟩
  | @behind opener closer inside _ _ _ _ _ ih =>
    obtain ⟨front, o, c, rest, rfl, henc, hne⟩ := ih
    exact ⟨opener :: (inside ++ closer :: front), o, c, rest, by simp, henc, hne⟩
  | @single t _ _ _ _ ih =>
    obtain ⟨front, o, c, rest, rfl, henc, hne⟩ := ih
    exact ⟨t :: front, o, c, rest, rfl, henc, hne⟩

end Brackets

/-- The tokens that lexemes come to when all of them are known and the leaves have a meaning. -/
def Leaves (schema : Schema C) (ls : List Lexeme) (leaves : List (Token C)) : Prop :=
  List.Forall₂ (fun l t => l.kind ≠ .unknown ∧ leaf? schema l = some t) ls leaves

namespace Leaves

variable {ls : List Lexeme} {leaves inner : List (Token C)}

theorem meaning (h : Leaves schema ls leaves) :
    List.Forall₂ (fun l t => leaf? schema l = some t) ls leaves :=
  h.imp fun _ _ hl => hl.2

theorem known (h : Leaves schema ls leaves) : ∀ l ∈ ls, l.kind ≠ .unknown :=
  ((List.forall₂_and_left _ _).1 h).1

theorem unique {other : List (Token C)} (h : Leaves schema ls leaves)
    (hother : List.Forall₂ (fun l t => leaf? schema l = some t) ls other) : leaves = other := by
  induction h generalizing other with
  | nil => exact (List.forall₂_nil_left_iff.1 hother).symm
  | cons hl _ ih =>
    cases hother with
    | cons hm hother => rw [ih hother, Option.some.inj (hl.2.symm.trans hm)]

theorem piece (h : Leaves schema ls leaves) (hinner : inner <:+: leaves) :
    ∃ ms, ms <:+: ls ∧ Leaves schema ms inner := by
  rcases hinner with ⟨front, back, rfl⟩
  rw [List.append_assoc] at h
  have hdrop := List.forall₂_drop_append ls front (inner ++ back) h
  have htake := List.forall₂_take_append (ls.drop front.length) inner back hdrop
  have hprefix : (ls.drop front.length).take inner.length <+: ls.drop front.length :=
    List.take_prefix _ _
  have hsuffix : ls.drop front.length <:+ ls := List.drop_suffix _ _
  exact ⟨_, hprefix.isInfix.trans hsuffix.isInfix, htake⟩

theorem split {ms : List Lexeme} (h : Leaves schema (ls ++ ms) leaves) :
    ∃ front back, leaves = front ++ back ∧ Leaves schema ls front ∧ Leaves schema ms back := by
  have hfront := List.forall₂_take ls.length h
  have hback := List.forall₂_drop ls.length h
  rw [List.take_left] at hfront
  rw [List.drop_left] at hback
  exact ⟨_, _, (List.take_append_drop ls.length leaves).symm, hfront, hback⟩

theorem leaf_cases {l : Lexeme} {t : Token C} (h : leaf? schema l = some t) :
    t = Token.ofLexeme l ∨ (l.kind = .identifier ∨ l.kind = .number) ∧
      ∃ e, t = Token.resolved e ∧ e.name = l.text := by
  obtain ⟨kind, text⟩ := l
  cases kind with
  | identifier =>
    rcases Option.map_eq_some_iff.1 h with ⟨e, _, rfl⟩
    exact .inr ⟨.inl rfl, _, rfl, rfl⟩
  | number =>
    rcases Option.map_eq_some_iff.1 h with ⟨x, _, rfl⟩
    exact .inr ⟨.inr rfl, _, rfl, rfl⟩
  | _ => exact .inl (Option.some.inj h).symm

theorem map_text (h : Leaves schema ls leaves) : leaves.map Token.text = ls.map Lexeme.text := by
  induction h with
  | nil => rfl
  | cons hl _ ih =>
    rcases leaf_cases hl.2 with rfl | ⟨_, e, rfl, he⟩
    · simp [ih, Token.ofLexeme]
    · simp [ih, Token.resolved, he]

theorem sourceText_eq (h : Leaves schema ls leaves) :
    Token.sourceText leaves = String.join (ls.map Lexeme.text) :=
  congrArg String.join h.map_text

theorem closeOffset_eq (h : Leaves schema ls leaves) (b : Bracket) (depth : Nat) :
    closeOffset b depth leaves = closeOffset b depth (ls.map (Token.ofLexeme (C := C))) := by
  induction h generalizing depth with
  | nil => rfl
  | @cons l t ls leaves hl _ ih =>
    rcases leaf_cases hl.2 with rfl | ⟨hkind, e, rfl, _⟩
    · simp only [List.map_cons, closeOffset, ih]
    · have hleaf : ∀ kind, kind = .opening b ∨ kind = .closing b → l.kind ≠ kind := by
        intro kind hb hk
        rw [hk] at hkind
        rcases hb with rfl | rfl <;> rcases hkind with hkind | hkind <;> cases hkind
      have hopen := hleaf _ (.inl rfl)
      have hclose := hleaf _ (.inr rfl)
      simp [closeOffset, ih, Token.resolved, Token.ofLexeme, hopen, hclose]

theorem kind_opening_iff {l : Lexeme} {t : Token C} (h : leaf? schema l = some t) (b : Bracket) :
    t.kind = .opening b ↔ l.kind = .opening b := by
  rcases leaf_cases h with rfl | ⟨hkind, e, rfl, _⟩
  · rfl
  · rcases hkind with hkind | hkind <;> simp [Token.resolved, hkind]

theorem groupLength_eq {l : Lexeme} {t : Token C} (hl : leaf? schema l = some t)
    (h : Leaves schema ls leaves) :
    groupLength t leaves = groupLength (Token.ofLexeme l) (ls.map (Token.ofLexeme (C := C))) := by
  rcases leaf_cases hl with rfl | ⟨hkind, e, rfl, _⟩
  · unfold groupLength
    split
    · exact h.closeOffset_eq _ 1
    · rfl
  · rcases hkind with hkind | hkind <;> simp [groupLength, Token.resolved, Token.ofLexeme, hkind]

theorem findClose_eq (h : Leaves schema ls leaves) (i : Nat) :
    findClose (ls.map (Token.ofLexeme (C := C))) i = findClose leaves i := by
  have hdrop := List.forall₂_drop i h
  unfold findClose
  rw [← List.map_drop]
  generalize ls.drop i = ms at hdrop
  generalize leaves.drop i = rest at hdrop
  cases hdrop with
  | nil => rfl
  | cons hl hrest =>
    rw [List.map_cons]
    simp only [groupLength_eq hl.2 hrest]

theorem sourceText_extract (h : Leaves schema ls leaves) (i j : Nat) :
    Token.sourceText ((ls.map (Token.ofLexeme (C := C))).extract i j) =
      Token.sourceText (leaves.extract i j) := by
  have htexts : (ls.map (Token.ofLexeme (C := C))).map Token.text = leaves.map Token.text := by
    rw [h.map_text, List.map_map]
    rfl
  simp only [Token.sourceText, List.extract, List.map_take, List.map_drop, htexts]

theorem resolve (h : Leaves schema ls leaves) (source : String) :
    checkUnknown source (ls.map (Token.ofLexeme (C := C))) = .ok () ∧
      resolveLeaves schema source (ls.map Token.ofLexeme) = .ok leaves :=
  ⟨(checkUnknown_ok_iff _ _ _).2 (List.forall_mem_map.2 h.known),
    (resolveLeavesFrom_ok_iff _ _ _ _ _).2 h.meaning⟩

end Leaves

namespace Logged

variable {α β γ : Type}

theorem tell_bind (events : List LogEvent) (f : Unit → Logged β) :
    tell events >>= f = ⟨events ++ (f ()).log, (f ()).result⟩ := rfl

theorem pure_bind (a : α) (f : α → Logged β) : pure a >>= f = f a := rfl

theorem ofExcept_ok_bind (a : α) (f : α → Logged β) : ofExcept (.ok a) >>= f = f a := rfl

theorem ofExcept_error_bind (e : ParseError) (f : α → Logged β) :
    ofExcept (.error e) >>= f = ⟨[], .error e⟩ := rfl

theorem error_of_bind_pure {x : Logged α} {f : α → β} {e : ParseError}
    (h : (x >>= fun a => pure (f a)).result = .error e) : x.result = .error e := by
  rw [result_bind] at h
  rcases bind_eq_error h with h | ⟨_, _, h⟩
  · exact h
  · cases h

theorem bind_assoc (x : Logged α) (f : α → Logged β) (g : β → Logged γ) :
    x >>= f >>= g = x >>= fun a => f a >>= g := by
  cases hx : x.result with
  | error e => rw [bind_error hx, bind_error hx, bind_error rfl]
  | ok a =>
    rw [bind_ok hx, bind_ok hx]
    cases hf : (f a).result with
    | error e => rw [bind_error rfl, bind_error hf]
    | ok b => rw [bind_ok rfl, bind_ok hf, List.append_assoc]

end Logged

/-! A list that condenses to one value tells of that too, after what it tells of the reductions. -/

section Condensing

variable {source : String} {groups : List (Token C)} {t : Token C} {e : ParseError}

theorem condense_of_solved
    (h : checkSolved source (Reduction.applyAll Reduction.pipeline groups) = .ok t) :
    condense source groups =
      ⟨.passed source "groupings" (groups.map Token.text) ::
        (passEvents source (Reduction.trail Reduction.pipeline groups) ++
          finishEvents source (t.rename source)), .ok (t.rename source)⟩ := by
  rw [condense, Logged.tell_bind, Logged.tell_bind, h, Logged.ofExcept_ok_bind, Logged.tell_bind]
  simp [Logged.pure_eq]

theorem condense_of_unsolved
    (h : checkSolved source (Reduction.applyAll Reduction.pipeline groups) = .error e) :
    condense source groups =
      ⟨.passed source "groupings" (groups.map Token.text) ::
        passEvents source (Reduction.trail Reduction.pipeline groups), .error e⟩ := by
  rw [condense, Logged.tell_bind, Logged.tell_bind, h, Logged.ofExcept_error_bind]
  simp

end Condensing

/-- Compiles leaves on their own, as the text that they spell. -/
def compileLeaves (leaves : List (Token C)) : Logged (Token C) := do
  Logged.tell [.started (Token.sourceText leaves)]
  let groups ← compileGroups leaves
  condense (Token.sourceText leaves) groups

section Compiling

variable {t opener closer : Token C} {rest inside back out : List (Token C)}

theorem result_compileLeaves (leaves : List (Token C)) :
    (compileLeaves leaves).result = groupValue leaves := by
  rw [compileLeaves, Logged.result_bind, Logged.result_bind]
  rfl

theorem compileGroups_of_single (hn : ∀ n, groupLength t rest ≠ some (n + 1)) :
    compileGroups (t :: rest) = (do
      let others ← compileGroups rest
      pure (t :: others)) := by
  rw [compileGroups]
  split
  · exact absurd ‹_› (hn _)
  · rfl

theorem groupLength_of_not_opening (ht : ∀ b, t.kind ≠ .opening b) (rest : List (Token C)) :
    groupLength t rest = none := by
  unfold groupLength
  split
  · next b hb => exact absurd hb (ht b)
  · rfl

theorem Encloses.groupLength_closer (h : Encloses opener inside closer) (back : List (Token C)) :
    groupLength closer back = none := by
  rcases h.exists_closing with ⟨b, hc⟩
  exact groupLength_of_not_opening (by simp [hc]) back

theorem compileGroups_of_pair (henc : Encloses opener inside closer) (hne : inside ≠ [])
    (back : List (Token C)) :
    compileGroups (opener :: (inside ++ closer :: back)) = (do
      let value ← compileLeaves inside
      let others ← compileGroups back
      pure (opener :: value :: closer :: others)) := by
  -- A pair of brackets that holds something is passed over as a whole: its inside is compiled on
  -- its own, then what stands behind the pair.
  rcases List.exists_cons_of_ne_nil hne with ⟨t, more, hinside⟩
  have hlength : inside.length = more.length + 1 := by
    rw [hinside, List.length_cons]
  have hn : groupLength opener (inside ++ closer :: back) = some (more.length + 1) :=
    groupLength_eq_some_iff.2 ⟨inside, closer, back, rfl, hlength, henc⟩
  have hcloser : ∀ n, groupLength closer back ≠ some (n + 1) := by
    intro n h
    rw [henc.groupLength_closer] at h
    cases h
  rw [compileGroups, hn]
  simp only [List.take_left' hlength, List.drop_left' hlength, compileGroups_of_single hcloser,
    compileLeaves, Logged.bind_assoc, Logged.pure_bind]

theorem compileGroups_pair_ok_iff (henc : Encloses opener inside closer) (hne : inside ≠ []) :
    (compileGroups (opener :: (inside ++ closer :: back))).result = .ok out ↔
      ∃ value others, (compileLeaves inside).result = .ok value ∧
        (compileGroups back).result = .ok others ∧ out = opener :: value :: closer :: others := by
  rw [compileGroups_of_pair henc hne]
  simp only [Logged.bind_ok_iff, Logged.pure_eq, Except.ok.injEq]
  constructor
  · intro ⟨value, hv, others, ho, heq⟩
    exact ⟨value, others, hv, ho, heq.symm⟩
  · intro ⟨value, others, hv, ho, heq⟩
    exact ⟨value, hv, others, ho, heq.symm⟩

theorem pairs_induction {P : List (Token C) → Prop} (nil : P [])
    (pair : ∀ opener inside closer back, Encloses opener inside closer → inside ≠ [] →
      P inside → P back → P (opener :: (inside ++ closer :: back)))
    (single : ∀ t rest, (∀ n, groupLength t rest ≠ some (n + 1)) → P rest → P (t :: rest))
    (tokens : List (Token C)) : P tokens := by
  induction hlength : tokens.length using Nat.strongRecOn generalizing tokens with
  | ind _ ih =>
    subst hlength
    cases tokens with
    | nil => exact nil
    | cons t rest =>
      by_cases hpair : ∃ n, groupLength t rest = some (n + 1)
      · rcases hpair with ⟨n, hn⟩
        rcases groupLength_eq_some_iff.1 hn with ⟨inside, closer, back, rfl, hlen, henc⟩
        simp only [List.length_cons, List.length_append] at ih
        exact pair t inside closer back henc (List.ne_nil_of_length_eq_add_one hlen)
          (ih _ (by omega) inside rfl) (ih _ (by omega) back rfl)
      · rw [not_exists] at hpair
        exact single t rest hpair (ih _ (Nat.lt_succ_self _) rest rfl)

end Compiling

/-- The tokens are the leaves of the text that they spell. -/
def OwnLeaves (schema : Schema C) (tokens : List (Token C)) : Prop :=
  Leaves schema (Lexeme.ofSource (Token.sourceText tokens)) tokens

theorem Leaves.own {source : String} {leaves inner : List (Token C)}
    (h : Leaves schema (Lexeme.ofSource source) leaves) (hinner : inner <:+: leaves) :
    OwnLeaves schema inner := by
  rcases h.piece hinner with ⟨ms, hms, hleaves⟩
  rw [OwnLeaves, hleaves.sourceText_eq, Lexeme.ofSource_join hms]
  exact hleaves

namespace OwnLeaves

variable {tokens inner : List (Token C)} {t : Token C} {e : Expr C}

theorem piece (h : OwnLeaves schema tokens) (hinner : inner <:+: tokens) :
    OwnLeaves schema inner :=
  Leaves.own h hinner

theorem stripBlanks (h : OwnLeaves schema tokens) :
    Text.stripBlanks (Token.sourceText tokens) = Token.sourceText tokens := by
  rw [← Lexeme.join_ofSource, ← Leaves.sourceText_eq h]

theorem coherent (h : OwnLeaves schema tokens) : ∀ t ∈ tokens, t.Coherent :=
  coherent_resolveLeaves (coherent_tokenize (Token.sourceText tokens))
    (Leaves.resolve h (Token.sourceText tokens)).2

theorem compile_eq (h : OwnLeaves schema tokens) :
    compile schema (Token.sourceText tokens) = (do
      let t ← compileLeaves tokens
      Logged.ofExcept (tokenValue (Token.sourceText tokens) t)) := by
  rcases Leaves.resolve h (Token.sourceText tokens) with ⟨hknown, hleaves⟩
  rw [compile, h.stripBlanks, compileTokens, compileLeaves, tokenize, hknown, hleaves]
  rfl

theorem log_compile (h : OwnLeaves schema tokens) :
    (compile schema (Token.sourceText tokens)).log = (compileLeaves tokens).log := by
  rw [h.compile_eq]
  cases ht : (compileLeaves tokens).result with
  | error e => rw [Logged.bind_error ht]
  | ok t => rw [Logged.bind_ok ht, Logged.ofExcept, List.append_nil]

theorem parse_error {e : ParseError} (h : OwnLeaves schema tokens)
    (he : (compileLeaves tokens).result = .error e) :
    parse schema (Token.sourceText tokens) = .error e := by
  rw [parse, h.compile_eq, Logged.bind_error he]

theorem parse_ok (h : OwnLeaves schema tokens) (ht : (compileLeaves tokens).result = .ok t) :
    ∃ e, t = Token.resolved e ∧ parse schema (Token.sourceText tokens) = .ok e := by
  rw [result_compileLeaves] at ht
  rcases bind_eq_ok ht with ⟨groups, hgroups, hcondense⟩
  rcases resolved_of_condense (coherent_compileGroups h.coherent hgroups) hcondense with ⟨e, rfl, _⟩
  refine ⟨e, rfl, ?_⟩
  rw [← result_compileLeaves] at ht
  rw [parse, h.compile_eq, Logged.bind_ok ht]
  rfl

theorem result_of_error {e : ParseError} (h : OwnLeaves schema tokens)
    (he : parse schema (Token.sourceText tokens) = .error e) :
    (compileLeaves tokens).result = .error e := by
  cases hr : (compileLeaves tokens).result with
  | error d =>
    rw [h.parse_error hr] at he
    rw [Except.error.inj he]
  | ok t =>
    rcases h.parse_ok hr with ⟨f, _, hf⟩
    rw [hf] at he
    cases he

theorem result_of_ok (h : OwnLeaves schema tokens)
    (he : parse schema (Token.sourceText tokens) = .ok e) :
    (compileLeaves tokens).result = .ok (Token.resolved e) := by
  cases hr : (compileLeaves tokens).result with
  | error d =>
    rw [h.parse_error hr] at he
    cases he
  | ok t =>
    rcases h.parse_ok hr with ⟨f, rfl, hf⟩
    rw [hf] at he
    rw [Except.ok.inj he]

end OwnLeaves

theorem not_unresolved_of_resolveLeaf {source : String} {offset : Nat} {t : Token C}
    {e : ParseError} (h : resolveLeaf schema source offset t = .error e) : ¬ e.Unresolved := by
  intro ⟨remaining, span, text, he⟩
  subst he
  unfold resolveLeaf at h
  split at h
  · split at h <;> cases h
  · split at h <;> cases h
  · cases h

theorem not_unresolved_of_resolveLeavesFrom {source : String} {offset : Nat}
    {tokens : List (Token C)} {e : ParseError}
    (h : resolveLeavesFrom schema source offset tokens = .error e) : ¬ e.Unresolved := by
  induction tokens generalizing offset with
  | nil => cases h
  | cons t rest ih =>
    rw [resolveLeavesFrom] at h
    rcases bind_eq_error h with h | ⟨leaf, _, h⟩
    · exact not_unresolved_of_resolveLeaf h
    · rcases bind_eq_error h with h | ⟨leaves, _, h⟩
      · exact ih h
      · cases h

theorem not_unresolved_of_checkUnknown {source : String} {tokens : List (Token C)} {e : ParseError}
    (h : checkUnknown source tokens = .error e) : ¬ e.Unresolved := by
  intro ⟨remaining, span, text, he⟩
  subst he
  unfold checkUnknown at h
  split at h <;> cases h

theorem compile_cases (schema : Schema C) (source : String) :
    (∃ e : ParseError, ¬ e.Unresolved ∧
      compile schema source = ⟨[.started (Text.stripBlanks source)], .error e⟩) ∨
    ∃ leaves, OwnLeaves schema leaves ∧ Token.sourceText leaves = Text.stripBlanks source ∧
      Leaves schema (Lexeme.ofSource source) leaves ∧
      compile schema source = compile schema (Token.sourceText leaves) := by
  cases hcheck : checkUnknown (Text.stripBlanks source) (tokenize C (Text.stripBlanks source)) with
  | error e =>
    refine .inl ⟨e, not_unresolved_of_checkUnknown hcheck, ?_⟩
    rw [compile, compileTokens, hcheck]
    rfl
  | ok u =>
    cases hresolve : resolveLeaves schema (Text.stripBlanks source)
        (tokenize C (Text.stripBlanks source)) with
    | error e =>
      refine .inl ⟨e, not_unresolved_of_resolveLeavesFrom hresolve, ?_⟩
      rw [compile, compileTokens, hcheck, hresolve]
      rfl
    | ok leaves =>
      rw [tokenize_stripBlanks, checkUnknown_ok_iff, List.forall_mem_map] at hcheck
      rw [tokenize_stripBlanks, resolveLeaves, resolveLeavesFrom_ok_iff] at hresolve
      have hleaves : Leaves schema (Lexeme.ofSource source) leaves :=
        (List.forall₂_and_left _ _).2 ⟨hcheck, hresolve⟩
      have htext : Token.sourceText leaves = Text.stripBlanks source := by
        rw [hleaves.sourceText_eq, Lexeme.join_ofSource]
      refine .inr ⟨leaves, hleaves.own (List.infix_refl leaves), htext, hleaves, ?_⟩
      rw [htext, compile, compile, Text.stripBlanks_stripBlanks]

theorem Balanced.encloses {ts : List (Token C)} (h : Balanced ts) (b : Bracket) :
    Encloses (Token.ofLexeme (.opening b)) ts (Token.ofLexeme (.closing b)) := by
  rw [encloses_iff_groupLength]
  simp [groupLength, Token.ofLexeme, h b 1 _ (Nat.le_refl 1), closeOffset]

def Paired (tokens : List (Token C)) : Prop :=
  ∀ front opener rest b, tokens = front ++ opener :: rest → opener.kind = .opening b →
    ∃ inside closer back, rest = inside ++ closer :: back ∧ inside ≠ [] ∧
      Encloses opener inside closer

namespace Paired

variable {ts us : List (Token C)} {t : Token C}

theorem nil : Paired ([] : List (Token C)) := by
  intro front opener rest b h
  cases front <;> cases h

theorem cons (ht : ∀ b, t.kind ≠ .opening b) (h : Paired ts) : Paired (t :: ts) := by
  intro front opener rest b heq hkind
  cases front with
  | nil =>
    rcases List.cons.inj heq with ⟨rfl, _⟩
    exact absurd hkind (ht b)
  | cons u front => exact h front opener rest b (List.cons.inj heq).2 hkind

theorem append (ht : Paired ts) (hu : Paired us) : Paired (ts ++ us) := by
  intro front opener rest b heq hkind
  rcases split_cases heq with ⟨between, hts, hrest⟩ | ⟨between, _, hus⟩
  · rcases ht front opener between b hts hkind with ⟨inside, closer, back, hb, hne, henc⟩
    refine ⟨inside, closer, back ++ us, ?_, hne, henc⟩
    rw [hrest, hb, List.append_assoc, List.cons_append]
  · exact hu between opener rest b hus hkind

theorem of_suffix (h : Paired ts) (hsuffix : us <:+ ts) : Paired us := by
  rcases hsuffix with ⟨before, rfl⟩
  intro front opener rest b heq hkind
  refine h (before ++ front) opener rest b ?_ hkind
  rw [heq, List.append_assoc]

theorem group {opener closer : Token C} {inside back : List (Token C)}
    (henc : Encloses opener inside closer) (hne : inside ≠ []) (hinside : Paired inside)
    (hback : Paired back) : Paired (opener :: (inside ++ closer :: back)) := by
  rcases henc.exists_closing with ⟨c, hc⟩
  have hbehind : Paired (closer :: back) := cons (by simp [hc]) hback
  intro front o rest b heq hkind
  cases front with
  | nil =>
    rcases List.cons.inj heq with ⟨rfl, rfl⟩
    exact ⟨inside, closer, back, rfl, hne, henc⟩
  | cons u front => exact (hinside.append hbehind) front o rest b (List.cons.inj heq).2 hkind

theorem wrap (b : Bracket) (hb : Balanced ts) (hne : ts ≠ []) (h : Paired ts) :
    Paired (Token.ofLexeme (.opening b) :: (ts ++ [Token.ofLexeme (.closing b)])) :=
  group (hb.encloses b) hne h nil

end Paired

theorem Term.paired_leaves (schema : Schema C) (t : Term) : Paired (t.leaves schema) := by
  induction t with
  | number text => exact Paired.nil.cons nofun
  | name text => exact Paired.nil.cons nofun
  | group inner ih =>
    exact ih.wrap .round (inner.balanced_leaves schema) (inner.leaves_ne_nil schema)
  | entry vector index ihv ihi =>
    exact ihv.append
      (ihi.wrap .square (index.balanced_leaves schema) (index.leaves_ne_nil schema))
  | prefixed op operand ih => exact ih.cons op.kind_ne_opening
  | binary op left right ihl ihr => exact ihl.append (ihr.cons op.kind_ne_opening)

theorem Leaves.eq_of_derives {ls : List Lexeme} {leaves : List (Token C)} {t : Term} {level : Level}
    (h : Leaves schema ls leaves) (ht : Derives schema level t ls) (hr : Readable ls) :
    leaves = t.leaves schema :=
  h.unique (leaf?_leaves ht hr)

theorem OwnLeaves.paired {tokens : List (Token C)} {e : Expr C} (h : OwnLeaves schema tokens)
    (he : parse schema (Token.sourceText tokens) = .ok e) : Paired tokens := by
  rcases derives_of_parse he with ⟨t, ht, _⟩
  rw [Leaves.eq_of_derives h ht (readable_of_parse he)]
  exact t.paired_leaves schema

end EventCuts
