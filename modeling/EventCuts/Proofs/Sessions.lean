import EventCuts.Proofs.Coherence
import EventCuts.Session

/-!
# Runs of calls on a session

What a session answers after any run of calls, told from the run alone: it resolves as a fresh
compilation of its source does, and its tokens are none, the lexemes of the source or the one
resolved token, by what the calls since the source was set have done and answered.
-/

namespace EventCuts

variable {C : Type}

inductive Call where
  | setSource (source : String)
  | tokenize
  | tokens
  | source
  | resolve
  | resolveToken
deriving DecidableEq, Repr

inductive Event (C : Type) where
  | setSource (source : String)
  | tokenize (tokens : List (Token C))
  | tokens (tokens : List (Token C))
  | source (text : String)
  | resolve (result : Except ParseError (Expr C))
  | resolveToken (result : Except ParseError (Token C))

def Call.setsSource : Call → Bool
  | setSource _ => true
  | _ => false

namespace Event

def usesTokens : Event C → Bool
  | tokenize _ | resolve _ | resolveToken _ => true
  | _ => false

def solves : Event C → Bool
  | resolve (.ok _) | resolveToken (.ok _) => true
  | _ => false

def note (past : List (Event C)) : Event C → List (Event C)
  | setSource _ => []
  | e => e :: past

def sinceSource (events : List (Event C)) : List (Event C) := events.foldl note []

theorem usesTokens_of_solves {e : Event C} (h : e.solves = true) : e.usesTokens = true := by
  cases e with
  | resolve result => rfl
  | resolveToken result => rfl
  | _ => cases h

end Event

def lastSource (first : String) (calls : List Call) : String :=
  calls.foldl (fun text call => match call with
    | .setSource source => source
    | _ => text) first

namespace Session

variable {schema : Schema C}

def call (schema : Schema C) (s : Session C) : Call → Session C × Event C
  | .setSource source => (s.setSource source, .setSource source)
  | .tokenize => (s.tokenize, .tokenize s.tokenize.tokens)
  | .tokens => (s, .tokens s.tokens)
  | .source => (s, .source s.source)
  | .resolve => ((s.resolve schema).1, .resolve (s.resolve schema).2)
  | .resolveToken => ((s.resolveToken schema).1, .resolveToken (s.resolveToken schema).2)

def run (schema : Schema C) (s : Session C) : List Call → Session C × List (Event C)
  | [] => (s, [])
  | c :: calls =>
    let next := s.call schema c
    let last := next.1.run schema calls
    (last.1, next.2 :: last.2)

def fresh (schema : Schema C) (s : Session C) : Except ParseError (Token C) :=
  (compileTokens schema s.source (EventCuts.tokenize C s.source)).result

theorem fresh_eq (s : Session C) (h : Text.stripBlanks s.source = s.source) :
    s.fresh schema = (parse schema s.source).map Token.resolved := by
  simp only [parse, compile, h, Logged.bind_eq, Logged.bind, fresh]
  cases ht : (compileTokens schema s.source (EventCuts.tokenize C s.source)).result with
  | error e => rfl
  | ok t =>
    obtain ⟨e, rfl, _⟩ := resolved_of_compileTokens (coherent_tokenize s.source) ht
    rfl

/-- What the events since the source was set tell about a session. -/
structure Remembers (schema : Schema C) (s : Session C) (past : List (Event C)) : Prop where
  stripped : Text.stripBlanks s.source = s.source
  untouched : (∀ e ∈ past, e.usesTokens = false) → s.progress = .untouched
  tokenized : (∃ e ∈ past, e.usesTokens = true) → (∀ e ∈ past, e.solves = false) →
    s.progress = .tokenized (EventCuts.tokenize C s.source)
  solved : (∃ e ∈ past, e.solves = true) →
    ∃ t, s.progress = .solved t ∧ s.fresh schema = .ok t

namespace Remembers

variable {s : Session C} {past : List (Event C)}

theorem start (source : String) : Remembers schema (start source) [] where
  stripped := Text.stripBlanks_stripBlanks source
  untouched := fun _ => rfl
  tokenized := fun ⟨_, h, _⟩ => absurd h List.not_mem_nil
  solved := fun ⟨_, h, _⟩ => absurd h List.not_mem_nil

theorem progress_cases (h : Remembers schema s past) :
    (s.progress = .untouched ∧ ∀ e ∈ past, e.usesTokens = false) ∨
      (s.progress = .tokenized (EventCuts.tokenize C s.source) ∧
        (∃ e ∈ past, e.usesTokens = true) ∧ ∀ e ∈ past, e.solves = false) ∨
      ∃ t, s.progress = .solved t ∧ s.fresh schema = .ok t ∧ ∃ e ∈ past, e.solves = true := by
  by_cases hs : ∃ e ∈ past, e.solves = true
  · obtain ⟨t, ht, hf⟩ := h.solved hs
    exact .inr (.inr ⟨t, ht, hf, hs⟩)
  · have hnone : ∀ e ∈ past, e.solves = false := by simpa using hs
    by_cases hu : ∃ e ∈ past, e.usesTokens = true
    · exact .inr (.inl ⟨h.tokenized hu hnone, hu, hnone⟩)
    · have huntouched : ∀ e ∈ past, e.usesTokens = false := by simpa using hu
      exact .inl ⟨h.untouched huntouched, huntouched⟩

theorem resolveToken_eq (h : Remembers schema s past) :
    s.resolveToken schema = match s.fresh schema with
      | .ok t => ({ s with progress := .solved t }, .ok t)
      | .error e =>
        ({ s with progress := .tokenized (EventCuts.tokenize C s.source) }, .error e) := by
  obtain ⟨source, progress⟩ := s
  rcases h.progress_cases with ⟨hp, _⟩ | ⟨hp, _⟩ | ⟨t, hp, hf, _⟩
  · dsimp only at hp
    subst hp
    cases hf : (compileTokens schema source (EventCuts.tokenize C source)).result <;>
      simp only [Session.resolveToken, Session.tokenize, tokens, fresh, hf]
  · dsimp only at hp
    subst hp
    cases hf : (compileTokens schema source (EventCuts.tokenize C source)).result <;>
      simp only [Session.resolveToken, Session.tokenize, tokens, fresh, hf]
  · dsimp only at hp
    subst hp
    rw [hf]
    rfl

theorem resolve_eq (h : Remembers schema s past) :
    s.resolve schema = ((s.resolveToken schema).1, parse schema s.source) := by
  have htoken := h.resolveToken_eq
  rw [s.fresh_eq h.stripped] at htoken
  rw [resolve, htoken]
  cases parse schema s.source <;> rfl

theorem resolveToken_snd (h : Remembers schema s past) :
    (s.resolveToken schema).2 = (parse schema s.source).map Token.resolved := by
  rw [← s.fresh_eq h.stripped, h.resolveToken_eq]
  cases s.fresh schema <;> rfl

theorem idle (h : Remembers schema s past) {e : Event C} (he : e.usesTokens = false) :
    Remembers schema s (e :: past) where
  stripped := h.stripped
  untouched := fun hall => h.untouched (List.forall_mem_cons.1 hall).2
  tokenized := by
    intro ⟨x, hx, hu⟩ hall
    refine h.tokenized ⟨x, ?_, hu⟩ (List.forall_mem_cons.1 hall).2
    refine (List.mem_cons.1 hx).resolve_left ?_
    rintro rfl
    rw [he] at hu
    cases hu
  solved := by
    intro ⟨x, hx, hs⟩
    refine h.solved ⟨x, (List.mem_cons.1 hx).resolve_left ?_, hs⟩
    rintro rfl
    rw [Event.usesTokens_of_solves hs] at he
    cases he

theorem active (h : Remembers schema s past) {progress : Progress C} {e : Event C}
    (he : e.usesTokens = true)
    (htokenized : e.solves = false → (∀ x ∈ past, x.solves = false) →
      progress = .tokenized (EventCuts.tokenize C s.source))
    (hsolved : e.solves = true ∨ (∃ x ∈ past, x.solves = true) →
      ∃ t, progress = .solved t ∧ s.fresh schema = .ok t) :
    Remembers schema { s with progress } (e :: past) where
  stripped := h.stripped
  untouched := by
    intro hall
    have hnot := (List.forall_mem_cons.1 hall).1
    rw [he] at hnot
    cases hnot
  tokenized := by
    intro _ hall
    obtain ⟨hnot, hpast⟩ := List.forall_mem_cons.1 hall
    exact htokenized hnot hpast
  solved := by
    intro ⟨x, hx, hs⟩
    rcases List.mem_cons.1 hx with rfl | hx
    · exact hsolved (.inl hs)
    · exact hsolved (.inr ⟨x, hx, hs⟩)

theorem tokenize (h : Remembers schema s past) (e : Event C) (he : e.usesTokens = true)
    (hs : e.solves = false) : Remembers schema s.tokenize (e :: past) := by
  have hkeep : s.tokenize = { s with progress := s.tokenize.progress } := by
    obtain ⟨source, _ | tokens | token⟩ := s <;> rfl
  rw [hkeep]
  refine h.active he ?_ ?_
  · intro _ hpast
    rcases h.progress_cases with ⟨hp, _⟩ | ⟨hp, _⟩ | ⟨_, _, _, x, hx, hsolves⟩
    · simp only [Session.tokenize, hp]
    · simp only [Session.tokenize, hp]
    · rw [hpast x hx] at hsolves
      cases hsolves
  · intro hor
    obtain ⟨t, hp, hf⟩ := h.solved (hor.resolve_left (by simp [hs]))
    exact ⟨t, by simp only [Session.tokenize, hp], hf⟩

theorem resolveToken (h : Remembers schema s past) {e : Event C} (he : e.usesTokens = true)
    (hs : e.solves = (s.fresh schema).isOk) :
    Remembers schema (s.resolveToken schema).1 (e :: past) := by
  rw [h.resolveToken_eq]
  cases hf : s.fresh schema with
  | ok t =>
    rw [hf] at hs
    refine h.active he ?_ fun _ => ⟨t, rfl, hf⟩
    intro hnot
    rw [hnot] at hs
    cases hs
  | error failure =>
    rw [hf] at hs
    refine h.active he (fun _ _ => rfl) ?_
    rintro (hsolves | hpast)
    · rw [hs] at hsolves
      cases hsolves
    · obtain ⟨t, _, ht⟩ := h.solved hpast
      rw [hf] at ht
      cases ht

theorem call (h : Remembers schema s past) (c : Call) :
    Remembers schema (s.call schema c).1 (Event.note past (s.call schema c).2) := by
  cases c with
  | setSource source => exact start source
  | tokenize => exact h.tokenize _ rfl rfl
  | tokens => exact h.idle rfl
  | source => exact h.idle rfl
  | resolve =>
    have hfresh : s.fresh schema = _ := s.fresh_eq h.stripped
    simp only [Session.call, h.resolve_eq]
    refine h.resolveToken rfl ?_
    rw [hfresh]
    cases parse schema s.source <;> rfl
  | resolveToken =>
    have hfresh : s.fresh schema = _ := s.fresh_eq h.stripped
    simp only [Session.call]
    refine h.resolveToken rfl ?_
    rw [h.resolveToken_snd, hfresh]
    cases parse schema s.source <;> rfl

theorem run (h : Remembers schema s past) (calls : List Call) :
    Remembers schema (s.run schema calls).1
      ((s.run schema calls).2.foldl Event.note past) := by
  induction calls generalizing s past with
  | nil => exact h
  | cons c calls ih => exact ih (h.call c)

end Remembers

theorem source_call (schema : Schema C) (s : Session C) (c : Call) :
    (s.call schema c).1.source = match c with
      | .setSource source => Text.stripBlanks source
      | _ => s.source := by
  have htoken : (s.resolveToken schema).1.source = s.source := by
    obtain ⟨source, _ | tokens | token⟩ := s
    · simp only [resolveToken]
      split <;> rfl
    · simp only [resolveToken]
      split <;> rfl
    · rfl
  cases c with
  | setSource source => rfl
  | tokenize => obtain ⟨source, _ | tokens | token⟩ := s <;> rfl
  | tokens => rfl
  | source => rfl
  | resolve => exact htoken
  | resolveToken => exact htoken

theorem source_run (schema : Schema C) {s : Session C} {text : String}
    (h : s.source = Text.stripBlanks text) (calls : List Call) :
    (s.run schema calls).1.source = Text.stripBlanks (lastSource text calls) := by
  induction calls generalizing s text with
  | nil => exact h
  | cons c calls ih =>
    have hc := source_call schema s c
    cases c with
    | setSource source => exact ih hc
    | _ => exact ih (hc.trans h)

theorem call_of_failed {s : Session C} {failure : ParseError} {c : Call}
    (hp : s.progress = .tokenized (EventCuts.tokenize C s.source))
    (hf : s.fresh schema = .error failure) (hc : c.setsSource = false) :
    (s.call schema c).1 = s := by
  obtain ⟨source, progress⟩ := s
  dsimp only at hp
  subst hp
  have htoken : Session.resolveToken schema (⟨source, .tokenized (EventCuts.tokenize C source)⟩) =
      (⟨source, .tokenized (EventCuts.tokenize C source)⟩, .error failure) := by
    rw [fresh] at hf
    simp only [resolveToken, tokenize, tokens, hf]
  cases c with
  | setSource source => cases hc
  | resolve => exact congrArg Prod.fst htoken
  | resolveToken => exact congrArg Prod.fst htoken
  | _ => rfl

theorem run_of_failed {s : Session C} {failure : ParseError} {calls : List Call}
    (hp : s.progress = .tokenized (EventCuts.tokenize C s.source))
    (hf : s.fresh schema = .error failure) (hc : ∀ c ∈ calls, c.setsSource = false) :
    (s.run schema calls).1 = s := by
  induction calls with
  | nil => rfl
  | cons c calls ih =>
    obtain ⟨hfirst, hrest⟩ := List.forall_mem_cons.1 hc
    simp only [run, call_of_failed hp hf hfirst]
    exact ih hrest

theorem Remembers.run_of_failure {s : Session C} {past : List (Event C)} {failure : ParseError}
    {later : List Call} (h : Remembers schema s past)
    (hfailed : (s.resolve schema).2 = .error failure) (hlater : ∀ c ∈ later, c.setsSource = false) :
    let next := ((s.resolve schema).1.run schema later).1
    next.source = s.source ∧ next.tokens = EventCuts.tokenize C s.source ∧
      (next.resolve schema).2 = .error failure ∧ (next.resolveToken schema).2 = .error failure := by
  have hparse : parse schema s.source = .error failure := by
    rw [← hfailed, h.resolve_eq]
  have hfresh : s.fresh schema = .error failure := by
    rw [s.fresh_eq h.stripped, hparse]
    rfl
  have hnext : (s.resolve schema).1 =
      { s with progress := .tokenized (EventCuts.tokenize C s.source) } := by
    rw [h.resolve_eq, h.resolveToken_eq, hfresh]
  have hkept : Remembers schema (s.resolve schema).1 (Event.note past (.resolve _)) :=
    h.call .resolve
  rw [hnext] at hkept ⊢
  intro next
  have hrun : next = { s with progress := .tokenized (EventCuts.tokenize C s.source) } :=
    run_of_failed rfl hfresh hlater
  rw [hrun]
  refine ⟨rfl, rfl, ?_, ?_⟩
  · rw [hkept.resolve_eq]
    exact hparse
  · rw [hkept.resolveToken_snd, hparse]
    rfl

/-- A session resolves as a fresh compilation of its source, whatever was called before, and
its tokens follow from what was called and answered since the source was set. -/
theorem run_faithful (schema : Schema C) (source : String) (calls : List Call) :
    let s : Session C := ((start source).run schema calls).1
    let past := Event.sinceSource ((start source).run schema calls).2
    s.source = Text.stripBlanks (lastSource source calls) ∧
      (s.resolve schema).2 = parse schema s.source ∧
      (s.resolveToken schema).2 = (parse schema s.source).map Token.resolved ∧
      ((∀ e ∈ past, e.usesTokens = false) → s.tokens = []) ∧
      ((∃ e ∈ past, e.usesTokens = true) → (∀ e ∈ past, e.solves = false) →
        s.tokens = EventCuts.tokenize C s.source) ∧
      ((∃ e ∈ past, e.solves = true) → ∃ t e, s.tokens = [t] ∧ t.kind = .resolved e.shape ∧
        t.text = s.source ∧ t.value = some e ∧ e.name = s.source) ∧
      ∀ failure, (s.resolve schema).2 = .error failure →
        ∀ later, (∀ c ∈ later, c.setsSource = false) →
          let next := ((s.resolve schema).1.run schema later).1
          next.source = s.source ∧ next.tokens = EventCuts.tokenize C s.source ∧
            (next.resolve schema).2 = .error failure ∧
            (next.resolveToken schema).2 = .error failure := by
  intro s past
  have h : Remembers schema s past := (Remembers.start source).run calls
  refine ⟨source_run schema rfl calls, ?_, h.resolveToken_snd, ?_, ?_, ?_, ?_⟩
  · rw [h.resolve_eq]
  · intro hall
    rw [tokens, h.untouched hall]
  · intro hused hall
    rw [tokens, h.tokenized hused hall]
  · intro hsolved
    obtain ⟨t, hp, hf⟩ := h.solved hsolved
    obtain ⟨e, rfl, hname⟩ := resolved_of_compileTokens (coherent_tokenize s.source) hf
    exact ⟨_, e, by rw [tokens, hp], rfl, hname, rfl, hname⟩
  · exact fun failure hfailed later hlater => h.run_of_failure hfailed hlater

end Session

end EventCuts
