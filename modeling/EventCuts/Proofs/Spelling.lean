import EventCuts.Proofs.FileNames
import EventCuts.Proofs.Munch
import EventCuts.Proofs.Spacing
import Mathlib.Data.List.Destutter

/-!
# Plain names by lexemes

A name is spelled out by replacing pairs of characters, then single ones, in the whole text and
without cutting it. For what compiles this comes to a word for each lexeme: a pair that goes
through two lexemes would end with an operator between two operands, and in front of that stands
the end of an operand, where no pair starts. The words hold no characters of pairs, so replacing
one pair makes no other.
-/

namespace EventCuts

variable {C : Type} {schema : Schema C}

namespace Name

theorem replacePair_append {first second : Char} {text more : List Char} (word : List Char)
    (h : ¬ (text.getLast? = some first ∧ more.head? = some second)) :
    replacePair first second word (text ++ more) =
      replacePair first second word text ++ replacePair first second word more := by
  -- A pair is replaced on both sides of a cut that does not go through one.
  fun_induction replacePair first second word text with
  | case1 c d rest hmatch ih =>
    have hlast : ¬ (rest.getLast? = some first ∧ more.head? = some second) := by
      rintro ⟨hlast, hhead⟩
      refine h ⟨?_, hhead⟩
      rw [List.getLast?_cons, List.getLast?_cons, hlast]
      rfl
    rw [List.cons_append, List.cons_append, replacePair, if_pos hmatch, ih hlast, List.append_assoc]
  | case2 c d rest hmatch ih =>
    rw [List.cons_append, List.cons_append, replacePair, if_neg hmatch, ← List.cons_append, ih ?_,
      List.cons_append]
    rwa [List.getLast?_cons_cons] at h
  | case3 text hshort =>
    rcases text with _ | ⟨c, _ | ⟨d, rest⟩⟩
    · rfl
    · cases more with
      | nil => rfl
      | cons d rest =>
        have hmatch : ¬ (c = first ∧ d = second) := by
          simpa using h
        rw [List.singleton_append, replacePair, if_neg hmatch, List.singleton_append]
    · exact absurd rfl (hshort c d rest)

def Apart (text more : List Char) : Prop :=
  (∀ pair ∈ pairWords, pair.1 ∉ text) ∨ ∀ pair ∈ pairWords, more.head? ≠ some pair.2.1

theorem head?_replacePair {first second x : Char} {word text : List Char} (hword : word ≠ [])
    (h : (replacePair first second word text).head? = some x) :
    x ∈ word ∨ text.head? = some x := by
  rcases text with _ | ⟨c, _ | ⟨d, rest⟩⟩
  · exact .inr h
  · exact .inr h
  · rw [replacePair] at h
    split at h
    · rw [List.head?_append_of_ne_nil _ hword] at h
      exact .inl (List.mem_of_head? h)
    · exact .inr h

section Cutting

variable {text more : List Char} {pair : Char × Char × String}

theorem not_isNameChar_of_pairWords :
    ∀ pair ∈ pairWords, Lexeme.isNameChar pair.1 = false ∧ Lexeme.isNameChar pair.2.1 = false := by
  decide

theorem word_of_pairWords :
    ∀ pair ∈ pairWords,
      pair.2.2.toList ≠ [] ∧ pair.2.2.toList.all Lexeme.isNameChar = true := by
  decide

theorem Apart.replacePair (h : Apart text more) (hpair : pair ∈ pairWords) :
    Apart (replacePair pair.1 pair.2.1 pair.2.2.toList text)
      (replacePair pair.1 pair.2.1 pair.2.2.toList more) := by
  rcases h with h | h
  · rw [replacePair_of_not_mem (h pair hpair)]
    exact .inl h
  · rcases word_of_pairWords pair hpair with ⟨hne, hword⟩
    refine .inr fun other hother hhead => ?_
    rcases head?_replacePair hne hhead with hmem | hhead
    · have hspelled := List.all_eq_true.1 hword other.2.1 hmem
      rw [(not_isNameChar_of_pairWords other hother).2] at hspelled
      cases hspelled
    · exact h other hother hhead

theorem Apart.replacePair_append (h : Apart text more) (hpair : pair ∈ pairWords) :
    Name.replacePair pair.1 pair.2.1 pair.2.2.toList (text ++ more) =
      Name.replacePair pair.1 pair.2.1 pair.2.2.toList text ++
        Name.replacePair pair.1 pair.2.1 pair.2.2.toList more := by
  refine Name.replacePair_append _ ?_
  rintro ⟨hlast, hhead⟩
  rcases h with h | h
  · exact h pair hpair (List.mem_of_getLast? hlast)
  · exact h pair hpair hhead

theorem foldl_append_of_steps {α β : Type} {step : List α → β → List α}
    {R : List α → List α → Prop} {bs : List β}
    (h : ∀ b ∈ bs, ∀ xs ys, R xs ys →
      step (xs ++ ys) b = step xs b ++ step ys b ∧ R (step xs b) (step ys b))
    {xs ys : List α} (hR : R xs ys) :
    bs.foldl step (xs ++ ys) = bs.foldl step xs ++ bs.foldl step ys := by
  induction bs generalizing xs ys with
  | nil => rfl
  | cons b bs ih =>
    rcases List.forall_mem_cons.1 h with ⟨hb, hbs⟩
    rcases hb xs ys hR with ⟨hstep, hR⟩
    rw [List.foldl_cons, List.foldl_cons, List.foldl_cons, hstep, ih hbs hR]

theorem Apart.spellPairs_append (h : Apart text more) :
    spellPairs (text ++ more) = spellPairs text ++ spellPairs more :=
  foldl_append_of_steps
    (fun _ hpair _ _ h => ⟨h.replacePair_append hpair, h.replacePair hpair⟩) h

theorem spellChars_append (text more : List Char) :
    spellChars (text ++ more) = spellChars text ++ spellChars more := by
  rw [spellChars, spellChars, spellChars]
  refine foldl_append_of_steps (R := fun _ _ => True) (fun pair _ xs ys _ => ⟨?_, trivial⟩) trivial
  exact List.flatMap_append

theorem spellChars_nil : spellChars [] = [] := foldl_eq_self fun _ _ => rfl

theorem spellChars_flatMap {α : Type} (f : α → List Char) (as : List α) :
    spellChars (as.flatMap f) = as.flatMap fun a => spellChars (f a) := by
  induction as with
  | nil => exact spellChars_nil
  | cons a as ih => rw [List.flatMap_cons, List.flatMap_cons, spellChars_append, ih]

end Cutting

theorem collapse_eq_destutter (text : List Char) :
    collapse text = text.destutter fun c d => ¬ (c = '_' ∧ d = '_') := by
  cases text with
  | nil => rfl
  | cons c rest =>
    rw [List.destutter_cons']
    induction rest generalizing c with
    | nil => rw [collapse_cons, if_neg (by simp)]; rfl
    | cons d rest ih =>
      by_cases h : c = '_' ∧ d = '_'
      · rw [List.destutter'_cons_neg _ (not_not.2 h), ← ih, h.1, h.2, collapse]
      · rw [List.destutter'_cons_pos _ h, ← ih, collapse_cons, if_neg]
        rwa [List.head?_cons, Option.some.injEq]

theorem filter_collapse (text : List Char) :
    (collapse text).filter (· != '_') = text.filter (· != '_') := by
  induction text with
  | nil => rfl
  | cons c rest ih =>
    rw [collapse_cons]
    split
    · next h =>
      rw [ih, h.1]
      rfl
    · rw [List.filter_cons, List.filter_cons, ih]

end Name

/-! The word of each lexeme. -/

namespace Literal

theorem isNameChar_of_isHexDigit {c : Char} (h : isHexDigit c = true) :
    Lexeme.isNameChar c = true := by
  simp only [isHexDigit, isDigit, Bool.or_eq_true, Bool.and_eq_true, decide_eq_true_eq] at h
  simp only [Lexeme.isNameChar, Char.isAlphanum, Char.isAlpha, Char.isUpper, Char.isLower,
    Char.isDigit, Bool.or_eq_true, Bool.and_eq_true, decide_eq_true_eq]
  rcases h with (⟨hl, hh⟩ | ⟨hl, hh⟩) | ⟨hl, hh⟩
  · exact .inl (.inr ⟨hl, hh⟩)
  · exact .inl (.inl (.inr ⟨hl, Char.le_trans hh (by decide)⟩))
  · exact .inl (.inl (.inl ⟨hl, Char.le_trans hh (by decide)⟩))

theorem uses_cases {c : Char} (h : uses c = true) :
    Lexeme.isNameChar c = true ∨ c = '.' ∨ c = '+' ∨ c = '-' := by
  simp only [uses, isSign, isHexMark, isBinaryMark, Bool.or_eq_true, beq_iff_eq] at h
  rcases h with (((h | rfl) | (rfl | rfl)) | (rfl | rfl)) | (rfl | rfl)
  · exact .inl (isNameChar_of_isHexDigit h)
  all_goals decide

def word : Char → List Char
  | '.' => "p".toList
  | '+' => "PLS".toList
  | '-' => "MNS".toList
  | c => [c]

theorem word_of_isNameChar {c : Char} (h : Lexeme.isNameChar c = true) : word c = [c] := by
  unfold word
  split
  · cases h
  · cases h
  · cases h
  · rfl

end Literal

def PrefixOp.word : PrefixOp → String
  | plus => "PLS"
  | minus => "MNS"
  | not => "NOT"

def BinaryOp.word : BinaryOp → String
  | mul => "TMS"
  | div => "DIV"
  | rem => "MOD"
  | add => "PLS"
  | sub => "MNS"
  | less => "LES"
  | greater => "GTR"
  | lessEqual => "LEQ"
  | greaterEqual => "GEQ"
  | equal => "EQL"
  | notEqual => "NEQ"
  | and => "AND"
  | or => "OR"

/-- The word of a bracket or an operator. Leaves have none. -/
def Kind.word : Kind → String
  | opening .round => "OP"
  | opening .square => "OB"
  | closing .round => "CP"
  | closing .square => "CB"
  | ambiguous sign => sign.binaryOp.word
  | prefixOp op => op.word
  | binary op => op.word
  | number | identifier | resolved _ | unknown => ""

namespace Lexeme

def spelling (l : Lexeme) : List Char :=
  match l.kind with
  | .identifier => l.text.toList
  | .number => l.text.toList.flatMap Literal.word
  | kind => kind.word.toList

section Spelling

variable {l : Lexeme}

theorem Named.spelling_eq (h : Named l) : l.spelling = l.text.toList := by
  rw [spelling, h.1]

theorem Numeric.spelling_eq (h : Numeric l) : l.spelling = l.text.toList.flatMap Literal.word := by
  rw [spelling, h.1]

theorem Numeric.not_mem_pair (h : Numeric l) {pair : Char × Char × String}
    (hpair : pair ∈ Name.pairWords) : pair.1 ∉ l.text.toList ∧ pair.2.1 ∉ l.text.toList := by
  have hunused : ∀ pair ∈ Name.pairWords,
      Literal.uses pair.1 = false ∧ Literal.uses pair.2.1 = false := by
    decide
  rcases hunused pair hpair with ⟨hfirst, hsecond⟩
  constructor
  · intro hmem
    rw [h.uses _ hmem] at hfirst
    cases hfirst
  · intro hmem
    rw [h.uses _ hmem] at hsecond
    cases hsecond

theorem spellChars_used {c : Char} (h : Literal.uses c = true) :
    Name.spellChars [c] = Literal.word c := by
  rcases Literal.uses_cases h with h | rfl | rfl | rfl
  · rw [Literal.word_of_isNameChar h]
    exact Name.spellChars_of_spelled (List.forall_mem_singleton.2 h)
  all_goals decide

theorem Numeric.spelled (h : Numeric l) :
    Name.spellChars (Name.spellPairs l.text.toList) = l.spelling := by
  have hpairs : Name.spellPairs l.text.toList = l.text.toList :=
    Name.foldl_eq_self fun pair hpair =>
      Name.replacePair_of_not_mem (h.not_mem_pair hpair).1 _ _
  have hchars := Name.spellChars_flatMap (fun c => [c]) l.text.toList
  rw [List.flatMap_singleton'] at hchars
  rw [hpairs, hchars, h.spelling_eq]
  exact List.flatMap_congr fun c hc => spellChars_used (h.uses c hc)

theorem Ruled.spelled (h : l.Ruled) :
    Name.spellChars (Name.spellPairs l.text.toList) = l.spelling := by
  cases h with
  | digraph hl => revert l; decide
  | mark hl => revert l; decide
  | named hl =>
    rw [Name.spellPairs_of_spelled hl.isNameChar, Name.spellChars_of_spelled hl.isNameChar,
      hl.spelling_eq]
  | numeric hl => exact hl.spelled

/-- Nothing of the text is lost in its word, which has no fewer characters. All of them stay in a
plain name, and the underscores are those of the text. -/
def Preserves (text word : List Char) : Prop :=
  text.length ≤ word.length ∧ word.all isNameChar = true ∧ word.count '_' = text.count '_'

instance (text word : List Char) : Decidable (Preserves text word) :=
  inferInstanceAs (Decidable (_ ∧ _ ∧ _))

theorem Preserves.append {text word more others : List Char} (h : Preserves text word)
    (hmore : Preserves more others) : Preserves (text ++ more) (word ++ others) := by
  rcases h with ⟨hlength, hall, hcount⟩
  rcases hmore with ⟨hlengths, halls, hcounts⟩
  refine ⟨?_, ?_, ?_⟩
  · rw [List.length_append, List.length_append]
    exact Nat.add_le_add hlength hlengths
  · rw [List.all_append, hall, halls]
    rfl
  · rw [List.count_append, List.count_append, hcount, hcounts]

theorem preserves_flatMap {α : Type} {f g : α → List Char} {as : List α}
    (h : ∀ a ∈ as, Preserves (f a) (g a)) : Preserves (as.flatMap f) (as.flatMap g) := by
  induction as with
  | nil => exact ⟨Nat.le_refl 0, rfl, rfl⟩
  | cons a as ih =>
    rcases List.forall_mem_cons.1 h with ⟨ha, has⟩
    rw [List.flatMap_cons, List.flatMap_cons]
    exact ha.append (ih has)

theorem preserves_self {text : List Char} (h : ∀ c ∈ text, isNameChar c = true) :
    Preserves text text :=
  ⟨Nat.le_refl _, List.all_eq_true.2 h, rfl⟩

theorem preserves_word {c : Char} (h : Literal.uses c = true) : Preserves [c] (Literal.word c) := by
  rcases Literal.uses_cases h with h | rfl | rfl | rfl
  · rw [Literal.word_of_isNameChar h]
    exact preserves_self (List.forall_mem_singleton.2 h)
  all_goals decide

theorem Ruled.preserves (h : l.Ruled) : Preserves l.text.toList l.spelling := by
  cases h with
  | digraph hl => revert l; decide
  | mark hl => revert l; decide
  | named hl =>
    rw [hl.spelling_eq]
    exact preserves_self hl.isNameChar
  | numeric hl =>
    have hwords := preserves_flatMap fun c hc => preserves_word (hl.uses c hc)
    rw [List.flatMap_singleton'] at hwords
    rwa [hl.spelling_eq]

theorem Ruled.not_mem_of_endsOperand (h : l.Ruled) :
    l.kind.endsOperand = true → ∀ pair ∈ Name.pairWords, pair.1 ∉ l.text.toList := by
  -- Pairs are made of the characters of operators, so none starts in what ends an operand.
  cases h with
  | digraph hl => revert l; decide
  | mark hl => revert l; decide
  | named hl =>
    intro _ pair hpair
    exact Name.not_mem_of_spelled hl.isNameChar (Name.not_isNameChar_of_pairWords pair hpair).1
  | numeric hl => exact fun _ pair hpair => (hl.not_mem_pair hpair).1

theorem Ruled.head_ne_of_not_binary (h : l.Ruled) :
    l.kind.isBinary = false → ∀ pair ∈ Name.pairWords, l.text.toList.head? ≠ some pair.2.1 := by
  cases h with
  | digraph hl => revert l; decide
  | mark hl => revert l; decide
  | named hl =>
    intro _ pair hpair hhead
    exact Name.not_mem_of_spelled hl.isNameChar (Name.not_isNameChar_of_pairWords pair hpair).2
      (List.mem_of_head? hhead)
  | numeric hl =>
    exact fun _ pair hpair hhead => (hl.not_mem_pair hpair).2 (List.mem_of_head? hhead)

def Follows (l m : Lexeme) : Prop := m.kind.isBinary = true → l.kind.endsOperand = true

theorem Follows.apart {m : Lexeme} {more : List Char} (h : l.Follows m) (hl : l.Ruled)
    (hm : m.Ruled) (hmore : more.head? = m.text.toList.head?) :
    Name.Apart l.text.toList more := by
  by_cases hbinary : m.kind.isBinary = true
  · exact .inl (hl.not_mem_of_endsOperand (h hbinary))
  · rw [Bool.not_eq_true] at hbinary
    refine .inr ?_
    rw [hmore]
    exact hm.head_ne_of_not_binary hbinary

theorem spellPairs_chars {ls : List Lexeme} (hruled : ∀ l ∈ ls, l.Ruled)
    (hne : ∀ l ∈ ls, l.text.toList ≠ []) (hchain : ls.IsChain Follows) :
    Name.spellPairs (ls.flatMap fun l => l.text.toList) =
      ls.flatMap fun l => Name.spellPairs l.text.toList := by
  induction ls with
  | nil => rfl
  | cons l rest ih =>
    rcases List.forall_mem_cons.1 hruled with ⟨hl, hruled⟩
    rcases List.forall_mem_cons.1 hne with ⟨_, hne⟩
    rcases List.isChain_cons.1 hchain with ⟨hhead, hchain⟩
    have hapart : Name.Apart l.text.toList (rest.flatMap fun l => l.text.toList) := by
      cases rest with
      | nil => exact .inr nofun
      | cons m rest =>
        refine (hhead m rfl).apart hl (hruled m List.mem_cons_self) ?_
        rw [List.flatMap_cons, List.head?_append_of_ne_nil _ (hne m List.mem_cons_self)]
    rw [List.flatMap_cons, List.flatMap_cons, hapart.spellPairs_append, ih hruled hne hchain]

end Spelling

theorem Follows.of_not_binary {l m : Lexeme} (h : m.kind.isBinary = false) : l.Follows m := by
  intro hbinary
  rw [h] at hbinary
  cases hbinary

theorem isChain_wrap (b : Bracket) {ls : List Lexeme} (h : ls.IsChain Follows)
    (hhead : ∀ m ∈ ls.head?, m.kind.isBinary = false) :
    (opening b :: (ls ++ [closing b])).IsChain Follows := by
  have hclosing : (closing b).kind.isBinary = false := by
    rw [kind_closing]
    rfl
  have hback : (ls ++ [closing b]).IsChain Follows := by
    refine List.isChain_append.2 ⟨h, .singleton _, fun l _ m hm => ?_⟩
    cases hm
    exact .of_not_binary hclosing
  refine List.isChain_cons.2 ⟨fun m hm => .of_not_binary ?_, hback⟩
  cases ls with
  | nil =>
    cases hm
    exact hclosing
  | cons l rest => exact hhead m hm

end Lexeme

namespace Term

theorem head_lexemes_not_binary (t : Term) :
    ∃ l rest, t.lexemes = l :: rest ∧ l.kind.isBinary = false := by
  induction t with
  | number text => exact ⟨_, [], rfl, rfl⟩
  | name text => exact ⟨_, [], rfl, rfl⟩
  | group inner _ => exact ⟨_, _, rfl, rfl⟩
  | entry vector index ih _ =>
    rcases ih with ⟨l, rest, hlexemes, hl⟩
    rw [lexemes, hlexemes]
    exact ⟨l, _, rfl, hl⟩
  | prefixed op operand _ =>
    refine ⟨op.lexeme, _, rfl, ?_⟩
    cases op <;> rfl
  | binary op left right ih _ =>
    rcases ih with ⟨l, rest, hlexemes, hl⟩
    rw [lexemes, hlexemes]
    exact ⟨l, _, rfl, hl⟩

theorem not_binary_of_head {t : Term} {m : Lexeme} (h : m ∈ t.lexemes.head?) :
    m.kind.isBinary = false := by
  rcases t.head_lexemes_not_binary with ⟨l, rest, hlexemes, hl⟩
  rw [hlexemes] at h
  cases h
  exact hl

theorem isChain_lexemes (t : Term) : t.lexemes.IsChain Lexeme.Follows := by
  induction t with
  | number text => exact .singleton _
  | name text => exact .singleton _
  | group inner ih => exact Lexeme.isChain_wrap .round ih fun _ => not_binary_of_head
  | entry vector index ihv ihi =>
    refine List.isChain_append.2
      ⟨ihv, Lexeme.isChain_wrap .square ihi fun _ => not_binary_of_head, fun l _ m hm => ?_⟩
    cases hm
    exact .of_not_binary rfl
  | prefixed op operand ih =>
    exact List.isChain_cons.2 ⟨fun m hm => .of_not_binary (not_binary_of_head hm), ih⟩
  | binary op left right ihl ihr =>
    refine List.isChain_append.2 ⟨ihl, ?_, fun l hl m _ _ => ?_⟩
    · exact List.isChain_cons.2 ⟨fun m hm => .of_not_binary (not_binary_of_head hm), ihr⟩
    · rcases left.lastKind_lexemes none with ⟨k, hk, hends⟩
      rw [Lexeme.lastKind_none, Option.mem_def.1 hl] at hk
      cases hk
      exact hends

end Term

theorem ruled_of_parse {source : String} {e : Expr C} (h : parse schema source = .ok e) :
    ∀ l ∈ Lexeme.ofSource source, l.Ruled :=
  fun l hl => Lexeme.ruled_of_mem_cut hl (meaningful_of_parse h l hl).1

theorem spelledOut_of_parse {source : String} {e : Expr C} (h : parse schema source = .ok e) :
    Name.spelledOut e.name = Name.collapse ((Lexeme.ofSource source).flatMap Lexeme.spelling) := by
  -- The grammar keeps the pairs apart, so the words of the lexemes are put side by side.
  have hruled := ruled_of_parse h
  rcases derives_of_parse h with ⟨t, ht, _⟩
  have hchain : (Lexeme.ofSource source).IsChain Lexeme.Follows := by
    rw [ht.lexemes_eq]
    exact t.isChain_lexemes
  have hpairs := Lexeme.spellPairs_chars hruled (fun l hl => Lexeme.cut_ne_empty hl) hchain
  rw [Lexeme.ofSource, Lexeme.flatMap_text_cut, ← Lexeme.ofSource] at hpairs
  rw [Name.spelledOut, name_of_parse h, Text.stripBlanks_stripBlanks, hpairs,
    Name.spellChars_flatMap]
  exact congrArg Name.collapse (List.flatMap_congr fun l hl => (hruled l hl).spelled)

/-- The plain name of what compiles is spelled lexeme by lexeme, the words put side by side and
every run of underscores collapsed. Nothing else is lost: the lexemes make up the source, none is
longer than its word, and no character of a word is dropped as one without a word. -/
theorem plainName_spells_lexemes {source : String} {e : Expr C} (h : parse schema source = .ok e) :
    let ls := Lexeme.ofSource source
    e.plainName.toList =
        (ls.flatMap Lexeme.spelling).destutter (fun c d => ¬ (c = '_' ∧ d = '_')) ∧
      e.plainName.toList = Name.spelledOut e.name ∧
      (ls.flatMap fun l => l.text.toList) = (Text.stripBlanks source).toList ∧
      (∀ l ∈ ls, Lexeme.Preserves l.text.toList l.spelling) ∧
      e.plainName.toList.filter (· != '_') =
        (ls.flatMap Lexeme.spelling).filter (· != '_') := by
  intro ls
  have hspelled := spelledOut_of_parse h
  have hpreserves : ∀ l ∈ ls, Lexeme.Preserves l.text.toList l.spelling :=
    fun l hl => (ruled_of_parse h l hl).preserves
  have hplain : e.plainName.toList = Name.spelledOut e.name := by
    rw [Expr.plainName, Name.toList_plain, List.filter_eq_self, hspelled]
    intro c hc
    have hwords := (Lexeme.preserves_flatMap hpreserves).2.1
    exact List.all_eq_true.1 hwords c (Name.collapse_subset _ hc)
  refine ⟨?_, hplain, Lexeme.flatMap_text_cut _, hpreserves, ?_⟩
  · rw [hplain, hspelled, Name.collapse_eq_destutter]
  · rw [hplain, hspelled, Name.filter_collapse]

theorem plainName_spells_lexemes_pairs :
    let schema := (VariableTable.ofList [.vector "v__1" Except.ok]).schema
    ∃ e : Expr (List Float), parse schema "v__1[.5e-3] <= -v__1 && !v__1" = .ok e ∧
      e.plainName = "v_1OBp5eMNS3CBLEQMNSv_1ANDNOTv_1" ∧
      e.plainName.toList = Name.spelledOut e.name := by
  intro schema
  have hlexemes : Lexeme.ofSource "v__1[.5e-3] <= -v__1 && !v__1" =
      [⟨.identifier, "v__1"⟩, .opening .square, ⟨.number, ".5e-3"⟩, .closing .square,
        BinaryOp.lessEqual.lexeme, PrefixOp.minus.lexeme, ⟨.identifier, "v__1"⟩,
        BinaryOp.and.lexeme, PrefixOp.not.lexeme, ⟨.identifier, "v__1"⟩] := by
    decide +kernel
  have hname : Derives schema .primary (.name "v__1") _ := .name rfl
  have hentry : Derives schema .subscripted (.entry (.name "v__1") (.number ".5e-3")) _ :=
    .entry hname (Derives.number _).disjunction rfl rfl
  have hopposite : Derives schema .signed (.prefixed .minus (.name "v__1")) _ :=
    .prefixed .minus (hname.mono (by decide))
  have hless : Derives schema .comparison
      (.binary .lessEqual (.entry (.name "v__1") (.number ".5e-3"))
        (.prefixed .minus (.name "v__1"))) _ :=
    .binary .lessEqual rfl (hentry.mono (by decide)) (hopposite.mono (by decide))
  have hnot : Derives schema .signed (.prefixed .not (.name "v__1")) _ :=
    .prefixed .not (hname.mono (by decide))
  have hand : Derives schema .conjunction
      (.binary .and (.binary .lessEqual (.entry (.name "v__1") (.number ".5e-3"))
        (.prefixed .minus (.name "v__1"))) (.prefixed .not (.name "v__1")))
      (Lexeme.ofSource "v__1[.5e-3] <= -v__1 && !v__1") := by
    rw [hlexemes]
    exact .binary .and rfl (hless.mono (by decide)) (hnot.mono (by decide))
  have hreadable : Readable (Lexeme.ofSource "v__1[.5e-3] <= -v__1 && !v__1") := by
    decide +kernel
  have hparse := parse_of_derives hand.disjunction hreadable
  have hspells := plainName_spells_lexemes hparse
  refine ⟨_, hparse, ?_, hspells.2.1⟩
  apply String.toList_inj.1
  rw [hspells.1]
  decide +kernel

end EventCuts
