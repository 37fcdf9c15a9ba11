import EventCuts.Json.Reader
import EventCuts.Json.Writer
import EventCuts.Proofs.FloatTexts

/-!
# Documents that read back

A reader of JSON texts that rounds a number once, to the nearest float: the text is cut into
marks and simple values, and the values that are still open are kept on a stack. An indented
document is read as that very document, whatever its depth, its names and its numbers.
-/

namespace EventCuts

open Literal (isDigit)

/-- The float nearest to a JSON number. -/
def JsonNumber.Parts.nearest (p : JsonNumber.Parts) : Float :=
  let magnitude := Decimal.toFloat false
    ⟨Reading.natValue (p.whole ++ p.fraction), p.exponent - p.fraction.length⟩
  if p.negative then -magnitude else magnitude

namespace Json

inductive Part where
  | mark (c : Char)
  | simple (j : Json)

def isWordChar (c : Char) : Bool := !(EventText.isBlank c || EventText.isMark c || c == '"')

def ofWord? (word : List Char) : Option Json :=
  if word = ['n', 'u', 'l', 'l'] then some .null
  else (JsonNumber.parts? word).bind fun p =>
    if h : p.nearest.isFinite = true then some (.number p.nearest h) else none

def cut : List Char → Option (List Part)
  | [] => some []
  | c :: rest =>
    if EventText.isBlank c then cut rest
    else if EventText.isMark c then (cut rest).map (.mark c :: ·)
    else if c = '"' then
      match _h : EventText.readText rest with
      | none => none
      | some (cs, behind) => (cut behind).map (.simple (.text (String.ofList cs)) :: ·)
    else
      match ofWord? (c :: rest.takeWhile isWordChar) with
      | none => none
      | some j => (cut (rest.dropWhile isWordChar)).map (.simple j :: ·)
termination_by text => text.length
decreasing_by
  · simp
  · simp
  · have := EventText.readText_length _h
    simp only [List.length_cons]
    omega
  · have := (List.dropWhile_sublist isWordChar (l := rest)).length_le
    simp only [List.length_cons]
    omega

inductive Open where
  | array (items : List Json)
  | object (fields : List (String × Json)) (name : String)

mutual

def readValue (around : List Open) : List Part → Option Json
  | .simple j :: rest => readBehind around j rest
  | .mark '[' :: .mark ']' :: rest => readBehind around (.array []) rest
  | .mark '[' :: rest => readValue (.array [] :: around) rest
  | .mark '\x7b' :: .mark '\x7d' :: rest => readBehind around (.object []) rest
  | .mark '\x7b' :: rest => readField [] around rest
  | _ => none

def readField (fields : List (String × Json)) (around : List Open) : List Part → Option Json
  | .simple (.text name) :: .mark ':' :: rest => readValue (.object fields name :: around) rest
  | _ => none

def readBehind : List Open → Json → List Part → Option Json
  | [], j, [] => some j
  | .array items :: around, j, .mark ',' :: rest =>
    readValue (.array (items ++ [j]) :: around) rest
  | .array items :: around, j, .mark ']' :: rest => readBehind around (.array (items ++ [j])) rest
  | .object fields name :: around, j, .mark ',' :: rest =>
    readField (fields ++ [(name, j)]) around rest
  | .object fields name :: around, j, .mark '\x7d' :: rest =>
    readBehind around (.object (fields ++ [(name, j)])) rest
  | _, _, _ => none

end

/-- The document that a text holds. -/
def read? (text : String) : Option Json := (cut text.toList).bind (readValue [])

@[elab_as_elim]
theorem induction {P : Json → Prop} (null : P .null) (number : ∀ x finite, P (.number x finite))
    (text : ∀ s, P (.text s)) (array : ∀ items, (∀ item ∈ items, P item) → P (.array items))
    (object : ∀ fields, (∀ field ∈ fields, P field.2) → P (.object fields)) (j : Json) : P j := by
  refine Json.rec (motive_1 := P) (motive_2 := fun items => ∀ item ∈ items, P item)
    (motive_3 := fun fields => ∀ field ∈ fields, P field.2) (motive_4 := fun field => P field.2)
    null number text array object ?_ ?_ ?_ ?_ ?_ j
  · exact List.forall_mem_nil _
  · exact fun item items hitem hitems => List.forall_mem_cons.2 ⟨hitem, hitems⟩
  · exact List.forall_mem_nil _
  · exact fun field fields hfield hfields => List.forall_mem_cons.2 ⟨hfield, hfields⟩
  · exact fun _ _ hvalue => hvalue

section Readers

variable {around : List Open} {rest : List Part}

mutual

def parts : Json → List Part
  | array items => .mark '[' :: (List.intercalate [.mark ','] (itemParts items) ++ [.mark ']'])
  | object fields =>
    .mark '\x7b' :: (List.intercalate [.mark ','] (fieldParts fields) ++ [.mark '\x7d'])
  | j => [.simple j]

def itemParts : List Json → List (List Part)
  | [] => []
  | item :: rest => parts item :: itemParts rest

def fieldParts : List (String × Json) → List (List Part)
  | [] => []
  | (name, value) :: rest => (.simple (.text name) :: .mark ':' :: parts value) :: fieldParts rest

end

theorem itemParts_eq (items : List Json) : itemParts items = items.map parts := by
  induction items with
  | nil => rfl
  | cons item items ih => rw [itemParts, ih, List.map_cons]

theorem fieldParts_eq (fields : List (String × Json)) :
    fieldParts fields =
      fields.map fun field => .simple (.text field.1) :: .mark ':' :: field.2.parts := by
  induction fields with
  | nil => rfl
  | cons field fields ih => rw [fieldParts, ih, List.map_cons]

theorem exists_intercalate_cons (separator front : List Part) (others : List (List Part)) :
    ∃ behind, List.intercalate separator (front :: others) = front ++ behind := by
  cases others with
  | nil => exact ⟨[], by rw [List.intercalate_singleton, List.append_nil]⟩
  | cons next others => exact ⟨_, by rw [List.intercalate_cons_cons, List.append_assoc]⟩

theorem parts_ne_mark (j : Json) (behind : List Part) {rest : List Part} :
    j.parts ++ behind ≠ .mark ']' :: rest := by
  cases j <;> simp [parts]

/-- The value is read and completed, whatever is open around it and stands behind it. -/
def ReadsBack (j : Json) : Prop :=
  ∀ around rest, readValue around (j.parts ++ rest) = readBehind around j rest

theorem readValue_items {j : Json} {others : List Json} (h : ∀ item ∈ j :: others, item.ReadsBack)
    (items : List Json) :
    readValue (.array items :: around)
        (List.intercalate [.mark ','] (itemParts (j :: others)) ++ .mark ']' :: rest) =
      readBehind around (.array (items ++ j :: others)) rest := by
  induction others generalizing items j with
  | nil =>
    rw [itemParts, itemParts, List.intercalate_singleton, h j List.mem_cons_self, readBehind]
  | cons next others ih =>
    obtain ⟨hj, hothers⟩ := List.forall_mem_cons.1 h
    have hsplit : List.intercalate [.mark ','] (itemParts (j :: next :: others)) ++
        .mark ']' :: rest = j.parts ++ .mark ',' ::
          (List.intercalate [.mark ','] (itemParts (next :: others)) ++ .mark ']' :: rest) := by
      simp [itemParts]
    rw [hsplit, hj, readBehind, ih hothers, List.append_assoc, List.singleton_append]

theorem readField_fields {name : String} {j : Json} {others : List (String × Json)}
    (h : ∀ field ∈ (name, j) :: others, field.2.ReadsBack) (fields : List (String × Json)) :
    readField fields around
        (List.intercalate [.mark ','] (fieldParts ((name, j) :: others)) ++
          .mark '\x7d' :: rest) =
      readBehind around (.object (fields ++ (name, j) :: others)) rest := by
  induction others generalizing fields name j with
  | nil =>
    rw [fieldParts, fieldParts, List.intercalate_singleton, List.cons_append, List.cons_append,
      readField, h (name, j) List.mem_cons_self, readBehind]
  | cons next others ih =>
    obtain ⟨hj, hothers⟩ := List.forall_mem_cons.1 h
    have hsplit : List.intercalate [.mark ','] (fieldParts ((name, j) :: next :: others)) ++
        .mark '\x7d' :: rest = .simple (.text name) :: .mark ':' :: (j.parts ++ .mark ',' ::
          (List.intercalate [.mark ','] (fieldParts (next :: others)) ++
            .mark '\x7d' :: rest)) := by
      simp [fieldParts]
    rw [hsplit, readField, hj, readBehind, ih hothers, List.append_assoc, List.singleton_append]

theorem readsBack (j : Json) : j.ReadsBack := by
  intro around rest
  induction j using Json.induction generalizing around rest with
  | null => rfl
  | number x finite => rfl
  | text s => rfl
  | array items ih =>
    cases items with
    | nil => rfl
    | cons j others =>
      rw [parts, List.cons_append, List.append_assoc, readValue]
      · exact readValue_items ih []
      · intro behind hclosed
        obtain ⟨tail, htail⟩ := exists_intercalate_cons [.mark ','] j.parts (itemParts others)
        rw [itemParts, htail, List.append_assoc] at hclosed
        exact parts_ne_mark j _ hclosed
  | object fields ih =>
    cases fields with
    | nil => rfl
    | cons field others =>
      rw [parts, List.cons_append, List.append_assoc, readValue]
      · exact readField_fields ih []
      · intro behind hclosed
        obtain ⟨tail, htail⟩ := exists_intercalate_cons [.mark ',']
          (.simple (.text field.1) :: .mark ':' :: field.2.parts) (fieldParts others)
        rw [fieldParts, htail] at hclosed
        cases hclosed

end Readers

end Json

namespace EventText

variable {c : Char}

theorem codeUnit?_control : ∀ n < 0x20,
    Text.escapeJsonCode (Char.ofNat n) =
        ['\\', 'u', '0', '0', (n / 16).digitChar, (n % 16).digitChar] ∧
      codeUnit? '0' '0' (n / 16).digitChar (n % 16).digitChar = some n := by
  decide

theorem readChar_control (h : c.toNat < 0x20) (rest : List Char) :
    readChar (Text.escapeJsonCode c ++ rest) = some (c, rest) := by
  have hback : Char.ofNat c.toNat = c := Char.ofNat_toNat c
  obtain ⟨htext, hunit⟩ := codeUnit?_control c.toNat h
  rw [hback] at htext
  have hhigh : isHighSurrogate c.toNat = false := by
    simp only [isHighSurrogate, Bool.and_eq_false_iff, decide_eq_false_iff_not]
    omega
  have hlow : isLowSurrogate c.toNat = false := by
    simp only [isLowSurrogate, Bool.and_eq_false_iff, decide_eq_false_iff_not]
    omega
  rw [htext]
  simp only [List.cons_append, List.nil_append, readChar, readUnit, hunit, Option.map_some,
    completeUnit, hhigh, hlow, hback, Bool.false_eq_true, if_false]

theorem readChar_plain (hslash : c ≠ '\\') (hcontrol : ¬ c.toNat < 0x20) (rest : List Char) :
    readChar (c :: rest) = some (c, rest) := by
  have hunit : readUnit (c :: rest) = none := by
    unfold readUnit
    split
    · next heq => exact absurd (List.cons.inj heq).1 hslash
    · rfl
  have hplain : readPlain (c :: rest) = some (c, rest) := by
    unfold readPlain
    split
    · next heq => exact absurd (List.cons.inj heq).1 hslash
    · next heq =>
      obtain ⟨rfl, rfl⟩ := List.cons.inj heq
      rw [if_neg (not_or.2 ⟨hslash, hcontrol⟩)]
    · next heq => cases heq
  rw [readChar, hunit, hplain]

theorem readChar_escapeJson (c : Char) (rest : List Char) :
    readChar (Text.escapeJson c ++ rest) = some (c, rest) := by
  have hback : Char.ofNat c.toNat = c := Char.ofNat_toNat c
  unfold Text.escapeJson
  split
  · subst_vars; rfl
  split
  · subst_vars; rfl
  split
  · subst_vars; rfl
  split
  · subst_vars; rfl
  split
  · subst_vars; rfl
  split
  · next h => rw [← hback, h]; rfl
  split
  · next h => rw [← hback, h]; rfl
  split
  · next h => exact readChar_control h rest
  · next hslash _ _ _ _ _ hcontrol => exact readChar_plain hslash hcontrol rest

theorem ne_nil_escapeJson (c : Char) : Text.escapeJson c ≠ [] := by
  unfold Text.escapeJson Text.escapeJsonCode
  repeat' split
  all_goals exact List.cons_ne_nil _ _

theorem head_escapeJson (c : Char) : (Text.escapeJson c).head? ≠ some '"' := by
  unfold Text.escapeJson Text.escapeJsonCode
  repeat' split
  all_goals simp_all

theorem readText_escaped (cs rest : List Char) :
    readText (cs.flatMap Text.escapeJson ++ '"' :: rest) = some (cs, rest) := by
  induction cs with
  | nil =>
    rw [List.flatMap_nil, List.nil_append, readText]
    rfl
  | cons c cs ih =>
    have hchar := readChar_escapeJson c (cs.flatMap Text.escapeJson ++ '"' :: rest)
    have hopen : (Text.escapeJson c ++ (cs.flatMap Text.escapeJson ++ '"' :: rest)).head? ≠
        some '"' := by
      rw [List.head?_append_of_ne_nil _ (ne_nil_escapeJson c)]
      exact head_escapeJson c
    rw [List.flatMap_cons, List.append_assoc, readText, if_neg hopen]
    split
    · next hnone =>
      rw [hchar] at hnone
      cases hnone
    · next hsome =>
      rw [hchar] at hsome
      cases hsome
      rw [ih]
      rfl

end EventText

namespace Json

variable {text front back rest : List Char} {ps qs : List Part}

theorem not_blank_of_isMark {c : Char} (h : EventText.isMark c = true) :
    EventText.isBlank c = false := by
  simp only [EventText.isMark, Bool.or_eq_true, beq_iff_eq] at h
  rcases h with ((((rfl | rfl) | rfl) | rfl) | rfl) | rfl <;> rfl

theorem cut_blank {c : Char} (h : EventText.isBlank c = true) (rest : List Char) :
    cut (c :: rest) = cut rest := by
  rw [cut, if_pos h]

theorem cut_mark {c : Char} (h : EventText.isMark c = true) (rest : List Char) :
    cut (c :: rest) = (cut rest).map (.mark c :: ·) := by
  rw [cut, if_neg (Bool.not_eq_true _ ▸ not_blank_of_isMark h), if_pos h]

theorem cut_quoted (s : String) (rest : List Char) :
    cut ((Text.quoteJson s).toList ++ rest) = (cut rest).map (.simple (.text s) :: ·) := by
  have htext : (Text.quoteJson s).toList ++ rest =
      '"' :: (s.toList.flatMap Text.escapeJson ++ '"' :: rest) := by
    simp [Text.quoteJson, Text.quote]
  have hread := EventText.readText_escaped s.toList rest
  rw [htext, cut, if_neg (by decide), if_neg (by decide), if_pos rfl]
  split
  · next hnone =>
    rw [hread] at hnone
    cases hnone
  · next hsome =>
    rw [hread] at hsome
    cases hsome
    rw [String.ofList_toList]

def Delimited (text : List Char) : Prop := ∀ c ∈ text.head?, isWordChar c = false

theorem cut_word {word : List Char} {j : Json} (hne : word ≠ [])
    (hw : ∀ c ∈ word, isWordChar c = true) (hj : ofWord? word = some j) (h : Delimited rest) :
    cut (word ++ rest) = (cut rest).map (.simple j :: ·) := by
  obtain ⟨c, cs, rfl⟩ := List.exists_cons_of_ne_nil hne
  obtain ⟨hc, hcs⟩ := List.forall_mem_cons.1 hw
  have hstop : rest.takeWhile isWordChar = [] ∧ rest.dropWhile isWordChar = rest := by
    cases rest with
    | nil => exact ⟨rfl, rfl⟩
    | cons d ds =>
      have hd : isWordChar d = false := h d rfl
      rw [List.takeWhile_cons, List.dropWhile_cons, hd]
      exact ⟨rfl, rfl⟩
  have htake : (cs ++ rest).takeWhile isWordChar = cs := by
    rw [List.takeWhile_append_of_pos hcs, hstop.1, List.append_nil]
  have hdrop : (cs ++ rest).dropWhile isWordChar = rest := by
    rw [List.dropWhile_append_of_pos hcs, hstop.2]
  simp only [isWordChar, Bool.not_eq_true', Bool.or_eq_false_iff, beq_eq_false_iff_ne] at hc
  obtain ⟨⟨hblank, hmark⟩, hquote⟩ := hc
  rw [List.cons_append, cut, if_neg (by rw [hblank]; decide), if_neg (by rw [hmark]; decide),
    if_neg hquote, htake, hdrop, hj]

/-- The text is cut into these parts, in front of whatever delimits it. -/
def Cuts (text : List Char) (ps : List Part) : Prop :=
  ∀ rest, Delimited rest → cut (text ++ rest) = (cut rest).map (ps ++ ·)

namespace Cuts

theorem nil : Cuts [] [] := by
  intro rest _
  simp

theorem blank {c : Char} (h : EventText.isBlank c = true) (hback : Cuts back ps) :
    Cuts (c :: back) ps := by
  intro rest hrest
  rw [List.cons_append, cut_blank h]
  exact hback rest hrest

theorem blanks (h : ∀ c ∈ front, EventText.isBlank c = true) (hback : Cuts back ps) :
    Cuts (front ++ back) ps := by
  induction front with
  | nil => exact hback
  | cons c front ih =>
    obtain ⟨hc, hfront⟩ := List.forall_mem_cons.1 h
    exact .blank hc (ih hfront)

theorem mark {c : Char} (h : EventText.isMark c = true) (hback : Cuts back ps) :
    Cuts (c :: back) (.mark c :: ps) := by
  intro rest hrest
  rw [List.cons_append, cut_mark h, hback rest hrest, Option.map_map]
  rfl

theorem quoted (s : String) (hback : Cuts back ps) :
    Cuts ((Text.quoteJson s).toList ++ back) (.simple (.text s) :: ps) := by
  intro rest hrest
  rw [List.append_assoc, cut_quoted, hback rest hrest, Option.map_map]
  rfl

theorem append (hfront : Cuts front ps) (hback : Cuts back qs) (h : Delimited back) :
    Cuts (front ++ back) (ps ++ qs) := by
  intro rest hrest
  have hbehind : Delimited (back ++ rest) := by
    cases back with
    | nil => exact hrest
    | cons => exact h
  rw [List.append_assoc, hfront _ hbehind, hback rest hrest, Option.map_map]
  simp only [Function.comp_def, List.append_assoc]

end Cuts

theorem toList_newline (depth : Nat) :
    (newline depth).toList = '\n' :: List.replicate (2 * depth) ' ' := by
  simp [newline]

theorem Cuts.newline (depth : Nat) (h : Cuts back ps) :
    Cuts ((newline depth).toList ++ back) ps := by
  refine .blanks ?_ h
  rw [toList_newline]
  refine List.forall_mem_cons.2 ⟨rfl, fun c hc => ?_⟩
  rw [(List.mem_replicate.1 hc).2]
  rfl

theorem delimited_cons {c : Char} (h : isWordChar c = false) (rest : List Char) :
    Delimited (c :: rest) := by
  intro d hd
  cases hd
  exact h

theorem delimited_newline (depth : Nat) (rest : List Char) :
    Delimited ((newline depth).toList ++ rest) := by
  rw [toList_newline]
  exact delimited_cons rfl _

theorem cuts_intercalate (depth : Nat) {texts : List (List Char)} {pieces : List (List Part)}
    (h : List.Forall₂ Cuts texts pieces) :
    Cuts (List.intercalate (',' :: (newline depth).toList) texts)
      (List.intercalate [.mark ','] pieces) := by
  induction h with
  | nil => exact .nil
  | @cons text piece texts pieces hfront hothers ih =>
    cases hothers with
    | nil =>
      rw [List.intercalate_singleton, List.intercalate_singleton]
      exact hfront
    | cons hnext hothers =>
      rw [List.intercalate_cons_cons, List.intercalate_cons_cons, List.append_assoc,
        List.append_assoc]
      exact hfront.append (.mark rfl (.newline depth ih)) (delimited_cons rfl _)

theorem cuts_enclose (depth : Nat) {opening closing : String} {o c : Char} {texts : List String}
    {pieces : List (List Part)} (hopening : opening.toList = [o]) (hclosing : closing.toList = [c])
    (ho : EventText.isMark o = true) (hc : EventText.isMark c = true)
    (h : List.Forall₂ Cuts (texts.map String.toList) pieces) :
    Cuts (enclose depth opening closing texts).toList
      (.mark o :: (List.intercalate [.mark ','] pieces ++ [.mark c])) := by
  have hend : Cuts [c] [.mark c] := .mark hc .nil
  unfold enclose
  split
  · next hempty =>
    obtain rfl := List.isEmpty_iff.1 hempty
    cases h
    rw [String.toList_append, hopening, hclosing]
    exact .mark ho hend
  · have hlist : (opening ++ newline (depth + 1) ++
        String.intercalate ("," ++ newline (depth + 1)) texts ++ newline depth ++ closing).toList =
          o :: ((newline (depth + 1)).toList ++
            (List.intercalate (',' :: (newline (depth + 1)).toList) (texts.map String.toList) ++
              ((newline depth).toList ++ [c]))) := by
      simp [hopening, hclosing, String.toList_intercalate]
    rw [hlist]
    exact .mark ho (.newline _ ((cuts_intercalate _ h).append (.newline depth hend)
      (delimited_newline depth _)))

theorem unsigned?_of_laid {text whole fraction : List Char} {n : Int} {x : Float}
    (h : Laid text whole fraction n x) (negative : Bool) :
    JsonNumber.unsigned? negative text = some ⟨negative, whole, fraction, n⟩ := by
  obtain ⟨mantissa, exponent, point, hsplit, hvalue, hmantissa, hfraction, hdotted⟩ :=
    Reading.splitAtMark_parts (by decide) @Literal.decimalMark_stops h.parts
  have hpoint : JsonNumber.fraction? point = some fraction := by
    cases point with
    | none => rw [← hfraction]; rfl
    | some ds =>
      obtain rfl : ds = fraction := hfraction
      have hne : ds ≠ [] := fun hempty => h.pointless hempty (hdotted.resolve_left nofun)
      have hdigits : ds.all isDigit = true :=
        List.all_eq_true.2 fun c hc => h.parts.digits c (List.mem_append_right _ hc)
      exact if_pos ⟨hne, hdigits⟩
  simp only [JsonNumber.unsigned?, hsplit, hmantissa, hpoint, hvalue, h.leading, if_true, bind,
    Option.bind]

theorem isWordChar_of_laid {text whole fraction : List Char} {n : Int} {x : Float}
    (h : Laid text whole fraction n x) : ∀ c ∈ text, isWordChar c = true :=
  h.forall_char (by decide)

theorem nearest_of_laid {text whole fraction : List Char} {n : Int} {x : Float}
    (h : Laid text whole fraction n x) (negative : Bool) :
    JsonNumber.Parts.nearest ⟨negative, whole, fraction, n⟩ = if negative then -x else x := by
  simp only [JsonNumber.Parts.nearest, h.value]

theorem ofWord?_parts {word : List Char} {p : JsonNumber.Parts} {x : Float}
    (h : JsonNumber.parts? word = some p) (hx : p.nearest = x) (finite : x.isFinite = true) :
    ofWord? word = some (.number x finite) := by
  subst hx
  have hnull : word ≠ ['n', 'u', 'l', 'l'] := by
    rintro rfl
    cases h
  rw [ofWord?, if_neg hnull, h, Option.bind_some, dif_pos finite]

theorem cuts_number {x : Float} (finite : x.isFinite = true) :
    Cuts (FloatFormat.json.render x).toList [.simple (.number x finite)] := by
  intro rest hrest
  obtain ⟨text, whole, fraction, n, ⟨hlaid, hname⟩ | ⟨hlaid, hname⟩⟩ := render_laid .json finite
  · obtain ⟨c, ds, rfl, hc⟩ := hlaid.head
    have hminus : ∀ others, c :: ds = '-' :: others → False := by
      intro others hminus
      obtain rfl := (List.cons.inj hminus).1
      cases hc
    have hparts := unsigned?_of_laid hlaid false
    rw [← JsonNumber.parts?.eq_2 _ hminus] at hparts
    have hread := ofWord?_parts hparts (nearest_of_laid hlaid false) finite
    rw [hname, String.toList_ofList]
    exact cut_word (List.cons_ne_nil _ _) (isWordChar_of_laid hlaid) hread hrest
  · have hparts := unsigned?_of_laid hlaid true
    rw [← JsonNumber.parts?.eq_1] at hparts
    have hvalue := (nearest_of_laid hlaid true).trans (Exact.neg_neg_of_isFinite finite)
    have hread := ofWord?_parts hparts hvalue finite
    rw [hname, String.toList_ofList]
    exact cut_word (List.cons_ne_nil _ _)
      (List.forall_mem_cons.2 ⟨rfl, isWordChar_of_laid hlaid⟩) hread hrest

theorem indentedItems_eq (depth : Nat) (items : List Json) :
    indentedItems depth items = items.map (indented depth) := by
  induction items with
  | nil => rfl
  | cons item items ih => rw [indentedItems, ih, List.map_cons]

theorem indentedFields_eq (depth : Nat) (fields : List (String × Json)) :
    indentedFields depth fields =
      fields.map fun field => Text.quoteJson field.1 ++ ": " ++ indented depth field.2 := by
  induction fields with
  | nil => rfl
  | cons field fields ih => rw [indentedFields, ih, List.map_cons]

theorem cuts_indented (j : Json) (depth : Nat) : Cuts (j.indented depth).toList j.parts := by
  induction j using Json.induction generalizing depth with
  | null =>
    intro rest hrest
    have hword : ofWord? ['n', 'u', 'l', 'l'] = some .null := if_pos rfl
    have hchars : ∀ c ∈ ['n', 'u', 'l', 'l'], isWordChar c = true :=
      List.all_eq_true.1 rfl
    have htext : (indented depth .null).toList = ['n', 'u', 'l', 'l'] := by
      rw [indented]
      rfl
    rw [htext]
    exact cut_word (List.cons_ne_nil _ _) hchars hword hrest
  | number x finite => exact cuts_number finite
  | text s =>
    have h := Cuts.quoted s .nil
    rwa [List.append_nil] at h
  | array items ih =>
    refine cuts_enclose depth rfl rfl rfl rfl ?_
    rw [indentedItems_eq, itemParts_eq, List.map_map, List.forall₂_map_left_iff,
      List.forall₂_map_right_iff, List.forall₂_same]
    exact fun item hitem => ih item hitem (depth + 1)
  | object fields ih =>
    refine cuts_enclose depth rfl rfl rfl rfl ?_
    rw [indentedFields_eq, fieldParts_eq, List.map_map, List.forall₂_map_left_iff,
      List.forall₂_map_right_iff, List.forall₂_same]
    intro field hfield
    have htext : (Text.quoteJson field.1 ++ ": " ++ indented (depth + 1) field.2).toList =
        (Text.quoteJson field.1).toList ++ ':' :: ' ' :: (indented (depth + 1) field.2).toList := by
      simp
    rw [Function.comp_apply, htext]
    exact .quoted field.1 (.mark rfl (.blank rfl (ih field hfield (depth + 1))))

theorem read?_indented (j : Json) (depth : Nat) {behind : String}
    (h : ∀ c ∈ behind.toList, EventText.isBlank c = true) :
    read? (j.indented depth ++ behind) = some j := by
  have hdelimited : Delimited behind.toList := by
    intro c hc
    simp only [isWordChar, h c (List.mem_of_mem_head? hc), Bool.true_or, Bool.not_true]
  have hblanks : Cuts behind.toList [] := by
    have hcuts := Cuts.blanks h .nil
    rwa [List.append_nil] at hcuts
  have hparts := (j.cuts_indented depth).append hblanks hdelimited [] nofun
  have hread := j.readsBack [] []
  rw [List.append_nil] at hparts hread
  rw [cut, Option.map_some, List.append_nil, List.append_nil] at hparts
  rw [read?, String.toList_append, hparts, Option.bind_some, hread, readBehind]

example : read? " [null, [ ]]" = some (.array [.null, .array []]) := by cbv

example : read? "[null, ]" = none := by cbv

end Json

end EventCuts
