import EventCuts.Command.Run
import EventCuts.Proofs.Documents
import EventCuts.Proofs.Names

/-!
# What a command writes

A command succeeds on all its events or fails with an exit code that tells why, and it fails
before it has written anything. Nothing that is written as a line breaks it, and the document
that is written holds one result for each event.
-/

namespace EventCuts

open Literal (isDigit Run)

namespace Text

def Unbroken (text : String) : Prop := '\n' ∉ text.toList

instance (text : String) : Decidable (Unbroken text) :=
  inferInstanceAs (Decidable ('\n' ∉ text.toList))

/-- The pieces of a text between its line breaks, the last of them behind the last break. -/
def cutLines (text : String) : List String := (text.toList.splitOn '\n').map String.ofList

theorem Unbroken.append {a b : String} (ha : Unbroken a) (hb : Unbroken b) : Unbroken (a ++ b) := by
  rw [Unbroken, String.toList_append, List.mem_append, not_or]
  exact ⟨ha, hb⟩

theorem Unbroken.intercalate {separator : String} {texts : List String} (hs : Unbroken separator)
    (ht : ∀ text ∈ texts, Unbroken text) : Unbroken (String.intercalate separator texts) := by
  induction texts with
  | nil => exact List.not_mem_nil
  | cons text rest ih =>
    obtain ⟨htext, hrest⟩ := List.forall_mem_cons.1 ht
    cases rest with
    | nil => exact htext
    | cons next others =>
      rw [String.intercalate_cons_cons]
      exact (htext.append hs).append (ih hrest)

theorem unbroken_of_not_blank {text : String} (h : ∀ c ∈ text.toList, isBlank c = false) :
    Unbroken text := by
  intro hbreak
  cases h _ hbreak

theorem cutLines_join {lines : List String} (h : ∀ line ∈ lines, Unbroken line) :
    cutLines (String.join (lines.map (· ++ "\n"))) = lines ++ [""] := by
  induction lines with
  | nil => rfl
  | cons line rest ih =>
    obtain ⟨hline, hrest⟩ := List.forall_mem_cons.1 h
    have htext : (String.join ((line :: rest).map (· ++ "\n"))).toList =
        line.toList ++ '\n' :: (String.join (rest.map (· ++ "\n"))).toList := by
      simp [String.toList_join]
    have hfront : line.toList.splitOnP (· == '\n') = [line.toList] := by
      refine List.splitOnP_eq_singleton fun c hc => beq_eq_false_iff_ne.2 ?_
      rintro rfl
      exact hline hc
    have hbehind := ih hrest
    rw [cutLines, List.splitOn] at hbehind ⊢
    rw [htext, List.splitOnP_append_cons _ _ rfl, hfront, List.map_append, hbehind,
      List.map_singleton, String.ofList_toList]
    rfl

end Text

theorem not_blank_digits {ds : List Char} (h : Run isDigit ds) : ∀ c ∈ ds, Text.isBlank c = false :=
  fun c hc => forall_digit (P := fun c => Text.isBlank c = false) (by decide) (h c hc)

theorem Laid.not_blank {text whole fraction : List Char} {n : Int} {x : Float}
    (h : Laid text whole fraction n x) : ∀ c ∈ text, Text.isBlank c = false :=
  h.forall_char (by decide)

theorem FloatFormat.unbroken_render (f : FloatFormat)
    (h : Text.Unbroken f.nan ∧ Text.Unbroken f.infinity ∧ Text.Unbroken f.negativeInfinity)
    (x : Float) : Text.Unbroken (f.render x) := by
  obtain ⟨hnan, hinfinity, hnegative⟩ := h
  by_cases hfinite : x.isFinite = true
  · refine Text.unbroken_of_not_blank ?_
    obtain ⟨text, _, _, _, ⟨hlaid, hname⟩ | ⟨hlaid, hname⟩⟩ := render_laid f hfinite
    · rw [hname, String.toList_ofList]
      exact hlaid.not_blank
    · rw [hname, String.toList_ofList]
      exact List.forall_mem_cons.2 ⟨rfl, hlaid.not_blank⟩
  unfold render
  split
  · exact hnan
  · split
    · exact hnegative
    · exact hinfinity
  · next hx => exact absurd (Exact.isFinite_of_ofFloat hx) hfinite

theorem Value.unbroken_text (v : Value) : Text.Unbroken v.text := by
  cases v with
  | scalar x => exact FloatFormat.plain.unbroken_render (by decide) x
  | vector xs =>
    have hentries : ∀ text ∈ xs.map FloatFormat.listing.render, Text.Unbroken text := by
      intro text ht
      obtain ⟨x, _, rfl⟩ := List.mem_map.1 ht
      exact FloatFormat.listing.unbroken_render (by decide) x
    have hopening : Text.Unbroken "[" := by decide
    have hseparator : Text.Unbroken ", " := by decide
    exact (hopening.append (hseparator.intercalate hentries)).append (by decide)

namespace Command

theorem unbroken_padRight {text : String} (h : Text.Unbroken text) (width : Nat) :
    Text.Unbroken (padRight width text) := by
  refine h.append ?_
  rw [Text.Unbroken, String.toList_ofList, List.mem_replicate]
  exact fun hbreak => absurd hbreak.2 (by decide)

theorem unbroken_kind (kind : Kind) : Text.Unbroken kind.name := by
  have hall : ∀ kind ∈ Kind.all, Text.Unbroken kind.name := by decide +kernel
  exact hall kind kind.mem_all

theorem unbroken_lexemeLine {source : String} {l : Lexeme} (h : l ∈ Lexeme.ofSource source) :
    Text.Unbroken (lexemeLine l) := by
  have hkind := unbroken_padRight (unbroken_kind l.kind) 16
  have htext : Text.Unbroken l.text :=
    Text.unbroken_of_not_blank fun c hc =>
      Lexeme.not_blank_of_mem_ofSource (List.mem_flatMap.2 ⟨l, h, hc⟩)
  exact (hkind.append (by decide)).append htext

theorem unbroken_valueLine (index : Nat) (v : Value) : Text.Unbroken (valueLine index v) := by
  have hevent : Text.Unbroken "event " := by decide
  have hindex : Text.Unbroken (toString index) := by
    refine Text.unbroken_of_not_blank ?_
    exact Nat.toList_repr ▸ not_blank_digits (run_toDigits index)
  refine (((hevent.append hindex).append (by decide)).append v.unbroken_text).append ?_
  split <;> decide

theorem unbroken_headerLine {schema : Schema Record} {source : String} {e : Expr Record}
    (h : parse schema source = .ok e) : Text.Unbroken (headerLine e) := by
  have hname : Text.Unbroken e.name := by
    refine Text.unbroken_of_not_blank fun c hc => ?_
    rw [name_of_parse h, Text.toList_stripBlanks] at hc
    simpa using (List.mem_filter.1 hc).2
  have hshape : Text.Unbroken e.shape.name := by
    cases e.shape <;> decide
  have hplain : Text.Unbroken e.plainName := by
    refine Text.unbroken_of_not_blank fun c hc => ?_
    rw [Expr.plainName, Name.plain, String.toList_ofList, Name.plainChars] at hc
    exact Lexeme.not_blank_of_visible (Lexeme.visible_of_isNameChar (List.mem_filter.1 hc).2)
  exact ((((hname.append (by decide)).append hshape).append (by decide)).append hplain).append
    (by decide)

section Collect

variable {α β ε : Type} {f : α → Except ε β} {items : List α}

theorem collect_ok (h : ∀ a ∈ items, ∃ b, f a = .ok b) (index : Nat) :
    ∃ results, collect f index items = .ok results ∧
      List.Forall₂ (fun a b => f a = .ok b) items results := by
  induction items generalizing index with
  | nil => exact ⟨[], rfl, .nil⟩
  | cons a rest ih =>
    obtain ⟨⟨b, hb⟩, hrest⟩ := List.forall_mem_cons.1 h
    obtain ⟨results, hresults, hall⟩ := ih hrest (index + 1)
    refine ⟨b :: results, ?_, .cons hb hall⟩
    rw [collect, hb]
    simp only [hresults, Except.map]

theorem collect_error (h : ∃ a ∈ items, ∃ e, f a = .error e) (index : Nat) :
    ∃ failed, collect f index items = .error failed := by
  induction items generalizing index with
  | nil =>
    obtain ⟨_, ha, _⟩ := h
    cases ha
  | cons a rest ih =>
    cases hb : f a with
    | error e => exact ⟨(index, e), by rw [collect, hb]⟩
    | ok b =>
      obtain ⟨x, hx, e, he⟩ := h
      have hmem : x ∈ rest := by
        refine (List.mem_cons.1 hx).resolve_left ?_
        rintro rfl
        rw [hb] at he
        cases he
      obtain ⟨failed, hfailed⟩ := ih ⟨x, hmem, e, he⟩ (index + 1)
      refine ⟨failed, ?_⟩
      rw [collect, hb]
      simp only [hfailed, Except.map]

end Collect

section Stages

variable {read : String → Option Record} {options : Options} {records : List Record}
  {e : Expr Record}

theorem readEvents_error {events : List String} (h : ∃ text ∈ events, read text = none) :
    ∃ index, readEvents read events = .error (.invalidEvent index) := by
  obtain ⟨text, ht, hread⟩ := h
  obtain ⟨⟨index, _⟩, hfailed⟩ := collect_error (ε := Unit)
    (f := fun text => (read text).elim (.error ()) .ok) ⟨text, ht, (), by rw [hread]; rfl⟩ 0
  exact ⟨index, by rw [readEvents, hfailed]; rfl⟩

theorem readEvents_ok {events : List String} (h : ∀ text ∈ events, read text ≠ none) :
    ∃ records, readEvents read events = .ok records ∧
      List.Forall₂ (fun text r => read text = some r) events records := by
  have hread : ∀ text ∈ events, ∃ r,
      ((read text).elim (.error ()) .ok : Except Unit Record) = .ok r := by
    intro text ht
    obtain ⟨r, hr⟩ := Option.ne_none_iff_exists'.1 (h text ht)
    exact ⟨r, by rw [hr]; rfl⟩
  obtain ⟨records, hrecords, hall⟩ := collect_ok hread 0
  refine ⟨records, by rw [readEvents, hrecords]; rfl, hall.imp ?_⟩
  intro text r hr
  cases hread : read text with
  | none =>
    rw [hread] at hr
    cases hr
  | some found =>
    rw [hread] at hr
    exact congrArg some (Except.ok.inj hr)

theorem evaluateAll_error (h : ∃ r ∈ records, ∃ x, e.eval r = .error x) :
    ∃ index x, evaluateAll e records = .error (.evaluation index x) := by
  obtain ⟨⟨index, x⟩, hfailed⟩ := collect_error h 0
  exact ⟨index, x, by rw [evaluateAll, hfailed]; rfl⟩

theorem evaluateAll_ok (h : ∀ r ∈ records, ∃ v, e.eval r = .ok v) :
    ∃ values, evaluateAll e records = .ok values ∧
      List.Forall₂ (fun r v => e.eval r = .ok v) records values := by
  obtain ⟨values, hvalues, hall⟩ := collect_ok h 0
  exact ⟨values, by rw [evaluateAll, hvalues]; rfl, hall⟩

end Stages

namespace Writing

variable {α β : Type}

/-- A failure comes before anything is written. -/
def FailsFirst (w : Writing α) : Prop :=
  ∀ written f, (w.run.run written).1 = .error f → (w.run.run written).2 = written

theorem FailsFirst.bind {next : α → Writing β} (h : ∀ a, FailsFirst (next a))
    (x : Except Failure α) : FailsFirst (liftExcept x >>= next) := by
  cases x with
  | ok a => exact h a
  | error f => exact fun written _ _ => rfl

theorem run_writeLines (lines : List String) (written : String) :
    (writeLines lines).run.run written =
      (.ok (), written ++ String.join (lines.map (· ++ "\n"))) := by
  induction lines generalizing written with
  | nil =>
    rw [List.map_nil, String.join_nil, String.append_empty]
    rfl
  | cons line lines ih =>
    refine (ih (written ++ (line ++ "\n"))).trans ?_
    rw [List.map_cons, String.join_cons, String.append_assoc]

theorem failsFirst_writeLines (lines : List String) : FailsFirst (writeLines lines) := by
  intro written f h
  rw [run_writeLines] at h
  cases h

theorem outcome_writeLines (lines : List String) :
    outcome (writeLines lines) = ⟨0, String.join (lines.map (· ++ "\n")), ""⟩ := by
  rw [outcome, run_writeLines, String.empty_append]

theorem outcome_bind_ok {x : Except Failure α} {a : α} (h : x = .ok a) (next : α → Writing Unit) :
    outcome (liftExcept x >>= next) = outcome (next a) := by
  rw [h]
  rfl

theorem exitCode_bind_error {x : Except Failure α} {f : Failure} (h : x = .error f)
    (next : α → Writing Unit) : (outcome (liftExcept x >>= next)).exitCode = f.exitCode := by
  rw [h]
  rfl

theorem FailsFirst.stdout_eq {w : Writing Unit} (h : FailsFirst w)
    (hexit : (outcome w).exitCode ≠ 0) : (outcome w).stdout = "" := by
  have hfirst := h ""
  unfold outcome at hexit ⊢
  split
  · next heq =>
    rw [heq] at hexit
    exact absurd rfl hexit
  · next heq =>
    rw [heq] at hfirst
    exact hfirst _ rfl

end Writing

inductive ShowsFloat (x : Float) : Json → Prop
  | number (finite : x.isFinite = true) : ShowsFloat x (.number x finite)
  | null (h : x.isFinite = false) : ShowsFloat x .null

/-- A scalar is shown as a number and a vector as an array of numbers, `null` standing for a float
that is not finite. -/
inductive Shows : Value → Json → Prop
  | scalar {x : Float} {j : Json} (h : ShowsFloat x j) : Shows (.scalar x) j
  | vector {xs : List Float} {items : List Json} (h : List.Forall₂ ShowsFloat xs items) :
    Shows (.vector xs) (.array items)

theorem showsFloat_ofFloat (x : Float) : ShowsFloat x (.ofFloat x) := by
  unfold Json.ofFloat
  split
  · exact .number _
  · next h => exact .null (Bool.not_eq_true _ ▸ h)

theorem shows_toJson (v : Value) : Shows v v.toJson := by
  cases v with
  | scalar x => exact .scalar (showsFloat_ofFloat x)
  | vector xs =>
    refine .vector ?_
    rw [List.forall₂_map_right_iff, List.forall₂_same]
    exact fun x _ => showsFloat_ofFloat x

theorem failsFirst_writeResults (json : Bool) (e : Expr Record) (values : List Value) :
    Writing.FailsFirst (writeResults json e values) := by
  unfold writeResults
  split
  · exact Writing.failsFirst_writeLines [_]
  · exact Writing.failsFirst_writeLines (_ :: _)

theorem failsFirst_evaluate (read : String → Option Record) (options : Options) :
    Writing.FailsFirst (evaluate read options) := by
  refine .bind (fun records => ?_) _
  split
  · exact Writing.failsFirst_writeLines _
  · exact .bind (fun e => .bind (fun values => failsFirst_writeResults _ e values) _) _

theorem cutLines_tokens (source : String) :
    Text.cutLines (writeLines ((Lexeme.ofSource source).map lexemeLine)).outcome.stdout =
      (Lexeme.ofSource source).map lexemeLine ++ [""] := by
  rw [Writing.outcome_writeLines]
  refine Text.cutLines_join fun line hline => ?_
  obtain ⟨l, hl, rfl⟩ := List.mem_map.1 hline
  exact unbroken_lexemeLine hl

theorem cutLines_values {schema : Schema Record} {source : String} {e : Expr Record}
    (h : parse schema source = .ok e) (values : List Value) :
    Text.cutLines (writeLines (headerLine e :: values.mapIdx valueLine)).outcome.stdout =
      headerLine e :: values.mapIdx valueLine ++ [""] := by
  rw [Writing.outcome_writeLines]
  refine Text.cutLines_join (List.forall_mem_cons.2 ⟨unbroken_headerLine h, ?_⟩)
  intro line hline
  obtain ⟨index, _, rfl⟩ := List.mem_mapIdx.1 hline
  exact unbroken_valueLine index _

theorem read?_document (e : Expr Record) (values : List Value) :
    Json.read? (writeLine ((document e values).indented 0)).outcome.stdout =
      some (document e values) := by
  have hstdout : (writeLine ((document e values).indented 0)).outcome.stdout =
      (document e values).indented 0 ++ "\n" :=
    String.empty_append
  rw [hstdout]
  exact Json.read?_indented _ 0 (List.forall_mem_singleton.2 rfl)

section Outcomes

variable {read : String → Option Record} {options : Options} {records : List Record}
  {e : Expr Record}

theorem outcome_tokens (hread : readEvents read options.events = .ok records)
    (htokens : options.tokens = true) :
    (evaluate read options).outcome =
      (writeLines ((Lexeme.ofSource options.expression).map lexemeLine)).outcome := by
  refine (Writing.outcome_bind_ok hread _).trans ?_
  rw [if_pos htokens]

theorem outcome_evaluateOn (hread : readEvents read options.events = .ok records)
    (htokens : options.tokens = false) :
    (evaluate read options).outcome = (evaluateOn records options).outcome := by
  refine (Writing.outcome_bind_ok hread _).trans ?_
  rw [htokens]
  rfl

theorem exitCode_of_parse_error {failure : ParseError}
    (hparse : parse (RecordSchema.ofRecords records).schema options.expression = .error failure) :
    (evaluateOn records options).outcome.exitCode = 2 :=
  Writing.exitCode_bind_error (congrArg (Except.mapError Failure.parse) hparse) _

theorem exitCode_of_eval_error
    (hparse : parse (RecordSchema.ofRecords records).schema options.expression = .ok e)
    (h : ∃ r ∈ records, ∃ x, e.eval r = .error x) :
    (evaluateOn records options).outcome.exitCode = 1 := by
  obtain ⟨index, x, hall⟩ := evaluateAll_error h
  rw [evaluateOn, Writing.outcome_bind_ok (congrArg (Except.mapError Failure.parse) hparse)]
  exact Writing.exitCode_bind_error hall _

theorem outcome_results {values : List Value}
    (hparse : parse (RecordSchema.ofRecords records).schema options.expression = .ok e)
    (hall : evaluateAll e records = .ok values) :
    (evaluateOn records options).outcome = (writeResults options.json e values).outcome := by
  rw [evaluateOn, Writing.outcome_bind_ok (congrArg (Except.mapError Failure.parse) hparse)]
  exact Writing.outcome_bind_ok hall _

theorem exitCode_writeResults (json : Bool) (e : Expr Record) (values : List Value) :
    (writeResults json e values).outcome.exitCode = 0 := by
  unfold writeResults
  split
  · exact congrArg Outcome.exitCode (Writing.outcome_writeLines [_])
  · exact congrArg Outcome.exitCode (Writing.outcome_writeLines (_ :: _))

end Outcomes

/-- The events decide first, then what is asked of the expression, and the values last. -/
theorem evaluate_all_or_nothing (read : String → Option Record) (options : Options) :
    let outcome := (evaluate read options).outcome
    (outcome.exitCode ≠ 0 → outcome.stdout = "") ∧
      ((∃ text ∈ options.events, read text = none) → outcome.exitCode = 1) ∧
      ((∀ text ∈ options.events, read text ≠ none) → ∃ records,
        List.Forall₂ (fun text r => read text = some r) options.events records ∧
          (options.tokens = true → outcome.exitCode = 0 ∧
            Text.cutLines outcome.stdout =
              (Lexeme.ofSource options.expression).map lexemeLine ++ [""]) ∧
          (options.tokens = false →
            (∀ failure, parse (RecordSchema.ofRecords records).schema options.expression =
              .error failure → outcome.exitCode = 2) ∧
            ∀ e, parse (RecordSchema.ofRecords records).schema options.expression = .ok e →
              ((∃ r ∈ records, ∃ x, e.eval r = .error x) → outcome.exitCode = 1) ∧
              ((∀ r ∈ records, ∃ v, e.eval r = .ok v) → ∃ values,
                List.Forall₂ (fun r v => e.eval r = .ok v) records values ∧
                  values.length = options.events.length ∧ outcome.exitCode = 0 ∧
                  (options.json = false → Text.cutLines outcome.stdout =
                    headerLine e :: values.mapIdx valueLine ++ [""]) ∧
                  (options.json = true → ∃ items, List.Forall₂ Shows values items ∧
                    Json.read? outcome.stdout = some (.object [("name", .text e.name),
                      ("plain_name", .text e.plainName), ("shape", .text e.shape.name),
                      ("values", .array items)]))))) := by
  intro outcome
  refine ⟨(failsFirst_evaluate read options).stdout_eq, ?_, ?_⟩
  · intro hinvalid
    obtain ⟨index, hread⟩ := readEvents_error hinvalid
    exact Writing.exitCode_bind_error hread _
  · intro hvalid
    obtain ⟨records, hread, hrecords⟩ := readEvents_ok hvalid
    refine ⟨records, hrecords, ?_, ?_⟩
    · intro htokens
      have houtcome : outcome = _ := outcome_tokens hread htokens
      rw [houtcome]
      exact ⟨congrArg Outcome.exitCode (Writing.outcome_writeLines _),
        cutLines_tokens options.expression⟩
    · intro htokens
      have houtcome : outcome = _ := outcome_evaluateOn hread htokens
      rw [houtcome]
      refine ⟨fun failure hparse => exitCode_of_parse_error hparse, fun e hparse => ?_⟩
      refine ⟨exitCode_of_eval_error hparse, ?_⟩
      intro hevals
      obtain ⟨values, hall, hvalues⟩ := evaluateAll_ok hevals
      rw [outcome_results hparse hall]
      refine ⟨values, hvalues, ?_, exitCode_writeResults _ e values, ?_, ?_⟩
      · rw [← hvalues.length_eq, ← hrecords.length_eq]
      · intro hjson
        rw [hjson]
        exact cutLines_values hparse values
      · intro hjson
        refine ⟨values.map Value.toJson, ?_, ?_⟩
        · rw [List.forall₂_map_right_iff, List.forall₂_same]
          exact fun v _ => shows_toJson v
        · rw [hjson]
          exact read?_document e values

example : Text.cutLines (evaluate (fun _ => none) ⟨"a <= 1", [], true, false⟩).outcome.stdout =
    ["Identifier       a", "LessEqual        <=", "Number           1", ""] := by decide +kernel

end Command

end EventCuts
