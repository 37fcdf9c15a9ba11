import EventCuts.Proofs.Acceptance
import EventCuts.Record.Basic

/-!
# Where failures come from

What is composed fails by itself only for the length of a vector. Any other failure is that of a
variable of the cut, and against event records it tells of a column that is missing or in the
other shape.
-/

namespace EventCuts

variable {C : Type} {c : C} {x : EvalError}

theorem map_eq_error_iff {α β : Type} {a : Eval α} {f : α → β} :
    a.map f = .error x ↔ a = .error x := by
  cases a <;> simp [Except.map]

def EvalError.OfLength : EvalError → Prop
  | indexOutOfRange _ _ _ | emptyBroadcast _ => True
  | shapeMismatch _ _ | missingColumn _ => False

namespace Payload

def Fails (p : Payload C) (c : C) (x : EvalError) : Prop :=
  match p with
  | scalar f => f c = .error x
  | vector f => f c = .error x

variable {p q : Payload C}

theorem eval_eq_error_iff : p.eval c = .error x ↔ p.Fails c x := by
  cases p <;> exact map_eq_error_iff

theorem fails_map_iff (op : Float → Float) : (p.map op).Fails c x ↔ p.Fails c x := by
  cases p <;> exact map_eq_error_iff

theorem eq_of_requireEntries {name : String} {entries : List Float}
    (h : requireEntries name entries = .error x) : x = .emptyBroadcast name := by
  cases entries with
  | nil =>
    cases h
    rfl
  | cons y ys => cases h

theorem Fails.of_combine {op : BinaryOp} {m n : String} (h : (p.combine op m n q).Fails c x) :
    (∃ name, x = .emptyBroadcast name) ∨ p.Fails c x ∨ q.Fails c x := by
  cases p with
  | scalar f =>
    cases q with
    | scalar g =>
      obtain hf | ⟨a, _, h⟩ := bind_eq_error h
      · exact .inr (.inl hf)
      · cases hd : op.decided a with
        | some answer =>
          simp only [hd] at h
          cases h
        | none =>
          simp only [hd] at h
          obtain hg | ⟨b, _, h⟩ := bind_eq_error h
          · exact .inr (.inr hg)
          · cases h
    | vector g =>
      obtain hf | ⟨a, _, h⟩ := bind_eq_error h
      · exact .inr (.inl hf)
      · obtain hg | ⟨bs, _, h⟩ := bind_eq_error h
        · exact .inr (.inr hg)
        · obtain he | ⟨_, _, h⟩ := bind_eq_error h
          · exact .inl ⟨_, eq_of_requireEntries he⟩
          · cases h
  | vector f =>
    cases q with
    | scalar g =>
      obtain hf | ⟨as, _, h⟩ := bind_eq_error h
      · exact .inr (.inl hf)
      · obtain he | ⟨_, _, h⟩ := bind_eq_error h
        · exact .inl ⟨_, eq_of_requireEntries he⟩
        · obtain hg | ⟨b, _, h⟩ := bind_eq_error h
          · exact .inr (.inr hg)
          · cases h
    | vector g =>
      obtain hf | ⟨as, _, h⟩ := bind_eq_error h
      · exact .inr (.inl hf)
      · obtain hg | ⟨bs, _, h⟩ := bind_eq_error h
        · exact .inr (.inr hg)
        · cases h

end Payload

theorem eq_of_entryAt {name : String} {entries : List Float} {i : Float}
    (h : entryAt name entries i = .error x) : x = .indexOutOfRange name i entries.length := by
  unfold entryAt at h
  split at h
  · cases h
  · cases h
    rfl

theorem Expr.evalScalar_of_rename {name : String} {e : Expr C} {index : Float}
    (h : (e.rename name).evalScalar c = .ok index) : e.evalScalar c = .ok index := by
  obtain ⟨_, f | f⟩ := e
  · exact h
  · cases h

theorem Expr.fails_of_subscript {v i e : Expr C} (he : v.subscript i = some e)
    (h : e.payload.Fails c x) :
    (∃ entries index, v.evalVector c = .ok entries ∧ i.evalScalar c = .ok index ∧
      x = .indexOutOfRange v.name index entries.length) ∨
      v.payload.Fails c x ∨ i.payload.Fails c x := by
  obtain ⟨name, f | f⟩ := v
  · cases he
  · obtain ⟨other, g | g⟩ := i
    · cases he
      obtain hf | ⟨entries, hentries, h⟩ := bind_eq_error h
      · exact .inr (.inl hf)
      · obtain hg | ⟨index, hindex, h⟩ := bind_eq_error h
        · exact .inr (.inr hg)
        · exact .inl ⟨entries, index, hentries, hindex, eq_of_entryAt h⟩
    · cases he

/-- A subscript among the lexemes finds no entry, and names the text in front of its bracket. -/
def Misses (schema : Schema C) (ls : List Lexeme) (c : C) (x : EvalError) : Prop :=
  ∃ v i vs is entries index, vs ++ .opening .square :: (is ++ [.closing .square]) <:+: ls ∧
    Derives schema .primary v vs ∧ Derives schema .disjunction i is ∧
    (v.expr schema).evalVector c = .ok entries ∧ (i.expr schema).evalScalar c = .ok index ∧
    x = .indexOutOfRange (String.join (vs.map Lexeme.text)) index entries.length

theorem Misses.mono {schema : Schema C} {ls ms : List Lexeme} (h : Misses schema ls c x)
    (hms : ls <:+: ms) : Misses schema ms c x := by
  obtain ⟨v, i, vs, is, entries, index, hinside, h⟩ := h
  exact ⟨v, i, vs, is, entries, index, hinside.trans hms, h⟩

/-- A variable among the lexemes fails so. -/
def Blames (schema : Schema C) (ls : List Lexeme) (c : C) (x : EvalError) : Prop :=
  ∃ n v, ⟨.identifier, n⟩ ∈ ls ∧ schema n = some v ∧ v.payload.Fails c x

theorem Blames.mono {schema : Schema C} {ls ms : List Lexeme} (h : Blames schema ls c x)
    (hms : ls <:+: ms) : Blames schema ms c x := by
  obtain ⟨n, v, hn, hv, hx⟩ := h
  exact ⟨n, v, hms.subset hn, hv, hx⟩

def Arises (schema : Schema C) (ls : List Lexeme) (c : C) (x : EvalError) : Prop :=
  (∃ name, x = .emptyBroadcast name) ∨ Misses schema ls c x ∨ Blames schema ls c x

theorem Arises.mono {schema : Schema C} {ls ms : List Lexeme} (h : Arises schema ls c x)
    (hms : ls <:+: ms) : Arises schema ms c x :=
  h.imp_right (Or.imp (fun h => h.mono hms) fun h => h.mono hms)

theorem Derives.arises {schema : Schema C} {level : Level} {t : Term} {ls : List Lexeme}
    (h : Derives schema level t ls) (hx : (t.expr schema).payload.Fails c x) :
    Arises schema ls c x := by
  induction h with
  | number text => cases hx
  | @name text v hv =>
    simp only [Term.expr, hv] at hx
    exact .inr (.inr ⟨text, v, List.mem_singleton_self _, hv, hx⟩)
  | group _ ih => exact (ih hx).mono ⟨[.opening .round], [.closing .round], rfl⟩
  | @entry v i ls ms hdv hdi hv hi ihv ihi =>
    obtain ⟨e, he, _⟩ := Expr.exists_subscript (i := (i.expr schema).rename i.text)
      (hdv.shape_expr.trans hv) (hdi.shape_expr.trans hi)
    simp only [Term.expr, he] at hx
    obtain ⟨entries, index, hentries, hindex, rfl⟩ | hx | hx := Expr.fails_of_subscript he hx
    · have hname : (v.expr schema).name = String.join (ls.map Lexeme.text) := by
        rw [Term.name_expr (Level.rank_injective (Nat.le_zero.1 hdv.rank_le)), hdv.lexemes_eq,
          Term.join_lexemes]
      rw [hname]
      exact .inr (.inl ⟨v, i, ls, ms, entries, index, List.infix_refl _, hdv, hdi, hentries,
        Expr.evalScalar_of_rename hindex, rfl⟩)
    · exact (ihv hx).mono (List.prefix_append _ _).isInfix
    · exact (ihi hx).mono ⟨ls ++ [.opening .square], [.closing .square], by simp⟩
  | prefixed op _ ih =>
    exact (ih ((Payload.fails_map_iff op.apply).1 hx)).mono (List.suffix_cons _ _).isInfix
  | @binary _ _ _ ls ms op _ _ _ ihl ihr =>
    obtain hempty | hx | hx := Payload.Fails.of_combine hx
    · exact .inl hempty
    · exact (ihl hx).mono (List.prefix_append _ _).isInfix
    · exact (ihr hx).mono ⟨ls ++ [op.lexeme], [], by simp⟩
  | loosen level _ ih => exact ih hx

theorem arises_of_parse {schema : Schema C} {source : String} {e : Expr C}
    (h : parse schema source = .ok e) (hx : e.eval c = .error x) :
    Arises schema (Lexeme.ofSource source) c x := by
  obtain ⟨t, ht, _⟩ := derives_of_parse h
  obtain ⟨_, rfl⟩ := (parse_eq_ok_iff ht e).1 h
  exact ht.arises (Payload.eval_eq_error_iff.1 hx)

theorem blames_of_parse {schema : Schema C} {source : String} {e : Expr C}
    (h : parse schema source = .ok e) (hx : e.eval c = .error x) :
    x.OfLength ∨ Blames schema (Lexeme.ofSource source) c x := by
  obtain ⟨_, rfl⟩ | ⟨_, _, _, _, _, _, _, _, _, _, _, rfl⟩ | hblames := arises_of_parse h hx
  · exact .inl trivial
  · exact .inl trivial
  · exact .inr hblames

/-- Why a column cannot be read in a shape. -/
def Record.Denies (r : Record) (name : String) (shape : Shape) : EvalError → Prop
  | .missingColumn n => n = name ∧ r.get? name = none
  | .shapeMismatch n expected =>
    n = name ∧ expected = shape ∧ ∃ v, r.get? name = some v ∧ v.shape ≠ shape
  | _ => False

namespace RecordSchema

theorem denies_of_reader {r : Record} {name : String} {shape : Shape}
    (h : (reader name shape).payload.Fails r x) : r.Denies name shape x := by
  cases hv : r.get? name with
  | none =>
    have hx : x = .missingColumn name := by
      cases shape
      all_goals
        simp only [reader, Expr.scalar, Expr.vector, Payload.Fails, Record.scalar, Record.vector,
          Record.column, hv] at h
        cases h
        rfl
    subst hx
    exact ⟨rfl, hv⟩
  | some v =>
    have hx : v.shape ≠ shape ∧ x = .shapeMismatch name shape := by
      cases shape <;> cases v
      all_goals
        simp only [reader, Expr.scalar, Expr.vector, Payload.Fails, Record.scalar, Record.vector,
          Record.column, hv] at h
        cases h <;> exact ⟨Shape.noConfusion, rfl⟩
    obtain ⟨hother, rfl⟩ := hx
    exact ⟨rfl, rfl, v, hv, hother⟩

/-- Against an event a compiled cut fails for the length of a vector, or because the event lacks
a column that the cut names, or has it in another shape than the schema says. -/
theorem failures_of_parse {s : RecordSchema} {source : String} {e : Expr Record}
    (h : parse s.schema source = .ok e) (r : Record) :
    (∀ n, e.eval r = .error (.missingColumn n) →
        ⟨.identifier, n⟩ ∈ Lexeme.ofSource source ∧ r.get? n = none) ∧
      (∀ n expected, e.eval r = .error (.shapeMismatch n expected) →
        ⟨.identifier, n⟩ ∈ Lexeme.ofSource source ∧ s.shapeOf n = some expected ∧
          ∃ v, r.get? n = some v ∧ v.shape ≠ expected) ∧
      ((∀ n, ⟨.identifier, n⟩ ∈ Lexeme.ofSource source →
          ∃ v, r.get? n = some v ∧ s.shapeOf n = some v.shape) →
        ∀ x, e.eval r = .error x →
          (∃ name index count, x = .indexOutOfRange name index count) ∨
            ∃ name, x = .emptyBroadcast name) := by
  have hblamed : ∀ x, e.eval r = .error x → x.OfLength ∨ ∃ n shape,
      ⟨.identifier, n⟩ ∈ Lexeme.ofSource source ∧ s.shapeOf n = some shape ∧
        r.Denies n shape x := by
    intro x hx
    refine (blames_of_parse h hx).imp_right ?_
    rintro ⟨n, v, hn, hv, hfails⟩
    obtain ⟨shape, hshape, rfl⟩ := Option.map_eq_some_iff.1 hv
    exact ⟨n, shape, hn, hshape, denies_of_reader hfails⟩
  refine ⟨fun n hx => ?_, fun n expected hx => ?_, fun hcolumns x hx => ?_⟩
  · obtain hl | ⟨_, shape, hn, hshape, rfl, hnone⟩ := hblamed _ hx
    · cases hl
    · exact ⟨hn, hnone⟩
  · obtain hl | ⟨_, shape, hn, hshape, rfl, rfl, hother⟩ := hblamed _ hx
    · cases hl
    · exact ⟨hn, hshape, hother⟩
  · obtain hl | ⟨n, shape, hn, hshape, hdenies⟩ := hblamed _ hx
    · cases x with
      | indexOutOfRange name index count => exact .inl ⟨name, index, count, rfl⟩
      | emptyBroadcast name => exact .inr ⟨name, rfl⟩
      | shapeMismatch name expected => cases hl
      | missingColumn name => cases hl
    · obtain ⟨v, hv, hvshape⟩ := hcolumns n hn
      obtain rfl : shape = v.shape := Option.some.inj (hshape.symm.trans hvshape)
      cases x with
      | missingColumn name =>
        obtain ⟨_, hnone⟩ := hdenies
        rw [hv] at hnone
        cases hnone
      | shapeMismatch name expected =>
        obtain ⟨_, _, w, hw, hother⟩ := hdenies
        obtain rfl : w = v := Option.some.inj (hw.symm.trans hv)
        exact absurd rfl hother
      | indexOutOfRange name index count => cases hdenies
      | emptyBroadcast name => cases hdenies

def ofEntry : RecordSchema := (empty.withColumn "v" .vector).withColumn "i" .scalar

theorem failures_of_parse_entry :
    ∃ e : Expr Record, parse ofEntry.schema "v[i]" = .ok e ∧
      e.eval (.ofList [("i", .scalar 0)]) = .error (.missingColumn "v") ∧
      e.eval (.ofList [("v", .vector []), ("i", .vector [])]) =
        .error (.shapeMismatch "i" .scalar) ∧
      e.eval (.ofList [("v", .vector []), ("i", .scalar 0)]) =
        .error (.indexOutOfRange "v" 0 0) ∧
      ∀ r : Record,
        (∀ n, e.eval r = .error (.missingColumn n) →
            ⟨.identifier, n⟩ ∈ Lexeme.ofSource "v[i]" ∧ r.get? n = none) ∧
          (∀ n expected, e.eval r = .error (.shapeMismatch n expected) →
            ⟨.identifier, n⟩ ∈ Lexeme.ofSource "v[i]" ∧ ofEntry.shapeOf n = some expected ∧
              ∃ v, r.get? n = some v ∧ v.shape ≠ expected) ∧
          ((∀ n, ⟨.identifier, n⟩ ∈ Lexeme.ofSource "v[i]" →
              ∃ v, r.get? n = some v ∧ ofEntry.shapeOf n = some v.shape) →
            ∀ x, e.eval r = .error x →
              (∃ name index count, x = .indexOutOfRange name index count) ∨
                ∃ name, x = .emptyBroadcast name) := by
  have hlexemes : Lexeme.ofSource "v[i]" =
      [⟨.identifier, "v"⟩, .opening .square, ⟨.identifier, "i"⟩, .closing .square] := by
    decide +kernel
  have hv : Derives ofEntry.schema .primary (.name "v") [⟨.identifier, "v"⟩] := .name rfl
  have hi : Derives ofEntry.schema .primary (.name "i") [⟨.identifier, "i"⟩] := .name rfl
  have hd : Derives ofEntry.schema .disjunction (.entry (.name "v") (.name "i"))
      (Lexeme.ofSource "v[i]") := by
    rw [hlexemes]
    exact (Derives.entry hv hi.disjunction rfl rfl).disjunction
  have hr : Readable (Lexeme.ofSource "v[i]") := by
    decide +kernel
  have hparse := parse_of_derives hd hr
  exact ⟨_, hparse, rfl, rfl, rfl, failures_of_parse hparse⟩

end RecordSchema

end EventCuts
