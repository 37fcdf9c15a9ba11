import EventCuts.Proofs.Provenance

/-!
# What a cut reads of an event

Operators and subscripts ask their operands and nothing else, and a leaf asks its own variable. So
a compiled cut cannot tell two events apart on which the variables it names answer the same, and
against event records it reads the columns it names and no other.
-/

namespace EventCuts

variable {C : Type} {c d : C}

namespace Payload

/-- The two events get the same answer, be it a value or a failure. -/
def SameOn (p : Payload C) (c d : C) : Prop :=
  match p with
  | scalar f => f c = f d
  | vector f => f c = f d

namespace SameOn

variable {p q : Payload C}

theorem eval_eq (h : p.SameOn c d) : p.eval c = p.eval d := by
  cases p with
  | scalar f => exact congrArg (Except.map Value.scalar) h
  | vector f => exact congrArg (Except.map Value.vector) h

theorem map (op : Float → Float) (h : p.SameOn c d) : (p.map op).SameOn c d := by
  cases p with
  | scalar f => exact congrArg (Except.map op) h
  | vector f => exact congrArg (Except.map (List.map op)) h

theorem combine (op : BinaryOp) (m n : String) (hp : p.SameOn c d) (hq : q.SameOn c d) :
    (p.combine op m n q).SameOn c d := by
  cases p with
  | scalar f =>
    have hf : f c = f d := hp
    cases q with
    | scalar g =>
      have hg : g c = g d := hq
      simp only [Payload.combine, SameOn, hf, hg]
    | vector g =>
      have hg : g c = g d := hq
      simp only [Payload.combine, SameOn, hf, hg]
  | vector f =>
    have hf : f c = f d := hp
    cases q with
    | scalar g =>
      have hg : g c = g d := hq
      simp only [Payload.combine, SameOn, hf, hg]
    | vector g =>
      have hg : g c = g d := hq
      simp only [Payload.combine, SameOn, hf, hg]

end SameOn

end Payload

theorem Expr.sameOn_subscript {v i e : Expr C} (hv : v.payload.SameOn c d)
    (hi : i.payload.SameOn c d) (he : v.subscript i = some e) : e.payload.SameOn c d := by
  rcases v with ⟨name, f | f⟩
  · cases he
  · rcases i with ⟨other, g | g⟩
    · cases he
      have hf : f c = f d := hv
      have hg : g c = g d := hi
      simp only [Expr.scalar, Payload.SameOn, hf, hg]
    · cases he

theorem Derives.sameOn {schema : Schema C} {level : Level} {t : Term} {ls : List Lexeme}
    (h : Derives schema level t ls)
    (hnames : ∀ n v, ⟨.identifier, n⟩ ∈ ls → schema n = some v → v.payload.SameOn c d) :
    (t.expr schema).payload.SameOn c d := by
  induction h with
  | number text => rfl
  | @name text v hv =>
    simp only [Term.expr, hv]
    exact hnames text v (List.mem_singleton_self _) hv
  | group _ ih =>
    exact ih fun n v hn => hnames n v (List.mem_cons_of_mem _ (List.mem_append_left _ hn))
  | @entry v i ls ms hdv hdi hv hi ihv ihi =>
    have hvector := ihv fun n w hn => hnames n w (List.mem_append_left _ hn)
    have hindex := ihi fun n w hn =>
      hnames n w (List.mem_append_right _ (List.mem_cons_of_mem _ (List.mem_append_left _ hn)))
    rcases Expr.exists_subscript (i := (i.expr schema).rename i.text)
      (hdv.shape_expr.trans hv) (hdi.shape_expr.trans hi) with ⟨e, he, _⟩
    have hentry : e.payload.SameOn c d :=
      Expr.sameOn_subscript (i := (i.expr schema).rename i.text) hvector hindex he
    simp only [Term.expr, he]
    exact hentry
  | prefixed op _ ih =>
    exact (ih fun n v hn => hnames n v (List.mem_cons_of_mem _ hn)).map op.apply
  | binary op _ _ _ ihl ihr =>
    have hleft := ihl fun n v hn => hnames n v (List.mem_append_left _ hn)
    have hright := ihr fun n v hn =>
      hnames n v (List.mem_append_right _ (List.mem_cons_of_mem _ hn))
    exact hleft.combine op _ _ hright
  | loosen level _ ih => exact ih hnames

theorem sameOn_of_parse {schema : Schema C} {source : String} {e : Expr C}
    (h : parse schema source = .ok e)
    (hnames : ∀ n v, ⟨.identifier, n⟩ ∈ Lexeme.ofSource source → schema n = some v →
      v.payload.SameOn c d) :
    e.payload.SameOn c d := by
  rcases derives_of_parse h with ⟨t, ht, _⟩
  rcases (parse_eq_ok_iff ht e).1 h with ⟨_, rfl⟩
  exact ht.sameOn hnames

namespace RecordSchema

variable {s : RecordSchema} {r q : Record}

theorem sameOn_reader {name : String} (h : r.get? name = q.get? name) (shape : Shape) :
    (reader name shape).payload.SameOn r q := by
  have hcolumn : r.column name = q.column name := by
    rw [Record.column, Record.column, h]
  cases shape with
  | scalar => exact congrArg (· >>= _) hcolumn
  | vector => exact congrArg (· >>= _) hcolumn

/-- Two events that have the same in the columns that a compiled cut names, or lack them both, get
the same value or the same failure, whatever their other columns are. -/
theorem eval_reads_named_columns {source : String} {e : Expr Record}
    (h : parse s.schema source = .ok e)
    (hcolumns : ∀ n, ⟨.identifier, n⟩ ∈ Lexeme.ofSource source → r.get? n = q.get? n) :
    e.eval r = e.eval q := by
  refine (sameOn_of_parse h fun n v hn hv => ?_).eval_eq
  rcases Option.map_eq_some_iff.1 hv with ⟨shape, _, rfl⟩
  exact sameOn_reader (hcolumns n hn) shape

theorem eval_reads_named_columns_product :
    let r := Record.ofList [("v", .vector [5]), ("w", .scalar 7)]
    let q := Record.ofList [("u", .vector []), ("v", .vector [5])]
    ∃ e : Expr Record, parse ofEntry.schema "v*i" = .ok e ∧
      (∀ n, ⟨.identifier, n⟩ ∈ Lexeme.ofSource "v*i" → r.get? n = q.get? n) ∧
      e.eval r = .error (.missingColumn "i") ∧ e.eval r = e.eval q := by
  intro r q
  have hlexemes : Lexeme.ofSource "v*i" =
      [⟨.identifier, "v"⟩, BinaryOp.mul.lexeme, ⟨.identifier, "i"⟩] := by
    decide +kernel
  have hv : Derives ofEntry.schema .primary (.name "v") [⟨.identifier, "v"⟩] := .name rfl
  have hi : Derives ofEntry.schema .primary (.name "i") [⟨.identifier, "i"⟩] := .name rfl
  have hd : Derives ofEntry.schema .product (.binary .mul (.name "v") (.name "i"))
      (Lexeme.ofSource "v*i") := by
    rw [hlexemes]
    exact .binary .mul rfl (hv.mono (by decide)) (hi.mono (by decide))
  have hr : Readable (Lexeme.ofSource "v*i") := by
    decide +kernel
  have hparse := parse_of_derives hd.disjunction hr
  have hcolumns : ∀ n, ⟨.identifier, n⟩ ∈ Lexeme.ofSource "v*i" → r.get? n = q.get? n := by
    intro n hn
    rw [hlexemes] at hn
    have hn : n = "v" ∨ n = "i" := by
      simpa [BinaryOp.lexeme] using hn
    rcases hn with rfl | rfl
    · rfl
    · rfl
  exact ⟨_, hparse, hcolumns, rfl, eval_reads_named_columns hparse hcolumns⟩

end RecordSchema

end EventCuts
