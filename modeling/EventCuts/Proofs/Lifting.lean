import EventCuts.Proofs.Meaning
import EventCuts.Proofs.Numerals

/-!
# Vectors entry by entry

A cut that is a vector has as many entries as the shortest of the vectors that stand outside
of its subscripts. Subscripting each of these by the same number gives the text of a scalar
cut, whose value is the entry of that number.
-/

namespace EventCuts

variable {C : Type}

theorem min?_append {as bs : List Nat} {a b : Nat} (ha : as.min? = some a)
    (hb : bs.min? = some b) : (as ++ bs).min? = some (min a b) := by
  obtain ⟨ha, hla⟩ := List.min?_eq_some_iff.1 ha
  obtain ⟨hb, hlb⟩ := List.min?_eq_some_iff.1 hb
  refine List.min?_eq_some_iff.2 ⟨?_, ?_⟩
  · rcases Nat.le_total a b with h | h
    · rw [Nat.min_eq_left h]
      exact List.mem_append_left bs ha
    · rw [Nat.min_eq_right h]
      exact List.mem_append_right as hb
  · intro n hn
    rcases List.mem_append.1 hn with hn | hn
    · exact Nat.le_trans (Nat.min_le_left a b) (hla n hn)
    · exact Nat.le_trans (Nat.min_le_right a b) (hlb n hn)

namespace Term

/-- The vectors that are named outside of subscripts. -/
def exposed (schema : Schema C) : Term → List String
  | number _ => []
  | name text => if (name text).shape schema = .vector then [text] else []
  | group inner => inner.exposed schema
  | entry _ _ => []
  | prefixed _ operand => operand.exposed schema
  | binary _ left right => left.exposed schema ++ right.exposed schema

/-- The term with these vectors subscripted by a number. -/
def pick (schema : Schema C) (k : Nat) : Term → Term
  | number text => number text
  | name text =>
    if (name text).shape schema = .vector then entry (name text) (number (toString k))
    else name text
  | group inner => group (inner.pick schema k)
  | entry vector index => entry vector index
  | prefixed op operand => prefixed op (operand.pick schema k)
  | binary op left right => binary op (left.pick schema k) (right.pick schema k)

variable {schema : Schema C} {c : C} {t : Term} {xs : List Float} {k : Nat}

theorem exposed_of_scalar (h : t.shape schema = .scalar) : t.exposed schema = [] := by
  induction t with
  | number text => rfl
  | name text => simp [exposed, h]
  | group inner ih => exact ih h
  | entry vector index _ _ => rfl
  | prefixed op operand ih => exact ih h
  | binary op left right ihl ihr =>
    obtain ⟨hl, hr⟩ := Shape.of_join_eq_scalar h
    rw [exposed, ihl hl, ihr hr, List.append_nil]

theorem pick_of_scalar (k : Nat) (h : t.shape schema = .scalar) : t.pick schema k = t := by
  induction t with
  | number text => rfl
  | name text => simp [pick, h]
  | group inner ih => rw [pick, ih h]
  | entry vector index _ _ => rfl
  | prefixed op operand ih => rw [pick, ih h]
  | binary op left right ihl ihr =>
    obtain ⟨hl, hr⟩ := Shape.of_join_eq_scalar h
    rw [pick, ihl hl, ihr hr]

theorem shape_pick (schema : Schema C) (k : Nat) (t : Term) :
    (t.pick schema k).shape schema = .scalar := by
  induction t with
  | number text => rfl
  | name text =>
    by_cases h : (name text).shape schema = .vector
    · rw [pick, if_pos h]
      rfl
    · rw [pick, if_neg h]
      cases hs : (name text).shape schema with
      | scalar => rfl
      | vector => exact absurd hs h
  | group inner ih => exact ih
  | entry vector index _ _ => rfl
  | prefixed op operand ih => exact ih
  | binary op left right ihl ihr =>
    rw [pick, shape, ihl, ihr]
    rfl

theorem vectorValue_binary {op : BinaryOp} {l r : Term}
    (hs : (binary op l r).shape schema = .vector)
    (hx : (binary op l r).vectorValue schema c = .ok xs) :
    (∃ as bs, (l.shape schema = .vector ∧ r.shape schema = .vector) ∧
        l.vectorValue schema c = .ok as ∧ r.vectorValue schema c = .ok bs ∧
        xs = List.zipWith op.apply as bs) ∨
      (∃ as y, (l.shape schema = .vector ∧ r.shape schema = .scalar) ∧
        l.vectorValue schema c = .ok as ∧ r.scalarValue schema c = .ok y ∧
        xs = as.map fun x => op.apply x y) ∨
      (∃ x bs, (l.shape schema = .scalar ∧ r.shape schema = .vector) ∧
        l.scalarValue schema c = .ok x ∧ r.vectorValue schema c = .ok bs ∧
        xs = bs.map fun y => op.apply x y) := by
  rw [vectorValue] at hx
  cases hl : l.shape schema with
  | scalar =>
    cases hr : r.shape schema with
    | scalar => simp [shape, hl, hr, Shape.join] at hs
    | vector =>
      simp only [hl, hr] at hx
      obtain ⟨x, hlx, hx⟩ := bind_eq_ok hx
      obtain ⟨bs, hrx, hx⟩ := bind_eq_ok hx
      split at hx
      · cases hx
      · exact .inr (.inr ⟨x, bs, ⟨rfl, rfl⟩, hlx, hrx, (Except.ok.inj hx).symm⟩)
  | vector =>
    cases hr : r.shape schema with
    | scalar =>
      simp only [hl, hr] at hx
      obtain ⟨as, hlx, hx⟩ := bind_eq_ok hx
      split at hx
      · cases hx
      · obtain ⟨y, hrx, hx⟩ := bind_eq_ok hx
        exact .inr (.inl ⟨as, y, ⟨rfl, rfl⟩, hlx, hrx, (Except.ok.inj hx).symm⟩)
    | vector =>
      simp only [hl, hr] at hx
      obtain ⟨as, hlx, hx⟩ := bind_eq_ok hx
      obtain ⟨bs, hrx, hx⟩ := bind_eq_ok hx
      exact .inl ⟨as, bs, ⟨rfl, rfl⟩, hlx, hrx, (Except.ok.inj hx).symm⟩

def Column (schema : Schema C) (c : C) (name : String) (ys : List Float) : Prop :=
  ∃ v, schema name = some v ∧ v.eval c = .ok (.vector ys)

theorem column_of_vectorValue {s : String} (hs : (name s).shape schema = .vector)
    (hx : (name s).vectorValue schema c = .ok xs) : Column schema c s xs := by
  cases hv : schema s with
  | none => simp [shape, hv] at hs
  | some v =>
    rw [vectorValue, hv] at hx
    refine ⟨v, hv, ?_⟩
    rcases v with ⟨label, f | f⟩
    · cases hx
    · exact congrArg (Except.map Value.vector) hx

theorem exists_columns (hs : t.shape schema = .vector)
    (hx : t.vectorValue schema c = .ok xs) :
    ∃ columns, List.Forall₂ (Column schema c) (t.exposed schema) columns ∧
      (columns.map List.length).min? = some xs.length := by
  induction t generalizing xs with
  | number s => cases hs
  | name s =>
    rw [exposed, if_pos hs]
    refine ⟨[xs], .cons (column_of_vectorValue hs hx) .nil, ?_⟩
    rw [List.map_singleton, List.min?_singleton]
  | group inner ih =>
    rw [vectorValue] at hx
    exact ih hs hx
  | entry vector index _ _ => cases hs
  | prefixed op operand ih =>
    rw [vectorValue] at hx
    obtain ⟨ys, hys, hx⟩ := bind_eq_ok hx
    obtain ⟨columns, hcolumns, hmin⟩ := ih hs hys
    refine ⟨columns, hcolumns, ?_⟩
    rw [hmin, ← Except.ok.inj hx, List.length_map]
  | binary op l r ihl ihr =>
    rcases vectorValue_binary hs hx with ⟨as, bs, ⟨hl, hr⟩, has, hbs, rfl⟩ |
      ⟨as, y, ⟨hl, hr⟩, has, -, rfl⟩ | ⟨x, bs, ⟨hl, hr⟩, -, hbs, rfl⟩
    · obtain ⟨ls, hls, hminl⟩ := ihl hl has
      obtain ⟨rs, hrs, hminr⟩ := ihr hr hbs
      refine ⟨ls ++ rs, List.rel_append hls hrs, ?_⟩
      rw [List.map_append, List.length_zipWith]
      exact min?_append hminl hminr
    · obtain ⟨ls, hls, hminl⟩ := ihl hl has
      refine ⟨ls, ?_, ?_⟩
      · rw [exposed, exposed_of_scalar hr, List.append_nil]
        exact hls
      · rw [hminl, List.length_map]
    · obtain ⟨rs, hrs, hminr⟩ := ihr hr hbs
      refine ⟨rs, ?_, ?_⟩
      · rw [exposed, exposed_of_scalar hl, List.nil_append]
        exact hrs
      · rw [hminr, List.length_map]

theorem scalarValue_entry {vector index : Term} {x : Float}
    (hv : vector.vectorValue schema c = .ok xs) (hi : index.scalarValue schema c = .ok x)
    (hx : position? x = some k) (hk : k < xs.length) :
    (entry vector index).scalarValue schema c = .ok xs[k] := by
  have hat : entryAt vector.text xs x = .ok xs[k] := by
    rw [entryAt, hx, Option.bind_some, List.getElem?_eq_getElem hk]
  rw [scalarValue, hv, hi]
  exact hat

theorem scalarValue_pick (hs : t.shape schema = .vector) (hx : t.vectorValue schema c = .ok xs)
    (hk : k < xs.length) (hrep : Representable k) :
    (t.pick schema k).scalarValue schema c = .ok xs[k] := by
  induction t generalizing xs with
  | number s => cases hs
  | name s =>
    obtain ⟨x, hread, hposition⟩ := position?_toString hrep
    have hindex : (number (toString k)).scalarValue schema c = .ok x := by
      rw [scalarValue, hread, Option.getD_some]
    rw [pick, if_pos hs]
    exact scalarValue_entry hx hindex hposition hk
  | group inner ih =>
    rw [vectorValue] at hx
    rw [pick, scalarValue]
    exact ih hs hx hk
  | entry vector index _ _ => cases hs
  | prefixed op operand ih =>
    rw [vectorValue] at hx
    obtain ⟨ys, hys, hx⟩ := bind_eq_ok hx
    obtain rfl := Except.ok.inj hx
    have hlt : k < ys.length := List.length_map op.apply ▸ hk
    rw [pick, scalarValue, ih hs hys hlt, List.getElem_map]
    rfl
  | binary op l r ihl ihr =>
    rw [pick, scalarValue]
    -- Both operands have answered, so an operator that stops early has the same answer.
    rcases vectorValue_binary hs hx with ⟨as, bs, ⟨hl, hr⟩, has, hbs, rfl⟩ |
      ⟨as, y, ⟨hl, hr⟩, has, hy, rfl⟩ | ⟨x, bs, ⟨hl, hr⟩, hxl, hbs, rfl⟩
    · have hmin : k < min as.length bs.length := List.length_zipWith ▸ hk
      rw [ihl hl has (by omega), ihr hr hbs (by omega), List.getElem_zipWith]
      exact op.answer_ok _ _
    · have hlt : k < as.length := List.length_map (fun x => op.apply x y) ▸ hk
      rw [ihl hl has hlt, pick_of_scalar k hr, hy, List.getElem_map]
      exact op.answer_ok _ _
    · have hlt : k < bs.length := List.length_map (fun y => op.apply x y) ▸ hk
      rw [pick_of_scalar k hl, hxl, ihr hr hbs hlt, List.getElem_map]
      exact op.answer_ok _ _

end Term

variable {schema : Schema C} {level : Level} {t : Term} {ls : List Lexeme} {k : Nat}

theorem Derives.pick (h : Derives schema level t ls) (k : Nat) :
    ∀ {b : Level}, level.rank ≤ b.rank → 1 ≤ b.rank →
      Derives schema b (t.pick schema k) (t.pick schema k).lexemes := by
  induction h with
  | number s =>
    intro b hb _
    exact (Derives.number s).mono hb
  | @name s e he =>
    intro b hb hone
    have hname : Derives schema .primary (.name s) _ := .name he
    by_cases hv : (Term.name s).shape schema = .vector
    · rw [Term.pick, if_pos hv]
      exact (Derives.entry hname (Derives.number (toString k)).disjunction hv rfl).mono hone
    · rw [Term.pick, if_neg hv]
      exact hname.mono hb
  | group _ ih =>
    intro b hb _
    exact (Derives.group (ih (Nat.le_refl _) (by decide))).mono hb
  | entry hdv hdi hv hi _ _ =>
    intro b hb _
    rw [Term.pick, Term.lexemes, ← hdv.lexemes_eq, ← hdi.lexemes_eq]
    exact (Derives.entry hdv hdi hv hi).mono hb
  | prefixed op _ ih =>
    intro b hb _
    exact (Derives.prefixed op (ih (Nat.le_refl _) (by decide))).mono hb
  | @binary level l r _ _ op hop _ _ ihl ihr =>
    intro b hb _
    have htwo := hop ▸ op.two_lt_rank
    have hlow := level.rank_tighter
    exact (Derives.binary op hop (ihl (Nat.le_refl _) (by omega))
      (ihr (Nat.le_refl _) (by omega))).mono hb
  | loosen level _ ih =>
    intro b hb hone
    have hlow := level.rank_tighter
    exact ih (by omega) hone

namespace Lexeme

def subscript (k : Nat) : List Lexeme :=
  [opening .square, ⟨.number, toString k⟩, closing .square]

theorem respelled_subscript (l : Lexeme) (k : Nat) : Respelled [l] (l :: subscript k) := by
  have hpiece : Respells l (l :: subscript k) :=
    .inr ⟨subscript k, bracketed_wrap .square (lexed_toString k), .inr rfl⟩
  exact ⟨[l :: subscript k], .cons hpiece .nil, List.flatten_singleton⟩

theorem not_blank_subscript {l : Lexeme} {c : Char} {k : Nat} (hl : l ∈ subscript k)
    (hc : c ∈ l.text.toList) : Text.isBlank c = false := by
  simp only [subscript, List.mem_cons, List.not_mem_nil, or_false] at hl
  rcases hl with rfl | rfl | rfl
  · exact not_blank_opening hc
  · rw [Nat.toString_eq_repr, Nat.toList_repr] at hc
    exact forall_digit (P := fun c => Text.isBlank c = false) (by decide) (run_toDigits k c hc)
  · exact not_blank_closing hc

end Lexeme

namespace Term

open Lexeme (Respelled)

theorem respelled_pick (schema : Schema C) (k : Nat) (t : Term) :
    Respelled t.lexemes (t.pick schema k).lexemes := by
  induction t with
  | number s => exact .refl _
  | name s =>
    rw [pick]
    split
    · exact Lexeme.respelled_subscript _ k
    · exact .refl _
  | group inner ih => exact (ih.append (.refl _)).cons _
  | entry vector index _ _ => exact .refl _
  | prefixed op operand ih => exact ih.cons _
  | binary op l r ihl ihr => exact ihl.append (ihr.cons _)

theorem mem_lexemes_pick {l : Lexeme} (h : l ∈ (t.pick schema k).lexemes) :
    l ∈ t.lexemes ∨ l ∈ Lexeme.subscript k := by
  induction t with
  | number s => exact .inl h
  | name s =>
    rw [pick] at h
    split at h
    · have hsplit : l ∈ [⟨.identifier, s⟩] ++ Lexeme.subscript k := h
      exact List.mem_append.1 hsplit
    · exact .inl h
  | group inner ih =>
    simp only [pick, lexemes, List.mem_cons, List.mem_append] at h ⊢
    grind
  | entry vector index _ _ => exact .inl h
  | prefixed op operand ih =>
    simp only [pick, lexemes, List.mem_cons] at h ⊢
    grind
  | binary op l r ihl ihr =>
    simp only [pick, lexemes, List.mem_cons, List.mem_append] at h ⊢
    grind

theorem vectorValue_of_value (h : t.value schema c = .ok (.vector xs)) :
    t.shape schema = .vector ∧ t.vectorValue schema c = .ok xs := by
  rw [value] at h
  cases hs : t.shape schema with
  | scalar =>
    rw [hs] at h
    cases hx : t.scalarValue schema c <;> rw [hx] at h <;> cases h
  | vector =>
    rw [hs] at h
    cases hx : t.vectorValue schema c with
    | error failure =>
      rw [hx] at h
      cases h
    | ok ys =>
      rw [hx] at h
      cases h
      exact ⟨rfl, rfl⟩

theorem ofSource_text_pick {source : String} (h : t.lexemes = Lexeme.ofSource source) :
    Lexeme.ofSource (t.pick schema k).text = (t.pick schema k).lexemes := by
  have hlexed : Lexeme.Lexed (t.pick schema k).lexemes :=
    (respelled_pick schema k t).lexed (h ▸ Lexeme.lexed_ofSource source)
  rw [← join_lexemes]
  refine hlexed.ofSource_join ?_
  intro ch hch
  obtain ⟨l, hl, hch⟩ := List.mem_flatMap.1 hch
  rcases mem_lexemes_pick hl with hl | hl
  · exact Lexeme.not_blank_of_mem_ofSource (List.mem_flatMap.2 ⟨l, h ▸ hl, hch⟩)
  · exact Lexeme.not_blank_subscript hl hch

end Term

theorem readable_pick (hr : Readable t.lexemes) (hk : Representable k) :
    Readable (t.pick schema k).lexemes := by
  intro l hl hnumber
  rcases Term.mem_lexemes_pick hl with hl | hl
  · exact hr l hl hnumber
  · simp only [Lexeme.subscript, List.mem_cons, List.not_mem_nil, or_false] at hl
    rcases hl with rfl | rfl | rfl
    · cases hnumber
    · obtain ⟨x, hx, _⟩ := position?_toString hk
      rw [hx]
      rfl
    · cases hnumber

/-- A compiled vector takes its length from the vectors outside of subscripts, and each of
its entries is what the text with these vectors subscripted compiles to. -/
theorem parse_lifts_pointwise {source : String} {e : Expr C} (h : parse schema source = .ok e)
    {c : C} {xs : List Float} (hx : e.eval c = .ok (.vector xs)) :
    (∃ t, Derives schema .disjunction t (Lexeme.ofSource source)) ∧
      ∀ t, Derives schema .disjunction t (Lexeme.ofSource source) →
        t.text = Text.stripBlanks source ∧
        (∃ columns, List.Forall₂ (Term.Column schema c) (t.exposed schema) columns ∧
          (columns.map List.length).min? = some xs.length) ∧
        ∀ k (hk : k < xs.length), Representable k →
          ∃ a, parse schema (t.pick schema k).text = .ok a ∧ a.shape = .scalar ∧
            a.eval c = .ok (.scalar xs[k]) := by
  obtain ⟨t, ht, _⟩ := derives_of_parse h
  refine ⟨⟨t, ht⟩, ?_⟩
  intro t ht
  obtain ⟨hr, rfl⟩ := (parse_eq_ok_iff ht e).1 h
  rw [Expr.eval, Expr.rename, ht.payload_expr, Term.eval_payload] at hx
  obtain ⟨hs, hxs⟩ := Term.vectorValue_of_value hx
  refine ⟨ht.text_eq, Term.exists_columns hs hxs, ?_⟩
  intro k hk hrep
  have hpick : Derives schema .disjunction (t.pick schema k)
      (Lexeme.ofSource (t.pick schema k).text) := by
    rw [Term.ofSource_text_pick ht.lexemes_eq.symm]
    exact ht.pick k (Nat.le_refl _) (by decide)
  have hreadable : Readable (Lexeme.ofSource (t.pick schema k).text) := by
    rw [Term.ofSource_text_pick ht.lexemes_eq.symm]
    exact readable_pick (ht.lexemes_eq ▸ hr) hrep
  have hshape := Term.shape_pick schema k t
  refine ⟨_, parse_of_derives hpick hreadable, hpick.shape_expr.trans hshape, ?_⟩
  rw [Expr.eval, Expr.rename, hpick.payload_expr, Term.eval_payload,
    Term.value, hshape, Term.scalarValue_pick hs hxs hk hrep]
  rfl

theorem parse_lifts_pointwise_own_entry :
    ∃ e : Expr (List Float), parse VariableTable.ofColumn.schema "v*v[0]" = .ok e ∧
      e.eval [3, 5] = .ok (.vector [BinaryOp.mul.apply 3 3, BinaryOp.mul.apply 5 3]) ∧
      ∃ t a, Derives VariableTable.ofColumn.schema .disjunction t (Lexeme.ofSource "v*v[0]") ∧
        parse VariableTable.ofColumn.schema (t.pick VariableTable.ofColumn.schema 1).text = .ok a ∧
        a.eval [3, 5] = .ok (.scalar (BinaryOp.mul.apply 5 3)) := by
  have hentry := Derives.entry (derives_column .primary) (Derives.number "0").disjunction rfl rfl
  have hd : Derives VariableTable.ofColumn.schema .disjunction
      (.binary .mul (.name "v") (.entry (.name "v") (.number "0"))) (Lexeme.ofSource "v*v[0]") := by
    have hlexemes : Lexeme.ofSource "v*v[0]" = [⟨.identifier, "v"⟩, BinaryOp.mul.lexeme,
        ⟨.identifier, "v"⟩, .opening .square, ⟨.number, "0"⟩, .closing .square] := by
      decide +kernel
    rw [hlexemes]
    exact (Derives.binary .mul rfl (derives_column .product) (.loosen .signed hentry)).disjunction
  have hr : Readable (Lexeme.ofSource "v*v[0]") := by
    decide +kernel
  have hindex : position? ((readNumber "0").getD Exact.undefined) = some 0 := by
    decide +kernel
  have hcolumn : (Term.name "v").vectorValue VariableTable.ofColumn.schema [3, 5] = .ok [3, 5] :=
    rfl
  have hfirst : (Term.entry (.name "v") (.number "0")).scalarValue VariableTable.ofColumn.schema
      [3, 5] = .ok 3 := by
    have hzero : (Term.number "0").scalarValue VariableTable.ofColumn.schema [3, 5] = _ :=
      Term.scalarValue.eq_1 _ _ _
    exact Term.scalarValue_entry hcolumn hzero hindex (by decide)
  have hshape : (Term.binary .mul (.name "v") (.entry (.name "v") (.number "0"))).shape
      VariableTable.ofColumn.schema = .vector := rfl
  have hl : (Term.name "v").shape VariableTable.ofColumn.schema = .vector := rfl
  have hs : (Term.entry (.name "v") (.number "0")).shape VariableTable.ofColumn.schema =
      .scalar := rfl
  have hparse := parse_of_derives hd hr
  have hx : ((Term.expr VariableTable.ofColumn.schema
      (.binary .mul (.name "v") (.entry (.name "v") (.number "0")))).rename
        (Text.stripBlanks "v*v[0]")).eval [3, 5] =
      .ok (.vector [BinaryOp.mul.apply 3 3, BinaryOp.mul.apply 5 3]) := by
    rw [Expr.eval, Expr.rename, hd.payload_expr, Term.eval_payload, Term.value, hshape]
    simp only [Term.vectorValue, hl, hs, hfirst]
    rfl
  obtain ⟨_, hlifts⟩ := parse_lifts_pointwise hparse hx
  obtain ⟨_, _, hentries⟩ := hlifts _ hd
  obtain ⟨a, ha, _, hvalue⟩ := hentries 1 (by decide) (representable_of_lt (by decide))
  exact ⟨_, hparse, hx, _, a, hd, ha, hvalue⟩

end EventCuts
