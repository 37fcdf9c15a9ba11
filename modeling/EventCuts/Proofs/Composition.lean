import EventCuts.Proofs.Names
import EventCuts.Proofs.Pieces

/-!
# The composition behind a name

The name of a composed expression tells how it was composed. It is cut into lexemes, the last one
or the first two tell the outermost step, and where its operands end is told by counting brackets:
a subscript adds none around its vector, but the bracket behind closes only one.
-/

namespace EventCuts

variable {C : Type}

inductive Composition where
  | name (text : String)
  | constant (x : Float)
  | unary (op : PrefixOp) (operand : Composition)
  | binary (op : BinaryOp) (left right : Composition)
  | entry (vector index : Composition)

/-- Composed in this way from some leaves, each named by an identifier, and from finite constants.
Any vector can be subscripted. -/
inductive ComposedAs (leaves : Expr C → Prop) : Composition → Expr C → Prop
  | name {v : Expr C} : leaves v → Lexeme.IsName v.name →
      ComposedAs leaves (.name v.name) v
  | constant {x : Float} : x.isFinite = true → ComposedAs leaves (.constant x) (.constant x)
  | unary {t : Composition} {e : Expr C} (op : PrefixOp) : ComposedAs leaves t e →
      ComposedAs leaves (.unary op t) (e.unary op)
  | binary {t u : Composition} {l r : Expr C} (op : BinaryOp) : ComposedAs leaves t l →
      ComposedAs leaves u r → ComposedAs leaves (.binary op t u) (.binary op l r)
  | entry {t u : Composition} {v i e : Expr C} : ComposedAs leaves t v →
      ComposedAs leaves u i → v.subscript i = some e → ComposedAs leaves (.entry t u) e

theorem render_plain_injective {x y : Float} (hx : x.isFinite = true) (hy : y.isFinite = true)
    (h : FloatFormat.plain.render x = FloatFormat.plain.render y) : x = y := by
  -- A literal starts with a digit, so the floats have a minus both or neither.
  have hmixed : ∀ {text other : List Char} {z : Float}, Spells text z →
      String.ofList text ≠ String.ofList ('-' :: other) := by
    intro text other z hspells heq
    rcases hspells.digit with ⟨c, ds, rfl, hc⟩
    rcases List.cons.inj (String.ofList_injective heq) with ⟨rfl, _⟩
    exact absurd hc (by decide)
  rcases render_plain hx with ⟨text, htext, hname⟩ | ⟨text, htext, hname⟩
  · rcases render_plain hy with ⟨other, hother, hname'⟩ | ⟨other, _, hname'⟩
    · rw [hname, hname'] at h
      obtain rfl := String.ofList_injective h
      exact Option.some.inj (htext.value.symm.trans hother.value)
    · exact absurd (hname.symm.trans (h.trans hname')) (hmixed htext)
  · rcases render_plain hy with ⟨other, hother, hname'⟩ | ⟨other, hother, hname'⟩
    · exact absurd (hname'.symm.trans (h.symm.trans hname)) (hmixed hother)
    · rw [hname, hname'] at h
      obtain rfl := (List.cons.inj (String.ofList_injective h)).2
      have hopposite : -x = -y := Option.some.inj (htext.value.symm.trans hother.value)
      rw [← Exact.neg_neg_of_isFinite hx, hopposite, Exact.neg_neg_of_isFinite hy]

theorem PrefixOp.lexeme_injective {op other : PrefixOp} (h : op.lexeme = other.lexeme) :
    op = other := by
  cases op <;> cases other <;> first | rfl | cases h

theorem BinaryOp.lexeme_injective {op other : BinaryOp} (h : op.lexeme = other.lexeme) :
    op = other := by
  have hsymbol : op.symbol = other.symbol := by
    rw [← op.text_lexeme, h, other.text_lexeme]
  revert hsymbol
  cases op <;> cases other <;> decide

namespace Composition

def lexemes : Composition → List Lexeme
  | name text => [⟨.identifier, text⟩]
  | constant x => Lexeme.cut (FloatFormat.plain.render x).toList
  | unary op operand => op.lexeme :: .opening .round :: (operand.lexemes ++ [.closing .round])
  | binary op left right =>
    .opening .round :: (left.lexemes ++ .closing .round :: op.lexeme :: .opening .round ::
      (right.lexemes ++ [.closing .round]))
  | entry vector index =>
    vector.lexemes ++ .opening .square :: (index.lexemes ++ [.closing .square])

theorem chars_constant (x : Float) :
    Lexeme.chars (constant x).lexemes = (FloatFormat.plain.render x).toList :=
  Lexeme.flatMap_text_cut _

end Composition

namespace ComposedAs

variable {leaves : Expr C → Prop} {t u : Composition} {d e : Expr C}

theorem chars_lexemes (h : ComposedAs leaves t e) : Lexeme.chars t.lexemes = e.name.toList := by
  induction h with
  | name _ _ => simp [Composition.lexemes]
  | constant _ => exact Composition.chars_constant _
  | unary op _ ih =>
    simp [Composition.lexemes, Expr.unary, ih, op.text_lexeme, Lexeme.opening, Lexeme.closing]
  | binary op _ _ ihl ihr =>
    simp [Composition.lexemes, Expr.binary, ihl, ihr, op.text_lexeme, Lexeme.opening,
      Lexeme.closing]
  | @entry t u v i e _ _ he ihv ihi =>
    have hname : e.name = v.name ++ "[" ++ i.name ++ "]" := by
      rcases v with ⟨n, f | f⟩
      · cases he
      · rcases i with ⟨m, g | g⟩
        · cases he
          rfl
        · cases he
    simp [Composition.lexemes, hname, ihv, ihi, Lexeme.opening, Lexeme.closing]

theorem lexed_lexemes (h : ComposedAs leaves t e) : Lexeme.Lexed t.lexemes := by
  induction h with
  | name _ hname => exact Lexeme.lexed_name hname
  | constant _ => exact Lexeme.lexed_cut _
  | unary op _ ih =>
    exact (Lexeme.lexed_prefixOp op).append_bracketed (Lexeme.bracketed_wrap .round ih)
  | binary op _ _ ihl ihr =>
    have hright := (Lexeme.lexed_binaryOp op).append_bracketed (Lexeme.bracketed_wrap .round ihr)
    have h := (Lexeme.bracketed_wrap .round ihl).append_lexed hright
    simpa [Composition.lexemes] using h
  | entry _ _ _ ihv ihi => exact ihv.append_bracketed (Lexeme.bracketed_wrap .square ihi)

theorem cut_name (h : ComposedAs leaves t e) : Lexeme.cut e.name.toList = t.lexemes := by
  rw [← h.chars_lexemes]
  exact h.lexed_lexemes

end ComposedAs

/-! Where operands end. -/

namespace Lexeme

def tokens (ls : List Lexeme) : List (Token Unit) := ls.map Token.ofLexeme

theorem tokens_injective {ls ms : List Lexeme} (h : tokens ls = tokens ms) : ls = ms := by
  refine List.map_injective_iff.2 ?_ h
  intro l m hlm
  rcases l with ⟨kind, text⟩
  rcases m with ⟨kind', text'⟩
  cases hlm
  rfl

variable {ls ms vs ws as bs : List Lexeme}

theorem group_unique (hl : Balanced (tokens ls)) (hm : Balanced (tokens ms))
    (h : ls ++ closing .round :: as = ms ++ closing .round :: bs) : ls = ms ∧ as = bs := by
  have htokens : tokens ls ++ Token.ofLexeme (closing .round) :: tokens as =
      tokens ms ++ Token.ofLexeme (closing .round) :: tokens bs := by
    have hmap := congrArg tokens h
    simpa [tokens] using hmap
  rcases (hl.encloses .round).unique (hm.encloses .round) htokens with ⟨hls, _, has⟩
  exact ⟨tokens_injective hls, tokens_injective has⟩

theorem eq_nil_of_longer {more : List Lexeme} (hv : Balanced (tokens vs))
    (hw : Balanced (tokens (vs ++ more))) (hl : Balanced (tokens ls))
    (h : opening .square :: (ls ++ [closing .square]) =
      more ++ opening .square :: (ms ++ [closing .square])) : more = [] := by
  -- A vector does not end earlier than another one: the last bracket of the longer one would close
  -- too early in the index of the shorter one.
  cases more with
  | nil => rfl
  | cons d more =>
    obtain ⟨rfl, htail⟩ : opening .square = d ∧ ls ++ [closing .square] =
      more ++ opening .square :: (ms ++ [closing .square]) := List.cons.inj h
    have hls : ls = more ++ opening .square :: ms := by
      rw [← List.cons_append, ← List.append_assoc] at htail
      exact List.append_cancel_right htail
    rcases hv.encloses .square with ⟨_, hb, _, hshorter, _⟩
    cases hb
    rcases hw.encloses .square with ⟨_, hb, _, hlonger, _⟩
    cases hb
    rcases hl.encloses .square with ⟨_, hb, _, _, hfront⟩
    cases hb
    have hindex := hfront (tokens more) ⟨tokens (opening .square :: ms), by simp [tokens, hls]⟩
    have hopened : opened .square (tokens (vs ++ opening .square :: more)) =
        opened .square (tokens vs) + (opened .square (tokens more) + 1) := by
      simp [tokens, opened, Token.ofLexeme]
    have hclosed : closed .square (tokens (vs ++ opening .square :: more)) =
        closed .square (tokens vs) + closed .square (tokens more) := by
      simp [tokens, closed, Token.ofLexeme]
    omega

theorem entry_unique (hv : Balanced (tokens vs)) (hw : Balanced (tokens ws))
    (hl : Balanced (tokens ls)) (hm : Balanced (tokens ms))
    (h : vs ++ opening .square :: (ls ++ [closing .square]) =
      ws ++ opening .square :: (ms ++ [closing .square])) : vs = ws ∧ ls = ms := by
  have hvs : vs = ws := by
    rcases List.append_eq_append_iff.1 h with ⟨more, rfl, hmore⟩ | ⟨more, rfl, hmore⟩
    · rw [eq_nil_of_longer hv hw hl hmore, List.append_nil]
    · rw [eq_nil_of_longer hw hv hm hmore, List.append_nil]
  subst hvs
  exact ⟨rfl, List.append_cancel_right (List.cons.inj (List.append_cancel_left h)).2⟩

end Lexeme

inductive Composition.Step where
  | name | constant | unary | binary | entry
deriving DecidableEq

def Composition.step : Composition → Composition.Step
  | name _ => .name
  | constant _ => .constant
  | unary _ _ => .unary
  | binary _ _ _ => .binary
  | entry _ _ => .entry

namespace Lexeme

def firstStep (ls : List Lexeme) : Composition.Step :=
  match ls.map kind with
  | .identifier :: _ => .name
  | .opening _ :: _ => .binary
  | _ :: .opening _ :: _ => .unary
  | _ => .constant

def step (ls : List Lexeme) : Composition.Step :=
  if ls.getLast? = some (closing .square) then .entry else firstStep ls

theorem step_square (ls : List Lexeme) : step (ls ++ [closing .square]) = .entry := by
  rw [step, List.getLast?_concat, if_pos rfl]

theorem step_round (ls : List Lexeme) :
    step (ls ++ [closing .round]) = firstStep (ls ++ [closing .round]) := by
  rw [step, List.getLast?_concat, if_neg (by decide)]

end Lexeme

theorem cut_render_plain {x : Float} (h : x.isFinite = true) :
    ∃ text, Lexeme.cut (FloatFormat.plain.render x).toList = [⟨.number, text⟩] ∨
      Lexeme.cut (FloatFormat.plain.render x).toList =
        [PrefixOp.minus.lexeme, ⟨.number, text⟩] := by
  rcases render_plain h with ⟨text, hspells, hname⟩ | ⟨text, hspells, hname⟩
  · have hlexed := Lexeme.lexed_spelled hspells
    refine ⟨String.ofList text, .inl ?_⟩
    rw [hname]
    simpa [Lexeme.Lexed] using hlexed
  · have hnames : Names (fun _ => (none : Option (Expr Unit))) _ _ :=
      Names.opposite hspells rfl _ rfl
    have hlexed := hnames.lexed
    refine ⟨String.ofList text, .inr ?_⟩
    rw [hname]
    simpa [Lexeme.Lexed, Term.lexemes, PrefixOp.lexeme] using hlexed

namespace ComposedAs

variable {leaves : Expr C → Prop} {t u : Composition} {d e : Expr C}

theorem balanced (h : ComposedAs leaves t e) : Balanced (Lexeme.tokens t.lexemes) := by
  induction h with
  | name _ _ => exact .single nofun nofun
  | constant hx =>
    rcases cut_render_plain hx with ⟨text, hcut | hcut⟩
    · rw [Composition.lexemes, hcut]
      exact .single nofun nofun
    · rw [Composition.lexemes, hcut]
      exact (PrefixOp.minus.balanced).append (.single nofun nofun)
  | unary op _ ih =>
    have h := op.balanced.append (ih.wrap .round)
    simpa [Lexeme.tokens, Composition.lexemes] using h
  | binary op _ _ ihl ihr =>
    have h := (ihl.wrap .round).append (op.balanced.append (ihr.wrap .round))
    simpa [Lexeme.tokens, Composition.lexemes] using h
  | entry _ _ _ ihv ihi =>
    have h := ihv.append (ihi.wrap .square)
    simpa [Lexeme.tokens, Composition.lexemes] using h

theorem step_lexemes (h : ComposedAs leaves t e) : Lexeme.step t.lexemes = t.step := by
  cases h with
  | name _ _ => rfl
  | constant hx =>
    rcases cut_render_plain hx with ⟨text, hcut | hcut⟩
    · rw [Composition.lexemes, hcut]
      rfl
    · rw [Composition.lexemes, hcut]
      rfl
  | @unary t e op _ =>
    refine (Lexeme.step_round (op.lexeme :: .opening .round :: t.lexemes)).trans ?_
    cases op <;> rfl
  | @binary t u l r op _ _ =>
    have hlexemes : (Composition.binary op t u).lexemes =
        (.opening .round :: (t.lexemes ++ .closing .round :: op.lexeme :: .opening .round ::
          u.lexemes)) ++ [.closing .round] := by
      simp [Composition.lexemes]
    rw [hlexemes, Lexeme.step_round]
    rfl
  | @entry t u v i e _ _ _ =>
    have hlexemes : (Composition.entry t u).lexemes =
        (t.lexemes ++ .opening .square :: u.lexemes) ++ [.closing .square] := by
      simp [Composition.lexemes]
    rw [hlexemes, Lexeme.step_square]
    rfl

theorem step_eq (ht : ComposedAs leaves t d) (hu : ComposedAs leaves u e)
    (h : t.lexemes = u.lexemes) : t.step = u.step := by
  rw [← ht.step_lexemes, h, hu.step_lexemes]

theorem eq_of_lexemes (ht : ComposedAs leaves t d) (hu : ComposedAs leaves u e)
    (h : t.lexemes = u.lexemes) : t = u := by
  induction ht generalizing u e with
  | name hv hname =>
    have hstep := (ComposedAs.name hv hname).step_eq hu h
    cases hu with
    | name _ _ =>
      obtain ⟨_, htext⟩ := Lexeme.mk.inj (List.cons.inj h).1
      rw [htext]
    | _ => cases hstep
  | constant hx =>
    have hstep := (ComposedAs.constant hx).step_eq hu h
    cases hu with
    | @constant y hy =>
      have hrender := congrArg Lexeme.chars h
      rw [Composition.chars_constant, Composition.chars_constant, String.toList_inj] at hrender
      rw [render_plain_injective hx hy hrender]
    | _ => cases hstep
  | @unary t d op ht ih =>
    have hstep := (ComposedAs.unary op ht).step_eq hu h
    cases hu with
    | @unary u e op' hu =>
      obtain ⟨hop, hrest⟩ := List.cons.inj h
      have hoperand := ih hu (List.append_cancel_right (List.cons.inj hrest).2)
      rw [PrefixOp.lexeme_injective hop, hoperand]
    | _ => cases hstep
  | @binary t₁ t₂ l r op htl htr ihl ihr =>
    have hstep := (ComposedAs.binary op htl htr).step_eq hu h
    cases hu with
    | @binary u₁ u₂ l' r' op' hul hur =>
      rcases Lexeme.group_unique htl.balanced hul.balanced (List.cons.inj h).2 with ⟨hleft, hrest⟩
      obtain ⟨hop, hright⟩ := List.cons.inj hrest
      have hright := ihr hur (List.append_cancel_right (List.cons.inj hright).2)
      rw [ihl hul hleft, BinaryOp.lexeme_injective hop, hright]
    | _ => cases hstep
  | @entry t₁ t₂ v i d htv hti hd ihv ihi =>
    have hstep := (ComposedAs.entry htv hti hd).step_eq hu h
    cases hu with
    | @entry u₁ u₂ v' i' _ huv hui _ =>
      rcases Lexeme.entry_unique htv.balanced huv.balanced hti.balanced hui.balanced h with
        ⟨hvector, hindex⟩
      rw [ihv huv hvector, ihi hui hindex]
    | _ => cases hstep

theorem unique (hleaves : ∀ v w, leaves v → leaves w → v.name = w.name → v = w)
    (hd : ComposedAs leaves t d) (he : ComposedAs leaves t e) : d = e := by
  induction hd generalizing e with
  | @name v hv _ =>
    generalize ht : Composition.name v.name = t at he
    cases he with
    | @name w hw _ => exact hleaves v e hv hw (Composition.name.inj ht)
    | _ => cases ht
  | constant _ =>
    cases he
    rfl
  | unary op _ ih =>
    cases he with
    | unary _ he => rw [ih he]
  | binary op _ _ ihl ihr =>
    cases he with
    | binary _ hel her => rw [ihl hel, ihr her]
  | entry _ _ hd ihv ihi =>
    cases he with
    | entry hev hei he =>
      rw [ihv hev, ihi hei] at hd
      exact Option.some.inj (hd.symm.trans he)

end ComposedAs

/-- Composed expressions of one name are composed in the same way from leaves of the same names.
So they are one expression, if the leaves' names tell the leaves apart. -/
theorem composition_of_name {leaves : Expr C → Prop} {t u : Composition} {d e : Expr C}
    (ht : ComposedAs leaves t d) (hu : ComposedAs leaves u e) (h : d.name = e.name) :
    t = u ∧ ((∀ v w, leaves v → leaves w → v.name = w.name → v = w) → d = e) := by
  have hlexemes : t.lexemes = u.lexemes := by
    rw [← ht.cut_name, h, hu.cut_name]
  obtain rfl := ht.eq_of_lexemes hu hlexemes
  exact ⟨rfl, fun hleaves => ht.unique hleaves hu⟩

theorem composition_of_name_first_entry :
    ∃ d e : Expr (List Float),
      ((Expr.vector "v" .ok).unary .minus).subscript (.constant 0) = some d ∧
      ((Expr.vector "v" fun _ => .ok []).unary .minus).subscript (.constant 0) = some e ∧
      d.name = "-(v)[0]" ∧ d.name = e.name ∧
      ∃ t u, ComposedAs (fun _ => True) t d ∧ ComposedAs (fun _ => True) u e ∧ t = u := by
  obtain ⟨d, hd⟩ : ∃ d : Expr (List Float),
      ((Expr.vector "v" .ok).unary .minus).subscript (.constant 0) = some d := ⟨_, rfl⟩
  obtain ⟨e, he⟩ : ∃ e : Expr (List Float),
      ((Expr.vector "v" fun _ => .ok []).unary .minus).subscript (.constant 0) = some e := ⟨_, rfl⟩
  have hcomposed : ∀ v : Expr (List Float), v.name = "v" → ∀ f : Expr (List Float),
      (v.unary .minus).subscript (.constant 0) = some f →
      ComposedAs (fun _ => True) (.entry (.unary .minus (.name v.name)) (.constant 0)) f := by
    intro v hv f hf
    have hname : Lexeme.IsName v.name := ⟨'v', [], by rw [hv]; rfl, rfl, nofun⟩
    exact .entry (.unary .minus (.name trivial hname)) (.constant (by decide +kernel)) hf
  have hdc := hcomposed _ rfl d hd
  have hec := hcomposed _ rfl e he
  have hname : d.name = "-(v)[0]" := by
    cases hd
    decide +kernel
  have hsame : d.name = e.name := by
    cases hd
    cases he
    rfl
  exact ⟨d, e, hd, he, hname, hsame, _, _, hdc, hec, (composition_of_name hdc hec hsame).1⟩

end EventCuts
