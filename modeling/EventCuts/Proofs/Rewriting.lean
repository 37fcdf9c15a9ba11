import EventCuts.Proofs.Coherence
import EventCuts.Proofs.Condensation
import Mathlib.Data.List.Infix
import Mathlib.Logic.Relation

/-!
# Reductions as rewriting

A reduction replaces occurrences of a pattern, each by one token, and it does so in one sweep. On
coherent tokens it leaves what replacing the leftmost occurrence again and again leaves in the end:
on the stack there is none at any time. And the operators of one level leave what they condense
between the same neighbours, so that no pass brings back what an earlier one has done away with.
-/

namespace EventCuts

variable {C : Type}

namespace Reduction

/-- What a reduction looks for. -/
inductive Pattern : Reduction → List (Token C) → Prop
  | parentheses {opener inner close : Token C} : opener.kind = .opening .round →
      inner.isResolved = true → close.kind = .closing .round →
      Pattern .parentheses [opener, inner, close]
  | subscripts {vector opener index close : Token C} : vector.kind = .resolved .vector →
      opener.kind = .opening .square → index.kind = .resolved .scalar →
      close.kind = .closing .square → Pattern .subscripts [vector, opener, index, close]
  | prefixes {sign operand : Token C} : sign.kind.isPrefix = true → operand.isResolved = true →
      Pattern .prefixes [sign, operand]
  | operators {ops : List BinaryOp} {op : BinaryOp} {left operator right : Token C} :
      left.isResolved = true → operator.kind = .binary op → op ∈ ops → right.isResolved = true →
      Pattern (.operators ops) [left, operator, right]

/-- The one token for an occurrence of the pattern. -/
def contraction : Reduction → List (Token C) → Option (Token C)
  | .parentheses, [_, inner, _] => some (inner.rename ("(" ++ inner.text ++ ")"))
  | .subscripts, [vector, opener, index, close] => do
    let entries ← vector.value
    let position ← index.value
    let entry ← entries.subscript position
    pure (Token.resolved (entry.rename (Token.sourceText [vector, opener, index, close])))
  | .prefixes, [sign, operand] =>
    match sign.kind with
    | .prefixOp op => operand.value.map fun e => Token.resolved (e.unary op)
    | _ => none
  | .operators _, [left, operator, right] =>
    match operator.kind with
    | .binary op => do
      let l ← left.value
      let r ← right.value
      pure (Token.resolved (Expr.binary op l r))
    | _ => none
  | _, _ => none

/-- Replaces the leftmost occurrence of the pattern. -/
inductive Rewrites (r : Reduction) : List (Token C) → List (Token C) → Prop
  | leftmost {front redex back : List (Token C)} {u : Token C} : Pattern r redex →
      contraction r redex = some u →
      (∀ before other behind, front ++ redex ++ back = before ++ other ++ behind →
        Pattern r other → front.length ≤ before.length) →
      Rewrites r (front ++ redex ++ back) (front ++ u :: back)

def Reduced (r : Reduction) (tokens : List (Token C)) : Prop :=
  ∀ redex, redex <:+: tokens → ¬ Pattern r redex

/-- Replacing the leftmost occurrence for as long as there is one ends so. -/
def Exhausts (r : Reduction) (tokens out : List (Token C)) : Prop :=
  Relation.ReflTransGen (Rewrites r) tokens out ∧ Reduced r out

variable {r : Reduction} {stack tokens rest : List (Token C)} {t u : Token C}

theorem Pattern.length_eq {redex other : List (Token C)} (h : Pattern r redex)
    (ho : Pattern r other) : redex.length = other.length := by
  cases h <;> cases ho <;> rfl

theorem Rewrites.unique {out other : List (Token C)} (h : Rewrites r tokens out)
    (ho : Rewrites r tokens other) : out = other := by
  obtain @⟨front, redex, back, u, hp, hu, hleft⟩ := h
  generalize htokens : front ++ redex ++ back = tokens at ho
  obtain @⟨front', redex', back', u', hp', hu', hleft'⟩ := ho
  have hfront : front.length = front'.length :=
    Nat.le_antisymm (hleft _ _ _ htokens hp') (hleft' _ _ _ htokens.symm hp)
  rw [List.append_assoc, List.append_assoc] at htokens
  obtain ⟨rfl, hrest⟩ := List.append_inj htokens hfront
  obtain ⟨rfl, rfl⟩ := List.append_inj hrest (hp.length_eq hp')
  obtain rfl : u = u' := Option.some.inj (hu.symm.trans hu')
  rfl

theorem Reduced.not_rewrites {out : List (Token C)} (h : Reduced r tokens) :
    ¬ Rewrites r tokens out := by
  rintro ⟨hp, _, _⟩
  exact h _ ⟨_, _, rfl⟩ hp

theorem Exhausts.unique {out other : List (Token C)} (h : Exhausts r tokens out)
    (ho : Exhausts r tokens other) : out = other := by
  obtain ⟨hsteps, hout⟩ := h
  induction hsteps using Relation.ReflTransGen.head_induction_on with
  | refl =>
    obtain heq | ⟨next, hnext, _⟩ := ho.1.cases_head
    · exact heq
    · exact absurd hnext hout.not_rewrites
  | head hstep _ ih =>
    obtain rfl | ⟨next, hnext, hmore⟩ := ho.1.cases_head
    · exact absurd hstep ho.2.not_rewrites
    · obtain rfl := hstep.unique hnext
      exact ih ⟨hmore, ho.2⟩

theorem Reduced.mono {part : List (Token C)} (h : Reduced r tokens) (hpart : part <:+: tokens) :
    Reduced r part :=
  fun redex hredex => h redex (hredex.trans hpart)

theorem Reduced.pop {top : Token C} (h : Reduced r (top :: stack).reverse) :
    Reduced r stack.reverse :=
  h.mono (List.reverse_infix.2 (List.suffix_cons top stack).isInfix)

theorem reduced_nil (r : Reduction) : Reduced r ([] : List (Token C)) := by
  intro redex hredex hp
  obtain rfl := List.infix_nil.1 hredex
  cases hp

theorem Reduced.push (h : Reduced r stack.reverse)
    (ht : ∀ redex, redex.reverse <+: t :: stack → ¬ Pattern r redex) :
    Reduced r (t :: stack).reverse := by
  intro redex hredex
  rw [List.reverse_cons, List.infix_concat_iff, ← List.reverse_cons] at hredex
  obtain hlast | hredex := hredex
  · exact ht redex (List.reverse_suffix.1 (by rwa [List.reverse_reverse]))
  · exact h redex hredex

theorem rewrites_of_reduced {front init back : List (Token C)} (hp : Pattern r (init ++ [t]))
    (hu : contraction r (init ++ [t]) = some u) (h : Reduced r (front ++ init)) :
    Rewrites r (front ++ init ++ t :: back) (front ++ u :: back) := by
  -- Where no occurrence ends any sooner, the one that ends with a token is the leftmost.
  have hwhole : front ++ init ++ t :: back = front ++ (init ++ [t]) ++ back := by simp
  rw [hwhole]
  refine .leftmost hp hu ?_
  intro before other behind heq hother
  apply Nat.le_of_not_lt
  intro hlt
  have hwidth := hother.length_eq hp
  rw [List.length_append, List.length_singleton] at hwidth
  have hsooner : before ++ other <+: front ++ init := by
    have hother : before ++ other <+: front ++ init ++ t :: back := by
      rw [hwhole, heq]
      exact List.prefix_append _ _
    refine List.prefix_of_prefix_length_le hother (List.prefix_append _ _) ?_
    rw [List.length_append, List.length_append]
    omega
  exact h other ((List.suffix_append before other).isInfix.trans hsooner.isInfix) hother

def Follows (r : Reduction) (stack : List (Token C)) (t : Token C) (next : List (Token C)) : Prop :=
  (∀ rest, Relation.ReflTransGen (Rewrites r) (stack.reverse ++ t :: rest) (next.reverse ++ rest)) ∧
    Reduced r next.reverse

theorem exhausts_sweep {push : List (Token C) → Token C → List (Token C)}
    (hpush : ∀ stack t, (∀ u ∈ t :: stack, u.Coherent) → Reduced r stack.reverse →
      Follows r stack t (push stack t))
    (hkept : ∀ stack t, (∀ u ∈ t :: stack, u.Coherent) → ∀ u ∈ push stack t, u.Coherent)
    (h : ∀ u ∈ tokens, u.Coherent) : Exhausts r tokens (sweep push tokens) := by
  have hstep : ∀ stack t rest, (∀ u ∈ stack ++ t :: rest, u.Coherent) ∧
      Relation.ReflTransGen (Rewrites r) tokens (stack.reverse ++ t :: rest) ∧
        Reduced r stack.reverse →
      (∀ u ∈ push stack t ++ rest, u.Coherent) ∧
        Relation.ReflTransGen (Rewrites r) tokens ((push stack t).reverse ++ rest) ∧
          Reduced r (push stack t).reverse := by
    intro stack t rest ⟨hcoherent, hsteps, hreduced⟩
    obtain ⟨hstack, htrest⟩ := List.forall_mem_append.1 hcoherent
    obtain ⟨ht, hrest⟩ := List.forall_mem_cons.1 htrest
    have hall := List.forall_mem_cons.2 ⟨ht, hstack⟩
    obtain ⟨hmore, hpushed⟩ := hpush stack t hall hreduced
    exact ⟨List.forall_mem_append.2 ⟨hkept stack t hall, hrest⟩, hsteps.trans (hmore rest), hpushed⟩
  have hend := sweep_relation (P := fun stack rest => (∀ u ∈ stack ++ rest, u.Coherent) ∧
    Relation.ReflTransGen (Rewrites r) tokens (stack.reverse ++ rest) ∧ Reduced r stack.reverse)
    hstep ⟨h, .refl, reduced_nil r⟩
  simp only [List.reverse_reverse, List.append_nil] at hend
  exact hend.2

section Push

variable {below : List (Token C)}

theorem Reduced.follows (h : Reduced r (t :: stack).reverse) : Follows r stack t (t :: stack) := by
  refine ⟨fun rest => ?_, h⟩
  rw [List.reverse_cons, List.append_assoc, List.singleton_append]

theorem follows_contraction (init : List (Token C)) (hp : Pattern r (init ++ [t]))
    (hu : contraction r (init ++ [t]) = some u) (h : Reduced r (init.reverse ++ below).reverse)
    (hnext : Reduced r (u :: below).reverse) :
    Follows r (init.reverse ++ below) t (u :: below) := by
  refine ⟨fun rest => .single ?_, hnext⟩
  rw [List.reverse_append, List.reverse_reverse] at h ⊢
  rw [List.reverse_cons, List.append_assoc _ [u], List.singleton_append]
  exact rewrites_of_reduced hp hu h

theorem follows_pushParenthesis (h : Reduced .parentheses stack.reverse) :
    Follows .parentheses stack t (pushParenthesis stack t) := by
  unfold pushParenthesis
  split
  · next inner opener below =>
    split
    · next hkinds =>
      obtain ⟨hc, ho, hi⟩ := hkinds
      refine follows_contraction [opener, inner] (.parentheses ho hi hc) rfl h ?_
      refine h.pop.pop.push fun redex hredex hp => ?_
      cases hp with
      | parentheses _ _ hc =>
        obtain ⟨_, htop⟩ := hredex
        obtain ⟨rfl, _⟩ := List.cons.inj htop
        exact Token.not_closing_of_isResolved hi _ hc
    · next hkinds =>
      refine (h.push fun redex hredex hp => hkinds ?_).follows
      cases hp with
      | parentheses ho hi hc =>
        obtain ⟨_, htop⟩ := hredex
        cases htop
        exact ⟨hc, ho, hi⟩
  · next hshort =>
    refine (h.push fun redex hredex hp => ?_).follows
    cases hp with
    | parentheses _ _ _ =>
      obtain ⟨_, htop⟩ := hredex
      obtain ⟨_, rfl⟩ := List.cons.inj htop
      exact hshort _ _ _ rfl

theorem follows_pushSubscript (hc : ∀ u ∈ t :: stack, u.Coherent)
    (h : Reduced .subscripts stack.reverse) :
    Follows .subscripts stack t (pushSubscript stack t) := by
  unfold pushSubscript
  split
  · next index opener vector below =>
    split
    · next hkinds =>
      obtain ⟨hclose, hv, ho, hi⟩ := hkinds
      obtain ⟨v, i, e, hvalue, hindex, he, hentry⟩ :=
        exists_subscripted (hc vector (by simp)) (hc index (by simp)) hv hi opener t
      simp only [hentry]
      refine follows_contraction [vector, opener, index] (.subscripts hv ho hi hclose)
        (by simp [contraction, hvalue, hindex, he]) h ?_
      refine h.pop.pop.pop.push fun redex hredex hp => ?_
      cases hp with
      | subscripts _ _ _ hclose =>
        obtain ⟨_, htop⟩ := hredex
        obtain ⟨rfl, _⟩ := List.cons.inj htop
        cases hclose
    · next hkinds =>
      refine (h.push fun redex hredex hp => hkinds ?_).follows
      cases hp with
      | subscripts hv ho hi hclose =>
        obtain ⟨_, htop⟩ := hredex
        cases htop
        exact ⟨hclose, hv, ho, hi⟩
  · next hshort =>
    refine (h.push fun redex hredex hp => ?_).follows
    cases hp with
    | subscripts _ _ _ _ =>
      obtain ⟨_, htop⟩ := hredex
      obtain ⟨_, rfl⟩ := List.cons.inj htop
      exact hshort _ _ _ _ rfl

theorem follows_applyPrefixes (h : Reduced .prefixes stack.reverse) (e : Expr C) :
    Follows .prefixes stack (Token.resolved e) (applyPrefixes stack e) := by
  induction stack generalizing e with
  | nil =>
    refine (h.push fun redex hredex hp => ?_).follows
    cases hp with
    | prefixes _ _ => simpa using hredex.length_le
  | cons top below ih =>
    cases hk : top.kind with
    | prefixOp op =>
      simp only [applyPrefixes, hk]
      obtain ⟨hmore, hnext⟩ := ih h.pop (e.unary op)
      refine ⟨fun rest => .head ?_ (hmore rest), hnext⟩
      rw [List.reverse_cons] at h ⊢
      refine rewrites_of_reduced (.prefixes ?_ rfl) ?_ h
      · rw [hk]
        rfl
      · simp [contraction, hk, Token.resolved]
    | _ =>
      simp only [applyPrefixes, hk]
      refine (h.push fun redex hredex hp => ?_).follows
      cases hp with
      | prefixes hprefix _ =>
        obtain ⟨_, htop⟩ := hredex
        cases htop
        rw [hk] at hprefix
        cases hprefix

theorem follows_pushPrefixed (hc : t.Coherent) (h : Reduced .prefixes stack.reverse) :
    Follows .prefixes stack t (pushPrefixed stack t) := by
  cases hv : t.value with
  | none =>
    rw [pushPrefixed_of_none hv]
    refine (h.push fun redex hredex hp => ?_).follows
    cases hp with
    | prefixes _ hr =>
      obtain ⟨_, htop⟩ := hredex
      obtain ⟨rfl, _⟩ := List.cons.inj htop
      obtain ⟨e, rfl⟩ := hc.eq_resolved hr
      cases hv
  | some e =>
    obtain ⟨_, rfl⟩ := hc.eq_resolved (Token.isResolved_of_kind (hc.kind_of_value hv))
    rw [pushPrefixed_resolved]
    exact follows_applyPrefixes h _

theorem follows_pushOperand {ops : List BinaryOp} (hc : ∀ u ∈ t :: stack, u.Coherent)
    (h : Reduced (.operators ops) stack.reverse) :
    Follows (.operators ops) stack t (pushOperand ops stack t) := by
  have hresolved : ∀ u ∈ t :: stack, ∀ e, u.value = some e → u.isResolved = true :=
    fun u hu e hv => Token.isResolved_of_kind ((hc u hu).kind_of_value hv)
  obtain ⟨operator, left, below, op, l, right, rfl, hop, hmem, hleft, hright, hp⟩ |
    ⟨hp, hnone⟩ := pushOperand_cases ops stack t
  · rw [hp]
    have hl := hresolved left (by simp) l hleft
    have hr := hresolved t (by simp) right hright
    refine follows_contraction [left, operator] (.operators hl hop hmem hr)
      (by simp [contraction, hop, hleft, hright]) h ?_
    -- The left operand stood where the value stands now, and no occurrence ended with it.
    refine h.pop.pop.push fun redex hredex hp => ?_
    cases hp with
    | @operators _ _ first second _ hfirst hsecond hin _ =>
      obtain ⟨deeper, htop⟩ := hredex
      obtain ⟨_, rfl⟩ := List.cons.inj htop
      exact h [first, second, left] ⟨deeper.reverse, [operator], by simp⟩
        (.operators hfirst hsecond hin hl)
  · rw [hp]
    refine (h.push fun redex hredex hp => ?_).follows
    cases hp with
    | operators hl ho hmem hr =>
      obtain ⟨_, htop⟩ := hredex
      obtain ⟨rfl, rfl⟩ := List.cons.inj htop
      obtain ⟨l, rfl⟩ := (hc _ (by simp)).eq_resolved hl
      obtain ⟨r, rfl⟩ := (hc _ (by simp)).eq_resolved hr
      cases hnone _ _ _ rfl _ hmem ho l rfl

end Push

theorem exhausts_apply (hr : r ≠ .signs) (h : ∀ t ∈ tokens, t.Coherent) :
    Exhausts r tokens (r.apply tokens) := by
  cases r with
  | parentheses =>
    exact exhausts_sweep (fun _ _ _ => follows_pushParenthesis)
      (fun _ _ => coherent_pushParenthesis) h
  | subscripts =>
    exact exhausts_sweep (fun _ _ => follows_pushSubscript) (fun _ _ => coherent_pushSubscript) h
  | signs => exact absurd rfl hr
  | prefixes =>
    exact exhausts_sweep (fun _ t hc => follows_pushPrefixed (hc t List.mem_cons_self))
      (fun _ _ => coherent_pushPrefixed) h
  | operators ops =>
    exact exhausts_sweep (fun _ _ => follows_pushOperand) (fun _ _ => coherent_pushOperand ops) h

theorem apply_of_reduced (hr : r ≠ .signs) (h : ∀ t ∈ tokens, t.Coherent)
    (hreduced : Reduced r tokens) : r.apply tokens = tokens :=
  (exhausts_apply hr h).unique ⟨.refl, hreduced⟩

/-- A sweep leaves what replacing the leftmost occurrence of the pattern again and again ends
with, whatever the tokens are, and a second sweep has nothing to do. -/
theorem apply_eq_iff_exhausts (hr : r ≠ .signs) (h : ∀ t ∈ tokens, t.Coherent) :
    (∀ out, Exhausts r tokens out ↔ out = r.apply tokens) ∧
      Reduced r (r.apply tokens) ∧ r.apply (r.apply tokens) = r.apply tokens := by
  have hends := exhausts_apply hr h
  refine ⟨fun out => ⟨fun hout => hout.unique hends, ?_⟩, hends.2, ?_⟩
  · rintro rfl
    exact hends
  · exact apply_of_reduced hr (coherent_apply r h) hends.2

def stray : List (Token Unit) :=
  [Token.ofLexeme ⟨.prefixOp .minus, "-"⟩, Token.resolved (.scalar "a" fun _ => .ok 1),
    Token.ofLexeme ⟨.binary .mul, "*"⟩, Token.resolved (.scalar "b" fun _ => .ok 2),
    Token.ofLexeme ⟨.binary .add, "+"⟩, Token.resolved (.scalar "c" fun _ => .ok 3),
    Token.ofLexeme ⟨.closing .round, ")"⟩, Token.resolved (.scalar "d" fun _ => .ok 4),
    Token.ofLexeme ⟨.binary .less, "<"⟩]

theorem coherent_stray : ∀ t ∈ stray, t.Coherent := by
  simp [stray, Token.Coherent, Token.ofLexeme, Token.resolved, Token.isResolved, Kind.isResolved]

theorem apply_eq_iff_exhausts_stray :
    Reduction.operators [.mul, .add] ≠ .signs ∧ (∀ t ∈ stray, t.Coherent) ∧
      ((Reduction.operators [.mul, .add]).apply stray).map Token.text =
        ["-", "((a)*(b))+(c)", ")", "d", "<"] ∧
      (∀ out, Exhausts (.operators [.mul, .add]) stray out ↔
        out = (Reduction.operators [.mul, .add]).apply stray) ∧
      Reduced (.operators [.mul, .add]) ((Reduction.operators [.mul, .add]).apply stray) ∧
      (Reduction.operators [.mul, .add]).apply ((Reduction.operators [.mul, .add]).apply stray) =
        (Reduction.operators [.mul, .add]).apply stray :=
  ⟨nofun, coherent_stray, rfl, apply_eq_iff_exhausts nofun coherent_stray⟩

def Unbracketed : Reduction → Prop
  | prefixes | operators _ => True
  | parentheses | subscripts | signs => False

theorem Pattern.of_value {before behind : List (Token C)} (h : Pattern r (before ++ u :: behind))
    (hr : r.Unbracketed) (hu : u.isResolved = true) :
    (before = [] ∧ ∀ v : Token C, v.isResolved = true → Pattern r (v :: behind)) ∨
      behind = [] ∧ ∀ v : Token C, v.isResolved = true → Pattern r (before ++ [v]) := by
  generalize hredex : before ++ u :: behind = redex at h
  cases h with
  | parentheses _ _ _ => cases hr
  | subscripts _ _ _ _ => cases hr
  | @prefixes sign operand hsign _ =>
    obtain _ | ⟨first, _ | ⟨second, before⟩⟩ := before
    · cases hredex
      cases hk : u.kind <;> simp_all [Token.isResolved, Kind.isResolved, Kind.isPrefix]
    · cases hredex
      exact .inr ⟨rfl, fun v hv => .prefixes hsign hv⟩
    · simp at hredex
  | @operators _ op left operator right hl hop hmem hright =>
    obtain _ | ⟨first, _ | ⟨second, _ | ⟨third, before⟩⟩⟩ := before
    · cases hredex
      exact .inl ⟨rfl, fun v hv => .operators hv hop hmem hright⟩
    · cases hredex
      rw [Token.isResolved, hop] at hu
      cases hu
    · cases hredex
      exact .inr ⟨rfl, fun v hv => .operators hl hop hmem hv⟩
    · simp at hredex

theorem infix_append_cons {α : Type} {part front back : List α} {a : α}
    (h : part <:+: front ++ a :: back) :
    part <:+: front ∨ part <:+: back ∨
      ∃ before behind, part = before ++ a :: behind ∧ before <:+ front ∧ behind <+: back := by
  obtain hfront | hback | ⟨before, behind, rfl, hbefore, hbehind⟩ := List.infix_append_iff.1 h
  · exact .inl hfront
  · obtain hprefix | hback := List.infix_cons_iff.1 hback
    · obtain rfl | ⟨behind, rfl, hbehind⟩ := List.prefix_cons_iff.1 hprefix
      · exact .inl List.nil_infix
      · exact .inr (.inr ⟨[], behind, rfl, List.nil_suffix, hbehind⟩)
    · exact .inr (.inl hback)
  · obtain rfl | ⟨behind, rfl, hback⟩ := List.prefix_cons_iff.1 hbehind
    · rw [List.append_nil]
      exact .inl hbefore.isInfix
    · exact .inr (.inr ⟨before, behind, rfl, hbefore, hback⟩)

theorem Reduced.of_rewrites {ops : List BinaryOp} {out : List (Token C)} (h : Reduced r tokens)
    (hr : r.Unbracketed) (hout : Rewrites (.operators ops) tokens out) : Reduced r out := by
  -- What operators condense stands between the neighbours of its operands, which are values too.
  obtain @⟨front, redex, back, u, hp, hu, _⟩ := hout
  cases hp with
  | @operators _ op left operator right hl hop hmem hright =>
    have hvalue : u.isResolved = true := by
      simp only [contraction, hop, Option.bind_eq_bind, Option.bind_eq_some_iff] at hu
      obtain ⟨l, _, r, _, hu⟩ := hu
      cases hu
      rfl
    have hfront : front ++ [left] <:+: front ++ [left, operator, right] ++ back :=
      ⟨[], operator :: right :: back, by simp⟩
    have hback : right :: back <:+: front ++ [left, operator, right] ++ back :=
      ⟨front ++ [left, operator], [], by simp⟩
    intro other hother hpattern
    obtain hother | hother | ⟨before, behind, rfl, hbefore, hbehind⟩ := infix_append_cons hother
    · exact h other ((hother.trans (List.prefix_append _ _).isInfix).trans hfront) hpattern
    · exact h other ((hother.trans (List.suffix_cons _ _).isInfix).trans hback) hpattern
    · obtain ⟨_, hpattern⟩ | ⟨_, hpattern⟩ := hpattern.of_value hr hvalue
      · refine h _ (List.IsInfix.trans ?_ hback) (hpattern right hright)
        exact ((List.prefix_cons_inj right).2 hbehind).isInfix
      · refine h _ (List.IsInfix.trans ?_ hfront) (hpattern left hl)
        exact (List.suffix_append_self_iff.2 hbefore).isInfix

theorem Reduced.apply_operators {ops : List BinaryOp} (h : Reduced r tokens) (hr : r.Unbracketed)
    (hc : ∀ t ∈ tokens, t.Coherent) : Reduced r ((operators ops).apply tokens) := by
  have hsteps := (exhausts_apply (r := .operators ops) nofun hc).1
  generalize (Reduction.operators ops).apply tokens = out at hsteps ⊢
  induction hsteps with
  | refl => exact h
  | tail _ hstep ih => exact ih.of_rewrites hr hstep

theorem reduced_applyAll (levels : List (List BinaryOp)) {done : List Reduction}
    (hdone : ∀ r ∈ done, r.Unbracketed ∧ Reduced r tokens) (hc : ∀ t ∈ tokens, t.Coherent) :
    ∀ r ∈ done ++ levels.map Reduction.operators,
      Reduced r (applyAll (levels.map Reduction.operators) tokens) := by
  induction levels generalizing tokens done with
  | nil =>
    rw [List.map_nil, List.append_nil]
    exact fun r hr => (hdone r hr).2
  | cons ops levels ih =>
    have hpassed : ∀ r ∈ done ++ [Reduction.operators ops],
        r.Unbracketed ∧ Reduced r ((Reduction.operators ops).apply tokens) := by
      intro r hr
      obtain hr | hr := List.mem_append.1 hr
      · obtain ⟨hunbracketed, hreduced⟩ := hdone r hr
        exact ⟨hunbracketed, hreduced.apply_operators hunbracketed hc⟩
      · obtain rfl := List.mem_singleton.1 hr
        exact ⟨trivial, (exhausts_apply (r := .operators ops) nofun hc).2⟩
    have hrest := ih hpassed (coherent_apply _ hc)
    rwa [List.append_assoc, List.singleton_append] at hrest

def binding : List Reduction := prefixes :: BinaryOp.precedence.map Reduction.operators

/-- After one pass for each level none of these passes has anything left to do: what a looser one
condenses is never a new operand for a tighter one. -/
theorem apply_binding_stable (h : ∀ t ∈ tokens, t.Coherent) :
    ∀ r ∈ binding, Reduced r (applyAll binding tokens) ∧
      r.apply (applyAll binding tokens) = applyAll binding tokens := by
  have hprefixed : ∀ r ∈ [prefixes], r.Unbracketed ∧ Reduced r (prefixes.apply tokens) := by
    intro r hr
    obtain rfl := List.mem_singleton.1 hr
    exact ⟨trivial, (exhausts_apply (r := .prefixes) nofun h).2⟩
  have hall := reduced_applyAll BinaryOp.precedence hprefixed (coherent_apply prefixes h)
  have hreduced : ∀ r ∈ binding, Reduced r (applyAll binding tokens) := by
    simpa only [binding, applyAll, List.foldl_cons, List.singleton_append] using hall
  intro r hr
  have hsigns : r ≠ .signs := by
    rintro rfl
    simp [binding] at hr
  exact ⟨hreduced r hr, apply_of_reduced hsigns (coherent_applyAll binding h) (hreduced r hr)⟩

theorem apply_binding_stable_stray :
    (∀ t ∈ stray, t.Coherent) ∧
      (applyAll binding stray).map Token.text = ["((-(a))*(b))+(c)", ")", "d", "<"] ∧
      ∀ r ∈ binding, Reduced r (applyAll binding stray) ∧
        r.apply (applyAll binding stray) = applyAll binding stray :=
  ⟨coherent_stray, rfl, apply_binding_stable coherent_stray⟩

end Reduction

end EventCuts
