import EventCuts.Proofs.Bytes
import EventCuts.Proofs.Soundness

/-!
# Compilation with guarded operations

The compilation as index arithmetic on growing lists does it: every slice, every subtraction of
lengths and depths, every operand that is taken for granted and every descent into a group is
guarded, and a guard that fails is a fault. No text and no schema leads to one, so that the
guarded compilation answers what the compilation does.
-/

namespace EventCuts

variable {C : Type}

namespace Guarded

variable {α β : Type}

theorem ofExcept_bind (x : Except ParseError α) (f : α → Except ParseError β) :
    ofExcept (x >>= f) = ofExcept x >>= fun a => ofExcept (f a) := by
  cases x <;> rfl

theorem ofExcept_ok (a : α) : ofExcept (.ok a) = (.ok a : Guarded α) := rfl

theorem ofExcept_pure (a : α) : ofExcept (pure a) = (pure a : Guarded α) := rfl

theorem ofExcept_ne_fault (x : Except ParseError α) (f : Fault) :
    ofExcept x ≠ .error (.fault f) := by
  cases x <;> simp [ofExcept, Except.mapError]

def sub (a b : Nat) (f : Fault) : Guarded Nat := if b ≤ a then pure (a - b) else throw (.fault f)

def closeFrom (b : Bracket) : (depth index : Nat) → List (Token C) → Guarded (Option Nat)
  | _, _, [] => pure none
  | depth, index, t :: rest =>
    if t.kind = .opening b then closeFrom b (depth + 1) (index + 1) rest
    else if t.kind = .closing b then do
      let depth ← sub depth 1 .depth
      if depth = 0 then pure (some index) else closeFrom b depth (index + 1) rest
    else closeFrom b depth (index + 1) rest

def findClose (tokens : List (Token C)) (i : Nat) : Guarded (Option Nat) :=
  match tokens[i]? with
  | none => pure none
  | some t =>
    match t.kind with
    | .opening b => closeFrom b 0 i (tokens.drop i)
    | _ => pure none

def slice (tokens : List (Token C)) (start stop : Nat) : Guarded (List (Token C)) :=
  if start ≤ stop ∧ stop ≤ tokens.length then pure ((tokens.take stop).drop start)
  else throw (.fault .index)

def entry (tokens : List (Token C)) (i : Nat) : Guarded (Token C) := ofOption .index tokens[i]?

def groupings (limit : Nat)
    (solve : (inner : List (Token C)) → inner.length < limit → Guarded (Token C))
    (tokens : List (Token C)) (start : Nat) : Guarded (List (Token C)) :=
  if start < tokens.length then do
    let opener ← entry tokens start
    let close := (← findClose tokens start).getD start
    if start + 1 < close then
      let inner ← slice tokens (start + 1) close
      if h : inner.length < limit then
        let merged ← solve inner h
        let closer ← entry tokens close
        let others ← groupings limit solve tokens (close + 1)
        pure (opener :: merged :: closer :: others)
      else throw (.fault .group)
    else
      let others ← groupings limit solve tokens (start + 1)
      pure (opener :: others)
  else pure []
termination_by tokens.length - start

def pushSubscript (out : List (Token C)) (t : Token C) : Guarded (List (Token C)) :=
  match out.reverse with
  | index :: opener :: vector :: _ =>
    if t.kind = .closing .square ∧ vector.kind = .resolved .vector ∧
        opener.kind = .opening .square ∧ index.kind = .resolved .scalar then do
      let start ← sub out.length 3 .length
      let operands := out.drop start
      let entries ← ofOption .operands (operands[0]?.bind Token.value)
      let position ← ofOption .operands (operands[2]?.bind Token.value)
      let e ← ofOption .operands (entries.subscript position)
      pure (out.take start ++ [Token.resolved (e.rename (Token.sourceText operands ++ t.text))])
    else pure (out ++ [t])
  | _ => pure (out ++ [t])

def pushSign (out : List (Token C)) (t : Token C) : Guarded (List (Token C)) :=
  let kind := t.kind.after (out.getLast?.map Token.kind)
  if kind = t.kind then pure (out ++ [t])
  else if kind.isResolved ∨ t.value.isSome then throw (.fault .reclassified)
  else pure (out ++ [{ t with kind }])

def binaryOperation (left : Expr C) (kind : Kind) (right : Expr C) : Guarded (Expr C) :=
  match kind with
  | .binary op => pure (Expr.binary op left right)
  | _ => throw (.fault .operator)

def pushOperand (ops : List BinaryOp) (out : List (Token C)) (t : Token C) :
    Guarded (List (Token C)) :=
  match t.value, out.reverse with
  | some right, operator :: left :: _ =>
    match left.value with
    | some left =>
      if operator.kind ∈ ops.map Kind.binary then do
        let start ← sub out.length 2 .length
        let e ← binaryOperation left operator.kind right
        pure (out.take start ++ [Token.resolved e])
      else pure (out ++ [t])
    | none => pure (out ++ [t])
  | _, _ => pure (out ++ [t])

def sweep (push : List (Token C) → Token C → Guarded (List (Token C))) (tokens : List (Token C)) :
    Guarded (List (Token C)) :=
  tokens.foldlM push []

def apply : Reduction → List (Token C) → Guarded (List (Token C))
  | .subscripts, tokens => sweep pushSubscript tokens
  | .signs, tokens => sweep pushSign tokens
  | .operators ops, tokens => sweep (pushOperand ops) tokens
  | r, tokens => pure (r.apply tokens)

def readNumber (text : String) : Guarded (Option Float) := do
  match text.toList with
  | '0' :: mark :: rest =>
    if Literal.isHexMark mark then
      let _ ← Bytes.splitAtMark rest
  | _ => pure ()
  pure (EventCuts.readNumber text)

def resolveLeaf (schema : Schema C) (source : String) (offset : Nat) (t : Token C) :
    Guarded (Token C) := do
  if t.kind = .number then
    let _ ← readNumber t.text
  ofExcept (EventCuts.resolveLeaf schema source offset t)

def resolveLeavesFrom (schema : Schema C) (source : String) :
    Nat → List (Token C) → Guarded (List (Token C))
  | _, [] => pure []
  | offset, t :: rest => do
    let leaf ← resolveLeaf schema source offset t
    let leaves ← resolveLeavesFrom schema source (offset + t.text.utf8ByteSize) rest
    pure (leaf :: leaves)

def solve (schema : Schema C) (source : String) (tokens : List (Token C)) : Guarded (Token C) := do
  ofExcept (checkUnknown source tokens)
  let leaves ← resolveLeavesFrom schema source 0 tokens
  let groups ← groupings tokens.length
    (fun inner _ => solve schema (Token.sourceText inner) inner) leaves 0
  let reduced ← Reduction.pipeline.foldlM (fun tokens r => apply r tokens) groups
  let t ← ofExcept (checkSolved source reduced)
  pure (t.rename source)
termination_by tokens.length

def parse (schema : Schema C) (source : String) : Guarded (Expr C) := do
  let stripped := Text.stripBlanks source
  let lexemes ← Bytes.lexFrom (Text.stripBlanks stripped).toList 0
  let t ← solve schema stripped (lexemes.map Token.ofLexeme)
  ofExcept (tokenValue stripped t)

theorem sub_eq {a b : Nat} (h : b ≤ a) (f : Fault) : sub a b f = .ok (a - b) := if_pos h

theorem sub_length (front back : List α) (f : Fault) :
    sub (front ++ back).length back.length f = .ok front.length := by
  rw [List.length_append, sub_eq (Nat.le_add_left _ _), Nat.add_sub_cancel]

theorem ok_bind {ε : Type} (a : α) (f : α → Except ε β) : (Except.ok a : Except ε α) >>= f = f a :=
  rfl

theorem closeFrom_cons {b : Bracket} {depth next index : Nat} {t : Token C}
    (rest : List (Token C)) (hnext : 0 < next)
    (h : opened b [t] + depth = closed b [t] + next) :
    closeFrom b depth index (t :: rest) = closeFrom b next (index + 1) rest := by
  rw [closeFrom]
  by_cases ho : t.kind = .opening b
  · obtain ⟨hopened, hclosed⟩ := counts_of_opening ho
    obtain rfl : next = depth + 1 := by omega
    exact if_pos ho
  by_cases hc : t.kind = .closing b
  · obtain ⟨hopened, hclosed⟩ := counts_of_closing hc
    obtain rfl : depth = next + 1 := by omega
    rw [if_neg ho, if_pos hc, sub_eq (Nat.succ_pos next), ok_bind]
    exact if_neg (Nat.ne_of_gt hnext)
  · obtain ⟨hopened, hclosed⟩ := counts_of_other ho hc
    obtain rfl : next = depth := by omega
    rw [if_neg ho, if_neg hc]

theorem closeFrom_eq (b : Bracket) {depth : Nat} (hd : 0 < depth) (index : Nat)
    (tokens : List (Token C)) :
    closeFrom b depth index tokens = .ok ((closeOffset b depth tokens).map (index + ·)) := by
  induction tokens generalizing depth index with
  | nil => rfl
  | cons t rest ih =>
    obtain ⟨next, hnext, hcount, hoffset⟩ | ⟨rfl, hc, hoffset⟩ := closeOffset_cons t rest hd
    · rw [closeFrom_cons rest hnext hcount, hoffset, ih hnext, Option.map_map]
      congr 2
      funext n
      exact Nat.add_right_comm index 1 n
    · have ho : t.kind ≠ .opening b := by simp [hc]
      rw [closeFrom, if_neg ho, if_pos hc, hoffset]
      rfl

theorem findClose_eq (tokens : List (Token C)) (i : Nat) :
    findClose tokens i = .ok (EventCuts.findClose tokens i) := by
  rw [findClose, EventCuts.findClose, ← List.head?_drop]
  cases hd : tokens.drop i with
  | nil => rfl
  | cons t rest =>
    rw [List.head?_cons]
    cases hk : t.kind with
    | opening b =>
      simp only [hk, groupLength]
      rw [closeFrom, if_pos hk, closeFrom_eq b (Nat.succ_pos 0)]
    | _ =>
      simp only [hk, groupLength]
      rfl

end Guarded

theorem Logged.result_bind {α β : Type} (x : Logged α) (f : α → Logged β) :
    (x >>= f).result = x.result >>= fun a => (f a).result := by
  obtain ⟨log, _ | _⟩ := x <;> rfl

theorem compileGroups_group {t : Token C} {rest : List (Token C)} {n : Nat}
    (hn : groupLength t rest = some (n + 1)) :
    (compileGroups (t :: rest)).result = (do
      let groups ← (compileGroups (rest.take (n + 1))).result
      let value ← (condense (Token.sourceText (rest.take (n + 1))) groups).result
      let others ← (compileGroups (rest.drop (n + 1))).result
      pure (t :: value :: others)) := by
  rw [compileGroups, hn]
  simp only [Logged.result_bind, Logged.tell, Logged.pure_eq]
  rfl

theorem compileGroups_single {t : Token C} {rest : List (Token C)}
    (hn : ∀ n, groupLength t rest ≠ some (n + 1)) :
    (compileGroups (t :: rest)).result = (do
      let others ← (compileGroups rest).result
      pure (t :: others)) := by
  rw [compileGroups]
  split
  · exact absurd ‹_› (hn _)
  · rw [Logged.result_bind]
    rfl

def groupValue (inner : List (Token C)) : Except ParseError (Token C) := do
  let groups ← (compileGroups inner).result
  (condense (Token.sourceText inner) groups).result

namespace Guarded

theorem group_bounds {t : Token C} {tokens : List (Token C)} {start n : Nat}
    (hn : groupLength t (tokens.drop start) = some n) :
    ∃ c after, (tokens.drop start).drop n = c :: after ∧
      slice tokens start (start + n) = .ok ((tokens.drop start).take n) ∧
      entry tokens (start + n) = .ok c ∧ ∀ m, groupLength c after ≠ some m := by
  obtain ⟨inside, c, after, hsplit, hlen, b, _, hc, _⟩ := groupLength_eq_some_iff.1 hn
  have hdrop : (tokens.drop start).drop n = c :: after := by
    rw [hsplit, List.drop_left' hlen]
  have hat : tokens.drop (start + n) = c :: after := by
    rw [← List.drop_drop, hdrop]
  have hlt : start + n < tokens.length := by
    apply Nat.lt_of_not_le
    intro hle
    rw [List.drop_eq_nil_of_le hle] at hat
    cases hat
  refine ⟨c, after, hdrop, ?_, ?_, ?_⟩
  · rw [slice, if_pos ⟨Nat.le_add_right _ _, Nat.le_of_lt hlt⟩, List.drop_take,
      Nat.add_sub_cancel_left]
    rfl
  · rw [entry, ← List.head?_drop, hat]
    rfl
  · intro m
    rw [groupLength, hc]
    exact (Option.some_ne_none _).symm

theorem groupings_eq {limit : Nat}
    {solve : (inner : List (Token C)) → inner.length < limit → Guarded (Token C)}
    {tokens : List (Token C)} (hlimit : tokens.length ≤ limit)
    (hsolve : ∀ inner h, (∀ t ∈ inner, t ∈ tokens) → solve inner h = ofExcept (groupValue inner))
    (start : Nat) :
    groupings limit solve tokens start = ofExcept (compileGroups (tokens.drop start)).result := by
  induction hm : tokens.length - start using Nat.strongRecOn generalizing start with
  | ind m ih =>
    subst hm
    rw [groupings]
    by_cases hstart : start < tokens.length
    · have hrest : tokens.drop start = tokens[start] :: tokens.drop (start + 1) :=
        List.drop_eq_getElem_cons hstart
      have hentry : entry tokens start = .ok tokens[start] := by
        rw [entry, List.getElem?_eq_getElem hstart]
        rfl
      have hclose : EventCuts.findClose tokens start =
          (groupLength tokens[start] (tokens.drop (start + 1))).map (start + 1 + ·) := by
        rw [EventCuts.findClose, hrest]
      rw [if_pos hstart, hentry, ok_bind, findClose_eq, ok_bind, hclose]
      by_cases hn : ∃ n, groupLength tokens[start] (tokens.drop (start + 1)) = some (n + 1)
      · obtain ⟨n, hn⟩ := hn
        obtain ⟨c, after, hdrop, hinner, hcloser, hnone⟩ := group_bounds hn
        have hlength : ((tokens.drop (start + 1)).take (n + 1)).length < limit := by
          rw [List.length_take, List.length_drop]
          omega
        have hmem : ∀ t ∈ (tokens.drop (start + 1)).take (n + 1), t ∈ tokens :=
          fun t ht => List.mem_of_mem_drop (List.mem_of_mem_take ht)
        have hothers : groupings limit solve tokens (start + 1 + (n + 1) + 1) =
            ofExcept (compileGroups after).result := by
          rw [ih _ (by omega) _ rfl, ← List.drop_drop, ← List.drop_drop, hdrop]
          rfl
        rw [hn, Option.map_some, Option.getD_some, if_pos (by omega), hinner, ok_bind,
          dif_pos hlength, hsolve _ hlength hmem, hcloser, hothers, hrest, compileGroups_group hn,
          hdrop, compileGroups_single fun m => hnone (m + 1), groupValue]
        simp only [ofExcept_bind, bind_assoc, ok_bind, ofExcept_pure, pure_bind]
      · have hopen : ¬ start + 1 <
            ((groupLength tokens[start] (tokens.drop (start + 1))).map
              (start + 1 + ·)).getD start := by
          cases hg : groupLength tokens[start] (tokens.drop (start + 1)) with
          | none => exact Nat.not_lt.2 (Nat.le_succ start)
          | some n =>
            cases n with
            | zero => exact Nat.lt_irrefl _
            | succ n => exact absurd ⟨n, hg⟩ hn
        rw [if_neg hopen, hrest, compileGroups_single fun n h => hn ⟨n, h⟩, ofExcept_bind,
          ih _ (by omega) _ rfl]
        rfl
    · rw [if_neg hstart, List.drop_eq_nil_of_le (Nat.le_of_not_lt hstart), compileGroups_nil_result]
      rfl

theorem push_eq (stack : List (Token C)) (t : Token C) :
    (pure (stack.reverse ++ [t]) : Guarded _) = .ok (t :: stack).reverse := by
  rw [List.reverse_cons]
  rfl

theorem pushSubscript_eq {stack : List (Token C)} {t : Token C} (h : ∀ u ∈ t :: stack, u.Coherent) :
    pushSubscript stack.reverse t = .ok (Reduction.pushSubscript stack t).reverse := by
  rw [pushSubscript, List.reverse_reverse]
  rcases stack with _ | ⟨index, _ | ⟨opener, _ | ⟨vector, below⟩⟩⟩
  · exact push_eq _ t
  · exact push_eq _ t
  · exact push_eq _ t
  · simp only [Reduction.pushSubscript]
    split
    · next hkinds =>
      obtain ⟨_, hvector, _, hindex⟩ := hkinds
      obtain ⟨v, i, e, hv, hi, he, hentry⟩ :=
        Reduction.exists_subscripted (h vector (by simp)) (h index (by simp)) hvector hindex
          opener t
      have hout : (index :: opener :: vector :: below).reverse =
          below.reverse ++ [vector, opener, index] := by simp
      have htext : Token.sourceText [vector, opener, index] ++ t.text =
          Token.sourceText [vector, opener, index, t] := by
        simp [Token.sourceText, String.join]
      have hstart : sub (below.reverse ++ [vector, opener, index]).length 3 .length =
          .ok below.reverse.length := sub_length _ _ _
      rw [hout, hstart, ok_bind, List.drop_left, List.take_left, htext]
      simp only [List.getElem?_cons_zero, List.getElem?_cons_succ, Option.bind_some, hv, hi,
        ofOption, ok_bind, he, hentry]
      exact push_eq below _
    · exact push_eq _ t

theorem pushSign_eq (stack : List (Token C)) {t : Token C} (ht : t.Coherent) :
    pushSign stack.reverse t = .ok (Reduction.pushSign stack t).reverse := by
  simp only [pushSign, Reduction.pushSign, List.getLast?_reverse]
  split
  · next hkind =>
    rw [hkind]
    exact push_eq stack t
  · next hkind =>
    have hnot : ¬ ((t.kind.after (stack.head?.map Token.kind)).isResolved = true ∨
        t.value.isSome = true) := by
      rw [Kind.isResolved_after]
      intro h
      have hr : t.isResolved = true := by
        rcases h with h | h
        · exact h
        · obtain ⟨e, he⟩ := Option.isSome_iff_exists.1 h
          rw [Token.isResolved, ht.kind_of_value he]
          rfl
      obtain ⟨e, rfl⟩ := ht.eq_resolved hr
      exact hkind rfl
    rw [if_neg hnot]
    exact push_eq stack _

theorem pushOperand_eq (ops : List BinaryOp) (stack : List (Token C)) (t : Token C) :
    pushOperand ops stack.reverse t = .ok (Reduction.pushOperand ops stack t).reverse := by
  simp only [pushOperand, Reduction.pushOperand, List.reverse_reverse]
  cases t.value with
  | none => exact push_eq stack t
  | some right =>
    rcases stack with _ | ⟨operator, _ | ⟨left, below⟩⟩
    · exact push_eq _ t
    · exact push_eq _ t
    · cases hl : left.value with
      | none =>
        simp only [hl]
        split
        · next h => cases h
        · exact push_eq _ t
      | some l =>
        simp only [hl]
        cases operator.kind with
        | binary op =>
          have hmem : Kind.binary op ∈ ops.map Kind.binary ↔ op ∈ ops :=
            List.mem_map_of_injective (f := Kind.binary) fun _ _ h => Kind.binary.inj h
          simp only [hmem]
          split
          · have hout :
                (operator :: left :: below).reverse = below.reverse ++ [left, operator] := by
              simp
            have hstart : sub (below.reverse ++ [left, operator]).length 2 .length =
                .ok below.reverse.length := sub_length _ _ _
            rw [hout, hstart, ok_bind, List.take_left]
            exact push_eq below _
          · exact push_eq _ t
        | _ =>
          rw [if_neg (by simp)]
          exact push_eq _ t

theorem sweep_eq {push : List (Token C) → Token C → Guarded (List (Token C))}
    {plain : List (Token C) → Token C → List (Token C)}
    (hpush : ∀ stack t, (∀ u ∈ t :: stack, u.Coherent) →
      push stack.reverse t = .ok (plain stack t).reverse)
    (hplain : ∀ stack t, (∀ u ∈ t :: stack, u.Coherent) → ∀ u ∈ plain stack t, u.Coherent)
    {tokens : List (Token C)} (h : ∀ u ∈ tokens, u.Coherent) :
    sweep push tokens = .ok (Reduction.sweep plain tokens) := by
  have hfold : ∀ tokens stack : List (Token C),
      (∀ u ∈ tokens, u.Coherent) → (∀ u ∈ stack, u.Coherent) →
      tokens.foldlM push stack.reverse = .ok (tokens.foldl plain stack).reverse := by
    intro tokens
    induction tokens with
    | nil => exact fun _ _ _ => rfl
    | cons t rest ih =>
      intro stack h hstack
      obtain ⟨ht, hrest⟩ := List.forall_mem_cons.1 h
      have hall := List.forall_mem_cons.2 ⟨ht, hstack⟩
      rw [List.foldlM_cons, hpush stack t hall, ok_bind]
      exact ih _ hrest (hplain stack t hall)
  exact hfold tokens [] h nofun

theorem apply_eq (r : Reduction) {tokens : List (Token C)} (h : ∀ u ∈ tokens, u.Coherent) :
    apply r tokens = .ok (r.apply tokens) := by
  cases r with
  | parentheses => rfl
  | subscripts =>
    exact sweep_eq (fun _ _ => pushSubscript_eq) (fun _ _ => Reduction.coherent_pushSubscript) h
  | signs =>
    exact sweep_eq (fun stack t h => pushSign_eq stack (h t List.mem_cons_self))
      (fun _ _ => Reduction.coherent_pushSign) h
  | prefixes => rfl
  | operators ops =>
    exact sweep_eq (fun stack t _ => pushOperand_eq ops stack t)
      (fun _ _ => Reduction.coherent_pushOperand ops) h

theorem applyAll_eq (reductions : List Reduction) {tokens : List (Token C)}
    (h : ∀ u ∈ tokens, u.Coherent) :
    reductions.foldlM (fun tokens r => apply r tokens) tokens =
      .ok (Reduction.applyAll reductions tokens) := by
  induction reductions generalizing tokens with
  | nil => rfl
  | cons r rest ih =>
    rw [List.foldlM_cons, apply_eq r h, ok_bind]
    exact ih (Reduction.coherent_apply r h)

theorem readNumber_eq (text : String) : readNumber text = .ok (EventCuts.readNumber text) := by
  rw [readNumber]
  split
  · split
    · rw [Bytes.splitAtMark_eq]
      rfl
    · rfl
  · rfl

theorem resolveLeaf_eq (schema : Schema C) (source : String) (offset : Nat) (t : Token C) :
    resolveLeaf schema source offset t =
      ofExcept (EventCuts.resolveLeaf schema source offset t) := by
  rw [resolveLeaf]
  split
  · rw [readNumber_eq]
    rfl
  · rfl

theorem resolveLeavesFrom_eq (schema : Schema C) (source : String) (offset : Nat)
    (tokens : List (Token C)) :
    resolveLeavesFrom schema source offset tokens =
      ofExcept (EventCuts.resolveLeavesFrom schema source offset tokens) := by
  induction tokens generalizing offset with
  | nil => rfl
  | cons t rest ih =>
    simp only [resolveLeavesFrom, EventCuts.resolveLeavesFrom, resolveLeaf_eq, ih, ofExcept_bind,
      ofExcept_pure]

end Guarded

/-- What the inside of a group is made of: there is nothing left to look up or to read. -/
def Token.Settled (t : Token C) : Prop :=
  t.kind ≠ .unknown ∧ t.kind ≠ .identifier ∧ t.kind ≠ .number

theorem Token.settled_resolved (e : Expr C) : (Token.resolved e).Settled := by
  simp [Settled, resolved]

theorem settled_resolveLeaf {schema : Schema C} {source : String} {offset : Nat} {t leaf : Token C}
    (ht : t.kind ≠ .unknown) (h : resolveLeaf schema source offset t = .ok leaf) :
    leaf.Settled := by
  obtain ⟨rfl, hkind⟩ | ⟨e, rfl, _⟩ := resolveLeaf_cases h
  · exact ⟨ht, hkind⟩
  · exact Token.settled_resolved e

theorem settled_resolveLeaves {schema : Schema C} {source : String} {tokens leaves : List (Token C)}
    (h : ∀ t ∈ tokens, t.kind ≠ .unknown) (hl : resolveLeaves schema source tokens = .ok leaves) :
    ∀ leaf ∈ leaves, leaf.Settled := by
  intro leaf hleaf
  obtain ⟨t, ht, _, hresolve⟩ := exists_of_forall₂ (leaves_of_resolveLeavesFrom hl) hleaf
  exact settled_resolveLeaf (h t ht) hresolve

theorem resolveLeaf_settled (schema : Schema C) (source : String) (offset : Nat) {t : Token C}
    (ht : t.kind ≠ .identifier ∧ t.kind ≠ .number) :
    resolveLeaf schema source offset t = .ok t := by
  obtain ⟨kind, text, value⟩ := t
  obtain ⟨hidentifier, hnumber⟩ := ht
  cases kind with
  | identifier => exact absurd rfl hidentifier
  | number => exact absurd rfl hnumber
  | _ => rfl

theorem resolveLeavesFrom_settled (schema : Schema C) (source : String) (offset : Nat)
    {tokens : List (Token C)} (h : ∀ t ∈ tokens, t.kind ≠ .identifier ∧ t.kind ≠ .number) :
    resolveLeavesFrom schema source offset tokens = .ok tokens := by
  induction tokens generalizing offset with
  | nil => rfl
  | cons t rest ih =>
    obtain ⟨ht, hrest⟩ := List.forall_mem_cons.1 h
    rw [resolveLeavesFrom, resolveLeaf_settled schema source offset ht, ih _ hrest]
    rfl

theorem compileTokens_settled (schema : Schema C) {tokens : List (Token C)}
    (h : ∀ t ∈ tokens, t.Settled) :
    (compileTokens schema (Token.sourceText tokens) tokens).result = groupValue tokens := by
  have hknown := (checkUnknown_ok_iff (Token.sourceText tokens) tokens ()).2 fun t ht => (h t ht).1
  simp only [compileTokens, Logged.result_bind, Logged.tell, Logged.ofExcept, hknown, resolveLeaves,
    resolveLeavesFrom_settled schema _ 0 fun t ht => (h t ht).2, groupValue]
  rfl

namespace Guarded

theorem solve_eq (schema : Schema C) (source : String) {tokens : List (Token C)}
    (h : ∀ t ∈ tokens, t.Coherent) :
    solve schema source tokens = ofExcept (compileTokens schema source tokens).result := by
  induction hn : tokens.length using Nat.strongRecOn generalizing source tokens with
  | ind n ih =>
    subst hn
    -- The inside of a group holds leaves, so that looking them up once more changes nothing.
    have hinner : ∀ inner : List (Token C), inner.length < tokens.length →
        (∀ t ∈ inner, t.Coherent) → (∀ t ∈ inner, t.Settled) →
        solve schema (Token.sourceText inner) inner = ofExcept (groupValue inner) := by
      intro inner hlt hcoherent hsettled
      rw [ih _ hlt _ hcoherent rfl, compileTokens_settled schema hsettled]
    rw [solve, compileTokens]
    simp only [Logged.result_bind, Logged.tell, Logged.ofExcept, resolveLeaves,
      resolveLeavesFrom_eq, ok_bind]
    cases hu : checkUnknown source tokens with
    | error e => rfl
    | ok u =>
      cases hl : EventCuts.resolveLeavesFrom schema source 0 tokens with
      | error e => rfl
      | ok leaves =>
        have hknown := (checkUnknown_ok_iff source tokens u).1 hu
        have hleaves := leaves_of_resolveLeavesFrom hl
        have hcoherent := coherent_resolveLeaves h hl
        have hsettled := settled_resolveLeaves hknown hl
        have hgroups : groupings tokens.length
            (fun inner _ => solve schema (Token.sourceText inner) inner) leaves 0 = _ :=
          groupings_eq (Nat.le_of_eq hleaves.length_eq.symm)
            (fun inner hlt hmem => hinner inner hlt (fun t ht => hcoherent t (hmem t ht))
              fun t ht => hsettled t (hmem t ht)) 0
        rw [List.drop_zero] at hgroups
        simp only [ofExcept_ok, ok_bind, hgroups]
        cases hg : (compileGroups leaves).result with
        | error e => rfl
        | ok groups =>
          have happly := applyAll_eq Reduction.pipeline (coherent_compileGroups hcoherent hg)
          simp only [ofExcept_ok, ok_bind, happly, condense, Logged.result_bind, Logged.tell,
            Logged.ofExcept, Logged.pure_eq]
          cases checkSolved source (Reduction.applyAll Reduction.pipeline groups) with
          | error e => rfl
          | ok t => rfl

theorem parse_eq (schema : Schema C) (source : String) :
    parse schema source = ofExcept (EventCuts.parse schema source) := by
  simp only [parse, Bytes.lexFrom_zero, ok_bind]
  have hcoherent := coherent_tokenize (C := C) (Text.stripBlanks source)
  rw [tokenize, Lexeme.ofSource] at hcoherent
  rw [solve_eq schema _ hcoherent, ← ofExcept_bind, EventCuts.parse, compile, Logged.result_bind]
  rfl

end Guarded

/-- No operation of a compilation is used outside of its domain, whatever the text and the schema
are, and each comes to an end: the guarded compilation answers what the compilation answers, and
so never with a fault. And what it answers has a value of its shape, or a reason for none. -/
theorem parse_without_fault (schema : Schema C) (source : String) :
    Guarded.parse schema source = (parse schema source).mapError Stop.refused ∧
      (∀ f, Guarded.parse schema source ≠ .error (.fault f)) ∧
      ∀ e, parse schema source = .ok e → ∀ c,
        (∃ v, e.eval c = .ok v ∧ v.shape = e.shape) ∨ ∃ reason, e.eval c = .error reason := by
  refine ⟨Guarded.parse_eq schema source, ?_, ?_⟩
  · intro f
    rw [Guarded.parse_eq]
    exact Guarded.ofExcept_ne_fault _ f
  · intro e _ c
    obtain ⟨name, f | f⟩ := e
    · cases hf : f c with
      | error reason => exact .inr ⟨reason, by simp [Expr.eval, Payload.eval, hf, Except.map]⟩
      | ok x => exact .inl ⟨.scalar x, by simp [Expr.eval, Payload.eval, hf, Except.map], rfl⟩
    · cases hf : f c with
      | error reason => exact .inr ⟨reason, by simp [Expr.eval, Payload.eval, hf, Except.map]⟩
      | ok xs => exact .inl ⟨.vector xs, by simp [Expr.eval, Payload.eval, hf, Except.map], rfl⟩

end EventCuts
