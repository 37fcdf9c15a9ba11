import EventCuts.Proofs.Guards
import EventCuts.Proofs.Pieces
import Mathlib.Order.Bounds.Basic

/-!
# Matching brackets

The search for the partner of a bracket counts the brackets of its kind. It ends at the first place
up to which as many are closed as are opened, so that two pairs of one kind lie apart or one inside
of the other. On the way there the count stays positive.
-/

namespace EventCuts

variable {C : Type} {b : Bracket} {i j k : Nat} {kind : Kind} {tokens : List (Token C)}

def KindAt (tokens : List (Token C)) (i : Nat) (kind : Kind) : Prop :=
  tokens[i]?.map Token.kind = some kind

def Cancels (b : Bracket) (tokens : List (Token C)) (i k : Nat) : Prop :=
  opened b (tokens.extract i (k + 1)) = closed b (tokens.extract i (k + 1))

/-- A bracket is opened at `i`, and `j` is the first place behind it where the brackets of its kind
cancel out. -/
def Partners (b : Bracket) (tokens : List (Token C)) (i j : Nat) : Prop :=
  KindAt tokens i (.opening b) ∧ IsLeast {k | i < k ∧ k < tokens.length ∧ Cancels b tokens i k} j

theorem KindAt.unique {other : Kind} (h : KindAt tokens i kind) (h' : KindAt tokens i other) :
    kind = other :=
  Option.some.inj (h.symm.trans h')

theorem KindAt.drop_eq (h : KindAt tokens i kind) :
    ∃ t rest, tokens.drop i = t :: rest ∧ t.kind = kind := by
  obtain ⟨t, ht, hk⟩ := Option.map_eq_some_iff.1 h
  obtain ⟨hi, rfl⟩ := List.getElem?_eq_some_iff.1 ht
  exact ⟨tokens[i], _, List.drop_eq_getElem_cons hi, hk⟩

theorem kindAt_append (front : List (Token C)) (t : Token C) (back : List (Token C)) :
    KindAt (front ++ t :: back) front.length t.kind := by
  rw [KindAt, List.getElem?_append_right (Nat.le_refl _), Nat.sub_self]
  rfl

theorem extract_split (tokens : List (Token C)) {i k j : Nat} (hik : i ≤ k) (hkj : k ≤ j) :
    tokens.extract i j = tokens.extract i k ++ tokens.extract k j := by
  have hlength : j - i = (k - i) + (j - k) := by omega
  have hdrop : tokens.drop k = (tokens.drop i).drop (k - i) := by
    rw [List.drop_drop, Nat.add_sub_cancel' hik]
  rw [List.extract, hlength, List.take_add, ← hdrop]

theorem closed_lt_of_findClose (h : KindAt tokens i (.opening b)) (hik : i < k)
    (hk : ∀ j, findClose tokens i = some j → k ≤ j) :
    closed b (tokens.extract i k) < opened b (tokens.extract i k) := by
  obtain ⟨opener, rest, hdrop, ho⟩ := h.drop_eq
  obtain ⟨m, rfl⟩ := Nat.exists_eq_add_of_lt hik
  have hclose : findClose tokens i = (closeOffset b 1 rest).map (i + 1 + ·) := by
    rw [findClose, hdrop]
    simp only [groupLength, ho]
  have hextract : tokens.extract i (i + m + 1) = opener :: rest.take m := by
    rw [List.extract, hdrop, Nat.add_assoc, Nat.add_sub_cancel_left, List.take_succ_cons]
  have hrest : closed b (rest.take m) < opened b (rest.take m) + 1 := by
    refine closed_lt_of_closeOffset Nat.one_pos fun n hn => ?_
    have hle := hk (i + 1 + n) (by rw [hclose, hn]; rfl)
    omega
  obtain ⟨hopened, hclosed⟩ := counts_of_opening ho
  rw [hextract, opened_cons, closed_cons]
  omega

theorem exists_opening_of_findClose (h : findClose tokens i = some j) :
    ∃ b, KindAt tokens i (.opening b) := by
  obtain ⟨front, opener, inside, closer, back, rfl, rfl, -, b, ho, -⟩ := findClose_eq_some_iff.1 h
  exact ⟨b, ho ▸ kindAt_append front opener _⟩

theorem cancels_of_findClose (h : KindAt tokens i (.opening b)) (hj : findClose tokens i = some j) :
    i < j ∧ j < tokens.length ∧ KindAt tokens j (.closing b) ∧ Cancels b tokens i j := by
  obtain ⟨front, opener, inside, closer, back, rfl, rfl, rfl, b', ho, hc, hcount, -⟩ :=
    findClose_eq_some_iff.1 hj
  have hkind := kindAt_append front opener (inside ++ closer :: back)
  obtain rfl : b' = b := Kind.opening.inj (ho.symm.trans (hkind.unique h))
  have hlength : front.length + 1 + inside.length = (front ++ opener :: inside).length := by
    rw [List.length_append, List.length_cons]
    omega
  have hsplit : front ++ opener :: (inside ++ closer :: back) =
      (front ++ opener :: inside) ++ closer :: back := by
    rw [List.append_assoc, List.cons_append]
  have hextract : (front ++ opener :: (inside ++ closer :: back)).extract front.length
      (front.length + 1 + inside.length + 1) = opener :: (inside ++ [closer]) := by
    have hsize : front.length + 1 + inside.length + 1 - front.length = inside.length + 1 + 1 := by
      omega
    rw [List.extract, List.drop_left, hsize, List.take_succ_cons, List.take_length_add_append]
    rfl
  refine ⟨by omega, ?_, ?_, ?_⟩
  · rw [hsplit, List.length_append, ← hlength]
    exact Nat.lt_add_of_pos_right (Nat.succ_pos _)
  · rw [hsplit, hlength, ← hc]
    exact kindAt_append _ closer back
  · obtain ⟨hopener, hopener'⟩ := counts_of_opening ho
    obtain ⟨hcloser, hcloser'⟩ := counts_of_closing hc
    rw [Cancels, hextract, opened_cons, closed_cons, opened_append, closed_append]
    omega

theorem findClose_eq_some_iff_isLeast (h : KindAt tokens i (.opening b)) :
    findClose tokens i = some j ↔
      IsLeast {k | i < k ∧ k < tokens.length ∧ Cancels b tokens i k} j := by
  have hleast : ∀ j, findClose tokens i = some j →
      IsLeast {k | i < k ∧ k < tokens.length ∧ Cancels b tokens i k} j := by
    intro j hj
    obtain ⟨hij, hbound, -, hcancels⟩ := cancels_of_findClose h hj
    refine ⟨⟨hij, hbound, hcancels⟩, fun k ⟨hik, _, hk⟩ => Nat.le_of_not_lt fun hkj => ?_⟩
    refine Nat.ne_of_gt (closed_lt_of_findClose h (Nat.lt_succ_of_lt hik) fun l hl => ?_) hk
    rwa [Option.some.inj (hl.symm.trans hj)]
  refine ⟨hleast j, fun hj => ?_⟩
  cases hclose : findClose tokens i with
  | none =>
    have hopen := closed_lt_of_findClose h (Nat.lt_succ_of_lt hj.1.1) (by simp [hclose])
    exact absurd hj.1.2.2 (Nat.ne_of_gt hopen)
  | some l => rw [(hleast l hclose).unique hj]

theorem findClose_eq_some_iff_partners :
    findClose tokens i = some j ↔ ∃ b, Partners b tokens i j := by
  constructor
  · intro hj
    obtain ⟨b, h⟩ := exists_opening_of_findClose hj
    exact ⟨b, h, (findClose_eq_some_iff_isLeast h).1 hj⟩
  · intro ⟨b, h, hj⟩
    exact (findClose_eq_some_iff_isLeast h).2 hj

namespace Partners

variable {i' j' : Nat}

theorem findClose_eq (h : Partners b tokens i j) : findClose tokens i = some j :=
  findClose_eq_some_iff_partners.2 ⟨b, h⟩

theorem opening (h : Partners b tokens i j) : KindAt tokens i (.opening b) := h.1

theorem closing (h : Partners b tokens i j) : KindAt tokens j (.closing b) :=
  (cancels_of_findClose h.opening h.findClose_eq).2.2.1

theorem lt (h : Partners b tokens i j) : i < j := h.2.1.1

theorem cancels (h : Partners b tokens i j) : Cancels b tokens i j := h.2.1.2.2

theorem unique (h : Partners b tokens i j) (h' : Partners b tokens i j') : j = j' := h.2.unique h'.2

theorem exists_inner (h : Partners b tokens i j) (hik : i < k) (hkj : k < j)
    (hk : KindAt tokens k (.opening b)) : ∃ l, Partners b tokens k l ∧ k < l ∧ l < j := by
  -- In front of `k` more is opened than closed, and all of it cancels out at `j`, so that from `k`
  -- on more is closed than opened. A search from `k` that went on behind `j` would rule this out.
  have hfront := closed_lt_of_findClose h.opening hik fun l hl => by
    rw [← Option.some.inj (h.findClose_eq.symm.trans hl)]
    exact hkj.le
  have hcancels := h.cancels
  have hkend : k < j + 1 := Nat.lt_succ_of_lt hkj
  rw [Cancels, extract_split tokens hik.le hkend.le, opened_append, closed_append] at hcancels
  have hback : opened b (tokens.extract k (j + 1)) < closed b (tokens.extract k (j + 1)) := by
    omega
  have hfound : ∃ l, findClose tokens k = some l ∧ l ≤ j := by
    by_contra hnone
    have hopen := closed_lt_of_findClose hk hkend fun l hl =>
      Nat.lt_of_not_le fun hle => hnone ⟨l, hl, hle⟩
    omega
  obtain ⟨l, hl, hlj⟩ := hfound
  have hpair : Partners b tokens k l := ⟨hk, (findClose_eq_some_iff_isLeast hk).1 hl⟩
  have hne : l ≠ j := by
    rintro rfl
    exact Nat.ne_of_lt hback hpair.cancels
  exact ⟨l, hpair, hpair.lt, Nat.lt_of_le_of_ne hlj hne⟩

theorem nested_or_apart (h : Partners b tokens i j) (h' : Partners b tokens i' j') (hi : i < i') :
    j' < j ∨ j < i' := by
  rcases Nat.lt_trichotomy i' j with hlt | rfl | hgt
  · obtain ⟨l, hl, -, hlj⟩ := h.exists_inner hi hlt h'.opening
    rw [hl.unique h'] at hlj
    exact .inl hlj
  · exact absurd (h.closing.unique h'.opening) nofun
  · exact .inr hgt

theorem opener_unique (h : Partners b tokens i j) (h' : Partners b tokens i' j) : i = i' := by
  have hnot : ∀ i i', Partners b tokens i j → Partners b tokens i' j → ¬ i < i' := by
    intro i i' h h' hlt
    rcases h.nested_or_apart h' hlt with hj | hj
    · exact Nat.lt_irrefl j hj
    · exact Nat.lt_asymm hj h'.lt
  exact Nat.le_antisymm (Nat.le_of_not_lt (hnot i' i h' h)) (Nat.le_of_not_lt (hnot i i' h h'))

end Partners

namespace Guarded

theorem exists_depth (h : KindAt tokens i (.opening b)) (hik : i ≤ k) (hbound : k ≤ tokens.length)
    (hk : ∀ j, EventCuts.findClose tokens i = some j → k ≤ j) :
    ∃ depth, opened b (tokens.extract i k) = closed b (tokens.extract i k) + depth ∧
      findClose tokens i = closeFrom b depth k (tokens.drop k) := by
  induction k, hik using Nat.le_induction with
  | base =>
    obtain ⟨opener, hopener, ho⟩ := Option.map_eq_some_iff.1 h
    refine ⟨0, ?_, ?_⟩
    · rw [List.extract, Nat.sub_self]
      rfl
    · rw [findClose, hopener]
      simp only [ho]
  | succ k hik ih =>
    obtain ⟨depth, hcount, hclose⟩ := ih (Nat.le_of_lt hbound) fun j hj => Nat.le_of_lt (hk j hj)
    have hopen := closed_lt_of_findClose h (Nat.lt_succ_of_le hik) hk
    have hdrop : tokens.drop k = tokens[k] :: tokens.drop (k + 1) :=
      List.drop_eq_getElem_cons hbound
    have hlast : tokens.extract k (k + 1) = [tokens[k]] := by
      rw [List.extract, hdrop, Nat.add_sub_cancel_left]
      rfl
    rw [extract_split tokens hik (Nat.le_succ k), hlast, opened_append, closed_append] at hopen ⊢
    refine ⟨depth + opened b [tokens[k]] - closed b [tokens[k]], by omega, ?_⟩
    rw [hclose, hdrop]
    exact closeFrom_cons _ (by omega) (by omega)

end Guarded

/-- The search for a partner finds the first place behind a bracket where the brackets of its kind
cancel out, and only that. A closing bracket stands there and is the partner of no other one, and
pairs of one kind are nested or apart. No guard on the depth fails: at every place behind the
bracket that the search gets to, the depth is what has been opened but not closed, and positive. -/
theorem findClose_matches (tokens : List (Token C)) (i : Nat) :
    (∀ j, findClose tokens i = some j ↔ ∃ b, Partners b tokens i j) ∧
    (findClose tokens i = none ↔ ∀ b j, ¬ Partners b tokens i j) ∧
    (∀ b j, Partners b tokens i j →
      KindAt tokens j (.closing b) ∧
      (∀ k, i < k → k < j → KindAt tokens k (.opening b) →
        ∃ l, findClose tokens k = some l ∧ k < l ∧ l < j) ∧
      (∀ k l, Partners b tokens k l → i < k → l < j ∨ j < k) ∧
      ∀ k, findClose tokens k = some j → k = i) ∧
    Guarded.findClose tokens i = .ok (findClose tokens i) ∧
    ∀ b k, KindAt tokens i (.opening b) → i < k → k ≤ tokens.length →
      (∀ j, findClose tokens i = some j → k ≤ j) →
      ∃ depth, 0 < depth ∧
        opened b (tokens.extract i k) = closed b (tokens.extract i k) + depth ∧
        Guarded.findClose tokens i = Guarded.closeFrom b depth k (tokens.drop k) := by
  refine ⟨fun j => findClose_eq_some_iff_partners, ?_, fun b j h => ⟨h.closing, ?_, ?_, ?_⟩,
    Guarded.findClose_eq tokens i, fun b k h hik hbound hk => ?_⟩
  · rw [Option.eq_none_iff_forall_ne_some]
    simp only [ne_eq, findClose_eq_some_iff_partners, not_exists]
    exact forall_comm
  · intro k hik hkj hk
    obtain ⟨l, hl, hkl, hlj⟩ := h.exists_inner hik hkj hk
    exact ⟨l, hl.findClose_eq, hkl, hlj⟩
  · exact fun k l h' hik => h.nested_or_apart h' hik
  · intro k hk
    obtain ⟨b', h'⟩ := findClose_eq_some_iff_partners.1 hk
    obtain rfl : b' = b := Kind.closing.inj (h'.closing.unique h.closing)
    exact h'.opener_unique h
  · obtain ⟨depth, hcount, hclose⟩ := Guarded.exists_depth h hik.le hbound hk
    have hopen := closed_lt_of_findClose h hik hk
    exact ⟨depth, by omega, hcount, hclose⟩

example : (List.range 8).map (findClose (tokenize Unit "((1)[2)]")) =
    [some 6, some 3, none, none, some 7, none, none, none] := by
  decide +kernel

end EventCuts
