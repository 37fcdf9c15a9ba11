import EventCuts.Expr.Basic
import EventCuts.Proofs.Floats

/-!
# Which entry an index selects

An index is taken by its exact value and truncated toward zero. The values that select an entry
lie between minus one and the number of entries, both excluded, except that nothing selects an
entry where there is none.
-/

namespace EventCuts

open Exact (ofFloat value? stepsInOne stepsInOne_pos)

def towardZero (q : ℚ) : ℤ := if 0 ≤ q then ⌊q⌋ else ⌈q⌉

def Between (low high : ℚ) (x : Float) : Prop := ∃ q, value? x = some q ∧ low < q ∧ q < high

/-- The index lies in the range in which a vector with these entries has an entry. -/
def Selects (entries : List Float) (index : Float) : Prop :=
  entries ≠ [] ∧ Between (-1) entries.length index

section Truncation

variable {q : ℚ} {n steps : Nat}

theorem towardZero_of_nonneg (h : 0 ≤ q) : towardZero q = ⌊q⌋ := if_pos h

theorem towardZero_of_nonpos (hlow : -1 < q) (hq : q ≤ 0) : towardZero q = 0 := by
  rcases hq.lt_or_eq with hneg | rfl
  · rw [towardZero, if_neg (not_le.2 hneg)]
    exact Int.ceil_eq_zero_iff.2 ⟨hlow, hq⟩
  · exact (if_pos le_rfl).trans Int.floor_zero

theorem towardZero_nonneg (hlow : -1 < q) : 0 ≤ towardZero q := by
  rcases le_total 0 q with hq | hq
  · rw [towardZero_of_nonneg hq]
    exact Int.floor_nonneg.2 hq
  · rw [towardZero_of_nonpos hlow hq]

theorem towardZero_lt_iff (hlow : -1 < q) : towardZero q < n ↔ n ≠ 0 ∧ q < n := by
  -- Below zero the whole part is as far from any bound as zero is.
  rcases le_or_gt 0 q with hq | hq
  · rw [towardZero_of_nonneg hq, Int.floor_lt, Int.cast_natCast, iff_and_self]
    rintro hlt rfl
    rw [Nat.cast_zero] at hlt
    exact absurd hlt (not_lt.2 hq)
  · rw [towardZero_of_nonpos hlow hq.le, Int.natCast_pos, Nat.pos_iff_ne_zero, iff_self_and]
    exact fun _ => hq.trans_le (Nat.cast_nonneg n)

theorem floor_steps (steps : Nat) : ⌊(steps : ℚ) / stepsInOne⌋ = Exact.whole steps := by
  have hnonneg : (0 : ℚ) ≤ steps / stepsInOne := by positivity
  rw [← Int.natCast_floor_eq_floor hnonneg, Nat.floor_div_eq_div]
  rfl

theorem whole_eq_zero_iff : Exact.whole steps = 0 ↔ (steps : ℚ) / stepsInOne < 1 := by
  have hone : (0 : ℚ) < stepsInOne := Nat.cast_pos.2 stepsInOne_pos
  rw [div_lt_one hone, Nat.cast_lt, Exact.whole, Nat.div_eq_zero_iff_lt stepsInOne_pos]

end Truncation

section Positions

variable {name : String} {entries : List Float} {index y : Float}

theorem position?_eq_some_iff (index : Float) (k : Nat) :
    position? index = some k ↔ ∃ q, value? index = some q ∧ -1 < q ∧ towardZero q = k := by
  unfold position?
  cases hx : ofFloat index with
  | nan =>
    rw [(Exact.value?_eq_none_iff index).2 fun _ _ => hx.trans_ne nofun]
    exact ⟨nofun, nofun⟩
  | infinite negative =>
    rw [(Exact.value?_eq_none_iff index).2 fun _ _ => hx.trans_ne nofun]
    exact ⟨nofun, nofun⟩
  | finite negative steps =>
    have hnonneg : (0 : ℚ) ≤ steps / stepsInOne := by positivity
    cases negative with
    | false =>
      have hlow : (-1 : ℚ) < steps / stepsInOne := by linarith
      simp only [Exact.value?_of_positive hx, Option.some.injEq, exists_eq_left', hlow, true_and,
        towardZero_of_nonneg hnonneg, floor_steps, Nat.cast_inj]
    | true =>
      simp only [Exact.value?_of_negative hx, Option.some.injEq, exists_eq_left', neg_lt_neg_iff,
        ← whole_eq_zero_iff]
      split
      · next hwhole =>
        have hlow : (-1 : ℚ) < -(steps / stepsInOne) :=
          neg_lt_neg (whole_eq_zero_iff.1 hwhole)
        rw [towardZero_of_nonpos hlow (neg_nonpos.2 hnonneg)]
        simp only [Option.some.injEq, hwhole, true_and]
        exact ⟨fun h => congrArg Nat.cast h, fun h => Int.ofNat.inj h⟩
      · next hwhole => exact ⟨nofun, fun h => absurd h.1 hwhole⟩

theorem selects_iff : Selects entries index ↔ ∃ k < entries.length, position? index = some k := by
  constructor
  · rintro ⟨hne, q, hq, hlow, hhigh⟩
    obtain ⟨k, hk⟩ := Int.eq_ofNat_of_zero_le (towardZero_nonneg hlow)
    have hlt : towardZero q < entries.length :=
      (towardZero_lt_iff hlow).2 ⟨fun hlength => hne (List.eq_nil_of_length_eq_zero hlength), hhigh⟩
    rw [hk, Int.ofNat_lt] at hlt
    exact ⟨k, hlt, (position?_eq_some_iff index k).2 ⟨q, hq, hlow, hk⟩⟩
  · rintro ⟨k, hlt, hposition⟩
    obtain ⟨q, hq, hlow, hk⟩ := (position?_eq_some_iff index k).1 hposition
    obtain ⟨_, hhigh⟩ := (towardZero_lt_iff hlow).1 (hk ▸ Int.ofNat_lt.2 hlt)
    exact ⟨List.ne_nil_of_length_pos (Nat.zero_lt_of_lt hlt), q, hq, hlow, hhigh⟩

theorem entryAt_of_selects (h : Selects entries index) (name : String) :
    ∃ q k y, value? index = some q ∧ towardZero q = (k : Nat) ∧ entries[k]? = some y ∧
      entryAt name entries index = .ok y := by
  obtain ⟨k, hlt, hposition⟩ := selects_iff.1 h
  obtain ⟨q, hq, _, hk⟩ := (position?_eq_some_iff index k).1 hposition
  have hentry : entries[k]? = some entries[k] := List.getElem?_eq_getElem hlt
  refine ⟨q, k, entries[k], hq, hk, hentry, ?_⟩
  rw [entryAt, hposition, Option.bind_some, hentry]

theorem entryAt_of_not_selects (h : ¬ Selects entries index) (name : String) :
    entryAt name entries index = .error (.indexOutOfRange name index entries.length) := by
  unfold entryAt
  split
  · next y hy =>
    obtain ⟨k, hposition, hentry⟩ := Option.bind_eq_some_iff.1 hy
    obtain ⟨hlt, _⟩ := List.getElem?_eq_some_iff.1 hentry
    exact absurd (selects_iff.2 ⟨k, hlt, hposition⟩) h
  · rfl

theorem entryAt_nil (name : String) (index : Float) :
    entryAt name [] index = .error (.indexOutOfRange name index 0) :=
  entryAt_of_not_selects (fun h => h.1 rfl) name

end Positions

namespace Expr

variable {C : Type}

theorem exists_eval_subscript (v i : String) (f : C → Eval (List Float)) (g : C → Eval Float) :
    ∃ e, (vector v f).subscript (scalar i g) = some e ∧ ∀ c,
      e.eval c = ((f c).bind fun entries => (g c).bind (entryAt v entries)).map .scalar :=
  ⟨_, rfl, fun _ => rfl⟩

/-- A subscript takes the entry at the truncated index if the vector has an entry and the index
lies in its range, and otherwise reports the index as it was. Behind a vector that fails the index
does not matter. -/
theorem eval_subscript (v i : String) (f : C → Eval (List Float)) (g : C → Eval Float) :
    ∃ e, (vector v f).subscript (scalar i g) = some e ∧ ∀ c,
      (∀ x, f c = .error x → e.eval c = .error x) ∧
      (∀ entries x, f c = .ok entries → g c = .error x → e.eval c = .error x) ∧
      ∀ entries index, f c = .ok entries → g c = .ok index →
        ((∃ y, e.eval c = .ok (.scalar y)) ↔ Selects entries index) ∧
        (Selects entries index →
          ∃ q k y, value? index = some q ∧ towardZero q = (k : Nat) ∧ entries[k]? = some y ∧
            e.eval c = .ok (.scalar y)) ∧
        (¬ Selects entries index →
          e.eval c = .error (.indexOutOfRange v index entries.length)) := by
  obtain ⟨e, he, heval⟩ := exists_eval_subscript v i f g
  refine ⟨e, he, fun c => ⟨fun x hf => ?_, fun entries x hf hg => ?_,
    fun entries index hf hg => ?_⟩⟩
  · rw [heval, hf]
    rfl
  · rw [heval, hf, hg]
    rfl
  · have hentry : e.eval c = (entryAt v entries index).map .scalar := by
      rw [heval, hf, hg]
      rfl
    refine ⟨⟨?_, ?_⟩, ?_, ?_⟩
    · rintro ⟨y, hy⟩
      by_contra hout
      rw [hentry, entryAt_of_not_selects hout] at hy
      cases hy
    · intro hin
      obtain ⟨_, _, y, _, _, _, hat⟩ := entryAt_of_selects hin v
      exact ⟨y, hentry.trans (congrArg _ hat)⟩
    · intro hin
      obtain ⟨q, k, y, hq, hk, hy, hat⟩ := entryAt_of_selects hin v
      exact ⟨q, k, y, hq, hk, hy, hentry.trans (congrArg _ hat)⟩
    · intro hout
      exact hentry.trans (congrArg _ (entryAt_of_not_selects hout v))

theorem value?_neg_half : value? (-0.5) = some (-1 / 2) := by
  have hunpack : (-0.5 : Float).toModel.unpack =
      .finite .negative (Nat.pow 2 52) (-53) (by decide) := rfl
  have hmantissa : Float.Model.UnpackedFloat.Sign.negative.apply (Nat.pow 2 52) = -2 ^ 52 := rfl
  rw [value?, hunpack]
  simp only [hmantissa]
  norm_num

theorem exists_eval_subscript_nil (v i : String) (index : Float) :
    ∃ e, (vector v fun _ : C => .ok []).subscript (scalar i fun _ => .ok index) = some e ∧
      ∀ c, e.eval c = .error (.indexOutOfRange v index 0) := by
  obtain ⟨e, he, heval⟩ := exists_eval_subscript v i (fun _ : C => .ok []) fun _ => .ok index
  exact ⟨e, he, fun c => (heval c).trans (congrArg _ (entryAt_nil v index))⟩

theorem subscript_of_no_entries :
    ∃ e, (vector "v" fun _ : Unit => .ok []).subscript (scalar "-0.5" fun _ => .ok (-0.5)) =
        some e ∧
      Between (-1) ([] : List Float).length (-0.5) ∧
      e.eval () = .error (.indexOutOfRange "v" (-0.5) 0) ∧
      ¬ ((∃ y, e.eval () = .ok (.scalar y)) ↔ Between (-1) ([] : List Float).length (-0.5)) := by
  have hbetween : Between (-1) ([] : List Float).length (-0.5) :=
    ⟨-1 / 2, value?_neg_half, by norm_num, by norm_num⟩
  obtain ⟨e, he, hempty⟩ := exists_eval_subscript_nil (C := Unit) "v" "-0.5" (-0.5)
  refine ⟨e, he, hbetween, hempty (), fun hiff => ?_⟩
  obtain ⟨y, hy⟩ := hiff.2 hbetween
  rw [hempty] at hy
  cases hy

end Expr

end EventCuts
