import EventCuts.Proofs.Grammar

/-!
# Nesting

Parentheses counted along the lexemes. In what the grammar derives none is closed that was
not opened and none stays open, so a derivable stretch cannot end inside of a group.
-/

namespace EventCuts

def Kind.rise : Kind → Int
  | .opening .round => 1
  | .closing .round => -1
  | _ => 0

def Lexeme.depth : List Lexeme → Int
  | [] => 0
  | l :: ls => l.kind.rise + depth ls

/-- All parentheses are closed at the end, and none is closed too early. -/
structure Nested (ls : List Lexeme) : Prop where
  whole : Lexeme.depth ls = 0
  front : ∀ p q, ls = p ++ q → 0 ≤ Lexeme.depth p

namespace Lexeme

@[simp] theorem depth_nil : depth [] = 0 := rfl

@[simp] theorem depth_cons (l : Lexeme) (ls : List Lexeme) :
    depth (l :: ls) = l.kind.rise + depth ls := rfl

@[simp] theorem depth_append (ls ms : List Lexeme) : depth (ls ++ ms) = depth ls + depth ms := by
  induction ls with
  | nil => exact (Int.zero_add _).symm
  | cons l ls ih => rw [List.cons_append, depth_cons, depth_cons, ih, Int.add_assoc]

end Lexeme

namespace Nested

open Lexeme (depth)

variable {ls ms : List Lexeme}

theorem single {l : Lexeme} (h : l.kind.rise = 0) : Nested [l] := by
  refine ⟨by simp [h], ?_⟩
  intro p q hpq
  cases p with
  | nil => exact Int.le_refl 0
  | cons d p =>
    obtain ⟨rfl, hp⟩ := List.cons.inj hpq
    obtain ⟨rfl, _⟩ := List.append_eq_nil_iff.1 hp.symm
    simp [h]

theorem append (hl : Nested ls) (hm : Nested ms) : Nested (ls ++ ms) := by
  refine ⟨by rw [Lexeme.depth_append, hl.whole, hm.whole]; rfl, ?_⟩
  intro p q hpq
  rcases List.append_eq_append_iff.1 hpq with ⟨as, rfl, hms⟩ | ⟨bs, hls, _⟩
  · have hpos := hm.front as q hms
    rw [Lexeme.depth_append, hl.whole]
    omega
  · exact hl.front p bs hls

theorem cons {l : Lexeme} (h : l.kind.rise = 0) (hm : Nested ms) : Nested (l :: ms) :=
  (single h).append hm

theorem group (h : Nested ls) :
    Nested (Lexeme.opening .round :: (ls ++ [Lexeme.closing .round])) := by
  have hopen : (Lexeme.opening .round).kind.rise = 1 := rfl
  have hclose : (Lexeme.closing .round).kind.rise = -1 := rfl
  refine ⟨?_, ?_⟩
  · simp only [Lexeme.depth_cons, Lexeme.depth_append, Lexeme.depth_nil, h.whole, hopen, hclose]
    rfl
  · intro p q hpq
    cases p with
    | nil => exact Int.le_refl 0
    | cons d p =>
      obtain ⟨rfl, hp⟩ := List.cons.inj hpq
      rw [Lexeme.depth_cons, hopen]
      rcases List.append_eq_append_iff.1 hp with ⟨as, rfl, has⟩ | ⟨bs, hls, _⟩
      · cases as with
        | nil =>
          rw [List.append_nil, h.whole]
          decide
        | cons a as =>
          obtain ⟨rfl, hnil⟩ := List.cons.inj has
          obtain ⟨rfl, _⟩ := List.append_eq_nil_iff.1 hnil.symm
          rw [Lexeme.depth_append, h.whole, Lexeme.depth_cons, hclose]
          decide
      · have hpos := h.front p bs hls
        omega

theorem closing_unique {as bs : List Lexeme} (hl : Nested ls) (hm : Nested ms)
    (h : ls ++ Lexeme.closing .round :: as = ms ++ Lexeme.closing .round :: bs) :
    ls = ms ∧ as = bs := by
  have hearly : ∀ {ls ms as bs : List Lexeme} (d : Lexeme) (more : List Lexeme), Nested ls →
      Nested ms → ms = ls ++ d :: more → Lexeme.closing .round :: as =
        d :: more ++ Lexeme.closing .round :: bs → False := by
    intro ls ms as bs d more hl hm hms hd
    obtain ⟨rfl, _⟩ := List.cons.inj hd
    have hpos := hm.front (ls ++ [Lexeme.closing .round]) more (by rw [hms]; simp)
    rw [Lexeme.depth_append, hl.whole] at hpos
    exact absurd hpos (by decide)
  rcases List.append_eq_append_iff.1 h with ⟨more, hms, hd⟩ | ⟨more, hls, hd⟩
  · cases more with
    | nil =>
      rw [List.append_nil] at hms
      exact ⟨hms.symm, (List.cons.inj hd).2⟩
    | cons d more => exact (hearly d more hl hm hms hd).elim
  · cases more with
    | nil =>
      rw [List.append_nil] at hls
      exact ⟨hls, (List.cons.inj hd).2.symm⟩
    | cons d more => exact (hearly d more hm hl hls hd).elim

end Nested

theorem PrefixOp.rise_lexeme (op : PrefixOp) : op.lexeme.kind.rise = 0 := by
  cases op <;> rfl

theorem BinaryOp.rise_lexeme (op : BinaryOp) : op.lexeme.kind.rise = 0 := by
  cases op <;> rfl

theorem Derives.nested {C : Type} {schema : Schema C} {level : Level} {t : Term}
    {ls : List Lexeme} (h : Derives schema level t ls) : Nested ls := by
  induction h with
  | number text => exact .single rfl
  | name he => exact .single rfl
  | group _ ih => exact ih.group
  | entry _ _ _ _ ihv ihi => exact ihv.append (.cons rfl (ihi.append (.single rfl)))
  | prefixed op _ ih => exact .cons op.rise_lexeme ih
  | binary op _ _ _ ihl ihr => exact ihl.append (.cons op.rise_lexeme ihr)
  | loosen level _ ih => exact ih

end EventCuts
