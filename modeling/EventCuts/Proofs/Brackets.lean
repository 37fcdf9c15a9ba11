import EventCuts.Compile
import Mathlib.Data.List.Infix

/-!
# Pairs of brackets

The bracket that closes another one, told by counting: in between as many brackets of the kind are
closed as are opened, and none is closed before it is opened. Brackets of the other kind do not
matter.
-/

namespace EventCuts

variable {C : Type} {b : Bracket} {depth n : Nat} {t opener closer : Token C}
  {tokens inside rest back : List (Token C)}

def opened (b : Bracket) (tokens : List (Token C)) : Nat :=
  tokens.countP fun t => t.kind = .opening b

def closed (b : Bracket) (tokens : List (Token C)) : Nat :=
  tokens.countP fun t => t.kind = .closing b

section Counts

theorem opened_append (b : Bracket) (front back : List (Token C)) :
    opened b (front ++ back) = opened b front + opened b back :=
  List.countP_append

theorem closed_append (b : Bracket) (front back : List (Token C)) :
    closed b (front ++ back) = closed b front + closed b back :=
  List.countP_append

theorem opened_cons (b : Bracket) (t : Token C) (rest : List (Token C)) :
    opened b (t :: rest) = opened b [t] + opened b rest :=
  opened_append b [t] rest

theorem closed_cons (b : Bracket) (t : Token C) (rest : List (Token C)) :
    closed b (t :: rest) = closed b [t] + closed b rest :=
  closed_append b [t] rest

theorem counts_of_opening (ht : t.kind = .opening b) : opened b [t] = 1 ∧ closed b [t] = 0 := by
  simp [opened, closed, ht]

theorem counts_of_closing (ht : t.kind = .closing b) : opened b [t] = 0 ∧ closed b [t] = 1 := by
  simp [opened, closed, ht]

theorem counts_of_other (ho : t.kind ≠ .opening b) (hc : t.kind ≠ .closing b) :
    opened b [t] = 0 ∧ closed b [t] = 0 := by
  simp [opened, closed, ho, hc]

end Counts

structure Remains (b : Bracket) (depth : Nat) (tokens : List (Token C)) : Prop where
  whole : opened b tokens + depth = closed b tokens + 1
  front : ∀ p, p <+: tokens → closed b p < opened b p + depth

theorem Remains.pos (h : Remains b depth tokens) : 0 < depth := by
  simpa [opened, closed] using h.front [] List.nil_prefix

theorem remains_nil_iff : Remains b depth ([] : List (Token C)) ↔ depth = 1 := by
  constructor
  · intro h
    simpa [opened, closed] using h.whole
  · rintro rfl
    refine ⟨by simp [opened, closed], fun p hp => ?_⟩
    obtain rfl := List.prefix_nil.1 hp
    exact Nat.lt_add_one _

theorem remains_cons_iff {next : Nat} (h : opened b [t] + depth = closed b [t] + next)
    (hd : 0 < depth) : Remains b depth (t :: inside) ↔ Remains b next inside := by
  constructor
  · intro hr
    refine ⟨?_, fun p hp => ?_⟩
    · have hwhole := hr.whole
      rw [opened_cons, closed_cons] at hwhole
      omega
    · have hfront := hr.front (t :: p) ((List.prefix_cons_inj t).2 hp)
      rw [opened_cons, closed_cons] at hfront
      omega
  · intro hr
    refine ⟨?_, fun p hp => ?_⟩
    · have hwhole := hr.whole
      rw [opened_cons, closed_cons]
      omega
    · obtain rfl | ⟨p, rfl, hp'⟩ := List.prefix_cons_iff.1 hp
      · simpa [opened, closed] using hd
      · have hfront := hr.front p hp'
        rw [opened_cons, closed_cons]
        omega

theorem closeOffset_cons (t : Token C) (rest : List (Token C)) (hd : 0 < depth) :
    (∃ next, 0 < next ∧ opened b [t] + depth = closed b [t] + next ∧
        closeOffset b depth (t :: rest) = (closeOffset b next rest).map (· + 1)) ∨
      depth = 1 ∧ t.kind = .closing b ∧ closeOffset b depth (t :: rest) = some 0 := by
  by_cases ho : t.kind = .opening b
  · obtain ⟨hopened, hclosed⟩ := counts_of_opening ho
    exact .inl ⟨depth + 1, Nat.succ_pos depth, by omega, by simp [closeOffset, ho]⟩
  by_cases hc : t.kind = .closing b
  · obtain ⟨hopened, hclosed⟩ := counts_of_closing hc
    by_cases hone : depth ≤ 1
    · exact .inr ⟨by omega, hc, by simp [closeOffset, hc, hone]⟩
    · exact .inl ⟨depth - 1, by omega, by omega, by simp [closeOffset, hc, hone]⟩
  · obtain ⟨hopened, hclosed⟩ := counts_of_other ho hc
    exact .inl ⟨depth, hd, by omega, by simp [closeOffset, ho, hc]⟩

theorem closeOffset_of_remains (hc : closer.kind = .closing b) (h : Remains b depth inside)
    (back : List (Token C)) :
    closeOffset b depth (inside ++ closer :: back) = some inside.length := by
  induction inside generalizing depth with
  | nil =>
    obtain rfl := remains_nil_iff.1 h
    simp [closeOffset, hc]
  | cons t inside ih =>
    obtain ⟨next, -, hcount, hoffset⟩ | ⟨rfl, ht, -⟩ :=
      closeOffset_cons t (inside ++ closer :: back) h.pos
    · rw [List.cons_append, hoffset, ih ((remains_cons_iff hcount h.pos).1 h)]
      rfl
    · obtain ⟨hopened, hclosed⟩ := counts_of_closing ht
      have hfront := h.front [t] ⟨inside, rfl⟩
      omega

theorem remains_of_closeOffset (hd : 0 < depth) (h : closeOffset b depth tokens = some n) :
    ∃ inside closer back, tokens = inside ++ closer :: back ∧ inside.length = n ∧
      closer.kind = .closing b ∧ Remains b depth inside := by
  induction tokens generalizing depth n with
  | nil => cases h
  | cons t rest ih =>
    obtain ⟨next, hnext, hcount, hoffset⟩ | ⟨rfl, hc, hoffset⟩ := closeOffset_cons t rest hd
    · rw [hoffset] at h
      obtain ⟨m, hm, rfl⟩ := Option.map_eq_some_iff.1 h
      obtain ⟨inside, closer, back, rfl, rfl, hc, hr⟩ := ih hnext hm
      exact ⟨t :: inside, closer, back, rfl, rfl, hc, (remains_cons_iff hcount hd).2 hr⟩
    · rw [hoffset] at h
      cases h
      exact ⟨[], t, rest, rfl, rfl, hc, remains_nil_iff.2 rfl⟩

theorem closed_lt_of_closeOffset {m : Nat} (hd : 0 < depth)
    (hm : ∀ n, closeOffset b depth tokens = some n → m ≤ n) :
    closed b (tokens.take m) < opened b (tokens.take m) + depth := by
  induction tokens generalizing depth m with
  | nil => simpa [opened, closed] using hd
  | cons t rest ih =>
    cases m with
    | zero => simpa [opened, closed] using hd
    | succ m =>
      obtain ⟨next, hnext, hcount, hoffset⟩ | ⟨-, -, hoffset⟩ := closeOffset_cons t rest hd
      · have hfront := ih (m := m) hnext fun n hn =>
          Nat.le_of_succ_le_succ (hm (n + 1) (by rw [hoffset, hn]; rfl))
        rw [List.take_succ_cons, opened_cons, closed_cons]
        omega
      · exact absurd (hm 0 hoffset) (Nat.not_succ_le_zero m)

/-- The bracket in front is closed by the one behind. -/
def Encloses (opener : Token C) (inside : List (Token C)) (closer : Token C) : Prop :=
  ∃ b, opener.kind = .opening b ∧ closer.kind = .closing b ∧
    closed b inside = opened b inside ∧ ∀ p, p <+: inside → closed b p ≤ opened b p

theorem Encloses.exists_opening (h : Encloses opener inside closer) :
    ∃ b, opener.kind = .opening b := by
  obtain ⟨b, ho, _⟩ := h
  exact ⟨b, ho⟩

theorem Encloses.exists_closing (h : Encloses opener inside closer) :
    ∃ b, closer.kind = .closing b := by
  obtain ⟨b, _, hc, _⟩ := h
  exact ⟨b, hc⟩

theorem not_encloses_of_closing (h : t.kind = .closing b) : ¬ Encloses t inside closer := by
  rintro ⟨_, ho, _⟩
  rw [h] at ho
  cases ho

theorem remains_one_iff :
    Remains b 1 inside ↔
      closed b inside = opened b inside ∧ ∀ p, p <+: inside → closed b p ≤ opened b p := by
  constructor
  · intro ⟨hwhole, hfront⟩
    exact ⟨by omega, fun p hp => Nat.le_of_lt_succ (hfront p hp)⟩
  · intro ⟨hwhole, hfront⟩
    exact ⟨by omega, fun p hp => Nat.lt_succ_of_le (hfront p hp)⟩

theorem groupLength_eq_some_iff :
    groupLength t rest = some n ↔ ∃ inside closer back, rest = inside ++ closer :: back ∧
      inside.length = n ∧ Encloses t inside closer := by
  constructor
  · intro h
    unfold groupLength at h
    split at h
    · next b ht =>
      obtain ⟨inside, closer, back, hrest, hlen, hc, hr⟩ := remains_of_closeOffset Nat.one_pos h
      exact ⟨inside, closer, back, hrest, hlen, b, ht, hc, remains_one_iff.1 hr⟩
    · cases h
  · rintro ⟨inside, closer, back, rfl, rfl, b, ht, hc, hr⟩
    rw [groupLength, ht]
    exact closeOffset_of_remains hc (remains_one_iff.2 hr) back

def Lone (t : Token C) (rest : List (Token C)) : Prop :=
  ∀ inside closer back, rest = inside ++ closer :: back → Encloses t inside closer → inside = []

theorem lone_of_groupLength (h : ∀ n, groupLength t rest ≠ some (n + 1)) : Lone t rest := by
  intro inside closer back hrest henc
  cases inside with
  | nil => rfl
  | cons u inside =>
    exact absurd (groupLength_eq_some_iff.2 ⟨_, closer, back, hrest, rfl, henc⟩) (h _)

end EventCuts
