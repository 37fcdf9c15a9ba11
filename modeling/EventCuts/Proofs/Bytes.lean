import EventCuts.Proofs.Coherence
import EventCuts.Proofs.Lexing

/-!
# Texts by their bytes

Offsets into a text count the bytes of its UTF-8 form, and a slice exists only between two
characters within the text. Lexemes are cut here by such slices, and a slice that does not exist
is a fault. None occurs, and the lexemes are those that are cut by characters.
-/

namespace EventCuts

/-- What a partial operation is used outside of. -/
inductive Fault where
  | slice
  | emptyLexeme
  | resolvedLexeme
  | depth
  | index
  | length
  | operator
  | operands
  | reclassified
  | group
deriving DecidableEq, Repr

inductive Stop where
  | fault (f : Fault)
  | refused (e : ParseError)
deriving DecidableEq, Repr

abbrev Guarded (α : Type) := Except Stop α

namespace Guarded

variable {α : Type}

def ofOption (f : Fault) : Option α → Guarded α
  | some a => .ok a
  | none => .error (.fault f)

def ofExcept (x : Except ParseError α) : Guarded α := x.mapError .refused

end Guarded

namespace Bytes

def size (text : List Char) : Nat := (String.ofList text).utf8ByteSize

@[simp] theorem size_nil : size [] = 0 := rfl

theorem size_append (front back : List Char) :
    size (front ++ back) = size front + size back := by
  rw [size, String.ofList_append, String.utf8ByteSize_append, size, size]

theorem size_cons (c : Char) (rest : List Char) : size (c :: rest) = c.utf8Size + size rest := by
  have hone : size [c] = c.utf8Size := by
    rw [size, ← String.singleton_eq_ofList, String.utf8ByteSize_singleton]
  rw [← List.singleton_append, size_append, hone]

def split : Nat → List Char → Option (List Char × List Char)
  | 0, text => some ([], text)
  | _ + 1, [] => none
  | n + 1, c :: rest =>
    if c.utf8Size ≤ n + 1 then
      (split (n + 1 - c.utf8Size) rest).map fun (front, back) => (c :: front, back)
    else none

theorem split_append (front back : List Char) :
    split (size front) (front ++ back) = some (front, back) := by
  induction front with
  | nil => rw [size_nil, List.nil_append, split]
  | cons c front ih =>
    obtain ⟨n, hn⟩ : ∃ n, size (c :: front) = n + 1 :=
      Nat.exists_eq_succ_of_ne_zero (by have := c.utf8Size_pos; rw [size_cons]; omega)
    have hle : c.utf8Size ≤ n + 1 := by
      rw [← hn, size_cons]
      exact Nat.le_add_right _ _
    have hrest : n + 1 - c.utf8Size = size front := by
      rw [← hn, size_cons, Nat.add_sub_cancel_left]
    rw [hn, List.cons_append, split, if_pos hle, hrest, ih, Option.map_some]

theorem split_inv {n : Nat} {text front back : List Char} (h : split n text = some (front, back)) :
    text = front ++ back ∧ size front = n := by
  fun_induction split n text generalizing front back with
  | case1 text =>
    cases h
    exact ⟨rfl, rfl⟩
  | case2 => cases h
  | case3 n c rest hle ih =>
    obtain ⟨⟨inside, behind⟩, hs, heq⟩ := Option.map_eq_some_iff.1 h
    cases heq
    obtain ⟨htext, hsize⟩ := ih hs
    exact ⟨congrArg (c :: ·) htext, by rw [size_cons, hsize, Nat.add_sub_cancel' hle]⟩
  | case4 => cases h

def slice (text : List Char) (start stop : Nat) : Guarded (List Char) :=
  Guarded.ofOption .slice <|
    if start ≤ stop then
      (split start text).bind fun (_, behind) => (split (stop - start) behind).map Prod.fst
    else none

theorem slice_append (front inside back : List Char) :
    slice (front ++ (inside ++ back)) (size front) (size front + size inside) = .ok inside := by
  simp only [slice, Nat.le_add_right, if_true, split_append, Option.bind_some,
    Nat.add_sub_cancel_left, Option.map_some, Guarded.ofOption]

def behind (text : List Char) (start : Nat) : Guarded (List Char) :=
  slice text start (size text)

theorem behind_append (front back : List Char) :
    behind (front ++ back) (size front) = .ok back := by
  have h := slice_append front back []
  rwa [List.append_nil, ← size_append] at h

def chars (text : List Char) : List Char :=
  text.flatMap fun c => (String.utf8EncodeChar c).map fun b => Char.ofNat b.toNat

theorem utf8Size_of_le {c : Char} (h : c ≤ '~') : c.utf8Size = 1 :=
  Char.utf8Size_eq_one_iff.2 (UInt32.le_trans h (by decide))

theorem utf8Size_of_uses {c : Char} (h : Literal.uses c = true) : c.utf8Size = 1 :=
  utf8Size_of_le (Literal.visible_of_uses h).2

theorem utf8Size_ofNat {n : Nat} (hn : n < 256) : (Char.ofNat n).utf8Size = 1 ↔ n ≤ 127 := by
  have hvalid : n.isValidChar := .inl (by omega)
  have hval : (Char.ofNat n).val.toNat = n := by
    rw [Char.ofNat, dif_pos hvalid]
    rfl
  rw [Char.utf8Size_eq_one_iff, UInt32.le_iff_toNat_le, hval]
  rfl

theorem chars_cons_large {c : Char} (h : c.utf8Size ≠ 1) (rest : List Char) :
    ∃ d tail, chars (c :: rest) = d :: tail ∧ d.utf8Size ≠ 1 := by
  have hlarge : ¬ c.val.toNat ≤ 127 := by
    rwa [ne_eq, Char.utf8Size_eq_one_iff, UInt32.le_iff_toNat_le] at h
  have hbyte : ∀ n, 128 ≤ n → n < 256 → (Char.ofNat (UInt8.ofNat n).toNat).utf8Size ≠ 1 := by
    intro n hn hlt
    rw [UInt8.toNat_ofNat_of_lt' (by simpa using hlt), ne_eq, utf8Size_ofNat hlt]
    omega
  simp only [chars, List.flatMap_cons, String.utf8EncodeChar, hlarge, if_false]
  split
  · exact ⟨_, _, rfl, hbyte _ (by omega) (by omega)⟩
  · split
    · exact ⟨_, _, rfl, hbyte _ (by omega) (by omega)⟩
    · exact ⟨_, _, rfl, hbyte _ (by omega) (by omega)⟩

theorem chars_cons_small {c : Char} (h : c.utf8Size = 1) (rest : List Char) :
    chars (c :: rest) = c :: chars rest := by
  have hsmall : c.val.toNat ≤ 127 := by
    rwa [Char.utf8Size_eq_one_iff, UInt32.le_iff_toNat_le] at h
  have hbyte : c.val.toUInt8.toNat = c.toNat := by
    rw [UInt32.toNat_toUInt8]
    exact Nat.mod_eq_of_lt (by omega)
  rw [chars, List.flatMap_cons, String.utf8EncodeChar_eq_singleton h, List.map_cons, hbyte,
    Char.ofNat_toNat]
  rfl

theorem prefix_chars_iff {p text : List Char} (h : ∀ c ∈ p, c.utf8Size = 1) :
    p <+: chars text ↔ p <+: text := by
  induction p generalizing text with
  | nil => exact ⟨fun _ => List.nil_prefix, fun _ => List.nil_prefix⟩
  | cons a p ih =>
    obtain ⟨ha, hp⟩ := List.forall_mem_cons.1 h
    cases text with
    | nil => exact Iff.rfl
    | cons c rest =>
      by_cases hc : c.utf8Size = 1
      · rw [chars_cons_small hc, List.cons_prefix_cons, List.cons_prefix_cons, ih hp]
      · obtain ⟨d, tail, hd, hlarge⟩ := chars_cons_large hc rest
        rw [hd, List.cons_prefix_cons, List.cons_prefix_cons]
        constructor
        · rintro ⟨rfl, _⟩
          exact absurd ha hlarge
        · rintro ⟨rfl, _⟩
          exact absurd ha hc

theorem size_of_small {text : List Char} (h : ∀ c ∈ text, c.utf8Size = 1) :
    size text = text.length := by
  induction text with
  | nil => rfl
  | cons c rest ih =>
    obtain ⟨hc, hrest⟩ := List.forall_mem_cons.1 h
    rw [size_cons, hc, ih hrest, List.length_cons, Nat.add_comm]

theorem length_literal_chars (text : List Char) :
    Literal.length (chars text) = Literal.length text := by
  have hle : ∀ {a b : List Char}, (∀ p, Literal.IsLiteral p → p <+: a → p <+: b) →
      Literal.length a ≤ Literal.length b := by
    intro a b h
    rcases Nat.eq_zero_or_pos (Literal.length a) with hz | hpos
    · exact hz ▸ Nat.zero_le _
    · obtain ⟨⟨p, hp, hfront, hlen⟩, _⟩ := (Literal.length_longest a).1 hpos
      exact hlen ▸ (Literal.length_longest b).2 p hp (h p hp hfront)
  have hsmall : ∀ p, Literal.IsLiteral p → (p <+: chars text ↔ p <+: text) :=
    fun p hp => prefix_chars_iff fun c hc => utf8Size_of_uses (hp.uses c hc)
  exact Nat.le_antisymm (hle fun p hp => (hsmall p hp).1) (hle fun p hp => (hsmall p hp).2)

theorem utf8Size_of_digraph {c d : Char} {kind : Kind} (h : Kind.ofDigraph c d = some kind) :
    c.utf8Size = 1 ∧ d.utf8Size = 1 := by
  unfold Kind.ofDigraph at h
  split at h
  · decide
  · decide
  · decide
  · decide
  · decide
  · decide
  · cases h

theorem utf8Size_of_punctuation {c : Char} {kind : Kind} (h : Kind.ofPunctuation c = some kind) :
    c.utf8Size = 1 := by
  unfold Kind.ofPunctuation at h
  split at h <;> first | decide | cases h

def digraph? : List Char → Option Kind
  | [c, d] => Kind.ofDigraph c d
  | _ => none

theorem digraph_probe (c : Char) (rest : List Char) :
    ((split 2 (c :: rest)).bind fun (front, _) => digraph? front) = Lexeme.digraphAt c rest := by
  ext kind
  rw [Option.bind_eq_some_iff]
  constructor
  · rintro ⟨⟨front, back⟩, hs, hd⟩
    obtain ⟨htext, _⟩ := split_inv hs
    obtain ⟨a, b, rfl⟩ : ∃ a b, front = [a, b] := by
      change digraph? front = some kind at hd
      unfold digraph? at hd
      split at hd
      · exact ⟨_, _, rfl⟩
      · cases hd
    cases htext
    exact hd
  · intro hd
    cases rest with
    | nil => cases hd
    | cons d rest =>
      obtain ⟨hc, hd'⟩ := utf8Size_of_digraph hd
      have hsize : size [c, d] = 2 := size_of_small (by simp [hc, hd'])
      exact ⟨([c, d], rest), hsize ▸ split_append [c, d] rest, hd⟩

def scan (c : Char) (rest : List Char) : Kind × Nat :=
  match (split 2 (c :: rest)).bind fun (front, _) => digraph? front with
  | some kind => (kind, 2)
  | none =>
    match Kind.ofPunctuation c with
    | some kind => (kind, 1)
    | none =>
      if Lexeme.isNameStart c then (.identifier, size ((c :: rest).takeWhile Lexeme.isNameChar))
      else if Literal.isDigit c || c == '.' then
        match Literal.length (chars (c :: rest)) with
        | n + 1 => (.number, n + 1)
        | 0 => (.unknown, c.utf8Size)
      else (.unknown, c.utf8Size)

theorem take_run (accepts : Char → Bool) (text : List Char) :
    text.take (Literal.run accepts text) = text.takeWhile accepts :=
  (List.prefix_iff_eq_take.1 (List.takeWhile_prefix accepts)).symm

theorem length_literal_eq_zero {c : Char} (h : ¬ (Literal.isDigit c || c == '.') = true)
    (rest : List Char) : Literal.length (c :: rest) = 0 := by
  simp only [Bool.or_eq_true, beq_iff_eq, not_or, Bool.not_eq_true] at h
  have hhex : Literal.hexLength (c :: rest) = none := by
    unfold Literal.hexLength
    split
    · next heq =>
      cases heq
      exact absurd h.1 (by decide)
    · rfl
  have hmantissa : Literal.mantissaLength Literal.isDigit ([] ++ c :: rest) = _ :=
    Literal.mantissaLength_run nofun (by rintro _ ⟨⟩; exact h.1) (by rintro ⟨⟩; exact h.2 rfl)
  rw [List.nil_append, List.length_nil, if_pos rfl] at hmantissa
  rw [Literal.length, hhex, Option.getD_none, Literal.decimalLength, hmantissa]

theorem scan_eq (c : Char) (rest : List Char) :
    scan c rest = ((Lexeme.scan c rest).1, size (c :: rest.take (Lexeme.scan c rest).2)) := by
  have hone : ∀ {c : Char}, c.utf8Size = 1 → size [c] = 1 := fun hc => by rw [size_cons, hc]; rfl
  rw [scan, Lexeme.scan, digraph_probe, length_literal_chars]
  cases hd : Lexeme.digraphAt c rest with
  | some kind =>
    cases rest with
    | nil => cases hd
    | cons d rest =>
      obtain ⟨hc, hd⟩ := utf8Size_of_digraph hd
      have hsize : size [c, d] = 2 := size_of_small (by simp [hc, hd])
      exact congrArg (Prod.mk kind) hsize.symm
  | none =>
    cases hp : Kind.ofPunctuation c with
    | some kind => exact congrArg (Prod.mk kind) (hone (utf8Size_of_punctuation hp)).symm
    | none =>
      simp only
      split
      · next hname =>
        rw [take_run, List.takeWhile_cons, if_pos (Lexeme.isNameChar_of_isNameStart hname)]
      · split
        · cases hn : Literal.length (c :: rest) with
          | zero => rw [List.take_zero, size_cons, size_nil, Nat.add_zero]
          | succ n =>
            obtain ⟨⟨p, hliteral, hfront, hlen⟩, _⟩ :=
              (Literal.length_longest (c :: rest)).1 (hn ▸ Nat.succ_pos n)
            have hp : p = c :: rest.take n := by
              rw [List.prefix_iff_eq_take.1 hfront, hlen, hn, List.take_succ_cons]
            rw [← hp, size_of_small fun d hd => utf8Size_of_uses (hliteral.uses d hd), hlen, hn]
        · next hgate =>
          rw [length_literal_eq_zero hgate, List.take_zero, size_cons, size_nil, Nat.add_zero]

def lexFrom (input : List Char) (position : Nat) : Guarded (List Lexeme) := do
  match ← behind input position with
  | [] => pure []
  | c :: rest =>
    let (kind, length) := scan c rest
    let text ← slice input position (position + length)
    if _h : 0 < length ∧ position + length ≤ size input then
      if kind.isResolved then throw (.fault .resolvedLexeme)
      let others ← lexFrom input (position + length)
      pure (⟨kind, String.ofList text⟩ :: others)
    else throw (.fault .emptyLexeme)
termination_by size input - position

theorem lexFrom_append (front back : List Char) :
    lexFrom (front ++ back) (size front) = .ok (Lexeme.cut back) := by
  induction hn : back.length using Nat.strongRecOn generalizing front back with
  | ind n ih =>
    subst hn
    rw [lexFrom, behind_append]
    cases back with
    | nil =>
      rw [Lexeme.cut]
      rfl
    | cons c rest =>
      obtain ⟨taken, htaken⟩ : ∃ t, t = c :: rest.take (Lexeme.scan c rest).2 := ⟨_, rfl⟩
      obtain ⟨tail, htail⟩ : ∃ t, t = rest.drop (Lexeme.scan c rest).2 := ⟨_, rfl⟩
      have htext : c :: rest = taken ++ tail := by
        rw [htaken, htail, List.cons_append, List.take_append_drop]
      have hslice :
          slice (front ++ c :: rest) (size front) (size front + size taken) = .ok taken := by
        rw [htext]
        exact slice_append front taken tail
      have hwithin : 0 < size taken ∧ size front + size taken ≤ size (front ++ c :: rest) := by
        have hc := c.utf8Size_pos
        rw [htext, size_append, size_append, htaken, size_cons]
        omega
      have hkind : (Lexeme.scan c rest).1.isResolved = false :=
        (Lexeme.spelled_of_mem_cut (Lexeme.cut_cons c rest ▸ List.mem_cons_self)).isResolved
      have hothers : lexFrom (front ++ c :: rest) (size front + size taken) =
          .ok (Lexeme.cut tail) := by
        rw [htext, ← List.append_assoc, ← size_append]
        refine ih tail.length ?_ _ _ rfl
        rw [htail, List.length_drop, List.length_cons]
        omega
      simp only [bind, Except.bind, scan_eq, ← htaken, hslice, dif_pos hwithin, hkind, hothers,
        Bool.false_eq_true, if_false, pure, Except.pure]
      rw [Lexeme.cut_cons, ← htaken, ← htail]

theorem lexFrom_zero (text : List Char) : lexFrom text 0 = .ok (Lexeme.cut text) :=
  lexFrom_append [] text

def splitAtMark (text : List Char) : Guarded (List Char × Option (List Char)) :=
  match text.dropWhile fun c => !Literal.isBinaryMark c with
  | [] => pure (text, none)
  | _ :: _ => do
    let mark := size (text.takeWhile fun c => !Literal.isBinaryMark c)
    let front ← slice text 0 mark
    let back ← behind text (mark + 1)
    pure (front, some back)

theorem splitAtMark_eq (text : List Char) :
    splitAtMark text = .ok (Reading.splitAtMark Literal.isBinaryMark text) := by
  have htext : text.takeWhile (fun c => !Literal.isBinaryMark c) ++
      text.dropWhile (fun c => !Literal.isBinaryMark c) = text := List.takeWhile_append_dropWhile
  have hmark := List.head?_dropWhile_not (fun c => !Literal.isBinaryMark c) text
  rw [splitAtMark, Reading.splitAtMark]
  generalize text.takeWhile (fun c => !Literal.isBinaryMark c) = front at htext ⊢
  cases hd : text.dropWhile fun c => !Literal.isBinaryMark c with
  | nil => rfl
  | cons mark back =>
    rw [hd] at htext hmark
    have hone : mark.utf8Size = 1 := by
      apply utf8Size_of_uses
      have hbinary : Literal.isBinaryMark mark = true := by simpa using hmark
      simp only [Literal.uses, hbinary, Bool.or_true]
    have hfront : slice text 0 (size front) = .ok front := by
      have h := slice_append [] front (mark :: back)
      rwa [List.nil_append, htext, size_nil, Nat.zero_add] at h
    have hback : behind text (size front + 1) = .ok back := by
      have h := behind_append (front ++ [mark]) back
      rwa [size_append, size_cons, size_nil, hone, List.append_assoc, List.singleton_append,
        htext] at h
    simp only [bind, Except.bind, hfront, hback, pure, Except.pure]

end Bytes

end EventCuts
