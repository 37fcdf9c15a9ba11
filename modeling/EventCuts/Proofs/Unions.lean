import EventCuts.Proofs.Outcome
import EventCuts.Record.Basic
import Mathlib.Data.List.Nodup

/-!
# The schema of many events

The schema of a list of events knows a column in the shape that the first event with the column
has it in. The order of the columns in an event plays no part, and further events only add names,
so that they change nothing for a text that names columns of the first ones only.
-/

namespace EventCuts

namespace NameTable

variable {α β : Type} {table other : NameTable α} {name : String} {a : α}

theorem get?_eq_some_iff : table.get? name = some a ↔ (name, a) ∈ table.entries := by
  rw [get?, List.lookup_eq_some_iff]
  constructor
  · rintro ⟨front, back, hsplit, _⟩
    rw [hsplit]
    exact List.mem_append_right _ List.mem_cons_self
  · intro hmem
    obtain ⟨front, back, hsplit⟩ := List.append_of_mem hmem
    refine ⟨front, back, hsplit, fun entry hentry => bne_iff_ne.2 ?_⟩
    rintro rfl
    have hnodup := table.nodup
    rw [hsplit, List.map_append, List.map_cons, List.nodup_middle, List.nodup_cons] at hnodup
    have hname : entry.1 ∈ front.map Prod.fst := List.mem_map_of_mem hentry
    exact hnodup.1 (List.mem_append_left _ hname)

theorem get?_of_perm (h : table.entries.Perm other.entries) (name : String) :
    table.get? name = other.get? name := by
  apply Option.ext
  intro a
  rw [get?_eq_some_iff, get?_eq_some_iff, h.mem_iff]

theorem get?_foldl_insertNew (f : α → β) (entries : List (String × α)) (table : NameTable β)
    (name : String) :
    (entries.foldl (fun table entry => table.insertNew entry.1 (f entry.2)) table).get? name =
      (table.get? name).or ((entries.lookup name).map f) := by
  induction entries generalizing table with
  | nil => exact (Option.or_none).symm
  | cons entry rest ih =>
    obtain ⟨key, a⟩ := entry
    rw [List.foldl_cons, ih, get?_insertNew, List.lookup_cons]
    by_cases hkey : name = key
    · subst hkey
      cases table.get? name <;> simp
    · have hbeq : (name == key) = false := beq_false_of_ne hkey
      simp only [if_neg hkey, hbeq]

end NameTable

namespace Record

def shapeOf (r : Record) (name : String) : Option Shape := (r.get? name).map Value.shape

def Reordered (r q : Record) : Prop := r.columns.entries.Perm q.columns.entries

theorem Reordered.shapeOf_eq {r q : Record} (h : r.Reordered q) (name : String) :
    r.shapeOf name = q.shapeOf name :=
  congrArg (Option.map Value.shape) (NameTable.get?_of_perm h name)

end Record

section Schemas

variable {C : Type} {schema other : Schema C}

theorem resolveLeaf_congr {l : Lexeme} (h : l.kind = .identifier → schema l.text = other l.text)
    (source : String) (offset : Nat) :
    resolveLeaf schema source offset (Token.ofLexeme l) =
      resolveLeaf other source offset (Token.ofLexeme l) := by
  obtain ⟨kind, text⟩ := l
  cases kind with
  | identifier => simp only [resolveLeaf, Token.ofLexeme, h rfl]
  | _ => rfl

theorem resolveLeavesFrom_congr {ls : List Lexeme}
    (h : ∀ l ∈ ls, l.kind = .identifier → schema l.text = other l.text) (source : String)
    (offset : Nat) :
    resolveLeavesFrom schema source offset (ls.map Token.ofLexeme) =
      resolveLeavesFrom other source offset (ls.map Token.ofLexeme) := by
  induction ls generalizing offset with
  | nil => rfl
  | cons l ls ih =>
    obtain ⟨hl, hrest⟩ := List.forall_mem_cons.1 h
    simp only [List.map_cons, resolveLeavesFrom, resolveLeaf_congr hl, ih hrest]

theorem compile_congr {source : String} (h : ∀ n, ⟨.identifier, n⟩ ∈ Lexeme.ofSource source →
    schema n = other n) : compile schema source = compile other source := by
  have hleaves : ∀ l ∈ Lexeme.ofSource source, l.kind = .identifier →
      schema l.text = other l.text := by
    rintro ⟨_, n⟩ hl rfl
    exact h n hl
  simp only [compile, compileTokens, tokenize_stripBlanks, resolveLeaves,
    resolveLeavesFrom_congr hleaves]

end Schemas

namespace RecordSchema

variable {records front back : List Record} {name : String} {shape : Shape}

theorem shapeOf_addRecord (s : RecordSchema) (r : Record) (name : String) :
    (s.addRecord r).shapeOf name = (s.shapeOf name).or (r.shapeOf name) :=
  NameTable.get?_foldl_insertNew Value.shape r.columns.entries s.shapes name

theorem shapeOf_foldl (records : List Record) (s : RecordSchema) (name : String) :
    (records.foldl addRecord s).shapeOf name =
      (s.shapeOf name).or (records.findSome? fun r => r.shapeOf name) := by
  induction records generalizing s with
  | nil => exact (Option.or_none).symm
  | cons r records ih =>
    rw [List.foldl_cons, ih, shapeOf_addRecord, Option.or_assoc, List.findSome?_cons]
    cases r.shapeOf name <;> rfl

theorem shapeOf_ofRecords (records : List Record) (name : String) :
    (ofRecords records).shapeOf name = records.findSome? fun r => r.shapeOf name :=
  (shapeOf_foldl records empty name).trans Option.none_or

theorem shapeOf_append (front back : List Record) (name : String) :
    (ofRecords (front ++ back)).shapeOf name =
      ((ofRecords front).shapeOf name).or ((ofRecords back).shapeOf name) := by
  simp only [shapeOf_ofRecords, List.findSome?_append]

theorem shapeOf_eq_some_iff : (ofRecords records).shapeOf name = some shape ↔
    ∃ before r after, records = before ++ r :: after ∧
      (∃ v, r.get? name = some v ∧ v.shape = shape) ∧ ∀ q ∈ before, q.get? name = none := by
  simp only [shapeOf_ofRecords, List.findSome?_eq_some_iff, Record.shapeOf, Option.map_eq_some_iff,
    Option.map_eq_none_iff]

theorem shapeOf_eq_none_iff : (ofRecords records).shapeOf name = none ↔
    ∀ r ∈ records, r.get? name = none := by
  simp only [shapeOf_ofRecords, List.findSome?_eq_none_iff, Record.shapeOf, Option.map_eq_none_iff]

theorem shapeOf_of_reordered {others : List Record}
    (h : List.Forall₂ Record.Reordered records others) (name : String) :
    (ofRecords records).shapeOf name = (ofRecords others).shapeOf name := by
  rw [shapeOf_ofRecords, shapeOf_ofRecords]
  induction h with
  | nil => rfl
  | cons hr _ ih => rw [List.findSome?_cons, List.findSome?_cons, hr.shapeOf_eq, ih]

theorem compile_of_prefix {source : String}
    (h : ∀ n, ⟨.identifier, n⟩ ∈ Lexeme.ofSource source → ∃ r ∈ front, r.get? n ≠ none) :
    compile (ofRecords front).schema source =
      compile (ofRecords (front ++ back)).schema source := by
  refine compile_congr fun n hn => ?_
  obtain ⟨r, hr, hcolumn⟩ := h n hn
  have hknown : (ofRecords front).shapeOf n ≠ none :=
    fun hnone => hcolumn (shapeOf_eq_none_iff.1 hnone r hr)
  obtain ⟨shape, hshape⟩ := Option.ne_none_iff_exists'.1 hknown
  simp only [schema, shapeOf_append, hshape, Option.some_or]

/-- The schema of a list of events knows a column as the first event with the column has it,
however the events list their columns. A text whose identifiers are all known by some of the events
is compiled alike, with the same log to the same expression or error, when others follow. -/
theorem ofRecords_keeps_first (records : List Record) :
    (∀ name shape, (ofRecords records).shapeOf name = some shape ↔
      ∃ before r after, records = before ++ r :: after ∧
        (∃ v, r.get? name = some v ∧ v.shape = shape) ∧ ∀ q ∈ before, q.get? name = none) ∧
    (∀ name, (ofRecords records).shapeOf name = none ↔ ∀ r ∈ records, r.get? name = none) ∧
    (∀ others, List.Forall₂ Record.Reordered records others →
      ∀ name, (ofRecords records).shapeOf name = (ofRecords others).shapeOf name) ∧
    ∀ front source, front <+: records →
      (∀ n, ⟨.identifier, n⟩ ∈ Lexeme.ofSource source → ∃ r ∈ front, r.get? n ≠ none) →
      compile (ofRecords front).schema source = compile (ofRecords records).schema source := by
  refine ⟨fun _ _ => shapeOf_eq_some_iff, fun _ => shapeOf_eq_none_iff,
    fun _ h => shapeOf_of_reordered h, ?_⟩
  rintro front source ⟨back, rfl⟩ h
  exact compile_of_prefix h

theorem ofRecords_keeps_first_late_vector :
    let a := Record.ofList [("x", .scalar 1)]
    let b := Record.ofList [("x", .vector [1]), ("y", .scalar 2)]
    let c := Record.ofList [("y", .scalar 2), ("x", .vector [1])]
    (ofRecords [a, b]).shapeOf "x" = some .scalar ∧ (ofRecords [a, b]).shapeOf "z" = none ∧
      (∀ name, (ofRecords [a, b]).shapeOf name = (ofRecords [a, c]).shapeOf name) ∧
      compile (ofRecords [a]).schema "x>2" = compile (ofRecords [a, b]).schema "x>2" := by
  intro a b c
  obtain ⟨hsome, hnone, hreordered, hcompile⟩ := ofRecords_keeps_first [a, b]
  have hnames : ∀ l ∈ Lexeme.ofSource "x>2", l.kind = .identifier → l.text = "x" := by
    decide +kernel
  refine ⟨?_, ?_, hreordered _ (.cons (.refl _) (.cons (.swap _ _ _) .nil)), ?_⟩
  · exact (hsome "x" .scalar).2 ⟨[], a, [b], rfl, ⟨_, rfl, rfl⟩, nofun⟩
  · exact (hnone "z").2 (List.forall_mem_cons.2 ⟨rfl, List.forall_mem_singleton.2 rfl⟩)
  · refine hcompile [a] "x>2" (List.prefix_append [a] [b]) fun n hn => ?_
    obtain rfl : n = "x" := hnames _ hn rfl
    exact ⟨a, List.mem_singleton_self a, nofun⟩

end RecordSchema

end EventCuts
