import EventCuts.Expr.Basic
import EventCuts.NameTable

/-!
# Schemas

What the identifiers of an expression mean. A schema is a pure lookup; an expression
text is compiled against it without looking at anything but the shapes it answers.
-/

namespace EventCuts

abbrev Schema (C : Type) := String → Option (Expr C)

structure VariableTable (C : Type) where
  exprs : NameTable (Expr C)

namespace VariableTable

variable {C : Type}

def empty : VariableTable C := ⟨.empty⟩

def get? (table : VariableTable C) (name : String) : Option (Expr C) := table.exprs.get? name

def insert (table : VariableTable C) (e : Expr C) : VariableTable C :=
  ⟨table.exprs.insert e.name e⟩

def ofList (es : List (Expr C)) : VariableTable C := es.foldl insert empty

def names (table : VariableTable C) : List String := table.exprs.names

def size (table : VariableTable C) : Nat := table.exprs.size

def schema (table : VariableTable C) : Schema C := table.get?

theorem get?_insert (table : VariableTable C) (e : Expr C) (name : String) :
    (table.insert e).get? name = if name = e.name then some e else table.get? name :=
  NameTable.get?_insert _ _ _ _

end VariableTable

end EventCuts
