import EventCuts.Schema

/-!
# Event records

An event as named columns, and the schema that reads from such events. The schema
knows the shape of every column; whether an event has the column, and in that shape,
shows when it is read.
-/

namespace EventCuts

structure Record where
  columns : NameTable Value

namespace Record

def empty : Record := ⟨.empty⟩

def ofList (columns : List (String × Value)) : Record := ⟨.ofList columns⟩

def insert (r : Record) (name : String) (column : Value) : Record :=
  ⟨r.columns.insert name column⟩

def get? (r : Record) (name : String) : Option Value := r.columns.get? name

def column (r : Record) (name : String) : Eval Value :=
  match r.get? name with
  | some value => .ok value
  | none => .error (.missingColumn name)

def scalar (r : Record) (name : String) : Eval Float := do
  match ← r.column name with
  | .scalar x => pure x
  | .vector _ => throw (.shapeMismatch name .scalar)

def vector (r : Record) (name : String) : Eval (List Float) := do
  match ← r.column name with
  | .scalar _ => throw (.shapeMismatch name .vector)
  | .vector xs => pure xs

end Record

structure RecordSchema where
  shapes : NameTable Shape

namespace RecordSchema

def empty : RecordSchema := ⟨.empty⟩

def shapeOf (s : RecordSchema) (name : String) : Option Shape := s.shapes.get? name

def withColumn (s : RecordSchema) (name : String) (shape : Shape) : RecordSchema :=
  ⟨s.shapes.insert name shape⟩

def addRecord (s : RecordSchema) (r : Record) : RecordSchema :=
  ⟨r.columns.entries.foldl (fun shapes entry => shapes.insertNew entry.1 entry.2.shape) s.shapes⟩

/-- The columns of all records; of two shapes the one seen first counts. -/
def ofRecords (records : List Record) : RecordSchema := records.foldl addRecord empty

def reader (name : String) : Shape → Expr Record
  | .scalar => Expr.scalar name fun r => r.scalar name
  | .vector => Expr.vector name fun r => r.vector name

def schema (s : RecordSchema) : Schema Record := fun name => (s.shapeOf name).map (reader name)

def table (s : RecordSchema) : VariableTable Record :=
  VariableTable.ofList (s.shapes.sorted.map fun (name, shape) => reader name shape)

end RecordSchema

end EventCuts
