import EventCuts.ParseError
import EventCuts.Token

/-!
# Compilation with a log

A compilation tells what it does while it goes, and ends with a result or a parse
error. What was told before an error stays told.
-/

namespace EventCuts

inductive LogEvent where
  | started (source : String)
  | passed (source pass : String) (remaining : List String)
  | finished (source : String) (shape : Shape)
deriving DecidableEq, Repr

namespace LogEvent

def level : LogEvent → String
  | started _ | finished _ _ => "debug"
  | passed _ _ _ => "trace"

def message : LogEvent → String
  | started source => "parsing \"" ++ source ++ "\""
  | passed source pass remaining =>
    "\"" ++ source ++ "\" after " ++ pass ++ " pass: " ++ Token.listText remaining
  | finished source shape =>
    "parsed \"" ++ source ++ "\" as " ++ shape.name ++ " expression"

end LogEvent

structure Logged (α : Type) where
  log : List LogEvent
  result : Except ParseError α

namespace Logged

variable {α β : Type}

protected def pure (a : α) : Logged α := ⟨[], .ok a⟩

protected def bind (x : Logged α) (f : α → Logged β) : Logged β :=
  match x.result with
  | .ok a => ⟨x.log ++ (f a).log, (f a).result⟩
  | .error e => ⟨x.log, .error e⟩

instance : Monad Logged where
  pure := Logged.pure
  bind := Logged.bind

def tell (events : List LogEvent) : Logged Unit := ⟨events, .ok ()⟩

def fail (e : ParseError) : Logged α := ⟨[], .error e⟩

def ofExcept (x : Except ParseError α) : Logged α := ⟨[], x⟩

theorem pure_eq (a : α) : (pure a : Logged α) = ⟨[], .ok a⟩ := rfl

theorem bind_eq (x : Logged α) (f : α → Logged β) : x >>= f = Logged.bind x f := rfl

theorem bind_ok {x : Logged α} {a : α} (h : x.result = .ok a) (f : α → Logged β) :
    x >>= f = ⟨x.log ++ (f a).log, (f a).result⟩ := by
  simp [bind_eq, Logged.bind, h]

theorem bind_error {x : Logged α} {e : ParseError} (h : x.result = .error e) (f : α → Logged β) :
    x >>= f = ⟨x.log, .error e⟩ := by
  simp [bind_eq, Logged.bind, h]

end Logged

end EventCuts
