import Furthest.Labels
import Furthest.Expectation

/-!
# Levelled logs

A log has a level and keeps the entries that are at or above it, in order. Tracing a parser makes an
`attempted` entry, and a `matched` or `failed` entry when the attempt ends; `note` entries carry text of
their own. `Entry.text` is the wording of an entry.
-/

namespace Furthest

/-- How severe an entry is, and how severe an entry has to be to be kept. -/
inductive Level where
  | trace
  | debug
  | info
  | warn
  | error
  | critical
  | off
deriving DecidableEq, Repr

namespace Level

/-- The place of a level in the order of severity. -/
def rank : Level → Nat
  | trace => 0
  | debug => 1
  | info => 2
  | warn => 3
  | error => 4
  | critical => 5
  | off => 6

/-- The name of a level. -/
def name : Level → Bytes
  | trace => ascii "trace"
  | debug => ascii "debug"
  | info => ascii "info"
  | warn => ascii "warn"
  | error => ascii "error"
  | critical => ascii "critical"
  | off => ascii "off"

/-- The levels by name, with the longer and shorter spellings of two of them. -/
def byName : List (Bytes × Level) :=
  [trace, debug, info, warn, error, critical, off].map (fun level => (level.name, level)) ++
    [(ascii "warning", warn), (ascii "err", error)]

/-- The level of a name. A name that is none switches the log off. -/
def ofName (name : Bytes) : Level := (byName.lookup name).getD off

end Level

/-- One entry of a log. -/
inductive Entry where
  /-- A traced parser was invoked at a cursor. -/
  | attempted (name : Bytes) (start : Nat)
  /-- It succeeded, with the cursor after the consumed input. -/
  | matched (name : Bytes) (start next : Nat)
  /-- It failed, with the index of the deepest failure and what was expected there. -/
  | failed (name : Bytes) (start index : Nat) (expected : Labels)
  /-- A remark on the course of a session. -/
  | note (text : Bytes)
deriving DecidableEq

namespace Entry

def level : Entry → Level
  | attempted .. => .trace
  | matched .. => .debug
  | failed .. => .debug
  | note _ => .info

/-- The wording of an entry. -/
def text : Entry → Bytes
  | attempted name start => name ++ ascii " at " ++ decimal start
  | matched name start next =>
    name ++ ascii " at " ++ decimal start ++ ascii " matched up to " ++ decimal next
  | failed name start index expected =>
    name ++ ascii " at " ++ decimal start ++ ascii " failed at " ++ decimal index ++
      ascii ", expected " ++ expected.render
  | note text => text

/-- The line of an entry: its level and its wording. -/
def line (e : Entry) : Bytes := e.level.name ++ ascii " " ++ e.text

end Entry

/-- A log: the level that an entry needs to be kept, and the entries kept so far. -/
structure Log where
  level : Level
  entries : Array Entry

namespace Log

/-- The log of a level, without entries. -/
def ofLevel (level : Level) : Log := ⟨level, #[]⟩

/-- Keeps an entry if it is at or above the level. -/
def record (log : Log) (e : Entry) : Log :=
  if log.level.rank ≤ e.level.rank then { log with entries := log.entries.push e } else log

/-- Recording keeps what was kept before, and adds the entry if it is severe enough. -/
theorem entries_record (log : Log) (e : Entry) :
    (log.record e).entries.toList =
      log.entries.toList ++ if log.level.rank ≤ e.level.rank then [e] else [] := by
  unfold record
  split <;> simp

@[simp] theorem level_record (log : Log) (e : Entry) : (log.record e).level = log.level := by
  unfold record
  split <;> rfl

/-- The lines of the entries, in order. -/
def lines (log : Log) : List Bytes := log.entries.toList.map Entry.line

end Log

end Furthest
