import StreamParse.Cursor.Describe
import StreamParse.Cursor.Span
import StreamParse.Grammar.Denotation

/-!
# Sessions

A session works on several inputs at once.  It keeps cursors in registers and runs one operation
after the other, each of which reports what came of it.  A fault ends its operation only: the
registers are as they were, and the session goes on.
-/

namespace StreamParse

/-- Where an input comes from. -/
inductive Input where
  /-- All of it is there. -/
  | complete (bytes : List UInt8)
  /-- A source hands it out. -/
  | streaming (source : Source) (config : Config)
  /-- There is none. -/
  | detached

/-- Adds an input to a store, with a cursor at its start. -/
def Input.enter (store : Store) : Input → Cursor × Store
  | .complete bytes => store.insert (.complete bytes)
  | .streaming source config => store.insert (.streaming source config)
  | .detached => (default, store)

/-- Cursors with their names. -/
abbrev Registers := List (String × Cursor)

namespace Registers

def get? (registers : Registers) (name : String) : Option Cursor :=
  List.lookup name registers

def erase (registers : Registers) (name : String) : Registers :=
  registers.filter fun entry => entry.1 ≠ name

def set (registers : Registers) (name : String) (cursor : Cursor) : Registers :=
  (name, cursor) :: registers.erase name

/-- The cursor with a given name, which has to be there. -/
def cursor (registers : Registers) (name : String) : Run Cursor :=
  match registers.get? name with
  | some cursor => return cursor
  | none => .fault (.undefined name)

end Registers

/-- An operation.  It works on the cursor in register `source`, and where it leads to another
cursor, that goes to register `target`. -/
inductive Operation where
  | byte (source target : String)
  | rune (source target : String)
  /-- Reads up to `limit` bytes, or as far as that goes. -/
  | bytes (source target : String) (limit : Option Nat)
  | runes (source target : String) (limit : Option Nat)
  | skipBytes (source target : String) (limit : Option Nat)
  | skipRunes (source target : String) (limit : Option Nat)
  | bytesUntil (source stop : String)
  | textUntil (source stop : String)
  | same (first second : String)
  | copy (source target : String)
  | drop (source : String)
  | position (source : String)
  | describe (source : String)
  /-- Parses; the cursor of a failure goes to register `failTarget`. -/
  | parse (source target : String) (expr : Expr) (failTarget : Option String)

/-- What came of an operation. -/
inductive Report where
  | byte (value : UInt8) (position : Position)
  | rune (value : Char) (position : Position)
  | error (error : Error)
  | bytesRead (bytes : Array UInt8) (stop : Option Error) (position : Position)
  | textRead (text : String) (stop : Option Error) (position : Position)
  | counted (count : Nat) (stop : Option Error) (position : Position)
  | bytes (bytes : Array UInt8)
  | text (text : String)
  | same (answer : Bool)
  | done
  | position (position : Position)
  | described (text : String)
  | parsed (value : Value) (position : Position)
  /-- A failure, and whether it went back to the entry. -/
  | failed (failure : Failure) (rewound : Bool)
  | fault (fault : Fault)

namespace Operation

/-- What came of an operation, and the registers that it leaves. -/
abbrev Outcome := Report × Registers

/-- Reads one unit. -/
def single {α : Type} (registers : Registers) (r : Reading α) (source target : String)
    (report : α → Position → Report) : Run Outcome := do
  let cursor ← registers.cursor source
  match ← cursor.read r with
  | .error error => return (.error error, registers)
  | .ok (unit, next) => return (report unit next.position, registers.set target next)

/-- Reads units up to a limit.  Where that leads to is kept, also after an error. -/
def several {α : Type} (registers : Registers) (r : Reading α) (source target : String)
    (limit : Option Nat) (report : Array α → Option Error → Position → Report) : Run Outcome := do
  let cursor ← registers.cursor source
  let traversal ← cursor.readUpTo r limit
  return (report traversal.gathered traversal.error traversal.cursor.position,
    registers.set target traversal.cursor)

/-- What an operation does. -/
def perform (grammar : Grammar) (registers : Registers) : Operation → Run Outcome
  | .byte source target => single registers .bytes source target .byte
  | .rune source target => single registers .runes source target .rune
  | .bytes source target limit => several registers .bytes source target limit .bytesRead
  | .runes source target limit =>
    several registers .runes source target limit fun units =>
      .textRead (String.ofList units.toList)
  | .skipBytes source target limit =>
    several registers .bytes source target limit fun units => .counted units.size
  | .skipRunes source target limit =>
    several registers .runes source target limit fun units => .counted units.size
  | .bytesUntil source stop => do
    let first ← registers.cursor source
    let last ← registers.cursor stop
    return (.bytes (← first.bytesUntil last), registers)
  | .textUntil source stop => do
    let first ← registers.cursor source
    let last ← registers.cursor stop
    match ← first.textUntil last with
    | .error error => return (.error error, registers)
    | .ok text => return (.text text, registers)
  | .same first second => do
    let a ← registers.cursor first
    let b ← registers.cursor second
    return (.same (a = b), registers)
  | .copy source target => do
    let cursor ← registers.cursor source
    return (.done, registers.set target cursor)
  | .drop source => return (.done, registers.erase source)
  | .position source => do
    let cursor ← registers.cursor source
    return (.position cursor.position, registers)
  | .describe source => do
    let cursor ← registers.cursor source
    ⟨fun store => (.ok (.described (cursor.describe store), registers), store)⟩
  | .parse source target expr failTarget => do
    let entry ← registers.cursor source
    match ← grammar.parser registers.get? expr entry with
    | .ok (value, cursor) =>
      return (.parsed value cursor.position, registers.set target cursor)
    | .error failure =>
      let kept :=
        match failTarget with
        | some name => registers.set name failure.cursor
        | none => registers
      return (.failed failure (failure.cursor = entry), kept)

end Operation

/-- A session between two operations. -/
structure Session where
  grammar : Grammar
  registers : Registers
  store : Store

namespace Session

/-- Adds an input, with a register for the cursor at its start. -/
def enter (session : Session) (input : String × Input) : Session :=
  let (cursor, store) := input.2.enter session.store
  { session with registers := session.registers.set input.1 cursor, store }

/-- A session at its start: a register for every input. -/
def start (grammar : Grammar) (inputs : List (String × Input)) : Session :=
  inputs.foldl enter ⟨grammar, [], .empty⟩

/-- Runs one operation. -/
def step (session : Session) (operation : Operation) : Report × Session :=
  match (operation.perform session.grammar session.registers).run session.store with
  | (.ok (report, registers), store) => (report, { session with registers, store })
  | (.error fault, store) => (.fault fault, { session with store })

/-- Runs operations in order.  Each report comes with the number of requests made until then. -/
def run (session : Session) : List Operation → List (Report × Nat) × Session
  | [] => ([], session)
  | operation :: rest =>
    let (report, session) := session.step operation
    let (reports, final) := session.run rest
    ((report, session.store.journal.requests) :: reports, final)

end Session

/-- Parses an input from its start.  The second component is the number of requests it took. -/
def Grammar.parseInput (grammar : Grammar) (input : Input) (expr : Expr) :
    Except Fault (Except Error Value) × Nat :=
  let (entry, store) := input.enter .empty
  let (outcome, store) := (grammar.parser (fun _ => none) expr entry).run store
  let result := outcome.map fun parsed =>
    match parsed with
    | .ok (value, _) => .ok value
    | .error failure => .error failure.error
  (result, store.journal.requests)

/-- Requests each of the given rooms in turn. -/
def Source.pullAll (source : Source) : (rooms : List Nat) → List Pull × Source
  | [] => ([], source)
  | room :: rest =>
    let pull := source.pull room
    let (pulls, left) := pull.rest.pullAll rest
    (pull :: pulls, left)

end StreamParse
