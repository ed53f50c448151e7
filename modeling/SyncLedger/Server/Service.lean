/-
  SyncLedger/Server/Service.lean
  ==============================
  **A server with an engine and a database behind it.**  An event that is taken waits until it
  is committed, in any order among those that wait; whoever submitted it need not stay to hear
  the answer.  A new engine may be opened over the same database, as after a crash: the server
  is then stopped, and the network listener lives on.

  Reading and writing the store does not fail here.  So the flush at the end of a stop always
  succeeds, and a stop answers how the listener has shut down.
-/
import SyncLedger.Engine
import SyncLedger.Server.Lifecycle

namespace SyncLedger

structure Service where
  engine : Engine
  database : Database
  server : Server := {}
  /-- The events that were taken and are not committed yet. -/
  waiting : List Observation := []

namespace Service

/-- Opens an engine and a stopped server over a database. -/
def openOver (c : Config) (db : Database) (listener : Listener) (k : Schemes := .standard) :
    Except Error Service :=
  (Engine.openOver c db k).map fun (engine, database) =>
    { engine, database, server := { listener } }

/-- Opens a new engine and server over what is kept.  If that fails the old engine stays. -/
def restart (s : Service) : Except Error Unit × Service :=
  match openOver s.engine.config s.database s.server.listener s.engine.schemes with
  | .ok fresh => (.ok (), fresh)
  | .error e => (.error e, s)

def perform {α : Type} (s : Service) (op : Op α) : Except Error α × Service :=
  let (answer, database) := s.database.perform op
  (answer, { s with database })

/-! ### Steps of the server -/

def start (s : Service) : Except Error Unit × Service :=
  let (answer, server) := s.server.start s.engine.config.server
  (answer, { s with server })

def listen (s : Service) : Except Error Unit × Service :=
  let (answer, server) := s.server.listen
  (answer, { s with server })

/-- Takes an event, or refuses it. -/
def submit (s : Service) (o : Observation) : Except Error Unit × Service :=
  match s.server.take with
  | (.ok (), server) => (.ok (), { s with server, waiting := s.waiting ++ [o] })
  | (.error e, server) => (.error e, { s with server })

/-- Commits the waiting event with a given number, if there is one. -/
def commit (s : Service) (i : Nat) (now : Instant) : Option (Except Error Decision × Service) :=
  s.waiting[i]?.map fun o =>
    let (answer, database) := s.database.perform (s.engine.recordEvent o now)
    (answer, { s with database, server := s.server.release, waiting := s.waiting.eraseIdx i })

def beginStop (s : Service) : Except Error (Option Error) × Service :=
  let (answer, server) := s.server.beginStop
  (answer, { s with server })

def finishStop (s : Service) : Option Service :=
  s.server.finishStop.map fun server => { s with server }

/-! ### Whole calls -/

/-- Commits so many waiting events, in the order in which they were taken. -/
def drain (s : Service) (now : Instant) : Nat → Service
  | 0 => s
  | n + 1 => match s.commit 0 now with
    | some (_, s) => drain s now n
    | none => s

/-- Takes an event and commits it. -/
def submitAndWait (s : Service) (o : Observation) (now : Instant) :
    Except Error Decision × Service :=
  match s.submit o with
  | (.error e, s) => (.error e, s)
  | (.ok (), s) => match s.commit (s.waiting.length - 1) now with
    | some done => done
    | none => (.error (.internal "sync task failed"), s)

/-- Stops the server after all waiting events are committed. -/
def stop (s : Service) (now : Instant) : Except Error Unit × Service :=
  match s.beginStop with
  | (.error e, s) => (.error e, s)
  | (.ok refusal, s) =>
    let s := s.drain now s.waiting.length
    let answer := match refusal with
      | some e => .error e
      | none => .ok ()
    (answer, s.finishStop.getD s)

end Service

end SyncLedger
