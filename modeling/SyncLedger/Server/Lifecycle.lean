/-
  SyncLedger/Server/Lifecycle.lean
  ================================
  **The life of a server**: stopped, starting, listening, accepting, stopping, and stopped
  again.  Its network listener is asked to start, to accept and to shut down; each of these may
  be refused, and the listener keeps a log of what it was asked and how it went.

  Stopping takes two steps.  Between them the server waits until no event is in flight; events
  are taken only while it is accepting, so once stopping has begun their number only falls.
-/
import SyncLedger.Config.Basic

namespace SyncLedger

/-! ### The network listener -/

/-- What a network listener is asked for. -/
inductive Request where
  | start (address : ServerConfig)
  | accept
  | shutdown
  deriving DecidableEq

/-- A network listener: how it will answer, and what it was asked so far. -/
structure Listener where
  /-- The error with which the next start is refused. -/
  onStart : Option Error := none
  onAccept : Option Error := none
  onShutdown : Option Error := none
  /-- Requests with how they were refused, if they were; oldest first. -/
  log : List (Request × Option Error) := []

namespace Listener

/-- How a request is refused at the moment. -/
def refusal? (l : Listener) : Request → Option Error
  | .start _ => l.onStart
  | .accept => l.onAccept
  | .shutdown => l.onShutdown

/-- The listener after a request. -/
def note (l : Listener) (r : Request) : Listener := { l with log := l.log ++ [(r, l.refusal? r)] }

end Listener

/-! ### The server -/

inductive Phase where
  | stopped
  | starting
  /-- Up, but not taking events yet. -/
  | listening
  /-- Up and taking events. -/
  | accepting
  | stopping
  deriving DecidableEq

def Phase.name : Phase → String
  | .stopped => "stopped"
  | .starting => "starting"
  | .listening => "listening"
  | .accepting => "accepting"
  | .stopping => "stopping"

structure Server where
  phase : Phase := .stopped
  /-- How many events were taken and are not committed yet. -/
  inFlight : Nat := 0
  listener : Listener := {}

namespace Server

/-- The error of an operation that the phase does not allow. -/
def refused (s : Server) (operation : String) : Error := .invalidState operation s.phase.name

/-- Asks the listener; the phase becomes the one or the other as it agrees or refuses. -/
def ask (s : Server) (r : Request) (agreed refused : Phase) : Except Error Unit × Server :=
  let listener := s.listener.note r
  match s.listener.refusal? r with
  | none => (.ok (), { s with phase := agreed, listener })
  | some e => (.error e, { s with phase := refused, listener })

/-- Brings the listener up. -/
def start (s : Server) (address : ServerConfig) : Except Error Unit × Server :=
  match s.phase with
  | .stopped => ask { s with phase := .starting } (.start address) .listening .stopped
  | _ => (.error (s.refused "start"), s)

/-- Begins to take events.  Nothing happens if it has begun already. -/
def listen (s : Server) : Except Error Unit × Server :=
  match s.phase with
  | .listening => s.ask .accept .accepting .listening
  | .accepting => (.ok (), s)
  | _ => (.error (s.refused "listen"), s)

/-- Takes an event, which is in flight from now on. -/
def take (s : Server) : Except Error Unit × Server :=
  match s.phase with
  | .accepting => (.ok (), { s with inFlight := s.inFlight + 1 })
  | _ => (.error (s.refused "submit"), s)

/-- An event that was in flight is finished. -/
def release (s : Server) : Server := { s with inFlight := s.inFlight - 1 }

/-- Begins to stop.  Fails where stopping is not allowed; otherwise answers with how the
    listener refused to shut down, if it did, which does not keep the server from stopping. -/
def beginStop (s : Server) : Except Error (Option Error) × Server :=
  let stopping :=
    ask { s with phase := .stopping } .shutdown .stopping .stopping
  let answer := match stopping.1 with
    | .ok () => none
    | .error e => some e
  match s.phase with
  | .listening => (.ok answer, stopping.2)
  | .accepting => (.ok answer, stopping.2)
  | _ => (.error (s.refused "stop"), s)

/-- Ends the stop that has begun, if nothing is in flight. -/
def finishStop (s : Server) : Option Server :=
  if s.phase = .stopping ∧ s.inFlight = 0 then some { s with phase := .stopped } else none

end Server

end SyncLedger
