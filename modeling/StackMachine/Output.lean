import StackMachine.Log

namespace StackMachine

inductive WriteError where
  | closed
  | flushFailed
deriving DecidableEq

def WriteError.message : WriteError → String
  | closed => "closed"
  | flushFailed => "flush failed"

structure Writer where
  accepted : ByteArray := ByteArray.empty
  room : Option Nat := none
  flushable : Bool := true

namespace Writer

def write (text : String) : EStateM WriteError Writer Unit := fun w =>
  let bytes := text.toUTF8
  match w.room with
  | none => .ok () { w with accepted := w.accepted ++ bytes }
  | some room =>
    if bytes.size ≤ room then
      .ok () { w with accepted := w.accepted ++ bytes, room := some (room - bytes.size) }
    else .error .closed { w with accepted := w.accepted ++ bytes.extract 0 room, room := some 0 }

def flush : EStateM WriteError Writer Unit := fun w =>
  if w.flushable then .ok () w else .error .flushFailed w

end Writer

/-- A type of sinks. Taking a value gives the sink afterwards and the events to report. -/
class Sink (σ : Type) where
  emit : σ → Number → σ × List Event

structure Collector where
  latest : List Number := []
deriving DecidableEq

def Collector.values (collector : Collector) : List Number := collector.latest.reverse

instance : Sink Collector where
  emit collector value := (⟨value :: collector.latest⟩, [])

structure LineSink where
  writer : Writer
  /-- The exact count of the lines written in full; a counter of 64 bits agrees with it below `2 ^ 64`. -/
  emitted : Nat := 0

instance : Sink LineSink where
  emit sink value :=
    match Writer.write (value.text ++ "\n") sink.writer with
    | .ok _ writer => ({ writer, emitted := sink.emitted + 1 }, [])
    | .error e writer => ({ sink with writer }, [.writeFailed e.message value])

inductive LogSink where
  | log

instance : Sink LogSink where
  emit sink value := (sink, [.valueEmitted value])

end StackMachine
