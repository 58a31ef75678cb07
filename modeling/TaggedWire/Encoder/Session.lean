import TaggedWire.Encoder.Write

namespace TaggedWire

structure Report where
  fault? : Option Fault
  added : List UInt8
  description : String

/-- The reports of the steps in order, and the defect that ended the session, if one did. -/
structure Session where
  reports : List Report := []
  defect? : Option Defect := none

namespace Encoder

def report (before after : Encoder) (fault? : Option Fault) : Report where
  fault? := fault?
  added := (after.buffers.active.extract before.buffers.active.size).toList
  description := after.describe

/-- Runs the steps on one encoder. A fault ends its step, a defect the session. -/
def session (e : Encoder) : List Step → Session
  | [] => {}
  | step :: steps =>
    match step.run e with
    | .ok () after =>
      let rest := after.session steps
      { rest with reports := e.report after none :: rest.reports }
    | .error (.fault f) after =>
      let rest := after.session steps
      { rest with reports := e.report after (some f) :: rest.reports }
    | .error (.defect d) _ => { defect? := some d }

end Encoder

end TaggedWire
