import TaggedWire.Value.Basic

namespace TaggedWire

mutual

def Value.steps : Value → List Step
  | .pointer v => v.steps
  | .object o => o.steps
  | .array _ items => Value.stepsAll items
  | .map _ _ entries => Value.stepsEntries entries
  | _ => []

def Object.steps : Object → List Step
  | .plain fields => Value.stepsAll fields
  | .custom _ program fields => Step.substepsAll program ++ Value.stepsAll fields

def Value.stepsAll : List Value → List Step
  | [] => []
  | v :: vs => v.steps ++ Value.stepsAll vs

def Value.stepsEntries : List (Value × Value) → List Step
  | [] => []
  | (k, v) :: rest => k.steps ++ v.steps ++ Value.stepsEntries rest

def Step.inner : Step → List Step
  | .value v => v.steps
  | .record o => o.steps
  | .object body => Step.substepsAll body
  | .attempt body => Step.substepsAll body
  | _ => []

def Step.substepsAll : List Step → List Step
  | [] => []
  | s :: ss => s :: s.inner ++ Step.substepsAll ss

end

end TaggedWire
