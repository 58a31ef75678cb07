import TaggedWire.Encoder.Arrange
import TaggedWire.Encoder.Leaves
import TaggedWire.Value.Order

namespace TaggedWire

open Write

mutual

def Value.emit : Value → Write
  | .bool b => put [(Tag.ofBool b).asEmpty]
  | .int n => unlessZero (.int n) (integer n)
  | .float x => unlessZero (.float x) (throw (.fault (.unsupported (.float x.kind))))
  | .text s => unlessZero (.text s) (text s)
  | .bytes bs => unlessZero (.bytes bs) (bytes bs)
  | .nil => unlessZero .nil (pure ())
  | .pointer v => do
    put [Tag.pointer]
    deeper v.emit
  | .object o => o.emit
  | .array k items => unlessZero (.array k items) do
    arrayTag k
    count items.length
    Value.emitItems k items
  | .map k v entries => unlessZero (.map k v entries) do
    entries.forM fun e ↦ do
      check k e.1
      check v e.2
    let arranged ← arrange k Entry.key Entry.encoding (Value.emitEntries entries)
    put [Tag.object.asArray]
    count entries.length
    arranged.forM (·.whole)

def Object.emit : Object → Write
  | .plain fields => object (Value.emitAll fields)
  | .custom _ program [] => Step.runAll program
  | .custom _ _ (_ :: _) => throw (.defect .customFields)

def Value.emitAll : List Value → Write
  | [] => pure ()
  | v :: vs => do
    deeper v.emit
    Value.emitAll vs

def Value.emitItems (k : Kind) : List Value → Write
  | [] => pure ()
  | v :: vs => do
    check k v
    deeper v.emit
    Value.emitItems k vs

def Value.emitEntries : List (Value × Value) → List (Entry (Writing (List UInt8)) Write)
  | [] => []
  | (k, v) :: rest =>
    { key := k
      encoding := (deeper k.emit).alone
      whole := deeper (object do deeper k.emit; deeper v.emit) } :: Value.emitEntries rest

def Step.run : Step → Write
  | .tag t => put [t]
  | .raw bs => put bs
  | .unsigned w n => unsigned w n
  | .signed w v => signed w v
  | .value v => deeper v.emit
  | .record o => deeper o.emit
  | .object body => object (Step.runAll body)
  | .describe => describe
  | .attempt body => attempt (Step.runAll body)
  | .fail f => throw (.fault f)

def Step.runAll : List Step → Write
  | [] => pure ()
  | s :: ss => do
    s.run
    Step.runAll ss

end

def Value.write (v : Value) : Write := deeper v.emit

def Object.write (o : Object) : Write := deeper o.emit

end TaggedWire
