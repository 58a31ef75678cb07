namespace TaggedWire

/-- How a non-empty array of integers opens: with its count, or with its tag and then its count. -/
inductive IntegerArrays
  | untagged
  | tagged
  deriving DecidableEq

def defaultMaxDepth : Nat := 128

structure Options where
  maxDepth : Nat := defaultMaxDepth
  sortedMaps : Bool := false
  integerArrays : IntegerArrays := .untagged
  deriving DecidableEq

end TaggedWire
