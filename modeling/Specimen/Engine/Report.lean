import Specimen.Table
/-!
# Reports

What is counted while one value is generated.
-/

namespace Specimen

structure Report where
  /-- The nodes ever put on the stack, the root included. -/
  nodesQueued : Nat := 0
  /-- The visits of nodes. -/
  steps : Nat := 0
  /-- The nodes that lie too deep. -/
  truncatedDepth : Nat := 0
  /-- The children that were not made for lack of room, as a 64-bit count. -/
  droppedBySize : UInt64 := 0
  /-- The nodes whose handler failed. -/
  handlerFailures : Nat := 0
  /-- The nodes without a handler. -/
  unknownHandlers : Nat := 0
  /-- How often each handler was asked about a new node. -/
  handlerUsage : Table Nat := []

namespace Report

def countStep (r : Report) : Report := { r with steps := r.steps + 1 }

def countQueued (r : Report) (n : Nat) : Report := { r with nodesQueued := r.nodesQueued + n }

def countTruncated (r : Report) : Report := { r with truncatedDepth := r.truncatedDepth + 1 }

def countDropped (r : Report) (n : UInt64) : Report :=
  { r with droppedBySize := r.droppedBySize + n }

def countFailure (r : Report) : Report := { r with handlerFailures := r.handlerFailures + 1 }

def countUnknown (r : Report) : Report := { r with unknownHandlers := r.unknownHandlers + 1 }

def countUsage (r : Report) (label : String) : Report :=
  { r with handlerUsage := Table.increment r.handlerUsage label }

end Report

end Specimen
