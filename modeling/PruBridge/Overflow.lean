import PruBridge.Bounds
import PruBridge.Tracking

/-!
Writes that meet a full channel. They store at the tail and move it, and leave the head
and the counter, so the tail runs ahead of the unread bytes. What the reader gets, and
what `check_index` is worth, depends on that lead modulo the size.
-/
namespace PruBridge.Overflow
open AtomicProgram CircularBuffer

inductive ByteOp where
  | write (data : UInt8)
  | read

def writes : List ByteOp → Nat
  | [] => 0
  | .write _ :: rest => writes rest + 1
  | .read :: rest => writes rest

end PruBridge.Overflow
