import Mathlib.Algebra.Ring.Int.Defs
import Mathlib.Algebra.Ring.Nat
import Mathlib.Logic.Function.Basic

/-! The enumerations shared by the kernel modules (`procinfo.h`, `interrupt.h`). -/

namespace EwokOS.Kernel

/-- `info.type`: a process owns its address space, a thread runs in its owner's. -/
inductive TaskType where | proc | thread
  deriving DecidableEq, Repr

/-- `info.state`. -/
inductive TaskState where | unused | created | sleeping | wait | block | ready | running | zombie
  deriving DecidableEq, Repr

/-- `interrupt.state` of an address space. -/
inductive IntrState where | idle | start | working
  deriving DecidableEq, Repr

end EwokOS.Kernel
