import BobchouOS.Vm.System

open lib

namespace bobchouos

namespace Vm

namespace Machine

variable {k : Symbols} {binaries : List Binary} {m : Machine} {s s' : Kmem} {p p' : Proc} {i : Nat} {path : Bytes}
  {argv : List Bytes} {r : Int}

end Machine

end Vm

end bobchouos
