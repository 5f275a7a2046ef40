import LumettaOS.Lifetime
import LumettaOS.Loading

/-! The first word of a command against what `sys_execute` does. The built-in command
is recognised by four bytes and a file by 32, so longer words can stand for either. -/

namespace LumettaOS.System
open Lib.Runs Execute CString

section

variable {img : Image} {r : Fin 6} {s : System} {c : Memory} {w : List Byte}

end

section Runs

variable {img : Image} {behind : Memory} {f : Frame} {m : Machine} {s₀ s : System} {r : Fin 6}

end Runs

end LumettaOS.System
