import SsaIr.Graph.Print
import SsaIr.Memory.TextBuffer

/-!
# Printing into an arena

The text of a module (`SsaIr.Graph.Print`), written piece by piece into memory of an arena, so that
printing stops at the arena's limit.
-/

namespace SsaIr

def Context.storeModuleText (c : Context) (m : ModuleId) : Allocate String := do
  (← ({} : TextBuffer).appendAll (c.moduleFragments m)).text

end SsaIr
