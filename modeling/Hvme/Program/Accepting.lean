import Hvme.Program.Relayout
import Hvme.Scanner.Carrying

set_option autoImplicit false

namespace Hvme

section files

variable (cfg : Config)

variable {cfg}

variable {statics : Statics} {src : Source}

/-- `memcpy` copies validly, whatever the scan of the file carries over from one block to the next. -/
def Source.CopiesValidly (cfg : Config) (src : Source) (statics : Statics) : Prop :=
  ∀ content round, src.content = some content → Round.Reached cfg (src.scanner statics) content round →
    round.CopiesValidly cfg

end files

end Hvme
