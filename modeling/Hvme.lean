import Hvme.Parser.Language
import Hvme.Parser.Tableless
import Hvme.Parser.Printing
import Hvme.Parser.Pieces
import Hvme.Program.Separate
import Hvme.Scanner.Words
import Hvme.Scanner.Relayout
import Hvme.Scanner.Carrying
import Hvme.Symbols.Duplicates
import Hvme.Symbols.Reinserting
import Hvme.Machine.Shrinking
import Hvme.Machine.Errors
import Hvme.Machine.Layout
import Hvme.Machine.Calls
import Hvme.Machine.Jumps
import Hvme.Machine.Footprint
import Hvme.Machine.Capacity
import Hvme.Machine.Heap
import Hvme.Machine.Pointers
import Hvme.Machine.Builtins
import Hvme.Machine.Output
import Hvme.Vm.Linking
import Hvme.Vm.Shapes
import Hvme.Machine.Unread
import Hvme.Program.Locating
import Hvme.Program.Accepting
