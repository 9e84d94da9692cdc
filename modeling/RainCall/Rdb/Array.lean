import RainCall.ArrayCommands.Ring
import RainCall.Rdb.Strings

/-!
# Arrays in RDB files

`rdb.c`: the array branches of `rdbSaveObject` and `rdbLoadObject`. An array is saved as its count,
its `insert_idx` and its elements with their indices. Nothing of the layout is saved: an array is
loaded into slices of the size configured at that time.
-/

namespace RainCall

end RainCall
