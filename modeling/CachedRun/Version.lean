/-!
# The version

The version of this service. It is part of every key that the command line makes, so results of
different versions are never mixed.
-/

set_option autoImplicit false

namespace CachedRun.Version

def current : String := "0.1.0"

end CachedRun.Version
