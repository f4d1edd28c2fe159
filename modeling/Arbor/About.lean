/-!
# About the library

* `version`  the version of the library's behaviour.
-/

namespace Arbor

def version : String := "0.1.0"

end Arbor
