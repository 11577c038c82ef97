/-!
# Limits of storage
-/

namespace SoftError.Storage

/-- Whether `n` entries of the given number of bytes fit into an address space. -/
def fits (n bytes : Nat) : Bool := n * bytes < 1 <<< 63

end SoftError.Storage
