/-!
# Sizes of cache lines, pages and buffers

The constants of `benchmark_utils.h` that the tests measure by.
-/

namespace HwBench

def cacheLineSize : Nat := 64
def pageSize4K : Nat := 4096
def pageSize2M : Nat := 2 * 1024 * 1024
def KB : Nat := 1024
def MB : Nat := 1024 * 1024

end HwBench
