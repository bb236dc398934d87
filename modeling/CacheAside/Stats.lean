import CacheAside.Binary64

/-!
# Statistics

Counters of what the calls of a process have met. They wrap around.
-/

namespace CacheAside

structure Stats where
  /-- Keys answered from the cache. -/
  hits : UInt64 := 0
  /-- Keys left to the data source. -/
  misses : UInt64 := 0
  /-- Failed reads of the store. -/
  storeErrors : UInt64 := 0
  /-- Writes that the store accepted. -/
  writes : UInt64 := 0
  /-- Failed writes and deletes, and values that could not be encoded. -/
  writeFailures : UInt64 := 0
  /-- Entries removed by invalidation. -/
  invalidations : UInt64 := 0
  deriving DecidableEq

namespace Stats

/-- The share of hits in all lookups. -/
def hitRate (s : Stats) : Binary64 := .ratio s.hits (s.hits + s.misses)

def addHits (n : Nat) (s : Stats) : Stats := { s with hits := s.hits + UInt64.ofNat n }

def addMisses (n : Nat) (s : Stats) : Stats := { s with misses := s.misses + UInt64.ofNat n }

def addStoreError (s : Stats) : Stats := { s with storeErrors := s.storeErrors + 1 }

def addWrite (s : Stats) : Stats := { s with writes := s.writes + 1 }

def addWriteFailure (s : Stats) : Stats := { s with writeFailures := s.writeFailures + 1 }

def addInvalidation (s : Stats) : Stats := { s with invalidations := s.invalidations + 1 }

end Stats

end CacheAside
