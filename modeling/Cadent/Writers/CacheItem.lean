import Cadent.Lib.Maps
import Cadent.Series.TimeSeries

/-!
# What the caches hold

The types the single and the chunk cache share. A name is seen through its key and the
unique id that the key and the tags hash to; the hash itself is not modelled.
-/

namespace Cache

open TimeSeries

abbrev StatId := BitVec 64

structure StatName where
  key : String
  uniqueId : StatId
  deriving DecidableEq, Repr

/-- The place of a point in the stream it was read from. -/
structure OffsetInSeries where
  offset : BitVec 64
  partition : BitVec 32
  topic : String
  deriving DecidableEq, Repr

structure CacheItem (S : Type) where
  name : StatName
  series : S
  offset : Option OffsetInSeries
  started : BitVec 32

/-! ### A metric for concrete runs -/

def load : StatName := ⟨"servers.a.load", 7#64⟩

/-- One second after the other, in nanoseconds. -/
def sample (second : Nat) : Point :=
  ⟨BitVec.ofNat 64 (second * 1000000000), 0#64, 0#64, 0#64, 0#64, 1#64⟩

end Cache
