import Hashish.ArrayCorrectness
import Hashish.ArrayHoles
import Hashish.ArrayVariants
import Hashish.BloomBits
import Hashish.BucketSizes
import Hashish.ClientIsolation
import Hashish.DivisionSafety
import Hashish.HashCollisions
import Hashish.HashFunctions
import Hashish.InsertAtomicity
import Hashish.IntegerKeys
import Hashish.IteratorRetries
import Hashish.IteratorSessions
import Hashish.KeyHashes
import Hashish.Lib.Chain
import Hashish.ListChains
import Hashish.ListCorrectness
import Hashish.LoadFactor
import Hashish.LockDiscipline
import Hashish.OwnershipLedger
import Hashish.RehashCorrectness
import Hashish.RehashSuccess
import Hashish.SecondHash
import Hashish.SharedMap
import Hashish.SharedProgress
import Hashish.TableSize
import Hashish.TypedKeys
