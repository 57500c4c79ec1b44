import BarqSync.IntegerCodec
import BarqSync.Transform.Proofs.Tp1
import BarqSync.Server.Proofs.Dir
import BarqSync.Server.Proofs.Sessions
import BarqSync.Server.Proofs.Reciprocal
import BarqSync.Client.Proofs.Subscriptions
import BarqSync.Server.Flx.Persisted
import BarqSync.Server.Flx.Proofs.Reveal
import BarqSync.ObjectStore.Proofs.Mutators
import BarqSync.Storage.ArrayDirect
import BarqSync.Storage.Layout
import BarqSync.Storage.Proofs.Interruption
import BarqSync.Storage.Proofs.HeldLocks
import BarqSync.Vector.Proofs.Candidates
import BarqSync.Vector.Proofs.Bulk
import BarqSync.Vector.Proofs.TableIndex
