import MdCrdt.Core.MarkHistory
import MdCrdt.Session.TableHistory
import MdCrdt.Session.Deferral
import MdCrdt.Session.ExactExport
import MdCrdt.Session.FrontmatterOrders
import MdCrdt.Session.Backpressure
import MdCrdt.Session.Confinement
import MdCrdt.Session.Clock
import MdCrdt.Session.Agreement
import MdCrdt.Session.SingleAuthor
import MdCrdt.Vault.Replay
import MdCrdt.Storage.Segments
import MdCrdt.Vault.Paths
import MdCrdt.Codec.Nesting
import MdCrdt.Session.ByteRanges
import MdCrdt.Vault.Diff
import MdCrdt.Vault.Matching
import MdCrdt.Vault.Revisions
