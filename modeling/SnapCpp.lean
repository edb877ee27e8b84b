import SnapCpp.LockNotification
import SnapCpp.LockWaiting
import SnapCpp.LockMembership
import SnapCpp.MessageCache
import SnapCpp.MessageReadable
import SnapCpp.TimerSchedule
import SnapCpp.RegisterFlush
import SnapCpp.GossipOnce
import SnapCpp.GossipService
import SnapCpp.GossipCoverage
import SnapCpp.DbProxySync
import SnapCpp.EmailAtoms
import SnapCpp.DomainLowercase
import SnapCpp.EmailLists
import SnapCpp.TldSpelling
import SnapCpp.QuotedWellFormed
import SnapCpp.Compression
import SnapCpp.Tar
import SnapCpp.LinkFrame
import SnapCpp.LinkUndo
import SnapCpp.LinkContext
import SnapCpp.WeightedRoundTrip
import SnapCpp.DependencyRoundTrip
import SnapCpp.ConnectionPriorities
import SnapCpp.LockCleanup
import SnapCpp.DecoderBounds
import SnapCpp.ConfigReading
import SnapCpp.ExprPrecedence
import SnapCpp.ExprParentheses
import SnapCpp.TableExists
import SnapCpp.BatchHandles
import SnapCpp.UriTld
import SnapCpp.AddrBare
import SnapCpp.AddrNetwork
import SnapCpp.AddrRanges
import SnapCpp.FilenameReading
import SnapCpp.FindVersion
import SnapCpp.UriHashBang
import SnapCpp.FuzzySearch
import SnapCpp.SnapUtf8
import SnapCpp.CssUtf8
import SnapCpp.CssRange
import SnapCpp.CssComment
import SnapCpp.Dimensions
import SnapCpp.NthChild
import SnapCpp.CssClone
import SnapCpp.CssArgify
import SnapCpp.CookieHeader
import SnapCpp.EnvironmentArguments
import SnapCpp.LockSaturation
import SnapCpp.ExprArchive
import SnapCpp.ParserLexing
