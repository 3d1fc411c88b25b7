import MyFS.Layout
import MyFS.Atomicity
import MyFS.Reconnect
import MyFS.ConcurrentAppends
import MyFS.FailedCreation
import MyFS.Truncation
import MyFS.Handles
import MyFS.Notices
import MyFS.Collation
import MyFS.ConfigFile
import MyFS.DatabaseCheck
import MyFS.QueryTimed
import MyFS.Setup
import MyFS.FirstMount
import MyFS.Removal
import MyFS.Subtree
import MyFS.Links
import MyFS.ListingRaces
import MyFS.ExchangeFailures
import MyFS.OwnIds
import MyFS.CachedSize
import MyFS.Addressing
import MyFS.ShrinkLoop
import MyFS.ReadBounds
import MyFS.Reading
import MyFS.SequentialWrites
import MyFS.TruncateRaces
import MyFS.Answers
import MyFS.SharedService
