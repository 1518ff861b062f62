import OpenwrtFeed.Lib.Tree
import OpenwrtFeed.Lib.Shell
import OpenwrtFeed.Pages.Content
import OpenwrtFeed.Lib.Update
import OpenwrtFeed.Pages.Retention
import OpenwrtFeed.Pages.Index
import OpenwrtFeed.Pages.Apply
import OpenwrtFeed.Lib.Atomic
import OpenwrtFeed.Pages.Branch
import OpenwrtFeed.Pages.Request
import OpenwrtFeed.Pages.Race
import OpenwrtFeed.Pages.History
import OpenwrtFeed.Feed.Publish
import OpenwrtFeed.Feed.Mirror
import OpenwrtFeed.Feed.Rollback
import OpenwrtFeed.Lib.Loop
import OpenwrtFeed.Mhi.Frame
import OpenwrtFeed.Mhi.Receive
import OpenwrtFeed.Lib.Custody
import OpenwrtFeed.Lib.HashTable
import OpenwrtFeed.Mhi.Nss
import OpenwrtFeed.Lib.Assignments
import OpenwrtFeed.Mhi.Lifecycle
import OpenwrtFeed.Scripts.Bump
import OpenwrtFeed.Mhi.Decode
import OpenwrtFeed.Mhi.Command
import OpenwrtFeed.Mhi.Mbim
import OpenwrtFeed.Mhi.Ntb
import OpenwrtFeed.Mhi.Delivery
import OpenwrtFeed.Mhi.Session
import OpenwrtFeed.Lib.Ranking
import OpenwrtFeed.Pages.Retained
import OpenwrtFeed.Pages.Carry
import OpenwrtFeed.Lib.Dotted
import OpenwrtFeed.Feed.Repair
import OpenwrtFeed.Scripts.Downgrade
import OpenwrtFeed.Scripts.Watchdog
import OpenwrtFeed.Scripts.ReleaseTag
import OpenwrtFeed.Pages.VersionsTsv
import OpenwrtFeed.Pages.IndexJson
import OpenwrtFeed.Scripts.Assets
import OpenwrtFeed.Pages.Truth
import OpenwrtFeed.Lib.Href
import OpenwrtFeed.Pages.Links
import OpenwrtFeed.Pages.Retry
import OpenwrtFeed.Mhi.LinkState
import OpenwrtFeed.Lib.ByteOrder
import OpenwrtFeed.Mhi.HostOrder
import OpenwrtFeed.Lib.Circular
import OpenwrtFeed.Lib.Trace
import OpenwrtFeed.Mhi.Ring
import OpenwrtFeed.Mhi.Power
import OpenwrtFeed.Mhi.Channel
import OpenwrtFeed.Mhi.Transfer
import OpenwrtFeed.Mhi.Returns
import OpenwrtFeed.Lib.Votes
import OpenwrtFeed.Mhi.Controller
import OpenwrtFeed.Lib.Batching
import OpenwrtFeed.Usb.Uplink
import OpenwrtFeed.Usb.Aggregate
import OpenwrtFeed.Usb.Flush
import OpenwrtFeed.Usb.Decode
import OpenwrtFeed.Mhi.Events
import OpenwrtFeed.Mhi.Polling
import OpenwrtFeed.Mhi.Wakeup
import OpenwrtFeed.Mhi.Uci
import OpenwrtFeed.Mhi.UciRead
import OpenwrtFeed.Mhi.UciError
import OpenwrtFeed.Mhi.UciWrite
import OpenwrtFeed.Mhi.Flow
import OpenwrtFeed.Lib.Ownership
import OpenwrtFeed.Mhi.UciNode
import OpenwrtFeed.Mhi.UciMemory
import OpenwrtFeed.Mhi.UciCopies
