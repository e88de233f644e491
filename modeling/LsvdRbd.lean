import LsvdRbd.Cache.Fetch
import LsvdRbd.Cache.Index
import LsvdRbd.Cache.Pending
import LsvdRbd.Cache.Singleton
import LsvdRbd.ExtentMap.Displaced
import LsvdRbd.ExtentMap.Merging
import LsvdRbd.ExtentMap.Safety
import LsvdRbd.Format.Clone
import LsvdRbd.Image.Completion
import LsvdRbd.Image.Polling
import LsvdRbd.Image.Serial
import LsvdRbd.Image.WriteSame
import LsvdRbd.Journal.File
import LsvdRbd.Journal.Order
import LsvdRbd.Journal.Rooms
import LsvdRbd.Journal.Window
import LsvdRbd.Lifecycle.Closing
import LsvdRbd.Lifecycle.Durability
import LsvdRbd.Lifecycle.Reopening
import LsvdRbd.Lifecycle.Resumption
import LsvdRbd.Lifecycle.Traffic
import LsvdRbd.Recovery.Log
import LsvdRbd.Recovery.Trims
import LsvdRbd.Session.Addresses
import LsvdRbd.Session.Barrier
import LsvdRbd.Session.Batches
import LsvdRbd.Session.Crashes
import LsvdRbd.Session.Destination
import LsvdRbd.Session.Outstanding
import LsvdRbd.Session.Pins
import LsvdRbd.Session.Readable
import LsvdRbd.Session.TempFile
import LsvdRbd.Session.Totals
import LsvdRbd.Session.Trims
import LsvdRbd.Session.Waits
import LsvdRbd.Translate.Drift
import LsvdRbd.Translate.Layers
import LsvdRbd.Translate.Placement
