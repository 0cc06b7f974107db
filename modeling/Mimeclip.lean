import Mimeclip.PayloadHash
import Mimeclip.PipeRounds
import Mimeclip.DbLru
import Mimeclip.Echo
import Mimeclip.Restore
import Mimeclip.Listener
import Mimeclip.Offers
import Mimeclip.RoundTrip
import Mimeclip.Label
import Mimeclip.Channels
import Mimeclip.Migration
import Mimeclip.Config
import Mimeclip.Coherence
import Mimeclip.OfferLife
import Mimeclip.Screenshot
import Mimeclip.SizeText
import Mimeclip.Rfc3339
import Mimeclip.ConfigFile
import Mimeclip.Server
import Mimeclip.ScreenshotPath
import Mimeclip.Bounds
import Mimeclip.Interactive
import Mimeclip.ConfigSave
import Mimeclip.Reconnect
import Mimeclip.ScreenshotCapture
import Mimeclip.Requests
import Mimeclip.Client
import Mimeclip.Paste
import Mimeclip.HistoryFiles
