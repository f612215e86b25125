import AdaptiveSync.Checksum
import AdaptiveSync.PaddedBuffer
import AdaptiveSync.Protobuf
import AdaptiveSync.Protocol.Finalisation
import AdaptiveSync.Protocol.BlockSize
import AdaptiveSync.Protocol.Answers
import AdaptiveSync.Server.Commit
import AdaptiveSync.Server.Escape
import AdaptiveSync.Server.Sections
import AdaptiveSync.Server.BlockCalls
import AdaptiveSync.Server.Leftovers
import AdaptiveSync.Server.Uploads
import AdaptiveSync.Server.Handshake
import AdaptiveSync.Client.Rebuild
import AdaptiveSync.Desktop.ClientSlot
import AdaptiveSync.Protocol.FramedDownload
import AdaptiveSync.Client.Replacement
import AdaptiveSync.Server.BlockCounts
import AdaptiveSync.Desktop.Import
import AdaptiveSync.Desktop.TransferQueue
import AdaptiveSync.Server.Listings
import AdaptiveSync.Lib.Periodic
import AdaptiveSync.Desktop.ImportTermination
import AdaptiveSync.Lib.Copies
import AdaptiveSync.Desktop.ImportContent
import AdaptiveSync.Server.CommandLine
import AdaptiveSync.Server.Listener
import AdaptiveSync.Server.Shutdown
import AdaptiveSync.Protocol.Separated
import AdaptiveSync.Desktop.Handlers
import AdaptiveSync.Desktop.Turns
import AdaptiveSync.Protocol.Transfers
import AdaptiveSync.Desktop.Synchronisation
import AdaptiveSync.Server.SessionStream
import AdaptiveSync.Protocol.Touches
import AdaptiveSync.Lib.Shared
import AdaptiveSync.Server.DiskCalls
import AdaptiveSync.Protocol.Isolation
import AdaptiveSync.Desktop.PickedFiles
import AdaptiveSync.Desktop.DroppedFiles
