import HahaDogOps.Lib.Lines
import HahaDogOps.Lib.Run
import HahaDogOps.Lib.Nest
import HahaDogOps.Lib.Ordered
import HahaDogOps.Lib.Bisect
import HahaDogOps.Lib.Journal
import HahaDogOps.Lib.Radix
import HahaDogOps.Lib.Span
import HahaDogOps.Shell.Read
import HahaDogOps.Shell.Sed
import HahaDogOps.Ini.Reader
import HahaDogOps.Ini.Settings
import HahaDogOps.Nginx.Conf
import HahaDogOps.Entrypoint.Model
import HahaDogOps.Entrypoint.Restart
import HahaDogOps.Entrypoint.IniItems
import HahaDogOps.Entrypoint.ModRewrite
import HahaDogOps.Entrypoint.NginxFile
import HahaDogOps.Entrypoint.Agreement
import HahaDogOps.Entrypoint.NginxMarks
import HahaDogOps.Entrypoint.NginxEdits
import HahaDogOps.Deploy.Docker
import HahaDogOps.Deploy.Scripts
import HahaDogOps.Deploy.Isolation
import HahaDogOps.Deploy.Rollout
import HahaDogOps.Deploy.Failure
import HahaDogOps.Mysql.Backup
import HahaDogOps.Storage.Base64
import HahaDogOps.Storage.AvlTree
import HahaDogOps.Storage.AvlContents
import HahaDogOps.Storage.FreeBlock
import HahaDogOps.Storage.TrunkMem
import HahaDogOps.Storage.TrunkPool
import HahaDogOps.Storage.TrunkRestore
import HahaDogOps.Storage.TrunkRuns
import HahaDogOps.Storage.TrunkSafety
import HahaDogOps.Storage.StorePath
import HahaDogOps.Storage.FileName
import HahaDogOps.Storage.NameRoundTrip
import HahaDogOps.Storage.TrunkFiles
import HahaDogOps.Storage.TrunkStore
import HahaDogOps.Storage.TrunkKept
import HahaDogOps.Storage.TrunkDurable
