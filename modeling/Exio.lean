import Exio.Scan
import Exio.Decimal
import Exio.Word
import Exio.Memory
import Exio.Stream
import Exio.Steps
import Exio.KeyIndex
import Exio.Cyclic
import Exio.Replica
import Exio.Access
import Exio.OrderedUnion
import Exio.Numbered
import Exio.Sam
import Exio.SamMerge
import Exio.SamContainer
import Exio.SamBuffer
import Exio.SamEncode
import Exio.SamDecode
import Exio.SamRoundTrip
import Exio.SamGrammar
import Exio.SamProgress
import Exio.SamReads
import Exio.SamLength
import Exio.SamHistory
import Exio.SamWithin
import Exio.SamBuilt
import Exio.SamPath
import Exio.QName
import Exio.SamInjective
import Exio.SamSize
import Exio.ClientInput
import Exio.ClientOffer
import Exio.ClientOutput
import Exio.SessionSend
import Exio.ReactorNotif
import Exio.ReactorRun
import Exio.OrderlyClose
import Exio.Registry
import Exio.Sessions
import Exio.Publication
import Exio.AdminRequest
import Exio.AdminClient
import Exio.AdminArguments
import Exio.Table
import Exio.TableMessages
import Exio.TableReplica
import Exio.TableShape
import Exio.TableUpdate
import Exio.TableCopy
import Exio.TableRows
import Exio.TableSnapshot
import Exio.TableResponse
import Exio.TableDescr
import Exio.Transport
import Exio.TablePublish
import Exio.TableStream
import Exio.Monitor
import Exio.MonitorCopy
import Exio.RemoteTables
import Exio.SessionLife
import Exio.SessionSafe
import Exio.SessionReclaim
import Exio.AdminServer
import Exio.AdminListener
import Exio.AdminRpc
import Exio.AdminExit
import Exio.AdminCompletes
