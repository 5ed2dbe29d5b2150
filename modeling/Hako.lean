import Hako.FakeIP.Memory
import Hako.FakeIP.Persistent
import Hako.Resolver.Hosts
import Hako.OpenVPN.Reliable
import Hako.Mkcp.InFlight
import Hako.Mkcp.Reliable
import Hako.Trie.MapSearch
import Hako.Rules.Parse
import Hako.Tunnel.Match
import Hako.AnyTLS.Session
import Hako.AnyTLS.Pool
import Hako.Override.Assign
import Hako.Sudoku.Layout
import Hako.Bind.ConnectionEvents
import Hako.Bind.ModeStream
import Hako.Bind.PathSettle
import Hako.Sniffer.Quic
import Hako.Sniffer.Tls
import Hako.Vision.Read
import Hako.Multiplex.Delivery
import Hako.Geodata.Compiled
import Hako.Bind.ClassicalDomains
import Hako.Bind.ProxyImport
import Hako.Bind.BearerWitness
import Hako.Xhttp.UploadQueue
import Hako.Snell.V4
import Hako.Vless.CommonConn
import Hako.Obfs.Tls
import Hako.Sudoku.RecordConn
import Hako.Multiplex.Shutdown
import Hako.TlsMirror.Forward
import Hako.OpenVPN.Epochs
import Hako.Hysteria.Frag
import Hako.Outbound.Groups
import Hako.Tuic.WindowedFilter
import Hako.Common.SingleDo
import Hako.Outbound.GroupBase
import Hako.Dns.Ttl
import Hako.Cidr.IpCidrSet
import Hako.Common.RangesText
