import Dnsmasq.Forward.Run
import Dnsmasq.Auth.Answer
import Dnsmasq.DomainMatch.Reload
import Dnsmasq.DomainMatch.Wildcard
import Dnsmasq.Dhcp.Handshake
import Dnsmasq.Dhcp.LeaseNames
import Dnsmasq.Dhcp.Options
import Dnsmasq.Dhcp6.HostAddresses
import Dnsmasq.Dhcp6.TagList
import Dnsmasq.Dhcp6.Contained
import Dnsmasq.Dhcp6.Times
import Dnsmasq.Dhcp6.HostsConfig
import Dnsmasq.Domain.Synthetic
import Dnsmasq.Cache.NonTerminals
import Dnsmasq.Tftp.Contained
import Dnsmasq.Tftp.Transfer
import Dnsmasq.Port.NoPanic
import Dnsmasq.Port.Injective
import Dnsmasq.Port.Compress
import Dnsmasq.Port.Agree
import Dnsmasq.Dnssec.ZoneStatus
import Dnsmasq.Dnssec.Base32
import Dnsmasq.Dnssec.Nsec3Sound
import Dnsmasq.Port.LeaseSurvival
import Dnsmasq.Port.DhcpOwnership
import Dnsmasq.Dnssec.NameOrder
import Dnsmasq.Cache.Iterate
import Dnsmasq.Rfc1035.SkipName
import Dnsmasq.Edns0.Pseudoheader
import Dnsmasq.Dnssec.KeyTag
import Dnsmasq.Util.HexMask
