import NetworkingLabs.RtpHandshake
import NetworkingLabs.RouterQuiescence
import NetworkingLabs.RouterExit
import NetworkingLabs.SwitchStorms
import NetworkingLabs.SwitchUnicast
import NetworkingLabs.RtpWire
import NetworkingLabs.RtpReorder
import NetworkingLabs.RtpSenderAlone
import NetworkingLabs.RouterNatRoundTrip
import NetworkingLabs.FtpStream
import NetworkingLabs.FtpAccess
import NetworkingLabs.FtpSession
import NetworkingLabs.FtpGuard
import NetworkingLabs.RtpChecksum
import NetworkingLabs.RtpPeer
import NetworkingLabs.RouterLocal
import NetworkingLabs.RouterPorts
import NetworkingLabs.RouterLookup
import NetworkingLabs.RouterPool
import NetworkingLabs.RouterMessages
import NetworkingLabs.RouterUnset
import NetworkingLabs.FtpCredentials
import NetworkingLabs.FtpUpload
import NetworkingLabs.FtpSockets
import NetworkingLabs.FtpDecoder
import NetworkingLabs.FtpListings
import NetworkingLabs.RtpByteCount
import NetworkingLabs.RouterConvergence
import NetworkingLabs.RouterDelivery
import NetworkingLabs.RouterBytes
import NetworkingLabs.RtpDuplex
import NetworkingLabs.RtpCompletion
