import Govis.Threshold
import Govis.Interpolation
import Govis.Lindell.SignSecrecy
import Govis.Cggmp21.KeySecrecy
import Govis.Cggmp21.PresignConsistency
import Govis.Panics
import Govis.Cggmp21.KeygenBias
import Govis.Mta
import Govis.Transcripts
import Govis.Blum
import Govis.Modinv
import Govis.Generator
import Govis.Lindell.SignPanics
import Govis.RecoveryId
import Govis.Lindell.Encodings
import Govis.KeyFiles
import Govis.Cli.Checks
import Govis.Tcp.Authentic
import Govis.Tcp.Routing
import Govis.Tcp.Agreement
import Govis.Tcp.Sink
import Govis.Tcp.Handshake
import Govis.Plaintexts
import Govis.Tcp.Protocols
import Govis.Tcp.Channels
import Govis.Lindell.Blame
import Govis.Lindell.Bias
import Govis.Lindell.SignAgreement
import Govis.Lindell.Proactive
import Govis.Lindell.TrustedDealer
import Govis.Cli.StoredKeys
import Govis.Cli.LoadedKeys
import Govis.Ciphertexts
import Govis.Lindell.SignSplit
import Govis.Tcp.Exits
import Govis.Tcp.Processes
import Govis.Tcp.RunCggmp21
