import Clove.Lib.Outcome
import Clove.Lib.OrdMap
import Clove.Lib.Decimal
import Clove.Lib.Hex
import Clove.Lib.Utf8
import Clove.Lib.Lists
import Clove.Lib.Map
import Clove.Lib.Machine
import Clove.Lib.Log
import Clove.Bencode
import Clove.BencodeGrammar
import Clove.BencodeCanonical
import Clove.Bitfield
import Clove.BitfieldMembers
import Clove.Wire
import Clove.WireRoundTrip
import Clove.Extension
import Clove.Picker
import Clove.PickerAccounting
import Clove.PickerInvariants
import Clove.PickerOffers
import Clove.Choker
import Clove.ChokerRounds
import Clove.Metainfo
import Clove.MetainfoChecks
import Clove.Text
import Clove.Magnet
import Clove.Resume
import Clove.ResumeCompat
import Clove.Storage
import Clove.Budget
import Clove.Demux
import Clove.FlatStorage
import Clove.Announce
import Clove.Naming
import Clove.Torrent.State
import Clove.Torrent.Handlers
import Clove.Torrent.Run
import Clove.Torrent.Footprint
import Clove.Torrent.Accounting
import Clove.Torrent.Effects
import Clove.Torrent.Threads
import Clove.Torrent.Delivery
import Clove.Torrent.Blocks
import Clove.Torrent.Slots
import Clove.Torrent.Availability
import Clove.Torrent.Flapping
import Clove.Torrent.Refills
import Clove.Torrent.Pipeline
import Clove.Torrent.Expiry
import Clove.Torrent.Suspicion
import Clove.Torrent.Interest
import Clove.Torrent.Destinations
import Clove.Torrent.Bans
import Clove.Torrent.Blame
import Clove.Torrent.Integrity
import Clove.Torrent.Stopping
import Clove.Daemon.Hosted
import Clove.Daemon.Order
import Clove.Daemon.Detach
import Clove.Daemon.Records
import Clove.Daemon.Rehash
import Clove.Daemon.Retirement
import Clove.Daemon.Registry
import Clove.Daemon.StateDir
import Clove.Daemon.Exclusive
import Clove.Daemon.Failures
import Clove.Daemon.Fetching
import Clove.Daemon.Names
import Clove.Daemon.Fleet
import Clove.Daemon.Reconcile
import Clove.Assembler
import Clove.Torrent.Fetch
import Clove.TrackerUrl
import Clove.Http
import Clove.AnnounceRequest
import Clove.Hastening
import Clove.Daemon.Completion
import Clove.Torrent.Counters
import Clove.Daemon.Lifetime
import Clove.HttpResponse
import Clove.HttpRoundTrip
import Clove.ExtensionRoundTrip
import Clove.Lib.Regroup
import Clove.Lib.Symbols
import Clove.Base32
import Clove.MagnetTorrent
import Clove.Torrent.Manners
import Clove.Torrent.Acquittal
import Clove.RequestBudget
import Clove.BencodeBudget
import Clove.Base64
import Clove.Destination
import Clove.NamingHold
import Clove.Lib.Words
import Clove.Sam
import Clove.SamReply
import Clove.SamErrors
import Clove.Json
import Clove.JsonRoundTrip
import Clove.Lib.Fairness
import Clove.Torrent.Serving
import Clove.Torrent.Exchange
import Clove.Torrent.Passage
import Clove.Torrent.Allowance
import Clove.BeneathAlone
import Clove.HttpRequest
import Clove.ConfigExact
import Clove.Acknowledged
import Clove.Daemon.Answers
import Clove.Dial
import Clove.Daemon.Recovery
