import HotStuff.CommitLog
import HotStuff.Voting
import HotStuff.Delivery
import HotStuff.Agreement
import HotStuff.Tails
import HotStuff.Wire
import HotStuff.Commands
import HotStuff.Replica
import HotStuff.Certificates
import HotStuff.Fetch
import HotStuff.Decide
import HotStuff.Network
import HotStuff.Handoff
import HotStuff.PeerNetwork
import HotStuff.Progress
import HotStuff.Start
