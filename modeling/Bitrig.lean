import Bitrig.Uipc.Collect
import Bitrig.Wapbl.Header
import Bitrig.Wapbl.WriteAhead
import Bitrig.Wapbl.Buffered
import Bitrig.Wapbl.ReadThrough
import Bitrig.Vis.RoundTrip
import Bitrig.Advlock.Offsets
import Bitrig.Advlock.Deadlock
import Bitrig.Bpf.Chain
import Bitrig.IpEsp.NoReplay
import Bitrig.IpInput.Arithmetic
import Bitrig.KernRwlock.Wakeup
import Bitrig.Pf.AnchorOf
import Bitrig.PfState.Consistency
import Bitrig.PfNorm.Reassembly
import Bitrig.SubrExtent.AllocatedSet
import Bitrig.Sysvsem.Retries
import Bitrig.Sysvsem.AllOrNothing
import Bitrig.Sysvsem.Adjustments
import Bitrig.Sysvsem.Legal
import Bitrig.Sysvsem.Live
import Bitrig.Sysvmsg.Lookup
import Bitrig.TcpInput.Delivery
import Bitrig.TcpInput.Scoreboard
import Bitrig.Timeout.OnTime
import Bitrig.TtySubr.Counting
import Bitrig.TtySubr.Fifo
import Bitrig.UipcMbuf.Splitting
