import Mftdma.Allocator.Accounting
import Mftdma.Allocator.Backing
import Mftdma.Allocator.Configuration
import Mftdma.Allocator.Drain
import Mftdma.Allocator.Fairness
import Mftdma.Allocator.Fit
import Mftdma.Allocator.Tbtp
import Mftdma.Allocator.Timing
import Mftdma.Allocator.Turns
import Mftdma.Allocator.Utilization
import Mftdma.Atm.Admission
import Mftdma.Atm.Isolation
import Mftdma.Atm.Loss
import Mftdma.Atm.Network
import Mftdma.Atm.RoundTrip
import Mftdma.Dama.Drain
import Mftdma.Mpeg.Arrays
import Mftdma.Mpeg.Loss
import Mftdma.Mpeg.Probe
import Mftdma.Mpeg.Pusi
import Mftdma.Mpeg.Star
import Mftdma.Mpeg.Tables
import Mftdma.Mpeg.Timers
import Mftdma.Queue.PrioFid
import Mftdma.Requester.Ledger
import Mftdma.Rle.Capacity
import Mftdma.Rle.Drain
import Mftdma.Rle.Reassembly
import Mftdma.Rle.Represented
import Mftdma.Rle.Resync
import Mftdma.Rle.RoundTrip
import Mftdma.Rle.Tiling
import Mftdma.Tdma.Delivery
import Mftdma.Traffic.Call
import Mftdma.Utils.Capture
import Mftdma.Utils.Pool
import Mftdma.Utils.Quantile
import Mftdma.Utils.Report
