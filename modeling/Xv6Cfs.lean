import Xv6Cfs.RedBlack.Tree
import Xv6Cfs.Queue.Stable
import Xv6Cfs.RedBlack.Insert
import Xv6Cfs.Kernel.Proc
import Xv6Cfs.Kernel.QueueRuns
import Xv6Cfs.Proof.InsertProc
import Xv6Cfs.Proof.Period
import Xv6Cfs.Kernel.Code
import Xv6Cfs.Kernel.Machine
import Xv6Cfs.Kernel.Nice
import Xv6Cfs.Proof.Accounting
import Xv6Cfs.Proof.Fairness
import Xv6Cfs.Proof.Minimum
import Xv6Cfs.Proof.Nice
import Xv6Cfs.Proof.Views
import Xv6Cfs.Proof.Code
import Xv6Cfs.Kernel.Properties
import Xv6Cfs.Proof.Ancestry
import Xv6Cfs.Proof.Base
import Xv6Cfs.Proof.Core
import Xv6Cfs.Proof.Deadlock
import Xv6Cfs.Proof.Calls
import Xv6Cfs.Proof.Charges
import Xv6Cfs.Proof.Frozen
import Xv6Cfs.Proof.Reaping
import Xv6Cfs.Proof.Slices
import Xv6Cfs.Visual.Chart
import Xv6Cfs.Visual.Polls
import Xv6Cfs.Visual.Safe
import Xv6Cfs.Kernel.Fork
import Xv6Cfs.Kernel.Integrity
import Xv6Cfs.Proof.Fork
import Xv6Cfs.Proof.Integrity
import Xv6Cfs.Proof.Kill
import Xv6Cfs.Proof.Following
import Xv6Cfs.Proof.Rousing
import Xv6Cfs.Proof.Waking
import Xv6Cfs.Proof.Progress
import Xv6Cfs.Proof.Discipline
import Xv6Cfs.Proof.Shares
import Xv6Cfs.Proof.Order
import Xv6Cfs.Proof.Doom
import Xv6Cfs.Proof.Lifecycle
import Xv6Cfs.Proof.Printing
import Xv6Cfs.Proof.Clock
import Xv6Cfs.Proof.Ticking
import Xv6Cfs.Proof.Fruitless
