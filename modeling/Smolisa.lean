import Smolisa.Listing.Dump
import Smolisa.Listing.Row
import Smolisa.Machine.Run
import Smolisa.Proofs.Interpreter
import Smolisa.Proofs.FaultConditions
import Smolisa.Proofs.Call
import Smolisa.Proofs.Stopped
import Smolisa.Proofs.Replay
import Smolisa.Proofs.Agreement
import Smolisa.Proofs.Reachable
import Smolisa.Proofs.Resumption
import Smolisa.Proofs.SelfLoop
import Smolisa.Proofs.Lockstep
import Smolisa.Proofs.Profiles
import Smolisa.Proofs.Growth
import Smolisa.Proofs.Diagnosis
import Smolisa.Proofs.Latch
import Smolisa.Proofs.Dependence
import Smolisa.Proofs.History
import Smolisa.Proofs.Accounting
import Smolisa.Proofs.Alignment
import Smolisa.Proofs.Commit
import Smolisa.Proofs.Disassembly
import Smolisa.Proofs.Preview
import Smolisa.Proofs.ReadOnly
import Smolisa.Proofs.ControlHistory
import Smolisa.Proofs.Window
import Smolisa.Proofs.LastWriter
import Smolisa.Proofs.RegisterDump
import Smolisa.Proofs.Assembly
import Smolisa.Proofs.Constants
import Smolisa.Proofs.Action
import Smolisa.Proofs.Cycle
import Smolisa.Proofs.Iteration
import Smolisa.Proofs.Run
import Smolisa.Proofs.Staging
import Smolisa.Proofs.Step
