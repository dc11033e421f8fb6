import MessageMachine.Bootstrap
import MessageMachine.Config.Settings
import MessageMachine.Fault.Message
import MessageMachine.Host
import MessageMachine.Proofs.Aborting
import MessageMachine.Proofs.Accounting
import MessageMachine.Proofs.Addressing
import MessageMachine.Proofs.Areas
import MessageMachine.Proofs.Arities
import MessageMachine.Proofs.Atomicity
import MessageMachine.Proofs.Balancing
import MessageMachine.Proofs.Building
import MessageMachine.Proofs.Caching
import MessageMachine.Proofs.Choosing
import MessageMachine.Proofs.Contexts
import MessageMachine.Proofs.Defects
import MessageMachine.Proofs.Escaping
import MessageMachine.Proofs.Filling
import MessageMachine.Proofs.Flooring
import MessageMachine.Proofs.Holders
import MessageMachine.Proofs.Interning
import MessageMachine.Proofs.Layouts
import MessageMachine.Proofs.Limits
import MessageMachine.Proofs.Looping
import MessageMachine.Proofs.Mirroring
import MessageMachine.Proofs.Reifying
import MessageMachine.Proofs.Robustness
import MessageMachine.Proofs.Sending
import MessageMachine.Proofs.Sharing
import MessageMachine.Proofs.SuperSending
import MessageMachine.Proofs.Terminating
import MessageMachine.Proofs.Unwinding
