import EffectMachine.Proofs.Acquisition
import EffectMachine.Proofs.Backoffs
import EffectMachine.Proofs.Builders
import EffectMachine.Proofs.Decisions
import EffectMachine.Proofs.Ensuring
import EffectMachine.Proofs.FinalizerFailures
import EffectMachine.Proofs.ProvideLaws
import EffectMachine.Proofs.Leaves
import EffectMachine.Proofs.Lookups
import EffectMachine.Proofs.Policies
import EffectMachine.Proofs.Registers
import EffectMachine.Proofs.Sessions
import EffectMachine.Proofs.Settlements
import EffectMachine.Proofs.StepSums
import EffectMachine.Proofs.Transparency
import EffectMachine.Proofs.Unwinding
import EffectMachine.Proofs.Termination
import EffectMachine.Proofs.Timeouts
import EffectMachine.Proofs.VirtualTime
import EffectMachine.Proofs.Repetition
import EffectMachine.Proofs.RestatedPanics
import EffectMachine.Script.Probe.Basics
import EffectMachine.Script.Probe.Causes
import EffectMachine.Script.Probe.Cells
import EffectMachine.Script.Probe.Machinery
import EffectMachine.Script.Probe.Services
import EffectMachine.Script.Probe.Timing
