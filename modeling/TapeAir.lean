import TapeAir.Calculator.Request
import TapeAir.Machine.Structured
import TapeAir.Proofs.Argument.Binding
import TapeAir.Proofs.Argument.Derived
import TapeAir.Proofs.Argument.Padding
import TapeAir.Proofs.Argument.SymbolColumn
import TapeAir.Proofs.Argument.Uniqueness
import TapeAir.Proofs.Constraint.Agreement
import TapeAir.Proofs.Constraint.Selector
import TapeAir.Proofs.Field.Quotient
import TapeAir.Proofs.Lookup.Completeness
import TapeAir.Proofs.Lookup.Interruption
import TapeAir.Proofs.Machine.Compiler
import TapeAir.Proofs.Machine.Completeness
import TapeAir.Proofs.Machine.Consumption
import TapeAir.Proofs.Machine.Layout
import TapeAir.Proofs.Machine.Replay
import TapeAir.Proofs.Machine.Simulation
import TapeAir.Proofs.Machine.Transition
import TapeAir.Proofs.Memory.Completeness
import TapeAir.Proofs.Memory.Consistency
import TapeAir.Proofs.Memory.FirstRow
import TapeAir.Proofs.Memory.Groups
import TapeAir.Proofs.Memory.Timeline
import TapeAir.Proofs.Poly.Canonical
import TapeAir.Proofs.Poly.Degree
import TapeAir.Proofs.Poly.Function
import TapeAir.Proofs.Poly.Homomorphism
import TapeAir.Proofs.Poly.Lifting
import TapeAir.Proofs.Table.Height
import TapeAir.Proofs.Table.TraceDomain
import TapeAir.Table.Blank
import TapeAir.Workbench.Session
