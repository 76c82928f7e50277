import PL0.Main
import PL0.Proofs.Code.History
import PL0.Proofs.Codegen.Binding
import PL0.Proofs.Codegen.Frame
import PL0.Proofs.Codegen.Ports
import PL0.Proofs.Codegen.WellScoped
import PL0.Proofs.Environment.Addressing
import PL0.Proofs.Grammar.Diagnosis
import PL0.Proofs.Json.Artifact
import PL0.Proofs.Lexer.Drivers
import PL0.Proofs.Lexer.Restart
import PL0.Proofs.Listing
import PL0.Proofs.Machine.Activation
import PL0.Proofs.Machine.Arithmetic
import PL0.Proofs.Machine.Causality
import PL0.Proofs.Machine.Correctness
import PL0.Proofs.Machine.Faults
import PL0.Proofs.Machine.Safety
import PL0.Proofs.Machine.Termination
import PL0.Proofs.Machine.Truncation
import PL0.Proofs.Tree.Faithful
import PL0.Proofs.Tree.SourceOrder
import PL0.TokenStream
