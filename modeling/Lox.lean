import Lox.CommandLine
import Lox.Heap.Description
import Lox.Main
import Lox.Proofs.Locals
import Lox.Proofs.Parsing
import Lox.Proofs.Receivers
import Lox.Proofs.Returns
import Lox.Proofs.Scopes.Agreement
import Lox.Proofs.Sessions.Rejected
import Lox.Proofs.Sessions.Split
import Lox.Proofs.Lexemes
import Lox.Proofs.Occurrences.Addresses
import Lox.Proofs.Recovery
import Lox.Proofs.Links
import Lox.Proofs.Sessions.References
import Lox.Proofs.Termination.Costs
import Lox.Proofs.Termination.Steps
import Lox.Proofs.Termination
import Lox.Proofs.Respelling
import Lox.Proofs.Respelling.Scoping
import Lox.Proofs.Respelling.Twins
import Lox.Proofs.Respelling.Changes
import Lox.Proofs.Respelling.Frames
import Lox.Proofs.Respelling.Steps
import Lox.Proofs.Respelling.Sessions
import Lox.Proofs.Respelling.Locals
import Lox.Proofs.Totality
import Lox.Proofs.Trees.Faults
import Lox.Proofs.Construction
import Lox.Proofs.Properties
import Lox.Proofs.Distances
import Lox.Proofs.Lexemes.Blanking
import Lox.Proofs.Recovery.Unclosed
import Lox.Proofs.Sinks
import Lox.Proofs.Numbers.Texts
import Lox.Proofs.Equality
import Lox.Proofs.Written
import Lox.Proofs.Scripts
