import LabelInference.CommandLine.Arguments
import LabelInference.CommandLine.Response
import LabelInference.Constraint
import LabelInference.ConstraintSystem.Basic
import LabelInference.ConstraintSystem.Dot
import LabelInference.Dataflow.Component
import LabelInference.Dataflow.Fixpoint
import LabelInference.Dataflow.Graph
import LabelInference.Dataflow.Search
import LabelInference.Edge
import LabelInference.FreeLattice.Basic
import LabelInference.FreeLattice.Entailment
import LabelInference.FreeLattice.Text
import LabelInference.Hex
import LabelInference.Json.Basic
import LabelInference.Json.Printer
import LabelInference.Json.Reader
import LabelInference.Json.Token
import LabelInference.Label.Basic
import LabelInference.Label.Constraint
import LabelInference.Lattice
import LabelInference.Lattice.Level
import LabelInference.Lattice.Tags
import LabelInference.Main
import LabelInference.Ordered
import LabelInference.OrderedSet
import LabelInference.Problem.Basic
import LabelInference.Problem.Document
import LabelInference.Problem.File
import LabelInference.Problem.Report
import LabelInference.Problem.Solving
import LabelInference.Proofs.ConstraintSystem.Confinement
import LabelInference.Proofs.ConstraintSystem.Construction
import LabelInference.Proofs.ConstraintSystem.Delegations
import LabelInference.Proofs.ConstraintSystem.Drawing
import LabelInference.Proofs.ConstraintSystem.Graph
import LabelInference.Proofs.ConstraintSystem.Greatest
import LabelInference.Proofs.ConstraintSystem.Inclusion
import LabelInference.Proofs.ConstraintSystem.Leniency
import LabelInference.Proofs.ConstraintSystem.Paths
import LabelInference.Proofs.ConstraintSystem.Run
import LabelInference.Proofs.ConstraintSystem.Settling
import LabelInference.Proofs.ConstraintSystem.Solution
import LabelInference.Proofs.ConstraintSystem.Unknowns
import LabelInference.Proofs.ConstraintSystem.Violations
import LabelInference.Proofs.Dataflow.Acyclic
import LabelInference.Proofs.Dataflow.Allowance
import LabelInference.Proofs.Dataflow.Component
import LabelInference.Proofs.Dataflow.Connected
import LabelInference.Proofs.Dataflow.Equations
import LabelInference.Proofs.Dataflow.Exploration
import LabelInference.Proofs.Dataflow.Fixpoint
import LabelInference.Proofs.Dataflow.Order
import LabelInference.Proofs.Dataflow.Run
import LabelInference.Proofs.Dataflow.Search
import LabelInference.Proofs.Dataflow.Worklist
import LabelInference.Proofs.Dot.RoundTrip
import LabelInference.Proofs.Edge
import LabelInference.Proofs.FreeLattice.Canonical
import LabelInference.Proofs.FreeLattice.Deduction
import LabelInference.Proofs.FreeLattice.Entailment
import LabelInference.Proofs.FreeLattice.Height
import LabelInference.Proofs.FreeLattice.Reading
import LabelInference.Proofs.FreeLattice.Residuals
import LabelInference.Proofs.FreeLattice.Text
import LabelInference.Proofs.FreeLattice.Universal
import LabelInference.Proofs.Label.Duality
import LabelInference.Proofs.Label.Flow
import LabelInference.Proofs.Label.Greatest
import LabelInference.Proofs.Label.Noninterference
import LabelInference.Proofs.Label.Order
import LabelInference.Proofs.Label.Violations
import LabelInference.Proofs.Lattice.Bounds
import LabelInference.Proofs.Lattice.Coarsening
import LabelInference.Proofs.Lattice.Laws
import LabelInference.Proofs.Numbering
import LabelInference.Proofs.Problem.Acceptance
import LabelInference.Proofs.Problem.Duality
import LabelInference.Proofs.Problem.Reading
import LabelInference.Proofs.Problem.RoundTrip
import LabelInference.Proofs.Problem.Unknowns
import LabelInference.Proofs.Term.Clash
import LabelInference.Proofs.Term.Clause
import LabelInference.Proofs.Term.Constants
import LabelInference.Proofs.Term.Dual
import LabelInference.Proofs.Term.Offence
import LabelInference.Proofs.Term.Places
import LabelInference.Proofs.Term.Reduction
import LabelInference.Proofs.Term.Unknowns
import LabelInference.Term.Basic
import LabelInference.Term.Clause
import LabelInference.Term.Reduction
import LabelInference.Toml.Number
import LabelInference.Toml.Reader
import LabelInference.Toml.Scalar
import LabelInference.Toml.Table
import LabelInference.Toml.Text
