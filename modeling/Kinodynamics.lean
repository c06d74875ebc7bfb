import Kinodynamics.Session
import Kinodynamics.Text.Display
import Kinodynamics.Text.Schema
import Kinodynamics.Proofs.Dense.Energy
import Kinodynamics.Proofs.Dense.Householder
import Kinodynamics.Proofs.Elimination.Run
import Kinodynamics.Proofs.Elimination.Factor
import Kinodynamics.Proofs.Elimination.Structure
import Kinodynamics.Proofs.Dense.Triangular
import Kinodynamics.Proofs.Elimination.Range
import Kinodynamics.Proofs.Gaussian.Energy
import Kinodynamics.Proofs.Gaussian.Solution
import Kinodynamics.Proofs.Gaussian.Solvability
import Kinodynamics.Proofs.Elimination.HardStep
import Kinodynamics.Proofs.Elimination.Stack
import Kinodynamics.Proofs.Elimination.Carry
import Kinodynamics.Proofs.Elimination.LeastSquares
import Kinodynamics.Proofs.Elimination.Coefficients
import Kinodynamics.Proofs.Elimination.HardCoefficients
import Kinodynamics.Proofs.Elimination.RightHandSides
import Kinodynamics.Proofs.Elimination.OneEntry
import Kinodynamics.Proofs.Dense.Pivots
import Kinodynamics.Proofs.Elimination.Conditioning
import Kinodynamics.Proofs.Elimination.Orderings
import Kinodynamics.Proofs.Algebra.Space
import Kinodynamics.Proofs.Algebra.Spatial
import Kinodynamics.Proofs.Algebra.Rates
import Kinodynamics.Proofs.Motion.Rotation
import Kinodynamics.Proofs.Motion.Exponential
import Kinodynamics.Proofs.Motion.Adjoint
import Kinodynamics.Proofs.Joint.Frames
import Kinodynamics.Proofs.Joint.Composition
import Kinodynamics.Proofs.Joint.Power
import Kinodynamics.Proofs.Algebra.Homogeneous
import Kinodynamics.Proofs.Algebra.Coordinates
import Kinodynamics.Proofs.Motion.Screw
import Kinodynamics.Proofs.Motion.Group
import Kinodynamics.Proofs.Motion.Coupling
import Kinodynamics.Proofs.Motion.Jacobians
import Kinodynamics.Proofs.Motion.Logarithm
import Kinodynamics.Proofs.Motion.RoundTrip
import Kinodynamics.Proofs.Motion.Series
import Kinodynamics.Proofs.Reading
import Kinodynamics.Proofs.Retraction
import Kinodynamics.Proofs.Objective
import Kinodynamics.Proofs.Joint.OneParameter
import Kinodynamics.Proofs.Joint.LoopClosure
import Kinodynamics.Proofs.Joint.AngleRates
import Kinodynamics.Proofs.Joint.State
import Kinodynamics.Proofs.Joint.Consistency
import Kinodynamics.Proofs.Joint.Equations
import Kinodynamics.Proofs.Joint.LinearFamilies
import Kinodynamics.Proofs.Elimination.Spectrum
import Kinodynamics.Proofs.Elimination.HardConditioning
import Kinodynamics.Proofs.Joint.Conditioning
import Kinodynamics.Proofs.Joint.Driven
import Kinodynamics.Proofs.Elimination.Interleaving
import Kinodynamics.Proofs.Topology
import Kinodynamics.Proofs.Elimination.GramMatrices
import Kinodynamics.Proofs.Elimination.Listing
import Kinodynamics.Proofs.Joint.Locality
import Kinodynamics.Proofs.Elimination.Weighted
import Kinodynamics.Proofs.Linearization
import Kinodynamics.Proofs.ExactSteps
import Kinodynamics.Proofs.Joint.AffineRelations
import Kinodynamics.Proofs.Elimination.FillIn
import Kinodynamics.Proofs.Elimination.Rank
import Kinodynamics.Proofs.Elimination.RankDecision
import Kinodynamics.Proofs.Elimination.Checked
import Kinodynamics.Proofs.Elimination.Failures
import Kinodynamics.Proofs.Evaluation
import Kinodynamics.Proofs.Joint.Evaluation
import Kinodynamics.Proofs.Joint.Limits
import Kinodynamics.Proofs.Legibility
