import LeastSquares.Covariance.Query
import LeastSquares.Dense.Elimination
import LeastSquares.Dense.Singular
import LeastSquares.Expr
import LeastSquares.Group.Plane
import LeastSquares.Group.Space
import LeastSquares.Log
import LeastSquares.Loss.Correction
import LeastSquares.Manifold.Euclidean
import LeastSquares.Manifold.Retraction
import LeastSquares.Manifold.Subset
import LeastSquares.Parallel
import LeastSquares.Plan
import LeastSquares.Preconditioner.BlockJacobi
import LeastSquares.Problem.Jacobian
import LeastSquares.Proofs.Acceptance
import LeastSquares.Proofs.Accumulation
import LeastSquares.Proofs.Admission
import LeastSquares.Proofs.Agreement
import LeastSquares.Proofs.Allotment
import LeastSquares.Proofs.Availability
import LeastSquares.Proofs.Balance
import LeastSquares.Proofs.Breakdown
import LeastSquares.Proofs.ChainRule
import LeastSquares.Proofs.Collection
import LeastSquares.Proofs.Composition
import LeastSquares.Proofs.Concavity
import LeastSquares.Proofs.Coordinates
import LeastSquares.Proofs.Curvature
import LeastSquares.Proofs.Damping
import LeastSquares.Proofs.Dispatch
import LeastSquares.Proofs.Dropping
import LeastSquares.Proofs.Editing
import LeastSquares.Proofs.Enumeration
import LeastSquares.Proofs.Evaluation
import LeastSquares.Proofs.Expansion
import LeastSquares.Proofs.Filling
import LeastSquares.Proofs.Grouping
import LeastSquares.Proofs.History
import LeastSquares.Proofs.Holding
import LeastSquares.Proofs.Independence
import LeastSquares.Proofs.Interleaving
import LeastSquares.Proofs.Inversion
import LeastSquares.Proofs.Involution
import LeastSquares.Proofs.Joining
import LeastSquares.Proofs.Lifting
import LeastSquares.Proofs.Neutrality
import LeastSquares.Proofs.NullDirections
import LeastSquares.Proofs.Numbering
import LeastSquares.Proofs.Persistence
import LeastSquares.Proofs.Placement
import LeastSquares.Proofs.Positivity
import LeastSquares.Proofs.Preconditioning
import LeastSquares.Proofs.PseudoInverse
import LeastSquares.Proofs.Rebasing
import LeastSquares.Proofs.Refusal
import LeastSquares.Proofs.Renaming
import LeastSquares.Proofs.Repetition
import LeastSquares.Proofs.Reporting
import LeastSquares.Proofs.Safety
import LeastSquares.Proofs.Shape
import LeastSquares.Proofs.Stillness
import LeastSquares.Proofs.Stretching
import LeastSquares.Proofs.Symmetry
import LeastSquares.Proofs.Threads
import LeastSquares.Proofs.Truncation
import LeastSquares.Scalar
import LeastSquares.Session
import LeastSquares.Sparse.Triplets
import LeastSquares.Triangle
