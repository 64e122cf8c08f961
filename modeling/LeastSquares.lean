import LeastSquares.Decimal.Rounding
import LeastSquares.Derivative.OfArrays
import LeastSquares.Diagnostics
import LeastSquares.Formula
import LeastSquares.Json
import LeastSquares.Linear.Elimination.OfGiven
import LeastSquares.Optimize
import LeastSquares.Synthetic
import LeastSquares.Proofs.MultifrontalElimination
import LeastSquares.Proofs.OptimizerSteps
import LeastSquares.Proofs.OptimizerLoops
import LeastSquares.Proofs.OptimizerRecord
import LeastSquares.Proofs.Descent
import LeastSquares.Proofs.ArrayFactors
import LeastSquares.Proofs.Linearization
import LeastSquares.Proofs.Lockstep
import LeastSquares.Proofs.SolverAgreement
import LeastSquares.Proofs.RegularGraphs
import LeastSquares.Proofs.AffineGraphs
import LeastSquares.Proofs.AnsweredSteps
import LeastSquares.Proofs.QuadraticGraphs
import LeastSquares.Proofs.RightHandSides
import LeastSquares.Proofs.DampedProblems
import LeastSquares.Proofs.SolverHistories
import LeastSquares.Proofs.ComputedOrder
import LeastSquares.Proofs.RigidMotions
import LeastSquares.Proofs.UncoveredEstimates
import LeastSquares.Proofs.StationaryEstimates
import LeastSquares.Proofs.SubgraphMasks
import LeastSquares.Proofs.EliminatedSquares
import LeastSquares.Proofs.DampingBounds
import LeastSquares.Proofs.DampedSteps
import LeastSquares.Proofs.Preconditioner
import LeastSquares.Proofs.LightestForests
import LeastSquares.Proofs.IteratedSolutions
import LeastSquares.Proofs.UndeterminedVariables
import LeastSquares.Proofs.HeadingDerivatives
import LeastSquares.Proofs.FailedSolves
import LeastSquares.Proofs.NoiseModels
import LeastSquares.Proofs.ClosedDerivatives
import LeastSquares.Proofs.DifferenceQuotients
import LeastSquares.Proofs.StackedProblems
import LeastSquares.Proofs.FactorNames
import LeastSquares.Proofs.ResidualSizes
import LeastSquares.Proofs.RankReports
import LeastSquares.Proofs.ForestOrders
import LeastSquares.Proofs.CostReports
import LeastSquares.Proofs.RangeNetworks
import LeastSquares.Proofs.MeasuredProblems
import LeastSquares.Proofs.StepActions
import LeastSquares.Proofs.DerivativeChecks
