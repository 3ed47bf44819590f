import DenseLinear.Checked
import DenseLinear.Loop
import DenseLinear.Refusal
import DenseLinear.Real.Basic
import DenseLinear.Real.Rounding
import DenseLinear.Real.Machine
import DenseLinear.Scalar.Basic
import DenseLinear.Scalar.Cartesian
import DenseLinear.Event
import DenseLinear.Blocking
import DenseLinear.Shape
import DenseLinear.PagedMatrix.Basic
import DenseLinear.PagedMatrix.Construct
import DenseLinear.PagedMatrix.Linear
import DenseLinear.PagedMatrix.Edit
import DenseLinear.PagedMatrix.Algebra
import DenseLinear.Segment
import DenseLinear.RankOne
import DenseLinear.Multiply.Vector
import DenseLinear.Multiply.Matrix
import DenseLinear.Interchange
import DenseLinear.Triangle
import DenseLinear.Reflection.Basic
import DenseLinear.Reflection.Apply
import DenseLinear.Reflection.Paged
import DenseLinear.Qr.Basic
import DenseLinear.Qr.Pivoted
import DenseLinear.Lu.Panel
import DenseLinear.Lu.Factor
import DenseLinear.Lu.Solve
import DenseLinear.Proofs.Loops
import DenseLinear.Proofs.Cells
import DenseLinear.Proofs.Surroundings
import DenseLinear.Proofs.Product
import DenseLinear.Proofs.MultiplyAdd
import DenseLinear.Proofs.Blocks
import DenseLinear.Proofs.Elimination
import DenseLinear.Proofs.BlockedElimination
import DenseLinear.Proofs.SizeArguments
import DenseLinear.Proofs.Exact
import DenseLinear.Proofs.ExactNumbers
import DenseLinear.Proofs.ExactReals
import DenseLinear.Proofs.RingProducts
import DenseLinear.Proofs.BlockIndependence
import DenseLinear.Proofs.Transposes
import DenseLinear.Proofs.Unpacking
import DenseLinear.Proofs.Accounting
import DenseLinear.Proofs.Reconstruction
import DenseLinear.Proofs.Substitution
import DenseLinear.Proofs.Solving
import DenseLinear.Proofs.FloatingPoint
import DenseLinear.Proofs.Rounding
import DenseLinear.Proofs.Directions
import DenseLinear.Proofs.MachineArithmetic
import DenseLinear.Proofs.UpdateAgreement
import DenseLinear.Proofs.PivotRecords
import DenseLinear.Proofs.Determinant
import DenseLinear.Proofs.LeadingColumns
import DenseLinear.Proofs.InterchangeSteps
import DenseLinear.Proofs.InterchangeReplay
import DenseLinear.Proofs.InterchangeCalls
import DenseLinear.Proofs.Interference
import DenseLinear.Proofs.Totality
import DenseLinear.Proofs.UpdateOutcomes
import DenseLinear.Proofs.SolverOutcomes
import DenseLinear.Proofs.PanelSubstitution
import DenseLinear.Proofs.Outcomes
import DenseLinear.Proofs.Frames
import DenseLinear.Proofs.InterchangeUndo
import DenseLinear.Proofs.Histories
import DenseLinear.Proofs.Kinds
import DenseLinear.Proofs.Mirroring
import DenseLinear.Proofs.Homomorphisms
import DenseLinear.Proofs.HomomorphicElimination
import DenseLinear.Proofs.HomomorphicReflections
import DenseLinear.Proofs.RealData
import DenseLinear.Proofs.Reflecting
import DenseLinear.Proofs.ExactReflections
import DenseLinear.Proofs.Reduction
import DenseLinear.Proofs.QrReconstruction
import DenseLinear.Proofs.ReflectionProducts
import DenseLinear.Proofs.ReflectingRows
import DenseLinear.Proofs.ReflectionDuality
import DenseLinear.Proofs.ReflectionLaws
import DenseLinear.Proofs.ReflectionSteps
import DenseLinear.Proofs.ReflectionPages
import DenseLinear.Proofs.DeterminantAgreement
import DenseLinear.Proofs.Arrangements
import DenseLinear.Proofs.SuccessiveReflections
import DenseLinear.Proofs.MachineReflections
import DenseLinear.Proofs.NormDivisions
import DenseLinear.Proofs.PivotedReduction
import DenseLinear.Proofs.ExactNorms
import DenseLinear.Proofs.PivotingAgreement
import DenseLinear.Proofs.RankRevealing
import DenseLinear.Proofs.ColumnwiseSolving
import DenseLinear.Proofs.OuterProducts
import DenseLinear.Proofs.VectorProducts
import DenseLinear.Proofs.OuterBlocks
import DenseLinear.Proofs.LinearAddressing
import DenseLinear.Proofs.ColumnPrefixes
import DenseLinear.Proofs.Couplings
import DenseLinear.Proofs.Contents
import DenseLinear.Proofs.ZeroCoefficients
import DenseLinear.Proofs.SharedPages
import DenseLinear.Proofs.FirstPages
import DenseLinear.Proofs.ComplexDivision
import DenseLinear.Proofs.ShapeQueries
import DenseLinear.Proofs.EmptyExtents
import DenseLinear.Proofs.PanelFactorisation
import DenseLinear.Proofs.BlockAccess
import DenseLinear.Proofs.PanelSystems
