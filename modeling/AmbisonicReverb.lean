import AmbisonicReverb.Biquad
import AmbisonicReverb.Block
import AmbisonicReverb.Circulant
import AmbisonicReverb.CommandLine
import AmbisonicReverb.CommandLine.Arguments
import AmbisonicReverb.Config
import AmbisonicReverb.Config.Toml
import AmbisonicReverb.Control
import AmbisonicReverb.Decay
import AmbisonicReverb.Decimal
import AmbisonicReverb.Decimal.Notation
import AmbisonicReverb.Decimal.Numeral
import AmbisonicReverb.Decimal.Rounding
import AmbisonicReverb.DelayLine
import AmbisonicReverb.Engine
import AmbisonicReverb.Error
import AmbisonicReverb.Fit
import AmbisonicReverb.Main
import AmbisonicReverb.Network
import AmbisonicReverb.Network.Design
import AmbisonicReverb.Network.Gain
import AmbisonicReverb.Network.Path
import AmbisonicReverb.Parameters
import AmbisonicReverb.Phasor
import AmbisonicReverb.Proofs.Absorption
import AmbisonicReverb.Proofs.Alike
import AmbisonicReverb.Proofs.Answers
import AmbisonicReverb.Proofs.Audible
import AmbisonicReverb.Proofs.BandOrder
import AmbisonicReverb.Proofs.BinaryMonotone
import AmbisonicReverb.Proofs.BinaryBits
import AmbisonicReverb.Proofs.BinaryOrder
import AmbisonicReverb.Proofs.BinaryRounding
import AmbisonicReverb.Proofs.BinaryValue
import AmbisonicReverb.Proofs.Budget
import AmbisonicReverb.Proofs.Buffers
import AmbisonicReverb.Proofs.Checked
import AmbisonicReverb.Proofs.Console
import AmbisonicReverb.Proofs.Construction
import AmbisonicReverb.Proofs.CubeRoot
import AmbisonicReverb.Proofs.Curve
import AmbisonicReverb.Proofs.DecayCurve
import AmbisonicReverb.Proofs.DecayInvariance
import AmbisonicReverb.Proofs.Delay
import AmbisonicReverb.Proofs.DelayOrder
import AmbisonicReverb.Proofs.Derive
import AmbisonicReverb.Proofs.Designer
import AmbisonicReverb.Proofs.Diffuser
import AmbisonicReverb.Proofs.Domain
import AmbisonicReverb.Proofs.Echo
import AmbisonicReverb.Proofs.EchoTrain
import AmbisonicReverb.Proofs.Energy
import AmbisonicReverb.Proofs.Exact
import AmbisonicReverb.Proofs.ExponentialDecay
import AmbisonicReverb.Proofs.FilterDesign
import AmbisonicReverb.Proofs.Flow
import AmbisonicReverb.Proofs.Fragments
import AmbisonicReverb.Proofs.Frame
import AmbisonicReverb.Proofs.GainLaws
import AmbisonicReverb.Proofs.HeadWalk
import AmbisonicReverb.Proofs.History
import AmbisonicReverb.Proofs.Journal
import AmbisonicReverb.Proofs.Lap
import AmbisonicReverb.Proofs.Link
import AmbisonicReverb.Proofs.Lockstep
import AmbisonicReverb.Proofs.Lookups
import AmbisonicReverb.Proofs.Lossless
import AmbisonicReverb.Proofs.MatrixLayout
import AmbisonicReverb.Proofs.Measure
import AmbisonicReverb.Proofs.Messages
import AmbisonicReverb.Proofs.Mixing
import AmbisonicReverb.Proofs.Mute
import AmbisonicReverb.Proofs.Neighbours
import AmbisonicReverb.Proofs.Numerals
import AmbisonicReverb.Proofs.Onset
import AmbisonicReverb.Proofs.Operations
import AmbisonicReverb.Proofs.Outcome
import AmbisonicReverb.Proofs.PathRotation
import AmbisonicReverb.Proofs.Pressure
import AmbisonicReverb.Proofs.Process
import AmbisonicReverb.Proofs.Range
import AmbisonicReverb.Proofs.Reachable
import AmbisonicReverb.Proofs.Rederive
import AmbisonicReverb.Proofs.ReportText
import AmbisonicReverb.Proofs.Reported
import AmbisonicReverb.Proofs.Requests
import AmbisonicReverb.Proofs.Rescaling
import AmbisonicReverb.Proofs.ResponseLength
import AmbisonicReverb.Proofs.Rest
import AmbisonicReverb.Proofs.Restarts
import AmbisonicReverb.Proofs.RoomAbsorption
import AmbisonicReverb.Proofs.Rounds
import AmbisonicReverb.Proofs.Search
import AmbisonicReverb.Proofs.SignedZero
import AmbisonicReverb.Proofs.Silence
import AmbisonicReverb.Proofs.Spacing
import AmbisonicReverb.Proofs.Stage
import AmbisonicReverb.Proofs.Sums
import AmbisonicReverb.Proofs.Superposition
import AmbisonicReverb.Proofs.Tail
import AmbisonicReverb.Proofs.TransferFunction
import AmbisonicReverb.Proofs.Usable
import AmbisonicReverb.Proofs.Widening
import AmbisonicReverb.Reflection
import AmbisonicReverb.Report
import AmbisonicReverb.Reverb
import AmbisonicReverb.Room
import AmbisonicReverb.Rotation
import AmbisonicReverb.Sample
import AmbisonicReverb.Scalar
import AmbisonicReverb.Scalar.Binary
import AmbisonicReverb.Simplex
import AmbisonicReverb.Text.Reader
import AmbisonicReverb.Toml.Blank
import AmbisonicReverb.Toml.Document
import AmbisonicReverb.Toml.Entries
import AmbisonicReverb.Toml.Moment
import AmbisonicReverb.Toml.Number
import AmbisonicReverb.Toml.Quoted
import AmbisonicReverb.Toml.Value
