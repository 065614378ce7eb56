import Appserver.Lib.Bytes
import Appserver.Lib.Ere
import Appserver.Lib.Anchored
import Appserver.Lib.Tails
import Appserver.Lib.Blocks
import Appserver.Lib.Prog
import Appserver.Lib.Template
import Appserver.Lib.Trans
import Appserver.Lib.Updates
import Appserver.Lib.OrderedMap
import Appserver.Lib.Desk
import Appserver.Lib.Flow
import Appserver.Lib.Floyd
import Appserver.Lib.Nondet
import Appserver.Lib.Demonic
import Appserver.Lib.Lock
import Appserver.Model.Regexlib
import Appserver.Model.World
import Appserver.Model.Assigner
import Appserver.Model.Http
import Appserver.Model.Assignment
import Appserver.Model.State
import Appserver.Model.Script
import Appserver.Model.Execute
import Appserver.Model.Request
import Appserver.Model.Ledger
import Appserver.Model.Pool
import Appserver.Model.Serving
import Appserver.Model.Main
import Appserver.Model.Collection
import Appserver.Model.Pidfile
import Appserver.Model.Databases
import Appserver.Proofs.Names
import Appserver.Proofs.Lines
import Appserver.Proofs.Captures
import Appserver.Proofs.Effects
import Appserver.Proofs.Interpolation
import Appserver.Proofs.Pieces
import Appserver.Proofs.Cursor
import Appserver.Proofs.Weave
import Appserver.Proofs.Assignment
import Appserver.Proofs.Terms
import Appserver.Proofs.Fronts
import Appserver.Proofs.Keys
import Appserver.Proofs.Shapes
import Appserver.Proofs.Decoding
import Appserver.Proofs.Params
import Appserver.Proofs.Fallback
import Appserver.Proofs.Accepted
import Appserver.Proofs.Headers
import Appserver.Proofs.Reports
import Appserver.Proofs.Padding
import Appserver.Proofs.Trailing
import Appserver.Proofs.Indices
import Appserver.Proofs.Transitions
import Appserver.Proofs.Traces
import Appserver.Proofs.Exceptions
import Appserver.Proofs.Ownership
import Appserver.Proofs.Output
import Appserver.Proofs.Endings
import Appserver.Proofs.Isolation
import Appserver.Proofs.Response
import Appserver.Proofs.Environment
import Appserver.Proofs.Payload
import Appserver.Proofs.Actions
import Appserver.Proofs.Slots
import Appserver.Proofs.Shutdown
import Appserver.Proofs.Reaper
import Appserver.Proofs.Library
import Appserver.Proofs.Strays
import Appserver.Proofs.Growth
import Appserver.Proofs.Refill
import Appserver.Proofs.Saturation
import Appserver.Proofs.Comments
import Appserver.Proofs.Groups
import Appserver.Proofs.Streaming
import Appserver.Proofs.Mail
import Appserver.Proofs.Clauses
import Appserver.Proofs.Blocks
import Appserver.Proofs.Order
import Appserver.Proofs.Sender
import Appserver.Proofs.Loading
import Appserver.Proofs.Release
import Appserver.Proofs.Frame
import Appserver.Proofs.Workers
import Appserver.Proofs.Service
import Appserver.Proofs.Locks
import Appserver.Proofs.Stations
import Appserver.Proofs.Freeze
import Appserver.Proofs.Graph
import Appserver.Proofs.Annotations
import Appserver.Proofs.Choices
import Appserver.Proofs.Outcomes
import Appserver.Proofs.Promises
import Appserver.Proofs.Grammar
import Appserver.Proofs.Catalog
import Appserver.Proofs.Databases
import Appserver.Proofs.Pidfile
