import Manapds.Lib.Program
import Manapds.Lib.Groups
import Manapds.Lib.KeyedList
import Manapds.Lib.Numeral
import Manapds.Lib.SetDiff
import Manapds.Repo.Dropped
import Manapds.Syntax.AtUri
import Manapds.Syntax.Base32
import Manapds.Syntax.Clock
import Manapds.Xrpc.Limit
import Manapds.Xrpc.Caller
import Manapds.Repo.Session
import Manapds.Repo.Going
import Manapds.Repo.Contained
import Manapds.Repo.CarFile
import Manapds.Repo.DagCbor
import Manapds.Repo.Publish
import Manapds.Repo.Difference
import Manapds.Repo.Proof
import Manapds.Lib.Table
import Manapds.Lib.Transaction
import Manapds.Store.Stamp
import Manapds.Store.Actor
import Manapds.Account.Plan
import Manapds.Account.Index
import Manapds.Account.Alone
import Manapds.Account.Revision
import Manapds.Account.World
import Manapds.Account.Progress
import Manapds.Account.Linear
import Manapds.Account.Subject
import Manapds.Account.Replay
import Manapds.Account.Turns
import Manapds.Account.AppPasswords
import Manapds.Account.Export
import Manapds.Account.Incremental
import Manapds.Account.Log
import Manapds.Account.Signup
import Manapds.Account.Directory
import Manapds.Repo.Json
import Manapds.Syntax.Grammar
import Manapds.Store.Address
import Manapds.Xrpc.Listing
import Manapds.Lib.Mac
import Manapds.Xrpc.Auth
import Manapds.Repo.Invariant
import Manapds.Store.Carried
import Manapds.Account.Served
import Manapds.Store.Sequencer
import Manapds.Store.Opening
import Manapds.Xrpc.Records
import Manapds.Firehose.Body
import Manapds.Firehose.Replica
import Manapds.Xrpc.BlobListing
import Manapds.Repo.Signature
import Manapds.Repo.CarWriting
import Manapds.Store.Registered
import Manapds.Syntax.DidKey
import Manapds.Account.Operation
import Manapds.Xrpc.Walk
