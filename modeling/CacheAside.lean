import CacheAside.Batch
import CacheAside.Binary64
import CacheAside.Binary64.Shortest
import CacheAside.Cache
import CacheAside.Cache.Invalidate
import CacheAside.Cache.Read
import CacheAside.Cache.Rows
import CacheAside.Cache.Write
import CacheAside.Codec
import CacheAside.Config
import CacheAside.Config.Folder
import CacheAside.Duration
import CacheAside.Entry
import CacheAside.Error
import CacheAside.Event
import CacheAside.Identity
import CacheAside.Json
import CacheAside.Json.Document
import CacheAside.Json.Equality
import CacheAside.Json.Numeral
import CacheAside.Json.Quoted
import CacheAside.Json.Record
import CacheAside.Key
import CacheAside.Key.Builder
import CacheAside.Key.Compound
import CacheAside.Kind
import CacheAside.Options
import CacheAside.Pages.Change
import CacheAside.Pages.Edit
import CacheAside.Pages.File
import CacheAside.Pages.Tree
import CacheAside.Proofs.Actions
import CacheAside.Proofs.Acts
import CacheAside.Proofs.Answered
import CacheAside.Proofs.AnyOrder
import CacheAside.Proofs.Balance
import CacheAside.Proofs.Bare
import CacheAside.Proofs.Batch
import CacheAside.Proofs.BatchRuns
import CacheAside.Proofs.Calm
import CacheAside.Proofs.Codecs
import CacheAside.Proofs.Confined
import CacheAside.Proofs.Deadlines
import CacheAside.Proofs.Detached
import CacheAside.Proofs.Disabled
import CacheAside.Proofs.DiskAsMemory
import CacheAside.Proofs.Documents
import CacheAside.Proofs.Encodings
import CacheAside.Proofs.Fetch
import CacheAside.Proofs.FirstValues
import CacheAside.Proofs.Firsts
import CacheAside.Proofs.Histories
import CacheAside.Proofs.Hits
import CacheAside.Proofs.Honest
import CacheAside.Proofs.InStep
import CacheAside.Proofs.InTurn
import CacheAside.Proofs.Invalidations
import CacheAside.Proofs.Isolation
import CacheAside.Proofs.JsonGrammar
import CacheAside.Proofs.Kept
import CacheAside.Proofs.KeyGrammar
import CacheAside.Proofs.Keys
import CacheAside.Proofs.Ledger
import CacheAside.Proofs.Lifetimes
import CacheAside.Proofs.Literals
import CacheAside.Proofs.Lockstep
import CacheAside.Proofs.Lookups
import CacheAside.Proofs.ManyAsTurns
import CacheAside.Proofs.ManyKeys
import CacheAside.Proofs.Matching
import CacheAside.Proofs.Normalised
import CacheAside.Proofs.NullWrites
import CacheAside.Proofs.Numerals
import CacheAside.Proofs.Observed
import CacheAside.Proofs.OptionTexts
import CacheAside.Proofs.Pending
import CacheAside.Proofs.Purging
import CacheAside.Proofs.ReadAlike
import CacheAside.Proofs.ReadYourWrites
import CacheAside.Proofs.Reads
import CacheAside.Proofs.ReadsByKey
import CacheAside.Proofs.ReadsByPosition
import CacheAside.Proofs.ReadsTogether
import CacheAside.Proofs.Records
import CacheAside.Proofs.Registrations
import CacheAside.Proofs.Removal
import CacheAside.Proofs.RequestFaults
import CacheAside.Proofs.RequestRuns
import CacheAside.Proofs.Requests
import CacheAside.Proofs.Rows
import CacheAside.Proofs.Segments
import CacheAside.Proofs.ServedAgain
import CacheAside.Proofs.Sessions
import CacheAside.Proofs.Shielding
import CacheAside.Proofs.Singles
import CacheAside.Proofs.Soundness
import CacheAside.Proofs.Steps
import CacheAside.Proofs.Together
import CacheAside.Proofs.Trace
import CacheAside.Proofs.Traffic
import CacheAside.Proofs.Transparency
import CacheAside.Proofs.Trouble
import CacheAside.Proofs.Turns
import CacheAside.Proofs.TwoStores
import CacheAside.Proofs.Uniform
import CacheAside.Proofs.Values
import CacheAside.Request
import CacheAside.Rig.Base
import CacheAside.Rig.Script
import CacheAside.Rig.Step
import CacheAside.Stats
import CacheAside.Store
import CacheAside.Store.Disk
import CacheAside.Store.Expiry
import CacheAside.Store.Layers
import CacheAside.Store.Layout
import CacheAside.Store.Memory
import CacheAside.Store.Recording
import CacheAside.Store.Table
import CacheAside.Text.Blank
import CacheAside.Text.Decimal
import CacheAside.Text.Utf8
import CacheAside.Toml.Document
import CacheAside.Toml.Node
import CacheAside.Toml.Number
import CacheAside.Toml.Text
import CacheAside.World
