import NestedColumns.Assembly
import NestedColumns.Bytes
import NestedColumns.Catalog
import NestedColumns.Checksum
import NestedColumns.Chunk
import NestedColumns.Column
import NestedColumns.CommandLine.Arguments
import NestedColumns.CommandLine.Request
import NestedColumns.CommandLine.Run
import NestedColumns.Cursor
import NestedColumns.Disk
import NestedColumns.Disk.Walk
import NestedColumns.Double.Basic
import NestedColumns.Double.Decimal
import NestedColumns.Double.Text
import NestedColumns.Halt
import NestedColumns.IdMap
import NestedColumns.Json.Basic
import NestedColumns.Json.Lexical
import NestedColumns.Json.Printer
import NestedColumns.Json.Reader
import NestedColumns.Levels
import NestedColumns.Log.File
import NestedColumns.Log.Operation
import NestedColumns.Log.Replay
import NestedColumns.Main
import NestedColumns.Options.Basic
import NestedColumns.Page.Basic
import NestedColumns.Page.Decode
import NestedColumns.PageIndex
import NestedColumns.Path
import NestedColumns.Projection.Basic
import NestedColumns.Projection.Resolve
import NestedColumns.Proofs.Ages
import NestedColumns.Proofs.Assembly.Bounded
import NestedColumns.Proofs.Assembly.Filling
import NestedColumns.Proofs.Assembly.Placing
import NestedColumns.Proofs.Assembly.Printing
import NestedColumns.Proofs.Assembly.Slots
import NestedColumns.Proofs.Catalog.Indexed
import NestedColumns.Proofs.Catalog.Viewing
import NestedColumns.Proofs.Checksum
import NestedColumns.Proofs.Column.Astray
import NestedColumns.Proofs.Column.Bounded
import NestedColumns.Proofs.Column.Buffers
import NestedColumns.Proofs.Column.Bursts
import NestedColumns.Proofs.Column.Caching
import NestedColumns.Proofs.Column.Counted
import NestedColumns.Proofs.Column.Cursors
import NestedColumns.Proofs.Column.Damaged
import NestedColumns.Proofs.Column.Elsewhere
import NestedColumns.Proofs.Column.Findings
import NestedColumns.Proofs.Column.Packing
import NestedColumns.Proofs.Column.Readers
import NestedColumns.Proofs.Column.Untouched
import NestedColumns.Proofs.Cut
import NestedColumns.Proofs.Disk.Aside
import NestedColumns.Proofs.Disk.Changes
import NestedColumns.Proofs.Disk.Faultless
import NestedColumns.Proofs.Disk.Removing
import NestedColumns.Proofs.Disk.Replacing
import NestedColumns.Proofs.Disk.Routes
import NestedColumns.Proofs.Disk.Trails
import NestedColumns.Proofs.Disk.Writing
import NestedColumns.Proofs.Documents.Accepting
import NestedColumns.Proofs.Documents.Alignment
import NestedColumns.Proofs.Documents.Borrowing
import NestedColumns.Proofs.Documents.Contents
import NestedColumns.Proofs.Documents.Covering
import NestedColumns.Proofs.Documents.Fitting
import NestedColumns.Proofs.Documents.Known
import NestedColumns.Proofs.Documents.Marking
import NestedColumns.Proofs.Documents.Ordering
import NestedColumns.Proofs.Documents.Remerging
import NestedColumns.Proofs.Documents.Shredding
import NestedColumns.Proofs.Documents.Streams
import NestedColumns.Proofs.Engine.Actions
import NestedColumns.Proofs.Engine.Courses
import NestedColumns.Proofs.Engine.Directories
import NestedColumns.Proofs.Engine.Holders
import NestedColumns.Proofs.Engine.Indexed
import NestedColumns.Proofs.Engine.Loading
import NestedColumns.Proofs.Engine.Pages
import NestedColumns.Proofs.Engine.Snapshots
import NestedColumns.Proofs.Engine.Turns
import NestedColumns.Proofs.Engine.Writers
import NestedColumns.Proofs.IdMap
import NestedColumns.Proofs.Json.Extents
import NestedColumns.Proofs.Json.Figures
import NestedColumns.Proofs.Json.Firm
import NestedColumns.Proofs.Json.Names
import NestedColumns.Proofs.Json.Passing
import NestedColumns.Proofs.Json.Reaching
import NestedColumns.Proofs.Json.Readers
import NestedColumns.Proofs.Json.Reading
import NestedColumns.Proofs.Json.Sequences
import NestedColumns.Proofs.Json.Values
import NestedColumns.Proofs.Levels
import NestedColumns.Proofs.Log.Composing
import NestedColumns.Proofs.Log.Entries
import NestedColumns.Proofs.Log.Replaying
import NestedColumns.Proofs.Log.Torn
import NestedColumns.Proofs.Numbers
import NestedColumns.Proofs.Outcome
import NestedColumns.Proofs.Page.Bounded
import NestedColumns.Proofs.Page.Decoding
import NestedColumns.Proofs.Page.Index
import NestedColumns.Proofs.Page.Judging
import NestedColumns.Proofs.Projection.Columns
import NestedColumns.Proofs.Projection.Levels
import NestedColumns.Proofs.Projection.Links
import NestedColumns.Proofs.Projection.Listing
import NestedColumns.Proofs.Projection.Paths
import NestedColumns.Proofs.Projection.Pruning
import NestedColumns.Proofs.Projection.Resolving
import NestedColumns.Proofs.Projection.Selecting
import NestedColumns.Proofs.Records
import NestedColumns.Proofs.Registry
import NestedColumns.Proofs.Roundtrip
import NestedColumns.Proofs.Schema.Growth
import NestedColumns.Proofs.Schema.Keeping
import NestedColumns.Proofs.Schema.Merging
import NestedColumns.Proofs.Schema.Parts
import NestedColumns.Proofs.Schema.Ways
import NestedColumns.Proofs.Store.Acknowledged
import NestedColumns.Proofs.Store.Batches
import NestedColumns.Proofs.Store.Chunks
import NestedColumns.Proofs.Store.Collecting
import NestedColumns.Proofs.Store.Durable
import NestedColumns.Proofs.Store.Exporting
import NestedColumns.Proofs.Store.Faultless
import NestedColumns.Proofs.Store.History
import NestedColumns.Proofs.Store.Holdings
import NestedColumns.Proofs.Store.Indexed
import NestedColumns.Proofs.Store.Ledger
import NestedColumns.Proofs.Store.Limits
import NestedColumns.Proofs.Store.Loading
import NestedColumns.Proofs.Store.Locking
import NestedColumns.Proofs.Store.Logged
import NestedColumns.Proofs.Store.Moves
import NestedColumns.Proofs.Store.Opening
import NestedColumns.Proofs.Store.Orphans
import NestedColumns.Proofs.Store.Reading
import NestedColumns.Proofs.Store.Reopening
import NestedColumns.Proofs.Store.Runs
import NestedColumns.Proofs.Store.Settled
import NestedColumns.Proofs.Store.Steps
import NestedColumns.Proofs.Store.Stops
import NestedColumns.Proofs.Store.Usage
import NestedColumns.Proofs.Store.Writing
import NestedColumns.Record
import NestedColumns.RecordReader
import NestedColumns.Registry
import NestedColumns.Schema.Basic
import NestedColumns.Schema.Merge
import NestedColumns.Schema.Text
import NestedColumns.Shredding
import NestedColumns.Store.Basic
import NestedColumns.Store.Error
import NestedColumns.Store.Export
import NestedColumns.Store.Load
import NestedColumns.Store.Open
import NestedColumns.Store.Session
import NestedColumns.Store.Tables
import NestedColumns.Text.Quoted
import NestedColumns.Text.Unseen
import NestedColumns.Text.Utf8
import NestedColumns.Toml.Basic
import NestedColumns.Toml.Lexical
import NestedColumns.Toml.Reader
import NestedColumns.Triple
import NestedColumns.Value
import NestedColumns.Volume
