import ObjectTracking.Base64
import ObjectTracking.Collection.Edit
import ObjectTracking.Collection.Markup
import ObjectTracking.Composite.Edit
import ObjectTracking.Composite.Markup
import ObjectTracking.Composite.Reader
import ObjectTracking.Decimal.Binary64
import ObjectTracking.Decimal.Numeral
import ObjectTracking.Decimal.Shortest
import ObjectTracking.Edited
import ObjectTracking.Fault
import ObjectTracking.KeyMap
import ObjectTracking.Layout
import ObjectTracking.LocalCopy.Basic
import ObjectTracking.LocalCopy.Edit
import ObjectTracking.LocalCopy.Load
import ObjectTracking.LocalCopy.Reader
import ObjectTracking.LocalCopy.Save
import ObjectTracking.Mail.Calendar
import ObjectTracking.Mail.Contact
import ObjectTracking.Mail.Folder
import ObjectTracking.Mail.Item
import ObjectTracking.Mail.Layouts
import ObjectTracking.Mail.TimeZone
import ObjectTracking.Markup.Call
import ObjectTracking.Markup.Cursor
import ObjectTracking.Markup.Entity
import ObjectTracking.Markup.Forest
import ObjectTracking.Markup.Namespace
import ObjectTracking.Markup.Node
import ObjectTracking.Markup.Progress
import ObjectTracking.Markup.Reader
import ObjectTracking.Markup.Request
import ObjectTracking.Markup.Token
import ObjectTracking.Markup.Writer
import ObjectTracking.ObjectType
import ObjectTracking.Path
import ObjectTracking.Proofs.Collection.Deltas
import ObjectTracking.Proofs.Collection.Markup
import ObjectTracking.Proofs.Collection.Order
import ObjectTracking.Proofs.Collection.Server
import ObjectTracking.Proofs.Collection.Tracking
import ObjectTracking.Proofs.Composite.Attributes
import ObjectTracking.Proofs.Composite.Creation
import ObjectTracking.Proofs.Composite.Fits
import ObjectTracking.Proofs.Composite.FitsIn
import ObjectTracking.Proofs.Composite.Lenient
import ObjectTracking.Proofs.Composite.Loading
import ObjectTracking.Proofs.Composite.Made
import ObjectTracking.Proofs.Composite.Markup
import ObjectTracking.Proofs.Composite.Merged
import ObjectTracking.Proofs.Composite.Reading
import ObjectTracking.Proofs.Composite.Retold
import ObjectTracking.Proofs.Composite.RoundTrip
import ObjectTracking.Proofs.Composite.Written
import ObjectTracking.Proofs.Decimal.Binary64
import ObjectTracking.Proofs.Decimal.Rounding
import ObjectTracking.Proofs.Edits
import ObjectTracking.Proofs.InPlace
import ObjectTracking.Proofs.Layout
import ObjectTracking.Proofs.Links
import ObjectTracking.Proofs.LocalCopy.Addressed
import ObjectTracking.Proofs.LocalCopy.Agreement
import ObjectTracking.Proofs.LocalCopy.Cell
import ObjectTracking.Proofs.LocalCopy.Create
import ObjectTracking.Proofs.LocalCopy.Dispatch
import ObjectTracking.Proofs.LocalCopy.Elements
import ObjectTracking.Proofs.LocalCopy.Failure
import ObjectTracking.Proofs.LocalCopy.Filled
import ObjectTracking.Proofs.LocalCopy.Gates
import ObjectTracking.Proofs.LocalCopy.History
import ObjectTracking.Proofs.LocalCopy.Ignored
import ObjectTracking.Proofs.LocalCopy.Independent
import ObjectTracking.Proofs.LocalCopy.Informed
import ObjectTracking.Proofs.LocalCopy.Invariant
import ObjectTracking.Proofs.LocalCopy.Lenient
import ObjectTracking.Proofs.LocalCopy.Load
import ObjectTracking.Proofs.LocalCopy.Loaded
import ObjectTracking.Proofs.LocalCopy.Made
import ObjectTracking.Proofs.LocalCopy.Mentions
import ObjectTracking.Proofs.LocalCopy.Merged
import ObjectTracking.Proofs.LocalCopy.Needed
import ObjectTracking.Proofs.LocalCopy.Permitted
import ObjectTracking.Proofs.LocalCopy.Placed
import ObjectTracking.Proofs.LocalCopy.PropertyOperation
import ObjectTracking.Proofs.LocalCopy.Reachable
import ObjectTracking.Proofs.LocalCopy.Reader
import ObjectTracking.Proofs.LocalCopy.Reloaded
import ObjectTracking.Proofs.LocalCopy.Reordered
import ObjectTracking.Proofs.LocalCopy.Reported
import ObjectTracking.Proofs.LocalCopy.Roles
import ObjectTracking.Proofs.LocalCopy.Run
import ObjectTracking.Proofs.LocalCopy.Saved
import ObjectTracking.Proofs.LocalCopy.Sound
import ObjectTracking.Proofs.LocalCopy.Synced
import ObjectTracking.Proofs.LocalCopy.TakenOut
import ObjectTracking.Proofs.LocalCopy.Typed
import ObjectTracking.Proofs.LocalCopy.Unmodified
import ObjectTracking.Proofs.LocalCopy.Written
import ObjectTracking.Proofs.LocalCopy.Zones
import ObjectTracking.Proofs.Mail
import ObjectTracking.Proofs.Mail.WellFormed
import ObjectTracking.Proofs.Markup.Alike
import ObjectTracking.Proofs.Markup.Balanced
import ObjectTracking.Proofs.Markup.Content
import ObjectTracking.Proofs.Markup.Cutting
import ObjectTracking.Proofs.Markup.Entity
import ObjectTracking.Proofs.Markup.Leaves
import ObjectTracking.Proofs.Markup.Misuse
import ObjectTracking.Proofs.Markup.Mixed
import ObjectTracking.Proofs.Markup.Pieces
import ObjectTracking.Proofs.Markup.Reader
import ObjectTracking.Proofs.Markup.Reading
import ObjectTracking.Proofs.Markup.Relaxed
import ObjectTracking.Proofs.Markup.Reordered
import ObjectTracking.Proofs.Markup.Request
import ObjectTracking.Proofs.Markup.Respaced
import ObjectTracking.Proofs.Markup.Spelt
import ObjectTracking.Proofs.Markup.StartTag
import ObjectTracking.Proofs.Markup.Tag
import ObjectTracking.Proofs.Markup.Tree
import ObjectTracking.Proofs.Markup.Walk
import ObjectTracking.Proofs.Markup.Whole
import ObjectTracking.Proofs.Markup.Writing
import ObjectTracking.Proofs.ObjectType
import ObjectTracking.Proofs.Property
import ObjectTracking.Proofs.Property.Content
import ObjectTracking.Proofs.Property.Instant
import ObjectTracking.Proofs.Property.Items
import ObjectTracking.Proofs.Property.Kept
import ObjectTracking.Proofs.Property.Lenient
import ObjectTracking.Proofs.Property.Merged
import ObjectTracking.Proofs.Property.Reader
import ObjectTracking.Proofs.Property.Reading
import ObjectTracking.Proofs.Property.Refreshed
import ObjectTracking.Proofs.Property.Reread
import ObjectTracking.Proofs.Property.Scoped
import ObjectTracking.Proofs.Property.Scoping
import ObjectTracking.Proofs.Property.Values
import ObjectTracking.Proofs.Property.Written
import ObjectTracking.Proofs.Scalar.Canonical
import ObjectTracking.Proofs.Scalar.Codec
import ObjectTracking.Proofs.Text.Base64
import ObjectTracking.Proofs.Text.Digits
import ObjectTracking.Proofs.Text.Slice
import ObjectTracking.Proofs.Text.Utf8
import ObjectTracking.Proofs.Time.Bias
import ObjectTracking.Proofs.Time.Calendar
import ObjectTracking.Proofs.Time.Duration
import ObjectTracking.Proofs.Time.Offset
import ObjectTracking.Proofs.Time.Scoped
import ObjectTracking.Proofs.Time.Stamp
import ObjectTracking.Proofs.Time.WallClock
import ObjectTracking.Proofs.TypeTables
import ObjectTracking.Proofs.WordSet
import ObjectTracking.Proofs.WordSet.Run
import ObjectTracking.Property.Basic
import ObjectTracking.Property.Content
import ObjectTracking.Property.Reader
import ObjectTracking.Property.Scoping
import ObjectTracking.ProtocolVersion
import ObjectTracking.Report
import ObjectTracking.Scalar.Basic
import ObjectTracking.Scalar.Codec
import ObjectTracking.Session
import ObjectTracking.Settings.Toml.Number
import ObjectTracking.Settings.Toml.Section
import ObjectTracking.Settings.Toml.Token
import ObjectTracking.Settings.Toml.Value
import ObjectTracking.SlotMap
import ObjectTracking.SlotSet
import ObjectTracking.Text.Blank
import ObjectTracking.Text.Digits
import ObjectTracking.Text.Hidden
import ObjectTracking.Text.Quoted
import ObjectTracking.Text.Slice
import ObjectTracking.Text.Utf8
import ObjectTracking.Time.Bias
import ObjectTracking.Time.Date
import ObjectTracking.Time.Offset
import ObjectTracking.Time.Stamp
import ObjectTracking.Time.WallClock
import ObjectTracking.Trap
import ObjectTracking.TypeTables
import ObjectTracking.UpdateOp
import ObjectTracking.Value
import ObjectTracking.WordSet
