import CachedRun.Main
import CachedRun.Proofs.Run.Transparency
import CachedRun.Proofs.Store.EntryFiles
import CachedRun.Proofs.Store.FileTree
import CachedRun.Proofs.Store.Listing
import CachedRun.Proofs.Store.Documents
import CachedRun.Proofs.Store.Collection
import CachedRun.Proofs.Run.Discipline
import CachedRun.Proofs.Decimal.Digits
import CachedRun.Proofs.Time.Calendar
import CachedRun.Proofs.Time.Rfc3339
import CachedRun.Proofs.Dict
import CachedRun.Proofs.Json.Letter
import CachedRun.Proofs.Json.Tree
import CachedRun.Proofs.Json.Token
import CachedRun.Proofs.Json.Reader
import CachedRun.Proofs.Json.Written
import CachedRun.Proofs.Value.Document
import CachedRun.Proofs.Convert
import CachedRun.Proofs.Store.Stored
import CachedRun.Proofs.Store.Writers
import CachedRun.Proofs.Store.Foreign
import CachedRun.Proofs.Store.Leftovers
import CachedRun.Proofs.Store.Accounting
import CachedRun.Proofs.Store.Queue
import CachedRun.Proofs.Store.Lock
import CachedRun.Proofs.Text.Blank
import CachedRun.Proofs.Xml.Markup
import CachedRun.Proofs.Xml.Escape
import CachedRun.Proofs.Xml.Document
import CachedRun.Proofs.Xml.Lexing
import CachedRun.Proofs.Xml.Assignment
import CachedRun.Proofs.Xml.Reading
import CachedRun.Proofs.Xml.Writing
import CachedRun.Proofs.Xml.Canonical
import CachedRun.Proofs.Xml.Number
import CachedRun.Proofs.Xml.Locality
import CachedRun.Proofs.Xml.Insertion
import CachedRun.Proofs.Xml.WrittenTag
import CachedRun.Proofs.Xml.Rereading
import CachedRun.Proofs.Store.Replacement
import CachedRun.Proofs.Run.Agreement
import CachedRun.Proofs.Key.Keyable
import CachedRun.Proofs.Container.Lifecycle
import CachedRun.Proofs.Xml.Magnitude
import CachedRun.Proofs.Xml.Root
import CachedRun.Proofs.Validator
import CachedRun.Proofs.Run.Collected
import CachedRun.Proofs.Run.Shadowing
import CachedRun.Proofs.Delivery
import CachedRun.Proofs.Allowed
import CachedRun.Proofs.Run.Schemas
import CachedRun.Proofs.Run.Fetched
import CachedRun.Proofs.Run.Told
import CachedRun.Proofs.Store.Confinement
import CachedRun.Proofs.LocalRun
import CachedRun.Proofs.Handler
import CachedRun.Proofs.CommandLine.PrintedKey
import CachedRun.Proofs.CommandLine.SharedKey
import CachedRun.Proofs.CommandLine.Arguments
