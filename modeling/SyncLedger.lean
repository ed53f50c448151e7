import SyncLedger.Backoff
import SyncLedger.Bytes
import SyncLedger.Cli.Command
import SyncLedger.Cli.Grammar
import SyncLedger.Cli.LogFilter
import SyncLedger.Cli.Quoted
import SyncLedger.Cli.Run
import SyncLedger.Codec
import SyncLedger.Config.Basic
import SyncLedger.Config.Document
import SyncLedger.Config.Environment
import SyncLedger.Config.File
import SyncLedger.Config.Path
import SyncLedger.Content.Lz4
import SyncLedger.Content.Store
import SyncLedger.Database
import SyncLedger.Digest.Argon2
import SyncLedger.Digest.Base64
import SyncLedger.Digest.Blake2b
import SyncLedger.Digest.Blake3
import SyncLedger.Digest.Square
import SyncLedger.Engine
import SyncLedger.Error
import SyncLedger.Index.Files
import SyncLedger.Index.History
import SyncLedger.Index.Retry
import SyncLedger.Instant
import SyncLedger.Json
import SyncLedger.Key
import SyncLedger.Main
import SyncLedger.OrderedSet
import SyncLedger.Record
import SyncLedger.Record.View
import SyncLedger.Registry.Clients
import SyncLedger.Registry.Password
import SyncLedger.Registry.PasswordHash
import SyncLedger.Registry.Roots
import SyncLedger.Registry.Secret
import SyncLedger.Server.Lifecycle
import SyncLedger.Server.Service
import SyncLedger.Snapshot
import SyncLedger.Store
import SyncLedger.Sweep
import SyncLedger.Table
import SyncLedger.Text
import SyncLedger.Text.Invisible
import SyncLedger.Uuid
import SyncLedger.Yaml.Cursor
import SyncLedger.Yaml.Node
import SyncLedger.Yaml.Print
import SyncLedger.Yaml.Scalar
import SyncLedger.Yaml.Token
import SyncLedger.Yaml.Word
import SyncLedger.Proofs.Bytes
import SyncLedger.Proofs.Keys
import SyncLedger.Proofs.Dates
import SyncLedger.Proofs.Codecs
import SyncLedger.Proofs.Tables
import SyncLedger.Proofs.Operations
import SyncLedger.Proofs.Journal
import SyncLedger.Proofs.Reconciling
import SyncLedger.Proofs.Removals
import SyncLedger.Proofs.Registry
import SyncLedger.Proofs.Recovery
import SyncLedger.Proofs.Sessions
import SyncLedger.Proofs.Consistency
import SyncLedger.Proofs.Listings
import SyncLedger.Proofs.KeyReading
import SyncLedger.Proofs.Visibility
import SyncLedger.Proofs.Sets
import SyncLedger.Proofs.Frames
import SyncLedger.Proofs.Rosters
import SyncLedger.Proofs.Enrolments
import SyncLedger.Proofs.Registrations
import SyncLedger.Proofs.Secrets
import SyncLedger.Proofs.Deeds
import SyncLedger.Proofs.RosterRuns
import SyncLedger.Proofs.Memberships
import SyncLedger.Proofs.Passwords
import SyncLedger.Proofs.Departures
import SyncLedger.Proofs.Cascades
import SyncLedger.Proofs.RegistryWrites
import SyncLedger.Proofs.Failures
import SyncLedger.Proofs.Markers
import SyncLedger.Proofs.Conflicts
import SyncLedger.Proofs.Contents
import SyncLedger.Proofs.Neighbours
import SyncLedger.Proofs.Downloads
import SyncLedger.Proofs.DateReading
import SyncLedger.Proofs.StoredForms
import SyncLedger.Proofs.Reached
import SyncLedger.Proofs.Delays
import SyncLedger.Proofs.Races
import SyncLedger.Proofs.Lifecycle
import SyncLedger.Proofs.Sights
import SyncLedger.Proofs.ReconciliationTable
import SyncLedger.Proofs.Commuting
import SyncLedger.Proofs.Untouched
import SyncLedger.Proofs.Redelivery
import SyncLedger.Proofs.Traffic
import SyncLedger.Proofs.Draining
import SyncLedger.Proofs.Retries
import SyncLedger.Proofs.RootErasures
import SyncLedger.Proofs.RootCascades
import SyncLedger.Proofs.Strays
import SyncLedger.Proofs.Sweeping
import SyncLedger.Proofs.Newest
import SyncLedger.Proofs.Scopes
import SyncLedger.Proofs.Verification
import SyncLedger.Proofs.Substitution
import SyncLedger.Proofs.Purging
import SyncLedger.Proofs.Uploads
import SyncLedger.Proofs.Base64
import SyncLedger.Proofs.Numerals
import SyncLedger.Proofs.PasswordHashes
import SyncLedger.Proofs.HashingCosts
import SyncLedger.Proofs.JsonReading
import SyncLedger.Proofs.SavedSettings
