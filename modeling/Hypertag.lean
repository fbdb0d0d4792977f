import Hypertag.Tag.Extract
import Hypertag.Tag.Registry
import Hypertag.Document.Index
import Hypertag.Document.TreeCache
import Hypertag.Markup.Position
import Hypertag.Config
import Hypertag.Log
import Hypertag.KnowledgeBase.Lookup
import Hypertag.Tag.Presentation
import Hypertag.Disk.Change
import Hypertag.Disk.Walk
import Hypertag.Server.Session
import Hypertag.Proofs.Registry
import Hypertag.Proofs.Ownership
import Hypertag.Proofs.Run
import Hypertag.Proofs.Edit
import Hypertag.Proofs.History
import Hypertag.Proofs.Extraction
import Hypertag.Proofs.SelfConflict
import Hypertag.Proofs.Outcome
import Hypertag.Proofs.Repetition
import Hypertag.Proofs.OpenText
import Hypertag.Proofs.Enrollment
import Hypertag.Proofs.Definition
import Hypertag.Proofs.FileIdentity
import Hypertag.Proofs.ScanLoop
import Hypertag.Proofs.Alike
import Hypertag.Proofs.ScanClaims
import Hypertag.Proofs.FirstDeclaration
import Hypertag.Proofs.TruncatedScan
import Hypertag.Proofs.Warnings
import Hypertag.Proofs.ClientView
import Hypertag.Proofs.Provenance
import Hypertag.Proofs.PathNames
import Hypertag.Proofs.LinkFree
import Hypertag.Proofs.Requests
import Hypertag.Proofs.WalkedFiles
import Hypertag.Proofs.ProjectRoots
import Hypertag.Proofs.GrownDisk
import Hypertag.Proofs.Classification
import Hypertag.Proofs.SkippedDirectories
import Hypertag.Proofs.IndexHistory
import Hypertag.Proofs.TagCompletion
import Hypertag.Proofs.EarlyEdits
import Hypertag.Proofs.MarkupSpans
import Hypertag.Proofs.ValueCompletion
import Hypertag.Proofs.MarkupText
import Hypertag.Proofs.ValueHover
import Hypertag.Proofs.HoverReach
import Hypertag.Proofs.DeclaredHover
import Hypertag.Proofs.LinkedTag
import Hypertag.Proofs.CacheHistory
import Hypertag.Proofs.WalkOrder
import Hypertag.Proofs.VisitOrder
import Hypertag.Proofs.ValueReach
import Hypertag.Proofs.OpenTags
import Hypertag.Proofs.PendingEquals
import Hypertag.Proofs.OpenValues
import Hypertag.Proofs.Tokens
import Hypertag.Proofs.CommentRows
import Hypertag.Proofs.Reconcile
import Hypertag.Proofs.Spelling
import Hypertag.Proofs.HitTest
