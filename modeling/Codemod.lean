import Codemod.Main
import Codemod.Proofs.Text.Splice
import Codemod.Proofs.Disk
import Codemod.Proofs.Project.Load
import Codemod.Proofs.Migration.Failure
import Codemod.Proofs.Path
import Codemod.Proofs.Disk.Locate
import Codemod.Proofs.Disk.Place
import Codemod.Proofs.Commit
import Codemod.Proofs.Session.Worker
import Codemod.Proofs.Session.Journey
import Codemod.Proofs.Session.Writing
import Codemod.Proofs.SourceTree
import Codemod.Proofs.Migration.Visits
import Codemod.Proofs.Migration.Again
import Codemod.Proofs.Session.Mirror
import Codemod.Proofs.Session.DryRun
import Codemod.Proofs.Migration.DryRun
import Codemod.Proofs.Disk.Agree
import Codemod.Proofs.Migration.Listing
import Codemod.Proofs.Session.Chunks
import Codemod.Proofs.Session.Interleaving
import Codemod.Proofs.Session.Features
import Codemod.Proofs.Project.Pages
import Codemod.Proofs.Session.Isolation
import Codemod.Proofs.Commit.Stages
import Codemod.Proofs.Migration.Attempts
import Codemod.Proofs.Syntax.Amend
import Codemod.Proofs.Module.Import
import Codemod.Proofs.Module.ConfigObject
import Codemod.Proofs.Pass.Router
import Codemod.Proofs.Pass.UiImports
import Codemod.Proofs.Pass.PageConfig
import Codemod.Proofs.Pass.Again
import Codemod.Proofs.Migration.Reload
import Codemod.Proofs.Syntax.Address
import Codemod.Proofs.Pass.Router.Scan
import Codemod.Proofs.Syntax.Parser
import Codemod.Proofs.Module.Component
import Codemod.Proofs.Module.ImportEdit
import Codemod.Proofs.Pass.Lossless
import Codemod.Proofs.Project.Entry
import Codemod.Proofs.Pass.UiImports.Distribution
import Codemod.Proofs.Pass.UiImports.Bindings
import Codemod.Proofs.Syntax.Parser.Gives
import Codemod.Proofs.Module.ImportText
import Codemod.Proofs.Module.Ensured
import Codemod.Proofs.Pass.Router.Field
import Codemod.Proofs.Pass.Router.Classes
import Codemod.Proofs.Module.Outdent
import Codemod.Proofs.Module.Wrapping
import Codemod.Proofs.Pass.PageConfig.Coverage
import Codemod.Proofs.Pass.PageConfig.Removal
import Codemod.Proofs.Module.Appending
import Codemod.Proofs.Project.BuildConfig.Frame
import Codemod.Proofs.Project.BuildConfig.Settled
import Codemod.Proofs.Syntax.Parser.DefaultExport
import Codemod.Proofs.Project.Entry.DefaultExport
import Codemod.Proofs.Dependency
import Codemod.Proofs.Dependency.Upgrade
import Codemod.Proofs.Dependency.Respelling
import Codemod.Proofs.Text.Removal
import Codemod.Proofs.Text.Reorder
import Codemod.Proofs.Module.PageList
import Codemod.Proofs.SourceTree.Walk
import Codemod.Proofs.Text.Location
