import CodeAtlas.Analysis.Commands
import CodeAtlas.CodeIndex.Commands
import CodeAtlas.Description.Client
import CodeAtlas.FrontEnd.Setup
import CodeAtlas.Indexing.Directory
import CodeAtlas.Indexing.Drawing
import CodeAtlas.Indexing.IndexerProgram
import CodeAtlas.Indexing.Refresh
import CodeAtlas.Indexing.Reindex
import CodeAtlas.Main
import CodeAtlas.Structure.Sources
import CodeAtlas.Survey.CoreFunctions
import CodeAtlas.Survey.EntryPoints
import CodeAtlas.Survey.Features
import CodeAtlas.Survey.Relations
import CodeAtlas.Survey.Sfinae
import CodeAtlas.Survey.Templates
import CodeAtlas.Workload.Commands
import CodeAtlas.Workload.Graphs
import CodeAtlas.Workload.Questions
import CodeAtlas.Proofs.ClassHierarchy.Dispatch
import CodeAtlas.Proofs.ClassHierarchy.History
import CodeAtlas.Proofs.Cflow.Outline
import CodeAtlas.Proofs.Analysis.SharedGraphs
import CodeAtlas.Proofs.Dot.Drawing
import CodeAtlas.Proofs.Structure.Drawing
import CodeAtlas.Proofs.CrossReferences
import CodeAtlas.Proofs.Analysis.Changed
import CodeAtlas.Proofs.ClassHierarchy.Document
import CodeAtlas.Proofs.PlainGraph
import CodeAtlas.Proofs.Extraction.Repetition
import CodeAtlas.Proofs.Structure.CallPaths
import CodeAtlas.Proofs.Inheritance.Chains
import CodeAtlas.Proofs.Search.Ranking
import CodeAtlas.Proofs.Finder.Readers
import CodeAtlas.Proofs.Finder.Batches
import CodeAtlas.Proofs.ClassHierarchy.Overloads
import CodeAtlas.Proofs.Resolution.Names
import CodeAtlas.Proofs.Extraction.Recursion
import CodeAtlas.Proofs.Finder.Crawl
import CodeAtlas.Proofs.Search.Sources
import CodeAtlas.Proofs.Search.Techniques
import CodeAtlas.Proofs.CompileCommands.Loading
import CodeAtlas.Proofs.CompileCommands.Options
import CodeAtlas.Proofs.CompileCommands.IncludePaths
import CodeAtlas.Proofs.Source.Blocks
import CodeAtlas.Proofs.Description.Terms
import CodeAtlas.Proofs.Diagram.Relations
