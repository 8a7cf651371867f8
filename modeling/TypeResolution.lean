import TypeResolution.Catalog.BaseLibrary
import TypeResolution.Main
import TypeResolution.Proofs.Search.MoreFuel
import TypeResolution.Proofs.Search.Listing
import TypeResolution.Proofs.Search.Trace
import TypeResolution.Proofs.Ty.Parameters
import TypeResolution.Proofs.Ty.Matching
import TypeResolution.Proofs.Catalog.MoreFuel
import TypeResolution.Proofs.Catalog.Forms
import TypeResolution.Proofs.Catalog.Canonical
import TypeResolution.Proofs.Catalog.Termination
import TypeResolution.Proofs.Catalog.Inheritance
import TypeResolution.Proofs.Catalog.Declarations
import TypeResolution.Proofs.Catalog.Arity
import TypeResolution.Proofs.Unification.MoreFuel
import TypeResolution.Proofs.Unification.Silent
import TypeResolution.Proofs.Unification.Solutions
import TypeResolution.Proofs.Unification.Soundness
import TypeResolution.Proofs.Unification.Validity
import TypeResolution.Proofs.Unification.SolvedSites
import TypeResolution.Proofs.Unification.Description
import TypeResolution.Proofs.Unification.Exactness
import TypeResolution.Proofs.Resolver.MoreFuel
import TypeResolution.Proofs.Resolver.Contribution
import TypeResolution.Proofs.Resolver.Calls
import TypeResolution.Proofs.Resolver.Streaming
import TypeResolution.Proofs.Search.Within
import TypeResolution.Proofs.Resolver.Windows
import TypeResolution.Proofs.Resolver.Attempts
import TypeResolution.Proofs.Resolver.Confinement
import TypeResolution.Proofs.Resolver.TypesMet
import TypeResolution.Proofs.Resolver.Termination
import TypeResolution.Proofs.Resolver.Validity
import TypeResolution.Proofs.Catalog.Acyclicity
import TypeResolution.Proofs.Catalog.Assignability
import TypeResolution.Proofs.Catalog.FiniteAncestry
import TypeResolution.Proofs.Catalog.Questions
import TypeResolution.Proofs.Catalog.Conversion
import TypeResolution.Proofs.Catalog.VarianceSafety
import TypeResolution.Proofs.Catalog.Transitivity
import TypeResolution.Proofs.Unification.Acceptance
import TypeResolution.Proofs.Unification.Completeness
import TypeResolution.Proofs.Unification.Union
import TypeResolution.Proofs.Unification.Instances
import TypeResolution.Proofs.Catalog.Storage
import TypeResolution.Proofs.Resolver.Templates
import TypeResolution.Proofs.Unification.Reoccurrence
import TypeResolution.Proofs.Expr.Grammar
import TypeResolution.Proofs.Expr.Lexing
import TypeResolution.Proofs.Expr.Exactness
import TypeResolution.Proofs.Expr.Writing
import TypeResolution.Proofs.Catalog.Naming
import TypeResolution.Proofs.Config.Registration
import TypeResolution.Proofs.Config.RoundTrip
import TypeResolution.Proofs.Ty.Renaming
import TypeResolution.Proofs.Catalog.Renaming
import TypeResolution.Proofs.Catalog.SameNames
import TypeResolution.Proofs.Config.Order
import TypeResolution.Proofs.Search.Translation
import TypeResolution.Proofs.Unification.Errors
import TypeResolution.Proofs.Resolver.Outcomes
import TypeResolution.Proofs.Resolver.Failures
import TypeResolution.Proofs.Search.Feeding
import TypeResolution.Proofs.Unification.InPlace
import TypeResolution.Proofs.Resolver.Fallback
import TypeResolution.Proofs.Unification.Negation
import TypeResolution.Proofs.Unification.Pruning
import TypeResolution.Proofs.Catalog.Closure
import TypeResolution.Proofs.Catalog.Lineage
import TypeResolution.Proofs.Catalog.OpenLineage
import TypeResolution.Proofs.Unification.Distinctness
import TypeResolution.Proofs.Catalog.StandIns
import TypeResolution.Proofs.Catalog.Introspection
import TypeResolution.Proofs.Unification.SingleTypes
import TypeResolution.Proofs.Unification.SitesBelow
import TypeResolution.Proofs.Ty.LeastSolution
import TypeResolution.Proofs.Catalog.Lookup
import TypeResolution.Proofs.Unification.KindBounds
import TypeResolution.Proofs.Search.Shortfall
import TypeResolution.Proofs.Resolver.RequiredParameters
