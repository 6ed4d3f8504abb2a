import Facet.Collections.Agreement
import Facet.Core.ArrayOps
import Facet.Core.ComputedVariance
import Facet.Core.ValueLaws
import Facet.Dynamic.Faithful
import Facet.Flatten.DistinctNames
import Facet.Flatten.DocumentKeys
import Facet.Flatten.DomRuns
import Facet.Flatten.Enumeration
import Facet.Flatten.KeyAnswers
import Facet.Flatten.ListItems
import Facet.Flatten.NestedProbing
import Facet.Flatten.OmittedBlocks
import Facet.Flatten.ProbeAnswers
import Facet.Flatten.Satisfying
import Facet.Path.Agreement
import Facet.Path.Callbacks
import Facet.Path.ReadWrite
import Facet.Peek.FlattenedOptions
import Facet.Poke.Atomicity
import Facet.Poke.Discipline
import Facet.Pretty.Chunkiness
import Facet.Pretty.Cycles
import Facet.Pretty.Redaction
import Facet.Reflect.BuildValidation
import Facet.Taxon.Projection
import Facet.TypePlan.Validators
import Facet.TypePlan.VariantLookup
import Facet.Frames.FastPath
import Facet.Frames.FillAgreement
import Facet.Frames.Kept
import Facet.Frames.BitSets
import Facet.Pretty.Strings
import Facet.Pretty.SpanPaths
import Facet.Pretty.ShapeAgreement
import Facet.Macros.Unescaping
import Facet.Macros.RenameRule
import Facet.Plan.Termination
import Facet.Plan.Navigation
import Facet.Frames.RopeRefinement
import Facet.Frames.DeferredEntries
import Facet.Peek.HashAlike
import Facet.Peek.Hashable
import Facet.Macros.VariantPatterns
import Facet.Macros.DeriveItems
import Facet.Flatten.Disambiguation
import Facet.Macros.ChainRuns
