import Git.DeltaThreads
import Git.WriteOrder
import Git.DeltaDepth
import Git.PackIdxRoundTrip
import Git.ThreewayMerge
import Git.ApplyPatchCheck
import Git.BinaryPatchRoundTrip
import Git.ConfigNumberExact
import Git.ApplyHeaderNameLaws
import Git.RevisionLimited
import Git.ListObjectsLaws
import Git.ExcludeLaws
import Git.TopoSortLaws
import Git.FindPosLaws
import Git.FuzzyMatchLaws
import Git.SimilarityLaws
import Git.SvndiffLaws
import Git.WsLaws
import Git.IndexNamePos
import Git.PackHeader
import Git.PatchDeltaBounds
import Git.PackRevindex
import Git.Sha1EntryPos
import Git.BisectAll
import Git.ComputeWriteOrderLaws
import Git.CreateDeltaBounds
import Git.RacyGit
import Git.SqQuoteLaws
import Git.ClearCeFlags
import Git.IndexExtensions
import Git.UnmergeUndoes
import Git.DropUnmerged
import Git.TreeFlattening
import Git.CacheTreePlacesLaws
import Git.AttrHistory
import Git.VarintBijection
import Git.Base85Rejects
import Git.QuoteBuffer
import Git.PathRelative
import Git.ConvertSafe
import Git.FixupPack
import Git.BaseCacheRuns
import Git.NameHashRuns
import Git.TraverseTreesCalls
import Git.GetTreeEntry
import Git.NormalizePathLaws
import Git.ReflogAt
import Git.ForEachRefWalk
import Git.RenameRefLaws
import Git.SidebandLaws
import Git.Utf8
import Git.MergesortLinks
import Git.FirstMerges
