import XPerl.Numeric.IntegerText
import XPerl.Hash.Restricted
import XPerl.ThreadQueue.Semaphore
import XPerl.Class.Union
import XPerl.Hash.Contents
import XPerl.StringOps.Fbm
import XPerl.Hash.Accounting
import XPerl.Hash.Churn
import XPerl.Hash.Retired
import XPerl.Hash.Slots
import XPerl.Hash.Traversal
import XPerl.Numeric.Comparison
import XPerl.Numeric.Division
import XPerl.Numeric.Power
import XPerl.Numeric.NumberGrammar
import XPerl.Mro.Preorder
import XPerl.XGraph.Builds
import XPerl.XGraph.Trees
import XPerl.XGraph.Derived
import XPerl.Dispatch.ConcatMatch
import XPerl.Dispatch.Literals
import XPerl.Rng.Standards
import XPerl.Rng.Period
import XPerl.Rng.WideProduct
import XPerl.Rng.Filling
import XPerl.Rng.AliasTable
import XPerl.TensorXs.HalfPrecision
import XPerl.TensorXs.Laws
import XPerl.Arrays.Whole
import XPerl.ThreadQueue.Wakeups
import XPerl.StringOps.Bitwise
import XPerl.InversionList.Heap
import XPerl.Pack.Checksum
import XPerl.Time64.Localtime
import XPerl.StringOps.Increment
import XPerl.Utf8.Utf16
import XPerl.Utf8.Hop
import XPerl.Diagnostics.Fatalized
import XPerl.Diagnostics.Merging
