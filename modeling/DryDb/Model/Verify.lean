import DryDb.Model.BTree
/-!
# The verification pass

`verify.rs`: what the pass reads off a page.
-/

namespace DryDb

/-- The digest of a page's first entry, whichever way the digests are laid out. In-order
position zero is the leftmost node of the complete tree. -/
def firstDigest (view : PageView) : Result UInt64 :=
  if !view.layout.eytzinger then view.digestAt 0 else
  let complete := view.digestSlotCount
  let node := leftmost complete complete 1
  view.digestSlot (node - 1)

end DryDb
