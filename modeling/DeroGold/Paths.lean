import DeroGold.MainChain
import DeroGold.Lib.KeyIndex

/-!
Paths of stored blocks, read off the blocks' own links.

A path leads from the genesis block to the top of a leaf, each block naming the one
before it by its hash. It does not mention segments, so it makes sense of any core. In
a run that keeps the root whole there is one path to each leaf: the chain its segments
hold (`Linear.path_eq_chain`).
-/

namespace DeroGold

open SegmentTree List TransitionSystem Cache

def genesisEntry (genesis : CachedBlock) : Entry :=
  (⟨genesis, []⟩, DatabaseBlockchainCache.genesisBlockInfo genesis)

/-- The chain up to and with a segment starts with the genesis block and names no hash
twice. -/
structure Anchored (genesis : CachedBlock) (below : List Entry) (cache : Cache) : Prop where
  head : (below ++ cache.entries).head? = some (genesisEntry genesis)
  hashes : (Core.hashesOf (below ++ cache.entries)).Nodup

namespace Core

variable {env : Env} {order : HashOrder} {now : Nat} {core core' : Core} {raw : RawBlock}
  {seg previous : Nat} {pushed : PushedBlockInfo} {nd : Node Cache}
  {parents : Lineage} {parent : Entry} {result : AddBlockResult} {genesis : CachedBlock}

theorem hashesOf_append (xs ys : List Entry) : hashesOf (xs ++ ys) = hashesOf xs ++ hashesOf ys :=
  map_append

theorem Placed.chainTo_ne_nil (placed : Placed core raw seg previous nd parents parent)
    (fits : Fits (chainOf entries parents) nd.value) : chainTo nd parents previous ≠ [] := by
  intro empty
  have length_eq := placed.length_chainTo fits
  rw [empty] at length_eq
  cases length_eq

/-! ### Facts about chains -/

variable {α : Type} {C : List Entry → Prop} {calls : List Call} {path : List Entry}

theorem nodup_chainTo {keys : Entry → List α}
    (distinct : (KeyIndex.keysOf keys (chainOf entries parents ++ nd.value.entries)).Nodup) :
    (KeyIndex.keysOf keys (chainTo nd parents previous)).Nodup := by
  rw [← take_append_drop (previous + 1 - nd.value.getStartBlockIndex) nd.value.entries,
    ← append_assoc] at distinct
  exact (KeyIndex.nodup_parts distinct).1

/-- A fact about chains that passes to their beginnings and to a chain with one more checked
block holds of the chains of all segments after a call. -/
theorem chainwise_step (linear : core.Linear)
    (ok : Consistent entries (fun below cache => C (below ++ cache.entries)) core.chainsStorage)
    (passed : core.checkBlock env now raw = .ok (seg, previous, pushed))
    (keeps : core.KeepsRoot env (.addBlock now raw))
    (committed : Committed env order now core seg previous pushed core' result)
    (initial : ∀ {xs ys : List Entry}, xs ≠ [] → C (xs ++ ys) → C xs)
    (grow : ∀ {nd : Node Cache} {parents : Lineage} {parent : Entry},
      Placed core raw seg previous nd parents parent → C (chainTo nd parents previous) →
      C (chainTo nd parents previous ++ [(raw, parent.2.next pushed)])) :
    Consistent entries (fun below cache => C (below ++ cache.entries)) core'.chainsStorage := by
  have shape := linear.shape
  obtain ⟨nd, parents, parent, placed, same⟩ := shape.placed passed
  have fits := placed.holds shape linear.fits
  have here := placed.holds shape ok
  -- the chain with the new block, whichever seg it is put in
  have whole : C (chainTo nd parents previous ++ nd.value.entries.drop
      (previous + 1 - nd.value.getStartBlockIndex)) := by
    rwa [chainTo, append_assoc, take_append_drop]
  have grown := grow placed (initial (placed.chainTo_ne_nil fits) whole)
  refine (consistent_step shape linear.fits ok placed same committed
    (fun below => placed.not_sharedRoot shape passed below keeps) ?_ ?_ ?_).2
  · intro _ _ _ chain_eq entries_eq
    rwa [chain_eq, chainOf, append_assoc, ← same, ← entries_eq] at grown
  · intro lineage _ _ _ entries_eq
    rwa [entries_eq]
  · intro lower upper _ _ _ whole lowerFits
    have nonempty := lowerFits.sound.entries_ne_nil
    rw [whole, ← append_assoc] at here
    exact ⟨initial (by simp [nonempty]) here, here⟩

/-! ### The genesis block -/

theorem Linear.hash_fresh (linear : core.Linear)
    (placed : Placed core raw seg previous nd parents parent)
    (passed : core.checkBlock env now raw = .ok (seg, previous, pushed)) :
    raw.block.blockHash ∉ hashesOf (chainOf entries (nd.value :: parents)) := by
  have unknown := not_mem_hashesOf linear.shape linear.complete (checkBlock_ok passed).1
  intro mem
  obtain ⟨entry, held, same⟩ := mem_map.1 mem
  refine unknown (mem_map.2 ⟨entry, ?_, same⟩)
  rw [← placed.lineage] at held
  exact mem_allEntries_of_mem_chain held

theorem anchored_afterCalls (keeps : Along (step env order) (KeepsRoot env) (load genesis) calls) :
    (afterCalls env order genesis calls).Linear ∧ Consistent entries (Anchored genesis)
        (afterCalls env order genesis calls).chainsStorage := by
  have chains : Consistent entries (fun below cache => (below ++ cache.entries).head? =
      some (genesisEntry genesis) ∧ (hashesOf (below ++ cache.entries)).Nodup)
        (afterCalls env order genesis calls).chainsStorage :=
    consistent_afterCalls (fun _ _ keeps => keeps) ⟨rfl, nodup_singleton _⟩
      (fun linear chainwise meets passed committed => chainwise_step
        (C := fun chain => chain.head? = some (genesisEntry genesis) ∧ (hashesOf chain).Nodup)
        linear chainwise passed meets committed ?_ (fun placed anchored => ?_)) keeps
  · exact ⟨linear_afterCalls keeps, fun _ _ found => ⟨(chains found).1, (chains found).2⟩⟩
  · rintro xs ys nonempty ⟨head, hashes⟩
    rw [head?_append_of_ne_nil _ nonempty] at head
    rw [hashesOf_append] at hashes
    exact ⟨head, (nodup_append.1 hashes).1⟩
  · rename_i previous _ _ nd parents parent
    obtain ⟨head, hashes⟩ := anchored
    have fits := placed.holds linear.shape linear.fits
    refine ⟨by rwa [head?_append_of_ne_nil _ (placed.chainTo_ne_nil fits)], ?_⟩
    rw [hashesOf_append]
    refine nodup_append.2 ⟨hashes, nodup_singleton _, ?_⟩
    rintro _ mem hash new rfl
    -- the hash of the new block is not known on its branch
    apply linear.hash_fresh placed passed
    rw [mem_singleton.1 new] at mem
    have below : chainTo nd parents previous ⊆ chainOf entries (nd.value :: parents) :=
      (prefix_append_right_inj _ |>.2 ( take_prefix _ _)).subset
    have held := map_subset (fun entry : Entry => entry.2.blockHash) below mem
    rwa [← rawBlock_of_checkBlock passed]

/-! ### Paths -/

/-- Stored blocks from the genesis block to the top of a leaf, each naming the one
before it. -/
structure PathTo (genesis : CachedBlock) (core : Core) (leaf : Nat) (path : List Entry) : Prop where
  stored : ∀ entry ∈ path, entry ∈ core.allEntries
  head : path.head? = some (genesisEntry genesis)
  linked : path.IsChain fun below entry =>
    entry.1.block.previousBlockHash = below.1.block.blockHash
  last : path.getLast? = core.topEntry leaf
  nodup : path.Nodup

/-- The stored blocks with the given hashes, in that order. -/
def blocksNamed (core : Core) (hashes : List Hash) : List Entry :=
  hashes.filterMap fun hash => core.allEntries.find? fun entry => entry.2.blockHash == hash

/-- Two lists that end alike and whose steps are determined backwards end alike as far
as both go. -/
theorem suffixes_agree {R : α → α → Prop} (back : ∀ {a b c}, R a c → R b c → a = b)
    {xs ys : List α} (xs_chain : xs.IsChain R) (ys_chain : ys.IsChain R)
    (last : xs.getLast? = ys.getLast?) : xs <:+ ys ∨ ys <:+ xs := by
  induction xs using reverseRecOn generalizing ys with
  | nil => exact .inl (nil_suffix)
  | append_singleton xs x ih =>
    cases ys using reverseRecOn with
    | nil => exact .inr nil_suffix
    | append_singleton ys y =>
      rw [getLast?_concat, getLast?_concat, Option.some.injEq] at last
      subst last
      obtain ⟨xs_chain, -, xs_last⟩ := isChain_append.1 xs_chain
      obtain ⟨ys_chain, -, ys_last⟩ := isChain_append.1 ys_chain
      have agree : xs <:+ ys ∨ ys <:+ xs := by
        by_cases xs_empty : xs = []
        · exact .inl (xs_empty ▸ nil_suffix)
        by_cases ys_empty : ys = []
        · exact .inr (ys_empty ▸ nil_suffix)
        apply ih xs_chain ys_chain
        rw [getLast?_eq_some_getLast xs_empty, getLast?_eq_some_getLast ys_empty, Option.some.injEq]
        exact back (xs_last _ (getLast?_eq_some_getLast xs_empty) x rfl)
          (ys_last _ (getLast?_eq_some_getLast ys_empty) x rfl)
      rcases agree with ⟨rest, rfl⟩ | ⟨rest, rfl⟩
      · exact .inl ⟨rest, (append_assoc ..).symm⟩
      · exact .inr ⟨rest, (append_assoc ..).symm⟩

theorem eq_of_suffix_of_head {xs ys : List α} {a : α} (suffix : xs <:+ ys)
    (xs_head : xs.head? = some a) (ys_head : ys.head? = some a) (nodup : ys.Nodup) : xs = ys := by
  obtain ⟨rest, rfl⟩ := suffix
  cases rest with
  | nil => rfl
  | cons b rest =>
    cases ys_head
    have twice := (nodup_cons.1 nodup).1
    exact absurd (mem_append_right _ (mem_of_head? xs_head)) twice

theorem Linear.eq_of_hash (linear : core.Linear) {a b : Entry} (a_mem : a ∈ core.allEntries)
    (b_mem : b ∈ core.allEntries) (same : a.1.block.blockHash = b.1.block.blockHash) : a = b := by
  have stored : ∀ {entry : Entry}, entry ∈ core.allEntries →
      entry.2.blockHash = entry.1.block.blockHash := by
    intro entry mem
    obtain ⟨i, nd, found, held⟩ := mem_allEntries.1 mem
    exact ((linear.shape.tree.sound found).stored entry held).hash
  apply inj_on_of_nodup_map linear.hashes a_mem b_mem
  rw [stored a_mem, stored b_mem, same]

theorem Linear.chain_linked (linear : core.Linear) (found : core.chainsStorage.node? seg = some nd) :
    (core.chain seg).IsChain Entry.Linked := by
  rw [chain, linear.shape.tree.wellFormed.chain_eq found]
  exact (linear.fits found).linked

/-- Stored blocks from the genesis block on, each naming the one before it. -/
structure Rooted (genesis : CachedBlock) (core : Core) (path : List Entry) : Prop where
  stored : ∀ entry ∈ path, entry ∈ core.allEntries
  head : path.head? = some (genesisEntry genesis)
  linked : path.IsChain fun below entry =>
    entry.1.block.previousBlockHash = below.1.block.blockHash
  nodup : path.Nodup

theorem PathTo.rooted {leaf : Nat} (isPath : core.PathTo genesis leaf path) :
    core.Rooted genesis path :=
  ⟨isPath.stored, isPath.head, isPath.linked, isPath.nodup⟩

/-- Two rooted paths that end alike are the same. -/
theorem Linear.rooted_unique (linear : core.Linear) {other : List Entry}
    (first : core.Rooted genesis path) (second : core.Rooted genesis other)
    (last : path.getLast? = other.getLast?) : path = other := by
  have steps : ∀ {path : List Entry}, core.Rooted genesis path →
      path.IsChain fun below entry => below ∈ core.allEntries ∧
        entry.1.block.previousBlockHash = below.1.block.blockHash := by
    intro path rooted
    exact isChain_iff_getElem.2 fun i bound => ⟨rooted.stored _ (getElem_mem _),
      isChain_iff_getElem.1 rooted.linked i bound⟩
  rcases suffixes_agree
    (fun a b => linear.eq_of_hash a.1 b.1 (a.2.symm.trans b.2))
    (steps first) (steps second) last with suffix | suffix
  · exact eq_of_suffix_of_head suffix first.head second.head second.nodup
  · exact (eq_of_suffix_of_head suffix second.head first.head first.nodup).symm

section

variable (linear : core.Linear)
  (ok : Consistent entries (Anchored genesis) core.chainsStorage)
include linear ok

/-- A beginning of the chain of a segment is rooted. -/
theorem Linear.rooted_of_prefix (found : core.chainsStorage.node? seg = some nd) {path : List Entry}
    (nonempty : path ≠ []) (ahead : path <+: core.chain seg) : core.Rooted genesis path := by
  have chain_eq : core.chain seg =
      core.chainsStorage.chainBelow entries nd.parent ++ nd.value.entries :=
    linear.shape.tree.wellFormed.chain_eq found
  have anchored := ok found
  have stored : ∀ entry ∈ path, entry ∈ core.allEntries :=
    fun _ held => mem_allEntries_of_mem_chain (ahead.subset held)
  have linked := linear.chain_linked found
  obtain ⟨rest, whole⟩ := ahead
  refine ⟨stored, ?_, ?_, ?_⟩
  · have head := anchored.head
    rwa [← chain_eq, ← whole, head?_append_of_ne_nil _ nonempty] at head
  · refine isChain_iff_getElem.2 fun i bound => ?_
    rw [← whole] at linked
    have link := isChain_iff_getElem.1 linked.left_of_append i bound
    obtain ⟨j, jd, at_j, held⟩ :=
      mem_allEntries.1 (stored _ (getElem_mem (show i < path.length by omega)))
    rw [link.previous, ((linear.shape.tree.sound at_j).stored _ held).hash]
  · have hashes := anchored.hashes
    rw [← chain_eq, ← whole, hashesOf_append] at hashes
    exact List.Nodup.of_map _ (nodup_append.1 hashes).1

/-- The chain of a leaf is the only path to it. -/
theorem Linear.path_eq_chain {leaf : Nat} (mem : leaf ∈ core.chainsLeaves) {path : List Entry}
    (isPath : core.PathTo genesis leaf path) : path = core.chain leaf := by
  obtain ⟨nd, found⟩ := lt_size_iff.1 (linear.shape.leaves.old leaf mem)
  obtain ⟨top, top_eq, -⟩ := (linear.shape.tree.sound found).exists_last
  have last : (core.chain leaf).getLast? = some top := by
    rw [chain, linear.shape.tree.wellFormed.chain_eq found, getLast?_append, top_eq]
    rfl
  have own_last : core.topEntry leaf = some top := (topEntry_eq found).trans top_eq
  exact linear.rooted_unique isPath.rooted
    (linear.rooted_of_prefix ok found (ne_nil_of_mem (mem_of_getLast? last)) (prefix_refl _))
    (isPath.last.trans (own_last.trans last.symm))

end

/-! ### Ancestors of a block -/

/-- Stored blocks from the genesis block to the block with the given hash. -/
structure Ancestry (genesis : CachedBlock) (core : Core) (hash : Hash) (path : List Entry) :
    Prop where
  rooted : core.Rooted genesis path
  last : (path.getLast?.map fun entry => entry.1.block.blockHash) = some hash

/-- The chain of the segment that the search finds for a hash, cut above the block. -/
def ancestors (core : Core) (hash : Hash) : List Entry :=
  match core.findSegmentContainingBlock hash with
  | none => []
  | some segment => (core.chain segment).take (core.indexIn segment hash + 1)

namespace Placed

variable (placed : Placed core raw seg previous nd parents parent)
  (fits : Fits (chainOf entries parents) nd.value)

include placed fits

theorem ancestors_eq
    (found : core.findSegmentContainingBlock raw.block.previousBlockHash = some seg)
    (index : core.indexIn seg raw.block.previousBlockHash = previous) :
    core.ancestors raw.block.previousBlockHash = chainTo nd parents previous := by
  rw [placed.chainTo_eq_take fits, ancestors, found, ← placed.lineage, ← index]
  rfl

section

variable (linear : core.Linear)
  (anchored : Consistent entries (Anchored genesis) core.chainsStorage)
include linear anchored

theorem rooted_chainTo : core.Rooted genesis (chainTo nd parents previous) := by
  refine linear.rooted_of_prefix anchored placed.node ?_ ?_
  · intro empty
    have last := placed.getLast?_chainTo fits
    rw [empty] at last
    cases last
  · rw [placed.chainTo_eq_take fits, ← placed.lineage]
    exact take_prefix _ _

/-- The chain up to the predecessor is the only path to it. -/
theorem ancestry_eq {path : List Entry}
    (isPath : core.Ancestry genesis raw.block.previousBlockHash path) :
    path = chainTo nd parents previous := by
  have rooted := placed.rooted_chainTo fits linear anchored
  have last := placed.getLast?_chainTo fits
  apply linear.rooted_unique isPath.rooted rooted
  obtain ⟨entry, path_last, hash⟩ := Option.map_eq_some_iff.1 isPath.last
  rw [path_last, last, Option.some.injEq]
  refine linear.eq_of_hash (isPath.rooted.stored _ (mem_of_getLast? path_last))
    (rooted.stored _ (mem_of_getLast? last)) ?_
  have sound := linear.shape.tree.sound placed.node
  rw [hash, placed.previous, (sound.stored _ (mem_of_getElem? placed.parent_at)).hash]

end

end Placed

/-- The ancestors of a block that passes its checks are the chain it is put on. -/
theorem Linear.ancestors_of_checkBlock (linear : core.Linear)
    (passed : core.checkBlock env now raw = .ok (seg, previous, pushed))
    (placed : Placed core raw seg previous nd parents parent) :
    core.ancestors raw.block.previousBlockHash = chainTo nd parents previous := by
  obtain ⟨-, found, cache, value, rfl, -⟩ := checkBlock_ok passed
  exact placed.ancestors_eq (placed.holds linear.shape linear.fits) found (indexIn_eq value _)

end Core

end DeroGold
