import DeroGold.Lib.Run
import Mathlib.Data.List.Nodup
import Mathlib.Data.List.Perm.Subperm

/-!
Peers a node knows: the white list of those it has talked to, and the gray list of those it was
told of. `consistent_run` says that the lists stay apart, without doubles, within their limits
and free of addresses that are not allowed, whatever lists other nodes send.
-/

namespace DeroGold.P2p

open List TransitionSystem

structure NetworkAddress where
  ip : UInt32
  port : UInt32
deriving DecidableEq

structure PeerlistEntry where
  adr : NetworkAddress
  id : UInt64
  lastSeen : UInt64

/-- What `std::sort` by `last_seen` may do: peers seen at one time come in any order. -/
structure Sorting where
  sort : List PeerlistEntry → List PeerlistEntry
  perm : ∀ peers, sort peers ~ peers
  newestFirst : ∀ peers, (sort peers).Pairwise fun lhs rhs => rhs.lastSeen ≤ lhs.lastSeen

instance : Inhabited Sorting where
  default := {
    sort peers := peers.mergeSort fun lhs rhs => decide (rhs.lastSeen ≤ lhs.lastSeen)
    perm peers := mergeSort_perm peers _
    newestFirst peers := by
      refine (pairwise_mergeSort (fun _ _ _ => ?_) (fun _ _ => ?_) peers).imp of_decide_eq_true
      · simpa using flip UInt64.le_trans
      · simpa using UInt64.le_total _ _ }

/-- Bytes the other way round. -/
def networkToHost (n : UInt32) : UInt32 :=
  n <<< 24 ||| (n &&& 0xff00) <<< 8 ||| (n &&& 0xff0000) >>> 8 ||| n >>> 24

def inNetwork (value mask network : UInt32) : Bool := value &&& mask == network

/-- `127.0.0.0/8` -/
def isLoopback (value : UInt32) : Bool := inNetwork value 0xff000000 0x7f000000

/-- `10.0.0.0/8`, `172.16.0.0/12`, `192.168.0.0/16` -/
def isPrivate (value : UInt32) : Bool :=
  inNetwork value 0xff000000 0x0a000000 || inNetwork value 0xfff00000 0xac100000 ||
    inNetwork value 0xffff0000 0xc0a80000

def isIpAllowed (allowLocalIp : Bool) (ip : UInt32) : Bool :=
  let addr := networkToHost ip
  if isLoopback addr then false
  else if !allowLocalIp && isPrivate addr then false
  else true

/-- Removes the oldest peers. -/
def trim (sorting : Sorting) (maxSize : Nat) (peers : List PeerlistEntry) : List PeerlistEntry :=
  if peers.length ≤ maxSize then peers else (sorting.sort peers).take maxSize

/-- How both lists take a peer: a new one is put at the end, a known one is updated. -/
def put (sorting : Sorting) (maxSize : Nat) (peers : List PeerlistEntry)
    (newPeer : PeerlistEntry) : List PeerlistEntry :=
  match peers.findIdx? (·.adr == newPeer.adr) with
  | none => trim sorting maxSize (peers ++ [newPeer])
  | some i => peers.set i newPeer

def whitePeerlistLimit : Nat := 1000

def grayPeerlistLimit : Nat := 5000

structure PeerlistManager where
  allowLocalIp : Bool
  peersWhite : List PeerlistEntry
  peersGray : List PeerlistEntry

namespace PeerlistManager

variable (sorting : Sorting)

def appendWithPeerWhite (m : PeerlistManager) (newPeer : PeerlistEntry) : PeerlistManager :=
  if !isIpAllowed m.allowLocalIp newPeer.adr.ip then m
  else { m with
    peersWhite := put sorting whitePeerlistLimit m.peersWhite newPeer
    peersGray := m.peersGray.eraseP (·.adr == newPeer.adr) }

def appendWithPeerGray (m : PeerlistManager) (newPeer : PeerlistEntry) : PeerlistManager :=
  if !isIpAllowed m.allowLocalIp newPeer.adr.ip then m
  else if m.peersWhite.any (·.adr == newPeer.adr) then m
  else { m with peersGray := put sorting grayPeerlistLimit m.peersGray newPeer }

def mergePeerlist (m : PeerlistManager) (outer : List PeerlistEntry) : PeerlistManager :=
  let merged := run (appendWithPeerGray sorting) m outer
  { merged with peersGray := trim sorting grayPeerlistLimit merged.peersGray }

def setPeerJustSeen (m : PeerlistManager) (now peer : UInt64)
    (addr : NetworkAddress) : PeerlistManager :=
  m.appendWithPeerWhite sorting ⟨addr, peer, now⟩

/-- What the node does with its lists. -/
inductive Action where
  | merge (outer : List PeerlistEntry)
  | appendWhite (peer : PeerlistEntry)
  | appendGray (peer : PeerlistEntry)
  | justSeen (now peer : UInt64) (addr : NetworkAddress)

def step (m : PeerlistManager) : Action → PeerlistManager
  | .merge outer => m.mergePeerlist sorting outer
  | .appendWhite peer => m.appendWithPeerWhite sorting peer
  | .appendGray peer => m.appendWithPeerGray sorting peer
  | .justSeen now peer addr => m.setPeerJustSeen sorting now peer addr

end PeerlistManager

/-! ### One list -/

/-- No address occurs twice, the list is within its limit, and every address may be stored. -/
structure ListOk (allowLocalIp : Bool) (maxSize : Nat) (peers : List PeerlistEntry) : Prop where
  distinct : (peers.map (·.adr)).Nodup
  size : peers.length ≤ maxSize
  allowed : ∀ peer ∈ peers, isLoopback (networkToHost peer.adr.ip) = false ∧
    (allowLocalIp = false → isPrivate (networkToHost peer.adr.ip) = false)

variable {sorting : Sorting} {allowLocalIp : Bool} {maxSize : Nat} {peers : List PeerlistEntry}
  {newPeer : PeerlistEntry}

theorem trim_subperm (peers : List PeerlistEntry) : trim sorting maxSize peers <+~ peers := by
  unfold trim
  split
  · exact Subperm.refl _
  · exact (take_sublist ..).subperm.trans (sorting.perm peers).subperm

theorem length_trim (peers : List PeerlistEntry) :
    (trim sorting maxSize peers).length ≤ maxSize := by
  unfold trim
  split
  · assumption
  · exact length_take_le ..

theorem mem_put {peer : PeerlistEntry} (mem : peer ∈ put sorting maxSize peers newPeer) :
    peer ∈ peers ∨ peer = newPeer := by
  unfold put at mem
  split at mem
  · simpa using (trim_subperm _).subset mem
  · exact mem_or_eq_of_mem_set mem

theorem ListOk.distinct_of_subperm {fewer : List PeerlistEntry} (part : fewer <+~ peers)
    (distinct : (peers.map (·.adr)).Nodup) : (fewer.map (·.adr)).Nodup := by
  obtain ⟨same, perm, sublist⟩ := part
  exact (perm.map _).nodup_iff.1 ((sublist.map _).nodup distinct)

theorem ListOk.subperm {fewer : List PeerlistEntry} (ok : ListOk allowLocalIp maxSize peers)
    (part : fewer <+~ peers) : ListOk allowLocalIp maxSize fewer :=
  ⟨distinct_of_subperm part ok.distinct, Nat.le_trans part.length_le ok.size,
    fun peer mem => ok.allowed peer (part.subset mem)⟩

theorem ListOk.put (ok : ListOk allowLocalIp maxSize peers)
    (checked : isIpAllowed allowLocalIp newPeer.adr.ip = true) :
    ListOk allowLocalIp maxSize (put sorting maxSize peers newPeer) := by
  refine ⟨?_, ?_, fun peer mem => ?_⟩
  · unfold P2p.put
    split
    · rename_i absent
      simp only [findIdx?_eq_none_iff, beq_eq_false_iff_ne] at absent
      refine distinct_of_subperm (trim_subperm _) ?_
      rw [map_append, nodup_append]
      exact ⟨ok.distinct, nodup_singleton _, by simpa using absent⟩
    · rename_i i found
      obtain ⟨inside, same, -⟩ := findIdx?_eq_some_iff_getElem.1 found
      have kept : (peers.set i newPeer).map (·.adr) = peers.map (·.adr) := by
        rw [map_set, ← eq_of_beq same]
        exact map_set.symm.trans (congrArg _ (set_getElem_self inside))
      rw [kept]
      exact ok.distinct
  · unfold P2p.put
    split
    · exact length_trim _
    · rw [length_set]
      exact ok.size
  · obtain mem | rfl := mem_put mem
    · exact ok.allowed peer mem
    · unfold isIpAllowed at checked
      grind

/-! ### Both lists -/

namespace PeerlistManager

/-- Both lists are in order, and no address is in both. -/
structure Consistent (allowLocalIp : Bool) (m : PeerlistManager) : Prop where
  setting : m.allowLocalIp = allowLocalIp
  white : ListOk allowLocalIp whitePeerlistLimit m.peersWhite
  gray : ListOk allowLocalIp grayPeerlistLimit m.peersGray
  apart : ∀ peer ∈ m.peersWhite, ∀ other ∈ m.peersGray, peer.adr ≠ other.adr

variable {m : PeerlistManager} (ok : Consistent allowLocalIp m)
include ok

theorem Consistent.appendWithPeerWhite (newPeer : PeerlistEntry) :
    Consistent allowLocalIp (m.appendWithPeerWhite sorting newPeer) := by
  unfold PeerlistManager.appendWithPeerWhite
  split
  · exact ok
  · rename_i checked
    rw [Bool.not_eq_true, Bool.not_eq_false', ok.setting] at checked
    have kept : m.peersGray.eraseP (·.adr == newPeer.adr) <+ m.peersGray := eraseP_sublist
    refine ⟨ok.setting, ok.white.put checked, ok.gray.subperm kept.subperm, ?_⟩
    intro peer mem other mem' same
    obtain mem | rfl := mem_put mem
    · exact ok.apart peer mem other (kept.subset mem') same
    · have erased := ok.gray.distinct.not_mem_erase (a := peer.adr)
      rw [erase_eq_eraseP', eraseP_map] at erased
      exact erased (mem_map.2 ⟨other, mem', same.symm⟩)

theorem Consistent.appendWithPeerGray (newPeer : PeerlistEntry) :
    Consistent allowLocalIp (m.appendWithPeerGray sorting newPeer) := by
  unfold PeerlistManager.appendWithPeerGray
  split
  · exact ok
  · rename_i checked
    rw [Bool.not_eq_true, Bool.not_eq_false', ok.setting] at checked
    split
    · exact ok
    · rename_i absent
      refine ⟨ok.setting, ok.white, ok.gray.put checked, fun peer mem other mem' same => ?_⟩
      obtain mem' | rfl := mem_put mem'
      · exact ok.apart peer mem other mem' same
      · exact absent (any_eq_true.2 ⟨peer, mem, beq_iff_eq.2 same⟩)

theorem Consistent.step (action : Action) : Consistent allowLocalIp (m.step sorting action) := by
  cases action with
  | merge outer =>
    have merged : Consistent allowLocalIp
        (run (PeerlistManager.appendWithPeerGray sorting) m outer) :=
      invariant_run_of_step (fun _ peer ok => ok.appendWithPeerGray peer) ok
    exact ⟨merged.setting, merged.white, merged.gray.subperm (trim_subperm _),
      fun peer mem other mem' => merged.apart peer mem other ((trim_subperm _).subset mem')⟩
  | appendWhite peer => exact ok.appendWithPeerWhite peer
  | appendGray peer => exact ok.appendWithPeerGray peer
  | justSeen now peer addr => exact ok.appendWithPeerWhite _

omit ok

/-- Whatever lists are merged and peers appended or seen, the lists stay consistent. -/
theorem consistent_run (sorting : Sorting) (allowLocalIp : Bool) (actions : List Action) :
    Consistent allowLocalIp
      (run (PeerlistManager.step sorting) ⟨allowLocalIp, [], []⟩ actions) := by
  have empty : ∀ maxSize, ListOk allowLocalIp maxSize [] := fun maxSize =>
    ⟨nodup_nil, Nat.zero_le _, forall_mem_nil _⟩
  exact invariant_run_of_step (fun _ action ok => ok.step action)
    ⟨rfl, empty _, empty _, forall_mem_nil _⟩

end PeerlistManager

end DeroGold.P2p
