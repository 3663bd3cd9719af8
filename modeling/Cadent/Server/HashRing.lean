import Cadent.Lib.Maps
import Mathlib.Data.Finset.Basic
import Mathlib.Data.List.Sort

/-!
# The consistent hash ring

A member has points on the circle, the hashes of its name with the number of each replica. A point
that two members share is the later one's, and leaves with either of them. `GetN` goes round the
circle from the first point after the hash of a key and collects members until it has enough. Its
loop compares the index with the start before the index is set back to zero, so that it does not
end where the start is the first point and there are too few members: it is given a number of
rounds here. The counter of `Add` and `Remove` does not ask whether the member was there.
-/

namespace HashRing

open Maps

/-- The hash, the name of a member's replica and how many replicas there are. -/
structure Hashing where
  hashKey : List (BitVec 8) → BitVec 32
  eltKey : String → Nat → List (BitVec 8)
  numberOfReplicas : Nat

/-- The points of a member. -/
def Hashing.points (hashing : Hashing) (elt : String) : List (BitVec 32) :=
  (List.range hashing.numberOfReplicas).map fun i => hashing.hashKey (hashing.eltKey elt i)

/-- The points on the circle are points of members. -/
structure Consistent (hashing : Hashing) where
  circle : Map (BitVec 32) String
  members : Finset String
  count : Int
  sound : ∀ p m, circle.lookup p = some m → m ∈ members ∧ p ∈ hashing.points m

/-- What `GetN` does: the error of an empty circle, a panic on a negative capacity, the servers,
or a loop that has not ended so far. -/
inductive Answer where
  | emptyCircle
  | panics
  | found (servers : List String)
  | running
  deriving DecidableEq

/-- `append` unless the element is there. -/
def collect (res : List String) (elem : String) : List String :=
  if elem ∈ res then res else res ++ [elem]

/-- The loop of `GetN` over the owners of the sorted points. -/
def walk (owners : List String) (n : Int) (start : Nat) : Nat → Nat → List String → Answer
  | 0, _, _ => .running
  | rounds + 1, i, res =>
    if i = start then .found res
    else
      let i := if owners.length ≤ i then 0 else i
      let res := (owners[i]?.map (collect res)).getD res
      if res.length = n then .found res else walk owners n start rounds (i + 1) res

namespace Consistent

variable {hashing : Hashing}

def new (hashing : Hashing) : Consistent hashing := ⟨∅, ∅, 0, nofun⟩

variable (c : Consistent hashing)

def add (elt : String) : Consistent hashing where
  circle := (hashing.points elt).foldl (fun circle p => circle.insert p elt) c.circle
  members := insert elt c.members
  count := c.count + 1
  sound p m found := by
    rw [lookup_foldl_insert] at found
    split_ifs at found with point
    · obtain rfl := Option.some.inj found
      exact ⟨Finset.mem_insert_self _ _, point⟩
    · obtain ⟨member, point⟩ := c.sound p m found
      exact ⟨Finset.mem_insert_of_mem member, point⟩

def remove (elt : String) : Consistent hashing where
  circle := (hashing.points elt).foldl (fun circle p => circle.erase p) c.circle
  members := c.members.erase elt
  count := c.count - 1
  sound p m found := by
    obtain ⟨other, found⟩ := lookup_foldl_erase.mp found
    obtain ⟨member, point⟩ := c.sound p m found
    refine ⟨Finset.mem_erase_of_ne_of_mem ?_ member, point⟩
    rintro rfl
    exact other point

def sortedHashes : List (BitVec 32) := c.circle.keys.insertionSort (· ≤ ·)

/-- The member at each of the sorted points. -/
def owners : List String := c.sortedHashes.filterMap fun p => c.circle.lookup p

def search (key : BitVec 32) : Nat :=
  let i := c.sortedHashes.findIdx (key < ·)
  if c.sortedHashes.length ≤ i then 0 else i

/-- How many servers `GetN` goes for. -/
def wanted (n : Int) : Int := if c.count < n then c.count else n

def getN (rounds : Nat) (name : List (BitVec 8)) (n : Int) : Answer :=
  let start := c.search (hashing.hashKey name)
  let res := c.owners[start]?.toList
  if c.circle.keys.length = 0 then .emptyCircle
  -- `Get` has the member at the same point
  else if n = 1 ∨ c.circle.keys.length = 1 then .found res
  else if c.wanted n < 0 then .panics
  else if res.length = c.wanted n then .found res
  else walk c.owners (c.wanted n) start rounds (start + 1) res

variable {c}

theorem mem_members_of_mem_owners {m : String} (mem : m ∈ c.owners) : m ∈ c.members := by
  obtain ⟨p, -, owner⟩ := List.mem_filterMap.mp mem
  exact (c.sound p m owner).1

end Consistent

theorem collect_subset {owners res : List String} {elem : String} (mem : elem ∈ owners)
    (among : res ⊆ owners) : collect res elem ⊆ owners := by
  unfold collect
  split_ifs
  · exact among
  · exact List.append_subset.mpr ⟨among, by simpa using mem⟩

theorem walk_subset {owners servers : List String} {n : Int} {start rounds i : Nat}
    {res : List String} (among : res ⊆ owners)
    (found : walk owners n start rounds i res = .found servers) : servers ⊆ owners := by
  induction rounds generalizing i res with
  | zero => cases found
  | succ rounds ih =>
    rw [walk] at found
    split at found
    · cases found
      exact among
    · generalize (if owners.length ≤ i then 0 else i) = i at found
      have more : (owners[i]?.map (collect res)).getD res ⊆ owners := by
        cases here : owners[i]? with
        | none => exact among
        | some elem => exact collect_subset (List.mem_of_getElem? here) among
      dsimp only at found
      split at found
      · cases found
        exact more
      · exact ih more found

theorem Consistent.getN_members {hashing : Hashing} {c : Consistent hashing} {rounds : Nat}
    {name : List (BitVec 8)} {n : Int} {servers : List String}
    (found : c.getN rounds name n = .found servers) : ∀ m ∈ servers, m ∈ c.members := by
  suffices among : servers ⊆ c.owners from fun m mem => mem_members_of_mem_owners (among mem)
  have first : (c.owners[c.search (hashing.hashKey name)]?).toList ⊆ c.owners := fun m mem =>
    List.mem_of_getElem? (Option.mem_toList.mp mem)
  unfold getN at found
  dsimp only at found
  split_ifs at found
  · cases found
    exact first
  · cases found
    exact first
  · exact walk_subset first found

end HashRing
